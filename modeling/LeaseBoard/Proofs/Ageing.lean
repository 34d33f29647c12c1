import LeaseBoard.Proofs.Schedule
set_option autoImplicit false

/-!
# Leases age out

A lease that no list touches leaves the board with the first tick at or after its instant of expiry:
no earlier, no later and for good.  `LeaseEntry.EndsAt` reads that instant off the entry of the lease;
`Board.ClearedAt` is what later steps keep of a tick as long as the clock goes forward.

Main statement: `leases_age_out_at_expiry`.
-/

namespace LeaseBoard

/-! ## The instant of expiry of an entry -/

/-- An instant is set if it is given and lies after the year one. -/
def Instant.IsSet (given : Option Instant) (t : Instant) : Prop := given = some t ∧ 1 < t.year

/-- No instant is set: none is given after the year one. -/
def Instant.IsUnset (given : Option Instant) : Prop := ∀ t, given = some t → t.year ≤ 1

theorem setInstant?_eq_some_iff {given : Option Instant} {t : Instant} :
    setInstant? given = some t ↔ Instant.IsSet given t := by
  rw [setInstant?, Option.filter_eq_some_iff, decide_eq_true_iff]
  rfl

theorem setInstant?_eq_none_iff {given : Option Instant} :
    setInstant? given = none ↔ Instant.IsUnset given := by
  rw [setInstant?, Option.filter_eq_none_iff]
  simp only [decide_eq_true_eq, Int.not_lt]
  rfl

namespace LeaseEntry

/-- A lease runs from its last renewal or, where that is not set, from its start. -/
inductive RunsFrom (entry : LeaseEntry) : Instant → Prop
  | renewal {t : Instant} (hrenewed : Instant.IsSet entry.renewed t) : RunsFrom entry t
  | start {t : Instant} (hrenewed : Instant.IsUnset entry.renewed)
      (hstarted : Instant.IsSet entry.started t) : RunsFrom entry t

/-- When an active lease ends: a duration after the instant that it runs from, and a decay after that.
Without such an instant it does not end. -/
inductive RunsOutAt (entry : LeaseEntry) : Option Instant → Prop
  | running {t ended expiry : Instant} (hfrom : entry.RunsFrom t)
      (hduration : t.add? entry.duration.toInt = some ended)
      (hdecay : ended.add? entry.decay.toInt = some expiry) : RunsOutAt entry (some expiry)
  | unset (hrenewed : Instant.IsUnset entry.renewed) (hstarted : Instant.IsUnset entry.started) :
      RunsOutAt entry none

/-- When the lease of an entry ends: an active one as it runs out, a released one a decay after its
release or, where that is not set, like an active one.  Any other lease does not end. -/
inductive EndsAt (entry : LeaseEntry) : Option Instant → Prop
  | active {expiry : Option Instant} (hstatus : entry.status = "active")
      (hruns : entry.RunsOutAt expiry) : EndsAt entry expiry
  | released {t expiry : Instant} (hstatus : entry.status = "released")
      (hreleased : Instant.IsSet entry.released t)
      (hdecay : t.add? entry.decay.toInt = some expiry) : EndsAt entry (some expiry)
  | unreleased {expiry : Option Instant} (hstatus : entry.status = "released")
      (hreleased : Instant.IsUnset entry.released) (hruns : entry.RunsOutAt expiry) :
      EndsAt entry expiry
  | other (hactive : entry.status ≠ "active") (hreleased : entry.status ≠ "released") :
      EndsAt entry none

variable {entry : LeaseEntry}

theorem lastRenewal_eq_some_iff {t : Instant} : entry.lastRenewal = some t ↔ entry.RunsFrom t := by
  rw [lastRenewal, Option.or_eq_some_iff, setInstant?_eq_some_iff, setInstant?_eq_some_iff,
    setInstant?_eq_none_iff]
  constructor
  · rintro (hrenewed | ⟨hrenewed, hstarted⟩)
    · exact .renewal hrenewed
    · exact .start hrenewed hstarted
  · rintro (hrenewed | ⟨hrenewed, hstarted⟩)
    · exact Or.inl hrenewed
    · exact Or.inr ⟨hrenewed, hstarted⟩

theorem lastRenewal_eq_none_iff : entry.lastRenewal = none ↔
    Instant.IsUnset entry.renewed ∧ Instant.IsUnset entry.started := by
  rw [lastRenewal, Option.or_eq_none_iff, setInstant?_eq_none_iff, setInstant?_eq_none_iff]

end LeaseEntry

theorem Instant.addSpan_eq_ok_iff {t moved : Instant} {span : Int64} :
    t.addSpan span = .ok moved ↔ t.add? span.toInt = some moved := by
  unfold addSpan
  cases t.add? span.toInt <;> simp

namespace LeaseEntry

variable {entry : LeaseEntry}

theorem nominalExpiry_eq_ok_iff {expiry : Option Instant} :
    nominalExpiry entry.lastRenewal entry.duration entry.decay = .ok expiry ↔
      entry.RunsOutAt expiry := by
  constructor
  · intro h
    cases hrenewal : entry.lastRenewal with
    | none =>
      rw [hrenewal] at h
      cases h
      obtain ⟨hrenewed, hstarted⟩ := lastRenewal_eq_none_iff.1 hrenewal
      exact .unset hrenewed hstarted
    | some t =>
      rw [hrenewal] at h
      obtain ⟨ended, hended, h⟩ := Except.bind_eq_ok h
      obtain ⟨final, hfinal, h⟩ := Except.bind_eq_ok h
      cases h
      exact .running (lastRenewal_eq_some_iff.1 hrenewal) (Instant.addSpan_eq_ok_iff.1 hended)
        (Instant.addSpan_eq_ok_iff.1 hfinal)
  · intro h
    cases h with
    | @running t ended final hfrom hduration hdecay =>
      rw [lastRenewal_eq_some_iff.2 hfrom]
      calc
        nominalExpiry (some t) entry.duration entry.decay
          = t.addSpan entry.duration >>= fun t => (t.addSpan entry.decay).map some := rfl
        _ = (ended.addSpan entry.decay).map some := by
          rw [Instant.addSpan_eq_ok_iff.2 hduration]
          rfl
        _ = .ok (some final) := by
          rw [Instant.addSpan_eq_ok_iff.2 hdecay]
          rfl
    | unset hrenewed hstarted =>
      rw [lastRenewal_eq_none_iff.2 ⟨hrenewed, hstarted⟩]
      rfl

/-- The expiry that is computed for an entry is the instant at which its lease ends. -/
theorem expiryOf_eq_ok_iff {expiry : Option Instant} :
    expiryOf (Status.ofName entry.status) entry.lastRenewal (setInstant? entry.released)
        entry.duration entry.decay = .ok expiry ↔ entry.EndsAt expiry := by
  constructor
  · intro h
    unfold Status.ofName at h
    split at h
    case isTrue hactive => exact .active hactive (nominalExpiry_eq_ok_iff.1 h)
    case isFalse hactive =>
      split at h
      case isTrue hstatus =>
        cases hreleased : setInstant? entry.released with
        | none =>
          rw [hreleased] at h
          exact .unreleased hstatus (setInstant?_eq_none_iff.1 hreleased) (nominalExpiry_eq_ok_iff.1 h)
        | some t =>
          rw [hreleased] at h
          obtain ⟨final, hfinal, rfl⟩ := Except.map_eq_ok h
          exact .released hstatus (setInstant?_eq_some_iff.1 hreleased)
            (Instant.addSpan_eq_ok_iff.1 hfinal)
      case isFalse hstatus =>
        have hnone : expiry = none := by
          split at h <;> cases h <;> rfl
        exact hnone ▸ .other hactive hstatus
  · intro h
    cases h with
    | active hstatus hruns =>
      rw [hstatus]
      exact nominalExpiry_eq_ok_iff.2 hruns
    | released hstatus hreleased hdecay =>
      rw [hstatus, setInstant?_eq_some_iff.2 hreleased]
      exact congrArg (Except.map some) (Instant.addSpan_eq_ok_iff.2 hdecay)
    | unreleased hstatus hreleased hruns =>
      rw [hstatus, setInstant?_eq_none_iff.2 hreleased]
      exact nominalExpiry_eq_ok_iff.2 hruns
    | other hactive hreleased =>
      rw [Status.ofName, if_neg hactive, if_neg hreleased]
      split <;> rfl

end LeaseEntry

/-- A lease expires when its entry says that it ends. -/
theorem Lease.endsAt_iff {entry : LeaseEntry} {lease : Lease} (h : ofEntry entry = .ok lease)
    {expiry : Option Instant} : entry.EndsAt expiry ↔ lease.expiry = expiry := by
  obtain ⟨-, -, hexpiry, -⟩ := ofEntry_eq_ok h
  rw [← LeaseEntry.expiryOf_eq_ok_iff, hexpiry, Except.ok.injEq]

theorem Lease.isExpired_iff {lease : Lease} {now : Instant} :
    lease.isExpired now = true ↔ ∃ expiry, lease.expiry = some expiry ∧ expiry ≤ now := by
  unfold isExpired
  cases lease.expiry <;> simp

/-! ## The lease that a list brings -/

/-- The last entry of a list with an identity. -/
def LeaseList.entry? (list : LeaseList) (id : String) : Option LeaseEntry :=
  list.leases.reverse.find? fun entry => entry.id? = some id

theorem LeaseList.entry?_eq_none_iff {list : LeaseList} {id : String} :
    list.entry? id = none ↔ ∀ entry ∈ list.leases, entry.id? ≠ some id := by
  unfold LeaseList.entry?
  simp

/-- The lease that a list brings under an identity is that of its last entry with the identity. -/
theorem Lease.last?_of_collect {list : LeaseList} {leases : List Lease}
    (h : collect list.leases = .ok leases) (id : String) :
    (list.entry? id = none ∧ Tabled.last? leases id = none) ∨
      ∃ entry lease, list.entry? id = some entry ∧ ofEntry entry = .ok lease ∧
        Tabled.last? leases id = some lease :=
  Tabled.last?_of_collect (fun hentry => (parts_of_ofEntry hentry).1) h id

namespace Board

/-- After a list that was applied, the lease under an identity that the list names is that of the last
entry with the identity. -/
theorem ofEntry_of_get?_apply {b after : Board} {list : LeaseList} {now : Instant}
    {sent : List Instruction} (h : b.apply (.leases list) now = .ok (after, sent)) {id : String}
    {entry : LeaseEntry} (hentry : list.entry? id = some entry) {lease : Lease}
    (hget : after.leases.get? id = some lease) : Lease.ofEntry entry = .ok lease := by
  obtain ⟨changed, instructions, hchange, hreconnect⟩ := apply_eq_ok h
  obtain ⟨leases, revisions, hcollect, -, hchanged, -⟩ := applyLeases_eq_ok hchange
  have hafter : after = { changed with connection := .connected } := by
    rw [← reconnect_fst changed instructions, hreconnect]
  rw [hafter, hchanged] at hget
  have hfrom := Roster.of_get?_update (Lease.nodup_ids_of_collect hcollect) hget
  obtain ⟨hnone, -⟩ | ⟨named, listed, hnamed, hlisted, hlast⟩ := Lease.last?_of_collect hcollect id
  · rw [hentry] at hnone
    cases hnone
  · obtain rfl := Option.some.inj (hentry.symm.trans hnamed)
    rcases hfrom with ⟨hsame, -⟩ | ⟨hunlisted, -⟩
    · rw [hlisted, Option.some.inj (hlast.symm.trans hsame)]
    · rw [hlast] at hunlisted
      cases hunlisted

end Board

/-! ## What takes a lease off -/

theorem Option.filter_true {α : Type} (x : Option α) : (x.filter fun _ => true) = x := by
  cases x <;> rfl

namespace Board

/-- Whether a step is a tick by which a lease has expired. -/
def Step.outlasts : Step → Lease → Bool
  | .event _ _, _ => false
  | .interruption _, _ => false
  | .tick now, lease => lease.isExpired now

end Board

/-- A lease outlives a history: every tick of it comes before the lease expires, if it does. -/
def Lease.Outlives (lease : Lease) (steps : List Board.Step) : Prop :=
  ∀ expiry, lease.expiry = some expiry → ∀ now, .tick now ∈ steps → now < expiry

theorem Lease.outlives_iff {lease : Lease} {steps : List Board.Step} :
    lease.Outlives steps ↔ ∀ now, .tick now ∈ steps → lease.isExpired now = false := by
  simp only [← Bool.not_eq_true, isExpired_iff, not_exists, not_and]
  exact ⟨fun h now hmem expiry hexpiry => h expiry hexpiry now hmem,
    fun h expiry hexpiry now hmem => h now hmem expiry hexpiry⟩

theorem Lease.outlives_iff_any {lease : Lease} {steps : List Board.Step} :
    lease.Outlives steps ↔ steps.any (·.outlasts lease) = false := by
  rw [outlives_iff, List.any_eq_false]
  constructor
  · intro h s hmem
    cases s with
    | event event now => exact Bool.false_ne_true
    | interruption reason => exact Bool.false_ne_true
    | tick now => exact Bool.eq_false_iff.1 (h now hmem)
  · exact fun h now hmem => Bool.eq_false_iff.2 (h _ hmem)

instance (lease : Lease) (steps : List Board.Step) : Decidable (lease.Outlives steps) :=
  decidable_of_iff _ Lease.outlives_iff_any.symm

namespace Board

/-- A history spares a lease: no list that is applied in it names the lease or has the scope of its
resource. -/
def Spares (b : Board) (lease : Lease) (steps : List Step) : Prop :=
  ∀ list ∈ accepted (b.verdicts steps), list.resource ≠ some lease.resource ∧
    ∀ entry ∈ list.leases, entry.id? ≠ some lease.id

instance (b : Board) (lease : Lease) (steps : List Step) : Decidable (b.Spares lease steps) :=
  inferInstanceAs (Decidable (∀ list ∈ accepted (b.verdicts steps), _ ∧ ∀ entry ∈ list.leases, _))

/-- A history spares a lease if its parts do. -/
theorem spares_append_iff {b : Board} {lease : Lease} {first second : List Step} :
    b.Spares lease (first ++ second) ↔ b.Spares lease first ∧ (b.run first).Spares lease second := by
  unfold Spares
  rw [verdicts_append, accepted, List.filterMap_append]
  exact List.forall_mem_append

theorem get?_tick (b : Board) (now : Instant) (id : String) :
    (b.step (.tick now)).board.leases.get? id =
      (b.leases.get? id).filter fun lease => !lease.isExpired now :=
  Roster.get?_expire b.leases now id

/-- A step that spares a lease takes it off exactly if it is a tick by which the lease has expired. -/
theorem get?_step_of_spares {b : Board} {lease : Lease} {s : Step} (h : b.Spares lease [s])
    (hrow : ∀ row, b.leases.get? lease.id = some row → row.resource = lease.resource) :
    (b.step s).board.leases.get? lease.id =
      (b.leases.get? lease.id).filter fun row => !s.outlasts row := by
  cases s with
  | interruption reason => exact (Option.filter_true _).symm
  | tick now => exact get?_tick b now lease.id
  | event event now =>
    refine Eq.trans ?_ (Option.filter_true _).symm
    obtain ⟨failure, -, hboard⟩ | ⟨list, policies, rfl, -, -, hboard⟩ |
      ⟨list, leases, revisions, rfl, hverdict, hcollect, -, hboard⟩ := b.step_event_cases event now
    · rw [hboard]
    · rw [hboard]
    · have hmem : list ∈ accepted (b.verdicts [.event (.leases list) now]) := by
        rw [verdicts, map_result_event, hverdict]
        exact List.mem_cons_self
      obtain ⟨hscope, hentries⟩ := h list hmem
      obtain ⟨-, hlast⟩ | ⟨entry, -, hentry, -⟩ := Lease.last?_of_collect hcollect lease.id
      · rw [hboard, Roster.get?_update_of_nodup _ _ (Lease.nodup_ids_of_collect hcollect), hlast]
        cases hget : b.leases.get? lease.id with
        | none => rfl
        | some row =>
          rw [← hrow row hget] at hscope
          simp [Roster.inScope, Option.filter, hscope]
      · rw [LeaseList.entry?_eq_none_iff.2 hentries] at hentry
        cases hentry

/-- What a history that spares a lease leaves of it: the lease as it was, unless a tick has come by which
it has expired. -/
theorem get?_run_of_spares {b : Board} {lease : Lease} {steps : List Step}
    (h : b.Spares lease steps)
    (hrow : ∀ row, b.leases.get? lease.id = some row → row.resource = lease.resource) :
    (b.run steps).leases.get? lease.id =
      (b.leases.get? lease.id).filter fun row => !steps.any (·.outlasts row) := by
  induction steps generalizing b with
  | nil =>
    exact (Option.filter_true _).symm
  | cons s rest ih =>
    have hparts : b.Spares lease ([s] ++ rest) := h
    obtain ⟨hfirst, (hrest : (b.step s).board.Spares lease rest)⟩ := spares_append_iff.1 hparts
    have hstep := get?_step_of_spares hfirst hrow
    have hrow' : ∀ row, (b.step s).board.leases.get? lease.id = some row →
        row.resource = lease.resource := by
      intro row hget
      rw [hstep] at hget
      exact hrow row (Option.filter_eq_some_iff.1 hget).1
    rw [run_cons, ih hrest hrow', hstep, Option.filter_filter]
    congr 1
    funext row
    rw [List.any_cons, Bool.not_or, Bool.and_comm]

section Spared

variable {b : Board} {lease : Lease} {steps : List Step} (h : b.Spares lease steps)

include h

/-- A lease that is spared stays as long as no tick comes by which it has expired. -/
theorem get?_run_of_outlives (hget : b.leases.get? lease.id = some lease)
    (houtlives : lease.Outlives steps) : (b.run steps).leases.get? lease.id = some lease := by
  rw [Lease.outlives_iff_any] at houtlives
  rw [get?_run_of_spares h (by simp [hget]), hget, Option.filter_some, houtlives]
  rfl

/-- A lease that is spared is gone after such a tick. -/
theorem get?_run_of_not_outlives (hget : b.leases.get? lease.id = some lease)
    (hnot : ¬lease.Outlives steps) : (b.run steps).leases.get? lease.id = none := by
  rw [Lease.outlives_iff_any, Bool.not_eq_false] at hnot
  rw [get?_run_of_spares h (by simp [hget]), hget, Option.filter_some, hnot]
  rfl

/-- Where there is no lease none comes back. -/
theorem get?_run_of_get?_eq_none (hget : b.leases.get? lease.id = none) :
    (b.run steps).leases.get? lease.id = none := by
  rw [get?_run_of_spares h (by simp [hget]), hget]
  rfl

end Spared

/-! ## The rows that ticks leave -/

/-- The rows that a tick takes off, in ascending order of their identities, each with a removal, and
after them one refresh. -/
theorem exists_removals_of_tick (b : Board) (now : Instant) :
    ∃ ids : List String,
      (b.step (.tick now)).result = .ok (ids.map (Tabled.removal Lease) ++ [.refresh now]) ∧
      ids.Pairwise (· < ·) ∧
      ∀ id, id ∈ ids ↔ ∃ lease expiry, b.leases.get? id = some lease ∧
        lease.expiry = some expiry ∧ expiry ≤ now := by
  refine ⟨(b.leases.expire now).1, rfl, Keyed.keys_pairwise _, fun id => ?_⟩
  rw [Roster.expire, Keyed.mem_keys_iff, Keyed.get?_filter, Option.isSome_iff_exists]
  constructor
  · rintro ⟨lease, h⟩
    obtain ⟨hget, hgone⟩ := Option.filter_eq_some_iff.1 h
    obtain ⟨expiry, hexpiry, hle⟩ := Lease.isExpired_iff.1 hgone
    exact ⟨lease, expiry, hget, hexpiry, hle⟩
  · rintro ⟨lease, expiry, hget, hexpiry, hle⟩
    exact ⟨lease, Option.filter_eq_some_iff.2 ⟨hget, Lease.isExpired_iff.2 ⟨expiry, hexpiry, hle⟩⟩⟩

/-- No lease of the board has expired at an instant. -/
def ClearedAt (b : Board) (now : Instant) : Prop :=
  ∀ id lease, b.leases.get? id = some lease → lease.isExpired now = false

theorem clearedAt_tick (b : Board) (now : Instant) : (b.step (.tick now)).board.ClearedAt now := by
  intro id lease hget
  rw [get?_tick] at hget
  simpa using (Option.filter_eq_some_iff.1 hget).2

/-- What comes later brings no lease that had expired before. -/
theorem ClearedAt.step {b : Board} {now : Instant} (h : b.ClearedAt now) {s : Step}
    (hlater : ∀ later, s.time? = some later → now ≤ later) : (b.step s).board.ClearedAt now := by
  cases s with
  | interruption reason => exact h
  | tick later =>
    intro id lease hget
    rw [get?_tick] at hget
    exact h id lease (Option.filter_eq_some_iff.1 hget).1
  | event event later =>
    obtain ⟨failure, -, hboard⟩ | ⟨list, policies, -, -, -, hboard⟩ |
      ⟨list, leases, revisions, rfl, -, hcollect, -, hboard⟩ := b.step_event_cases event later
    · rw [hboard]
      exact h
    · rw [hboard]
      exact h
    · rw [hboard]
      intro id lease hget
      rcases Roster.of_get?_update (Lease.nodup_ids_of_collect hcollect) hget with
        ⟨-, hlive⟩ | ⟨-, hold⟩
      · -- A listed lease is there only if it lives at the later instant.
        refine Bool.eq_false_iff.2 fun hgone => ?_
        rw [Lease.isExpired_mono (hlater later rfl) hgone] at hlive
        cases hlive
      · exact h id lease hold

theorem ClearedAt.run {b : Board} {now : Instant} (h : b.ClearedAt now) {steps : List Step}
    (hlater : ∀ later ∈ steps.filterMap Step.time?, now ≤ later) : (b.run steps).ClearedAt now := by
  induction steps generalizing b with
  | nil => exact h
  | cons s rest ih =>
    refine ih (h.step fun later htime => hlater later ?_) fun later hmem => hlater later ?_
    · exact List.mem_filterMap.2 ⟨s, List.mem_cons_self, htime⟩
    · obtain ⟨t, ht, htime⟩ := List.mem_filterMap.1 hmem
      exact List.mem_filterMap.2 ⟨t, List.mem_cons_of_mem _ ht, htime⟩

/-- If the clock never goes back, no lease is on the board that has expired by a tick of its history. -/
theorem clearedAt_run_of_timely (b : Board) {steps : List Step} (htimely : Timely steps)
    {now : Instant} (htick : .tick now ∈ steps) : (b.run steps).ClearedAt now := by
  obtain ⟨before, later, rfl⟩ := List.append_of_mem htick
  rw [run_append, run_cons]
  refine ClearedAt.run (clearedAt_tick _ now) ?_
  unfold Timely at htimely
  rw [List.filterMap_append, List.filterMap_cons, Step.time?] at htimely
  exact (List.pairwise_cons.1 (List.pairwise_append.1 htimely).2.1).1

end Board

/-! ## Ageing out -/

/-- Leases age out at their instant of expiry.

A lease that a list has written is the lease of the last entry of the list with its identity, and expires
when that entry ends.  Through a history in which no list that is applied names it or has the scope of
its resource, it stays as it is exactly as long as every tick comes before it expires; otherwise it is
gone, and does not come back.

A tick takes off exactly the leases that have expired by then.  Where the clock never goes back, no lease
is on the board that has expired by a tick of its history, whether it came before the tick or after. -/
theorem leases_age_out_at_expiry :
    (∀ (b after : Board) (list : LeaseList) (now : Instant) (sent : List Instruction)
        (entry : LeaseEntry) (lease : Lease),
      b.apply (.leases list) now = .ok (after, sent) → list.entry? lease.id = some entry →
      after.leases.get? lease.id = some lease →
      Lease.ofEntry entry = .ok lease ∧ (∀ expiry, entry.EndsAt expiry ↔ lease.expiry = expiry) ∧
      ∀ steps, after.Spares lease steps →
        ((after.run steps).leases.get? lease.id = some lease ↔ lease.Outlives steps) ∧
        ((after.run steps).leases.get? lease.id = none ↔ ¬lease.Outlives steps) ∧
        ∀ before later, steps = before ++ later → (after.run before).leases.get? lease.id = none →
          (after.run steps).leases.get? lease.id = none) ∧
    (∀ (b : Board) (now : Instant), ∃ ids : List String,
      (b.step (.tick now)).result = .ok (ids.map (Tabled.removal Lease) ++ [.refresh now]) ∧
      ids.Pairwise (· < ·) ∧
      ∀ id, id ∈ ids ↔ ∃ lease expiry, b.leases.get? id = some lease ∧
        lease.expiry = some expiry ∧ expiry ≤ now) ∧
    ∀ (b : Board) (steps : List Board.Step), Board.Timely steps →
      ∀ id lease, (b.run steps).leases.get? id = some lease → lease.Outlives steps := by
  refine ⟨?_, Board.exists_removals_of_tick, ?_⟩
  · intro b after list now sent entry lease happly hentry hget
    have hlease : Lease.ofEntry entry = .ok lease := Board.ofEntry_of_get?_apply happly hentry hget
    refine ⟨hlease, fun expiry => Lease.endsAt_iff hlease, fun steps hspares => ?_⟩
    have hstays := Board.get?_run_of_outlives hspares hget
    have hgoes := Board.get?_run_of_not_outlives hspares hget
    refine ⟨⟨fun hthere => ?_, hstays⟩, ⟨fun hgone houtlives => ?_, hgoes⟩, ?_⟩
    · by_contra hnot
      rw [hgoes hnot] at hthere
      cases hthere
    · rw [hstays houtlives] at hgone
      cases hgone
    · rintro before later rfl hgone
      rw [Board.run_append]
      exact Board.get?_run_of_get?_eq_none (Board.spares_append_iff.1 hspares).2 hgone
  · intro b steps htimely id lease hget
    exact Lease.outlives_iff.2 fun now htick =>
      Board.clearedAt_run_of_timely b htimely htick id lease hget

/-- A released lease stays through the list of another resource, a stale list of its own and an
interruption, and leaves with the first tick at its expiry. -/
theorem leases_age_out_at_expiry_released :
    let written : Board.Step := .event (.leases (releasedList "a" "gpu" (some 1))) (atSecond 1)
    let after := (Board.empty.step written).board
    let x := Lease.ofParts (releasedEntry "a" "gpu") "a" "gpu" (some (atSecond 5))
    let calm : List Board.Step := [.event (.leases (releasedList "b" "cad" (some 1))) (atSecond 2),
      .event (.leases (releasedList "a" "gpu" (some 1))) (atSecond 3), .interruption "reset",
      .tick (atSecond 4)]
    (releasedEntry "a" "gpu").EndsAt (some (atSecond 5)) ∧
      (after.run calm).leases.get? "a" = some x ∧ x.Outlives (written :: calm) ∧
      (after.run (calm ++ [.tick (atSecond 5)])).leases.get? "a" = none ∧
      ∃ ids : List String, ((after.run calm).step (.tick (atSecond 5))).result =
        .ok (ids.map (Tabled.removal Lease) ++ [.refresh (atSecond 5)]) ∧ "a" ∈ ids := by
  intro written after x calm
  obtain ⟨hwritten, hticks, htimely⟩ := leases_age_out_at_expiry
  obtain ⟨-, hends, hfate⟩ := hwritten Board.empty after (releasedList "a" "gpu" (some 1))
    (atSecond 1) (Board.empty.step written).sent (releasedEntry "a" "gpu") x rfl rfl (by decide)
  have hstays : (after.run calm).leases.get? "a" = some x := (hfate calm (by decide)).1.2 (by decide)
  obtain ⟨ids, hsent, -, hids⟩ := hticks (after.run calm) (atSecond 5)
  refine ⟨(hends _).2 rfl, hstays, ?_, ?_, ids, hsent, ?_⟩
  · exact htimely Board.empty (written :: calm) (by decide) "a" x hstays
  · exact (hfate (calm ++ [.tick (atSecond 5)]) (by decide)).2.1.2 (by decide)
  · exact (hids "a").2 ⟨x, atSecond 5, hstays, rfl, by decide⟩

end LeaseBoard
