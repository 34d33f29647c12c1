import LeaseBoard.Proofs.Revision
import LeaseBoard.Proofs.Schedule
set_option autoImplicit false

/-!
# Verdicts and the greatest revision

Whether a list of leases is applied depends on its entries first: the first one that is bad turns the
list down.  A list of good entries is turned down only as stale, for a revision that is not above the
last one of its resource.

The last revision of a resource is the greatest one announced for it, by all lists that were applied,
and as well by all lists of good entries: what is stale is not above what was there
(`last?_step_leases`).  So the order in which lists come does not matter.  Main statement:
`verdicts_and_greatest_revisions`.
-/

namespace LeaseBoard

/-! ## The first bad entry -/

theorem Instant.addSpan_eq_error {t : Instant} {span : Int64} {failure : Failure}
    (h : t.addSpan span = .error failure) : failure = .outOfCalendar := by
  unfold addSpan at h
  split at h
  · cases h
  · exact (Except.error.inj h).symm

theorem nominalExpiry_eq_error {renewed : Option Instant} {duration decay : Int64}
    {failure : Failure} (h : nominalExpiry renewed duration decay = .error failure) :
    failure = .outOfCalendar := by
  unfold nominalExpiry at h
  split at h
  · cases h
  · rcases Except.bind_eq_error h with hduration | ⟨ended, -, h⟩
    · exact Instant.addSpan_eq_error hduration
    · rcases Except.bind_eq_error h with hdecay | ⟨expiry, -, h⟩
      · exact Instant.addSpan_eq_error hdecay
      · cases h

/-- Nothing but an instant out of the calendar can be wrong with an expiry. -/
theorem expiryOf_eq_error {status : Status} {renewed released : Option Instant}
    {duration decay : Int64} {failure : Failure}
    (h : expiryOf status renewed released duration decay = .error failure) :
    failure = .outOfCalendar := by
  unfold expiryOf at h
  split at h
  case h_1 => exact nominalExpiry_eq_error h
  case h_2 =>
    split at h
    case h_1 t =>
      cases hexpiry : t.addSpan decay with
      | error cause =>
        rw [hexpiry] at h
        cases h
        exact Instant.addSpan_eq_error hexpiry
      | ok expiry => rw [hexpiry] at h; cases h
    case h_2 => exact nominalExpiry_eq_error h
  case h_3 => cases h
  case h_4 => cases h

/-- Why an entry is turned down, if it is: it has no identity, or it has no resource. -/
def LeaseEntry.fault? (entry : LeaseEntry) : Option Rejection :=
  match entry.id?, entry.resource? with
  | none, _ => some .missingInstance
  | some id, none => some (.missingLeaseResource id)
  | some _, some _ => none

theorem LeaseEntry.invalid_of_fault {entry : LeaseEntry} {cause : Rejection}
    (h : entry.fault? = some cause) : ∃ reason, cause = .invalid .lease reason := by
  unfold fault? at h
  split at h
  · exact ⟨_, (Option.some.inj h).symm⟩
  · exact ⟨_, (Option.some.inj h).symm⟩
  · cases h

namespace Lease

theorem ofEntry_of_fault {entry : LeaseEntry} {cause : Rejection} (h : entry.fault? = some cause) :
    ofEntry entry = .error (.rejected cause) := by
  unfold LeaseEntry.fault? at h
  unfold ofEntry
  cases hid : entry.id? with
  | none =>
    simp only [hid, Option.some.injEq] at h
    rw [← h]
  | some id =>
    cases hresource : entry.resource? with
    | none =>
      simp only [hid, hresource, Option.some.injEq] at h
      rw [← h]
    | some resource => simp only [hid, hresource] at h; cases h

/-- An entry without a fault makes a lease, unless its expiry is out of the calendar. -/
theorem ofEntry_of_no_fault {entry : LeaseEntry} (h : entry.fault? = none) :
    (∃ lease, ofEntry entry = .ok lease) ∨ ofEntry entry = .error .outOfCalendar := by
  unfold LeaseEntry.fault? at h
  unfold ofEntry
  cases hid : entry.id? with
  | none => simp only [hid] at h; cases h
  | some id =>
    cases hresource : entry.resource? with
    | none => simp only [hid, hresource] at h; cases h
    | some resource =>
      cases hexpiry : expiryOf (Status.ofName entry.status) entry.lastRenewal
          (setInstant? entry.released) entry.duration entry.decay with
      | error failure =>
        obtain rfl := expiryOf_eq_error hexpiry
        exact Or.inr rfl
      | ok expiry => exact Or.inl ⟨_, rfl⟩

/-- A list of entries whose instants stay in the calendar makes leases, or fails with the fault of the
first entry that has one. -/
theorem mapM_ofEntry_eq {entries : List LeaseEntry}
    (h : entries.mapM ofEntry ≠ .error .outOfCalendar) :
    match entries.findSome? LeaseEntry.fault? with
    | some cause => entries.mapM ofEntry = .error (.rejected cause)
    | none => ∃ rows, entries.mapM ofEntry = .ok rows := by
  induction entries with
  | nil => exact ⟨[], rfl⟩
  | cons entry rest ih =>
    rw [List.mapM_cons] at h ⊢
    rw [List.findSome?_cons]
    cases hfault : entry.fault? with
    | some cause => rw [ofEntry_of_fault hfault]; rfl
    | none =>
      rcases ofEntry_of_no_fault hfault with ⟨lease, hlease⟩ | hcalendar
      · rw [hlease] at h ⊢
        have hrest : rest.mapM ofEntry ≠ .error .outOfCalendar := by
          intro hcalendar
          rw [hcalendar] at h
          exact h rfl
        have hih := ih hrest
        cases hfirst : rest.findSome? LeaseEntry.fault? with
        | some cause =>
          simp only [hfirst] at hih ⊢
          rw [hih]
          rfl
        | none =>
          simp only [hfirst] at hih ⊢
          obtain ⟨rows, hrows⟩ := hih
          exact ⟨lease :: rows, by rw [hrows]; rfl⟩
      · rw [hcalendar] at h
        exact absurd rfl h

theorem collect_eq {entries : List LeaseEntry} (h : collect entries ≠ .error .outOfCalendar) :
    match entries.findSome? LeaseEntry.fault? with
    | some cause => collect entries = .error (.rejected cause)
    | none => ∃ leases, collect entries = .ok leases := by
  unfold collect at h ⊢
  have hrows : entries.mapM ofEntry ≠ .error .outOfCalendar := by
    intro hcalendar
    rw [hcalendar] at h
    exact h rfl
  have heq := mapM_ofEntry_eq hrows
  cases hfirst : entries.findSome? LeaseEntry.fault? with
  | some cause =>
    simp only [hfirst] at heq ⊢
    rw [heq]
    rfl
  | none =>
    simp only [hfirst] at heq ⊢
    obtain ⟨rows, hmade⟩ := heq
    exact ⟨_, by rw [hmade]; rfl⟩

end Lease

/-! ## The greatest revision -/

/-- The greater of two revisions is one of them, and not below either. -/
instance lawfulOrderMaxUInt64 : Std.LawfulOrderMax UInt64 where
  max_eq_or a b := by
    rw [UInt64.max_def]
    split
    · exact Or.inr rfl
    · exact Or.inl rfl
  max_le_iff a b c := by
    rw [UInt64.max_def]
    split
    case isTrue hle => exact ⟨fun hb => ⟨UInt64.le_trans hle hb, hb⟩, fun hboth => hboth.2⟩
    case isFalse hnot =>
      have hle := UInt64.le_of_lt (UInt64.not_le.1 hnot)
      exact ⟨fun ha => ⟨ha, UInt64.le_trans hle ha⟩, fun hboth => hboth.1⟩

/-- The greatest revision that lists of leases announce for a resource, if any does. -/
def LeaseList.greatest? (lists : List LeaseList) (resource : String) : Option UInt64 :=
  (lists.filterMap fun list => list.announced? resource).max?

namespace LeaseList

theorem greatest?_cons (list : LeaseList) (rest : List LeaseList) (resource : String) :
    greatest? (list :: rest) resource =
      Option.merge max (list.announced? resource) (greatest? rest resource) := by
  rw [greatest?, List.filterMap_cons]
  cases list.announced? resource with
  | none => exact Option.merge_none_left.symm
  | some n =>
    simp only [List.max?_cons, greatest?]
    cases (rest.filterMap fun list => list.announced? resource).max? <;> rfl

/-- The order of lists does not matter to the greatest revision. -/
theorem greatest?_perm {first second : List LeaseList} (h : first.Perm second) (resource : String) :
    greatest? first resource = greatest? second resource := by
  have hperm := h.filterMap fun list => list.announced? resource
  unfold greatest?
  ext n
  simp only [List.max?_eq_some_iff, hperm.mem_iff]

end LeaseList

namespace Board

variable {b : Board} {list : LeaseList}

/-- A list that is let in leaves the greater of the last revision and the one that it announces. -/
theorem last?_of_advance_eq_merge {revisions : Revisions} (h : b.advance list = .ok revisions)
    (resource : String) :
    revisions.last? resource =
      Option.merge max (b.revisions.last? resource) (list.announced? resource) := by
  rw [last?_of_advance h]
  cases hannounced : list.announced? resource with
  | none => rw [Option.none_or, Option.merge_none_right]
  | some n =>
    cases hlast : b.revisions.last? resource with
    | none => rfl
    | some last =>
      have hle : last ≤ n := UInt64.le_of_lt (lt_of_advance h hannounced hlast)
      simp only [Option.some_or, Option.merge, UInt64.max_def, if_pos hle]

/-- A stale list announces nothing above the last revision. -/
theorem merge_of_stale {failure : Failure} (h : b.advance list = .error failure)
    (resource : String) :
    Option.merge max (b.revisions.last? resource) (list.announced? resource) =
      b.revisions.last? resource := by
  obtain ⟨named, n, last, hannounced, hlast, hle, -⟩ := advance_eq_error_iff.1 h
  by_cases hresource : named = resource
  · rw [← hresource, hannounced, hlast]
    by_cases hother : last ≤ n
    · rw [UInt64.le_antisymm hle hother]
      simp [UInt64.max_def]
    · simp only [Option.merge, UInt64.max_def, if_neg hother]
  · have hscope := (LeaseList.announced?_eq_some_iff.1 hannounced).1
    have hnone : list.announced? resource = none :=
      if_neg fun heq => hresource (Option.some.inj (hscope.symm.trans heq))
    rw [hnone, Option.merge_none_right]

/-- A list with good entries leaves the greater revision, whether it is let in or stale. -/
theorem last?_step_leases {leases : List Lease} (h : Lease.collect list.leases = .ok leases)
    (now : Instant) (resource : String) :
    (b.step (.event (.leases list) now)).board.revisions.last? resource =
      Option.merge max (b.revisions.last? resource) (list.announced? resource) := by
  rw [board_leases, h]
  cases hadvance : b.advance list with
  | ok revisions => exact last?_of_advance_eq_merge hadvance resource
  | error failure => exact (merge_of_stale hadvance resource).symm

/-! ## Histories -/

/-- The list of leases that a step brings, if it brings one whose entries are all good. -/
def Step.goodList? : Step → Option LeaseList
  | .event (.leases list) _ =>
    match Lease.collect list.leases with
    | .ok _ => some list
    | .error _ => none
  | .event (.policies _) _ => none
  | .interruption _ => none
  | .tick _ => none

/-- After a history the last revision of a resource is the greatest one of those there before and those
of the lists that were applied. -/
theorem last?_run_accepted (b : Board) (steps : List Step) (resource : String) :
    (b.run steps).revisions.last? resource =
      Option.merge max (b.revisions.last? resource)
        (LeaseList.greatest? (accepted (b.verdicts steps)) resource) := by
  induction steps generalizing b with
  | nil => exact Option.merge_none_right.symm
  | cons s rest ih =>
    rw [run_cons, ih]
    cases s with
    | interruption reason => rfl
    | tick now => rfl
    | event event now =>
      rw [verdicts, map_result_event]
      obtain ⟨failure, hverdict, hboard⟩ | ⟨list, policies, rfl, hverdict, -, hboard⟩ |
        ⟨list, leases, revisions, rfl, hverdict, -, hadvance, hboard⟩ := b.step_event_cases event now
      · rw [hverdict, accepted_cons_error, hboard]
      · rw [hverdict, hboard]
        rfl
      · have hcons : ∀ tail, accepted ((.leases list, .ok ()) :: tail) = list :: accepted tail :=
          fun _ => rfl
        rw [hverdict, hcons, hboard, LeaseList.greatest?_cons, last?_of_advance_eq_merge hadvance]
        exact Std.Associative.assoc _ _ _

/-- It is also the greatest one of those there before and those of all lists with good entries, stale
ones among them. -/
theorem last?_run_goodList (b : Board) (steps : List Step) (resource : String) :
    (b.run steps).revisions.last? resource =
      Option.merge max (b.revisions.last? resource)
        (LeaseList.greatest? (steps.filterMap Step.goodList?) resource) := by
  induction steps generalizing b with
  | nil => exact Option.merge_none_right.symm
  | cons s rest ih =>
    rw [run_cons, ih, List.filterMap_cons]
    cases s with
    | interruption reason => rfl
    | tick now => rfl
    | event event now =>
      cases event with
      | policies list =>
        rw [board_policies]
        cases Policy.collect list.policies <;> rfl
      | leases list =>
        cases hcollect : Lease.collect list.leases with
        | error failure => simp only [Step.goodList?, board_leases, hcollect]
        | ok leases =>
          simp only [Step.goodList?, hcollect, LeaseList.greatest?_cons, last?_step_leases hcollect]
          exact Std.Associative.assoc _ _ _

/-! ## Verdicts -/

/-- A list of leases is turned down for the fault of its first bad entry, and else only if it is stale,
where no instant is out of the calendar. -/
theorem apply_leases_eq_error (b : Board) (list : LeaseList) (now : Instant)
    (h : b.apply (.leases list) now ≠ .error .outOfCalendar) :
    match list.leases.findSome? LeaseEntry.fault? with
    | some cause => b.apply (.leases list) now = .error (.rejected cause)
    | none => ∀ failure, b.apply (.leases list) now = .error failure ↔
        ∃ resource n last, list.announced? resource = some n ∧
          b.revisions.last? resource = some last ∧ n ≤ last ∧
          failure = .rejected (.stale resource n last) := by
  have hcollect : Lease.collect list.leases ≠ .error .outOfCalendar := by
    intro hcalendar
    refine h ?_
    simp only [apply, applyLeases, hcalendar]
    rfl
  have heq := Lease.collect_eq hcollect
  cases hfirst : list.leases.findSome? LeaseEntry.fault? with
  | some cause =>
    simp only [hfirst] at heq ⊢
    simp only [apply, applyLeases, heq]
    rfl
  | none =>
    simp only [hfirst] at heq ⊢
    obtain ⟨leases, hleases⟩ := heq
    intro failure
    rw [← advance_eq_error_iff]
    simp only [apply, applyLeases, hleases]
    cases hadvance : b.advance list with
    | ok revisions =>
      constructor
      · intro hfail
        cases hfail
      · intro hfail
        cases hfail
    | error cause =>
      constructor
      · intro hfail
        cases hfail
        rfl
      · intro hfail
        cases hfail
        rfl

/-- A list that names no resource or has no revision above zero leaves all revisions and is never
stale. -/
theorem step_of_unannounced (b : Board) {list : LeaseList} (now : Instant)
    (h : list.resource = none ∨ list.revision = none ∨ list.revision = some 0) :
    (b.step (.event (.leases list) now)).board.revisions = b.revisions ∧
      ∀ resource n last, b.apply (.leases list) now ≠ .error (.rejected (.stale resource n last)) := by
  have hadvance : b.advance list = .ok b.revisions := by
    unfold advance
    cases hresource : list.resource with
    | none => rfl
    | some resource =>
      rw [hresource] at h
      rcases h with h | h | h
      · cases h
      · simp only [h, Revisions.advance_none]
      · simp only [h, Revisions.advance_zero]
  constructor
  · rw [board_leases, hadvance]
    cases Lease.collect list.leases <;> rfl
  · intro resource n last hstale
    have heq := b.apply_leases_eq_error list now fun hcalendar => nomatch hstale.symm.trans hcalendar
    cases hfirst : list.leases.findSome? LeaseEntry.fault? with
    | some cause =>
      -- A bad entry is no stale revision.
      simp only [hfirst] at heq
      obtain ⟨entry, -, hfault⟩ := List.exists_of_findSome?_eq_some hfirst
      obtain ⟨reason, rfl⟩ := entry.invalid_of_fault hfault
      exact nomatch hstale.symm.trans heq
    | none =>
      simp only [hfirst] at heq
      obtain ⟨named, m, other, hannounced, hlast, hle, -⟩ := (heq _).1 hstale
      have hstale := advance_eq_error_iff.2 ⟨named, m, other, hannounced, hlast, hle, rfl⟩
      exact nomatch hstale.symm.trans hadvance

end Board

/-! ## Whole histories -/

/-- Revisions that give every resource the same last revision are the same. -/
theorem Revisions.eq_of_last? {a b : Revisions} (h : ∀ resource, a.last? resource = b.last? resource) :
    a = b := by
  cases a
  cases b
  exact congrArg Revisions.mk (Keyed.ext h)

/-- After a history the last revision of a resource is the greatest one announced for it, by the lists
that were applied, and as well by all lists with good entries.  It never goes down, and histories that
bring the same steps in another order end with the same revisions.

Where no instant is out of the calendar, a list of leases is turned down for the fault of its first bad
entry, whatever its revision, and a list of good entries exactly if it announces a revision that is not
above the last one of its resource.  A list that announces none is never stale and leaves the
revisions. -/
theorem verdicts_and_greatest_revisions :
    (∀ (steps : List Board.Step) (resource : String),
      (Board.empty.run steps).revisions.last? resource =
          LeaseList.greatest? (Board.accepted (Board.empty.verdicts steps)) resource ∧
        (Board.empty.run steps).revisions.last? resource =
          LeaseList.greatest? (steps.filterMap Board.Step.goodList?) resource) ∧
    (∀ first later : List Board.Step,
      (Board.empty.run first).revisions.Raises (Board.empty.run (first ++ later)).revisions) ∧
    (∀ steps other : List Board.Step, steps.Perm other →
      (Board.empty.run steps).revisions = (Board.empty.run other).revisions) ∧
    (∀ (b : Board) (list : LeaseList) (now : Instant),
      b.apply (.leases list) now ≠ .error .outOfCalendar →
        match list.leases.findSome? LeaseEntry.fault? with
        | some cause => b.apply (.leases list) now = .error (.rejected cause)
        | none => ∀ failure, b.apply (.leases list) now = .error failure ↔
            ∃ resource n last, list.announced? resource = some n ∧
              b.revisions.last? resource = some last ∧ n ≤ last ∧
              failure = .rejected (.stale resource n last)) ∧
    ∀ (b : Board) (list : LeaseList) (now : Instant),
      list.resource = none ∨ list.revision = none ∨ list.revision = some 0 →
        (b.step (.event (.leases list) now)).board.revisions = b.revisions ∧
          ∀ resource n last,
            b.apply (.leases list) now ≠ .error (.rejected (.stale resource n last)) := by
  have hgood : ∀ steps resource, (Board.empty.run steps).revisions.last? resource =
      LeaseList.greatest? (steps.filterMap Board.Step.goodList?) resource :=
    fun steps resource => (Board.empty.last?_run_goodList steps resource).trans Option.merge_none_left
  refine ⟨fun steps resource => ⟨?_, hgood steps resource⟩, ?_, ?_, Board.apply_leases_eq_error,
    fun b list now h => b.step_of_unannounced now h⟩
  · exact (Board.empty.last?_run_accepted steps resource).trans Option.merge_none_left
  · intro first later
    rw [Board.run_append]
    exact Board.raises_run _ later
  · intro steps other hperm
    refine Revisions.eq_of_last? fun resource => ?_
    rw [hgood, hgood]
    exact LeaseList.greatest?_perm (hperm.filterMap _) resource

/-- A newer list that comes first leaves the same revisions as one that comes last, and makes the older
one stale. -/
theorem verdicts_and_greatest_revisions_newest_first :
    let older := Event.leases (releasedList "a" "gpu" (some 1))
    let newer := Event.leases (releasedList "b" "gpu" (some 2))
    let first : List Board.Step := [.event newer (atSecond 1), .event older (atSecond 2)]
    let second : List Board.Step := [.event older (atSecond 2), .event newer (atSecond 1)]
    first.Perm second ∧
      (Board.empty.run first).revisions = (Board.empty.run second).revisions ∧
      (Board.empty.run first).revisions.last? "gpu" = some 2 ∧
      (Board.empty.run first).apply older (atSecond 3) =
        .error (.rejected (.stale "gpu" 1 2)) := by
  intro older newer first second
  obtain ⟨hgreatest, -, hperm, hverdict, -⟩ := verdicts_and_greatest_revisions
  have hswap : first.Perm second := .swap ..
  have hlast : (Board.empty.run first).revisions.last? "gpu" = some 2 := (hgreatest first "gpu").1
  refine ⟨hswap, hperm first second hswap, hlast, ?_⟩
  have hrejected := hverdict (Board.empty.run first) (releasedList "a" "gpu" (some 1)) (atSecond 3)
    (by decide)
  exact (hrejected _).2 ⟨"gpu", 1, 2, rfl, hlast, by decide, rfl⟩

end LeaseBoard
