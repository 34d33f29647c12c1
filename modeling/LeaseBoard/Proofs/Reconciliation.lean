import LeaseBoard.Proofs.Appearance
import LeaseBoard.Proofs.Repetition
set_option autoImplicit false

/-!
# Reconciling a roster with a list

A list of entries is reconciled with the roster in one pass that changes the roster as it goes: what the
scope may take off is gathered before, an expired lease that is known is gathered on the way, a live one
is put on the roster at once, and in the end all that was gathered and is not live is taken off.
`Pass.Has` says what a pass has done after some leases (`Pass.has_foldl`), and `Pass.Has.finish` that it
ends as `Roster.update` does.

Identity by identity the outcome is simple, whatever of old leases, scope, repeated entries and expired
ones bears on it; `Reconciled` says what it is.  Main statement: `reconciled_by_last_entries`.
-/

namespace LeaseBoard

/-! ## Tables -/

namespace Keyed

variable {α β : Type}

/-- Tables with the same keys list them alike. -/
theorem keys_eq_of_contains {t : Keyed α} {u : Keyed β} (h : ∀ key, t.contains key = u.contains key) :
    t.keys = u.keys := by
  have hunit : (t.mapValues fun _ => ()) = u.mapValues fun _ => () := by
    ext key
    have hkey := h key
    simp only [contains] at hkey
    cases ht : t.get? key <;> cases hu : u.get? key <;> simp_all
  have hkeys := congrArg keys hunit
  rwa [keys_mapValues, keys_mapValues] at hkeys

theorem contains_filter (t : Keyed α) (keep : String → α → Bool) (key : String) :
    (t.filter keep).contains key = (t.get? key).any (keep key) := by
  rw [contains, get?_filter]
  cases t.get? key with
  | none => rfl
  | some value => by_cases h : keep key value = true <;> simp [Option.filter, h]

theorem get?_foldl_erase (keys : List String) (t : Keyed α) (key : String) :
    (keys.foldl erase t).get? key = if key ∈ keys then none else t.get? key := by
  induction keys generalizing t with
  | nil => simp
  | cons first rest ih =>
    rw [List.foldl_cons, ih, get?_erase]
    by_cases hfirst : first = key
    · simp [hfirst]
    · simp [hfirst, Ne.symm hfirst]

end Keyed

namespace Roster

/-! ## One pass over a list of leases -/

/-- A pass under way: the roster, the leases that came and those that were drawn anew, the identities
that may have to go, and those that were found live. -/
structure Pass where
  roster : Roster
  added : List Lease
  updated : List Lease
  going : Keyed Unit
  live : List String

namespace Pass

/-- Before the first lease the leases of the scope may have to go. -/
def start (roster : Roster) (scope : Option String) : Pass where
  roster := roster
  added := []
  updated := []
  going := (roster.filter fun _ lease => inScope scope lease).mapValues fun _ => ()
  live := []

/-- Takes a lease: an expired one may have to go if it is known, any other is put on the roster. -/
def take (now : Instant) (p : Pass) (lease : Lease) : Pass :=
  if lease.isExpired now then
    if p.roster.contains lease.id then { p with going := p.going.insert lease.id () } else p
  else
    { roster := p.roster.insert lease.id lease
      added := if p.roster.contains lease.id then p.added else p.added ++ [lease]
      updated := if p.roster.contains lease.id then p.updated ++ [lease] else p.updated
      going := p.going
      live := p.live ++ [lease.id] }

/-- After the last lease, what may have to go and was not found live goes. -/
def finish (p : Pass) : Change Lease × Roster :=
  let removed := (p.going.filter fun id _ => !p.live.contains id).keys
  ({ added := p.added, updated := p.updated, removed := removed }, removed.foldl Keyed.erase p.roster)

end Pass

/-- Reconciles the roster with a list of entries, or fails with the first bad one. -/
def reconcile (roster : Roster) (scope : Option String) (entries : List LeaseEntry) (now : Instant) :
    Except Failure (Change Lease × Roster) :=
  (Lease.collect entries).map fun leases =>
    (leases.foldl (Pass.take now) (Pass.start roster scope)).finish

/-! ## What a pass has done so far -/

/-- Whether a lease may have to go: it is one of the scope, or listed as expired. -/
def mayGo (scope : Option String) (leases : List Lease) (now : Instant) (id : String)
    (lease : Lease) : Bool :=
  inScope scope lease || ((leases.filter fun lease => lease.isExpired now).map Lease.id).contains id

/-- A pass that started from a roster has taken a list of leases. -/
structure Pass.Has (p : Pass) (before : Roster) (scope : Option String) (leases : List Lease)
    (now : Instant) : Prop where
  roster : ∀ id, p.roster.get? id = (Tabled.last? (Roster.live leases now) id).or (before.get? id)
  added : p.added = (Roster.live leases now).filter fun lease => !before.contains lease.id
  updated : p.updated = (Roster.live leases now).filter fun lease => before.contains lease.id
  going : ∀ id, p.going.contains id = (before.get? id).any (mayGo scope leases now id)
  live : p.live = (Roster.live leases now).map Lease.id

variable {before : Roster} {scope : Option String} {leases : List Lease} {now : Instant}

theorem mayGo_nil (id : String) : mayGo scope [] now id = inScope scope := by
  funext lease
  simp [mayGo]

theorem Pass.has_start : (Pass.start before scope).Has before scope [] now where
  roster _ := rfl
  added := rfl
  updated := rfl
  going id := by
    refine (Keyed.contains_mapValues ..).trans ?_
    rw [Keyed.contains_filter, mayGo_nil]
  live := rfl

/-- A lease that was not taken yet is known to the pass exactly if it was known before. -/
theorem Pass.Has.contains {p : Pass} (h : p.Has before scope leases now) {id : String}
    (hnew : id ∉ leases.map Lease.id) : p.roster.contains id = before.contains id := by
  have hnone : Tabled.last? (Roster.live leases now) id = none :=
    Tabled.last?_eq_none_iff.2 fun hmem => hnew ((List.filter_sublist.map _).subset hmem)
  rw [Keyed.contains, h.roster, hnone, Option.none_or]
  rfl

theorem live_concat_of_expired (leases : List Lease) {lease : Lease}
    (h : lease.isExpired now = true) : live (leases ++ [lease]) now = live leases now := by
  simp [live, h]

theorem live_concat_of_live (leases : List Lease) {lease : Lease}
    (h : lease.isExpired now = false) : live (leases ++ [lease]) now = live leases now ++ [lease] := by
  simp [live, h]

theorem mayGo_concat_of_expired {lease : Lease} (h : lease.isExpired now = true) (id : String)
    (row : Lease) : mayGo scope (leases ++ [lease]) now id row =
      (mayGo scope leases now id row || decide (lease.id = id)) := by
  have hexpired : ((leases ++ [lease]).filter fun lease => lease.isExpired now).map Lease.id =
      (leases.filter fun lease => lease.isExpired now).map Lease.id ++ [lease.id] := by
    simp [h]
  have hcontains : ∀ ids : List String,
      (ids ++ [lease.id]).contains id = (ids.contains id || decide (lease.id = id)) := by
    intro ids
    simp [List.contains_eq_mem, eq_comm]
  rw [mayGo, hexpired, hcontains, ← Bool.or_assoc, ← mayGo]

theorem mayGo_concat_of_live {lease : Lease} (h : lease.isExpired now = false) :
    mayGo scope (leases ++ [lease]) now = mayGo scope leases now := by
  funext id row
  simp [mayGo, h]

/-- A pass takes one more lease, which was not taken yet. -/
theorem Pass.Has.take {p : Pass} (h : p.Has before scope leases now) {lease : Lease}
    (hnew : lease.id ∉ leases.map Lease.id) :
    (p.take now lease).Has before scope (leases ++ [lease]) now := by
  have hknown := h.contains hnew
  unfold Pass.take
  cases hexpired : lease.isExpired now with
  | true =>
    rw [if_pos rfl]
    have hlive := live_concat_of_expired leases hexpired
    have hgoing : ∀ id, (before.get? id).any (mayGo scope (leases ++ [lease]) now id) =
        ((before.get? id).any (mayGo scope leases now id) ||
          (decide (lease.id = id) && before.contains id)) := by
      intro id
      rw [Keyed.contains]
      cases before.get? id with
      | none => simp
      | some row => simp [mayGo_concat_of_expired hexpired]
    split
    case isTrue hmem =>
      refine ⟨hlive ▸ h.roster, hlive ▸ h.added, hlive ▸ h.updated, fun id => ?_, hlive ▸ h.live⟩
      rw [hgoing, ← h.going, Keyed.contains, Keyed.get?_insert]
      by_cases hid : lease.id = id
      · rw [← hid, ← hknown, hmem]
        simp
      · simp [hid, Keyed.contains]
    case isFalse hmem =>
      refine ⟨hlive ▸ h.roster, hlive ▸ h.added, hlive ▸ h.updated, fun id => ?_, hlive ▸ h.live⟩
      rw [hgoing, ← h.going]
      by_cases hid : lease.id = id
      · rw [← hid, ← hknown, Bool.eq_false_iff.2 hmem]
        simp
      · simp [hid]
  | false =>
    have hlive := live_concat_of_live leases hexpired
    rw [if_neg Bool.false_ne_true, hknown]
    refine ⟨fun id => ?_, ?_, ?_, fun id => ?_, ?_⟩
    · rw [hlive, Tabled.last?_concat, Keyed.get?_insert, h.roster]
      have hsame : Tabled.id lease = lease.id := rfl
      by_cases hid : lease.id = id
      · rw [hsame, if_pos hid, if_pos hid, Option.some_or]
      · rw [hsame, if_neg hid, if_neg hid]
    · rw [hlive, h.added, List.filter_append]
      cases hbefore : before.contains lease.id <;> simp [hbefore]
    · rw [hlive, h.updated, List.filter_append]
      cases hbefore : before.contains lease.id <;> simp [hbefore]
    · rw [mayGo_concat_of_live hexpired]
      exact h.going id
    · rw [hlive, h.live, List.map_append, List.map_singleton]

/-- A pass takes a list of leases with different identities. -/
theorem Pass.has_foldl (before : Roster) (scope : Option String) (now : Instant)
    (h : (leases.map Lease.id).Nodup) :
    (leases.foldl (Pass.take now) (Pass.start before scope)).Has before scope leases now := by
  induction leases using List.reverseRecOn with
  | nil => exact Pass.has_start
  | append_singleton leases lease ih =>
    rw [List.map_append, List.nodup_append] at h
    rw [List.foldl_append]
    exact (ih h.1).take fun hmem => h.2.2 _ hmem _ List.mem_cons_self rfl

/-! ## The end of a pass -/

/-- The end of a pass is the update of the roster. -/
theorem Pass.Has.finish {p : Pass} (h : p.Has before scope leases now) :
    p.finish = before.update scope leases now := by
  have hgoes : ∀ id, (before.get? id).any (goes scope leases now id) =
      (p.going.contains id && !p.live.contains id) := by
    intro id
    rw [h.going, h.live]
    cases before.get? id <;> rfl
  have hremoved : (p.going.filter fun id _ => !p.live.contains id).keys =
      (before.filter (goes scope leases now)).keys := by
    refine Keyed.keys_eq_of_contains fun id => ?_
    rw [Keyed.contains_filter, Keyed.contains_filter, hgoes, Keyed.contains]
    cases p.going.get? id <;> rfl
  have hroster : (before.filter (goes scope leases now)).keys.foldl Keyed.erase p.roster =
      Keyed.merge before (Roster.live leases now) (goes scope leases now) := by
    ext id : 1
    simp only [Keyed.get?_foldl_erase, Keyed.get?_merge, h.roster, Keyed.mem_keys_iff,
      ← Keyed.contains.eq_def, Keyed.contains_filter]
    cases hlast : Tabled.last? (Roster.live leases now) id with
    | none =>
      cases before.get? id with
      | none => rfl
      | some row => cases h : goes scope leases now id row <;> simp [Option.filter, h]
    | some lease =>
      -- What is listed as live does not go.
      have hstays : ∀ row, goes scope leases now id row = false := by
        rw [← Tabled.id_of_last? hlast]
        exact goes_eq_false_of_mem_live (Tabled.mem_of_last? hlast)
      cases hold : before.get? id <;> simp [hstays]
  rw [Pass.finish, update_eq, hremoved, hroster, h.added, h.updated]
  rfl

/-- A roster is reconciled as it is updated. -/
theorem reconcile_eq (roster : Roster) (scope : Option String) (entries : List LeaseEntry)
    (now : Instant) : roster.reconcile scope entries now =
      (Lease.collect entries).map fun leases => roster.update scope leases now := by
  unfold reconcile
  cases hcollect : Lease.collect entries with
  | error failure => rfl
  | ok leases =>
    have hhas := Pass.has_foldl roster scope now (Lease.nodup_ids_of_collect hcollect)
    exact congrArg Except.ok hhas.finish

/-! ## The roster afterwards -/

end Roster

/-- The last entry of a list with an identity. -/
def LeaseEntry.last? (entries : List LeaseEntry) (id : String) : Option LeaseEntry :=
  entries.reverse.find? fun entry => entry.id? = some id

namespace Roster

/-- A roster before and after a list of entries.  Under an identity that the list names stands the lease
of its last entry, if that has not expired, and else nothing.  Of the other leases those of the scope
are gone, and all others are as they were.  So the leases of the scope are the live ones that are listed
with its resource; and nothing goes unlisted if there is no scope. -/
structure Reconciled (before after : Roster) (scope : Option String) (entries : List LeaseEntry)
    (now : Instant) : Prop where
  listed : ∀ id entry lease, LeaseEntry.last? entries id = some entry →
    Lease.ofEntry entry = .ok lease →
    after.get? id = if lease.isExpired now then none else some lease
  omitted : ∀ id lease, LeaseEntry.last? entries id = none → before.get? id = some lease →
    scope = some lease.resource → after.get? id = none
  kept : ∀ id, LeaseEntry.last? entries id = none →
    (∀ lease, before.get? id = some lease → scope ≠ some lease.resource) →
    after.get? id = before.get? id
  ofScope : ∀ resource, scope = some resource → ∀ id lease,
    (after.get? id = some lease ∧ lease.resource = resource) ↔
      ∃ entry, LeaseEntry.last? entries id = some entry ∧ Lease.ofEntry entry = .ok lease ∧
        lease.isExpired now = false ∧ lease.resource = resource
  unscoped : scope = none → ∀ id, LeaseEntry.last? entries id = none →
    after.get? id = before.get? id

section Update

variable (roster : Roster) (scope : Option String) {entries : List LeaseEntry} {leases : List Lease}
  (hcollect : Lease.collect entries = .ok leases) (now : Instant) {id : String}

include hcollect

/-- What an update leaves under an identity, by the last entry with it. -/
theorem get?_update_of_collect (id : String) :
    (LeaseEntry.last? entries id = none ∧ (roster.update scope leases now).2.get? id =
        (roster.get? id).filter fun lease => !inScope scope lease) ∨
      ∃ entry lease, LeaseEntry.last? entries id = some entry ∧ Lease.ofEntry entry = .ok lease ∧
        (roster.update scope leases now).2.get? id =
          if lease.isExpired now then none else some lease := by
  rw [get?_update_of_nodup roster scope (Lease.nodup_ids_of_collect hcollect)]
  obtain ⟨hnone, hlast⟩ | ⟨entry, lease, hentry, hlease, hlast⟩ :=
    Tabled.last?_of_collect (fun hentry => (Lease.parts_of_ofEntry hentry).1) hcollect id
  · rw [hlast]
    exact Or.inl ⟨hnone, rfl⟩
  · rw [hlast]
    exact Or.inr ⟨entry, lease, hentry, hlease, rfl⟩

theorem get?_update_of_listed {entry : LeaseEntry} {lease : Lease}
    (hentry : LeaseEntry.last? entries id = some entry) (hlease : Lease.ofEntry entry = .ok lease) :
    (roster.update scope leases now).2.get? id = if lease.isExpired now then none else some lease := by
  obtain ⟨hnone, -⟩ | ⟨found, made, hfound, hmade, hget⟩ :=
    roster.get?_update_of_collect scope hcollect now id
  · rw [hentry] at hnone
    cases hnone
  · obtain rfl := Option.some.inj (hentry.symm.trans hfound)
    obtain rfl := Except.ok.inj (hlease.symm.trans hmade)
    exact hget

theorem get?_update_of_unlisted (hnone : LeaseEntry.last? entries id = none) :
    (roster.update scope leases now).2.get? id =
      (roster.get? id).filter fun lease => !inScope scope lease := by
  obtain ⟨-, hget⟩ | ⟨entry, lease, hentry, -⟩ :=
    roster.get?_update_of_collect scope hcollect now id
  · exact hget
  · rw [hnone] at hentry
    cases hentry

/-- What is not listed stays, unless it is one of the scope. -/
theorem get?_update_of_other (hnone : LeaseEntry.last? entries id = none)
    (hother : ∀ lease, roster.get? id = some lease → scope ≠ some lease.resource) :
    (roster.update scope leases now).2.get? id = roster.get? id := by
  rw [roster.get?_update_of_unlisted scope hcollect now hnone]
  cases hold : roster.get? id with
  | none => rfl
  | some lease => simp [Option.filter, inScope, hother lease hold]

/-- After a list with a scope, the leases of the scope are the live ones that are listed with it. -/
theorem get?_update_of_scope {resource : String} (hscope : scope = some resource) {lease : Lease}
    (hget : (roster.update scope leases now).2.get? id = some lease)
    (hresource : lease.resource = resource) :
    ∃ entry, LeaseEntry.last? entries id = some entry ∧ Lease.ofEntry entry = .ok lease ∧
      lease.isExpired now = false := by
  obtain ⟨-, hold⟩ | ⟨entry, listed, hentry, hmade, hlisted⟩ :=
    roster.get?_update_of_collect scope hcollect now id
  · rw [hget] at hold
    obtain ⟨-, hout⟩ := Option.filter_eq_some_iff.1 hold.symm
    simp [inScope, hscope, hresource] at hout
  · rw [hget] at hlisted
    split at hlisted
    case isTrue => cases hlisted
    case isFalse hlive =>
      obtain rfl := Option.some.inj hlisted
      exact ⟨entry, hentry, hmade, Bool.eq_false_iff.2 hlive⟩

/-- An update reconciles a roster with the entries of its leases. -/
theorem reconciled_update :
    Reconciled roster (roster.update scope leases now).2 scope entries now where
  listed id entry lease hentry hlease :=
    roster.get?_update_of_listed scope hcollect now hentry hlease
  omitted id lease hnone hold hscope := by
    rw [roster.get?_update_of_unlisted scope hcollect now hnone, hold]
    simp [Option.filter, inScope, hscope]
  kept id hnone hother := roster.get?_update_of_other scope hcollect now hnone hother
  ofScope resource hscope id lease := by
    constructor
    · rintro ⟨hget, hresource⟩
      obtain ⟨entry, hentry, hmade, hlive⟩ :=
        roster.get?_update_of_scope scope hcollect now hscope hget hresource
      exact ⟨entry, hentry, hmade, hlive, hresource⟩
    · rintro ⟨entry, hentry, hmade, hlive, hresource⟩
      refine ⟨?_, hresource⟩
      rw [roster.get?_update_of_listed scope hcollect now hentry hmade, hlive]
      rfl
  unscoped hscope id hnone := roster.get?_update_of_other scope hcollect now hnone fun lease _ heq => by
    rw [hscope] at heq
    cases heq

end Update

end Roster

/-- A list of good entries is always reconciled, by the pass as by the update of the roster, and the
roster afterwards is what the last entry with each identity says, or the lease that was there. -/
theorem reconciled_by_last_entries (roster : Roster) (scope : Option String)
    {entries : List LeaseEntry} (hgood : ∀ entry ∈ entries, entry.Good) (now : Instant) :
    ∃ change after, roster.reconcile scope entries now = .ok (change, after) ∧
      ((Lease.collect entries).map fun leases => roster.update scope leases now) =
        .ok (change, after) ∧
      Roster.Reconciled roster after scope entries now := by
  obtain ⟨leases, hcollect⟩ : ∃ leases, Lease.collect entries = .ok leases := by
    obtain ⟨rows, hrows⟩ := Except.exists_mapM_eq_ok_iff.2 fun entry hentry =>
      Lease.exists_ofEntry_eq_ok_iff.2 (hgood entry hentry)
    exact ⟨_, congrArg (Except.map (Arrival.collect Lease.id)) hrows⟩
  refine ⟨(roster.update scope leases now).1, (roster.update scope leases now).2, ?_, ?_,
    roster.reconciled_update scope hcollect now⟩
  · rw [Roster.reconcile_eq, hcollect]
    rfl
  · rw [hcollect]
    rfl

/-- Four leases are known.  A list of one resource gives one of them another resource, repeats it, and
lists a second one as expired; of the other two, the one with the resource goes, and the expired one
without it stays. -/
theorem reconciled_by_last_entries_of_four :
    let known := [releasedEntry "a" "gpu", releasedEntry "b" "gpu", releasedEntry "c" "cad",
      releasedEntry "d" "gpu"]
    let listed := [releasedEntry "a" "gpu", releasedEntry "d" "gpu",
      { releasedEntry "a" "cad" with released := some (atSecond 6) }]
    ∃ roster change after, (Lease.collect known).map
        (fun leases => (Roster.update .empty none leases (atSecond 1)).2) = .ok roster ∧
      roster.keys = ["a", "b", "c", "d"] ∧ (∀ entry ∈ listed, entry.Good) ∧
      roster.reconcile (some "gpu") listed (atSecond 7) = .ok (change, after) ∧
      after.keys = ["a", "c"] ∧
      Roster.Reconciled roster after (some "gpu") listed (atSecond 7) := by
  intro known listed
  have hgood : ∀ entry ∈ listed, entry.Good := by
    intro entry hentry
    simp only [listed, List.mem_cons, List.not_mem_nil, or_false] at hentry
    obtain rfl | rfl | rfl := hentry <;> exact Lease.exists_ofEntry_eq_ok_iff.1 ⟨_, rfl⟩
  obtain ⟨roster, hroster⟩ : ∃ roster, (Lease.collect known).map
      (fun leases => (Roster.update .empty none leases (atSecond 1)).2) = .ok roster := ⟨_, rfl⟩
  obtain ⟨change, after, hreconcile, -, hreconciled⟩ :=
    reconciled_by_last_entries roster (some "gpu") hgood (atSecond 7)
  have hbefore : roster.keys = ["a", "b", "c", "d"] := by
    have h := congrArg (Except.map Keyed.keys) hroster
    exact Except.ok.inj (h.symm.trans (by decide))
  have hafter : after.keys = ["a", "c"] := by
    have h := congrArg (Except.bind · fun roster =>
      (roster.reconcile (some "gpu") listed (atSecond 7)).map fun result => result.2.keys) hroster
    simp only [Except.bind, hreconcile, Except.map] at h
    exact Except.ok.inj (h.symm.trans (by decide))
  exact ⟨roster, change, after, hroster, hbefore, hgood, hreconcile, hafter, hreconciled⟩

end LeaseBoard
