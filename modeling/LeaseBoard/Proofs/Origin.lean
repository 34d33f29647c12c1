import LeaseBoard.Proofs.Ageing
import LeaseBoard.Proofs.Repetition
import LeaseBoard.Proofs.Verdict
set_option autoImplicit false

/-!
# Where leases and policies come from

A lease on a board was made of an entry of a list that was applied: of the last one with its identity.
What is true of the lease of every entry is therefore true of every lease that a history leaves.  A policy
stands under a resource with a name, as every entry gives one, and a revision on the board was announced
by a list.

Main statements: `Board.madeOf_of_get?_run`, `Board.get?_policies_step_empty` and
`Board.announced_of_last?_step`.
-/

namespace LeaseBoard

/-- A lease is made of the last entry with an identity in one of some lists. -/
def Lease.MadeOf (lists : List LeaseList) (id : String) (lease : Lease) : Prop :=
  ∃ list ∈ lists, ∃ entry, list.entry? id = some entry ∧ Lease.ofEntry entry = .ok lease

theorem Lease.MadeOf.mono {lists more : List LeaseList} {id : String} {lease : Lease}
    (h : lease.MadeOf lists id) (hsub : lists ⊆ more) : lease.MadeOf more id := by
  obtain ⟨list, hmem, hentry⟩ := h
  exact ⟨list, hsub hmem, hentry⟩

/-- Lists of good entries, and only those, become leases. -/
theorem Lease.exists_collect_eq_ok_iff {entries : List LeaseEntry} :
    (∃ leases, Lease.collect entries = .ok leases) ↔ ∀ entry ∈ entries, entry.Good := by
  simp only [← Lease.exists_ofEntry_eq_ok_iff, ← Except.exists_mapM_eq_ok_iff]
  constructor
  · rintro ⟨leases, h⟩
    obtain ⟨rows, hrows, -⟩ := Except.map_eq_ok h
    exact ⟨rows, hrows⟩
  · rintro ⟨rows, hrows⟩
    exact ⟨_, congrArg (Except.map (Arrival.collect Lease.id)) hrows⟩

namespace Board

variable {b : Board} {id : String} {lease : Lease}

/-- A lease that is on the board after a list is made of an entry of the list, or was there before. -/
theorem madeOf_of_get?_update {roster : Roster} {scope : Option String} {list : LeaseList}
    {leases : List Lease} {now : Instant} (hcollect : Lease.collect list.leases = .ok leases)
    (h : (roster.update scope leases now).2.get? id = some lease) :
    roster.get? id = some lease ∨ lease.MadeOf [list] id := by
  obtain ⟨hlast, -⟩ | ⟨-, hold⟩ := Roster.of_get?_update (Lease.nodup_ids_of_collect hcollect) h
  · obtain ⟨-, hnone⟩ | ⟨entry, made, hentry, hmade, hsome⟩ := Lease.last?_of_collect hcollect id
    · rw [hlast] at hnone
      cases hnone
    · obtain rfl := Option.some.inj (hlast.symm.trans hsome)
      exact Or.inr ⟨list, List.mem_singleton_self list, entry, hentry, hmade⟩
  · exact Or.inl hold

/-- A step brings no lease but those of the list that it applies. -/
theorem madeOf_of_get?_step {s : Step} (h : (b.step s).board.leases.get? id = some lease) :
    b.leases.get? id = some lease ∨ lease.MadeOf (accepted (b.verdicts [s])) id := by
  cases s with
  | interruption reason => exact Or.inl h
  | tick now =>
    have hget : (b.leases.filter fun _ lease => !lease.isExpired now).get? id = some lease := h
    rw [Keyed.get?_filter] at hget
    exact Or.inl (Option.filter_eq_some_iff.1 hget).1
  | event event now =>
    obtain ⟨failure, -, hboard⟩ | ⟨list, policies, rfl, -, -, hboard⟩ |
      ⟨list, leases, revisions, rfl, hverdict, hcollect, -, hboard⟩ := b.step_event_cases event now
    · rw [hboard] at h
      exact Or.inl h
    · rw [hboard] at h
      exact Or.inl h
    · rw [hboard] at h
      rw [verdicts, map_result_event, hverdict]
      exact madeOf_of_get?_update hcollect h

/-- A lease on the board after a history was there before or was made of an entry of a list that was
applied. -/
theorem madeOf_of_get?_run {steps : List Step} (h : (b.run steps).leases.get? id = some lease) :
    b.leases.get? id = some lease ∨ lease.MadeOf (accepted (b.verdicts steps)) id := by
  induction steps generalizing b with
  | nil => exact Or.inl h
  | cons s rest ih =>
    have hsplit : accepted (b.verdicts (s :: rest)) =
        accepted (b.verdicts [s]) ++ accepted ((b.step s).board.verdicts rest) := by
      rw [← List.singleton_append, verdicts_append, accepted, List.filterMap_append]
      rfl
    rw [hsplit]
    rcases ih h with hstep | hrest
    · refine (madeOf_of_get?_step hstep).imp_right fun hmade => ?_
      exact hmade.mono (List.subset_append_left _ _)
    · exact Or.inr (hrest.mono (List.subset_append_right _ _))

/-! ## Resources have names -/

/-- No lease of a board is one of the resource without a name, and no policy is kept for it. -/
structure Named (b : Board) : Prop where
  leases : ∀ id lease, b.leases.get? id = some lease → lease.resource ≠ ""
  policies : b.policies.get? "" = none

/-- No step brings a policy of the resource without a name. -/
theorem get?_policies_step_empty (h : b.policies.get? "" = none) (s : Step) :
    (b.step s).board.policies.get? "" = none := by
  cases s with
  | interruption reason => exact h
  | tick now => exact h
  | event event now =>
    obtain ⟨failure, -, hboard⟩ | ⟨list, policies, rfl, -, hcollect, hboard⟩ |
      ⟨list, leases, revisions, rfl, -, -, -, hboard⟩ := b.step_event_cases event now
    · rw [hboard]
      exact h
    · rw [hboard]
      refine (Book.get?_replace_of_collect b.policies hcollect "").trans ?_
      obtain ⟨-, hlast⟩ | ⟨entry, policy, -, hmade, hlast⟩ := Policy.last?_of_collect hcollect ""
      · rw [hlast, Option.map_none]
      · exact absurd (Tabled.id_of_last? hlast) (Policy.ofEntry_eq_ok hmade).2.1
    · rw [hboard]
      refine (b.get?_report list "").trans ?_
      rw [h, Option.map_none]

/-! ## Revisions were announced -/

/-- A step records no revision but the one that its list announces. -/
theorem announced_of_last?_step {s : Step} {resource : String} {n : UInt64}
    (h : (b.step s).board.revisions.last? resource = some n) :
    b.revisions.last? resource = some n ∨
      ∃ list now, s = .event (.leases list) now ∧ list.announced? resource = some n := by
  cases s with
  | interruption reason => exact Or.inl h
  | tick now => exact Or.inl h
  | event event now =>
    obtain ⟨failure, -, hboard⟩ | ⟨list, policies, rfl, -, -, hboard⟩ |
      ⟨list, leases, revisions, rfl, -, -, hadvance, hboard⟩ := b.step_event_cases event now
    · rw [hboard] at h
      exact Or.inl h
    · rw [hboard] at h
      exact Or.inl h
    · rw [hboard, last?_of_advance hadvance] at h
      rcases Option.or_eq_some_iff.1 h with hannounced | ⟨-, hold⟩
      · exact Or.inr ⟨list, now, rfl, hannounced⟩
      · exact Or.inl hold

end Board

end LeaseBoard
