import LeaseBoard.Proofs.Step
set_option autoImplicit false

/-!
# Revisions over histories

What an announcement of leases does to the revisions of a board, and what a history does.  A revision
above zero that is let in is the last one of its resource from then on, and is above what was there; no
step lowers a last revision.

Main statements: `last?_of_advance` (the revisions after a list that is let in),
`advance_eq_error_iff` (which lists are stale), `raises_run` (last revisions only go up) and
`reaches_step` (a list with good entries leaves a last revision that is not below its own).
-/

namespace LeaseBoard

/-! ## Announced revisions -/

/-- The revision that a list announces for a resource: one above zero, of the resource that the list
names. -/
def LeaseList.announced? (list : LeaseList) (resource : String) : Option UInt64 :=
  if list.resource = some resource then list.revision.filter (· ≠ 0) else none

theorem LeaseList.announced?_eq_some_iff {list : LeaseList} {resource : String} {n : UInt64} :
    list.announced? resource = some n ↔
      list.resource = some resource ∧ list.revision = some n ∧ n ≠ 0 := by
  unfold announced?
  split
  case isTrue h => simp [h, Option.filter_eq_some_iff]
  case isFalse h => simp [h]

namespace Revisions

/-- The revisions after a revision that is let in. -/
theorem last?_of_advance {r after : Revisions} {resource : String} {revision : Option UInt64}
    (h : r.advance resource revision = some after) (other : String) :
    after.last? other =
      (if resource = other then revision.filter (· ≠ 0) else none).or (r.last? other) := by
  cases revision with
  | none =>
    cases h
    simp
  | some n =>
    by_cases hzero : n = 0
    · rw [hzero, advance_zero] at h
      cases h
      simp [hzero, Option.filter]
    · -- Whatever was there before, the revision is written.
      have hafter : after = ⟨r.accepted.insert resource n⟩ := by
        simp only [advance, hzero, if_false] at h
        split at h
        · exact (Option.some.inj h).symm
        · split at h
          · cases h
          · exact (Option.some.inj h).symm
      rw [hafter, last?, Keyed.get?_insert, last?]
      by_cases hkey : resource = other
      · simp [hkey, hzero, Option.filter]
      · simp [hkey]

/-- What is recorded on one side is recorded on the other, with the same revision or a later one. -/
def Raises (before after : Revisions) : Prop :=
  ∀ resource last, before.last? resource = some last →
    ∃ later, after.last? resource = some later ∧ last ≤ later

theorem Raises.refl (r : Revisions) : Raises r r :=
  fun _ last h => ⟨last, h, UInt64.le_refl last⟩

theorem Raises.trans {a b c : Revisions} (hab : Raises a b) (hbc : Raises b c) : Raises a c := by
  intro resource last hlast
  obtain ⟨middle, hmiddle, hle⟩ := hab resource last hlast
  obtain ⟨later, hlater, hle'⟩ := hbc resource middle hmiddle
  exact ⟨later, hlater, UInt64.le_trans hle hle'⟩

end Revisions

namespace Board

variable {b : Board} {list : LeaseList}

/-! ## Lists that are let in, and stale lists -/

/-- The revisions after a list that is let in: what it announces, and else what was there. -/
theorem last?_of_advance {revisions : Revisions} (h : b.advance list = .ok revisions)
    (resource : String) :
    revisions.last? resource = (list.announced? resource).or (b.revisions.last? resource) := by
  unfold advance at h
  cases hscope : list.resource with
  | none =>
    rw [hscope] at h
    cases h
    simp [LeaseList.announced?, hscope]
  | some named =>
    rw [hscope] at h
    cases hadvance : b.revisions.advance named list.revision with
    | none => simp only [hadvance] at h; cases h
    | some after =>
      simp only [hadvance] at h
      cases h
      simp only [Revisions.last?_of_advance hadvance, LeaseList.announced?, hscope,
        Option.some.injEq]

/-- Stale is exactly a list that announces a revision not above the last one of its resource; the
failure names the resource and both revisions. -/
theorem advance_eq_error_iff {failure : Failure} :
    b.advance list = .error failure ↔ ∃ resource n last, list.announced? resource = some n ∧
      b.revisions.last? resource = some last ∧ n ≤ last ∧
      failure = .rejected (.stale resource n last) := by
  simp only [LeaseList.announced?_eq_some_iff]
  cases hscope : list.resource with
  | none => simp [advance, hscope]
  | some named =>
    cases hadvance : b.revisions.advance named list.revision with
    | some revisions =>
      -- What is let in is not refused.
      have hnot : ¬ b.revisions.advance named list.revision = none := by simp [hadvance]
      rw [Revisions.advance_eq_none_iff] at hnot
      simp only [advance, hscope, hadvance, reduceCtorEq, false_iff]
      rintro ⟨resource, n, last, ⟨hnamed, hrevision, hne⟩, hlast, hle, -⟩
      obtain rfl := Option.some.inj hnamed
      exact hnot ⟨n, last, hrevision, hne, hlast, hle⟩
    | none =>
      obtain ⟨n, last, hrevision, hne, hlast, hle⟩ := (Revisions.advance_eq_none_iff _ _ _).1 hadvance
      rw [hrevision] at hadvance
      simp only [advance, hscope, hadvance, hrevision, hlast, Option.getD_some, Except.error.injEq,
        Option.some.injEq]
      constructor
      · rintro rfl
        exact ⟨named, n, last, ⟨rfl, rfl, hne⟩, hlast, hle, rfl⟩
      · rintro ⟨resource, m, other, ⟨rfl, rfl, -⟩, hother, -, rfl⟩
        obtain rfl := Option.some.inj (hlast.symm.trans hother)
        rfl

/-- What a list announces is above the last revision when it is let in. -/
theorem lt_of_advance {revisions : Revisions} {resource : String} {n last : UInt64}
    (h : b.advance list = .ok revisions) (hannounced : list.announced? resource = some n)
    (hlast : b.revisions.last? resource = some last) : last < n := by
  refine UInt64.not_le.1 fun hle => ?_
  have herror := advance_eq_error_iff.2 ⟨resource, n, last, hannounced, hlast, hle, rfl⟩
  rw [h] at herror
  cases herror

theorem raises_of_advance {revisions : Revisions} (h : b.advance list = .ok revisions) :
    b.revisions.Raises revisions := by
  intro resource last hlast
  rw [last?_of_advance h]
  cases hannounced : list.announced? resource with
  | none => exact ⟨last, hlast, UInt64.le_refl last⟩
  | some n => exact ⟨n, rfl, UInt64.le_of_lt (lt_of_advance h hannounced hlast)⟩

/-! ## Histories -/

/-- No step lowers a last revision. -/
theorem raises_step (b : Board) (s : Step) : b.revisions.Raises (b.step s).board.revisions := by
  cases s with
  | interruption reason => exact .refl _
  | tick now => exact .refl _
  | event event now =>
    obtain ⟨failure, -, hboard⟩ | ⟨list, policies, rfl, -, -, hboard⟩ |
      ⟨list, leases, revisions, rfl, -, -, hadvance, hboard⟩ := b.step_event_cases event now
    · rw [hboard]
      exact .refl _
    · rw [hboard]
      exact .refl _
    · rw [hboard]
      exact raises_of_advance hadvance

theorem raises_run (b : Board) (steps : List Step) : b.revisions.Raises (b.run steps).revisions := by
  induction steps generalizing b with
  | nil => exact .refl _
  | cons s rest ih => exact (raises_step b s).trans (ih _)

/-- A list with good entries leaves a last revision that is not below the one it announces, whether it
is let in or stale. -/
theorem reaches_step {leases : List Lease} {resource : String} {n : UInt64}
    (hcollect : Lease.collect list.leases = .ok leases)
    (hannounced : list.announced? resource = some n) (now : Instant) :
    ∃ last, (b.step (.event (.leases list) now)).board.revisions.last? resource = some last ∧
      n ≤ last := by
  rw [board_leases, hcollect]
  cases hadvance : b.advance list with
  | ok revisions =>
    refine ⟨n, ?_, UInt64.le_refl n⟩
    rw [last?_of_advance hadvance, hannounced, Option.some_or]
  | error stale =>
    obtain ⟨other, m, last, hother, hlast, hle, -⟩ := advance_eq_error_iff.1 hadvance
    -- A list announces a revision for one resource only.
    obtain ⟨hscope, hrevision, -⟩ := LeaseList.announced?_eq_some_iff.1 hannounced
    obtain ⟨hscope', hrevision', -⟩ := LeaseList.announced?_eq_some_iff.1 hother
    obtain rfl := Option.some.inj (hscope.symm.trans hscope')
    obtain rfl := Option.some.inj (hrevision.symm.trans hrevision')
    exact ⟨last, hlast, hle⟩

end Board

end LeaseBoard
