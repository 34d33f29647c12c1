import LeaseBoard.Keyed
set_option autoImplicit false

/-!
# Revisions

The last revision accepted for each resource.  Revisions of a resource only go up; an announcement
without a revision, or with revision zero, is always let in and leaves no trace.  Main statement:
`advance_eq_none_iff`, what is refused.
-/

namespace LeaseBoard

/-- The last revision accepted for each resource. -/
structure Revisions where
  accepted : Keyed UInt64
  deriving DecidableEq, Repr

namespace Revisions

/-- No revision accepted yet. -/
def empty : Revisions := ⟨.empty⟩

instance : Inhabited Revisions := ⟨empty⟩

/-- The last revision accepted for a resource. -/
def last? (r : Revisions) (resource : String) : Option UInt64 := r.accepted.get? resource

/-- Records a revision of a resource, or refuses it if it is not above the last one. -/
def advance (r : Revisions) (resource : String) (revision : Option UInt64) : Option Revisions :=
  match revision with
  | none => some r
  | some revision =>
    if revision = 0 then some r
    else
      match r.last? resource with
      | none => some ⟨r.accepted.insert resource revision⟩
      | some last => if revision ≤ last then none else some ⟨r.accepted.insert resource revision⟩

theorem advance_none (r : Revisions) (resource : String) : r.advance resource none = some r := rfl

theorem advance_zero (r : Revisions) (resource : String) :
    r.advance resource (some 0) = some r := rfl

/-- Refused is exactly a revision above zero that is not above the last one accepted. -/
theorem advance_eq_none_iff (r : Revisions) (resource : String) (revision : Option UInt64) :
    r.advance resource revision = none ↔
      ∃ n last, revision = some n ∧ n ≠ 0 ∧ r.last? resource = some last ∧ n ≤ last := by
  cases revision with
  | none => simp [advance]
  | some n =>
    by_cases hzero : n = 0
    · subst hzero; simp [advance]
    · cases hlast : r.last? resource with
      | none => simp [advance, hzero, hlast]
      | some last =>
        by_cases hle : n ≤ last <;> simp [advance, hzero, hlast, hle]

end Revisions

end LeaseBoard
