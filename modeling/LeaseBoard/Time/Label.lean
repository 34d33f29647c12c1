import LeaseBoard.Time.Instant
import LeaseBoard.Text.Numeral
set_option autoImplicit false

/-!
# Relative-time labels

How long ago an instant was and how long it is until an instant, never negative, and the label
`H:MM:SS` of a span of time.  Main statements: `spanLabel_eq_empty_iff` (only a span that is not
positive has an empty label) and `spanBetween_eq_zero_iff`.
-/

namespace LeaseBoard

/-- The label of a span in nanoseconds: hours, minutes and seconds, fractions dropped; empty if the
span is not positive. -/
def spanLabel (ns : Int) : String :=
  if ns ≤ 0 then ""
  else
    let total := ns.toNat / 1_000_000_000
    String.ofList (Numeral.digits (total / 3600) ++ ':' :: Numeral.padded 2 (total % 3600 / 60) ++
      ':' :: Numeral.padded 2 (total % 60))

/-- The span from one instant to another, zero if the second is not later. -/
def spanBetween (start finish : Instant) : Int := max 0 (finish.since start)

theorem spanLabel_eq_empty_iff (ns : Int) : spanLabel ns = "" ↔ ns ≤ 0 := by
  unfold spanLabel
  split
  case isTrue h => simp [h]
  case isFalse h =>
    refine iff_of_false (fun hEq => ?_) h
    have := congrArg String.toList hEq
    simp at this

theorem spanBetween_nonneg (a b : Instant) : 0 ≤ spanBetween a b := Int.le_max_left _ _

/-- Away from leap seconds nothing has elapsed exactly when the start is not before the finish. -/
theorem spanBetween_eq_zero_iff {a b : Instant} (ha : a.isLeap = false) (hb : b.isLeap = false) :
    spanBetween a b = 0 ↔ b ≤ a := by
  rw [Instant.le_iff_since_nonneg hb ha, Instant.since_eq ha hb]
  unfold spanBetween
  rw [Instant.since_eq hb ha]
  omega

end LeaseBoard
