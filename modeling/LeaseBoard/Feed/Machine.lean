set_option autoImplicit false

/-!
# Machines that read a stream

A machine takes inputs one at a time and gives an output for some of them.  `feed` runs a machine
over a list.  Main statement: `feed_append`, a list may be cut anywhere and fed in two goes.
-/

namespace LeaseBoard.Feed

variable {σ α β : Type}

/-- The state of a machine after a list of inputs, and its outputs. -/
def feed (step : σ → α → σ × Option β) (s : σ) : List α → σ × List β
  | [] => (s, [])
  | a :: rest =>
    let next := step s a
    let last := feed step next.1 rest
    (last.1, next.2.toList ++ last.2)

@[simp] theorem feed_nil (step : σ → α → σ × Option β) (s : σ) : feed step s [] = (s, []) := rfl

theorem feed_append (step : σ → α → σ × Option β) (s : σ) (as bs : List α) :
    feed step s (as ++ bs) =
      ((feed step (feed step s as).1 bs).1,
        (feed step s as).2 ++ (feed step (feed step s as).1 bs).2) := by
  induction as generalizing s with
  | nil => rfl
  | cons a as ih => simp only [List.cons_append, feed, ih, List.append_assoc]

end LeaseBoard.Feed
