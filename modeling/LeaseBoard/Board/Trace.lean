import LeaseBoard.Board.Basic
set_option autoImplicit false

/-!
# Histories of a board

What can happen to a board, one step at a time, and what a list of steps makes of it.  A step that
fails leaves the board as it was.  Main statements: `run_append` and `results_append`, a history may
be cut anywhere.
-/

namespace LeaseBoard.Board

/-- Something that happens to a board. -/
inductive Step where
  | event (event : Event) (now : Instant)
  | interruption (reason : String)
  | tick (now : Instant)
  deriving DecidableEq, Repr

/-- The board after a step, and the instructions for a display or why there are none. -/
structure Outcome where
  board : Board
  result : Except Failure (List Instruction)

/-- What a step does. -/
def step (b : Board) : Step → Outcome
  | .event event now =>
    match b.apply event now with
    | .ok (after, sent) => ⟨after, .ok sent⟩
    | .error failure => ⟨b, .error failure⟩
  | .interruption reason => ⟨(b.interrupt reason).1, .ok [(b.interrupt reason).2]⟩
  | .tick now => ⟨(b.tick now).1, .ok (b.tick now).2⟩

/-- The board after a history. -/
def run (b : Board) (steps : List Step) : Board := steps.foldl (fun b s => (b.step s).board) b

/-- The results of the steps of a history. -/
def results (b : Board) : List Step → List (Except Failure (List Instruction))
  | [] => []
  | s :: rest => (b.step s).result :: (b.step s).board.results rest

/-- The instructions of a history, in order. -/
def sent (b : Board) (steps : List Step) : List Instruction :=
  (b.results steps).flatMap fun r =>
    match r with
    | .ok instructions => instructions
    | .error _ => []

/-- A board that some history leads to from the empty one. -/
def Reachable (b : Board) : Prop := ∃ steps, empty.run steps = b

theorem run_append (b : Board) (first second : List Step) :
    b.run (first ++ second) = (b.run first).run second := List.foldl_append

theorem results_append (b : Board) (first second : List Step) :
    b.results (first ++ second) = b.results first ++ (b.run first).results second := by
  induction first generalizing b with
  | nil => rfl
  | cons s rest ih => simp only [List.cons_append, results, ih]; rfl

theorem reachable_empty : Reachable empty := ⟨[], rfl⟩

theorem Reachable.step {b : Board} (h : Reachable b) (s : Step) : Reachable (b.step s).board := by
  obtain ⟨steps, rfl⟩ := h
  exact ⟨steps ++ [s], by rw [run_append]; rfl⟩

/-- What holds of the empty board and is kept by every step holds of every reachable board. -/
theorem Reachable.induction {P : Board → Prop} (hempty : P empty)
    (hstep : ∀ b s, P b → P (b.step s).board) {b : Board} (h : Reachable b) : P b := by
  obtain ⟨steps, rfl⟩ := h
  suffices hall : ∀ b, P b → P (b.run steps) from hall empty hempty
  induction steps with
  | nil => exact fun b hb => hb
  | cons s rest ih => exact fun b hb => ih _ (hstep b s hb)

end LeaseBoard.Board
