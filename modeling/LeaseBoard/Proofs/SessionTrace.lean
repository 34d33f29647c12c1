import LeaseBoard.Proofs.Step
import LeaseBoard.Session
set_option autoImplicit false

/-!
# Sessions as histories of their boards

A step of a session makes at most one step of its board: a frame that decodes to an event applies
the event, any other frame does nothing.  Main statements: `step_eq`, a step of a session as the
steps of its board, and `reachable_board_run`, the board of a session is reachable.
-/

namespace LeaseBoard.Session

open LeaseBoard.Feed

/-! ## Frames -/

section Frame

variable (s : Session) (now : Instant) {frame : Frame}

/-- A frame that cannot be decoded changes nothing. -/
theorem receive_undecodable {cause : Rejection}
    (h : Event.decode frame.event frame.data = .error cause) :
    s.receive now (.frame frame) = ⟨s, [], .error (.rejected cause)⟩ := by
  simp only [receive, h]
  rfl

/-- A frame of another kind of event is passed over. -/
theorem receive_ignored (h : Event.decode frame.event frame.data = .ok none) :
    s.receive now (.frame frame) = ⟨s, [], .ok ()⟩ := by
  simp only [receive, h]
  rfl

/-- A frame of an event makes the step of the event. -/
theorem receive_event {event : Event} (h : Event.decode frame.event frame.data = .ok (some event)) :
    s.receive now (.frame frame) =
      s.deliver (s.board.step (.event event now)).board (s.board.step (.event event now)).sent
        ((s.board.step (.event event now)).result.map fun _ => ()) := by
  simp only [receive, h]
  cases happly : s.board.apply event now with
  | error failure => simp only [Board.step, happly]; rfl
  | ok applied => simp only [Board.step, happly]; rfl

/-- A frame that fails changes nothing and sends nothing. -/
theorem receive_frame_of_error {failure : Failure}
    (h : (s.receive now (.frame frame)).result = .error failure) :
    s.receive now (.frame frame) = ⟨s, [], .error failure⟩ := by
  cases hdecode : Event.decode frame.event frame.data with
  | error cause =>
    rw [receive_undecodable s now hdecode] at h ⊢
    exact congrArg _ h
  | ok decoded =>
    cases decoded with
    | none => rw [receive_ignored s now hdecode] at h; cases h
    | some event =>
      simp only [receive, hdecode] at h ⊢
      cases happly : s.board.apply event now with
      | error failure =>
        rw [happly] at h
        cases h
        rfl
      | ok applied => rw [happly] at h; cases h

end Frame

/-! ## Histories -/

/-- What a step of a session does to its board. -/
def Step.boardSteps : Step → List Board.Step
  | .receive (.frame frame) now =>
    match Event.decode frame.event frame.data with
    | .ok (some event) => [.event event now]
    | .ok none => []
    | .error _ => []
  | .receive (.interrupted reason) _ => [.interruption reason]
  | .tick now => [.tick now]

theorem sent_singleton (b : Board) (x : Board.Step) : b.sent [x] = (b.step x).sent := by
  simp only [Board.sent, Board.results, List.flatMap_cons, List.flatMap_nil, List.append_nil]
  rfl

/-- A step of a session is the steps of its board, sent to the display. -/
theorem step_eq (s : Session) (x : Step) :
    (s.step x).session.board = s.board.run x.boardSteps ∧
      (s.step x).sent = s.board.sent x.boardSteps := by
  cases x with
  | tick now => exact ⟨rfl, (sent_singleton s.board (.tick now)).symm⟩
  | receive signal now =>
    cases signal with
    | interrupted reason => exact ⟨rfl, (sent_singleton s.board (.interruption reason)).symm⟩
    | frame frame =>
      cases hdecode : Event.decode frame.event frame.data with
      | error cause =>
        simp only [step, receive_undecodable s now hdecode, Step.boardSteps, hdecode]
        exact ⟨rfl, rfl⟩
      | ok decoded =>
        cases decoded with
        | none =>
          simp only [step, receive_ignored s now hdecode, Step.boardSteps, hdecode]
          exact ⟨rfl, rfl⟩
        | some event =>
          simp only [step, receive_event s now hdecode, Step.boardSteps, hdecode]
          exact ⟨rfl, (sent_singleton s.board (.event event now)).symm⟩

/-- The instructions that reach the display in a history. -/
def sent (s : Session) : List Step → List Instruction
  | [] => []
  | x :: rest => (s.step x).sent ++ (s.step x).session.sent rest

theorem sent_append (s : Session) (first second : List Step) :
    s.sent (first ++ second) = s.sent first ++ (s.run first).sent second := by
  induction first generalizing s with
  | nil => rfl
  | cons x rest ih =>
    rw [List.cons_append, sent, ih, sent, List.append_assoc]
    rfl

theorem board_run (s : Session) (steps : List Step) :
    (s.run steps).board = s.board.run (steps.flatMap Step.boardSteps) := by
  induction steps generalizing s with
  | nil => rfl
  | cons x rest ih =>
    rw [run, List.foldl_cons, ← run, ih, (step_eq s x).1, List.flatMap_cons, Board.run_append]

/-- The board of a session is reachable. -/
theorem reachable_board_run (steps : List Step) : (empty.run steps).board.Reachable :=
  ⟨steps.flatMap Step.boardSteps, (board_run empty steps).symm⟩

end LeaseBoard.Session
