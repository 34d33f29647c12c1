import LeaseBoard.Board.Basic
import LeaseBoard.Display
import LeaseBoard.Feed.Signal
import LeaseBoard.Wire.Decode
set_option autoImplicit false

/-!
# Sessions

A session is a board with the display that it drives.  Signals of the stream and beats of the clock
are taken one at a time, and the instructions of each reach the display before the next.

A signal that is turned down leaves board and display as they were, except an interruption, which
shows its banner.  An instant out of the calendar ends a run of signals where it stands.  Main
statement: `display_step`, a display holds nothing but what was sent to it.
-/

namespace LeaseBoard

open LeaseBoard.Feed

/-- A board and the display that it drives. -/
structure Session where
  board : Board
  display : Display
  deriving DecidableEq, Repr

/-- What a step of a session does: the session after it, the instructions that reached the display,
and whether it failed. -/
structure Delivery where
  session : Session
  sent : List Instruction
  result : Except Failure Unit

namespace Session

/-- The session before any signal. -/
def empty : Session := ⟨.empty, .empty⟩

instance : Inhabited Session := ⟨empty⟩

/-- Hands a board and its instructions to the display. -/
def deliver (s : Session) (board : Board) (sent : List Instruction) (result : Except Failure Unit) :
    Delivery :=
  ⟨⟨board, s.display.applyAll sent⟩, sent, result⟩

/-- Notes that the connection is lost and shows the banner. -/
def interrupt (s : Session) (reason : String) (result : Except Failure Unit) : Delivery :=
  let (board, banner) := s.board.interrupt reason
  s.deliver board [banner] result

/-- Takes a signal at an instant. -/
def receive (s : Session) (now : Instant) : Signal → Delivery
  | .frame frame =>
    match Event.decode frame.event frame.data with
    | .error cause => s.deliver s.board [] (.error (.rejected cause))
    | .ok none => s.deliver s.board [] (.ok ())
    | .ok (some event) =>
      match s.board.apply event now with
      | .error failure => s.deliver s.board [] (.error failure)
      | .ok (board, sent) => s.deliver board sent (.ok ())
  | .interrupted reason => s.interrupt reason (.error (.rejected (.interrupted reason)))

/-- A beat of the clock. -/
def tick (s : Session) (now : Instant) : Delivery :=
  let (board, sent) := s.board.tick now
  s.deliver board sent (.ok ())

/-- Takes signals one after the other at an instant, whether they are turned down or not.  An
instant out of the calendar ends the run. -/
def receiveAll (s : Session) (now : Instant) : List Signal → Delivery
  | [] => ⟨s, [], .ok ()⟩
  | signal :: rest =>
    let first := s.receive now signal
    if Failure.goesOn first.result then
      let later := first.session.receiveAll now rest
      { later with sent := first.sent ++ later.sent }
    else first

/-- The banner at the end of a stream. -/
def closingBanner : String := "event stream closed"

/-- Takes signals until they end, and then shows that the stream is closed. -/
def drain (s : Session) (now : Instant) (signals : List Signal) : Delivery :=
  let taken := s.receiveAll now signals
  if Failure.goesOn taken.result then
    let closed := taken.session.interrupt closingBanner (.ok ())
    { closed with sent := taken.sent ++ closed.sent }
  else taken

/-- Takes the signals of a stream until it ends.  A stream that cannot be read to its end ends the
run without the banner. -/
def drainStream (s : Session) (now : Instant) (items : List Item) : Delivery :=
  let t := transcript items
  if t.broken then
    let taken := s.receiveAll now t.signals
    if Failure.goesOn taken.result then { taken with result := .error .unreadableStream } else taken
  else s.drain now t.signals

/-! ## Histories -/

/-- Something that happens to a session. -/
inductive Step where
  | receive (signal : Signal) (now : Instant)
  | tick (now : Instant)
  deriving DecidableEq, Repr

/-- What a step does. -/
def step (s : Session) : Step → Delivery
  | .receive signal now => s.receive now signal
  | .tick now => s.tick now

/-- The session after a history. -/
def run (s : Session) (steps : List Step) : Session :=
  steps.foldl (fun s x => (s.step x).session) s

theorem run_append (s : Session) (first second : List Step) :
    s.run (first ++ second) = (s.run first).run second := List.foldl_append

/-- Whatever a step does, the display has done what it sent. -/
theorem display_step (s : Session) (x : Step) :
    (s.step x).session.display = s.display.applyAll (s.step x).sent := by
  cases x with
  | tick now => rfl
  | receive signal now =>
    cases signal with
    | interrupted reason => rfl
    | frame frame =>
      simp only [step, receive]
      split
      · rfl
      · rfl
      · split <;> rfl

/-! ## Rebuilding a display -/

/-- A fresh display with all that the board holds, refreshed at an instant. -/
def rebuild (s : Session) (now : Instant) : Display :=
  Display.empty.applyAll (s.board.snapshot ++ [.refresh now])

end Session

end LeaseBoard
