import LeaseBoard.Proofs.InPlace
import LeaseBoard.Proofs.Released
set_option autoImplicit false

/-!
# Frames without effect

A worker takes signals until the stream ends, while the clock goes on beside it.  A frame that is turned
down or passed over is idle: it leaves board and display as they were, so it might as well not have
come.

`Worker.record` says what came of every turn.  Main statements: `run_stream` (a worker whose clock
stands still drains the stream) and `rejected_leaves_all` (what fails changes nothing, and idle frames
can be left out).
-/

namespace LeaseBoard

open LeaseBoard.Feed

/-! ## Turns -/

/-- What a worker or the clock does in one go: nothing comes in between. -/
inductive Turn where
  | signal (signal : Signal) (now : Instant)
  | tick (now : Instant)
  | closing
  deriving DecidableEq, Repr

/-- A session with its display, and whether signals are still taken. -/
structure Worker where
  relay : Relay
  running : Bool
  deriving DecidableEq, Repr

namespace Worker

/-- Carries out a program.  A program that fails leaves what it has written. -/
def perform (w : Worker) (x : Program Relay Unit) : Worker × Except Failure Unit :=
  match x.run w.relay with
  | .ok () r => ({ w with relay := r }, .ok ())
  | .error failure r => ({ w with relay := r }, .error failure)

/-- Takes a turn, with its result if there was one.  An instant out of the calendar ends the worker but
not the clock, and so does the end of the stream, which shows its banner. -/
def take (w : Worker) : Turn → Worker × Option (Except Failure Unit)
  | .signal signal now =>
    if w.running then
      let (after, result) := w.perform (InPlace.receive now signal)
      ({ after with running := Failure.goesOn result }, some result)
    else (w, none)
  | .tick now =>
    let (after, result) := w.perform (InPlace.tick now)
    (after, some result)
  | .closing =>
    if w.running then
      let (after, result) := w.perform (InPlace.interrupt Session.closingBanner)
      ({ after with running := false }, some result)
    else (w, none)

/-- The worker after turns. -/
def run (w : Worker) (turns : List Turn) : Worker := turns.foldl (fun w t => (w.take t).1) w

/-- Turns with their results. -/
def record (w : Worker) : List Turn → List (Turn × Option (Except Failure Unit))
  | [] => []
  | t :: rest => (t, (w.take t).2) :: (w.take t).1.record rest

theorem run_cons (w : Worker) (t : Turn) (rest : List Turn) :
    w.run (t :: rest) = (w.take t).1.run rest := rfl

theorem run_append (w : Worker) (first second : List Turn) :
    w.run (first ++ second) = (w.run first).run second := List.foldl_append

theorem perform_receive (w : Worker) (now : Instant) (signal : Signal) :
    w.perform (InPlace.receive now signal) =
      ({ w with relay := w.relay.after (w.relay.session.receive now signal) },
        (w.relay.session.receive now signal).result) := by
  cases signal with
  | interrupted reason => rfl
  | frame frame =>
    have hrun := InPlace.receive_frame_transacts now frame w.relay
    cases hresult : (w.relay.session.receive now (.frame frame)).result with
    | ok _ => simp only [perform, hrun, hresult, Except.map]
    | error failure =>
      simp only [perform, hrun, Except.map,
        w.relay.session.receive_frame_of_error now hresult, Relay.after, List.append_nil]

/-- A worker that has stopped takes no signals. -/
theorem run_signals_stopped (r : Relay) (now : Instant) (signals : List Signal) :
    (⟨r, false⟩ : Worker).run (signals.map fun signal => .signal signal now) = ⟨r, false⟩ := by
  induction signals with
  | nil => rfl
  | cons signal rest ih => exact ih

/-- Signals that are taken at one instant, with no beat of the clock in between, are received one after
the other. -/
theorem run_signals (r : Relay) (now : Instant) (signals : List Signal) :
    (⟨r, true⟩ : Worker).run (signals.map fun signal => .signal signal now) =
      ⟨r.after (r.session.receiveAll now signals),
        Failure.goesOn (r.session.receiveAll now signals).result⟩ := by
  induction signals generalizing r with
  | nil =>
    rw [Session.receiveAll, Relay.after, List.append_nil]
    rfl
  | cons signal rest ih =>
    rw [List.map_cons, run_cons]
    cases hgoes : Failure.goesOn (r.session.receive now signal).result with
    | true =>
      simp only [take, perform_receive, Session.receiveAll, hgoes, if_true, ih]
      simp only [Relay.after, List.append_assoc]
    | false =>
      simp only [take, perform_receive, Session.receiveAll, hgoes, if_true, Bool.false_eq_true,
        if_false]
      exact run_signals_stopped _ now rest

/-- A worker that takes a stream to its end, at one instant and with no beat of the clock in between,
drains it. -/
theorem run_stream (r : Relay) (now : Instant) (signals : List Signal) :
    (⟨r, true⟩ : Worker).run (signals.map (fun signal => .signal signal now) ++ [.closing]) =
      ⟨r.after (r.session.drain now signals), false⟩ := by
  rw [run_append, run_signals, run_cons]
  cases hgoes : Failure.goesOn (r.session.receiveAll now signals).result with
  | true =>
    simp only [Session.drain, hgoes, if_true]
    simp only [take, if_true, Relay.after, ← List.append_assoc]
    rfl
  | false =>
    simp only [Session.drain, hgoes, Bool.false_eq_true, if_false]
    rfl

/-! ## Idle frames -/

/-- A frame that was turned down, or was passed over because its kind of event is not handled. -/
def idle : Turn × Option (Except Failure Unit) → Bool
  | (.signal (.frame _) _, some (.error (.rejected (.undecodable _)))) => true
  | (.signal (.frame _) _, some (.error (.rejected (.invalid _ _)))) => true
  | (.signal (.frame _) _, some (.error (.rejected (.stale _ _ _)))) => true
  | (.signal (.frame frame) _, some (.ok ())) =>
    match Event.decode frame.event frame.data with
    | .ok none => true
    | _ => false
  | _ => false

/-- An idle frame leaves session and display, and is no reason to stop. -/
theorem receive_of_idle {r : Relay} {frame : Frame} {now : Instant}
    (h : idle (.signal (.frame frame) now,
      some (r.session.receive now (.frame frame)).result) = true) :
    r.after (r.session.receive now (.frame frame)) = r ∧
      Failure.goesOn (r.session.receive now (.frame frame)).result = true := by
  cases hresult : (r.session.receive now (.frame frame)).result with
  | error failure =>
    rw [hresult] at h
    refine ⟨?_, ?_⟩
    · rw [r.session.receive_frame_of_error now hresult, Relay.after, List.append_nil]
    · cases failure with
      | rejected cause => rfl
      | outOfCalendar => cases h
      | unreadableStream => cases h
  | ok _ =>
    rw [hresult] at h
    refine ⟨?_, rfl⟩
    cases hdecode : Event.decode frame.event frame.data with
    | error cause => simp only [idle, hdecode] at h; cases h
    | ok decoded =>
      cases decoded with
      | some event => simp only [idle, hdecode] at h; cases h
      | none => rw [r.session.receive_ignored now hdecode, Relay.after, List.append_nil]

/-- A worker that takes an idle frame stays as it was. -/
theorem take_of_idle {w : Worker} {t : Turn} (h : idle (t, (w.take t).2) = true) :
    (w.take t).1 = w := by
  obtain ⟨r, running⟩ := w
  cases t with
  | tick now => cases h
  | closing => cases running <;> cases h
  | signal signal now =>
    cases running with
    | false => cases signal <;> cases h
    | true =>
      simp only [take, perform_receive, if_true] at h ⊢
      cases signal with
      | interrupted reason => cases h
      | frame frame =>
        obtain ⟨hafter, hgoes⟩ := receive_of_idle h
        rw [hafter, hgoes]

/-- The turns of a record that are not idle frames, with their results. -/
def busy (w : Worker) (turns : List Turn) : List (Turn × Option (Except Failure Unit)) :=
  (w.record turns).filter fun entry => !idle entry

/-- Without its idle frames a worker gives the same results and ends as the same worker. -/
theorem record_busy (w : Worker) (turns : List Turn) :
    w.record ((w.busy turns).map Prod.fst) = w.busy turns ∧
      w.run ((w.busy turns).map Prod.fst) = w.run turns := by
  induction turns generalizing w with
  | nil => exact ⟨rfl, rfl⟩
  | cons t rest ih =>
    obtain ⟨hrecord, hrun⟩ := ih (w.take t).1
    cases hidle : idle (t, (w.take t).2) with
    | true =>
      have hsame := take_of_idle hidle
      have hbusy : w.busy (t :: rest) = w.busy rest := by
        simp only [busy, record, List.filter_cons, hidle, Bool.not_true, Bool.false_eq_true, if_false,
          hsame]
      rw [hsame] at hrecord hrun
      rw [hbusy, run_cons, hsame]
      exact ⟨hrecord, hrun⟩
    | false =>
      have hbusy : w.busy (t :: rest) = (t, (w.take t).2) :: (w.take t).1.busy rest := by
        simp only [busy, record, List.filter_cons, hidle, Bool.not_false, if_true]
      rw [hbusy, List.map_cons, record, hrecord]
      exact ⟨rfl, hrun⟩

end Worker

/-! ## Whole or nothing -/

/-- An event that fails, whatever the failure, leaves the board, though it is carried out in place, and
fails as `Board.apply` does.  A frame that fails or is passed over leaves board and display.  And a run
of a worker beside the clock has the same results and the same end without the frames that were turned
down or passed over. -/
theorem rejected_leaves_all :
    (∀ (b after : Board) (event : Event) (now : Instant) (failure : Failure),
      (InPlace.apply event now).run b = .error failure after →
        after = b ∧ b.apply event now = .error failure) ∧
    (∀ (r after : Relay) (frame : Frame) (now : Instant),
      (∃ failure, (InPlace.receive now (.frame frame)).run r = .error failure after) ∨
          Event.decode frame.event frame.data = .ok none ∧
            (InPlace.receive now (.frame frame)).run r = .ok () after →
        after = r) ∧
    ∀ (w : Worker) (turns : List Turn),
      w.record ((w.busy turns).map Prod.fst) = w.busy turns ∧
        w.run ((w.busy turns).map Prod.fst) = w.run turns := by
  refine ⟨?_, ?_, Worker.record_busy⟩
  · intro b after event now failure hrun
    exact (InPlace.apply_transacts event now).of_error hrun
  · rintro r after frame now (⟨failure, hrun⟩ | ⟨hdecode, hrun⟩)
    · exact ((InPlace.receive_frame_transacts now frame).of_error hrun).1
    · rw [InPlace.receive_frame_transacts now frame r] at hrun
      simp only [r.session.receive_ignored now hdecode, Except.map, Relay.after, List.append_nil] at hrun
      cases hrun
      rfl

/-- A list with a revision that is behind the last one. -/
theorem stale_list_leaves_board :
    let b := Board.empty.run [.event (.leases (releasedList "b" "gpu" (some 2))) (atSecond 1)]
    ∃ after, (InPlace.apply (.leases (releasedList "a" "gpu" (some 1))) (atSecond 2)).run b =
      .error (.rejected (.stale "gpu" 1 2)) after ∧ after = b := by
  intro b
  have hrun : (InPlace.apply (.leases (releasedList "a" "gpu" (some 1))) (atSecond 2)).run b =
      .error (.rejected (.stale "gpu" 1 2)) b := rfl
  exact ⟨b, hrun, (rejected_leaves_all.1 b b _ _ _ hrun).1⟩

end LeaseBoard
