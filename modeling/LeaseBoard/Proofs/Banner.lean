import LeaseBoard.Proofs.Idle
import LeaseBoard.Proofs.Projection
import LeaseBoard.Proofs.Results
set_option autoImplicit false

/-!
# The state of the connection

Two kinds of step have news of the connection: an interruption says that it is lost, and an event that is
applied says that it is there.  A board takes the connection to be what the last news said, and a display
is told of every change.  When a stream has ended, board and display show that it is closed.

Rows and revisions do not depend on the connection (`apply_of_connection`), so interruptions can be put
into a history or left out of it without any effect on them.  Main statement:
`connection_follows_news`.
-/

namespace LeaseBoard

open LeaseBoard.Feed

/-- Whether an instruction shows a state of the connection. -/
def Instruction.isBanner : Instruction → Bool
  | .connection _ => true
  | .add .. => false
  | .update .. => false
  | .remove .. => false
  | .refresh _ => false

theorem Instruction.isBanner_of_table? {i : Instruction} (h : i.table?.isSome) :
    i.isBanner = false := by
  cases i with
  | connection status => cases h
  | refresh now => cases h
  | add table id cells => rfl
  | update table id cells => rfl
  | remove table id => rfl

/-- The instructions that are for rows and labels. -/
def Instruction.withoutBanners (sent : List Instruction) : List Instruction :=
  sent.filter fun i => !i.isBanner

/-! ## News -/

namespace Session

/-- What a step with a result says of the connection, if it says anything.  Frames that are turned down
or passed over do not, and neither does the clock. -/
def news? : Step → Except Failure Unit → Option Connection
  | .receive (.interrupted reason) _, _ => some (.interrupted reason)
  | .receive (.frame frame) _, .ok () =>
    match Event.decode frame.event frame.data with
    | .ok (some _) => some .connected
    | .ok none => none
    | .error _ => none
  | .receive (.frame _) _, .error _ => none
  | .tick _, _ => none

/-- What a display is told when there is news: that the connection is lost, and that it is there if it
was not there before. -/
def banner (before : Connection) : Option Connection → List Instruction
  | none => []
  | some .connected => if before = .connected then [] else [.connection .connected]
  | some (.interrupted reason) => [.connection (.interrupted reason)]

/-- The steps of a history with what they do. -/
def record (s : Session) : List Step → List (Step × Delivery)
  | [] => []
  | x :: rest => (x, s.step x) :: (s.step x).session.record rest

/-- The last news of a history. -/
def lastNews? (entries : List (Step × Delivery)) : Option Connection :=
  entries.reverse.findSome? fun entry => news? entry.1 entry.2.result

theorem run_cons (s : Session) (x : Step) (rest : List Step) :
    s.run (x :: rest) = (s.step x).session.run rest := rfl

theorem lastNews?_cons (x : Step) (d : Delivery) (rest : List (Step × Delivery)) :
    lastNews? ((x, d) :: rest) = (lastNews? rest).or (news? x d.result) := by
  simp only [lastNews?, List.reverse_cons, List.findSome?_append, List.findSome?_cons,
    List.findSome?_nil]
  cases news? x d.result <;> rfl

/-- A step leaves the connection in the state that its news says, and as it was if there is none.  It
tells a display so before anything else, and nothing else of the connection. -/
theorem step_news (s : Session) (x : Step) :
    (s.step x).session.board.connection =
        (news? x (s.step x).result).getD s.board.connection ∧
      ∃ rest, (s.step x).sent = banner s.board.connection (news? x (s.step x).result) ++ rest ∧
        ∀ i ∈ rest, i.isBanner = false := by
  cases x with
  | tick now =>
    refine ⟨rfl, (s.step (.tick now)).sent, rfl, fun i hi => ?_⟩
    rcases List.mem_append.1 hi with hi | hi
    · obtain ⟨id, -, rfl⟩ := List.mem_map.1 hi
      rfl
    · rw [List.mem_singleton.1 hi]
      rfl
  | receive signal now =>
    cases signal with
    | interrupted reason => exact ⟨rfl, [], rfl, fun _ hi => absurd hi List.not_mem_nil⟩
    | frame frame =>
      cases hdecode : Event.decode frame.event frame.data with
      | error cause =>
        simp only [step, receive_undecodable s now hdecode]
        exact ⟨rfl, [], rfl, fun _ hi => absurd hi List.not_mem_nil⟩
      | ok decoded =>
        cases decoded with
        | none =>
          simp only [step, receive_ignored s now hdecode, news?, hdecode]
          exact ⟨rfl, [], rfl, fun _ hi => absurd hi List.not_mem_nil⟩
        | some event =>
          simp only [step, receive, hdecode]
          cases happly : s.board.apply event now with
          | error failure => exact ⟨rfl, [], rfl, fun _ hi => absurd hi List.not_mem_nil⟩
          | ok applied =>
            -- An event that is applied: the end of an interruption goes before the rows.
            obtain ⟨changed, told, hchange, hreconnect⟩ := Board.apply_eq_ok happly
            obtain ⟨htables, hconnection⟩ := Board.frame_change hchange
            simp only [deliver, news?, hdecode]
            refine ⟨?_, told, ?_, fun i hi => Instruction.isBanner_of_table? (htables i hi)⟩
            · rw [← congrArg Prod.fst hreconnect, Board.reconnect_fst]
              rfl
            · rw [← congrArg Prod.snd hreconnect, Board.reconnect_snd, hconnection]
              rfl

/-- After a history the connection is in the state that the last news said. -/
theorem connection_run (s : Session) (steps : List Step) :
    (s.run steps).board.connection =
      (lastNews? (s.record steps)).getD s.board.connection := by
  induction steps generalizing s with
  | nil => rfl
  | cons x rest ih =>
    rw [run_cons, ih, (step_news s x).1, record, lastNews?_cons]
    cases lastNews? ((s.step x).session.record rest) <;> rfl

end Session

/-! ## Rows without the connection -/

namespace Board

/-- Two boards that differ in the state of their connection at most. -/
structure SameRows (a b : Board) : Prop where
  revisions : a.revisions = b.revisions
  leases : a.leases = b.leases
  policies : a.policies = b.policies

theorem SameRows.refl (b : Board) : SameRows b b := ⟨rfl, rfl, rfl⟩

theorem SameRows.symm {a b : Board} (h : SameRows a b) : SameRows b a :=
  ⟨h.revisions.symm, h.leases.symm, h.policies.symm⟩

theorem SameRows.trans {a b c : Board} (hab : SameRows a b) (hbc : SameRows b c) : SameRows a c :=
  ⟨hab.revisions.trans hbc.revisions, hab.leases.trans hbc.leases, hab.policies.trans hbc.policies⟩

theorem SameRows.eq_connection {a b : Board} (h : SameRows a b) :
    b = { a with connection := b.connection } := by
  obtain ⟨hrevisions, hleases, hpolicies⟩ := h
  rw [hrevisions, hleases, hpolicies]

/-- What an event changes does not depend on the connection. -/
theorem change_of_connection (b : Board) (status : Connection) (now : Instant) (event : Event) :
    { b with connection := status }.change now event =
      (b.change now event).map fun done => ({ done.1 with connection := status }, done.2) := by
  cases event with
  | policies list =>
    simp only [change, applyPolicies]
    cases Policy.collect list.policies <;> rfl
  | leases list =>
    have hadvance : { b with connection := status }.advance list = b.advance list := rfl
    simp only [change, applyLeases, hadvance]
    cases Lease.collect list.leases with
    | error failure => rfl
    | ok leases => cases b.advance list <;> rfl

/-- An event is applied to the same effect whatever the connection, but for the banner at its end. -/
theorem apply_of_connection (b : Board) (status : Connection) (event : Event) (now : Instant) :
    ({ b with connection := status }.apply event now).map (Prod.map id Instruction.withoutBanners) =
      (b.apply event now).map (Prod.map id Instruction.withoutBanners) := by
  have hbanner : ∀ (a : Board) (sent : List Instruction),
      Instruction.withoutBanners (a.reconnect sent).2 = Instruction.withoutBanners sent := by
    intro a sent
    rw [reconnect_snd]
    split <;> rfl
  rw [apply_eq, apply_eq, change_of_connection]
  cases b.change now event with
  | error failure => rfl
  | ok done => simp only [Except.map, Prod.map, reconnect_fst, hbanner]

end Board

namespace Session

/-- Whether a step is an interruption. -/
def Step.isInterruption : Step → Bool
  | .receive (.interrupted _) _ => true
  | .receive (.frame _) _ => false
  | .tick _ => false

/-- What a step does apart from the connection: its result, the instructions for rows, and the rows and
revisions that it leaves. -/
structure Effect where
  step : Step
  result : Except Failure Unit
  sent : List Instruction
  revisions : Revisions
  leases : Roster
  policies : Book

/-- The effect of a step. -/
def Effect.of (x : Step) (d : Delivery) : Effect where
  step := x
  result := d.result
  sent := Instruction.withoutBanners d.sent
  revisions := d.session.board.revisions
  leases := d.session.board.leases
  policies := d.session.board.policies

/-- The effects of the steps of a history that are no interruptions. -/
def effects (s : Session) (steps : List Step) : List Effect :=
  ((s.record steps).filter fun entry => !entry.1.isInterruption).map fun entry =>
    .of entry.1 entry.2

theorem Effect.sameRows {x y : Step} {d d' : Delivery} (h : Effect.of x d = Effect.of y d') :
    d.session.board.SameRows d'.session.board :=
  ⟨congrArg Effect.revisions h, congrArg Effect.leases h, congrArg Effect.policies h⟩

/-- Boards with the same rows take a step to the same effect, unless it is an interruption. -/
theorem effect_step_congr {s s' : Session} (h : s.board.SameRows s'.board) {x : Step}
    (hx : x.isInterruption = false) : Effect.of x (s.step x) = Effect.of x (s'.step x) := by
  obtain ⟨board, display⟩ := s
  obtain ⟨board', display'⟩ := s'
  obtain hboard : board' = { board with connection := board'.connection } := h.eq_connection
  generalize board'.connection = status at hboard
  subst hboard
  cases x with
  | tick now => rfl
  | receive signal now =>
    cases signal with
    | interrupted reason => cases hx
    | frame frame =>
      cases hdecode : Event.decode frame.event frame.data with
      | error cause =>
        simp only [step, receive_undecodable _ now hdecode]
        rfl
      | ok decoded =>
        cases decoded with
        | none =>
          simp only [step, receive_ignored _ now hdecode]
          rfl
        | some event =>
          simp only [step, receive, hdecode]
          obtain ⟨failure, happly', happly⟩ | ⟨done', done, happly', happly, heq⟩ :=
            Except.cases_of_map_eq (board.apply_of_connection status event now)
          · rw [happly, happly']
            rfl
          · obtain ⟨hafter, hsent⟩ := Prod.mk.inj heq
            have hafter : done'.1 = done.1 := hafter
            simp only [happly, happly', Effect.of, deliver, hafter, hsent]

/-- A history has the effects of its steps without the interruptions, and leaves the same rows. -/
theorem effects_without_interruptions {s s' : Session} (h : s.board.SameRows s'.board)
    (steps : List Step) :
    s.effects steps = s'.effects (steps.filter fun x => !x.isInterruption) ∧
      (s.run steps).board.SameRows (s'.run (steps.filter fun x => !x.isInterruption)).board := by
  induction steps generalizing s s' with
  | nil => exact ⟨rfl, h⟩
  | cons x rest ih =>
    cases hx : x.isInterruption with
    | true =>
      -- An interruption changes nothing but the connection.
      have hsame : (s.step x).session.board.SameRows s'.board := by
        cases x with
        | tick now => cases hx
        | receive signal now =>
          cases signal with
          | frame frame => cases hx
          | interrupted reason => exact ⟨h.revisions, h.leases, h.policies⟩
      simpa only [List.filter_cons, hx, effects, record, run_cons, Bool.not_true, Bool.false_eq_true,
        if_false] using ih hsame
    | false =>
      have heffect := effect_step_congr h hx
      obtain ⟨heffects, hrun⟩ := ih (Effect.sameRows heffect)
      simp only [List.filter_cons, hx, effects, record, run_cons, Bool.not_false, if_true,
        List.map_cons] at heffects ⊢
      exact ⟨by rw [heffect, heffects], hrun⟩

end Session

/-! ## The end of a stream -/

namespace Worker

/-- A stream that has ended is shown as closed: the worker takes no more signals, and board and display
show the closing banner. -/
structure Closed (w : Worker) : Prop where
  stopped : w.running = false
  board : w.relay.session.board.connection = .interrupted "event stream closed"
  display : w.relay.session.display.connection = .interrupted "event stream closed"

/-- The banner of a closed stream stays while the clock goes on. -/
theorem Closed.take {w : Worker} (h : w.Closed) (t : Turn) : (w.take t).1.Closed := by
  obtain ⟨r, running⟩ := w
  obtain ⟨hstopped, hboard, hdisplay⟩ := h
  obtain rfl : running = false := hstopped
  cases t with
  | signal signal now => exact ⟨rfl, hboard, hdisplay⟩
  | closing => exact ⟨rfl, hboard, hdisplay⟩
  | tick now =>
    have htables : ∀ i ∈ (r.session.board.expire now).2, i.table?.isSome := by
      intro i hi
      obtain ⟨id, -, rfl⟩ := List.mem_map.1 hi
      rfl
    have hrun : (Worker.take ⟨r, false⟩ (.tick now)).1 =
        ⟨r.after (r.session.tick now), false⟩ := by
      simp only [Worker.take, perform, InPlace.run_tick]
    rw [hrun]
    refine ⟨rfl, hboard, ?_⟩
    have hshown : (r.session.tick now).session.display.connection =
        (r.session.display.applyAll (r.session.board.expire now).2).connection := by
      simp only [Session.tick, Session.deliver, Board.tick, Display.applyAll_append]
      rfl
    exact hshown.trans ((Display.connection_applyAll htables).trans hdisplay)

/-- A worker whose stream ends shows that it is closed, and goes on doing so. -/
theorem closed_run {w : Worker} {before : List Turn} (h : (w.run before).running = true)
    (after : List Turn) : (w.run (before ++ .closing :: after)).Closed := by
  rw [run_append, run_cons]
  have hclosed : ((w.run before).take .closing).1.Closed := by
    simp only [Worker.take, h, if_true]
    exact ⟨rfl, rfl, rfl⟩
  generalize ((w.run before).take .closing).1 = w' at hclosed
  induction after generalizing w' with
  | nil => exact hclosed
  | cons t rest ih => exact ih _ (hclosed.take t)

end Worker

/-! ## The banner -/

/-- After every history the connection is in the state that the last news said, where an interruption
and an event that is applied are news and nothing else is.  A step tells a display so before anything
else, unless the connection is there and was there, and tells nothing else of the connection.  When a
stream has ended, board and display show that it is closed.  And histories that differ in their
interruptions alone have the same results, the same instructions for rows and the same rows and
revisions, step by step. -/
theorem connection_follows_news :
    (∀ (s : Session) (steps : List Session.Step),
      (s.run steps).board.connection =
        (Session.lastNews? (s.record steps)).getD s.board.connection) ∧
    (∀ (s : Session) (x : Session.Step), ∃ rest,
      (s.step x).sent =
          Session.banner s.board.connection (Session.news? x (s.step x).result) ++ rest ∧
        ∀ i ∈ rest, i.isBanner = false) ∧
    (∀ (w : Worker) (before after : List Turn), (w.run before).running = true →
      (w.run (before ++ .closing :: after)).Closed) ∧
    ∀ (s : Session) (first second : List Session.Step),
      (first.filter fun x => !x.isInterruption) = (second.filter fun x => !x.isInterruption) →
        s.effects first = s.effects second ∧ (s.run first).board.SameRows (s.run second).board := by
  refine ⟨Session.connection_run, fun s x => (s.step_news x).2, fun w before after h =>
    Worker.closed_run h after, fun s first second hsteps => ?_⟩
  obtain ⟨hfirst, hrunFirst⟩ := Session.effects_without_interruptions (.refl s.board) first
  obtain ⟨hsecond, hrunSecond⟩ := Session.effects_without_interruptions (.refl s.board) second
  rw [hsteps] at hfirst hrunFirst
  exact ⟨hfirst.trans hsecond.symm, hrunFirst.trans hrunSecond.symm⟩

/-- A list of policies that comes after an interruption or before it: only the connection at the end is
another.  A worker that was interrupted shows the end of its stream in the place of that. -/
theorem connection_follows_news_around_reset :
    let frame : Frame := ⟨"policies", "{}", none, none⟩
    let list : Signal := .frame frame
    let reset : Signal := .interrupted "reset"
    let first : List Session.Step := [.receive reset (atSecond 1), .receive list (atSecond 2)]
    let second : List Session.Step := [.receive list (atSecond 2), .receive reset (atSecond 3)]
    (Session.empty.run first).board.connection = .connected ∧
      (Session.empty.run second).board.connection = .interrupted "reset" ∧
      (Session.empty.run first).board.SameRows (Session.empty.run second).board ∧
      ((⟨⟨.empty, []⟩, true⟩ : Worker).run
        [.signal reset (atSecond 1), .closing, .tick (atSecond 2)]).Closed := by
  intro frame list reset first second
  have hdecode : Event.decode frame.event frame.data = .ok (some (.policies ⟨[]⟩)) := by
    have hdata : frame.data.toList = (Json.Value.object []).render := by decide
    exact (Event.decode_of_render rfl hdata).trans rfl
  obtain ⟨hnews, -, hclosed, hsame⟩ := connection_follows_news
  refine ⟨?_, ?_, (hsame .empty first second rfl).2,
    hclosed _ [.signal reset (atSecond 1)] [.tick (atSecond 2)] rfl⟩
  · have happlied : (((Session.empty.step (.receive reset (atSecond 1))).session.step
        (.receive list (atSecond 2)))).result = .ok () := by
      rw [Session.step, Session.receive_event _ _ hdecode]
      rfl
    have hlast : Session.lastNews? (Session.empty.record first) = some .connected := by
      rw [Session.record, Session.record, Session.lastNews?_cons, Session.lastNews?_cons, happlied]
      simp only [list, Session.news?, hdecode]
      rfl
    rw [hnews, hlast]
    rfl
  · rw [hnews]
    rfl

end LeaseBoard
