import LeaseBoard.Proofs.SessionTrace
set_option autoImplicit false

/-!
# Events as programs that write

An event as it is carried out on a board that is there: entries are read, the revision is recorded,
then statistics, leases and the connection are written, one after the other.  A program that fails
leaves what it has written so far.  So `Board.apply`, which has no board to give back when it fails,
is right about events only because nothing is written before the last failure that is possible.

`Transacts` says that a program does a thing whole or not at all.  It is kept by two ways of putting
programs together: checks may come before a transaction, and writes that cannot fail may come after it.
Main statements: `apply_transacts` (an event on a board) and `receive_frame_transacts` (a frame).
-/

namespace LeaseBoard

open LeaseBoard.Feed

/-! ## Programs -/

/-- A program that changes a state in place.  What it has written when it fails stays written. -/
abbrev Program (σ α : Type) := EStateM Failure σ α

namespace Program

variable {σ α β : Type}

/-- A check, which writes nothing. -/
def check (e : Except Failure α) : Program σ α :=
  match e with
  | .ok a => pure a
  | .error failure => throw failure

/-- A program that does what a function says, or fails with its failure and leaves the state. -/
def Transacts (x : Program σ α) (f : σ → Except Failure (σ × α)) : Prop :=
  ∀ s, x.run s =
    match f s with
    | .ok (after, a) => .ok a after
    | .error failure => .error failure s

theorem Transacts.congr {x : Program σ α} {f g : σ → Except Failure (σ × α)} (h : Transacts x f)
    (heq : ∀ s, f s = g s) : Transacts x g := by
  intro s
  rw [← heq]
  exact h s

/-- Checks may come before a transaction. -/
theorem Transacts.check_bind {k : α → Program σ β} {f : α → σ → Except Failure (σ × β)}
    (h : ∀ a, Transacts (k a) (f a)) (e : Except Failure α) :
    Transacts (check e >>= k) fun s => e.bind fun a => f a s := by
  intro s
  cases e with
  | error failure => rfl
  | ok a => exact h a s

/-- Writes that cannot fail may come after a transaction. -/
theorem Transacts.bind {x : Program σ α} {f : σ → Except Failure (σ × α)} (h : Transacts x f)
    {k : α → Program σ β} {g : σ → α → σ × β}
    (hk : ∀ a s, (k a).run s = .ok (g s a).2 (g s a).1) :
    Transacts (x >>= k) fun s => (f s).map fun done => g done.1 done.2 := by
  intro s
  have hx := h s
  cases hf : f s with
  | error failure =>
    rw [hf] at hx
    simp only [EStateM.run_bind, hx, hf, Except.map]
  | ok done =>
    rw [hf] at hx
    simp only [EStateM.run_bind, hx, hf, Except.map]
    exact hk done.2 done.1

/-- A transaction fails as its function does, and leaves the state. -/
theorem Transacts.of_error {x : Program σ α} {f : σ → Except Failure (σ × α)} (h : Transacts x f)
    {s after : σ} {failure : Failure} (hrun : x.run s = .error failure after) :
    after = s ∧ f s = .error failure := by
  rw [h s] at hrun
  cases hf : f s with
  | error cause =>
    rw [hf] at hrun
    cases hrun
    exact ⟨rfl, rfl⟩
  | ok done => rw [hf] at hrun; cases hrun

/-- The rows of a list of entries, made one after the other until one is bad. -/
def collect {ε : Type} (ofEntry : ε → Except Failure α) (id : α → String) (entries : List ε) :
    Program σ (List α) :=
  entries.foldlM (fun kept entry => do
    let row ← check (ofEntry entry)
    return Arrival.put id row kept) []

/-- Making rows is a check. -/
theorem collect_eq {ε : Type} (ofEntry : ε → Except Failure α) (id : α → String) (entries : List ε) :
    (collect ofEntry id entries : Program σ (List α)) =
      check ((entries.mapM ofEntry).map (Arrival.collect id)) := by
  suffices h : ∀ kept : List α,
      (entries.foldlM (fun kept entry => do
        let row ← check (ofEntry entry)
        return Arrival.put id row kept) kept : Program σ (List α)) =
        check ((entries.mapM ofEntry).map fun rows =>
          rows.foldl (fun kept row => Arrival.put id row kept) kept) from h []
  induction entries with
  | nil => exact fun kept => rfl
  | cons entry rest ih =>
    intro kept
    rw [List.foldlM_cons, List.mapM_cons]
    cases hentry : ofEntry entry with
    | error failure => rfl
    | ok row =>
      refine (ih (Arrival.put id row kept)).trans ?_
      cases rest.mapM ofEntry <;> rfl

end Program

/-! ## Events -/

namespace InPlace

/-- Records the revision of a list, or fails if it is stale. -/
def advance (list : LeaseList) : Program Board Unit := do
  match list.resource with
  | none => return ()
  | some resource =>
    let b ← get
    match b.revisions.advance resource list.revision with
    | some revisions => set { b with revisions := revisions }
    | none =>
      throw (.rejected (.stale resource (list.revision.getD 0)
        ((b.revisions.last? resource).getD 0)))

/-- Writes the statistics of a list. -/
def report (list : LeaseList) : Program Board (List Instruction) :=
  modifyGet fun b => ((b.report list).2, { b with policies := (b.report list).1 })

/-- Writes the leases of a list. -/
def update (scope : Option String) (leases : List Lease) (now : Instant) :
    Program Board (List Instruction) :=
  modifyGet fun b =>
    ((b.leases.update scope leases now).1.instructions,
      { b with leases := (b.leases.update scope leases now).2 })

/-- Writes the policies of a list. -/
def replace (policies : List Policy) : Program Board (List Instruction) :=
  modifyGet fun b =>
    ((b.policies.replace policies).1.instructions,
      { b with policies := (b.policies.replace policies).2 })

/-- Ends an interruption. -/
def reconnect (sent : List Instruction) : Program Board (List Instruction) := do
  let b ← get
  if b.connection = .connected then return sent
  set { b with connection := .connected }
  return .connection .connected :: sent

/-- What an event writes but for the connection. -/
def change (now : Instant) : Event → Program Board (List Instruction)
  | .policies list => do
    let policies ← Program.collect Policy.ofEntry Policy.resource list.policies
    replace policies
  | .leases list => do
    let leases ← Program.collect Lease.ofEntry Lease.id list.leases
    advance list
    let reported ← report list
    let changed ← update list.resource leases now
    return reported ++ changed

/-- Carries out an event. -/
def apply (event : Event) (now : Instant) : Program Board (List Instruction) := do
  let sent ← change now event
  reconnect sent

/-- A revision is recorded or the list is stale. -/
theorem advance_transacts (list : LeaseList) :
    (advance list).Transacts fun b =>
      (b.advance list).map fun revisions => ({ b with revisions := revisions }, ()) := by
  intro b
  unfold advance Board.advance
  cases list.resource with
  | none => rfl
  | some resource =>
    cases hadvance : b.revisions.advance resource list.revision with
    | none =>
      simp only [EStateM.run_bind, EStateM.run_get, hadvance, Except.map]
      rfl
    | some revisions =>
      simp only [EStateM.run_bind, EStateM.run_get, hadvance, Except.map]
      rfl

theorem run_reconnect (sent : List Instruction) (b : Board) :
    (reconnect sent).run b = .ok (b.reconnect sent).2 (b.reconnect sent).1 := by
  unfold reconnect Board.reconnect
  simp only [EStateM.run_bind, EStateM.run_get]
  by_cases h : b.connection = .connected
  · simp only [h, if_true]
    rfl
  · simp only [h, if_false]
    rfl

/-- The board and the instructions once the revision of a list is recorded. -/
def write (list : LeaseList) (leases : List Lease) (now : Instant) (b : Board) :
    Board × List Instruction :=
  ({ b with
      policies := (b.report list).1
      leases := (b.leases.update list.resource leases now).2 },
    (b.report list).2 ++ (b.leases.update list.resource leases now).1.instructions)

/-- What an event writes is written whole or not at all. -/
theorem change_transacts (event : Event) (now : Instant) :
    (change now event).Transacts fun b => b.change now event := by
  cases event with
  | policies list =>
    have hreplace : ∀ policies, (replace policies).Transacts fun b =>
        .ok ({ b with policies := (b.policies.replace policies).2 },
          (b.policies.replace policies).1.instructions) := fun policies b => rfl
    rw [change, Program.collect_eq]
    refine (Program.Transacts.check_bind hreplace (Policy.collect list.policies)).congr fun b => ?_
    change _ = b.applyPolicies list
    unfold Board.applyPolicies
    cases Policy.collect list.policies <;> rfl
  | leases list =>
    -- Nothing can fail once the revision is recorded.
    have hwrite : ∀ leases, Program.Transacts (advance list >>= fun _ => do
        let reported ← report list
        let changed ← update list.resource leases now
        return reported ++ changed) _ :=
      fun leases => (advance_transacts list).bind (g := fun b _ => write list leases now b)
        fun _ _ => rfl
    rw [change, Program.collect_eq]
    refine (Program.Transacts.check_bind hwrite (Lease.collect list.leases)).congr fun b => ?_
    change _ = b.applyLeases list now
    unfold Board.applyLeases
    cases Lease.collect list.leases with
    | error failure => rfl
    | ok leases => cases hadvance : b.advance list <;> rfl

/-- An event is carried out whole or not at all. -/
theorem apply_transacts (event : Event) (now : Instant) :
    (apply event now).Transacts fun b => b.apply event now :=
  ((change_transacts event now).bind (g := fun b sent => b.reconnect sent)
    fun sent b => run_reconnect sent b).congr fun b => (b.apply_eq event now).symm

end InPlace

/-! ## Signals -/

/-- A session and all that its display was sent so far. -/
structure Relay where
  session : Session
  sent : List Instruction
  deriving DecidableEq, Repr

/-- A relay after more has been sent by its session. -/
def Relay.after (r : Relay) (d : Delivery) : Relay := ⟨d.session, r.sent ++ d.sent⟩

namespace InPlace

/-- Runs a program on the board of a session. -/
def onBoard {α : Type} (x : Program Board α) : Program Relay α := fun r =>
  match x.run r.session.board with
  | .ok a b => .ok a { r with session := { r.session with board := b } }
  | .error failure b => .error failure { r with session := { r.session with board := b } }

theorem transacts_onBoard {α : Type} {x : Program Board α} {f : Board → Except Failure (Board × α)}
    (h : x.Transacts f) :
    (onBoard x).Transacts fun r => (f r.session.board).map fun done =>
      ({ r with session := { r.session with board := done.1 } }, done.2) := by
  intro r
  simp only [onBoard, EStateM.run]
  have hx := h r.session.board
  simp only [EStateM.run] at hx
  rw [hx]
  cases f r.session.board <;> rfl

/-- Sends an instruction to the display. -/
def dispatch (instruction : Instruction) : Program Relay Unit :=
  modify fun r =>
    ⟨{ r.session with display := r.session.display.apply instruction }, r.sent ++ [instruction]⟩

/-- Notes that the connection is lost and shows the banner. -/
def interrupt (reason : String) : Program Relay Unit := do
  let banner ← onBoard (modifyGet fun b => ((b.interrupt reason).2, (b.interrupt reason).1))
  dispatch banner

/-- Takes a signal: an event is carried out on the board, and its instructions are sent one at a
time. -/
def receive (now : Instant) : Signal → Program Relay Unit
  | .frame frame => do
    let decoded ← Program.check ((Event.decode frame.event frame.data).mapError .rejected)
    match decoded with
    | none => return ()
    | some event =>
      let instructions ← onBoard (apply event now)
      instructions.forM dispatch
  | .interrupted reason => do
    interrupt reason
    throw (.rejected (.interrupted reason))

theorem run_forM_dispatch (instructions : List Instruction) (r : Relay) :
    (instructions.forM dispatch).run r =
      .ok () ⟨{ r.session with display := r.session.display.applyAll instructions },
        r.sent ++ instructions⟩ := by
  induction instructions generalizing r with
  | nil => rw [List.append_nil]; rfl
  | cons first rest ih =>
    have hrest := ih ⟨{ r.session with display := r.session.display.apply first }, r.sent ++ [first]⟩
    rw [List.append_assoc] at hrest
    exact hrest

/-- A frame is taken whole or not at all, and what it does is what a session does with it. -/
theorem receive_frame_transacts (now : Instant) (frame : Frame) :
    (receive now (.frame frame)).Transacts fun r =>
      (r.session.receive now (.frame frame)).result.map fun done =>
        (r.after (r.session.receive now (.frame frame)), done) := by
  intro r
  cases hdecode : Event.decode frame.event frame.data with
  | error cause =>
    simp only [r.session.receive_undecodable now hdecode, receive, hdecode]
    rfl
  | ok decoded =>
    cases decoded with
    | none =>
      simp only [r.session.receive_ignored now hdecode, receive, hdecode, Relay.after,
        List.append_nil]
      rfl
    | some event =>
      -- The display is written to only once the event is carried out.
      have hevent := (transacts_onBoard (apply_transacts event now)).bind
        (g := fun r sent => (⟨⟨r.session.board, r.session.display.applyAll sent⟩, r.sent ++ sent⟩, ()))
        fun sent r => run_forM_dispatch sent r
      simp only [receive, Session.receive, hdecode]
      refine (hevent r).trans ?_
      cases happly : r.session.board.apply event now with
      | error failure => simp only [happly, Except.map, Session.deliver]
      | ok applied => simp only [happly, Except.map, Session.deliver, Relay.after]

/-- An interruption is not: it fails once the banner is shown. -/
theorem run_receive_interrupted (now : Instant) (reason : String) (r : Relay) :
    (receive now (.interrupted reason)).run r =
      .error (.rejected (.interrupted reason))
        (r.after (r.session.receive now (.interrupted reason))) := rfl

/-- A beat of the clock. -/
def tick (now : Instant) : Program Relay Unit := do
  let instructions ← onBoard (modifyGet fun b => ((b.tick now).2, (b.tick now).1))
  instructions.forM dispatch

theorem run_tick (now : Instant) (r : Relay) :
    (tick now).run r = .ok () (r.after (r.session.tick now)) :=
  run_forM_dispatch _ _

end InPlace

end LeaseBoard
