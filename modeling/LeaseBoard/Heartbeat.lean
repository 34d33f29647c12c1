set_option autoImplicit false

/-!
# Heartbeats

A heartbeat ticks at a fixed interval from the moment it is started until it is stopped.  A stop is
a request that the running heartbeat takes when it next wakes, and only a running one is sent a
request.  Times are milliseconds of a clock of its own, which passes smoothly or in jumps.

A tick that is late by no more than the tolerance does not shift the ticks after it; a later one
does, and the ticks that were missed are not made up for.

Main statements: `nextDue_self` (a tick that is made in time is followed by one an interval later)
and `isRunning_shutdown` (a heartbeat that was asked to stop has stopped).
-/

namespace LeaseBoard

/-- A clock in milliseconds, when the next tick is due if the heartbeat is running, and whether it
has been asked to stop. -/
structure Heartbeat where
  time : Nat
  due : Option Nat
  stopRequested : Bool
  deriving DecidableEq, Repr

namespace Heartbeat

/-- A heartbeat that has not been started. -/
def idle : Heartbeat := ⟨0, none, false⟩

instance : Inhabited Heartbeat := ⟨idle⟩

/-- Whether the heartbeat is running. -/
def isRunning (h : Heartbeat) : Bool := h.due.isSome

/-- How late a tick may be without shifting the ticks after it. -/
def tolerance : Nat := 5

/-- When the tick after one is due that was due at one time and made at another: an interval after
the first of the two if the tick was not too late, else after the second. -/
def nextDue (interval due time : Nat) : Nat :=
  (if time ≤ due + tolerance then due else time) + interval

theorem lt_nextDue {interval due time : Nat} (hpos : 0 < interval) (hle : due ≤ time) :
    due < nextDue interval due time := by
  unfold nextDue
  split <;> omega

/-- A tick that is made when it is due is followed by one an interval later. -/
theorem nextDue_self (interval due : Nat) : nextDue interval due due = due + interval := by
  simp [nextDue]

/-- The ticks made at a time by a heartbeat that wakes then, and when the next one is due. -/
def ticksAt {interval : Nat} (hpos : 0 < interval) (time due : Nat) : List Nat × Nat :=
  if _h : due ≤ time then
    let later := ticksAt hpos time (nextDue interval due time)
    (time :: later.1, later.2)
  else ([], due)
termination_by time + 1 - due
decreasing_by
  have := lt_nextDue hpos _h
  omega

/-- The ticks up to a time that passes smoothly, each when it is due, and when the next one is
due. -/
def ticksUntil {interval : Nat} (hpos : 0 < interval) (finish due : Nat) : List Nat × Nat :=
  if due ≤ finish then
    let later := ticksUntil hpos finish (nextDue interval due due)
    (due :: later.1, later.2)
  else ([], due)
termination_by finish + 1 - due
decreasing_by
  have := lt_nextDue hpos (Nat.le_refl due)
  omega

/-- What a heartbeat does when it wakes: it takes a request to stop, or makes the ticks that are
due. -/
def wake {interval : Nat} (hpos : 0 < interval) (h : Heartbeat) : Heartbeat × List Nat :=
  match h.due with
  | none => (h, [])
  | some due =>
    if h.stopRequested then ({ h with due := none, stopRequested := false }, [])
    else
      let (ticks, due) := ticksAt hpos h.time due
      ({ h with due := some due }, ticks)

/-- Starts the heartbeat, which ticks at once; nothing if it is running. -/
def start {interval : Nat} (hpos : 0 < interval) (h : Heartbeat) : Heartbeat × List Nat :=
  if h.isRunning then (h, []) else wake hpos { h with due := some h.time }

/-- Asks a running heartbeat to stop and waits until it has. -/
def shutdown {interval : Nat} (hpos : 0 < interval) (h : Heartbeat) : Heartbeat × List Nat :=
  if h.isRunning then wake hpos { h with stopRequested := true } else (h, [])

/-- Lets time pass smoothly. -/
def pass {interval : Nat} (hpos : 0 < interval) (ms : Nat) (h : Heartbeat) : Heartbeat × List Nat :=
  let finish := h.time + ms
  match h.due with
  | none => ({ h with time := finish }, [])
  | some due =>
    let (ticks, due) := ticksUntil hpos finish due
    ({ h with time := finish, due := some due }, ticks)

/-- Moves time in one go. -/
def jump {interval : Nat} (hpos : 0 < interval) (ms : Nat) (h : Heartbeat) : Heartbeat × List Nat :=
  wake hpos { h with time := h.time + ms }

/-! ## Histories -/

/-- What is done with a heartbeat. -/
inductive Call where
  | start
  | shutdown
  | pass (ms : Nat)
  | jump (ms : Nat)
  deriving DecidableEq, Repr

/-- The heartbeat after a call, and the times of the ticks made during it. -/
def call {interval : Nat} (hpos : 0 < interval) (h : Heartbeat) : Call → Heartbeat × List Nat
  | .start => h.start hpos
  | .shutdown => h.shutdown hpos
  | .pass ms => h.pass hpos ms
  | .jump ms => h.jump hpos ms

/-- The heartbeat after a list of calls, and the times of all ticks. -/
def calls {interval : Nat} (hpos : 0 < interval) (h : Heartbeat) : List Call → Heartbeat × List Nat
  | [] => (h, [])
  | c :: rest =>
    let first := h.call hpos c
    let later := calls hpos first.1 rest
    (later.1, first.2 ++ later.2)

theorem isRunning_shutdown {interval : Nat} (hpos : 0 < interval) (h : Heartbeat) :
    (h.shutdown hpos).1.isRunning = false := by
  unfold shutdown
  split
  case isTrue hrun =>
    obtain ⟨due, hdue⟩ := Option.isSome_iff_exists.1 hrun
    simp [wake, hdue, isRunning]
  case isFalse hnot => simpa using hnot

end Heartbeat

end LeaseBoard
