import LeaseBoard.Heartbeat
import LeaseBoard.Session
set_option autoImplicit false

/-!
# Monitors

A monitor runs a session with a heartbeat and a clock that is set by hand.  The heartbeat's ticks
are beats of the session at the time of that clock.
-/

namespace LeaseBoard

open LeaseBoard.Feed

/-- The settings of a monitor: the interval of its heartbeat in milliseconds. -/
structure Settings where
  interval : Nat
  deriving DecidableEq, Repr

namespace Settings

/-- The heartbeat ticks every second unless something else is asked for. -/
instance : Inhabited Settings := ⟨⟨1000⟩⟩

/-- The rejection of an interval of zero. -/
def zeroInterval : Rejection := .misconfigured "tick_interval must be > 0"

/-- Turns down an interval of zero. -/
def validate (settings : Settings) : Except Rejection Unit :=
  if settings.interval = 0 then .error zeroInterval else .ok ()

end Settings

/-- A session with its heartbeat and its clock. -/
structure Monitor where
  interval : Nat
  interval_pos : 0 < interval
  session : Session
  heartbeat : Heartbeat
  clock : Instant

namespace Monitor

/-- A monitor with settings that are valid, a display and a clock. -/
def new (settings : Settings) (display : Display) (clock : Instant) : Except Rejection Monitor :=
  if h : 0 < settings.interval then
    .ok ⟨settings.interval, h, ⟨.empty, display⟩, .idle, clock⟩
  else .error Settings.zeroInterval

/-- A monitor is made exactly with valid settings. -/
theorem new_eq_error_iff (settings : Settings) (display : Display) (clock : Instant)
    (cause : Rejection) :
    new settings display clock = .error cause ↔ settings.validate = .error cause := by
  unfold new Settings.validate
  by_cases h : settings.interval = 0
  · simp [h]
  · simp [h, Nat.pos_of_ne_zero h]

/-- Whether the heartbeat is running. -/
def isRunning (m : Monitor) : Bool := m.heartbeat.isRunning

/-- What a step of a monitor does. -/
structure Step where
  monitor : Monitor
  sent : List Instruction
  result : Except Failure Unit

/-- A step that only its session takes. -/
def ofDelivery (m : Monitor) (d : Delivery) : Step :=
  ⟨{ m with session := d.session }, d.sent, d.result⟩

/-- Takes one signal. -/
def receive (m : Monitor) (signal : Signal) : Step :=
  m.ofDelivery (m.session.receive m.clock signal)

/-- Takes signals until they end. -/
def run (m : Monitor) (signals : List Signal) : Step :=
  m.ofDelivery (m.session.drain m.clock signals)

/-- Takes the signals of a stream until it ends. -/
def runStream (m : Monitor) (items : List Item) : Step :=
  m.ofDelivery (m.session.drainStream m.clock items)

/-- One beat of the session. -/
def tick (m : Monitor) : Step := m.ofDelivery (m.session.tick m.clock)

/-- Beats the session as often as the heartbeat ticked. -/
def beat (m : Monitor) (heartbeat : Heartbeat) (ticks : List Nat) : Step :=
  ticks.foldl
    (fun step _ =>
      let next := step.monitor.tick
      ⟨next.monitor, step.sent ++ next.sent, .ok ()⟩)
    ⟨{ m with heartbeat := heartbeat }, [], .ok ()⟩

/-- Starts the heartbeat. -/
def start (m : Monitor) : Step :=
  let (heartbeat, ticks) := m.heartbeat.start m.interval_pos
  m.beat heartbeat ticks

/-- Stops the heartbeat. -/
def shutdown (m : Monitor) : Step :=
  let (heartbeat, ticks) := m.heartbeat.shutdown m.interval_pos
  m.beat heartbeat ticks

/-- Lets the heartbeat's time pass smoothly. -/
def pass (m : Monitor) (ms : Nat) : Step :=
  let (heartbeat, ticks) := m.heartbeat.pass m.interval_pos ms
  m.beat heartbeat ticks

/-- Moves the heartbeat's time in one go. -/
def jump (m : Monitor) (ms : Nat) : Step :=
  let (heartbeat, ticks) := m.heartbeat.jump m.interval_pos ms
  m.beat heartbeat ticks

/-- Sets the clock. -/
def setClock (m : Monitor) (clock : Instant) : Monitor := { m with clock := clock }

/-- Moves the clock by nanoseconds, if it stays in the calendar. -/
def advanceClock (m : Monitor) (ns : Int) : Except Failure Monitor :=
  match m.clock.add? ns with
  | some clock => .ok { m with clock := clock }
  | none => .error .outOfCalendar

/-- A fresh display with all that the board holds. -/
def rebuild (m : Monitor) : Display := m.session.rebuild m.clock

end Monitor

end LeaseBoard
