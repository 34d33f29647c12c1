import Mathlib.Data.List.Basic
set_option autoImplicit false

/-!
# The tickers behind a heartbeat

A heartbeat is kept by a task of its own, a ticker, which waits for its next tick or for a request to
stop, whichever comes first.  The request is one flag that all tickers share: whoever finds it takes it.
An order to start spawns a ticker unless there is a handle on one; an order to shut down gives the handle
away, leaves the request, and waits for that ticker to end.  No other order is taken meanwhile.

`Moves` is one move of all this, in any order that the tickers may be scheduled in.  The clock waits for
what is ready: it does not go beyond a tick that is due, nor on while a ticker has a request to take.  So
a ticker's first tick comes when it is spawned and every other a period after the one before.

Main statements: `Sound.execution` (of the many states that the parts could be in, four occur, and none
has two tickers) and `Execution.ticks_of_running` (when a ticker ticks).
-/

namespace LeaseBoard

/-- What a monitor is ordered to do with its ticker. -/
inductive Order where
  | start
  | shutdown
  deriving DecidableEq, Repr

/-- Whether a ticker is wanted after orders: as the last of them says, if there are any. -/
def Order.wanted (before : Bool) (orders : List Order) : Bool :=
  match orders.getLast? with
  | none => before
  | some order => order = .start

theorem Order.wanted_false_iff {orders : List Order} :
    wanted false orders = true ↔ orders.getLast? = some .start := by
  unfold wanted
  cases orders.getLast? <;> simp

theorem Order.wanted_append (before : Bool) (first rest : List Order) :
    wanted before (first ++ rest) = wanted (wanted before first) rest := by
  unfold wanted
  rw [List.getLast?_append]
  cases rest.getLast? <;> rfl

/-- A ticker that has been spawned and has not ended: its number and when its next tick is due. -/
structure Ticker where
  number : Nat
  due : Nat
  deriving DecidableEq, Repr

/-- The time, how many tickers have been spawned, those that have not ended, the one that there is a
handle on, the one whose end is awaited, and whether there is a request to stop. -/
structure Tickers where
  time : Nat
  spawned : Nat
  alive : List Ticker
  handle : Option Nat
  awaited : Option Nat
  stopRequested : Bool
  deriving DecidableEq, Repr

namespace Tickers

/-- What can happen. -/
inductive Act where
  | order (o : Order)
  | join
  | tick
  | stop
  | pass (ms : Nat)
  deriving DecidableEq, Repr

/-- The order that is given, if one is. -/
def Act.order? : Act → Option Order
  | .order o => some o
  | .join => none
  | .tick => none
  | .stop => none
  | .pass _ => none

theorem Act.filterMap_order?_cons (a : Act) (acts : List Act) :
    (a :: acts).filterMap order? = a.order?.toList ++ acts.filterMap order? := by
  cases a <;> rfl

theorem Act.mem_filterMap_order?_iff {acts : List Act} {o : Order} :
    o ∈ acts.filterMap order? ↔ .order o ∈ acts := by
  rw [List.mem_filterMap]
  constructor
  · rintro ⟨a, ha, ho⟩
    cases a with
    | order other => exact Option.some.inj ho ▸ ha
    | join => cases ho
    | tick => cases ho
    | stop => cases ho
    | pass => cases ho
  · exact fun ho => ⟨_, ho, rfl⟩

/-- One move of the tickers of a period. -/
inductive Moves (period : Nat) : Tickers → Act → Tickers → Prop
  /-- Without a handle a ticker is spawned, whose first tick is due at once. -/
  | spawn {s : Tickers} (hfree : s.awaited = none) (hnone : s.handle = none) :
      Moves period s (.order .start)
        { s with
          spawned := s.spawned + 1
          alive := s.alive ++ [⟨s.spawned, s.time⟩]
          handle := some s.spawned }
  /-- With a handle nothing is started. -/
  | keep {s : Tickers} {number : Nat} (hfree : s.awaited = none) (hsome : s.handle = some number) :
      Moves period s (.order .start) s
  /-- The handle is given away for a request to stop, and the end of the ticker is awaited. -/
  | request {s : Tickers} {number : Nat} (hfree : s.awaited = none) (hsome : s.handle = some number) :
      Moves period s (.order .shutdown)
        { s with handle := none, awaited := some number, stopRequested := true }
  /-- Without a handle nothing is stopped. -/
  | skip {s : Tickers} (hfree : s.awaited = none) (hnone : s.handle = none) :
      Moves period s (.order .shutdown) s
  /-- The ticker that is awaited has ended. -/
  | join {s : Tickers} {number : Nat} (hawaited : s.awaited = some number)
      (hended : ∀ t ∈ s.alive, t.number ≠ number) :
      Moves period s .join { s with awaited := none }
  /-- A ticker ticks, and is due again a period later. -/
  | tick {s : Tickers} {before after : List Ticker} {t : Ticker}
      (halive : s.alive = before ++ t :: after) (hdue : t.due ≤ s.time) :
      Moves period s .tick { s with alive := before ++ ⟨t.number, t.due + period⟩ :: after }
  /-- A ticker takes the request to stop, and ends. -/
  | stop {s : Tickers} {before after : List Ticker} {t : Ticker}
      (halive : s.alive = before ++ t :: after) (hrequest : s.stopRequested = true) :
      Moves period s .stop { s with alive := before ++ after, stopRequested := false }
  /-- Time passes up to the next tick that is due, if no ticker has a request to take. -/
  | pass {s : Tickers} {ms : Nat} (hdue : ∀ t ∈ s.alive, s.time + ms ≤ t.due)
      (hcalm : s.stopRequested = true → s.alive = []) :
      Moves period s (.pass ms) { s with time := s.time + ms }

/-- The times of the ticks that are made by a move at a time. -/
def Act.ticksAt (time : Nat) : Act → List Nat
  | .tick => [time]
  | .order _ => []
  | .join => []
  | .stop => []
  | .pass _ => []

/-- Moves one after the other, and the times of all ticks. -/
inductive Execution (period : Nat) : Tickers → List Act → List Nat → Tickers → Prop
  | nil (s : Tickers) : Execution period s [] [] s
  | cons {s u v : Tickers} {a : Act} {acts : List Act} {ticks : List Nat}
      (hmove : Moves period s a u) (hrest : Execution period u acts ticks v) :
      Execution period s (a :: acts) (a.ticksAt s.time ++ ticks) v

theorem Execution.append {period : Nat} {s u v : Tickers} {acts more : List Act}
    {ticks others : List Nat} (h : Execution period s acts ticks u)
    (hmore : Execution period u more others v) :
    Execution period s (acts ++ more) (ticks ++ others) v := by
  induction h with
  | nil => exact hmore
  | cons hmove _ ih =>
    rw [List.append_assoc]
    exact .cons hmove (ih hmore)

/-! ## The four states -/

variable {period time spawned number : Nat} {t : Ticker} {a : Act} {s u : Tickers}

/-- There is no ticker. -/
def idle (time spawned : Nat) : Tickers := ⟨time, spawned, [], none, none, false⟩

/-- There is a handle on the only ticker. -/
def running (time spawned : Nat) (t : Ticker) : Tickers :=
  ⟨time, spawned, [t], some t.number, none, false⟩

/-- The end of the only ticker is awaited, and it has a request to take. -/
def stopping (time spawned : Nat) (t : Ticker) : Tickers :=
  ⟨time, spawned, [t], none, some t.number, true⟩

/-- The ticker whose end is awaited has ended. -/
def stopped (time spawned number : Nat) : Tickers := ⟨time, spawned, [], none, some number, false⟩

/-- The states that occur, with no tick overdue. -/
inductive Sound : Tickers → Prop
  | idle (time spawned : Nat) : Sound (idle time spawned)
  | running {time : Nat} (spawned : Nat) {t : Ticker} (h : time ≤ t.due) :
      Sound (running time spawned t)
  | stopping {time : Nat} (spawned : Nat) {t : Ticker} (h : time ≤ t.due) :
      Sound (stopping time spawned t)
  | stopped (time spawned number : Nat) : Sound (stopped time spawned number)

/-- Without a ticker one is started, or nothing happens but that time passes. -/
theorem Moves.of_idle (h : Moves period (idle time spawned) a u) :
    (a = .order .start ∧ u = running time (spawned + 1) ⟨spawned, time⟩) ∨
      (a = .order .shutdown ∧ u = idle time spawned) ∨
      ∃ ms, a = .pass ms ∧ u = idle (time + ms) spawned := by
  cases h with
  | spawn => exact Or.inl ⟨rfl, rfl⟩
  | keep _ hsome => cases hsome
  | request _ hsome => cases hsome
  | skip => exact Or.inr (Or.inl ⟨rfl, rfl⟩)
  | join hawaited => cases hawaited
  | tick halive => exact absurd halive.symm (by simp [idle])
  | stop _ hrequest => cases hrequest
  | pass => exact Or.inr (Or.inr ⟨_, rfl, rfl⟩)

/-- A list of one ticker has no other. -/
theorem eq_of_singleton_eq {before after : List Ticker} {other : Ticker}
    (h : [t] = before ++ other :: after) : before = [] ∧ other = t ∧ after = [] := by
  cases before with
  | nil =>
    obtain ⟨rfl, rfl⟩ := List.cons.inj h
    exact ⟨rfl, rfl, rfl⟩
  | cons first rest =>
    obtain ⟨-, hrest⟩ := List.cons.inj h
    exact absurd hrest.symm (by simp)

/-- A ticker that there is a handle on is not started again; it is asked to stop, or ticks, or time
passes up to its next tick. -/
theorem Moves.of_running (h : Moves period (running time spawned t) a u) :
    (a = .order .start ∧ u = running time spawned t) ∨
      (a = .order .shutdown ∧ u = stopping time spawned t) ∨
      (a = .tick ∧ t.due ≤ time ∧ u = running time spawned ⟨t.number, t.due + period⟩) ∨
      ∃ ms, a = .pass ms ∧ time + ms ≤ t.due ∧ u = running (time + ms) spawned t := by
  cases h with
  | spawn _ hnone => cases hnone
  | keep => exact Or.inl ⟨rfl, rfl⟩
  | request _ hsome =>
    cases hsome
    exact Or.inr (Or.inl ⟨rfl, rfl⟩)
  | skip _ hnone => cases hnone
  | join hawaited => cases hawaited
  | tick halive hdue =>
    obtain ⟨rfl, rfl, rfl⟩ := eq_of_singleton_eq halive
    exact Or.inr (Or.inr (Or.inl ⟨rfl, hdue, rfl⟩))
  | stop _ hrequest => cases hrequest
  | pass hdue => exact Or.inr (Or.inr (Or.inr ⟨_, rfl, hdue t (List.mem_singleton_self t), rfl⟩))

/-- A ticker that has a request to take takes it, or makes a tick that is due; time does not pass and no
order is taken. -/
theorem Moves.of_stopping (h : Moves period (stopping time spawned t) a u) :
    (a = .tick ∧ t.due ≤ time ∧ u = stopping time spawned ⟨t.number, t.due + period⟩) ∨
      a = .stop ∧ u = stopped time spawned t.number := by
  cases h with
  | spawn hfree => cases hfree
  | keep hfree => cases hfree
  | request hfree => cases hfree
  | skip hfree => cases hfree
  | join hawaited hended =>
    cases hawaited
    exact absurd rfl (hended t (List.mem_singleton_self t))
  | tick halive hdue =>
    obtain ⟨rfl, rfl, rfl⟩ := eq_of_singleton_eq halive
    exact Or.inl ⟨rfl, hdue, rfl⟩
  | stop halive =>
    obtain ⟨rfl, rfl, rfl⟩ := eq_of_singleton_eq halive
    exact Or.inr ⟨rfl, rfl⟩
  | pass _ hcalm => cases hcalm rfl

/-- Once the ticker has ended the wait for it ends. -/
theorem Moves.of_stopped (h : Moves period (stopped time spawned number) a u) :
    (a = .join ∧ u = idle time spawned) ∨
      ∃ ms, a = .pass ms ∧ u = stopped (time + ms) spawned number := by
  cases h with
  | spawn hfree => cases hfree
  | keep hfree => cases hfree
  | request hfree => cases hfree
  | skip hfree => cases hfree
  | join => exact Or.inl ⟨rfl, rfl⟩
  | tick halive => exact absurd halive.symm (by simp [stopped])
  | stop _ hrequest => cases hrequest
  | pass => exact Or.inr ⟨_, rfl, rfl⟩

/-- No move leads out of the states that occur. -/
theorem Sound.moves (hs : Sound s) (h : Moves period s a u) : Sound u := by
  cases hs with
  | idle time spawned =>
    obtain ⟨-, rfl⟩ | ⟨-, rfl⟩ | ⟨ms, -, rfl⟩ := h.of_idle
    · exact .running _ (Nat.le_refl time)
    · exact .idle _ _
    · exact .idle _ _
  | running spawned hle =>
    obtain ⟨-, rfl⟩ | ⟨-, rfl⟩ | ⟨-, -, rfl⟩ | ⟨ms, -, hms, rfl⟩ := h.of_running
    · exact .running _ hle
    · exact .stopping _ hle
    · exact .running _ (Nat.le_add_right_of_le hle)
    · exact .running _ hms
  | stopping spawned hle =>
    obtain ⟨-, -, rfl⟩ | ⟨-, rfl⟩ := h.of_stopping
    · exact .stopping _ (Nat.le_add_right_of_le hle)
    · exact .stopped _ _ _
  | stopped time spawned number =>
    obtain ⟨-, rfl⟩ | ⟨ms, -, rfl⟩ := h.of_stopped
    · exact .idle _ _
    · exact .stopped _ _ _

theorem Sound.eq_idle (hs : Sound s) (hhandle : s.handle = none) (hawaited : s.awaited = none) :
    s = Tickers.idle s.time s.spawned := by
  cases hs with
  | idle => rfl
  | running => cases hhandle
  | stopping => cases hawaited
  | stopped => cases hawaited

theorem Sound.eq_running (hs : Sound s) (hhandle : s.handle.isSome = true) :
    ∃ t, s = Tickers.running s.time s.spawned t ∧ s.time ≤ t.due := by
  cases hs with
  | idle => cases hhandle
  | running _ hle => exact ⟨_, rfl, hle⟩
  | stopping => cases hhandle
  | stopped => cases hhandle

theorem Sound.length_alive (hs : Sound s) : s.alive.length ≤ 1 := by
  cases hs with
  | idle => exact Nat.zero_le 1
  | running => exact Nat.le_refl 1
  | stopping => exact Nat.le_refl 1
  | stopped => exact Nat.zero_le 1

theorem Sound.stopRequested_eq_false (hs : Sound s) (hawaited : s.awaited = none) :
    s.stopRequested = false := by
  cases hs with
  | idle => rfl
  | running => rfl
  | stopping => cases hawaited
  | stopped => rfl

variable {acts : List Act} {ticks : List Nat}

/-- Whatever the order of moves, no other states occur. -/
theorem Sound.execution (hs : Sound s) (h : Execution period s acts ticks u) : Sound u := by
  induction h with
  | nil => exact hs
  | cons hmove _ ih => exact ih (hs.moves hmove)

/-! ## What an execution does -/

theorem Moves.handle_isSome (h : Moves period s a u) :
    u.handle.isSome = Order.wanted s.handle.isSome a.order?.toList := by
  cases h with
  | spawn => rfl
  | keep _ hsome =>
    rw [hsome]
    rfl
  | request => rfl
  | skip _ hnone =>
    rw [hnone]
    rfl
  | join => rfl
  | tick => rfl
  | stop => rfl
  | pass => rfl

theorem Moves.eq_of_handle (h : Moves period s (.order .start) u) (hsome : s.handle.isSome = true) :
    u = s := by
  cases h with
  | spawn _ hnone =>
    rw [hnone] at hsome
    cases hsome
  | keep => rfl

/-- There is a handle on a ticker exactly if one is wanted after the orders that were given. -/
theorem Execution.handle_isSome (h : Execution period s acts ticks u) :
    u.handle.isSome = Order.wanted s.handle.isSome (acts.filterMap Act.order?) := by
  induction h with
  | nil => rfl
  | cons hmove _ ih =>
    rw [ih, hmove.handle_isSome, Act.filterMap_order?_cons, Order.wanted_append]

/-- Without a ticker and an order to start one, nothing ticks. -/
theorem Execution.ticks_of_idle (h : Execution period (idle time spawned) acts ticks u)
    (hstart : .order .start ∉ acts) : ticks = [] ∧ ∃ later, u = idle later spawned := by
  generalize hs : idle time spawned = s at h
  induction h generalizing time with
  | nil s => exact ⟨rfl, time, hs.symm⟩
  | cons hmove hrest ih =>
    subst hs
    obtain ⟨hnot, hothers⟩ := not_or.1 (mt List.mem_cons.2 hstart)
    obtain ⟨rfl, -⟩ | ⟨rfl, rfl⟩ | ⟨ms, rfl, rfl⟩ := hmove.of_idle
    · exact absurd rfl hnot
    · exact ih hothers rfl
    · exact ih hothers rfl

/-- Until it is asked to stop a ticker ticks when its next tick is due and then once in every period, and
goes on to. -/
theorem Execution.ticks_of_running (h : Execution period (running time spawned t) acts ticks u)
    (hle : time ≤ t.due) (hshutdown : .order .shutdown ∉ acts) :
    ∃ n later, ticks = (List.range n).map (fun k => t.due + k * period) ∧
      time ≤ later ∧ (∀ tick ∈ ticks, tick ≤ later) ∧ later ≤ t.due + n * period ∧
      u = running later spawned ⟨t.number, t.due + n * period⟩ := by
  generalize hs : running time spawned t = s at h
  induction h generalizing time t with
  | nil s => exact ⟨0, time, rfl, Nat.le_refl time, by simp, by simpa using hle, by simp [← hs]⟩
  | cons hmove hrest ih =>
    subst hs
    obtain ⟨hnot, hothers⟩ := not_or.1 (mt List.mem_cons.2 hshutdown)
    obtain ⟨rfl, rfl⟩ | ⟨rfl, -⟩ | ⟨rfl, hdue, rfl⟩ | ⟨ms, rfl, hms, rfl⟩ := hmove.of_running
    · exact ih hle hothers rfl
    · exact absurd rfl hnot
    · -- The tick that is due is made, and the others follow a period later.
      obtain rfl : t.due = _ := Nat.le_antisymm hdue hle
      obtain ⟨n, later, rfl, hpassed, hmade, hlater, rfl⟩ := ih (Nat.le_add_right _ period) hothers rfl
      have hnext : ∀ k, t.due + period + k * period = t.due + (k + 1) * period := by
        intro k
        rw [Nat.succ_mul]
        omega
      refine ⟨n + 1, later, ?_, hpassed, ?_, ?_, ?_⟩
      · simp [List.range_succ_eq_map, Act.ticksAt, hnext, running]
      · exact List.forall_mem_cons.2 ⟨hpassed, hmade⟩
      · rw [← hnext]
        exact hlater
      · rw [← hnext]
    · obtain ⟨n, later, hticks, hpassed, hrest⟩ := ih hms hothers rfl
      exact ⟨n, later, hticks, Nat.le_trans (Nat.le_add_right time ms) hpassed, hrest⟩

/-- Once a ticker has ended, nothing ticks until another is started. -/
theorem Execution.ticks_of_stopped (h : Execution period (stopped time spawned number) acts ticks u)
    (hstart : .order .start ∉ acts) : ticks = [] := by
  generalize hs : stopped time spawned number = s at h
  induction h generalizing time with
  | nil => rfl
  | cons hmove hrest ih =>
    subst hs
    obtain ⟨-, hothers⟩ := not_or.1 (mt List.mem_cons.2 hstart)
    obtain ⟨rfl, rfl⟩ | ⟨ms, rfl, rfl⟩ := hmove.of_stopped
    · exact (hrest.ticks_of_idle hothers).1
    · exact ih hothers rfl

/-- A ticker that was asked to stop makes no tick but one that was due at that instant. -/
theorem Execution.ticks_of_stopping (hpos : 0 < period)
    (h : Execution period (stopping time spawned t) acts ticks u) (hle : time ≤ t.due)
    (hstart : .order .start ∉ acts) : ticks = [] ∨ ticks = [time] ∧ t.due = time := by
  generalize hs : stopping time spawned t = s at h
  induction h generalizing t with
  | nil => exact Or.inl rfl
  | cons hmove hrest ih =>
    subst hs
    obtain ⟨-, hothers⟩ := not_or.1 (mt List.mem_cons.2 hstart)
    obtain ⟨rfl, hdue, rfl⟩ | ⟨rfl, rfl⟩ := hmove.of_stopping
    · have hnow : t.due = time := Nat.le_antisymm hdue hle
      refine Or.inr ⟨?_, hnow⟩
      -- The next tick is due later, and time does not pass.
      rcases ih (Nat.le_add_right_of_le hle) hothers rfl with rfl | ⟨-, hlater⟩
      · rfl
      · simp only at hlater
        omega
    · exact Or.inl (hrest.ticks_of_stopped hothers)

/-- What tickers are after acts, and what they do from then on.  A ticker is wanted exactly if there is a
handle on one; there is never more than one, and between orders there is no request to stop, so none is
left for a ticker that is started later.  To start again changes nothing.  Without a ticker nothing ticks.
A ticker that is started ticks then and once in every period, until an order to shut down; after that it
makes no tick but one that is due at the instant of the order. -/
structure Follows (period : Nat) (acts : List Act) (s : Tickers) : Prop where
  handle : s.handle.isSome = true ↔ (acts.filterMap Act.order?).getLast? = some .start
  single : s.alive.length ≤ 1
  calm : s.awaited = none → s.stopRequested = false
  again : s.handle.isSome = true → ∀ u, Moves period s (.order .start) u → u = s
  silent : s.handle = none → s.awaited = none → ∀ during ticks u,
    Execution period s during ticks u → .order .start ∉ during → ticks = []
  ticks : s.handle = none → s.awaited = none → ∀ during ticks u,
    Execution period s (.order .start :: during) ticks u → .order .shutdown ∉ during →
      ∃ n, ticks = (List.range n).map (fun k => s.time + k * period) ∧
        u.alive = [⟨s.spawned, s.time + n * period⟩] ∧
        ∀ k, (s.time + k * period < u.time → k < n) ∧ (k < n → s.time + k * period ≤ u.time)
  ending : s.handle.isSome = true → ∀ during ticks u,
    Execution period s (.order .shutdown :: during) ticks u → .order .start ∉ during →
      ticks = [] ∨ ticks = [s.time] ∧ ∀ t ∈ s.alive, t.due = s.time

/-- A ticker that is started ticks at once and then once in every period. -/
theorem Execution.ticks_of_start
    (h : Execution period (idle time spawned) (.order .start :: acts) ticks u)
    (hshutdown : .order .shutdown ∉ acts) :
    ∃ n, ticks = (List.range n).map (fun k => time + k * period) ∧
      u.alive = [⟨spawned, time + n * period⟩] ∧
      ∀ k, (time + k * period < u.time → k < n) ∧ (k < n → time + k * period ≤ u.time) := by
  cases h with
  | cons hmove hrest =>
    obtain ⟨-, rfl⟩ | ⟨hnot, -⟩ | ⟨ms, hnot, -⟩ := hmove.of_idle
    · obtain ⟨n, later, rfl, -, hmade, hlater, rfl⟩ :=
        hrest.ticks_of_running (Nat.le_refl time) hshutdown
      refine ⟨n, rfl, rfl, fun k => ⟨fun hk => ?_, fun hk => ?_⟩⟩
      · have hlt : time + k * period < time + n * period := Nat.lt_of_lt_of_le hk hlater
        exact Nat.lt_of_mul_lt_mul_right (Nat.lt_of_add_lt_add_left hlt)
      · exact hmade _ (List.mem_map_of_mem (List.mem_range.2 hk))
    · cases hnot
    · cases hnot

/-- After an order to shut down no tick is made but one that is due at that instant. -/
theorem Execution.ticks_of_shutdown (hpos : 0 < period)
    (h : Execution period (running time spawned t) (.order .shutdown :: acts) ticks u)
    (hle : time ≤ t.due) (hstart : .order .start ∉ acts) :
    ticks = [] ∨ ticks = [time] ∧ t.due = time := by
  cases h with
  | cons hmove hrest =>
    obtain ⟨hnot, -⟩ | ⟨-, rfl⟩ | ⟨hnot, -⟩ | ⟨ms, hnot, -⟩ := hmove.of_running
    · cases hnot
    · exact hrest.ticks_of_stopping hpos hle hstart
    · cases hnot
    · cases hnot

/-- Tickers follow orders, however they are scheduled. -/
theorem Execution.follows (hpos : 0 < period) (h : Execution period (idle time spawned) acts ticks s) :
    Follows period acts s := by
  have hs : Sound s := (Sound.idle time spawned).execution h
  refine ⟨?_, hs.length_alive, hs.stopRequested_eq_false, fun hsome u hmove => hmove.eq_of_handle hsome,
    fun hhandle hawaited during ticks u hmore hstart => ?_,
    fun hhandle hawaited during ticks u hmore hshutdown => ?_,
    fun hhandle during ticks u hmore hstart => ?_⟩
  · rw [h.handle_isSome]
    exact Order.wanted_false_iff
  · rw [hs.eq_idle hhandle hawaited] at hmore
    exact (hmore.ticks_of_idle hstart).1
  · rw [hs.eq_idle hhandle hawaited] at hmore
    exact hmore.ticks_of_start hshutdown
  · obtain ⟨t, heq, hle⟩ := hs.eq_running hhandle
    rw [heq] at hmore
    rw [heq]
    refine (hmore.ticks_of_shutdown hpos hle hstart).imp_right fun ⟨hticks, hdue⟩ => ⟨hticks, ?_⟩
    exact fun other hother => List.mem_singleton.1 hother ▸ hdue

end Tickers

end LeaseBoard
