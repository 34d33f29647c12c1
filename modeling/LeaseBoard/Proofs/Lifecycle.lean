import LeaseBoard.Monitor
import LeaseBoard.Proofs.Released
import LeaseBoard.Proofs.SessionTrace
import LeaseBoard.Proofs.Tickers
import Mathlib.Data.List.Induction
set_option autoImplicit false

/-!
# The lifecycle of a heartbeat

A heartbeat runs exactly if the last order was to start it, it ticks at its start and once in every
interval until it is stopped, and no request to stop outlasts the call that made it.  `Agrees` relates a
heartbeat between two calls to its tickers: a list of calls that is never late for a tick is an execution
of them with the same orders and the same ticks (`exists_execution_calls`), so what is known of tickers
says when a heartbeat ticks.  To the session of a monitor each of these ticks is one beat
(`Monitor.calls_eq`).

Main statement: `tickers_follow_orders`.
-/

namespace LeaseBoard.Heartbeat

open Tickers (Execution Moves Act)

/-- A heartbeat that does not run. -/
def stopped (time : Nat) : Heartbeat := ⟨time, none, false⟩

/-- A heartbeat that runs, and when its next tick is due. -/
def running (time due : Nat) : Heartbeat := ⟨time, some due, false⟩

/-- A heartbeat that has no request to take is in one of these states. -/
theorem eq_stopped_or_eq_running {h : Heartbeat} (hcalm : h.stopRequested = false) :
    (∃ time, h = stopped time) ∨ ∃ time due, h = running time due := by
  obtain ⟨time, due, stopRequested⟩ := h
  obtain rfl : stopRequested = false := hcalm
  cases due with
  | none => exact Or.inl ⟨time, rfl⟩
  | some due => exact Or.inr ⟨time, due, rfl⟩

/-- The order that a call gives, if it gives one. -/
def Call.order? : Call → Option Order
  | .start => some .start
  | .shutdown => some .shutdown
  | .pass _ => none
  | .jump _ => none

theorem Call.filterMap_order?_cons (c : Call) (list : List Call) :
    (c :: list).filterMap order? = c.order?.toList ++ list.filterMap order? := by
  cases c <;> rfl

theorem Call.shutdown_mem_of_mem_filterMap {list : List Call}
    (h : .shutdown ∈ list.filterMap order?) : .shutdown ∈ list := by
  obtain ⟨c, hc, horder⟩ := List.mem_filterMap.1 h
  cases c with
  | start => cases horder
  | shutdown => exact hc
  | pass => cases horder
  | jump => cases horder

/-- A call is in time for the next tick: it does not go beyond it in one go. -/
def InTime (h : Heartbeat) : Call → Prop
  | .jump ms => ∀ due ∈ h.due, h.time + ms ≤ due
  | .start => True
  | .shutdown => True
  | .pass _ => True

section

variable {interval : Nat} (hpos : 0 < interval)

/-- Every call of a list is in time. -/
def AllInTime (h : Heartbeat) : List Call → Prop
  | [] => True
  | c :: rest => h.InTime c ∧ (h.call hpos c).1.AllInTime rest

/-! ## One call -/

variable (time due ms : Nat)

theorem ticksAt_of_lt (h : time < due) : ticksAt hpos time due = ([], due) := by
  rw [ticksAt, dif_neg (Nat.not_le.2 h)]

theorem ticksAt_self : ticksAt hpos time time = ([time], time + interval) := by
  have hnext : time < nextDue interval time time := by
    rw [nextDue_self]
    exact Nat.lt_add_of_pos_right hpos
  rw [ticksAt, dif_pos (Nat.le_refl time), ticksAt_of_lt hpos _ _ hnext, nextDue_self]

theorem call_start_of_stopped : (stopped time).call hpos .start =
    (running time (time + interval), [time]) := by
  simp [call, start, isRunning, wake, stopped, running, ticksAt_self]

theorem call_start_of_running :
    (running time due).call hpos .start = (running time due, []) := rfl

theorem call_shutdown_of_stopped : (stopped time).call hpos .shutdown = (stopped time, []) := rfl

theorem call_shutdown_of_running : (running time due).call hpos .shutdown = (stopped time, []) := rfl

theorem call_pass_of_stopped : (stopped time).call hpos (.pass ms) =
    (stopped (time + ms), []) := rfl

theorem call_pass_of_running : (running time due).call hpos (.pass ms) =
    (running (time + ms) (ticksUntil hpos (time + ms) due).2,
      (ticksUntil hpos (time + ms) due).1) := rfl

theorem call_jump_of_stopped : (stopped time).call hpos (.jump ms) =
    (stopped (time + ms), []) := rfl

theorem call_jump_of_running : (running time due).call hpos (.jump ms) =
    (running (time + ms) (ticksAt hpos (time + ms) due).2, (ticksAt hpos (time + ms) due).1) := rfl

end

/-! ## Heartbeats and their tickers -/

/-- A heartbeat between two calls, and the state of its tickers: one ticker if it runs, whose next tick
is still to come, and none if it does not. -/
inductive Agrees : Tickers → Heartbeat → Prop
  | stopped (time spawned : Nat) : Agrees (.idle time spawned) (stopped time)
  | running {time due : Nat} (spawned number : Nat) (h : time < due) :
      Agrees (.running time spawned ⟨number, due⟩) (running time due)

section Simulation

variable {interval : Nat} (hpos : 0 < interval)

/-- A ticker whose next tick is due ticks, and waits for the next one. -/
theorem moves_tick (period time spawned number : Nat) :
    Moves period (.running time spawned ⟨number, time⟩) .tick
      (.running time spawned ⟨number, time + period⟩) :=
  @Moves.tick period _ [] [] ⟨number, time⟩ rfl (Nat.le_refl time)

/-- Time passes up to the next tick of a ticker. -/
theorem moves_pass (period : Nat) {time due finish : Nat} (spawned number : Nat) (hle : time ≤ finish)
    (hdue : finish ≤ due) :
    Moves period (.running time spawned ⟨number, due⟩) (.pass (finish - time))
      (.running finish spawned ⟨number, due⟩) := by
  obtain ⟨ms, rfl⟩ := Nat.exists_eq_add_of_le hle
  rw [Nat.add_sub_cancel_left]
  refine .pass (fun t ht => ?_) nofun
  rw [List.mem_singleton.1 ht]
  exact hdue

/-- Time that passes smoothly is an execution: up to each tick that is due, and on from there. -/
theorem exists_execution_ticksUntil (spawned number finish due : Nat) {time : Nat} (hle : time ≤ due)
    (hfinish : time ≤ finish) :
    ∃ acts, Execution interval (.running time spawned ⟨number, due⟩) acts
        (ticksUntil hpos finish due).1
        (.running finish spawned ⟨number, (ticksUntil hpos finish due).2⟩) ∧
      acts.filterMap Act.order? = [] ∧ finish < (ticksUntil hpos finish due).2 := by
  induction due using ticksUntil.induct hpos finish generalizing time with
  | case1 due hdue ih =>
    rw [nextDue_self] at ih
    obtain ⟨acts, hacts, horders, hlater⟩ := ih (Nat.le_add_right due _) hdue
    rw [ticksUntil, if_pos hdue, nextDue_self]
    refine ⟨.pass (due - time) :: .tick :: acts, ?_, horders, hlater⟩
    exact .cons (moves_pass _ _ _ hle (Nat.le_refl due)) (.cons (moves_tick _ _ _ _) hacts)
  | case2 due hdue =>
    have hlt : finish < due := Nat.not_le.1 hdue
    rw [ticksUntil, if_neg hdue]
    exact ⟨[.pass (finish - time)],
      .cons (moves_pass _ _ _ hfinish (Nat.le_of_lt hlt)) (.nil _), rfl, hlt⟩

/-- A call that is in time is an execution of the tickers, with the same order and the same ticks. -/
theorem exists_execution_call {s : Tickers} {h : Heartbeat} (hagrees : Agrees s h) {c : Call}
    (hc : h.InTime c) :
    ∃ acts u, Execution interval s acts (h.call hpos c).2 u ∧
      Agrees u (h.call hpos c).1 ∧ acts.filterMap Act.order? = c.order?.toList := by
  cases hagrees with
  | stopped time spawned =>
    cases c with
    | start =>
      rw [call_start_of_stopped]
      refine ⟨[.order .start, .tick], _, .cons (.spawn rfl rfl) (.cons (moves_tick _ _ _ _) (.nil _)),
        .running _ _ ?_, rfl⟩
      exact Nat.lt_add_of_pos_right hpos
    | shutdown =>
      rw [call_shutdown_of_stopped]
      exact ⟨[.order .shutdown], _, .cons (.skip rfl rfl) (.nil _), .stopped _ _, rfl⟩
    | pass ms =>
      rw [call_pass_of_stopped]
      exact ⟨[.pass ms], _, .cons (.pass nofun nofun) (.nil _), .stopped _ _, rfl⟩
    | jump ms =>
      rw [call_jump_of_stopped]
      exact ⟨[.pass ms], _, .cons (.pass nofun nofun) (.nil _), .stopped _ _, rfl⟩
  | @running time due spawned number hlt =>
    cases c with
    | start =>
      rw [call_start_of_running]
      exact ⟨[.order .start], _, .cons (.keep rfl rfl) (.nil _), .running _ _ hlt, rfl⟩
    | shutdown =>
      rw [call_shutdown_of_running]
      refine ⟨[.order .shutdown, .stop, .join], _, .cons (.request rfl rfl)
        (.cons (@Moves.stop _ _ [] [] ⟨number, due⟩ rfl rfl) (.cons (.join rfl nofun) (.nil _))),
        .stopped _ _, rfl⟩
    | pass ms =>
      rw [call_pass_of_running]
      obtain ⟨acts, hacts, horders, hlater⟩ := exists_execution_ticksUntil hpos spawned number
        (time + ms) due (Nat.le_of_lt hlt) (Nat.le_add_right time _)
      exact ⟨acts, _, hacts, .running _ _ hlater, horders⟩
    | jump ms =>
      have hle : time + ms ≤ due := hc due rfl
      rw [call_jump_of_running]
      have hpass := moves_pass interval spawned number (Nat.le_add_right time ms) hle
      rcases Nat.lt_or_eq_of_le hle with hbefore | rfl
      · rw [ticksAt_of_lt hpos _ _ hbefore]
        exact ⟨[.pass _], _, .cons hpass (.nil _), .running _ _ hbefore, rfl⟩
      · rw [ticksAt_self]
        refine ⟨[.pass _, .tick], _, .cons hpass (.cons (moves_tick _ _ _ _) (.nil _)),
          .running _ _ ?_, rfl⟩
        exact Nat.lt_add_of_pos_right hpos

/-- Calls that are in time are an execution of the tickers, with the same orders and the same ticks. -/
theorem exists_execution_calls {s : Tickers} {h : Heartbeat} (hagrees : Agrees s h) {list : List Call}
    (hlist : h.AllInTime hpos list) :
    ∃ acts u, Execution interval s acts (h.calls hpos list).2 u ∧
      Agrees u (h.calls hpos list).1 ∧
      acts.filterMap Act.order? = list.filterMap Call.order? := by
  induction list generalizing s h with
  | nil => exact ⟨[], s, .nil s, hagrees, rfl⟩
  | cons c rest ih =>
    obtain ⟨hc, hrest⟩ := hlist
    obtain ⟨acts, u, hacts, hu, horders⟩ := exists_execution_call hpos hagrees hc
    obtain ⟨more, v, hmore, hv, hothers⟩ := ih hu hrest
    refine ⟨acts ++ more, v, hacts.append hmore, hv, ?_⟩
    rw [List.filterMap_append, horders, hothers, Call.filterMap_order?_cons]

end Simulation

/-! ## Late calls -/

/-- Ticks come no earlier than one period after the other, the first of them no earlier than a given
time, and the next one after them no earlier than another. -/
inductive Paced (period : Nat) : Nat → List Nat → Nat → Prop
  | nil {due next : Nat} (h : due ≤ next) : Paced period due [] next
  | cons {due time next : Nat} {ticks : List Nat} (h : due ≤ time)
      (hrest : Paced period (due + period) ticks next) : Paced period due (time :: ticks) next

namespace Paced

variable {period due next : Nat} {ticks : List Nat}

theorem mono {earlier : Nat} (h : Paced period due ticks next) (hle : earlier ≤ due) :
    Paced period earlier ticks next := by
  induction h generalizing earlier with
  | nil h => exact .nil (Nat.le_trans hle h)
  | cons h _ ih => exact .cons (Nat.le_trans hle h) (ih (Nat.add_le_add_right hle period))

theorem append {more : List Nat} {last : Nat} (h : Paced period due ticks next)
    (hmore : Paced period next more last) : Paced period due (ticks ++ more) last := by
  induction h with
  | nil h => exact hmore.mono h
  | cons h _ ih => exact .cons h (ih hmore)

/-- The ticks of a paced list are not early. -/
theorem le_getElem (h : Paced period due ticks next) (k : Nat) (hk : k < ticks.length) :
    due + k * period ≤ ticks[k] := by
  induction h generalizing k with
  | nil => cases hk
  | cons h _ ih =>
    cases k with
    | zero => simpa using h
    | succ k =>
      have hlater := ih k (Nat.lt_of_succ_lt_succ hk)
      rw [List.getElem_cons_succ, Nat.succ_mul]
      omega

end Paced

section Late

variable {interval : Nat} (hpos : 0 < interval)

theorem add_interval_le_nextDue (due time : Nat) :
    due + interval ≤ nextDue interval due time := by
  unfold nextDue
  split <;> omega

theorem paced_ticksAt (time due : Nat) :
    Paced interval due (ticksAt hpos time due).1 (ticksAt hpos time due).2 := by
  induction due using ticksAt.induct hpos time with
  | case1 due hdue ih =>
    rw [ticksAt, dif_pos hdue]
    exact .cons hdue (ih.mono (add_interval_le_nextDue due time))
  | case2 due hdue =>
    rw [ticksAt, dif_neg hdue]
    exact .nil (Nat.le_refl due)

theorem paced_ticksUntil (finish due : Nat) :
    Paced interval due (ticksUntil hpos finish due).1 (ticksUntil hpos finish due).2 := by
  induction due using ticksUntil.induct hpos finish with
  | case1 due hdue ih =>
    rw [ticksUntil, if_pos hdue]
    exact .cons (Nat.le_refl due) (ih.mono (add_interval_le_nextDue due due))
  | case2 due hdue =>
    rw [ticksUntil, if_neg hdue]
    exact .nil (Nat.le_refl due)

/-- However late it is called, a running heartbeat does not tick early. -/
theorem paced_calls {list : List Call} (hshutdown : .shutdown ∉ list) (time due : Nat) :
    ∃ next, Paced interval due ((running time due).calls hpos list).2 next := by
  induction list generalizing time due with
  | nil => exact ⟨due, .nil (Nat.le_refl due)⟩
  | cons c rest ih =>
    obtain ⟨hnot, hothers⟩ := not_or.1 (mt List.mem_cons.2 hshutdown)
    cases c with
    | start => exact ih hothers time due
    | shutdown => exact absurd rfl hnot
    | pass ms =>
      obtain ⟨next, hnext⟩ := ih hothers _ _
      exact ⟨next, (paced_ticksUntil hpos _ due).append hnext⟩
    | jump ms =>
      obtain ⟨next, hnext⟩ := ih hothers _ _
      exact ⟨next, (paced_ticksAt hpos _ due).append hnext⟩

end Late

/-! ## Every list of calls -/

section Histories

variable {interval : Nat} (hpos : 0 < interval) {h : Heartbeat}

/-- A call takes the request to stop that it makes, and leaves the heartbeat running exactly if one is
wanted after its order. -/
theorem isRunning_call (hcalm : h.stopRequested = false) (c : Call) :
    (h.call hpos c).1.stopRequested = false ∧
      (h.call hpos c).1.isRunning = Order.wanted h.isRunning c.order?.toList := by
  obtain ⟨time, rfl⟩ | ⟨time, due, rfl⟩ := eq_stopped_or_eq_running hcalm
  · cases c with
    | start =>
      rw [call_start_of_stopped]
      exact ⟨rfl, rfl⟩
    | shutdown => exact ⟨rfl, rfl⟩
    | pass ms => exact ⟨rfl, rfl⟩
    | jump ms => exact ⟨rfl, rfl⟩
  · cases c with
    | start => exact ⟨rfl, rfl⟩
    | shutdown => exact ⟨rfl, rfl⟩
    | pass ms => exact ⟨rfl, rfl⟩
    | jump ms => exact ⟨rfl, rfl⟩

theorem isRunning_calls (hcalm : h.stopRequested = false) (list : List Call) :
    (h.calls hpos list).1.stopRequested = false ∧
      (h.calls hpos list).1.isRunning = Order.wanted h.isRunning (list.filterMap Call.order?) := by
  induction list generalizing h with
  | nil => exact ⟨hcalm, rfl⟩
  | cons c rest ih =>
    obtain ⟨hcalm, hrunning⟩ := isRunning_call hpos hcalm c
    obtain ⟨hrest, hwanted⟩ := ih hcalm
    refine ⟨hrest, hwanted.trans ?_⟩
    rw [hrunning, Call.filterMap_order?_cons, Order.wanted_append]

/-- A heartbeat that does not run is stopped: nothing is due, and there is no request. -/
theorem eq_stopped_of_not_isRunning (hcalm : h.stopRequested = false) (hnot : h.isRunning = false) :
    h = stopped h.time := by
  obtain ⟨time, rfl⟩ | ⟨time, due, rfl⟩ := eq_stopped_or_eq_running hcalm
  · rfl
  · cases hnot

/-- Until it is started a stopped heartbeat does not tick, however time goes by. -/
theorem ticks_calls_of_stopped {list : List Call} (hstart : .start ∉ list) (time : Nat) :
    ((stopped time).calls hpos list).2 = [] := by
  induction list generalizing time with
  | nil => rfl
  | cons c rest ih =>
    obtain ⟨hnot, hothers⟩ := not_or.1 (mt List.mem_cons.2 hstart)
    cases c with
    | start => exact absurd rfl hnot
    | shutdown => exact ih hothers time
    | pass ms => exact ih hothers _
    | jump ms => exact ih hothers _

/-- A heartbeat that is started ticks at once and then once in every interval. -/
theorem ticks_calls_of_start {list : List Call} (hshutdown : .shutdown ∉ list) (time : Nat)
    (hlist : (stopped time).AllInTime hpos (.start :: list)) :
    ∃ n, ((stopped time).calls hpos (.start :: list)).2 =
        (List.range n).map (fun k => time + k * interval) ∧
      ∀ k, k < n ↔ time + k * interval ≤
        ((stopped time).calls hpos (.start :: list)).1.time := by
  obtain ⟨acts, u, hacts, hagrees, horders⟩ :
      ∃ acts u, Execution interval (.idle time 0) (.order .start :: acts)
          ((stopped time).calls hpos (.start :: list)).2 u ∧
        Agrees u ((stopped time).calls hpos (.start :: list)).1 ∧
        acts.filterMap Act.order? = list.filterMap Call.order? := by
    rw [calls, call_start_of_stopped]
    rw [AllInTime, call_start_of_stopped] at hlist
    have hnext : time < time + interval := Nat.lt_add_of_pos_right hpos
    obtain ⟨acts, u, hacts, hagrees, horders⟩ :=
      exists_execution_calls hpos (.running 1 0 hnext) hlist.2
    exact ⟨.tick :: acts, u, .cons (.spawn rfl rfl) (.cons (moves_tick _ _ _ _) hacts), hagrees, horders⟩
  have hrest : .order .shutdown ∉ acts := fun hmem => hshutdown <|
    Call.shutdown_mem_of_mem_filterMap (horders ▸ Act.mem_filterMap_order?_iff.2 hmem)
  obtain ⟨n, hticks, halive, hbounds⟩ := hacts.ticks_of_start hrest
  refine ⟨n, hticks, fun k => ?_⟩
  -- The next tick is still to come, so none is due that has not been made.
  generalize ((stopped time).calls hpos (.start :: list)).1 = later at hagrees ⊢
  cases hagrees with
  | stopped => cases halive
  | running spawned number hlt =>
    obtain ⟨-, rfl⟩ := Ticker.mk.inj (List.cons.inj halive).1
    refine ⟨(hbounds k).2, fun hle => ?_⟩
    have hlater := Nat.lt_of_le_of_lt hle hlt
    exact Nat.lt_of_mul_lt_mul_right (Nat.lt_of_add_lt_add_left hlater)

/-- The ticks of a heartbeat that is started are not early. -/
theorem le_ticks_calls_of_start {list : List Call} (hshutdown : .shutdown ∉ list) (time k : Nat)
    (hk : k < ((stopped time).calls hpos (.start :: list)).2.length) :
    time + k * interval ≤
      ((stopped time).calls hpos (.start :: list)).2[k] := by
  obtain ⟨next, hnext⟩ := paced_calls hpos hshutdown time (time + interval)
  have hpaced : Paced interval time
      ((stopped time).calls hpos (.start :: list)).2 next := by
    rw [calls, call_start_of_stopped]
    exact .cons (Nat.le_refl time) hnext
  exact hpaced.le_getElem k hk

/-- What a heartbeat is after orders, and what it does from then on.  It runs exactly if the last order
was to start, and holds no request to stop.  To start it again changes nothing and makes no tick; nor
does to stop it, and then it does not tick until it is started.  Then, until it is stopped, it ticks at
once and once in every interval, if calls are in time, and is never early if they are not. -/
structure Follows (h : Heartbeat) (orders : List Order) : Prop where
  running : h.isRunning = true ↔ orders.getLast? = some .start
  calm : h.stopRequested = false
  again : h.isRunning = true → h.call hpos .start = (h, [])
  ending : (h.call hpos .shutdown).2 = [] ∧ (h.call hpos .shutdown).1.time = h.time
  silent : h.isRunning = false → ∀ during, .start ∉ during → (h.calls hpos during).2 = []
  ticks : h.isRunning = false → ∀ during, .shutdown ∉ during → h.AllInTime hpos (.start :: during) →
    ∃ n, (h.calls hpos (.start :: during)).2 =
        (List.range n).map (fun k => h.time + k * interval) ∧
      ∀ k, k < n ↔ h.time + k * interval ≤ (h.calls hpos (.start :: during)).1.time
  late : h.isRunning = false → ∀ during, .shutdown ∉ during →
    ∀ k (hk : k < (h.calls hpos (.start :: during)).2.length),
      h.time + k * interval ≤ (h.calls hpos (.start :: during)).2[k]

theorem follows_calls (list : List Call) :
    (idle.calls hpos list).1.Follows hpos (list.filterMap Call.order?) := by
  obtain ⟨hcalm, hrunning⟩ := isRunning_calls hpos (h := idle) rfl list
  generalize (idle.calls hpos list).1 = h at hcalm hrunning
  refine ⟨?_, hcalm, fun hrun => ?_, ?_, fun hnot during hstart => ?_,
    fun hnot during hshutdown hintime => ?_, fun hnot during hshutdown => ?_⟩
  · rw [hrunning]
    exact Order.wanted_false_iff
  · rw [call, start, if_pos hrun]
  · obtain ⟨time, rfl⟩ | ⟨time, due, rfl⟩ := eq_stopped_or_eq_running hcalm
    · exact ⟨rfl, rfl⟩
    · exact ⟨rfl, rfl⟩
  · rw [eq_stopped_of_not_isRunning hcalm hnot]
    exact ticks_calls_of_stopped hpos hstart h.time
  · rw [eq_stopped_of_not_isRunning hcalm hnot] at hintime ⊢
    exact ticks_calls_of_start hpos hshutdown h.time hintime
  · rw [eq_stopped_of_not_isRunning hcalm hnot]
    exact le_ticks_calls_of_start hpos hshutdown h.time

end Histories

end LeaseBoard.Heartbeat

/-! ## Monitors -/

namespace LeaseBoard

open Heartbeat (Call Agrees)
open Tickers (Execution Act)

namespace Monitor

/-- What a monitor does when its heartbeat is called. -/
def call (m : Monitor) : Call → Step
  | .start => m.start
  | .shutdown => m.shutdown
  | .pass ms => m.pass ms
  | .jump ms => m.jump ms

/-- The monitor after a list of calls. -/
def calls (m : Monitor) (list : List Call) : Monitor := list.foldl (fun m c => (m.call c).monitor) m

/-- The instructions that reach the display during a list of calls. -/
def sent (m : Monitor) : List Call → List Instruction
  | [] => []
  | c :: rest => (m.call c).sent ++ (m.call c).monitor.sent rest

/-- What ticks of the heartbeat are for the session: each is one beat, at the time of the clock. -/
def beats (m : Monitor) (ticks : List Nat) : List Session.Step := ticks.map fun _ => .tick m.clock

/-- Every tick is a beat of the session, and nothing else happens to the session. -/
theorem beat_eq (m : Monitor) (heartbeat : Heartbeat) (ticks : List Nat) :
    m.beat heartbeat ticks =
      ⟨{ m with session := m.session.run (m.beats ticks), heartbeat := heartbeat },
        m.session.sent (m.beats ticks), .ok ()⟩ := by
  induction ticks using List.reverseRecOn with
  | nil => rfl
  | append_singleton ticks time ih =>
    have hbeats : m.beats (ticks ++ [time]) = m.beats ticks ++ [.tick m.clock] := List.map_append
    rw [beat, List.foldl_concat, ← beat, ih, hbeats, Session.run_append, Session.sent_append]
    simp only [Session.sent, List.append_nil]
    rfl

theorem call_eq (m : Monitor) (c : Call) :
    m.call c = m.beat (m.heartbeat.call m.interval_pos c).1 (m.heartbeat.call m.interval_pos c).2 := by
  cases c <;> rfl

/-- Calls do to the heartbeat of a monitor what they do to a heartbeat, and to its session what their
ticks do. -/
theorem calls_eq (m : Monitor) (list : List Call) :
    m.calls list = { m with
        session := m.session.run (m.beats (m.heartbeat.calls m.interval_pos list).2)
        heartbeat := (m.heartbeat.calls m.interval_pos list).1 } ∧
      m.sent list = m.session.sent (m.beats (m.heartbeat.calls m.interval_pos list).2) := by
  induction list generalizing m with
  | nil => exact ⟨rfl, rfl⟩
  | cons c rest ih =>
    have hbeats : m.beats (m.heartbeat.calls m.interval_pos (c :: rest)).2 =
        m.beats (m.heartbeat.call m.interval_pos c).2 ++
          m.beats ((m.heartbeat.call m.interval_pos c).1.calls m.interval_pos rest).2 := List.map_append
    obtain ⟨hmonitor, hsent⟩ := ih (m.call c).monitor
    rw [calls, List.foldl_cons, ← calls, sent, hmonitor, hsent, hbeats, Session.run_append,
      Session.sent_append, call_eq, beat_eq]
    exact ⟨rfl, rfl⟩

theorem heartbeat_calls (m : Monitor) (list : List Call) :
    (m.calls list).heartbeat = (m.heartbeat.calls m.interval_pos list).1 := by
  rw [(m.calls_eq list).1]

end Monitor

/-- After any calls a monitor runs exactly if the last order was to start, and its heartbeat follows the
orders: it ticks at its start and once in every interval until it is stopped, and not otherwise, and is
neither started twice nor stopped by a request that was made before.  Whatever the clock is then set to,
every tick from there on is one beat of the session at the time of the clock, and nothing else is done or
sent.  As long as calls are in time the ticks and orders are those of an execution of the tickers; and in
every execution, however the tickers are scheduled, there is at most one of them, and it follows the
orders. -/
theorem tickers_follow_orders (m : Monitor) (hidle : m.heartbeat = .idle) :
    (∀ list, (m.calls list).isRunning = true ↔
      (list.filterMap Call.order?).getLast? = some .start) ∧
    (∀ list, (m.calls list).heartbeat.Follows m.interval_pos (list.filterMap Call.order?)) ∧
    (∀ list now during,
      let n := (m.calls list).setClock now
      let made := n.heartbeat.calls m.interval_pos during
      n.calls during = { n with session := n.session.run (n.beats made.2), heartbeat := made.1 } ∧
        n.sent during = n.session.sent (n.beats made.2)) ∧
    (∀ list, m.heartbeat.AllInTime m.interval_pos list →
      ∃ acts s, Execution m.interval (.idle 0 0) acts
          (m.heartbeat.calls m.interval_pos list).2 s ∧
        Agrees s (m.calls list).heartbeat ∧
        acts.filterMap Act.order? = list.filterMap Call.order?) ∧
    ∀ acts ticks s, Execution m.interval (.idle 0 0) acts ticks s →
      Tickers.Follows m.interval acts s := by
  have hfollows : ∀ list,
      (m.calls list).heartbeat.Follows m.interval_pos (list.filterMap Call.order?) := by
    intro list
    rw [m.heartbeat_calls, hidle]
    exact Heartbeat.follows_calls m.interval_pos list
  refine ⟨fun list => (hfollows list).running, hfollows, fun list now during => ?_,
    fun list hintime => ?_, fun acts ticks s hacts => hacts.follows m.interval_pos⟩
  · rw [(m.calls_eq list).1]
    exact Monitor.calls_eq _ during
  · rw [m.heartbeat_calls]
    rw [hidle] at hintime ⊢
    exact Heartbeat.exists_execution_calls m.interval_pos (.stopped 0 0) hintime

/-- A second order to shut down leaves nothing behind: the heartbeat that is started next ticks at once
and in every second after that, and the first tick at which the clock is past the end of a lease takes it
off. -/
theorem tickers_follow_orders_after_two_shutdowns :
    let b := Board.empty.run [.event (.leases (releasedList "a" "gpu" (some 1))) (atSecond 1)]
    let m : Monitor := ⟨1000, by decide, ⟨b, .empty⟩, .idle, atSecond 2⟩
    let n := (m.calls [.start, .shutdown, .shutdown]).setClock (atSecond 6)
    n.isRunning = false ∧
      (n.heartbeat.calls m.interval_pos [.start, .start, .pass 2500]).2 = [0, 1000, 2000] ∧
      m.sent [.start, .shutdown, .shutdown] = [.refresh (atSecond 2)] ∧
      n.sent [.start, .start, .pass 2500] = [.remove .leases "a", .refresh (atSecond 6),
        .refresh (atSecond 6), .refresh (atSecond 6)] := by
  intro b m n
  obtain ⟨-, hfollows, hbeats, -⟩ := tickers_follow_orders m rfl
  have hstopped : n.heartbeat = .stopped 0 := m.heartbeat_calls _
  -- Two and a half seconds go by after the second start, so there are three ticks.
  have hticks : (n.heartbeat.calls m.interval_pos [.start, .start, .pass 2500]).2 =
      [0, 1000, 2000] := by
    have hfrom : n.heartbeat.Follows m.interval_pos _ := hfollows [.start, .shutdown, .shutdown]
    rw [hstopped] at hfrom ⊢
    obtain ⟨k, hticks, hk⟩ := hfrom.ticks rfl [.start, .pass 2500] (by decide)
      ⟨trivial, trivial, trivial, trivial⟩
    have hcount : ∀ i, i < k ↔ 0 + i * 1000 ≤ 2500 := hk
    obtain rfl : k = 3 := by
      have hthird := (hcount 2).2
      have hfourth := (hcount 3).1
      omega
    exact hticks
  have hfirst : (m.heartbeat.calls m.interval_pos [.start, .shutdown, .shutdown]).2 = [0] := by
    change ((Heartbeat.stopped 0).calls m.interval_pos _).2 = _
    rw [Heartbeat.calls, Heartbeat.call_start_of_stopped]
    rfl
  obtain ⟨hcalls, hsent⟩ := hbeats [] (atSecond 2) [.start, .shutdown, .shutdown]
  have hsession : n.session = m.session.run (m.beats [0]) := by
    rw [← hfirst]
    exact congrArg Monitor.session hcalls
  have hearlier : m.sent [.start, .shutdown, .shutdown] = m.session.sent (m.beats [0]) := by
    rw [← hfirst]
    exact hsent
  have hlater : n.sent [.start, .start, .pass 2500] = n.session.sent (n.beats [0, 1000, 2000]) := by
    rw [← hticks]
    exact (hbeats [.start, .shutdown, .shutdown] (atSecond 6) [.start, .start, .pass 2500]).2
  refine ⟨congrArg Heartbeat.isRunning hstopped, hticks, hearlier.trans (by decide), ?_⟩
  rw [hlater, hsession]
  decide

end LeaseBoard
