import LeaseBoard.Proofs.Ageless
import LeaseBoard.Proofs.Released
set_option autoImplicit false

/-!
# Independence from the clock

Two histories that bring the same events and interruptions in the same order, each at instants of its
own that never go back and with ticks of its own in between, reject the same events for the same
reasons, and after one more tick at the same instant they leave the same board.

Two facts make this so.  Verdicts, revisions, policies and the connection never depend on the leases
or on an instant (`SameStanding.replay`).  And the leases of a board are those of the ageless roster that
have not expired (`leases_run_tick`): whether an expired lease is still there never influences what comes
after.  Main statement: `run_eq_of_same_notices`.
-/

namespace LeaseBoard.Board

/-! ## Histories without their clock -/

/-- What the stream brings. -/
inductive Notice where
  | event (event : Event)
  | interruption (reason : String)
  deriving DecidableEq, Repr

/-- What the stream brings in a step; nothing in a tick. -/
def Step.notice? : Step → Option Notice
  | .event announced _ => some (.event announced)
  | .interruption cause => some (.interruption cause)
  | .tick _ => none

/-- The instant of a step; an interruption needs none. -/
def Step.time? : Step → Option Instant
  | .event _ now => some now
  | .interruption _ => none
  | .tick now => some now

/-- A history in which the clock never goes back. -/
def Timely (steps : List Step) : Prop := (steps.filterMap Step.time?).Pairwise (· ≤ ·)

instance (steps : List Step) : Decidable (Timely steps) :=
  inferInstanceAs (Decidable (List.Pairwise _ _))

/-- The events of a history, each with the verdict that the board gave on it. -/
def verdicts (b : Board) : List Step → List (Event × Except Failure Unit)
  | [] => []
  | .event event now :: rest =>
    (event, (b.step (.event event now)).result.map fun _ => ()) ::
      (b.step (.event event now)).board.verdicts rest
  | .interruption reason :: rest => (b.step (.interruption reason)).board.verdicts rest
  | .tick now :: rest => (b.step (.tick now)).board.verdicts rest

theorem verdicts_append (b : Board) (first second : List Step) :
    b.verdicts (first ++ second) = b.verdicts first ++ (b.run first).verdicts second := by
  induction first generalizing b with
  | nil => rfl
  | cons s rest ih =>
    have hcons : ∀ later : List Step,
        b.verdicts (s :: later) = b.verdicts [s] ++ (b.step s).board.verdicts later := by
      intro later
      cases s <;> rfl
    rw [List.cons_append, hcons, hcons rest, ih, run_cons, List.append_assoc]

/-- The lists of leases among events with verdicts that were accepted. -/
def accepted (verdicts : List (Event × Except Failure Unit)) : List LeaseList :=
  verdicts.filterMap fun
    | (.leases list, .ok ()) => some list
    | _ => none

/-- A rejected event is no accepted list. -/
theorem accepted_cons_error (event : Event) (failure : Failure)
    (rest : List (Event × Except Failure Unit)) :
    accepted ((event, .error failure) :: rest) = accepted rest := by
  cases event <;> rfl

/-! ## All but the leases -/

/-- Two boards that differ in their leases at most. -/
structure SameStanding (a b : Board) : Prop where
  revisions : a.revisions = b.revisions
  policies : a.policies = b.policies
  connection : a.connection = b.connection

namespace SameStanding

variable {a b : Board}

theorem refl (b : Board) : SameStanding b b := ⟨rfl, rfl, rfl⟩

theorem symm (h : SameStanding a b) : SameStanding b a :=
  ⟨h.revisions.symm, h.policies.symm, h.connection.symm⟩

theorem trans {c : Board} (hab : SameStanding a b) (hbc : SameStanding b c) : SameStanding a c :=
  ⟨hab.revisions.trans hbc.revisions, hab.policies.trans hbc.policies,
    hab.connection.trans hbc.connection⟩

theorem advance (h : SameStanding a b) (list : LeaseList) : a.advance list = b.advance list := by
  unfold Board.advance
  rw [h.revisions]

theorem report (h : SameStanding a b) (list : LeaseList) : a.report list = b.report list := by
  unfold Board.report
  rw [h.policies]

theorem verdict (h : SameStanding a b) (event : Event) : a.verdict event = b.verdict event := by
  cases event with
  | policies list => rfl
  | leases list => simp only [Board.verdict, h.advance]

/-- An event keeps two boards alike but for their leases, at whatever instants it comes. -/
theorem step_event (h : SameStanding a b) (event : Event) (now now' : Instant) :
    SameStanding (a.step (.event event now)).board (b.step (.event event now')).board := by
  cases event with
  | policies list =>
    rw [board_policies, board_policies]
    cases Policy.collect list.policies with
    | error failure => exact h
    | ok policies => exact ⟨h.revisions, by rw [h.policies], rfl⟩
  | leases list =>
    rw [board_leases, board_leases, h.advance]
    cases Lease.collect list.leases with
    | error failure => exact h
    | ok leases =>
      cases b.advance list with
      | error failure => exact h
      | ok revisions => exact ⟨rfl, by rw [h.report], rfl⟩

end SameStanding

theorem SameStanding.eq_of_leases {a b : Board} (h : SameStanding a b)
    (hleases : a.leases = b.leases) : a = b := by
  cases a
  cases b
  obtain ⟨rfl, rfl, rfl⟩ := h
  obtain rfl := hleases
  rfl

/-- A notice as a step at an instant of no meaning. -/
def Notice.step : Notice → Step
  | .event announced => .event announced default
  | .interruption cause => .interruption cause

/-- A history gives the verdicts of its bare notices, and leaves a board that differs from theirs in
its leases at most. -/
theorem SameStanding.replay {a b : Board} (h : SameStanding a b) (steps : List Step) :
    a.verdicts steps = b.verdicts ((steps.filterMap Step.notice?).map Notice.step) ∧
      SameStanding (a.run steps) (b.run ((steps.filterMap Step.notice?).map Notice.step)) := by
  induction steps generalizing a b with
  | nil => exact ⟨rfl, h⟩
  | cons s rest ih =>
    cases s with
    | event event now =>
      obtain ⟨hverdicts, hrun⟩ := ih (h.step_event event now default)
      refine ⟨?_, hrun⟩
      simp only [List.filterMap_cons, Step.notice?, List.map_cons, Notice.step, verdicts,
        map_result_event, h.verdict, hverdicts]
    | interruption reason =>
      have hstep : SameStanding (a.step (.interruption reason)).board
          (b.step (.interruption reason)).board := ⟨h.revisions, h.policies, rfl⟩
      exact ih hstep
    | tick now =>
      have hstep : SameStanding (a.step (.tick now)).board b := ⟨h.revisions, h.policies, h.connection⟩
      exact ih hstep

/-! ## The leases -/

/-- A history that goes forward in time keeps the roster of a board in agreement with the roster into
which the accepted lists are entered without expiry. -/
theorem agrees_run {b : Board} {roster : Roster} {steps : List Step} {finish : Instant}
    (htimely : Timely (steps ++ [.tick finish]))
    (hagree : ∀ now ∈ (steps ++ [Step.tick finish]).filterMap Step.time?,
      Roster.Agrees now b.leases roster) :
    Roster.Agrees finish (b.run steps).leases
      ((accepted (b.verdicts steps)).foldl Roster.enterList roster) := by
  induction steps generalizing b roster with
  | nil => exact hagree finish List.mem_cons_self
  | cons s rest ih =>
    cases s with
    | interruption reason => exact ih htimely hagree
    | tick now =>
      obtain ⟨hfirst, hrest⟩ := List.pairwise_cons.1 htimely
      have hnow := (hagree now List.mem_cons_self).expire_left
      exact ih hrest fun later hlater => hnow.mono (hfirst later hlater)
    | event event now =>
      obtain ⟨hfirst, hrest⟩ := List.pairwise_cons.1 htimely
      have hsame : ∀ later ∈ (rest ++ [Step.tick finish]).filterMap Step.time?,
          Roster.Agrees later b.leases roster :=
        fun later hlater => hagree later (List.mem_cons_of_mem _ hlater)
      rw [run_cons, verdicts, map_result_event]
      obtain ⟨failure, hverdict, hboard⟩ | ⟨list, policies, rfl, hverdict, -, hboard⟩ |
        ⟨list, leases, revisions, rfl, hverdict, hcollect, -, hboard⟩ := b.step_event_cases event now
      · rw [hverdict, accepted_cons_error, hboard]
        exact ih hrest hsame
      · rw [hverdict, hboard]
        exact ih hrest hsame
      · rw [hverdict, hboard]
        have hupdate := (hagree now List.mem_cons_self).update list.resource
          (Lease.nodup_ids_of_collect hcollect)
        rw [← Roster.enterList_of_collect hcollect roster] at hupdate
        exact ih hrest fun later hlater => hupdate.mono (hfirst later hlater)

/-- The leases of a board after a tick are those of the ageless roster of the accepted lists that have
not expired. -/
theorem leases_run_tick {steps : List Step} {finish : Instant}
    (htimely : Timely (steps ++ [.tick finish])) :
    (empty.run (steps ++ [.tick finish])).leases =
      ((Roster.ageless (accepted (empty.verdicts steps))).expire finish).2 := by
  have hagree := @agrees_run empty .empty steps finish htimely fun _ _ => rfl
  rw [run_append]
  exact hagree

/-! ## Two histories of the same notices -/

/-- Two histories that bring the same notices in the same order, each at instants that never go back
and with ticks of its own, give the same verdicts and, after a tick at the same instant, leave the
same board.  Its leases are those of the ageless roster of the accepted lists that have not expired at
that instant. -/
theorem run_eq_of_same_notices {first second : List Step} {finish : Instant}
    (hnotices : first.filterMap Step.notice? = second.filterMap Step.notice?)
    (hfirst : Timely (first ++ [.tick finish])) (hsecond : Timely (second ++ [.tick finish])) :
    empty.verdicts first = empty.verdicts second ∧
      empty.run (first ++ [.tick finish]) = empty.run (second ++ [.tick finish]) ∧
      (empty.run (first ++ [.tick finish])).leases =
        (Roster.ageless (accepted (empty.verdicts first))).filter
          fun _ lease => !lease.isExpired finish := by
  obtain ⟨hverdicts₁, hstanding₁⟩ := (SameStanding.refl empty).replay first
  obtain ⟨hverdicts₂, hstanding₂⟩ := (SameStanding.refl empty).replay second
  rw [hnotices] at hverdicts₁ hstanding₁
  have hverdicts : empty.verdicts first = empty.verdicts second := hverdicts₁.trans hverdicts₂.symm
  have hstanding := hstanding₁.trans hstanding₂.symm
  refine ⟨hverdicts, ?_, leases_run_tick hfirst⟩
  have hleases : (empty.run (first ++ [.tick finish])).leases =
      (empty.run (second ++ [.tick finish])).leases := by
    rw [leases_run_tick hfirst, leases_run_tick hsecond, hverdicts]
  have htick : ∀ steps, SameStanding (empty.run (steps ++ [.tick finish])) (empty.run steps) := by
    intro steps
    rw [run_append]
    exact ⟨rfl, rfl, rfl⟩
  exact (((htick first).trans hstanding).trans (htick second).symm).eq_of_leases hleases

end LeaseBoard.Board

namespace LeaseBoard

/-- A lease that is listed while it lives and taken off by a tick, and one that has expired when its
list comes. -/
theorem run_eq_swept_or_late :
    let first : List Board.Step := [.event (.leases (releasedList "a" "gpu" (some 1))) (atSecond 1),
      .tick (atSecond 7), .interruption "reset"]
    let second : List Board.Step := [.tick (atSecond 2),
      .event (.leases (releasedList "a" "gpu" (some 1))) (atSecond 6), .interruption "reset",
      .tick (atSecond 6)]
    Board.empty.verdicts first = Board.empty.verdicts second ∧
      Board.empty.run (first ++ [.tick (atSecond 9)]) =
        Board.empty.run (second ++ [.tick (atSecond 9)]) ∧
      (Board.empty.run (first ++ [.tick (atSecond 9)])).leases =
        (Roster.ageless (Board.accepted (Board.empty.verdicts first))).filter
          fun _ lease => !lease.isExpired (atSecond 9) :=
  Board.run_eq_of_same_notices rfl (by decide) (by decide)

end LeaseBoard
