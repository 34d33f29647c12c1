import LeaseBoard.Proofs.Released
import LeaseBoard.Proofs.Revision
set_option autoImplicit false

/-!
# Replays

A list of leases that comes again, or comes too late, changes nothing.  Into any history one may put,
anywhere and at any instants, lists that were applied before and lists of good entries whose revision is
not above the last one of their resource.  All of them are stale, and the steps of the history have the
same results and lead to the same board as without them.

A board remembers what it has accepted: last revisions only go up (`raises_run`), so what was applied
once is stale ever after (`LateFor.reached`).  Main statement: `replays_leave_history`.
-/

namespace LeaseBoard.Board

/-! ## Late lists -/

/-- A list that comes again or too late after a history: it announces a revision, and either it was
applied in the course of the history, or its entries are good and the last revision of its resource is
not below the one it announces. -/
def LateFor (past : List Step) (list : LeaseList) : Prop :=
  ∃ resource n, list.announced? resource = some n ∧
    ((∃ before now after sent, past = before ++ .event (.leases list) now :: after ∧
        (empty.run before).apply (.leases list) now = .ok sent) ∨
      ∃ leases last, Lease.collect list.leases = .ok leases ∧
        (empty.run past).revisions.last? resource = some last ∧ n ≤ last)

/-- A late list has good entries, and the last revision of its resource is not below its own. -/
theorem LateFor.reached {past : List Step} {list : LeaseList} (h : LateFor past list) :
    ∃ resource n leases last, list.announced? resource = some n ∧
      Lease.collect list.leases = .ok leases ∧
      (empty.run past).revisions.last? resource = some last ∧ n ≤ last := by
  obtain ⟨resource, n, hannounced, hcopy | ⟨leases, last, hcollect, hlast, hle⟩⟩ := h
  · obtain ⟨before, now, after, ⟨applied, sent⟩, rfl, happly⟩ := hcopy
    obtain ⟨changed, instructions, hchange, -⟩ := apply_eq_ok happly
    obtain ⟨leases, -, hcollect, -⟩ := applyLeases_eq_ok hchange
    -- Applied once, the list has set the last revision, which has not gone down since.
    obtain ⟨last, hlast, hle⟩ := reaches_step (b := empty.run before) hcollect hannounced now
    obtain ⟨later, hlater, hle'⟩ := raises_run _ after resource last hlast
    refine ⟨resource, n, leases, later, hannounced, hcollect, ?_, UInt64.le_trans hle hle'⟩
    rw [run_append]
    exact hlater
  · exact ⟨resource, n, leases, last, hannounced, hcollect, hlast, hle⟩

/-- A late list is stale, at whatever instant it comes, and leaves the board. -/
theorem LateFor.step_eq {past : List Step} {list : LeaseList} (h : LateFor past list)
    (now : Instant) :
    ∃ resource n last, list.announced? resource = some n ∧
      (empty.run past).step (.event (.leases list) now) =
        ⟨empty.run past, .error (.rejected (.stale resource n last))⟩ := by
  obtain ⟨resource, n, leases, last, hannounced, hcollect, hlast, hle⟩ := h.reached
  have hstale := advance_eq_error_iff.2 ⟨resource, n, last, hannounced, hlast, hle, rfl⟩
  refine ⟨resource, n, last, hannounced, ?_⟩
  simp only [step, apply, applyLeases, hcollect]
  simp only [hstale, bind, Except.bind, Except.map]

/-! ## Histories with replays -/

/-- A step of a history, or a list of leases that is put in between. -/
inductive Strand where
  | own (s : Step)
  | replay (list : LeaseList) (now : Instant)
  deriving DecidableEq, Repr

namespace Strand

/-- What a strand does to a board. -/
def step : Strand → Step
  | own s => s
  | replay list now => .event (.leases list) now

/-- The step of the history that a strand is, if it is one. -/
def own? : Strand → Option Step
  | own s => some s
  | replay _ _ => none

end Strand

/-- After a history there come steps of its own and, in between, lists that are late for what has come
of the history by then. -/
inductive Insertable : List Step → List Strand → Prop
  | nil (past : List Step) : Insertable past []
  | own {past : List Step} {rest : List Strand} (s : Step) (hrest : Insertable (past ++ [s]) rest) :
      Insertable past (.own s :: rest)
  | replay {past : List Step} {rest : List Strand} {list : LeaseList} (hlate : LateFor past list)
      (now : Instant) (hrest : Insertable past rest) : Insertable past (.replay list now :: rest)

/-- Strands with the results that they have on a board. -/
def record (b : Board) (strands : List Strand) : List (Strand × Except Failure (List Instruction)) :=
  strands.zip (b.results (strands.map Strand.step))

/-- The steps of a history with the results that they have on a board. -/
def Strand.ofHistory (entry : Strand × Except Failure (List Instruction)) :
    Option (Step × Except Failure (List Instruction)) :=
  entry.1.own?.map fun s => (s, entry.2)

theorem record_cons (b : Board) (x : Strand) (rest : List Strand) :
    b.record (x :: rest) = (x, (b.step x.step).result) :: (b.step x.step).board.record rest := rfl

/-- The steps of a history have the same results and lead to the same board with late lists put in
between. -/
theorem Insertable.record_eq {past : List Step} {strands : List Strand} (h : Insertable past strands) :
    ((empty.run past).record strands).filterMap Strand.ofHistory =
        (strands.filterMap Strand.own?).zip
          ((empty.run past).results (strands.filterMap Strand.own?)) ∧
      (empty.run past).run (strands.map Strand.step) =
        (empty.run past).run (strands.filterMap Strand.own?) := by
  induction h with
  | nil past => exact ⟨rfl, rfl⟩
  | own s hrest ih =>
    obtain ⟨hresults, hrun⟩ := ih
    rw [run_append] at hresults hrun
    refine ⟨?_, hrun⟩
    rw [record_cons]
    exact congrArg (_ :: ·) hresults
  | replay hlate now hrest ih =>
    obtain ⟨resource, n, last, -, hstep⟩ := hlate.step_eq now
    obtain ⟨hresults, hrun⟩ := ih
    constructor
    · rw [record_cons, Strand.step, hstep]
      exact hresults
    · rw [List.map_cons, run_cons, Strand.step, hstep]
      exact hrun

/-- Late lists are stale wherever they are put in. -/
theorem Insertable.stale {past : List Step} {strands : List Strand} (h : Insertable past strands)
    {list : LeaseList} {now : Instant} {result : Except Failure (List Instruction)}
    (hmem : (.replay list now, result) ∈ (empty.run past).record strands) :
    ∃ resource n last, list.announced? resource = some n ∧
      result = .error (.rejected (.stale resource n last)) := by
  induction h with
  | nil past => cases hmem
  | own s hrest ih =>
    rw [run_append] at ih
    rw [record_cons] at hmem
    rcases List.mem_cons.1 hmem with heq | hmem
    · cases heq
    · exact ih hmem
  | replay hlate time hrest ih =>
    obtain ⟨resource, n, last, hannounced, hstep⟩ := hlate.step_eq time
    rw [record_cons, Strand.step, hstep] at hmem
    rcases List.mem_cons.1 hmem with heq | hmem
    · cases heq
      exact ⟨resource, n, last, hannounced, rfl⟩
    · exact ih hmem

end LeaseBoard.Board

namespace LeaseBoard

/-- Lists that come again or too late are stale, wherever and whenever they are put into a history.  The
steps of the history have the same results as without them, instructions included, and lead to the same
board. -/
theorem replays_leave_history {strands : List Board.Strand} (h : Board.Insertable [] strands) :
    (∀ list now result, (.replay list now, result) ∈ Board.empty.record strands →
      ∃ resource n last, list.announced? resource = some n ∧
        result = .error (.rejected (.stale resource n last))) ∧
    (Board.empty.record strands).filterMap Board.Strand.ofHistory =
      (strands.filterMap Board.Strand.own?).zip
        (Board.empty.results (strands.filterMap Board.Strand.own?)) ∧
    Board.empty.run (strands.map Board.Strand.step) =
      Board.empty.run (strands.filterMap Board.Strand.own?) :=
  ⟨fun _ _ _ hmem => h.stale hmem, h.record_eq⟩

/-- A list that comes again after a loss of the connection, and an older one that comes after the leases
of the newer one have expired. -/
theorem replays_leave_history_after_expiry :
    let older := releasedList "a" "gpu" (some 1)
    let newer := releasedList "b" "gpu" (some 2)
    let strands : List Board.Strand := [.own (.event (.leases newer) (atSecond 1)),
      .own (.interruption "reset"), .replay newer (atSecond 2), .own (.tick (atSecond 7)),
      .replay older (atSecond 3)]
    Board.Insertable [] strands ∧
      Board.empty.run (strands.map Board.Strand.step) =
        Board.empty.run (strands.filterMap Board.Strand.own?) := by
  intro older newer strands
  have hnewer : Board.LateFor [.event (.leases newer) (atSecond 1), .interruption "reset"] newer :=
    ⟨"gpu", 2, rfl, Or.inl ⟨[], atSecond 1, [.interruption "reset"], _, rfl, rfl⟩⟩
  have holder : Board.LateFor [.event (.leases newer) (atSecond 1), .interruption "reset",
      .tick (atSecond 7)] older :=
    ⟨"gpu", 1, rfl, Or.inr ⟨_, 2, rfl, rfl, by decide⟩⟩
  have h : Board.Insertable [] strands :=
    .own _ (.own _ (.replay hnewer _ (.own _ (.replay holder _ (.nil _)))))
  exact ⟨h, (replays_leave_history h).2.2⟩

end LeaseBoard
