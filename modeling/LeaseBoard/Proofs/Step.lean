import LeaseBoard.Board.Trace
set_option autoImplicit false

/-!
# What a step does to a board

Every way in which an event can be applied, as one lemma for each kind of event, and the little that
other steps do.  Later proofs cite these lemmas and do not open the definitions.

Main statements: `applyPolicies_eq_ok` and `applyLeases_eq_ok` (what an event changes and sends),
`map_apply` (the verdict on an event) and `step_event_cases` (all that an event can do to a board).
-/

namespace LeaseBoard.Board

/-- The instructions of a step; none if it failed. -/
def Outcome.sent (o : Outcome) : List Instruction :=
  match o.result with
  | .ok instructions => instructions
  | .error _ => []

theorem run_cons (b : Board) (s : Step) (rest : List Step) :
    b.run (s :: rest) = (b.step s).board.run rest := rfl

/-! ## Events -/

/-- Statistics change nothing, or the policy of the resource that the list names. -/
theorem report_cases (b : Board) (list : LeaseList) :
    b.report list = (b.policies, []) ∨
      ∃ resource statistics policy book, list.resource = some resource ∧
        list.statistics = some statistics ∧
        b.policies.report resource statistics = some (policy, book) ∧
        b.report list = (book, [Tabled.revision policy]) := by
  unfold report
  split
  case h_1 resource statistics hresource hstatistics =>
    cases hreport : b.policies.report resource statistics with
    | none => exact Or.inl rfl
    | some reported =>
      obtain ⟨policy, book⟩ := reported
      exact Or.inr ⟨resource, statistics, policy, book, hresource, hstatistics, hreport, rfl⟩
  case h_2 => exact Or.inl rfl

/-- A list of policies that is applied has good entries and replaces the book. -/
theorem applyPolicies_eq_ok {b after : Board} {list : PolicyList} {sent : List Instruction}
    (h : b.applyPolicies list = .ok (after, sent)) :
    ∃ policies, Policy.collect list.policies = .ok policies ∧
      after = { b with policies := (b.policies.replace policies).2 } ∧
      sent = (b.policies.replace policies).1.instructions := by
  unfold applyPolicies at h
  cases hcollect : Policy.collect list.policies with
  | error failure => rw [hcollect] at h; cases h
  | ok policies =>
    rw [hcollect] at h
    cases h
    exact ⟨policies, rfl, rfl, rfl⟩

/-- A list of leases that is applied has good entries and a revision that is let in, and changes
revisions, policies and leases. -/
theorem applyLeases_eq_ok {b after : Board} {list : LeaseList} {now : Instant}
    {sent : List Instruction} (h : b.applyLeases list now = .ok (after, sent)) :
    ∃ leases revisions, Lease.collect list.leases = .ok leases ∧
      b.advance list = .ok revisions ∧
      after = { b with
        revisions := revisions
        policies := (b.report list).1
        leases := (b.leases.update list.resource leases now).2 } ∧
      sent = (b.report list).2 ++ (b.leases.update list.resource leases now).1.instructions := by
  unfold applyLeases at h
  cases hcollect : Lease.collect list.leases with
  | error failure => rw [hcollect] at h; cases h
  | ok leases =>
    cases hadvance : b.advance list with
    | error failure => rw [hcollect, hadvance] at h; cases h
    | ok revisions =>
      rw [hcollect, hadvance] at h
      cases h
      exact ⟨leases, revisions, rfl, rfl, rfl, rfl⟩

/-- What an event changes, before the end of an interruption. -/
def change (b : Board) (now : Instant) : Event → Except Failure (Board × List Instruction)
  | .policies list => b.applyPolicies list
  | .leases list => b.applyLeases list now

/-- An event is applied as the change of its kind, which ends an interruption. -/
theorem apply_eq (b : Board) (event : Event) (now : Instant) :
    b.apply event now = (b.change now event).map fun applied => applied.1.reconnect applied.2 := by
  cases event <;> rfl

theorem apply_eq_ok {b after : Board} {event : Event} {now : Instant} {sent : List Instruction}
    (h : b.apply event now = .ok (after, sent)) :
    ∃ changed instructions, b.change now event = .ok (changed, instructions) ∧
      changed.reconnect instructions = (after, sent) := by
  rw [apply_eq] at h
  cases hchange : b.change now event with
  | error failure => rw [hchange] at h; cases h
  | ok applied =>
    rw [hchange] at h
    exact ⟨applied.1, applied.2, rfl, Except.ok.inj h⟩

/-- Ending an interruption changes nothing but the state of the connection. -/
theorem reconnect_fst (b : Board) (instructions : List Instruction) :
    (b.reconnect instructions).1 = { b with connection := .connected } := by
  unfold reconnect
  split
  case isTrue h => rw [← h]
  case isFalse => rfl

/-- Ending an interruption is told first of all. -/
theorem reconnect_snd (b : Board) (instructions : List Instruction) :
    (b.reconnect instructions).2 =
      (if b.connection = .connected then [] else [.connection .connected]) ++ instructions := by
  unfold reconnect
  split <;> rfl

/-! ## Verdicts -/

/-- Whether an event is applied or why not: the first bad entry of its list, or a stale revision. -/
def verdict (b : Board) : Event → Except Failure Unit
  | .policies list => (Policy.collect list.policies).map fun _ => ()
  | .leases list => (Lease.collect list.leases).bind fun _ => (b.advance list).map fun _ => ()

/-- The verdict on an event does not depend on the instant. -/
theorem map_apply (b : Board) (event : Event) (now : Instant) :
    ((b.apply event now).map fun _ => ()) = b.verdict event := by
  cases event with
  | policies list =>
    simp only [apply, applyPolicies, verdict]
    cases Policy.collect list.policies <;> rfl
  | leases list =>
    simp only [apply, applyLeases, verdict]
    cases Lease.collect list.leases with
    | error failure => rfl
    | ok leases => cases b.advance list <;> rfl

/-- The verdict is the result of the step without its instructions. -/
theorem map_result_event (b : Board) (event : Event) (now : Instant) :
    ((b.step (.event event now)).result.map fun _ => ()) = b.verdict event := by
  rw [← map_apply b event now]
  cases happly : b.apply event now with
  | error failure => simp only [step, happly]; rfl
  | ok applied => simp only [step, happly]; rfl

/-! ## The board after an event -/

/-- The board after a list of policies. -/
theorem board_policies (b : Board) (list : PolicyList) (now : Instant) :
    (b.step (.event (.policies list) now)).board =
      match Policy.collect list.policies with
      | .ok policies =>
        { b with
          policies := (b.policies.replace policies).2
          connection := .connected }
      | .error _ => b := by
  simp only [step, apply, applyPolicies]
  cases Policy.collect list.policies with
  | error failure => rfl
  | ok policies => exact reconnect_fst _ _

/-- The board after a list of leases. -/
theorem board_leases (b : Board) (list : LeaseList) (now : Instant) :
    (b.step (.event (.leases list) now)).board =
      match Lease.collect list.leases, b.advance list with
      | .ok leases, .ok revisions =>
        { revisions := revisions
          leases := (b.leases.update list.resource leases now).2
          policies := (b.report list).1
          connection := .connected }
      | _, _ => b := by
  simp only [step, apply, applyLeases]
  cases Lease.collect list.leases with
  | error failure => rfl
  | ok leases =>
    cases b.advance list with
    | error failure => rfl
    | ok revisions => exact reconnect_fst _ _

/-- All that an event can do: it is rejected and leaves the board, or a list of policies replaces the
book, or a list of leases is taken. -/
theorem step_event_cases (b : Board) (event : Event) (now : Instant) :
    (∃ failure, b.verdict event = .error failure ∧ (b.step (.event event now)).board = b) ∨
      (∃ list policies, event = .policies list ∧ b.verdict event = .ok () ∧
        Policy.collect list.policies = .ok policies ∧
        (b.step (.event event now)).board =
          { b with
            policies := (b.policies.replace policies).2
            connection := .connected }) ∨
      ∃ list leases revisions, event = .leases list ∧ b.verdict event = .ok () ∧
        Lease.collect list.leases = .ok leases ∧ b.advance list = .ok revisions ∧
        (b.step (.event event now)).board =
          { revisions := revisions
            leases := (b.leases.update list.resource leases now).2
            policies := (b.report list).1
            connection := .connected } := by
  cases event with
  | policies list =>
    rw [board_policies, verdict]
    cases hcollect : Policy.collect list.policies with
    | error failure => exact Or.inl ⟨failure, rfl, rfl⟩
    | ok policies => exact Or.inr (Or.inl ⟨list, policies, rfl, rfl, hcollect, rfl⟩)
  | leases list =>
    rw [board_leases, verdict]
    cases hcollect : Lease.collect list.leases with
    | error failure => exact Or.inl ⟨failure, rfl, rfl⟩
    | ok leases =>
      cases hadvance : b.advance list with
      | error failure => exact Or.inl ⟨failure, rfl, rfl⟩
      | ok revisions =>
        exact Or.inr (Or.inr ⟨list, leases, revisions, rfl, rfl, hcollect, hadvance, rfl⟩)

end LeaseBoard.Board
