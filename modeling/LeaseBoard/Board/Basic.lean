import LeaseBoard.Lease.Roster
import LeaseBoard.Policy.Book
import LeaseBoard.Revisions
set_option autoImplicit false

/-!
# The board

All that an operator sees: the leases and the policies in force, with the revisions accepted so far
and the state of the connection.  Events and the clock change the board, and every change comes with
the instructions that tell a display about it.

An event is applied whole or not at all: a bad entry or a stale revision leaves the board as it was.
-/

namespace LeaseBoard

/-- The state of the view. -/
structure Board where
  revisions : Revisions
  leases : Roster
  policies : Book
  connection : Connection
  deriving DecidableEq, Repr

namespace Board

/-- The board before any event. -/
def empty : Board := ⟨.empty, .empty, .empty, .connected⟩

instance : Inhabited Board := ⟨empty⟩

/-! ## Events -/

/-- Replaces the policies. -/
def applyPolicies (b : Board) (list : PolicyList) : Except Failure (Board × List Instruction) :=
  (Policy.collect list.policies).map fun policies =>
    let (change, book) := b.policies.replace policies
    ({ b with policies := book }, change.instructions)

/-- Lets a list of leases pass the revisions of the resource that it names. -/
def advance (b : Board) (list : LeaseList) : Except Failure Revisions :=
  match list.resource with
  | none => .ok b.revisions
  | some resource =>
    match b.revisions.advance resource list.revision with
    | some revisions => .ok revisions
    | none =>
      .error (.rejected (.stale resource (list.revision.getD 0)
        ((b.revisions.last? resource).getD 0)))

/-- Hands the statistics of a list to the policy of the resource that it names. -/
def report (b : Board) (list : LeaseList) : Book × List Instruction :=
  match list.resource, list.statistics with
  | some resource, some statistics =>
    match b.policies.report resource statistics with
    | some (policy, book) => (book, [Tabled.revision policy])
    | none => (b.policies, [])
  | _, _ => (b.policies, [])

/-- Takes a list of leases: entries first, then the revision, then statistics and leases. -/
def applyLeases (b : Board) (list : LeaseList) (now : Instant) :
    Except Failure (Board × List Instruction) := do
  let leases ← Lease.collect list.leases
  let revisions ← b.advance list
  let (policies, reported) := b.report list
  let (change, roster) := b.leases.update list.resource leases now
  .ok ({ b with revisions := revisions, policies := policies, leases := roster },
    reported ++ change.instructions)

/-- Ends an interruption, telling the display first of all. -/
def reconnect (b : Board) (instructions : List Instruction) : Board × List Instruction :=
  if b.connection = .connected then (b, instructions)
  else ({ b with connection := .connected }, .connection .connected :: instructions)

/-- Applies an event at an instant. -/
def apply (b : Board) (event : Event) (now : Instant) : Except Failure (Board × List Instruction) :=
  let applied := match event with
    | .policies list => b.applyPolicies list
    | .leases list => b.applyLeases list now
  applied.map fun (b, instructions) => b.reconnect instructions

/-! ## Interruptions and the clock -/

/-- Notes that the connection is lost.  Leases and policies stay. -/
def interrupt (b : Board) (reason : String) : Board × Instruction :=
  ({ b with connection := .interrupted reason }, .connection (.interrupted reason))

/-- Takes off the leases that have expired. -/
def expire (b : Board) (now : Instant) : Board × List Instruction :=
  let (gone, roster) := b.leases.expire now
  ({ b with leases := roster }, gone.map (Tabled.removal Lease))

/-- A beat of the clock: expired leases go and relative labels are drawn anew. -/
def tick (b : Board) (now : Instant) : Board × List Instruction :=
  let (b, removals) := b.expire now
  (b, removals ++ [.refresh now])

/-! ## Snapshots -/

/-- The instructions that bring an empty display to the state of the board: the connection, then
policies and leases in ascending order of their identities. -/
def snapshot (b : Board) : List Instruction :=
  .connection b.connection :: b.policies.values.map Tabled.addition ++
    b.leases.values.map Tabled.addition

end Board

end LeaseBoard
