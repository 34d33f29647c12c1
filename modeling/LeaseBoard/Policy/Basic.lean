import LeaseBoard.Instruction
import LeaseBoard.Ranking
import LeaseBoard.Rejection
import LeaseBoard.Wire.Entry
set_option autoImplicit false

/-!
# Policies

A policy limits the use of a resource.  Its strategy says which count of use is held against the
limit.  Main statement: `Policy.consumed_add_available`, what is consumed and what is available make
up the limit.
-/

namespace LeaseBoard

/-- How the use of a resource is counted. -/
inductive Strategy where
  | consumer
  | instances
  | other (name : String)
  deriving DecidableEq, Repr

namespace Strategy

/-- Without a strategy, instances are counted. -/
instance : Inhabited Strategy := ⟨instances⟩

/-- The strategy with a name; no name and the empty name mean the default. -/
def ofName? (name : Option String) : Strategy :=
  match name with
  | none => default
  | some name =>
    if name = "" then default
    else if name = "instance" then instances
    else if name = "consumer" then consumer
    else other name

/-- The name of a strategy. -/
def name : Strategy → String
  | consumer => "consumer"
  | instances => "instance"
  | other name => name

/-- The count of use that a strategy goes by, if there is one for it. -/
def usage? (strategy : Strategy) (statistics : Statistics) : Option Usage :=
  match strategy with
  | consumer => statistics.byConsumer
  | instances => statistics.byInstance
  | other _ => none

/-- How much is consumed; nothing if the strategy has no count. -/
def consumed (strategy : Strategy) (statistics : Statistics) : UInt64 :=
  match strategy.usage? statistics with
  | some usage => usage.consumed
  | none => 0

end Strategy

/-- A policy on the board, with the latest statistics of its resource if any came. -/
structure Policy where
  resource : String
  program : String
  strategy : Strategy
  limit : UInt64
  statistics : Option Statistics
  deriving DecidableEq, Repr

namespace Policy

/-- The policy of an entry, without statistics. -/
def ofEntry (entry : PolicyEntry) : Except Failure Policy :=
  match entry.resource.filter (· ≠ "") with
  | none => .error (.rejected .missingPolicyResource)
  | some resource =>
    .ok
      { resource := resource
        program := Ranking.program.resolve entry.properties (some resource)
        strategy := Strategy.ofName? entry.strategy
        limit := entry.limit
        statistics := none }

/-- How much of the resource is consumed, once statistics have come. -/
def consumed (policy : Policy) : Option UInt64 := policy.statistics.map policy.strategy.consumed

/-- How much of the limit is left, negative if more than the limit is consumed. -/
def available (policy : Policy) : Option Int :=
  policy.consumed.map fun consumed => policy.limit.toNat - consumed.toNat

/-- The columns of a policy. -/
def cells (policy : Policy) : List Cell :=
  [.text policy.program,
   .text ((policy.consumed.map fun n => toString n.toNat).getD ""),
   .text ((policy.available.map fun n => toString n).getD ""),
   .text (toString policy.limit.toNat)]

instance : Tabled Policy := ⟨.policies, Policy.resource, Policy.cells⟩

/-- What is consumed and what is available make up the limit. -/
theorem consumed_add_available {policy : Policy} {consumed : UInt64} {available : Int}
    (hc : policy.consumed = some consumed) (ha : policy.available = some available) :
    consumed.toNat + available = policy.limit.toNat := by
  simp only [Policy.available, hc, Option.map_some, Option.some.injEq] at ha
  omega

end Policy

end LeaseBoard
