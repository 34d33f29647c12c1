import LeaseBoard.Keyed
import LeaseBoard.Time.Instant
set_option autoImplicit false

/-!
# Events

What a stream announces, as it is written on the wire: the list of policies, or a list of leases,
which is one resource's when it names the resource.  Spans of time are signed nanoseconds.
-/

namespace LeaseBoard

/-- Free-form properties of a lease or a policy. -/
abbrev Properties := Keyed String

/-- The program instance that holds a lease, with its user and host. -/
structure Holder where
  id : Option String
  user : Option String
  host : Option String
  deriving DecidableEq, Repr, Inhabited

/-- A lease as announced. -/
structure LeaseEntry where
  holder : Option Holder
  resource : Option String
  status : String
  started : Option Instant
  renewed : Option Instant
  released : Option Instant
  duration : Int64
  decay : Int64
  properties : Option Properties
  deriving DecidableEq, Repr, Inhabited

/-- A policy as announced. -/
structure PolicyEntry where
  resource : Option String
  strategy : Option String
  limit : UInt64
  properties : Option Properties
  deriving DecidableEq, Repr, Inhabited

/-- How much of a resource is in use under one way of counting. -/
structure Usage where
  consumed : UInt64
  active : UInt64
  released : UInt64
  queued : UInt64
  deriving DecidableEq, Repr, Inhabited

/-- The use of a resource, counted by distinct consumers and by distinct instances. -/
structure Statistics where
  byConsumer : Option Usage
  byInstance : Option Usage
  deriving DecidableEq, Repr, Inhabited

/-- An announcement of all policies. -/
structure PolicyList where
  policies : List PolicyEntry
  deriving DecidableEq, Repr, Inhabited

/-- An announcement of leases: all those of the resource it names, or some of any resource if it
names none. -/
structure LeaseList where
  resource : Option String
  revision : Option UInt64
  leases : List LeaseEntry
  statistics : Option Statistics
  deriving DecidableEq, Repr, Inhabited

/-- An announcement. -/
inductive Event where
  | policies (list : PolicyList)
  | leases (list : LeaseList)
  deriving DecidableEq, Repr

/-- The name under which an event is sent. -/
def Event.name : Event → String
  | policies _ => "policies"
  | leases _ => "leases"

end LeaseBoard
