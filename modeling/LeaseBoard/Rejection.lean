set_option autoImplicit false

/-!
# Rejections and failures

Why an event, a signal or a setting is turned down, as a cause with its data, and the one place
where causes become text.  A `Failure` is a rejection, after which things go on, or one of the two
faults that end what is being done and have no text of their own.
-/

namespace LeaseBoard

/-- The two kinds of record that a stream carries. -/
inductive RecordKind where
  | lease
  | policy
  deriving DecidableEq, Repr, Inhabited

/-- The name of a kind of record in messages. -/
def RecordKind.name : RecordKind → String
  | lease => "lease"
  | policy => "policy"

/-- Why something is turned down. -/
inductive Rejection where
  /-- the revision is not above the last one accepted for its resource -/
  | stale (resource : String) (revision last : UInt64)
  /-- a record lacks a part that the board needs -/
  | invalid (kind : RecordKind) (reason : String)
  /-- the connection was lost -/
  | interrupted (reason : String)
  /-- the payload of an event is not a document of its form -/
  | undecodable (event : String)
  /-- a setting is out of bounds -/
  | misconfigured (reason : String)
  deriving DecidableEq, Repr

namespace Rejection

/-- A lease record without an instance, or whose instance has no identity. -/
def missingInstance : Rejection := invalid .lease "missing instance id"

/-- The lease record of an instance that names no resource. -/
def missingLeaseResource (id : String) : Rejection :=
  invalid .lease ("lease '" ++ id ++ "' has no resource")

/-- A policy record that names no resource. -/
def missingPolicyResource : Rejection := invalid .policy "missing resource"

/-- Whether the cause is a revision that is too old. -/
def isStale : Rejection → Bool
  | stale .. => true
  | _ => false

/-- The message for a cause. -/
def message : Rejection → String
  | stale resource revision last =>
    "stale revision " ++ toString revision.toNat ++ " for resource '" ++ resource ++
      "' (last accepted " ++ toString last.toNat ++ ")"
  | invalid kind reason => "invalid " ++ kind.name ++ " record: " ++ reason
  | interrupted reason => "transport interrupted: " ++ reason
  | undecodable event => "unable to decode '" ++ event ++ "' event"
  | misconfigured reason => "invalid configuration: " ++ reason

end Rejection

/-- Why a step has no result. -/
inductive Failure where
  /-- it was turned down -/
  | rejected (cause : Rejection)
  /-- the sum of an instant and a span is outside the calendar -/
  | outOfCalendar
  /-- the stream starts with a byte order mark -/
  | unreadableStream
  deriving DecidableEq, Repr

/-- Whether things go on after a step with this result. -/
def Failure.goesOn : Except Failure Unit → Bool
  | .ok () => true
  | .error (.rejected _) => true
  | .error .outOfCalendar => false
  | .error .unreadableStream => false

end LeaseBoard
