import LeaseBoard.Json.Record
import LeaseBoard.Rejection
import LeaseBoard.Time.Stamp
import LeaseBoard.Wire.Entry
set_option autoImplicit false

/-!
# Reading events

The payload of an event is a JSON document.  Each record type has its field names in order and a
reader from a JSON value; `Event.decode` reads the payload of a named event.  Main statement:
`Event.decode_eq_ok_none_iff`, only events of other names are passed over.
-/

namespace LeaseBoard

open LeaseBoard.Json

/-- An instant in the loose grammar of time stamps. -/
def Json.Value.asInstant (v : Value) : Option Instant := v.asText.bind Instant.ofLoose?

namespace Holder

/-- The field names of a holder. -/
def fieldNames : List String := ["id", "user", "host"]

/-- The holder that a JSON value shows. -/
def ofJson? (v : Value) : Option Holder := do
  let fields ← v.fields? fieldNames
  let id ← fields.optional "id" Value.asText
  let user ← fields.optional "user" Value.asText
  let host ← fields.optional "host" Value.asText
  some { id, user, host }

end Holder

namespace LeaseEntry

/-- The field names of a lease. -/
def fieldNames : List String :=
  ["instance", "resource", "status", "started", "renewed", "released", "duration", "decay",
   "properties"]

/-- The lease that a JSON value shows. -/
def ofJson? (v : Value) : Option LeaseEntry := do
  let fields ← v.fields? fieldNames
  let holder ← fields.optional "instance" Holder.ofJson?
  let resource ← fields.optional "resource" Value.asText
  let status ← fields.withDefault "status" "" Value.asText
  let started ← fields.optional "started" Value.asInstant
  let renewed ← fields.optional "renewed" Value.asInstant
  let released ← fields.optional "released" Value.asInstant
  let duration ← fields.withDefault "duration" 0 Value.asInt64
  let decay ← fields.withDefault "decay" 0 Value.asInt64
  let properties ← fields.optional "properties" Value.asTexts
  some { holder, resource, status, started, renewed, released, duration, decay, properties }

end LeaseEntry

namespace PolicyEntry

/-- The field names of a policy. -/
def fieldNames : List String := ["resource", "strategy", "limit", "properties"]

/-- The policy that a JSON value shows. -/
def ofJson? (v : Value) : Option PolicyEntry := do
  let fields ← v.fields? fieldNames
  let resource ← fields.optional "resource" Value.asText
  let strategy ← fields.optional "strategy" Value.asText
  let limit ← fields.withDefault "limit" 0 Value.asUInt64
  let properties ← fields.optional "properties" Value.asTexts
  some { resource, strategy, limit, properties }

end PolicyEntry

namespace Usage

/-- The field names of a count of use. -/
def fieldNames : List String := ["consumed", "active", "released", "queued"]

/-- The count of use that a JSON value shows. -/
def ofJson? (v : Value) : Option Usage := do
  let fields ← v.fields? fieldNames
  let consumed ← fields.withDefault "consumed" 0 Value.asUInt64
  let active ← fields.withDefault "active" 0 Value.asUInt64
  let released ← fields.withDefault "released" 0 Value.asUInt64
  let queued ← fields.withDefault "queued" 0 Value.asUInt64
  some { consumed, active, released, queued }

end Usage

namespace Statistics

/-- The field names of statistics. -/
def fieldNames : List String := ["consumer", "instance"]

/-- The statistics that a JSON value shows. -/
def ofJson? (v : Value) : Option Statistics := do
  let fields ← v.fields? fieldNames
  let byConsumer ← fields.optional "consumer" Usage.ofJson?
  let byInstance ← fields.optional "instance" Usage.ofJson?
  some { byConsumer, byInstance }

end Statistics

namespace PolicyList

/-- The field names of a list of policies. -/
def fieldNames : List String := ["policies"]

/-- The list of policies that a JSON value shows. -/
def ofJson? (v : Value) : Option PolicyList := do
  let fields ← v.fields? fieldNames
  let policies ← fields.list "policies" PolicyEntry.ofJson?
  some { policies }

end PolicyList

namespace LeaseList

/-- The field names of a list of leases. -/
def fieldNames : List String := ["resource", "revision", "leases", "stats"]

/-- The list of leases that a JSON value shows. -/
def ofJson? (v : Value) : Option LeaseList := do
  let fields ← v.fields? fieldNames
  let resource ← fields.optional "resource" Value.asText
  let revision ← fields.optional "revision" Value.asUInt64
  let leases ← fields.list "leases" LeaseEntry.ofJson?
  let statistics ← fields.optional "stats" Statistics.ofJson?
  some { resource, revision, leases, statistics }

end LeaseList

namespace Event

/-- The event of a name that a JSON value shows; nothing for a name that is not an event's. -/
def ofJson? (name : String) (v : Value) : Option Event :=
  if name = "policies" then (PolicyList.ofJson? v).map policies
  else if name = "leases" then (LeaseList.ofJson? v).map leases
  else none

/-- Whether a name is the name of an event. -/
def isName (name : String) : Bool := name = "policies" || name = "leases"

/-- Reads the payload of a named event.  Events of other names are passed over unread. -/
def decode (name payload : String) : Except Rejection (Option Event) :=
  if isName name then
    match (Value.parse? payload.toList).bind (ofJson? name) with
    | some event => .ok (some event)
    | none => .error (.undecodable name)
  else .ok none

theorem decode_eq_ok_none_iff (name payload : String) :
    decode name payload = .ok none ↔ isName name = false := by
  unfold decode
  split
  case isTrue h =>
    split <;> simp [h]
  case isFalse h => simp [h]

/-- The document of a value is read as the value is. -/
theorem decode_of_render {name payload : String} {v : Value} (hname : isName name = true)
    (h : payload.toList = v.render) :
    decode name payload =
      match ofJson? name v with
      | some event => .ok (some event)
      | none => .error (.undecodable name) := by
  rw [decode, if_pos hname, h, Value.parse?_render]
  rfl

theorem name_of_ofJson? {name : String} {v : Value} {event : Event}
    (h : ofJson? name v = some event) : event.name = name := by
  unfold ofJson? at h
  split at h
  case isTrue hname =>
    obtain ⟨list, -, rfl⟩ := Option.map_eq_some_iff.1 h
    exact hname.symm
  case isFalse =>
    split at h
    case isTrue hname =>
      obtain ⟨list, -, rfl⟩ := Option.map_eq_some_iff.1 h
      exact hname.symm
    case isFalse => simp at h

/-- A decoded event has the name under which it was sent. -/
theorem name_of_decode {name payload : String} {event : Event}
    (h : decode name payload = .ok (some event)) : event.name = name := by
  unfold decode at h
  split at h
  case isTrue =>
    split at h
    case h_1 e hread =>
      obtain ⟨v, -, hv⟩ := Option.bind_eq_some_iff.1 hread
      simp only [Except.ok.injEq, Option.some.injEq] at h
      exact h ▸ name_of_ofJson? hv
    case h_2 => simp at h
  case isFalse => simp at h

end Event

end LeaseBoard
