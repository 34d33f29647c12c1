import LeaseBoard.Instruction
import LeaseBoard.Ranking
import LeaseBoard.Rejection
import LeaseBoard.Time.Stamp
import LeaseBoard.Wire.Entry
set_option autoImplicit false

/-!
# Leases

A lease as the board keeps it, and how it comes from an entry of the stream.  A lease without an
instance identity or without a resource is turned down.

An active lease expires a duration and a decay after its last renewal, a released one a decay after
its release; no other lease expires.  Instants up to the end of the year one mean that no instant is
set.  The time at which the holding process began replaces the start for display only; expiry runs
from the lease's own times.
-/

namespace LeaseBoard

/-! ## Status -/

/-- The status of a lease. -/
inductive Status where
  | active
  | released
  | queued
  | other (name : String)
  deriving DecidableEq, Repr, Inhabited

namespace Status

/-- The status with a name. -/
def ofName (name : String) : Status :=
  if name = "active" then active
  else if name = "released" then released
  else if name = "queued" then queued
  else other name

/-- The name of a status. -/
def name : Status → String
  | active => "active"
  | released => "released"
  | queued => "queued"
  | other name => name

theorem name_ofName (text : String) : (ofName text).name = text := by
  unfold ofName
  split
  case isTrue h => exact h.symm
  case isFalse =>
    split
    case isTrue h => exact h.symm
    case isFalse =>
      split
      case isTrue h => exact h.symm
      case isFalse => rfl

end Status

/-! ## Expiry -/

/-- An instant moved by a span, if it stays in the calendar. -/
def Instant.addSpan (t : Instant) (span : Int64) : Except Failure Instant :=
  match t.add? span.toInt with
  | some moved => .ok moved
  | none => .error .outOfCalendar

/-- The instant at which a lease renewed at a given instant runs out: a duration later, and a decay
after that. -/
def nominalExpiry (renewed : Option Instant) (duration decay : Int64) :
    Except Failure (Option Instant) :=
  match renewed with
  | none => .ok none
  | some t => do
    let t ← t.addSpan duration
    let t ← t.addSpan decay
    .ok (some t)

/-- The instant at which a lease expires, if its status lets it expire and the instant that it
counts from is set.  A release whose instant is not set counts like no release. -/
def expiryOf (status : Status) (renewed released : Option Instant) (duration decay : Int64) :
    Except Failure (Option Instant) :=
  match status with
  | .active => nominalExpiry renewed duration decay
  | .released =>
    match released with
    | some t => (t.addSpan decay).map some
    | none => nominalExpiry renewed duration decay
  | .queued => .ok none
  | .other _ => .ok none

/-- An instant that is set: one after the end of the year one. -/
def setInstant? (t : Option Instant) : Option Instant := t.filter fun t => 1 < t.year

/-! ## Leases -/

/-- A lease on the board. -/
structure Lease where
  id : String
  resource : String
  program : String
  user : String
  host : String
  process : String
  status : Status
  started : Option Instant
  renewed : Option Instant
  released : Option Instant
  duration : Int64
  decay : Int64
  expiry : Option Instant
  deriving DecidableEq, Repr

/-- A text that is given and not empty. -/
def nonempty? (text : Option String) : Option String := text.filter (· ≠ "")

namespace LeaseEntry

/-- The identity of the instance that holds the lease. -/
def id? (entry : LeaseEntry) : Option String := nonempty? (entry.holder.bind (·.id))

/-- The resource of the lease. -/
def resource? (entry : LeaseEntry) : Option String := nonempty? entry.resource

/-- The start to show: that of the process if it is given in the strict grammar, else that of the
lease. -/
def shownStart (entry : LeaseEntry) : Option Instant :=
  ((Ranking.processCreation.find? entry.properties).bind Instant.ofStrict?).or
    (setInstant? entry.started)

/-- The last renewal, or the start if there was none. -/
def lastRenewal (entry : LeaseEntry) : Option Instant :=
  (setInstant? entry.renewed).or (setInstant? entry.started)

end LeaseEntry

namespace Lease

/-- The lease of an entry with a given identity, resource and instant of expiry. -/
def ofParts (entry : LeaseEntry) (id resource : String) (expiry : Option Instant) : Lease where
  id := id
  resource := resource
  program := Ranking.program.resolve entry.properties (some resource)
  user := Ranking.user.resolve entry.properties (entry.holder.bind (·.user))
  host := Ranking.host.resolve entry.properties (entry.holder.bind (·.host))
  process := Ranking.process.resolve entry.properties none
  status := Status.ofName entry.status
  started := entry.shownStart
  renewed := entry.lastRenewal
  released := setInstant? entry.released
  duration := entry.duration
  decay := entry.decay
  expiry := expiry

/-- The lease of an entry. -/
def ofEntry (entry : LeaseEntry) : Except Failure Lease :=
  match entry.id? with
  | none => .error (.rejected .missingInstance)
  | some id =>
    match entry.resource? with
    | none => .error (.rejected (.missingLeaseResource id))
    | some resource =>
      (expiryOf (Status.ofName entry.status) entry.lastRenewal (setInstant? entry.released)
        entry.duration entry.decay).map (ofParts entry id resource)

/-- Whether the lease has expired: from its instant of expiry on. -/
def isExpired (lease : Lease) (now : Instant) : Bool :=
  match lease.expiry with
  | some t => t ≤ now
  | none => false

/-- The columns of a lease. -/
def cells (lease : Lease) : List Cell :=
  [.text lease.program, .text lease.user, .text lease.host, .text lease.process,
   .text lease.status.name, .elapsed lease.started, .remaining lease.expiry]

instance : Tabled Lease := ⟨.leases, Lease.id, Lease.cells⟩

/-- Once expired, a lease stays so. -/
theorem isExpired_mono {lease : Lease} {now later : Instant} (hle : now ≤ later)
    (h : lease.isExpired now = true) : lease.isExpired later = true := by
  unfold isExpired at *
  split at h
  · exact decide_eq_true (Instant.le_trans (of_decide_eq_true h) hle)
  · exact h

end Lease

end LeaseBoard
