import LeaseBoard.Arrival
import LeaseBoard.Lease.Basic
set_option autoImplicit false

/-!
# The roster of leases

The leases in force, by identity.  `collect` makes leases of entries, `update` puts a list of leases
on the roster, and `expire` takes off the leases that have expired.  Main statement: `get?_update`,
the roster after an update as a function of the one before it.
-/

namespace LeaseBoard

/-- The leases of a list of entries, or why the first bad entry is turned down.  Where an identity
repeats, the last entry counts, in the place of the first. -/
def Lease.collect (entries : List LeaseEntry) : Except Failure (List Lease) :=
  (entries.mapM Lease.ofEntry).map (Arrival.collect Lease.id)

/-- The leases in force, by identity. -/
abbrev Roster := Keyed Lease

namespace Roster

/-- Whether a lease is one of a scope: leases of the resource if the scope names one, none if it
does not. -/
def inScope (scope : Option String) (lease : Lease) : Bool := scope = some lease.resource

/-- Puts leases on the roster.  With a scope, the leases of that resource that are not listed go;
a listed lease that has expired counts as not listed, and goes whatever its resource. -/
def update (roster : Roster) (scope : Option String) (leases : List Lease) (now : Instant) :
    Change Lease × Roster :=
  let live := leases.filter fun lease => !lease.isExpired now
  let expired := leases.filter fun lease => lease.isExpired now
  let goes := fun (id : String) (lease : Lease) =>
    (inScope scope lease || (expired.map Lease.id).contains id) && !(live.map Lease.id).contains id
  let kept := roster.filter fun id lease => !goes id lease
  ({ added := live.filter fun lease => !roster.contains lease.id
     updated := live.filter fun lease => roster.contains lease.id
     removed := (roster.filter goes).keys },
   live.foldl (fun table lease => table.insert lease.id lease) kept)

/-- The identities that have expired, in ascending order, and the roster without them. -/
def expire (roster : Roster) (now : Instant) : List String × Roster :=
  ((roster.filter fun _ lease => lease.isExpired now).keys,
   roster.filter fun _ lease => !lease.isExpired now)

/-- The roster after an update: a listed lease that is live is there; any other lease stays unless
it is listed as expired or left out of its resource's list. -/
theorem get?_update (roster : Roster) (scope : Option String) (leases : List Lease) (now : Instant)
    (id : String) :
    (roster.update scope leases now).2.get? id =
      let live := leases.filter fun lease => !lease.isExpired now
      (live.reverse.find? fun lease => lease.id = id).or
        ((roster.get? id).filter fun lease =>
          !((inScope scope lease || ((leases.filter fun lease => lease.isExpired now).map
            Lease.id).contains id) && !(live.map Lease.id).contains id)) := by
  simp only [update, Keyed.get?_foldl_insert Lease.id, Keyed.get?_filter]

end Roster

end LeaseBoard
