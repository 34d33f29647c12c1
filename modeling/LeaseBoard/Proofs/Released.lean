import LeaseBoard.Lease.Roster
set_option autoImplicit false

/-!
# Released leases

The announcement of one lease that was released at the start of a day and is to be taken off five
seconds later, whatever its instance and its resource are.  Other modules show on such announcements what
becomes of a board.  Main statement: `Lease.collect_releasedList`.
-/

namespace LeaseBoard

/-- An instant of the first day of 1970. -/
def atSecond (second : Int) : Instant :=
  ((default : Instant).add? ((719_162 * 86_400 + second) * 1_000_000_000)).getD default

/-- A lease of one resource, released at the start of that day and to be taken off after five
seconds. -/
def releasedEntry (holder resource : String) : LeaseEntry where
  holder := some ⟨some holder, none, none⟩
  resource := some resource
  status := "released"
  started := none
  renewed := none
  released := some (atSecond 0)
  duration := 0
  decay := 5_000_000_000
  properties := none

/-- The list of one released lease. -/
def releasedList (holder resource : String) (revision : Option UInt64) : LeaseList :=
  ⟨some resource, revision, [releasedEntry holder resource], none⟩

variable {holder resource : String}

/-- The entry makes a lease that has expired from the fifth second on. -/
theorem Lease.ofEntry_releasedEntry (hholder : holder ≠ "") (hresource : resource ≠ "") :
    ofEntry (releasedEntry holder resource) =
      .ok (ofParts (releasedEntry holder resource) holder resource (some (atSecond 5))) := by
  have hid : (releasedEntry holder resource).id? = some holder := by
    simp [LeaseEntry.id?, nonempty?, releasedEntry, hholder]
  have hnamed : (releasedEntry holder resource).resource? = some resource := by
    simp [LeaseEntry.resource?, nonempty?, releasedEntry, hresource]
  have hend : expiryOf (Status.ofName "released") (releasedEntry holder resource).lastRenewal
      (setInstant? (some (atSecond 0))) 0 5_000_000_000 = .ok (some (atSecond 5)) := rfl
  simp only [ofEntry, hid, hnamed]
  exact congrArg (Except.map _) hend

theorem Lease.collect_releasedList (hholder : holder ≠ "") (hresource : resource ≠ "")
    (revision : Option UInt64) : collect (releasedList holder resource revision).leases =
      .ok [ofParts (releasedEntry holder resource) holder resource (some (atSecond 5))] := by
  simp only [collect, releasedList, List.mapM_cons, ofEntry_releasedEntry hholder hresource]
  rfl

end LeaseBoard
