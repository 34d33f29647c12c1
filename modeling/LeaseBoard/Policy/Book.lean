import LeaseBoard.Arrival
import LeaseBoard.Policy.Basic
set_option autoImplicit false

/-!
# The book of policies

The policies in force, by resource.  A list of policies replaces the book and keeps the statistics
of the resources that stay; statistics come on their own and reach only a resource that has a policy.  Main statements:
`get?_replace` and `get?_of_report`, the book after each of the two as a function of the one before
it.
-/

namespace LeaseBoard

/-- The policies of a list of entries, or why the first bad entry is turned down.  Where a resource
repeats, the last entry counts, in the place of the first. -/
def Policy.collect (entries : List PolicyEntry) : Except Failure (List Policy) :=
  (entries.mapM Policy.ofEntry).map (Arrival.collect Policy.resource)

/-- The policies in force, by resource. -/
abbrev Book := Keyed Policy

namespace Book

/-- A policy with the statistics that the book holds for its resource. -/
def withStatistics (book : Book) (policy : Policy) : Policy :=
  match book.get? policy.resource with
  | some known => { policy with statistics := known.statistics }
  | none => policy

/-- Replaces the book by a list of policies. -/
def replace (book : Book) (policies : List Policy) : Change Policy × Book :=
  let policies := policies.map book.withStatistics
  ({ added := policies.filter fun policy => !book.contains policy.resource
     updated := policies.filter fun policy => book.contains policy.resource
     removed := (book.filter fun resource _ =>
       !(policies.map Policy.resource).contains resource).keys },
   Keyed.ofList (policies.map fun policy => (policy.resource, policy)))

/-- Puts the latest statistics of a resource into its policy, if it has one. -/
def report (book : Book) (resource : String) (statistics : Statistics) : Option (Policy × Book) :=
  (book.get? resource).map fun policy =>
    let policy := { policy with statistics := some statistics }
    (policy, book.insert resource policy)

theorem resource_withStatistics (book : Book) (policy : Policy) :
    (book.withStatistics policy).resource = policy.resource := by
  unfold withStatistics
  split <;> rfl

/-- The book after a list of policies: the last policy listed for a resource, with the statistics
that the book held for it. -/
theorem get?_replace (book : Book) (policies : List Policy) (resource : String) :
    (book.replace policies).2.get? resource =
      (policies.reverse.find? fun policy => policy.resource = resource).map book.withStatistics := by
  simp only [replace, Keyed.get?_ofList, ← List.map_reverse]
  induction policies.reverse with
  | nil => rfl
  | cons policy rest ih =>
    simp only [List.map_cons, List.lookup_cons, resource_withStatistics, List.find?_cons, ih]
    by_cases h : policy.resource = resource
    · simp [h]
    · have hne : (resource == policy.resource) = false := by simp [Ne.symm h]
      simp [h, hne]

/-- Statistics change the policy of their resource and no other. -/
theorem get?_of_report {book after : Book} {resource : String} {statistics : Statistics}
    {policy : Policy} (h : book.report resource statistics = some (policy, after)) (key : String) :
    after.get? key = if resource = key then some policy else book.get? key := by
  obtain ⟨known, -, hpair⟩ := Option.map_eq_some_iff.1 h
  obtain ⟨rfl, rfl⟩ := Prod.mk.inj hpair
  exact Keyed.get?_insert book resource key _

end Book

end LeaseBoard
