import LeaseBoard.Keyed
set_option autoImplicit false

/-!
# Ranked property keys

A display field is filled from the first of several property keys, in order of rank, that has a
value.  An empty value counts as none.
-/

namespace LeaseBoard

/-- Property keys in order of rank. -/
structure Ranking where
  keys : List String
  deriving DecidableEq, Repr

namespace Ranking

/-- The value of the highest ranked key that has one. -/
def find? (r : Ranking) (properties : Option (Keyed String)) : Option String :=
  properties.bind fun table => r.keys.findSome? fun key => (table.get? key).filter (· ≠ "")

/-- The value of the highest ranked key that has one, or a default, or the empty text. -/
def resolve (r : Ranking) (properties : Option (Keyed String)) (default : Option String) : String :=
  ((r.find? properties).or default).getD ""

/-- The keys for the program of a lease or a policy. -/
def program : Ranking := ⟨["resource.name", "program.name"]⟩

/-- The keys for the user of a lease. -/
def user : Ranking := ⟨["user.account", "user.id"]⟩

/-- The key for the host of a lease. -/
def host : Ranking := ⟨["host.name"]⟩

/-- The key for the process that holds a lease. -/
def process : Ranking := ⟨["process.id"]⟩

/-- The key for the time at which that process began. -/
def processCreation : Ranking := ⟨["process.creation"]⟩

theorem find?_ne_empty {r : Ranking} {properties : Option (Keyed String)} {value : String}
    (h : r.find? properties = some value) : value ≠ "" := by
  obtain ⟨table, -, hfind⟩ := Option.bind_eq_some_iff.1 h
  obtain ⟨key, -, hkey⟩ := List.exists_of_findSome?_eq_some hfind
  simpa using (Option.filter_eq_some_iff.1 hkey).2

end Ranking

end LeaseBoard
