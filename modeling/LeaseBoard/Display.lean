import LeaseBoard.Arrival
import LeaseBoard.Instruction
set_option autoImplicit false

/-!
# Displays

A display does what it is told and keeps nothing else: two tables of rows in the order in which they
came, with the text that each cell showed when it was last drawn.  Relative times are drawn for the
instant of the last refresh; before the first refresh they show nothing yet.

Main statement: `rows_apply_of_ne`, an instruction for one table leaves the other alone.
-/

namespace LeaseBoard

/-- A row as it is shown. -/
structure ShownRow where
  id : String
  cells : List Cell
  labels : List (Option String)
  deriving DecidableEq, Repr

namespace ShownRow

/-- A row drawn for an instant. -/
def draw (now : Option Instant) (id : String) (cells : List Cell) : ShownRow :=
  ⟨id, cells, cells.map (Cell.label? now)⟩

/-- A row drawn anew for an instant. -/
def redraw (now : Option Instant) (row : ShownRow) : ShownRow := draw now row.id row.cells

end ShownRow

/-- What a display shows, and the instant of its last refresh. -/
structure Display where
  policies : List ShownRow
  leases : List ShownRow
  connection : Connection
  drawnAt : Option Instant
  deriving DecidableEq, Repr

namespace Display

/-- The display before any instruction. -/
def empty : Display := ⟨[], [], .connected, none⟩

instance : Inhabited Display := ⟨empty⟩

/-- The rows of a table. -/
def rows (d : Display) : Table → List ShownRow
  | .policies => d.policies
  | .leases => d.leases

/-- Changes the rows of a table. -/
def withRows (d : Display) (table : Table) (f : List ShownRow → List ShownRow) : Display :=
  match table with
  | .policies => { d with policies := f d.policies }
  | .leases => { d with leases := f d.leases }

/-- The row of a table with an identity. -/
def row? (d : Display) (table : Table) (id : String) : Option ShownRow :=
  (d.rows table).find? fun row => row.id = id

/-- The identities of the rows of a table, in order. -/
def ids (d : Display) (table : Table) : List String := (d.rows table).map ShownRow.id

/-- Replaces the row with an identity, if it is there. -/
def replaceRow (row : ShownRow) (rows : List ShownRow) : List ShownRow :=
  rows.map fun old => if old.id = row.id then row else old

/-- Does what an instruction says. -/
def apply (d : Display) : Instruction → Display
  | .add table id cells =>
    d.withRows table (Arrival.put ShownRow.id (.draw d.drawnAt id cells))
  | .update table id cells => d.withRows table (replaceRow (.draw d.drawnAt id cells))
  | .remove table id => d.withRows table fun rows => rows.filter fun row => row.id ≠ id
  | .refresh now =>
    { d with
      policies := d.policies.map (.redraw (some now))
      leases := d.leases.map (.redraw (some now))
      drawnAt := some now }
  | .connection status => { d with connection := status }

/-- Does what a list of instructions says. -/
def applyAll (d : Display) (instructions : List Instruction) : Display :=
  instructions.foldl apply d

theorem applyAll_append (d : Display) (xs ys : List Instruction) :
    d.applyAll (xs ++ ys) = (d.applyAll xs).applyAll ys := List.foldl_append

theorem rows_withRows (d : Display) (table other : Table) (f : List ShownRow → List ShownRow) :
    (d.withRows table f).rows other = if table = other then f (d.rows other) else d.rows other := by
  cases table <;> cases other <;> rfl

/-- An instruction for one table leaves the other alone. -/
theorem rows_apply_of_ne {d : Display} {i : Instruction} {table other : Table}
    (hi : i.table? = some table) (hne : table ≠ other) : (d.apply i).rows other = d.rows other := by
  cases i with
  | add t id cells =>
    obtain rfl := Option.some.inj hi
    simp [apply, rows_withRows, hne]
  | update t id cells =>
    obtain rfl := Option.some.inj hi
    simp [apply, rows_withRows, hne]
  | remove t id =>
    obtain rfl := Option.some.inj hi
    simp [apply, rows_withRows, hne]
  | refresh now => simp [Instruction.table?] at hi
  | connection status => simp [Instruction.table?] at hi

theorem ids_redraw (now : Option Instant) (rows : List ShownRow) :
    (rows.map (.redraw now)).map ShownRow.id = rows.map ShownRow.id := by
  rw [List.map_map]
  rfl

theorem ids_replaceRow (row : ShownRow) (rows : List ShownRow) :
    (replaceRow row rows).map ShownRow.id = rows.map ShownRow.id := by
  rw [replaceRow, List.map_map]
  refine List.map_congr_left fun old _ => ?_
  by_cases h : old.id = row.id <;> simp [h]

end Display

end LeaseBoard
