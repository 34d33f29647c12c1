import LeaseBoard.Time.Label
set_option autoImplicit false

/-!
# Instructions to a display

What a board tells a display: rows of two tables come, change and go, relative labels are drawn
again for a new instant, and the state of the connection changes.  A cell with a relative time
carries the instant itself, so that a display can draw its label at any time.
-/

namespace LeaseBoard

/-- The two tables of a display. -/
inductive Table where
  | policies
  | leases
  deriving DecidableEq, Repr, Inhabited

/-- One column of a row: text, the time since an instant or the time until an instant. -/
inductive Cell where
  | text (value : String)
  | elapsed (start : Option Instant)
  | remaining (finish : Option Instant)
  deriving DecidableEq, Repr

/-- The text that a cell shows at an instant; nothing for a relative time when no instant is
given. -/
def Cell.label? (now : Option Instant) : Cell → Option String
  | text value => some value
  | elapsed none => some ""
  | remaining none => some ""
  | elapsed (some start) => now.map fun now => spanLabel (spanBetween start now)
  | remaining (some finish) => now.map fun now => spanLabel (spanBetween now finish)

/-- The text that a cell shows at an instant. -/
def Cell.label (now : Instant) : Cell → String
  | text value => value
  | elapsed none => ""
  | remaining none => ""
  | elapsed (some start) => spanLabel (spanBetween start now)
  | remaining (some finish) => spanLabel (spanBetween now finish)

theorem Cell.label?_some (now : Instant) (c : Cell) : c.label? (some now) = some (c.label now) := by
  cases c with
  | text => rfl
  | elapsed t => cases t <;> rfl
  | remaining t => cases t <;> rfl

/-- The state of the connection to the stream. -/
inductive Connection where
  | connected
  | interrupted (reason : String)
  deriving DecidableEq, Repr, Inhabited

/-- What a display is told. -/
inductive Instruction where
  | add (table : Table) (id : String) (cells : List Cell)
  | update (table : Table) (id : String) (cells : List Cell)
  | remove (table : Table) (id : String)
  | refresh (now : Instant)
  | connection (status : Connection)
  deriving DecidableEq, Repr

/-- The table that an instruction is for, if it is for one. -/
def Instruction.table? : Instruction → Option Table
  | .add table _ _ => some table
  | .update table _ _ => some table
  | .remove table _ => some table
  | .refresh _ => none
  | .connection _ => none

/-- A kind of row that a table shows. -/
class Tabled (α : Type) where
  table : Table
  id : α → String
  cells : α → List Cell

/-- The instruction that makes a row appear. -/
def Tabled.addition {α : Type} [Tabled α] (row : α) : Instruction :=
  .add (table α) (id row) (cells row)

/-- The instruction that draws a row anew. -/
def Tabled.revision {α : Type} [Tabled α] (row : α) : Instruction :=
  .update (table α) (id row) (cells row)

/-- The instruction that makes a row of a kind disappear. -/
def Tabled.removal (α : Type) [Tabled α] (id : String) : Instruction := .remove (table α) id

/-! ## Changes -/

/-- What a new list of rows does to a table: the rows that come, the rows that are drawn anew, and
the identities that go. -/
structure Change (α : Type) where
  added : List α
  updated : List α
  removed : List String
  deriving DecidableEq, Repr

namespace Change

variable {α : Type}

/-- Whether nothing changes. -/
def isEmpty (c : Change α) : Bool := c.added.isEmpty && c.updated.isEmpty && c.removed.isEmpty

/-- The instructions of a change: what comes, what is drawn anew, what goes. -/
def instructions [Tabled α] (c : Change α) : List Instruction :=
  c.added.map Tabled.addition ++ c.updated.map Tabled.revision ++ c.removed.map (Tabled.removal α)

end Change

end LeaseBoard
