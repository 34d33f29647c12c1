import LeaseBoard.Feed.Signal
set_option autoImplicit false

/-!
# Writing an event stream

The lines that send a message, the text of lines with either line ending, and the frames that a
reader makes of the messages of a stream.
-/

namespace LeaseBoard.Feed

/-- A message to send: an identity or a retry time is written only if it is given. -/
structure Message where
  event : String
  data : String
  id : Option String
  retry : Option UInt64
  deriving DecidableEq, Repr

/-- The two line endings of a written stream. -/
inductive LineEnding where
  | lineFeed
  | both
  deriving DecidableEq, Repr

/-- The characters of a line ending. -/
def LineEnding.chars : LineEnding → List Char
  | lineFeed => ['\n']
  | both => ['\r', '\n']

/-- The text of lines, each with its ending. -/
def textOfLines (ending : LineEnding) (lines : List (List Char)) : List Char :=
  lines.flatMap fun line => line ++ ending.chars

/-- A field line. -/
def fieldLine (name : String) (value : List Char) : List Char :=
  name.toList ++ ':' :: ' ' :: value

/-- The pieces of a text between its line feeds. -/
def pieces : List Char → List (List Char)
  | [] => [[]]
  | c :: rest =>
    if c = '\n' then [] :: pieces rest
    else
      match pieces rest with
      | [] => [[c]]
      | first :: others => (c :: first) :: others

/-- Whether a line is a comment. -/
def isComment (line : List Char) : Bool := line.head? = some ':'

namespace Message

/-- The lines that send a message. -/
def lines (m : Message) : List (List Char) :=
  [fieldLine "event" m.event.toList] ++
    (m.id.toList.map fun id => fieldLine "id" id.toList) ++
    (m.retry.toList.map fun ms => fieldLine "retry" (Numeral.digits ms.toNat)) ++
    (pieces m.data.toList).map (fieldLine "data") ++ [[]]

/-- The frames of the messages of a stream, with the identity in force before them. -/
def frames (inForce : String) : List Message → List Frame
  | [] => []
  | m :: rest =>
    let id := m.id.getD inForce
    Frame.ofParts m.event m.data id m.retry :: frames id rest

/-- A message that can be written: its parts fit on their lines, and its identity is not one that a
reader would ignore. -/
def Writable (m : Message) : Prop :=
  (∀ c ∈ m.event.toList, c ≠ '\n' ∧ c ≠ '\r') ∧ (∀ c ∈ m.data.toList, c ≠ '\r') ∧
    ∀ id ∈ m.id, ∀ c ∈ id.toList, c ≠ '\n' ∧ c ≠ '\r' ∧ c ≠ '\x00'

end Message

end LeaseBoard.Feed
