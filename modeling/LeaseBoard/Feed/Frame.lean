import LeaseBoard.Feed.Machine
import LeaseBoard.Text.Numeral
set_option autoImplicit false

/-!
# Frames of an event stream

A frame is built from field lines and sent by a blank line.  Name, data and retry time belong to one
frame; the identity stays for the frames after it.  A frame without a data line is not sent.
-/

namespace LeaseBoard.Feed

/-- A named message of the stream, with the identity and the retry time in milliseconds that came
with it. -/
structure Frame where
  event : String
  data : String
  id : Option String
  retry : Option UInt64
  deriving DecidableEq, Repr, Inhabited

/-- The frame of the parts that a stream gives: an empty name means `message`, an empty identity
means none. -/
def Frame.ofParts (event data id : String) (retry : Option UInt64) : Frame where
  event := if event = "" then "message" else event
  data := data
  id := if id = "" then none else some id
  retry := retry

/-! ## Field lines -/

/-- The name and the value of a field line.  The name ends at the first colon, and one space after
the colon is dropped; a line that starts with a colon is a comment. -/
def fieldOfLine (line : List Char) : Option (String × List Char) :=
  match line with
  | ':' :: _ => none
  | _ =>
    let value :=
      match line.dropWhile (· ≠ ':') with
      | ':' :: ' ' :: value => value
      | ':' :: value => value
      | _ => []
    some (String.ofList (line.takeWhile (· ≠ ':')), value)

/-- The retry time that a field value shows: digits after an optional plus sign, within sixty-four
bits. -/
def retryOfValue? (value : List Char) : Option UInt64 :=
  let digits := match value with
    | '+' :: rest => rest
    | _ => value
  match Numeral.parse? digits with
  | some n => if n < UInt64.size then some (UInt64.ofNat n) else none
  | none => none

/-! ## Building frames -/

/-- The fields of the frame that is being built, its data lines newest first, and the identity in
force. -/
structure FrameReader where
  name : List Char
  data : List (List Char)
  id : List Char
  retry : Option UInt64
  deriving DecidableEq, Repr

namespace FrameReader

/-- A reader at the start of a stream. -/
def start : FrameReader := ⟨[], [], [], none⟩

instance : Inhabited FrameReader := ⟨start⟩

/-- Takes a field. -/
def field (r : FrameReader) (name : String) (value : List Char) : FrameReader :=
  if name = "event" then { r with name := value }
  else if name = "data" then { r with data := value :: r.data }
  else if name = "id" then if '\x00' ∈ value then r else { r with id := value }
  else if name = "retry" then
    match retryOfValue? value with
    | some ms => { r with retry := some ms }
    | none => r
  else r

/-- The data lines, oldest first, with a line feed between two of them. -/
def joinData (lines : List (List Char)) : List Char :=
  match lines.reverse with
  | [] => []
  | first :: rest => first ++ rest.flatMap ('\n' :: ·)

/-- The frame that a blank line sends, if it has a data line. -/
def dispatch (r : FrameReader) : Option Frame :=
  if r.data = [] then none
  else
    some (Frame.ofParts (String.ofList r.name) (String.ofList (joinData r.data))
      (String.ofList r.id) r.retry)

/-- Takes a line and gives the frame that it sends. -/
def push (r : FrameReader) (line : List Char) : FrameReader × Option Frame :=
  if line = [] then ({ start with id := r.id }, r.dispatch)
  else
    match fieldOfLine line with
    | some (name, value) => (r.field name value, none)
    | none => (r, none)

/-- The reader after a list of lines, and the frames that were sent. -/
def feedLines (r : FrameReader) (lines : List (List Char)) : FrameReader × List Frame :=
  feed push r lines

/-- The identity stays in force after a frame. -/
theorem id_push_nil (r : FrameReader) : (r.push []).1.id = r.id := rfl

end FrameReader

end LeaseBoard.Feed
