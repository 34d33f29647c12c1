import LeaseBoard.Feed.Frame
import LeaseBoard.Feed.Line
import LeaseBoard.Feed.Utf8
set_option autoImplicit false

/-!
# From a byte stream to signals

A stream delivers chunks of bytes and failures.  A failure becomes an interruption at its place and
does not disturb what is being read; bytes at the end that are no text become one more interruption.
A stream whose text starts with a byte order mark cannot be read: its transcript ends there as
broken.
-/

namespace LeaseBoard.Feed

/-- What a stream delivers at a time. -/
inductive Item where
  | chunk (bytes : List UInt8)
  | failure (reason : String)
  deriving DecidableEq, Repr

/-- What a stream announces. -/
inductive Signal where
  | frame (frame : Frame)
  | interrupted (reason : String)
  deriving DecidableEq, Repr

/-- The reader of a stream: bytes that spell no character yet, whether a character has come, the
unfinished line, and the frame that is being built. -/
structure Decoder where
  bytes : List UInt8
  started : Bool
  line : LineReader
  frame : FrameReader
  deriving DecidableEq, Repr

namespace Decoder

/-- A reader at the start of a stream. -/
def start : Decoder := ⟨[], false, .start, .start⟩

instance : Inhabited Decoder := ⟨start⟩

/-- The byte order mark. -/
def byteOrderMark : Char := '\uFEFF'

/-- Takes characters and gives the frames that they complete. -/
def feedChars (d : Decoder) (cs : List Char) : Decoder × List Frame :=
  let lines := d.line.feedChars cs
  let frames := d.frame.feedLines lines.2
  ({ d with started := d.started || !cs.isEmpty, line := lines.1, frame := frames.1 }, frames.2)

/-- Takes bytes and gives the frames that they complete; nothing if the stream turns out to start
with a byte order mark. -/
def feedBytes (d : Decoder) (bytes : List UInt8) : Option (Decoder × List Frame) :=
  let text := Utf8.feedBytes d.bytes bytes
  if !d.started && text.2.head? = some byteOrderMark then none
  else some ({ d with bytes := text.1 }.feedChars text.2)

/-- The interruption at the end of a stream, if bytes are left that are no text. -/
def finish (d : Decoder) : List Signal :=
  if d.bytes = [] then []
  else [.interrupted (Utf8.defect d.bytes.reverse).message]

end Decoder

/-- The signals of a stream, in order, and whether the stream broke off because it cannot be
read. -/
structure Transcript where
  signals : List Signal
  broken : Bool
  deriving DecidableEq, Repr

/-- The transcript of what is still to come. -/
def Decoder.read (d : Decoder) : List Item → Transcript
  | [] => ⟨d.finish, false⟩
  | .failure reason :: rest =>
    let later := d.read rest
    { later with signals := .interrupted reason :: later.signals }
  | .chunk bytes :: rest =>
    match d.feedBytes bytes with
    | none => ⟨[], true⟩
    | some (d, frames) =>
      let later := d.read rest
      { later with signals := frames.map .frame ++ later.signals }

/-- The transcript of a stream. -/
def transcript (items : List Item) : Transcript := Decoder.start.read items

end LeaseBoard.Feed
