import LeaseBoard.Feed.Machine
set_option autoImplicit false

/-!
# Lines as they arrive

A line ends with a carriage return, a line feed, or the two in this order.  A carriage return ends
its line only when the next character has come, because a line feed would belong to it.  Main
statement: `feedChars_append`, a text may be cut anywhere.
-/

namespace LeaseBoard.Feed

/-- The characters of an unfinished line, newest first, and whether a carriage return has come that
still waits for the character after it. -/
structure LineReader where
  held : List Char
  returned : Bool
  deriving DecidableEq, Repr

namespace LineReader

/-- A reader at the start of a line. -/
def start : LineReader := ⟨[], false⟩

instance : Inhabited LineReader := ⟨start⟩

/-- Takes a character that does not follow a waiting carriage return. -/
def pushFresh (held : List Char) (c : Char) : LineReader × Option (List Char) :=
  if c = '\n' then (start, some held.reverse)
  else if c = '\r' then (⟨held, true⟩, none)
  else (⟨c :: held, false⟩, none)

/-- Takes a character and gives the line that ends with it or before it. -/
def push (r : LineReader) (c : Char) : LineReader × Option (List Char) :=
  if r.returned then
    if c = '\n' then (start, some r.held.reverse)
    else ((pushFresh [] c).1, some r.held.reverse)
  else pushFresh r.held c

/-- The reader after a text, and the lines that ended in it. -/
def feedChars (r : LineReader) (cs : List Char) : LineReader × List (List Char) := feed push r cs

theorem feedChars_append (r : LineReader) (as bs : List Char) :
    r.feedChars (as ++ bs) =
      (((r.feedChars as).1.feedChars bs).1,
        (r.feedChars as).2 ++ ((r.feedChars as).1.feedChars bs).2) :=
  feed_append push r as bs

end LineReader

end LeaseBoard.Feed
