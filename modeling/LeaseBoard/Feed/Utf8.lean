import LeaseBoard.Feed.Machine
set_option autoImplicit false

/-!
# UTF-8 as it arrives

Bytes become characters as soon as they spell one.  The bytes that spell none yet are held back, and
bytes that can spell none hold back all that follow.  Main statements: `charOf?_eq_some_iff` (the
spelling of a character is its encoding), `encode_feedBytes` (no byte is lost: the characters'
encodings and the bytes held back are the bytes that came), `feedBytes_encode` (an encoded text is
read back) and `longest_feedBytes` (the characters are the longest text that the bytes start with).
-/

namespace LeaseBoard.Feed.Utf8

/-- The character that a row of bytes encodes. -/
def charOf? (bytes : List UInt8) : Option Char :=
  match bytes.toByteArray.utf8DecodeChar? 0 with
  | some c => if String.utf8EncodeChar c = bytes then some c else none
  | none => none

theorem charOf?_eq_some_iff {bytes : List UInt8} {c : Char} :
    charOf? bytes = some c ↔ String.utf8EncodeChar c = bytes := by
  constructor
  · intro h
    unfold charOf? at h
    split at h
    · split at h
      · injection h with h
        subst h
        assumption
      · simp at h
    · simp at h
  · rintro rfl
    have hdecode : (String.utf8EncodeChar c).toByteArray.utf8DecodeChar? 0 = some c := by
      have := ByteArray.utf8DecodeChar?_utf8EncodeChar_append (b := ByteArray.empty) (c := c)
      simpa using this
    simp [charOf?, hdecode]

/-- Takes a byte after the bytes held back, newest first: they become a character if they now spell
one.  No character takes more than four bytes. -/
def push (held : List UInt8) (b : UInt8) : List UInt8 × Option Char :=
  if (held.drop 3).isEmpty then
    match charOf? (b :: held).reverse with
    | some c => ([], some c)
    | none => (b :: held, none)
  else (b :: held, none)

/-- The bytes held back after a list of bytes, newest first, and the characters that were spelt. -/
def feedBytes (held : List UInt8) (bytes : List UInt8) : List UInt8 × List Char :=
  feed push held bytes

@[simp] theorem feedBytes_nil (held : List UInt8) : feedBytes held [] = (held, []) := rfl

theorem feedBytes_append (held first second : List UInt8) :
    feedBytes held (first ++ second) =
      ((feedBytes (feedBytes held first).1 second).1,
        (feedBytes held first).2 ++ (feedBytes (feedBytes held first).1 second).2) :=
  feed_append push held first second

/-! ## Reading and writing -/

/-- The bytes of a text. -/
def encode (text : List Char) : List UInt8 := text.flatMap String.utf8EncodeChar

@[simp] theorem encode_nil : encode [] = [] := rfl

theorem encode_cons (c : Char) (rest : List Char) :
    encode (c :: rest) = String.utf8EncodeChar c ++ encode rest := List.flatMap_cons

theorem encode_append (first second : List Char) :
    encode (first ++ second) = encode first ++ encode second := List.flatMap_append

theorem encode_push (held : List UInt8) (b : UInt8) :
    encode (push held b).2.toList ++ (push held b).1.reverse = held.reverse ++ [b] := by
  unfold push
  split
  case isFalse => simp
  case isTrue =>
    split
    case h_1 c hc =>
      have := charOf?_eq_some_iff.1 hc
      simpa [encode] using this
    case h_2 => simp

/-- The encodings of the characters and the bytes held back are the bytes that came. -/
theorem encode_feedBytes (held bytes : List UInt8) :
    encode (feedBytes held bytes).2 ++ (feedBytes held bytes).1.reverse = held.reverse ++ bytes := by
  induction bytes generalizing held with
  | nil => simp
  | cons b rest ih =>
    have hstep := encode_push held b
    simp only [feedBytes, feed] at ih ⊢
    rw [encode_append, List.append_assoc, ih (push held b).1, ← List.append_assoc, hstep]
    simp

/-- No character's encoding starts another's. -/
theorem eq_of_encoding_append {c d : Char} {first second : List UInt8}
    (h : String.utf8EncodeChar c ++ first = String.utf8EncodeChar d ++ second) : c = d := by
  have hdecode : ∀ (e : Char) (rest : List UInt8),
      (String.utf8EncodeChar e ++ rest).toByteArray.utf8DecodeChar? 0 = some e := by
    intro e rest
    rw [List.toByteArray_append]
    exact ByteArray.utf8DecodeChar?_utf8EncodeChar_append
  exact Option.some.inj ((hdecode c first).symm.trans (h ▸ hdecode d second))

/-- The bytes of a character are held back until its last one has come. -/
theorem feedBytes_encoding {c : Char} {come : List UInt8} {b : UInt8} {rest : List UInt8}
    (h : come ++ b :: rest = String.utf8EncodeChar c) :
    feedBytes come.reverse (b :: rest) = ([], [c]) := by
  have hlength : come.length + (rest.length + 1) ≤ 4 := by
    have hsize := congrArg List.length h
    rw [List.length_append, List.length_cons, String.length_utf8EncodeChar] at hsize
    have := c.utf8Size_le_four
    omega
  have hroom : (come.reverse.drop 3).isEmpty = true := by
    simp
    omega
  induction rest generalizing come b with
  | nil =>
    have hspelt : charOf? (come ++ [b]) = some c := charOf?_eq_some_iff.2 h.symm
    simp [feedBytes, feed, push, hroom, hspelt]
  | cons next rest ih =>
    have hunspelt : charOf? (come ++ [b]) = none := by
      rw [Option.eq_none_iff_forall_ne_some]
      intro d hd
      have hspelt := charOf?_eq_some_iff.1 hd
      have hwhole : String.utf8EncodeChar d ++ next :: rest = String.utf8EncodeChar c ++ [] := by
        rw [hspelt, ← h]
        simp
      have hdc := eq_of_encoding_append hwhole
      subst hdc
      simp at hwhole
    have hpush : push come.reverse b = ((come ++ [b]).reverse, none) := by
      simp [push, hroom, hunspelt]
    have hrest : feedBytes (come ++ [b]).reverse (next :: rest) = ([], [c]) := by
      simp only [List.length_cons] at hlength
      apply ih
      · simpa using h
      · simp
        omega
      · simp
        omega
    simp only [feedBytes] at hrest ⊢
    rw [feed, hpush, hrest]
    rfl

/-- An encoded text is read back. -/
theorem feedBytes_encode (text : List Char) : feedBytes [] (encode text) = ([], text) := by
  induction text with
  | nil => rfl
  | cons c rest ih =>
    have hchar : feedBytes [] (String.utf8EncodeChar c) = ([], [c]) := by
      cases hbytes : String.utf8EncodeChar c with
      | nil => exact absurd hbytes (String.utf8EncodeChar_ne_nil)
      | cons b more =>
        have hsplit : [] ++ b :: more = String.utf8EncodeChar c := hbytes.symm
        exact feedBytes_encoding hsplit
    rw [encode_cons, feedBytes_append, hchar, ih]
    rfl

/-- A text is the longest that bytes start with, and these bytes are left over. -/
structure Longest (bytes : List UInt8) (text : List Char) (rest : List UInt8) : Prop where
  split : bytes = encode text ++ rest
  longest : ∀ other, encode other <+: bytes → other <+: text

/-- There is one longest text. -/
theorem Longest.unique {bytes rest others : List UInt8} {text other : List Char}
    (h : Longest bytes text rest) (h' : Longest bytes other others) :
    text = other ∧ rest = others := by
  have hstarts : ∀ {text rest}, Longest bytes text rest → encode text <+: bytes :=
    fun h => ⟨_, h.split.symm⟩
  have heq : text = other :=
    (h'.longest text (hstarts h)).eq_of_length_le (h.longest other (hstarts h')).length_le
  subst heq
  exact ⟨rfl, List.append_cancel_left (h.split.symm.trans h'.split)⟩

/-- What is read of bytes is the longest text that they start with; the bytes after it are held
back. -/
theorem longest_feedBytes (bytes : List UInt8) :
    Longest bytes (feedBytes [] bytes).2 (feedBytes [] bytes).1.reverse where
  split := by simpa using (encode_feedBytes [] bytes).symm
  longest := by
    rintro other ⟨more, rfl⟩
    rw [feedBytes_append, feedBytes_encode]
    exact List.prefix_append other _

/-! ## What is wrong with bytes that are left over -/

/-- A byte that goes on with a character. -/
def isTail (b : UInt8) : Bool := 0x80 ≤ b && b ≤ 0xBF

/-- Whether a byte may come second after a first byte of three or four. -/
def isSecond (first second : UInt8) : Bool :=
  if first = 0xE0 then 0xA0 ≤ second && second ≤ 0xBF
  else if first = 0xED then 0x80 ≤ second && second ≤ 0x9F
  else if first = 0xF0 then 0x90 ≤ second && second ≤ 0xBF
  else if first = 0xF4 then 0x80 ≤ second && second ≤ 0x8F
  else isTail second

/-- Whether a row of bytes is the start of a character's encoding and not all of it. -/
def isOpening : List UInt8 → Bool
  | [a] => 0xC2 ≤ a && a ≤ 0xF4
  | [a, b] => 0xE0 ≤ a && a ≤ 0xF4 && isSecond a b
  | [a, b, c] => 0xF0 ≤ a && a ≤ 0xF4 && isSecond a b && isTail c
  | _ => false

/-- Why bytes that are left at the end of a stream are no text. -/
inductive Defect where
  /-- the first bytes cannot be part of a character -/
  | invalid (length : Nat)
  /-- the bytes start a character that does not end -/
  | incomplete
  deriving DecidableEq, Repr

/-- The defect of bytes that do not start with a character: a character that does not end, or the
longest start of a character, at least one byte, that does not go on. -/
def defect (bytes : List UInt8) : Defect :=
  if isOpening bytes then .incomplete
  else if isOpening (bytes.take 3) then .invalid 3
  else if isOpening (bytes.take 2) then .invalid 2
  else .invalid 1

/-- The text of a defect. -/
def Defect.message : Defect → String
  | invalid length =>
    "UTF8 error: invalid utf-8 sequence of " ++ toString length ++ " bytes from index 0"
  | incomplete => "UTF8 error: incomplete utf-8 byte sequence from index 0"

end LeaseBoard.Feed.Utf8
