set_option autoImplicit false

/-!
# JSON string literals

A string literal is a row of pieces: characters that stand for themselves or for a short escape,
and the sixteen-bit units of the long escapes.  `Piece.readAll` reads the row up to the closing
quote, `Piece.text?` pairs the surrogate units and gives the text, which a literal with a surrogate
unit on its own does not have.  `quoted` writes a text.

Main statement: `text?_readAll_quoted`, a written text is read back.
-/

namespace LeaseBoard.Json

/-- A character of a string literal, or the unit of a long escape. -/
inductive Piece where
  | char (c : Char)
  | unit (n : Nat)
  deriving DecidableEq, Repr

/-! ## Hexadecimal digits -/

/-- The value of a hexadecimal digit in either case. -/
def hexValue? (c : Char) : Option Nat :=
  if '0' ≤ c ∧ c ≤ '9' then some (c.toNat - '0'.toNat)
  else if 'a' ≤ c ∧ c ≤ 'f' then some (c.toNat - 'a'.toNat + 10)
  else if 'A' ≤ c ∧ c ≤ 'F' then some (c.toNat - 'A'.toNat + 10)
  else none

/-- The hexadecimal digit for a value below sixteen. -/
def hexDigit (n : Nat) : Char :=
  if n < 10 then Char.ofNat ('0'.toNat + n) else Char.ofNat ('a'.toNat + (n - 10))

theorem hexValue?_hexDigit {n : Nat} (h : n < 16) : hexValue? (hexDigit n) = some n := by
  have hall : ∀ m : Fin 16, hexValue? (hexDigit m.val) = some m.val := by decide
  exact hall ⟨n, h⟩

/-- The value of four hexadecimal digits. -/
def hexUnit? (a b c d : Char) : Option Nat := do
  let a ← hexValue? a
  let b ← hexValue? b
  let c ← hexValue? c
  let d ← hexValue? d
  some (((a * 16 + b) * 16 + c) * 16 + d)

/-! ## Reading -/

/-- The character that a short escape stands for. -/
def shortEscape? (c : Char) : Option Char :=
  if c = '\x22' ∨ c = '\\' ∨ c = '/' then some c
  else if c = 'b' then some '\x08'
  else if c = 'f' then some '\x0c'
  else if c = 'n' then some '\n'
  else if c = 'r' then some '\r'
  else if c = 't' then some '\t'
  else none

namespace Piece

/-- The pieces of a literal up to its closing quote, and the text after it.  Control characters must
be escaped. -/
def readAll : List Char → Option (List Piece × List Char)
  | [] => none
  | '\x22' :: rest => some ([], rest)
  | '\\' :: 'u' :: a :: b :: c :: d :: rest =>
    match hexUnit? a b c d, readAll rest with
    | some n, some (pieces, rest) => some (unit n :: pieces, rest)
    | _, _ => none
  | '\\' :: e :: rest =>
    match shortEscape? e, readAll rest with
    | some c, some (pieces, rest) => some (char c :: pieces, rest)
    | _, _ => none
  | c :: rest =>
    if c.toNat < 0x20 then none
    else (readAll rest).map fun (pieces, rest) => (char c :: pieces, rest)

/-- The first unit of a surrogate pair. -/
def isHigh (n : Nat) : Bool := 0xD800 ≤ n && n < 0xDC00

/-- The second unit of a surrogate pair. -/
def isLow (n : Nat) : Bool := 0xDC00 ≤ n && n < 0xE000

/-- The text of a row of pieces.  Adjacent units that form a surrogate pair give one character; a
surrogate unit without its partner has no text. -/
def text? : List Piece → Option (List Char)
  | [] => some []
  | char c :: rest => (text? rest).map (c :: ·)
  | unit high :: unit low :: rest =>
    if isHigh high && isLow low then
      (text? rest).map (Char.ofNat (0x10000 + (high - 0xD800) * 0x400 + (low - 0xDC00)) :: ·)
    else if isHigh high || isLow high then none
    else (text? (unit low :: rest)).map (Char.ofNat high :: ·)
  | unit n :: rest =>
    if isHigh n || isLow n then none else (text? rest).map (Char.ofNat n :: ·)

theorem length_readAll {cs rest : List Char} {pieces : List Piece}
    (h : readAll cs = some (pieces, rest)) : rest.length < cs.length := by
  fun_induction readAll cs generalizing pieces rest with
  | case1 => simp at h
  | case2 => simp at h; simp [h.2]
  | case3 a b c d tail n ps r hread hunit ih =>
    have := ih hread
    simp only [Option.some.injEq, Prod.mk.injEq] at h
    simp only [List.length_cons]
    rw [← h.2]
    omega
  | case4 => simp at h
  | case5 e tail hnot c ps r hread hescape ih =>
    have := ih hread
    simp only [Option.some.injEq, Prod.mk.injEq] at h
    simp only [List.length_cons]
    rw [← h.2]
    omega
  | case6 => simp at h
  | case7 => simp at h
  | case8 c tail hnot₁ hnot₂ hnot₃ hlarge ih =>
    obtain ⟨⟨p, r⟩, hread, hpair⟩ := Option.map_eq_some_iff.1 h
    have := ih hread
    simp only [Prod.mk.injEq] at hpair
    simp only [List.length_cons]
    rw [← hpair.2]
    omega

end Piece

/-! ## Writing -/

/-- A character inside a literal: quote, backslash and control characters are escaped. -/
def quotedChar (c : Char) : List Char :=
  if c = '\x22' then ['\\', '\x22']
  else if c = '\\' then ['\\', '\\']
  else if c = '\x08' then ['\\', 'b']
  else if c = '\x0c' then ['\\', 'f']
  else if c = '\n' then ['\\', 'n']
  else if c = '\r' then ['\\', 'r']
  else if c = '\t' then ['\\', 't']
  else if c.toNat < 0x20 then
    ['\\', 'u', '0', '0', hexDigit (c.toNat / 16), hexDigit (c.toNat % 16)]
  else [c]

/-- The literal of a text after its opening quote. -/
def quoted : List Char → List Char
  | [] => ['\x22']
  | c :: rest => quotedChar c ++ quoted rest

/-! ## Reading what was written -/

/-- The piece that a written character is read as. -/
def Piece.ofWritten (c : Char) : Piece :=
  if c.toNat < 0x20 ∧ ¬ (c = '\x08' ∨ c = '\x0c' ∨ c = '\n' ∨ c = '\r' ∨ c = '\t') then
    .unit c.toNat
  else .char c

theorem Piece.text?_ofWritten (c : Char) (pieces : List Piece) :
    text? (ofWritten c :: pieces) = (text? pieces).map (c :: ·) := by
  unfold ofWritten
  split
  case isFalse => rfl
  case isTrue h =>
    have hhigh : isHigh c.toNat = false := by simp only [isHigh]; simp; omega
    have hlow : isLow c.toNat = false := by simp only [isLow]; simp; omega
    cases pieces with
    | nil => simp [text?, hhigh, hlow, Char.ofNat_toNat]
    | cons p ps => cases p <;> simp [text?, hhigh, hlow, Char.ofNat_toNat]

theorem Piece.readAll_quotedChar (c : Char) (rest : List Char) :
    readAll (quotedChar c ++ rest) =
      (readAll rest).map fun (pieces, rest) => (ofWritten c :: pieces, rest) := by
  by_cases hquote : c = '\x22'
  · subst hquote; cases h : readAll rest <;> simp [quotedChar, readAll, shortEscape?, ofWritten, h]
  by_cases hback : c = '\\'
  · subst hback; cases h : readAll rest <;> simp [quotedChar, readAll, shortEscape?, ofWritten, h]
  by_cases h8 : c = '\x08'
  · subst h8; cases h : readAll rest <;> simp [quotedChar, readAll, shortEscape?, ofWritten, h]
  by_cases hc : c = '\x0c'
  · subst hc; cases h : readAll rest <;> simp [quotedChar, readAll, shortEscape?, ofWritten, h]
  by_cases hn : c = '\n'
  · subst hn; cases h : readAll rest <;> simp [quotedChar, readAll, shortEscape?, ofWritten, h]
  by_cases hr : c = '\r'
  · subst hr; cases h : readAll rest <;> simp [quotedChar, readAll, shortEscape?, ofWritten, h]
  by_cases ht : c = '\t'
  · subst ht; cases h : readAll rest <;> simp [quotedChar, readAll, shortEscape?, ofWritten, h]
  by_cases hlt : c.toNat < 0x20
  · have hunit : hexUnit? '0' '0' (hexDigit (c.toNat / 16)) (hexDigit (c.toNat % 16)) =
        some c.toNat := by
      have hzero : hexValue? '0' = some 0 := by decide
      simp only [hexUnit?, hzero, hexValue?_hexDigit (show c.toNat / 16 < 16 by omega),
        hexValue?_hexDigit (show c.toNat % 16 < 16 by omega), Option.bind_eq_bind,
        Option.bind_some]
      congr 1
      omega
    cases h : readAll rest <;>
      simp [quotedChar, hquote, hback, h8, hc, hn, hr, ht, hlt, readAll, hunit, ofWritten, h]
  · cases h : readAll rest <;>
      simp [quotedChar, hquote, hback, h8, hc, hn, hr, ht, hlt, readAll, ofWritten, h]

/-- A written text is read back. -/
theorem Piece.text?_readAll_quoted (cs rest : List Char) :
    ∃ pieces, readAll (quoted cs ++ rest) = some (pieces, rest) ∧ text? pieces = some cs := by
  induction cs with
  | nil => exact ⟨[], rfl, rfl⟩
  | cons c cs ih =>
    obtain ⟨pieces, hread, htext⟩ := ih
    refine ⟨ofWritten c :: pieces, ?_, ?_⟩
    · rw [quoted, List.append_assoc, readAll_quotedChar, hread]; rfl
    · rw [text?_ofWritten, htext]; rfl

end LeaseBoard.Json
