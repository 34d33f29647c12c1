import LeaseBoard.Json.Text
import LeaseBoard.Text.Numeral
set_option autoImplicit false

/-!
# JSON tokens

A document is a row of tokens with white space between them.  A number token keeps the integer that
it denotes if it is written as one, and a string token the text if it has one: nothing else of a
literal matters to a reader of typed values.

`Token.readAll` splits a document into its tokens and `Token.spell` writes a token.  Main
statements: `Token.length_of_read` (every token takes at least one character, so splitting ends) and
`Token.read_spell` (a written token is read back).
-/

namespace LeaseBoard.Json

/-- A token of a document.  A number written with a fraction, with an exponent or as negative zero
is no integer, and a string with a surrogate unit on its own has no text. -/
inductive Token where
  | openBrace
  | closeBrace
  | openBracket
  | closeBracket
  | colon
  | comma
  | null
  | bool (value : Bool)
  | number (integer : Option Int)
  | string (text : Option String)
  deriving DecidableEq, Repr

/-! ## Numbers -/

/-- The digits before the point: a zero, or digits that do not start with one. -/
def readWhole : List Char → Option (Nat × List Char)
  | '0' :: rest => some (0, rest)
  | cs => Numeral.readAll cs

/-- A fraction, if a point comes next: whether there is one, and the text after it. -/
def readFraction? : List Char → Option (Bool × List Char)
  | '.' :: rest => (Numeral.readAll rest).map fun (_, rest) => (true, rest)
  | cs => some (false, cs)

/-- The digits of an exponent after its optional sign. -/
def readExponentDigits : List Char → Option (Nat × List Char)
  | '+' :: rest => Numeral.readAll rest
  | '-' :: rest => Numeral.readAll rest
  | cs => Numeral.readAll cs

/-- An exponent, if its letter comes next: whether there is one, and the text after it. -/
def readExponent? : List Char → Option (Bool × List Char)
  | c :: rest =>
    if c = 'e' ∨ c = 'E' then (readExponentDigits rest).map fun (_, rest) => (true, rest)
    else some (false, c :: rest)
  | [] => some (false, [])

/-- A number without its sign: its digits before the point, and whether that is all of it. -/
def readMagnitude (cs : List Char) : Option ((Nat × Bool) × List Char) :=
  match readWhole cs with
  | none => none
  | some (whole, cs) =>
    match readFraction? cs with
    | none => none
    | some (fraction, cs) =>
      (readExponent? cs).map fun (exponent, cs) => ((whole, !fraction && !exponent), cs)

/-- A number, as the integer that it denotes if it is written as one. -/
def readNumber : List Char → Option (Option Int × List Char)
  | '-' :: rest =>
    (readMagnitude rest).map fun ((whole, plain), rest) =>
      (if plain && whole != 0 then some (-(whole : Int)) else none, rest)
  | cs =>
    (readMagnitude cs).map fun ((whole, plain), rest) =>
      (if plain then some (whole : Int) else none, rest)

/-! ## Tokens of a text -/

/-- White space between tokens: space, tab, line feed and carriage return. -/
def isSpace (c : Char) : Bool := c = ' ' || c = '\t' || c = '\n' || c = '\r'

namespace Token

/-- The token at the start of a text and the text after it. -/
def read : List Char → Option (Token × List Char)
  | [] => none
  | '{' :: rest => some (openBrace, rest)
  | '}' :: rest => some (closeBrace, rest)
  | '[' :: rest => some (openBracket, rest)
  | ']' :: rest => some (closeBracket, rest)
  | ':' :: rest => some (colon, rest)
  | ',' :: rest => some (comma, rest)
  | 'n' :: 'u' :: 'l' :: 'l' :: rest => some (null, rest)
  | 't' :: 'r' :: 'u' :: 'e' :: rest => some (bool true, rest)
  | 'f' :: 'a' :: 'l' :: 's' :: 'e' :: rest => some (bool false, rest)
  | '\x22' :: rest =>
    (Piece.readAll rest).map fun (pieces, rest) =>
      (string ((Piece.text? pieces).map String.ofList), rest)
  | cs => (readNumber cs).map fun (integer, rest) => (number integer, rest)

end Token

/-! ## Every token takes a character -/

theorem length_of_readAll_numeral {cs rest : List Char} {n : Nat}
    (h : Numeral.readAll cs = some (n, rest)) : rest.length < cs.length := by
  obtain ⟨ds, rfl, -, hle, -, -⟩ := Numeral.read_eq_some h
  simp only [List.length_append]
  omega

theorem length_of_readWhole {cs rest : List Char} {n : Nat}
    (h : readWhole cs = some (n, rest)) : rest.length < cs.length := by
  unfold readWhole at h
  split at h
  · simp only [Option.some.injEq, Prod.mk.injEq] at h
    simp [h.2]
  · exact length_of_readAll_numeral h

theorem length_of_readFraction? {cs rest : List Char} {b : Bool}
    (h : readFraction? cs = some (b, rest)) : rest.length ≤ cs.length := by
  unfold readFraction? at h
  split at h
  · obtain ⟨⟨n, r⟩, hread, hpair⟩ := Option.map_eq_some_iff.1 h
    have := length_of_readAll_numeral hread
    simp only [Prod.mk.injEq] at hpair
    simp only [List.length_cons]
    rw [← hpair.2]
    omega
  · simp only [Option.some.injEq, Prod.mk.injEq] at h
    simp [h.2]

theorem length_of_readExponentDigits {cs rest : List Char} {n : Nat}
    (h : readExponentDigits cs = some (n, rest)) : rest.length < cs.length := by
  unfold readExponentDigits at h
  split at h
  · have := length_of_readAll_numeral h
    simp only [List.length_cons]; omega
  · have := length_of_readAll_numeral h
    simp only [List.length_cons]; omega
  · exact length_of_readAll_numeral h

theorem length_of_readExponent? {cs rest : List Char} {b : Bool}
    (h : readExponent? cs = some (b, rest)) : rest.length ≤ cs.length := by
  unfold readExponent? at h
  split at h
  · split at h
    · obtain ⟨⟨n, r⟩, hread, hpair⟩ := Option.map_eq_some_iff.1 h
      have := length_of_readExponentDigits hread
      simp only [Prod.mk.injEq] at hpair
      simp only [List.length_cons]
      rw [← hpair.2]
      omega
    · simp only [Option.some.injEq, Prod.mk.injEq] at h
      simp [← h.2]
  · simp only [Option.some.injEq, Prod.mk.injEq] at h
    simp [← h.2]

theorem length_of_readMagnitude {cs rest : List Char} {m : Nat × Bool}
    (h : readMagnitude cs = some (m, rest)) : rest.length < cs.length := by
  unfold readMagnitude at h
  split at h
  · simp at h
  · rename_i hwhole
    split at h
    · simp at h
    · rename_i hfraction
      obtain ⟨⟨e, r⟩, hexponent, hpair⟩ := Option.map_eq_some_iff.1 h
      have h₁ := length_of_readWhole hwhole
      have h₂ := length_of_readFraction? hfraction
      have h₃ := length_of_readExponent? hexponent
      simp only [Prod.mk.injEq] at hpair
      rw [← hpair.2]
      omega

theorem length_of_readNumber {cs rest : List Char} {i : Option Int}
    (h : readNumber cs = some (i, rest)) : rest.length < cs.length := by
  unfold readNumber at h
  split at h
  all_goals
    obtain ⟨⟨m, r⟩, hread, hpair⟩ := Option.map_eq_some_iff.1 h
    have := length_of_readMagnitude hread
    simp only [Prod.mk.injEq] at hpair
    rw [← hpair.2]
    simp only [List.length_cons] at *
    omega

theorem Token.length_of_read {cs rest : List Char} {t : Token} (h : read cs = some (t, rest)) :
    rest.length < cs.length := by
  unfold read at h
  split at h
  case h_1 => simp at h
  case h_11 =>
    obtain ⟨⟨p, r⟩, hread, hpair⟩ := Option.map_eq_some_iff.1 h
    have := Piece.length_readAll hread
    simp only [Prod.mk.injEq] at hpair
    simp only [List.length_cons]
    rw [← hpair.2]
    omega
  case h_12 =>
    obtain ⟨⟨i, r⟩, hread, hpair⟩ := Option.map_eq_some_iff.1 h
    have := length_of_readNumber hread
    simp only [Prod.mk.injEq] at hpair
    rw [← hpair.2]
    omega
  all_goals
    simp only [Option.some.injEq, Prod.mk.injEq] at h
    simp only [List.length_cons, ← h.2]
    omega

/-! ## Splitting a document -/

namespace Token

/-- The tokens of a text, with white space before, between and after them. -/
def readAll : List Char → Option (List Token)
  | [] => some []
  | c :: cs =>
    if isSpace c then readAll cs
    else
      match _h : read (c :: cs) with
      | none => none
      | some (t, rest) => (readAll rest).map (t :: ·)
termination_by cs => cs.length
decreasing_by
  · simp
  · exact length_of_read _h

/-! ## Writing -/

/-- A token as text.  For a string without a text and for a number that is no integer one of their
spellings stands. -/
def spell : Token → List Char
  | openBrace => ['{']
  | closeBrace => ['}']
  | openBracket => ['[']
  | closeBracket => [']']
  | colon => [':']
  | comma => [',']
  | null => ['n', 'u', 'l', 'l']
  | bool true => ['t', 'r', 'u', 'e']
  | bool false => ['f', 'a', 'l', 's', 'e']
  | number (some (.ofNat n)) => Numeral.digits n
  | number (some (.negSucc n)) => '-' :: Numeral.digits (n + 1)
  | number none => ['-', '0']
  | string (some text) => '\x22' :: quoted text.toList
  | string none => ['\x22', '\\', 'u', 'd', '8', '0', '0', '\x22']

end Token

/-! ## Reading what was written -/

/-- No character follows that would go on with a number. -/
def NumberEnds (rest : List Char) : Prop :=
  ∀ c ∈ rest.head?, Numeral.isDigit c = false ∧ c ≠ '.' ∧ c ≠ 'e' ∧ c ≠ 'E'

theorem readWhole_digits (n : Nat) {rest : List Char} (hrest : NumberEnds rest) :
    readWhole (Numeral.digits n ++ rest) = some (n, rest) := by
  by_cases hn : n = 0
  · subst hn
    have hzero : Numeral.digits 0 = ['0'] := by rw [Numeral.digits]; rfl
    rw [hzero]
    rfl
  · obtain ⟨d, ds, hds, -, hzero⟩ := Numeral.head_digits n
    have hread := Numeral.readAll_digits n fun c hc => (hrest c hc).1
    rw [hds, List.cons_append] at hread ⊢
    rw [readWhole.eq_2]
    · exact hread
    · intro tail heq
      injection heq with h₁ _
      exact hzero hn h₁

theorem readFraction?_of_numberEnds {rest : List Char} (h : NumberEnds rest) :
    readFraction? rest = some (false, rest) := by
  cases rest with
  | nil => rfl
  | cons c cs =>
    rw [readFraction?.eq_2]
    intro tail heq
    injection heq with h₁ _
    exact (h c rfl).2.1 h₁

theorem readExponent?_of_numberEnds {rest : List Char} (h : NumberEnds rest) :
    readExponent? rest = some (false, rest) := by
  cases rest with
  | nil => rfl
  | cons c cs => simp [readExponent?, (h c rfl).2.2.1, (h c rfl).2.2.2]

theorem readMagnitude_digits (n : Nat) {rest : List Char} (hrest : NumberEnds rest) :
    readMagnitude (Numeral.digits n ++ rest) = some ((n, true), rest) := by
  simp [readMagnitude, readWhole_digits n hrest, readFraction?_of_numberEnds hrest,
    readExponent?_of_numberEnds hrest]

theorem readNumber_digits (n : Nat) {rest : List Char} (hrest : NumberEnds rest) :
    readNumber (Numeral.digits n ++ rest) = some (some (n : Int), rest) := by
  obtain ⟨d, ds, hds, hdigit, -⟩ := Numeral.head_digits n
  have hread := readMagnitude_digits n hrest
  rw [hds, List.cons_append] at hread ⊢
  rw [readNumber.eq_2]
  · rw [hread]; rfl
  · intro tail heq
    injection heq with h₁ _
    rw [h₁] at hdigit
    exact absurd hdigit (by decide)

theorem readNumber_minus_digits (n : Nat) (hn : n ≠ 0) {rest : List Char}
    (hrest : NumberEnds rest) :
    readNumber ('-' :: (Numeral.digits n ++ rest)) = some (some (-(n : Int)), rest) := by
  rw [readNumber.eq_1, readMagnitude_digits n hrest]
  simp [hn]

namespace Token

/-- A written token is read back, if nothing follows that would go on with a number. -/
theorem read_spell (t : Token) {rest : List Char} (h : ∀ i, t = number i → NumberEnds rest) :
    read (t.spell ++ rest) = some (t, rest) := by
  cases t with
  | openBrace => rfl
  | closeBrace => rfl
  | openBracket => rfl
  | closeBracket => rfl
  | colon => rfl
  | comma => rfl
  | null => rfl
  | bool b => cases b <;> rfl
  | number integer =>
    have hrest := h integer rfl
    cases integer with
    | none =>
      have hread := readMagnitude_digits 0 hrest
      have hzero : Numeral.digits 0 = ['0'] := by rw [Numeral.digits]; rfl
      rw [hzero] at hread
      simp only [spell, List.cons_append, List.nil_append] at hread ⊢
      rw [read.eq_12, readNumber.eq_1, hread]
      · rfl
      all_goals simp
    | some i =>
      cases i with
      | negSucc n =>
        have hread := readNumber_minus_digits (n + 1) (by omega) hrest
        simp only [spell, List.cons_append]
        rw [read.eq_12, hread]
        · rfl
        all_goals simp
      | ofNat n =>
        obtain ⟨d, ds, hds, hdigit, -⟩ := Numeral.head_digits n
        have hread := readNumber_digits n hrest
        have hne : ∀ c : Char, Numeral.isDigit c = false → d ≠ c := by
          rintro c hc rfl
          rw [hc] at hdigit
          exact absurd hdigit (by decide)
        simp only [spell]
        rw [hds, List.cons_append] at hread ⊢
        rw [read.eq_12, hread]
        · rfl
        · exact List.cons_ne_nil _ _
        all_goals
          intros
          rename_i heq
          injection heq with h₁ _
          exact absurd h₁ (hne _ (by decide))
  | string text =>
    cases text with
    | none => rfl
    | some text =>
      obtain ⟨pieces, hread, htext⟩ := Piece.text?_readAll_quoted text.toList rest
      simp only [spell, List.cons_append]
      rw [read.eq_11, hread]
      simp [htext]

/-- A written token starts with a character that is no white space. -/
theorem spell_eq_cons (t : Token) : ∃ c cs, t.spell = c :: cs ∧ isSpace c = false := by
  cases t with
  | number integer =>
    cases integer with
    | none => exact ⟨_, _, rfl, by decide⟩
    | some i =>
      cases i with
      | negSucc n => exact ⟨_, _, rfl, by decide⟩
      | ofNat n =>
        obtain ⟨d, ds, hds, hdigit, -⟩ := Numeral.head_digits n
        refine ⟨d, ds, hds, ?_⟩
        have hne : ∀ c : Char, Numeral.isDigit c = false → d ≠ c := by
          rintro c hc rfl
          rw [hc] at hdigit
          exact absurd hdigit (by decide)
        simp [isSpace, hne ' ' (by decide), hne '\t' (by decide), hne '\n' (by decide),
          hne '\r' (by decide)]
  | bool b => cases b <;> exact ⟨_, _, rfl, by decide⟩
  | string text => cases text <;> exact ⟨_, _, rfl, by decide⟩
  | _ => exact ⟨_, _, rfl, by decide⟩

theorem readAll_of_isSpace {c : Char} (h : isSpace c = true) (cs : List Char) :
    readAll (c :: cs) = readAll cs := by
  rw [readAll, if_pos h]

/-- The token at the start of a document is split off. -/
theorem readAll_of_read {c : Char} {cs rest : List Char} {t : Token} (hspace : isSpace c = false)
    (h : read (c :: cs) = some (t, rest)) : readAll (c :: cs) = (readAll rest).map (t :: ·) := by
  rw [readAll]
  simp only [hspace, Bool.false_eq_true, if_false]
  split
  case h_1 hnone => rw [h] at hnone; exact absurd hnone (by simp)
  case h_2 t' rest' hsome =>
    rw [h] at hsome
    simp only [Option.some.injEq, Prod.mk.injEq] at hsome
    rw [hsome.1, hsome.2]

/-- A written token is split off a document. -/
theorem readAll_spell (t : Token) {rest : List Char} (h : ∀ i, t = number i → NumberEnds rest) :
    readAll (t.spell ++ rest) = (readAll rest).map (t :: ·) := by
  obtain ⟨c, cs, hcs, hspace⟩ := t.spell_eq_cons
  have hread := t.read_spell h
  rw [hcs, List.cons_append] at hread ⊢
  exact readAll_of_read hspace hread

end Token

end LeaseBoard.Json
