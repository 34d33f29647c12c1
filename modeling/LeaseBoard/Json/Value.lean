import LeaseBoard.Json.Token
set_option autoImplicit false

/-!
# JSON values

The tree of a document.  `Value.ofTokens?` reads a row of tokens with a stack of the containers that
are open, so that any depth of nesting is read; `Value.tokens` writes a tree as tokens.  Main
statements: `Value.ofTokens?_tokens` and `Value.parse?_render`, a written tree is read back from its
tokens and from its text.
-/

namespace LeaseBoard.Json

/-- A JSON value.  Members of an object keep their order and may repeat a key; keys and strings
without a text, and numbers that are no integer, are kept as such. -/
inductive Value where
  | null
  | bool (value : Bool)
  | number (integer : Option Int)
  | string (text : Option String)
  | array (items : List Value)
  | object (members : List (Option String × Value))
  deriving Repr, Inhabited

namespace Value

/-! ## Writing -/

mutual

/-- The tokens of a value. -/
def tokens : Value → List Token
  | null => [.null]
  | bool b => [.bool b]
  | number i => [.number i]
  | string s => [.string s]
  | array items => .openBracket :: itemTokens items
  | object members => .openBrace :: memberTokens members

/-- The tokens of the items of an array and of the bracket that closes it. -/
def itemTokens : List Value → List Token
  | [] => [.closeBracket]
  | v :: rest => v.tokens ++ moreItemTokens rest

/-- The tokens of the items after the first, each with the comma before it. -/
def moreItemTokens : List Value → List Token
  | [] => [.closeBracket]
  | v :: rest => .comma :: (v.tokens ++ moreItemTokens rest)

/-- The tokens of the members of an object and of the brace that closes it. -/
def memberTokens : List (Option String × Value) → List Token
  | [] => [.closeBrace]
  | (key, v) :: rest => .string key :: .colon :: (v.tokens ++ moreMemberTokens rest)

/-- The tokens of the members after the first, each with the comma before it. -/
def moreMemberTokens : List (Option String × Value) → List Token
  | [] => [.closeBrace]
  | (key, v) :: rest => .comma :: .string key :: .colon :: (v.tokens ++ moreMemberTokens rest)

end

/-! ## Reading -/

/-- A container whose end has not come yet, with what it holds so far, newest first. -/
inductive Open where
  | array (items : List Value)
  | object (members : List (Option String × Value)) (key : Option String)

/-- What a reader of tokens waits for, with the containers that are open, innermost first. -/
inductive Progress where
  | value (stack : List Open)
  | firstItem (stack : List Open)
  | firstKey (stack : List Open)
  | key (members : List (Option String × Value)) (stack : List Open)
  | colon (members : List (Option String × Value)) (key : Option String) (stack : List Open)
  | after (value : Value) (stack : List Open)

namespace Progress

/-- Takes a token where a value must come. -/
def takeValue (stack : List Open) : Token → Option Progress
  | .null => some (after .null stack)
  | .bool b => some (after (.bool b) stack)
  | .number i => some (after (.number i) stack)
  | .string s => some (after (.string s) stack)
  | .openBracket => some (firstItem stack)
  | .openBrace => some (firstKey stack)
  | _ => none

/-- Takes a token after a value: it goes on with the innermost container or closes it. -/
def takeAfter (v : Value) : List Open → Token → Option Progress
  | .array items :: stack, .comma => some (value (.array (v :: items) :: stack))
  | .array items :: stack, .closeBracket => some (after (.array (v :: items).reverse) stack)
  | .object members k :: stack, .comma => some (key ((k, v) :: members) stack)
  | .object members k :: stack, .closeBrace =>
    some (after (.object ((k, v) :: members).reverse) stack)
  | _, _ => none

/-- Takes the next token, if it may come here. -/
def take : Progress → Token → Option Progress
  | value stack, t => takeValue stack t
  | firstItem stack, .closeBracket => some (after (.array []) stack)
  | firstItem stack, t => takeValue (.array [] :: stack) t
  | firstKey stack, .closeBrace => some (after (.object []) stack)
  | firstKey stack, .string k => some (colon [] k stack)
  | firstKey _, _ => none
  | key members stack, .string k => some (colon members k stack)
  | key _ _, _ => none
  | colon members k stack, .colon => some (value (.object members k :: stack))
  | colon _ _ _, _ => none
  | after v stack, t => takeAfter v stack t

/-- Takes a row of tokens. -/
def takeAll (p : Progress) (ts : List Token) : Option Progress := ts.foldlM take p

theorem takeAll_cons (p : Progress) (t : Token) (ts : List Token) :
    p.takeAll (t :: ts) = (p.take t).bind fun q => q.takeAll ts := rfl

end Progress

/-- The value of a row of tokens, if it is the row of one value. -/
def ofTokens? (ts : List Token) : Option Value :=
  match (Progress.value []).takeAll ts with
  | some (.after v []) => some v
  | _ => none

/-- The value of a document. -/
def parse? (cs : List Char) : Option Value := (Token.readAll cs).bind ofTokens?

/-- The text of a value without white space between its tokens. -/
def render (v : Value) : List Char := v.tokens.flatMap Token.spell

/-! ## Reading what was written -/

/-- A value's first token is not a closing bracket, so an array that holds a value goes on as a row
of values. -/
theorem takeAll_firstItem_tokens (v : Value) (stack : List Open) (rest : List Token) :
    (Progress.firstItem stack).takeAll (v.tokens ++ rest) =
      (Progress.value (.array [] :: stack)).takeAll (v.tokens ++ rest) := by
  cases v <;> simp [tokens, Progress.takeAll_cons, Progress.take]

mutual

/-- A value's tokens bring a reader that waits for a value behind that value. -/
theorem takeAll_tokens (v : Value) (stack : List Open) (rest : List Token) :
    (Progress.value stack).takeAll (v.tokens ++ rest) = (Progress.after v stack).takeAll rest := by
  cases v with
  | null => rfl
  | bool b => rfl
  | number i => rfl
  | string s => rfl
  | array items =>
    cases items with
    | nil => rfl
    | cons v items =>
      have hopen : (Progress.value stack).takeAll ((array (v :: items)).tokens ++ rest) =
          (Progress.firstItem stack).takeAll (v.tokens ++ (moreItemTokens items ++ rest)) := by
        simp [tokens, itemTokens, Progress.takeAll_cons, Progress.take, Progress.takeValue]
      rw [hopen, takeAll_firstItem_tokens, takeAll_tokens v, takeAll_moreItemTokens items]
      rfl
  | object members =>
    cases members with
    | nil => rfl
    | cons m members =>
      obtain ⟨k, v⟩ := m
      have hopen : (Progress.value stack).takeAll ((object ((k, v) :: members)).tokens ++ rest) =
          (Progress.value (.object [] k :: stack)).takeAll
            (v.tokens ++ (moreMemberTokens members ++ rest)) := by
        simp [tokens, memberTokens, Progress.takeAll_cons, Progress.take, Progress.takeValue]
      rw [hopen, takeAll_tokens v, takeAll_moreMemberTokens members]
      rfl

/-- The rest of an array's items is read behind any item. -/
theorem takeAll_moreItemTokens (items : List Value) (v : Value) (read : List Value)
    (stack : List Open) (rest : List Token) :
    (Progress.after v (.array read :: stack)).takeAll (moreItemTokens items ++ rest) =
      (Progress.after (.array ((v :: read).reverse ++ items)) stack).takeAll rest := by
  cases items with
  | nil => simp [moreItemTokens, Progress.takeAll_cons, Progress.take, Progress.takeAfter]
  | cons w items =>
    have hcomma : (Progress.after v (.array read :: stack)).takeAll
        (moreItemTokens (w :: items) ++ rest) =
          (Progress.value (.array (v :: read) :: stack)).takeAll
            (w.tokens ++ (moreItemTokens items ++ rest)) := by
      simp [moreItemTokens, Progress.takeAll_cons, Progress.take, Progress.takeAfter]
    rw [hcomma, takeAll_tokens w, takeAll_moreItemTokens items]
    simp

/-- The rest of an object's members is read behind any member. -/
theorem takeAll_moreMemberTokens (members : List (Option String × Value)) (v : Value)
    (read : List (Option String × Value)) (k : Option String) (stack : List Open)
    (rest : List Token) :
    (Progress.after v (.object read k :: stack)).takeAll (moreMemberTokens members ++ rest) =
      (Progress.after (.object (((k, v) :: read).reverse ++ members)) stack).takeAll rest := by
  cases members with
  | nil => simp [moreMemberTokens, Progress.takeAll_cons, Progress.take, Progress.takeAfter]
  | cons m members =>
    obtain ⟨l, w⟩ := m
    have hcomma : (Progress.after v (.object read k :: stack)).takeAll
        (moreMemberTokens ((l, w) :: members) ++ rest) =
          (Progress.value (.object ((k, v) :: read) l :: stack)).takeAll
            (w.tokens ++ (moreMemberTokens members ++ rest)) := by
      simp [moreMemberTokens, Progress.takeAll_cons, Progress.take, Progress.takeAfter]
    rw [hcomma, takeAll_tokens w, takeAll_moreMemberTokens members]
    simp

end

/-- A written tree is read back. -/
theorem ofTokens?_tokens (v : Value) : ofTokens? v.tokens = some v := by
  have h := takeAll_tokens v [] []
  rw [List.append_nil] at h
  simp only [ofTokens?, h]
  rfl

/-! ## Reading what was rendered -/

/-- The text of a row of tokens. -/
def spellAll (ts : List Token) : List Char := ts.flatMap Token.spell

theorem spellAll_cons (t : Token) (ts : List Token) : spellAll (t :: ts) = t.spell ++ spellAll ts :=
  rfl

theorem spellAll_append (ts us : List Token) : spellAll (ts ++ us) = spellAll ts ++ spellAll us :=
  List.flatMap_append

theorem numberEnds_moreItems (items : List Value) (rest : List Char) :
    NumberEnds (spellAll (moreItemTokens items) ++ rest) := by
  cases items <;> intro c hc <;>
    simp only [moreItemTokens, spellAll_cons, Token.spell, List.cons_append, List.nil_append,
      List.head?_cons, Option.mem_some_iff] at hc <;> subst hc <;> decide

theorem numberEnds_moreMembers (members : List (Option String × Value)) (rest : List Char) :
    NumberEnds (spellAll (moreMemberTokens members) ++ rest) := by
  cases members with
  | nil =>
    intro c hc
    simp only [moreMemberTokens, spellAll_cons, Token.spell, List.cons_append, List.nil_append,
      List.head?_cons, Option.mem_some_iff] at hc
    subst hc
    decide
  | cons m members =>
    obtain ⟨k, v⟩ := m
    intro c hc
    simp only [moreMemberTokens, spellAll_cons, Token.spell, List.cons_append, List.nil_append,
      List.head?_cons, Option.mem_some_iff] at hc
    subst hc
    decide

/-- A token that is no number is split off whatever follows. -/
theorem readAll_spell_append {t : Token} (ht : ∀ i, t ≠ .number i) (ts : List Token)
    (rest : List Char) :
    Token.readAll (spellAll (t :: ts) ++ rest) =
      (Token.readAll (spellAll ts ++ rest)).map (t :: ·) := by
  rw [spellAll_cons, List.append_assoc]
  exact t.readAll_spell fun i hi => absurd hi (ht i)

mutual

/-- The tokens of a rendered value are split off. -/
theorem readAll_tokens (v : Value) {rest : List Char} (hrest : NumberEnds rest) :
    Token.readAll (spellAll v.tokens ++ rest) = (Token.readAll rest).map (v.tokens ++ ·) := by
  cases v with
  | null => exact Token.readAll_spell .null fun _ _ => hrest
  | bool b => simpa [tokens, spellAll] using Token.readAll_spell (.bool b) fun _ _ => hrest
  | number i => simpa [tokens, spellAll] using Token.readAll_spell (.number i) fun _ _ => hrest
  | string s => simpa [tokens, spellAll] using Token.readAll_spell (.string s) fun _ _ => hrest
  | array items =>
    cases items with
    | nil =>
      simp only [tokens, itemTokens]
      rw [readAll_spell_append (by simp), readAll_spell_append (by simp)]
      simp [spellAll, Function.comp_def]
    | cons v items =>
      simp only [tokens, itemTokens]
      rw [readAll_spell_append (by simp), spellAll_append, List.append_assoc,
        readAll_tokens v (numberEnds_moreItems items rest), readAll_moreItemTokens items]
      simp [Function.comp_def]
  | object members =>
    cases members with
    | nil =>
      simp only [tokens, memberTokens]
      rw [readAll_spell_append (by simp), readAll_spell_append (by simp)]
      simp [spellAll, Function.comp_def]
    | cons m members =>
      obtain ⟨k, v⟩ := m
      simp only [tokens, memberTokens]
      rw [readAll_spell_append (by simp), readAll_spell_append (by simp),
        readAll_spell_append (by simp), spellAll_append, List.append_assoc,
        readAll_tokens v (numberEnds_moreMembers members rest), readAll_moreMemberTokens members]
      simp [Function.comp_def]

/-- The tokens of an array's further items are split off. -/
theorem readAll_moreItemTokens (items : List Value) (rest : List Char) :
    Token.readAll (spellAll (moreItemTokens items) ++ rest) =
      (Token.readAll rest).map (moreItemTokens items ++ ·) := by
  cases items with
  | nil =>
    simp only [moreItemTokens]
    rw [readAll_spell_append (by simp)]
    simp [spellAll]
  | cons v items =>
    simp only [moreItemTokens]
    rw [readAll_spell_append (by simp), spellAll_append, List.append_assoc,
      readAll_tokens v (numberEnds_moreItems items rest), readAll_moreItemTokens items]
    simp [Function.comp_def]

/-- The tokens of an object's further members are split off. -/
theorem readAll_moreMemberTokens (members : List (Option String × Value)) (rest : List Char) :
    Token.readAll (spellAll (moreMemberTokens members) ++ rest) =
      (Token.readAll rest).map (moreMemberTokens members ++ ·) := by
  cases members with
  | nil =>
    simp only [moreMemberTokens]
    rw [readAll_spell_append (by simp)]
    simp [spellAll]
  | cons m members =>
    obtain ⟨k, v⟩ := m
    simp only [moreMemberTokens]
    rw [readAll_spell_append (by simp), readAll_spell_append (by simp),
      readAll_spell_append (by simp), spellAll_append, List.append_assoc,
      readAll_tokens v (numberEnds_moreMembers members rest), readAll_moreMemberTokens members]
    simp [Function.comp_def]

end

/-- The tokens of a rendered value are split off, and nothing else is left. -/
theorem readAll_render (v : Value) : Token.readAll v.render = some v.tokens := by
  have h : Token.readAll (spellAll v.tokens ++ []) = (Token.readAll []).map (v.tokens ++ ·) :=
    readAll_tokens v (by intro c hc; simp at hc)
  have hrender : v.render = spellAll v.tokens ++ [] := by simp [render, spellAll]
  rw [hrender, h]
  simp [Token.readAll]

/-- A rendered value is read back. -/
theorem parse?_render (v : Value) : parse? v.render = some v := by
  rw [parse?, readAll_render, Option.bind_some, ofTokens?_tokens]

end Value

end LeaseBoard.Json
