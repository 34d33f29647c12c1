import LeaseBoard.Json.Value
set_option autoImplicit false

/-!
# White space between tokens

A token that a reader has split off is split off as well when more text follows, unless it is a number
at the end of the text and what follows goes on with it (`Token.read_append`).  So a text is split where
two rows of tokens meet, with white space there (`Token.readAll_append_space`) and, in a document, without
it: a number is followed by a comma, a closing bracket or a closing brace, and no two tokens run together.

Main statements: `Value.parse?_insert_space` and `Value.meet_of_parse?`.
-/

namespace LeaseBoard

/-! ## Numerals -/

namespace Numeral

/-- A run of digits that may take all of a text ends before the end only where no digit follows. -/
theorem isDigit_head_takeDigits {most : Nat} {cs : List Char} (h : cs.length ≤ most) :
    ∀ c ∈ (takeDigits most cs).2.head?, isDigit c = false := by
  fun_induction takeDigits most cs with
  | case1 cs =>
    intro c hc
    rw [List.length_eq_zero_iff.1 (Nat.le_zero.1 h)] at hc
    cases hc
  | case2 =>
    intro c hc
    cases hc
  | case3 most c cs hc taken ih => exact ih (Nat.le_of_succ_le_succ h)
  | case4 most c cs hc =>
    intro d hd
    rw [← Option.some.inj hd]
    exact Bool.eq_false_iff.2 hc

/-- Digits are read alike when more text follows that does not go on with them. -/
theorem readAll_append {cs rest suffix : List Char} {n : Nat} (h : readAll cs = some (n, rest))
    (hend : rest = [] → ∀ c ∈ suffix.head?, isDigit c = false) :
    readAll (cs ++ suffix) = some (n, rest ++ suffix) := by
  have hhead : ∀ c ∈ rest.head?, isDigit c = false := by
    rw [readAll, read] at h
    split at h
    case isTrue =>
      rw [← (Prod.mk.inj (Option.some.inj h)).2]
      exact isDigit_head_takeDigits (Nat.le_refl _)
    case isFalse => cases h
  obtain ⟨ds, rfl, rfl, hleast, -, hds⟩ := read_eq_some h
  rw [readAll, List.append_assoc]
  refine read_of_isDigit hds hleast (by simp) (Or.inr ?_)
  cases rest with
  | nil => exact hend rfl
  | cons c rest => exact hhead

end Numeral

namespace Json

/-! ## Numbers -/

section Numbers

variable {cs rest suffix : List Char}

theorem readWhole_append {n : Nat} (h : readWhole cs = some (n, rest))
    (hend : rest = [] → NumberEnds suffix) : readWhole (cs ++ suffix) = some (n, rest ++ suffix) := by
  have hpos := length_of_readWhole h
  unfold readWhole at h
  split at h
  case h_1 tail =>
    obtain ⟨rfl, rfl⟩ := Prod.mk.inj (Option.some.inj h)
    rfl
  case h_2 hzero =>
    have hread := Numeral.readAll_append h fun hnil c hc => (hend hnil c hc).1
    cases cs with
    | nil => cases hpos
    | cons c cs =>
      rw [List.cons_append] at hread ⊢
      rw [readWhole.eq_2 _ fun tail heq => hzero cs (by rw [(List.cons.inj heq).1])]
      exact hread

theorem readFraction?_append {b : Bool} (h : readFraction? cs = some (b, rest))
    (hend : rest = [] → NumberEnds suffix) :
    readFraction? (cs ++ suffix) = some (b, rest ++ suffix) := by
  unfold readFraction? at h
  split at h
  case h_1 tail =>
    obtain ⟨⟨n, r⟩, hread, hpair⟩ := Option.map_eq_some_iff.1 h
    obtain ⟨rfl, rfl⟩ := Prod.mk.inj hpair
    have happend := Numeral.readAll_append hread fun hnil c hc => (hend hnil c hc).1
    simp only [List.cons_append, readFraction?, happend, Option.map_some]
  case h_2 hpoint =>
    obtain ⟨rfl, rfl⟩ := Prod.mk.inj (Option.some.inj h)
    cases cs with
    | nil => exact readFraction?_of_numberEnds (hend rfl)
    | cons c cs =>
      rw [List.cons_append]
      exact readFraction?.eq_2 _ fun tail heq => hpoint cs (by rw [(List.cons.inj heq).1])

theorem readExponentDigits_append {n : Nat} (h : readExponentDigits cs = some (n, rest))
    (hend : rest = [] → NumberEnds suffix) :
    readExponentDigits (cs ++ suffix) = some (n, rest ++ suffix) := by
  have hpos := length_of_readExponentDigits h
  have hdigits : ∀ {cs}, Numeral.readAll cs = some (n, rest) →
      Numeral.readAll (cs ++ suffix) = some (n, rest ++ suffix) := fun hread =>
    Numeral.readAll_append hread fun hnil c hc => (hend hnil c hc).1
  unfold readExponentDigits at h
  split at h
  case h_1 => exact hdigits h
  case h_2 => exact hdigits h
  case h_3 hplus hminus =>
    have hread := hdigits h
    cases cs with
    | nil => cases hpos
    | cons c cs =>
      rw [List.cons_append] at hread ⊢
      rw [readExponentDigits.eq_3 _ (fun tail heq => hplus cs (by rw [(List.cons.inj heq).1]))
        fun tail heq => hminus cs (by rw [(List.cons.inj heq).1])]
      exact hread

theorem readExponent?_append {b : Bool} (h : readExponent? cs = some (b, rest))
    (hend : rest = [] → NumberEnds suffix) :
    readExponent? (cs ++ suffix) = some (b, rest ++ suffix) := by
  cases cs with
  | nil =>
    obtain ⟨rfl, rfl⟩ := Prod.mk.inj (Option.some.inj h)
    exact readExponent?_of_numberEnds (hend rfl)
  | cons c cs =>
    rw [List.cons_append]
    rw [readExponent?] at h ⊢
    split at h
    case isTrue hletter =>
      rw [if_pos hletter]
      obtain ⟨⟨n, r⟩, hread, hpair⟩ := Option.map_eq_some_iff.1 h
      obtain ⟨rfl, rfl⟩ := Prod.mk.inj hpair
      rw [readExponentDigits_append hread hend, Option.map_some]
    case isFalse hletter =>
      obtain ⟨rfl, rfl⟩ := Prod.mk.inj (Option.some.inj h)
      rw [if_neg hletter]
      rfl

theorem readMagnitude_append {m : Nat × Bool} (h : readMagnitude cs = some (m, rest))
    (hend : rest = [] → NumberEnds suffix) :
    readMagnitude (cs ++ suffix) = some (m, rest ++ suffix) := by
  unfold readMagnitude at h
  split at h
  case h_1 => cases h
  case h_2 whole behindWhole hwhole =>
    split at h
    case h_1 => cases h
    case h_2 fraction behindFraction hfraction =>
      obtain ⟨⟨exponent, r⟩, hexponent, hpair⟩ := Option.map_eq_some_iff.1 h
      obtain ⟨rfl, rfl⟩ := Prod.mk.inj hpair
      -- What a part leaves is all that the parts after it have.
      have hfractionEnd : behindFraction = [] → NumberEnds suffix := by
        rintro rfl
        exact hend (List.length_eq_zero_iff.1 (Nat.le_zero.1 (length_of_readExponent? hexponent)))
      have hwholeEnd : behindWhole = [] → NumberEnds suffix := by
        rintro rfl
        exact hfractionEnd
          (List.length_eq_zero_iff.1 (Nat.le_zero.1 (length_of_readFraction? hfraction)))
      simp only [readMagnitude, readWhole_append hwhole hwholeEnd,
        readFraction?_append hfraction hfractionEnd, readExponent?_append hexponent hend,
        Option.map_some]

theorem readNumber_append {i : Option Int} (h : readNumber cs = some (i, rest))
    (hend : rest = [] → NumberEnds suffix) :
    readNumber (cs ++ suffix) = some (i, rest ++ suffix) := by
  have hpos := length_of_readNumber h
  unfold readNumber at h
  split at h
  case h_1 tail =>
    obtain ⟨⟨m, r⟩, hread, hpair⟩ := Option.map_eq_some_iff.1 h
    obtain ⟨rfl, rfl⟩ := Prod.mk.inj hpair
    rw [List.cons_append, readNumber.eq_1, readMagnitude_append hread hend, Option.map_some]
  case h_2 hminus =>
    obtain ⟨⟨m, r⟩, hread, hpair⟩ := Option.map_eq_some_iff.1 h
    obtain ⟨rfl, rfl⟩ := Prod.mk.inj hpair
    have happend := readMagnitude_append hread hend
    cases cs with
    | nil => cases hpos
    | cons c cs =>
      rw [List.cons_append] at happend ⊢
      rw [readNumber.eq_2 _ fun tail heq => hminus cs (by rw [(List.cons.inj heq).1]), happend,
        Option.map_some]

end Numbers

/-! ## Strings -/

/-- A literal ends with its quote, whatever follows. -/
theorem Piece.readAll_append {cs rest : List Char} {pieces : List Piece}
    (h : readAll cs = some (pieces, rest)) (suffix : List Char) :
    readAll (cs ++ suffix) = some (pieces, rest ++ suffix) := by
  fun_induction readAll cs generalizing pieces rest with
  | case1 => cases h
  | case2 tail =>
    obtain ⟨rfl, rfl⟩ := Prod.mk.inj (Option.some.inj h)
    rfl
  | case3 a b c d tail n ps r hread hunit ih =>
    obtain ⟨rfl, rfl⟩ := Prod.mk.inj (Option.some.inj h)
    simp only [List.cons_append, readAll, hunit, ih hread]
  | case4 => cases h
  | case5 e tail hnot c ps r hread hescape ih =>
    obtain ⟨rfl, rfl⟩ := Prod.mk.inj (Option.some.inj h)
    have hu : e ≠ 'u' := by
      rintro rfl
      rw [show shortEscape? 'u' = none by decide] at hescape
      cases hescape
    simp only [List.cons_append]
    rw [readAll.eq_4 _ _ fun _ _ _ _ _ heq => absurd heq hu, hescape, ih hread]
  | case6 => cases h
  | case7 => cases h
  | case8 c tail hquote hlong hshort hlarge ih =>
    obtain ⟨⟨ps, r⟩, hread, hpair⟩ := Option.map_eq_some_iff.1 h
    obtain ⟨rfl, rfl⟩ := Prod.mk.inj hpair
    -- A backslash would have to be the last character, and the literal would not end.
    have hback : c ≠ '\\' := by
      rintro rfl
      cases tail with
      | nil => cases hread
      | cons e tail => exact hshort e tail rfl rfl
    rw [List.cons_append, readAll.eq_5 _ _ hquote (fun _ _ _ _ _ heq => absurd heq hback)
      fun _ _ heq => absurd heq hback, if_neg hlarge, ih hread]
    rfl

/-! ## Tokens -/

theorem head_of_readWhole {cs rest : List Char} {n : Nat} (h : readWhole cs = some (n, rest)) :
    ∃ c tail, cs = c :: tail ∧ Numeral.isDigit c = true := by
  unfold readWhole at h
  split at h
  case h_1 tail => exact ⟨'0', tail, rfl, by decide⟩
  case h_2 =>
    obtain ⟨ds, rfl, -, hleast, -, hds⟩ := Numeral.read_eq_some h
    cases ds with
    | nil => cases hleast
    | cons c ds => exact ⟨c, ds ++ rest, rfl, hds c List.mem_cons_self⟩

/-- A number starts with its sign or with a digit. -/
theorem head_of_readNumber {cs rest : List Char} {i : Option Int}
    (h : readNumber cs = some (i, rest)) :
    ∃ c tail, cs = c :: tail ∧ (c = '-' ∨ Numeral.isDigit c = true) := by
  unfold readNumber at h
  split at h
  case h_1 tail => exact ⟨'-', tail, rfl, Or.inl rfl⟩
  case h_2 =>
    obtain ⟨⟨m, r⟩, hread, -⟩ := Option.map_eq_some_iff.1 h
    unfold readMagnitude at hread
    split at hread
    case h_1 => cases hread
    case h_2 hwhole =>
      obtain ⟨c, tail, heq, hdigit⟩ := head_of_readWhole hwhole
      exact ⟨c, tail, heq, Or.inr hdigit⟩

namespace Token

/-- A token is split off alike when more text follows, if that does not go on with a number at the end
of the text. -/
theorem read_append {cs rest suffix : List Char} {t : Token} (h : read cs = some (t, rest))
    (hend : rest = [] → ∀ i, t = .number i → NumberEnds suffix) :
    read (cs ++ suffix) = some (t, rest ++ suffix) := by
  unfold read at h
  split at h
  case h_1 => cases h
  case h_11 tail =>
    obtain ⟨⟨pieces, r⟩, hread, hpair⟩ := Option.map_eq_some_iff.1 h
    obtain ⟨rfl, rfl⟩ := Prod.mk.inj hpair
    rw [List.cons_append, read.eq_11, Piece.readAll_append hread, Option.map_some]
  case h_12 =>
    obtain ⟨⟨i, r⟩, hread, hpair⟩ := Option.map_eq_some_iff.1 h
    obtain ⟨rfl, rfl⟩ := Prod.mk.inj hpair
    have happend := readNumber_append hread fun hnil => hend hnil i rfl
    obtain ⟨c, tail, rfl, hhead⟩ := head_of_readNumber hread
    have hne : ∀ d : Char, d ≠ '-' → Numeral.isDigit d = false → c ≠ d := by
      rintro d hminus hdigit rfl
      rcases hhead with h | h
      · exact hminus h
      · rw [hdigit] at h
        cases h
    rw [List.cons_append] at happend ⊢
    rw [read.eq_12, happend]
    · rfl
    · exact List.cons_ne_nil _ _
    all_goals
      intros
      rename_i heq
      exact absurd (List.cons.inj heq).1 (hne _ (by decide) (by decide))
  all_goals
    obtain ⟨rfl, rfl⟩ := Prod.mk.inj (Option.some.inj h)
    rfl

/-- Rows of tokens are split alike when more text follows that does not go on with a last number. -/
theorem readAll_append {cs suffix : List Char} {ts : List Token} (h : readAll cs = some ts)
    (hend : ∀ i, ts.getLast? = some (.number i) → NumberEnds suffix) :
    readAll (cs ++ suffix) = (readAll suffix).map (ts ++ ·) := by
  fun_induction readAll cs generalizing ts with
  | case1 =>
    obtain rfl := Option.some.inj h
    simp
  | case2 c cs hspace ih =>
    rw [List.cons_append, readAll_of_isSpace hspace]
    exact ih h hend
  | case3 => cases h
  | case4 c cs hspace t rest hread ih =>
    obtain ⟨us, hus, rfl⟩ := Option.map_eq_some_iff.1 h
    have happend : read (c :: (cs ++ suffix)) = some (t, rest ++ suffix) := by
      refine read_append hread fun hnil i hi => hend i ?_
      rw [hnil, readAll] at hus
      rw [← Option.some.inj hus, hi]
      rfl
    have hrest := ih hus fun i hi => hend i (by rw [List.getLast?_cons, hi]; rfl)
    rw [List.cons_append, readAll_of_read (Bool.eq_false_iff.2 hspace) happend, hrest]
    simp [Function.comp_def]

/-- A text that is a row of tokens and does not start with white space starts with a token. -/
theorem exists_read_of_readAll {c : Char} {cs : List Char} {ts : List Token}
    (hspace : isSpace c = false) (h : readAll (c :: cs) = some ts) :
    ∃ t rest us, read (c :: cs) = some (t, rest) ∧ ts = t :: us := by
  rw [readAll] at h
  simp only [hspace, Bool.false_eq_true, if_false] at h
  split at h
  case h_1 => cases h
  case h_2 t rest hread =>
    obtain ⟨us, -, rfl⟩ := Option.map_eq_some_iff.1 h
    exact ⟨t, rest, us, hread, rfl⟩

theorem numberEnds_of_isSpace {c : Char} (h : isSpace c = true) (cs : List Char) :
    NumberEnds (c :: cs) := by
  have hends : ∀ d : Char, isSpace d = true →
      Numeral.isDigit d = false ∧ d ≠ '.' ∧ d ≠ 'e' ∧ d ≠ 'E' := by
    intro d hd
    simp only [isSpace, Bool.or_eq_true, decide_eq_true_eq] at hd
    rcases hd with ((rfl | rfl) | rfl) | rfl <;> decide
  intro d hd
  exact Option.some.inj hd ▸ hends c h

/-- White space separates a row of tokens from what follows. -/
theorem readAll_append_space {cs : List Char} {ts : List Token} (h : readAll cs = some ts) {c : Char}
    (hc : isSpace c = true) (suffix : List Char) :
    readAll (cs ++ c :: suffix) = (readAll suffix).map (ts ++ ·) := by
  rw [readAll_append h fun _ _ => numberEnds_of_isSpace hc suffix, readAll_of_isSpace hc]

/-- A token that goes on with a list or ends one starts with a character that no number goes on with. -/
theorem numberEnds_of_read {cs rest : List Char} {t : Token} (h : read cs = some (t, rest))
    (ht : t = .comma ∨ t = .closeBracket ∨ t = .closeBrace) : NumberEnds cs := by
  unfold read at h
  split at h
  case h_1 => cases h
  case h_11 =>
    obtain ⟨⟨pieces, r⟩, -, hpair⟩ := Option.map_eq_some_iff.1 h
    obtain ⟨rfl, -⟩ := Prod.mk.inj hpair
    simp at ht
  case h_12 =>
    obtain ⟨⟨i, r⟩, -, hpair⟩ := Option.map_eq_some_iff.1 h
    obtain ⟨rfl, -⟩ := Prod.mk.inj hpair
    simp at ht
  all_goals
    obtain ⟨rfl, -⟩ := Prod.mk.inj (Option.some.inj h)
    rcases ht with ht | ht | ht <;> cases ht
  -- A comma, a bracket and a brace are left.
  all_goals
    intro c hc
    rw [← Option.some.inj hc]
    decide

end Token

/-! ## Documents -/

namespace Value

theorem Progress.takeAll_append (p : Progress) (ts us : List Token) :
    p.takeAll (ts ++ us) = (p.takeAll ts).bind fun q => q.takeAll us :=
  List.foldlM_append ..

/-- A number is a value of its own. -/
theorem Progress.take_number {p q : Progress} {i : Option Int} (h : p.take (.number i) = some q) :
    ∃ stack, q = .after (.number i) stack := by
  cases p with
  | value stack => exact ⟨stack, (Option.some.inj h).symm⟩
  | firstItem stack => exact ⟨.array [] :: stack, (Option.some.inj h).symm⟩
  | firstKey stack => cases h
  | key members stack => cases h
  | colon members key stack => cases h
  | after v stack =>
    rw [take] at h
    unfold takeAfter at h
    split at h <;> simp_all

/-- In a document a number is followed by a comma, a closing bracket or a closing brace, if anything. -/
theorem Progress.follows_number {p q : Progress} {ts us : List Token} {i : Option Int} {t : Token}
    (h : p.takeAll (ts ++ .number i :: t :: us) = some q) :
    t = .comma ∨ t = .closeBracket ∨ t = .closeBrace := by
  rw [takeAll_append] at h
  obtain ⟨before, -, h⟩ := Option.bind_eq_some_iff.1 h
  rw [takeAll_cons] at h
  obtain ⟨behind, hnumber, h⟩ := Option.bind_eq_some_iff.1 h
  obtain ⟨stack, rfl⟩ := take_number hnumber
  rw [takeAll_cons] at h
  obtain ⟨next, hnext, -⟩ := Option.bind_eq_some_iff.1 h
  rw [take] at hnext
  unfold takeAfter at hnext
  split at hnext <;> simp_all

end Value

/-- Two texts meet between tokens: each is a row of tokens, and so are both together. -/
def Token.Meet (before after : List Char) : Prop :=
  ∃ ts us, readAll before = some ts ∧ readAll after = some us ∧
    readAll (before ++ after) = some (ts ++ us)

namespace Value

variable {before after : List Char} {c : Char}

/-- White space may be put in between two tokens. -/
theorem parse?_insert_space (h : Token.Meet before after) (hc : isSpace c = true) :
    parse? (before ++ c :: after) = parse? (before ++ after) := by
  obtain ⟨ts, us, hbefore, hafter, hwhole⟩ := h
  rw [parse?, parse?, Token.readAll_append_space hbefore hc, hafter, hwhole, Option.map_some]

/-- What follows a number in a document does not go on with it, even if white space is left out. -/
theorem numberEnds_of_follows {us : List Token} (h : Token.readAll after = some us)
    (hfollows : ∀ t rest, us = t :: rest → t = .comma ∨ t = .closeBracket ∨ t = .closeBrace) :
    NumberEnds after := by
  cases after with
  | nil => nofun
  | cons d after =>
    cases hspace : isSpace d with
    | true => exact Token.numberEnds_of_isSpace hspace after
    | false =>
      obtain ⟨t, rest, tokens, hread, hus⟩ := Token.exists_read_of_readAll hspace h
      exact Token.numberEnds_of_read hread (hfollows t tokens hus)

/-- White space between the tokens of a document may be left out: they still meet without it. -/
theorem meet_of_parse? {ts us : List Token} {v : Value} (hbefore : Token.readAll before = some ts)
    (hafter : Token.readAll after = some us) (hc : isSpace c = true)
    (h : parse? (before ++ c :: after) = some v) : Token.Meet before after := by
  rw [parse?, Token.readAll_append_space hbefore hc, hafter, Option.map_some, Option.bind_some,
    ofTokens?] at h
  refine ⟨ts, us, hbefore, hafter, ?_⟩
  rw [Token.readAll_append hbefore ?_, hafter, Option.map_some]
  intro i hlast
  obtain ⟨front, rfl⟩ := List.getLast?_eq_some_iff.1 hlast
  refine numberEnds_of_follows hafter ?_
  rintro t rest rfl
  rw [List.append_assoc, List.singleton_append] at h
  cases htake : (Progress.value []).takeAll (front ++ .number i :: t :: rest) with
  | none =>
    rw [htake] at h
    cases h
  | some q => exact Progress.follows_number htake

end Value

end Json

end LeaseBoard
