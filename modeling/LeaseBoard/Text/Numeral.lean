set_option autoImplicit false

/-!
# Decimal numerals

Numbers as runs of the digits `0` to `9`: their text, their value, and the readers for a bounded
run of digits.  Main statements: `value_digits` (the value of a number's text is that number) and
`read_eq_some` (what a reader consumes is a run of digits of an allowed length).
-/

namespace LeaseBoard.Numeral

/-! ## Digits -/

/-- Whether a character is one of the ten decimal digits. -/
def isDigit (c : Char) : Bool := '0'.toNat ≤ c.toNat && c.toNat ≤ '9'.toNat

/-- The value of a digit. -/
def digitValue (c : Char) : Nat := c.toNat - '0'.toNat

/-- The digit for a value below ten. -/
def digit (n : Nat) : Char := Char.ofNat ('0'.toNat + n)

theorem isDigit_digit {n : Nat} (h : n < 10) : isDigit (digit n) = true := by
  have h10 : ∀ m : Fin 10, isDigit (digit m.val) = true := by decide
  exact h10 ⟨n, h⟩

theorem digitValue_digit {n : Nat} (h : n < 10) : digitValue (digit n) = n := by
  have h10 : ∀ m : Fin 10, digitValue (digit m.val) = m.val := by decide
  exact h10 ⟨n, h⟩

/-! ## The text of a number -/

/-- The digits of a number, highest first, without superfluous zeros. -/
def digits (n : Nat) : List Char :=
  if n < 10 then [digit n] else digits (n / 10) ++ [digit (n % 10)]

/-- The digits of a number, filled up with zeros on the left to a least width. -/
def padded (width n : Nat) : List Char :=
  List.replicate (width - (digits n).length) '0' ++ digits n

/-- The number that a run of digits denotes. -/
def value (cs : List Char) : Nat := cs.foldl (fun n c => 10 * n + digitValue c) 0

theorem value_concat (cs : List Char) (c : Char) :
    value (cs ++ [c]) = 10 * value cs + digitValue c := by
  simp [value]

theorem value_digits (n : Nat) : value (digits n) = n := by
  induction n using Nat.strongRecOn with
  | _ n ih =>
    rw [digits]
    split
    case isTrue h => simp [value, digitValue_digit h]
    case isFalse h =>
      rw [value_concat, ih (n / 10) (by omega), digitValue_digit (by omega)]
      omega

theorem isDigit_of_mem_digits {n : Nat} {c : Char} (h : c ∈ digits n) : isDigit c = true := by
  induction n using Nat.strongRecOn with
  | _ n ih =>
    rw [digits] at h
    split at h
    case isTrue hn =>
      rw [List.mem_singleton.1 h]
      exact isDigit_digit hn
    case isFalse hn =>
      rcases List.mem_append.1 h with h | h
      · exact ih (n / 10) (by omega) h
      · rw [List.mem_singleton.1 h]
        exact isDigit_digit (by omega)

theorem digits_ne_nil (n : Nat) : digits n ≠ [] := by
  rw [digits]
  split <;> simp

/-- The text of a number starts with a zero only if the number is zero. -/
theorem head_digits (n : Nat) :
    ∃ d ds, digits n = d :: ds ∧ isDigit d = true ∧ (n ≠ 0 → d ≠ '0') := by
  induction n using Nat.strongRecOn with
  | _ n ih =>
    rw [digits]
    split
    case isTrue h =>
      refine ⟨digit n, [], rfl, isDigit_digit h, fun hn heq => hn ?_⟩
      have hvalue := digitValue_digit h
      rw [heq] at hvalue
      exact hvalue.symm
    case isFalse h =>
      obtain ⟨d, ds, hds, hdigit, hzero⟩ := ih (n / 10) (by omega)
      exact ⟨d, ds ++ [digit (n % 10)], by rw [hds]; rfl, hdigit, fun _ => hzero (by omega)⟩

theorem value_replicate_zero_append (k : Nat) (cs : List Char) :
    value (List.replicate k '0' ++ cs) = value cs := by
  induction k with
  | zero => rfl
  | succ k ih =>
    rw [List.replicate_succ, List.cons_append]
    have hzero : value ('0' :: (List.replicate k '0' ++ cs)) = value (List.replicate k '0' ++ cs) :=
      rfl
    rw [hzero, ih]

/-- Leading zeros do not change the value. -/
theorem value_padded (width n : Nat) : value (padded width n) = n := by
  rw [padded, value_replicate_zero_append, value_digits]

theorem isDigit_of_mem_padded {width n : Nat} {c : Char} (h : c ∈ padded width n) :
    isDigit c = true := by
  rcases List.mem_append.1 h with h | h
  · rw [(List.mem_replicate.1 h).2]; decide
  · exact isDigit_of_mem_digits h

theorem length_digits_le {n k : Nat} (hk : 0 < k) (h : n < Nat.pow 10 k) : (digits n).length ≤ k := by
  induction k generalizing n with
  | zero => omega
  | succ k ih =>
    rw [digits]
    split
    case isTrue => simp
    case isFalse hn =>
      have hten : n < Nat.pow 10 k * 10 := h
      have hpos : 0 < k := by
        rcases Nat.eq_zero_or_pos k with rfl | hpos
        · have hone : Nat.pow 10 0 = 1 := rfl
          omega
        · exact hpos
      have := ih hpos (n := n / 10) (by omega)
      simpa using this

/-- A number that fits is written with exactly the given width. -/
theorem length_padded {width n : Nat} (hw : 0 < width) (h : n < Nat.pow 10 width) :
    (padded width n).length = width := by
  have := length_digits_le hw h
  simp only [padded, List.length_append, List.length_replicate]
  omega

theorem le_length_padded (width n : Nat) : width ≤ (padded width n).length := by
  simp only [padded, List.length_append, List.length_replicate]
  omega

/-! ## Reading -/

/-- The digits at the start of a text, at most `most` of them, and the rest of the text. -/
def takeDigits : Nat → List Char → List Char × List Char
  | 0, cs => ([], cs)
  | _ + 1, [] => ([], [])
  | most + 1, c :: cs =>
    if isDigit c then
      let taken := takeDigits most cs
      (c :: taken.1, taken.2)
    else ([], c :: cs)

/-- Reads between `least` and `most` digits, as many as there are, and gives their value and the
rest of the text. -/
def read (least most : Nat) (cs : List Char) : Option (Nat × List Char) :=
  let taken := takeDigits most cs
  if least ≤ taken.1.length then some (value taken.1, taken.2) else none

/-- Reads one or more digits, however many there are. -/
def readAll (cs : List Char) : Option (Nat × List Char) := read 1 cs.length cs

/-- The number that a whole text denotes when all of it is digits and there is at least one. -/
def parse? (cs : List Char) : Option Nat :=
  match readAll cs with
  | some (n, []) => some n
  | _ => none

theorem takeDigits_append (most : Nat) (cs : List Char) :
    (takeDigits most cs).1 ++ (takeDigits most cs).2 = cs := by
  fun_induction takeDigits most cs with
  | case1 => rfl
  | case2 => rfl
  | case3 most c cs h taken ih => exact congrArg (c :: ·) ih
  | case4 => rfl

theorem isDigit_of_mem_takeDigits {most : Nat} {cs : List Char} {c : Char}
    (h : c ∈ (takeDigits most cs).1) : isDigit c = true := by
  fun_induction takeDigits most cs with
  | case1 => simp at h
  | case2 => simp at h
  | case3 most d cs hd taken ih =>
    rcases List.mem_cons.1 h with h | h
    · rw [h]; exact hd
    · exact ih h
  | case4 => simp at h

theorem length_takeDigits_le (most : Nat) (cs : List Char) :
    (takeDigits most cs).1.length ≤ most := by
  fun_induction takeDigits most cs with
  | case1 => simp
  | case2 => simp
  | case3 most c cs h taken ih => simpa using ih
  | case4 => simp

/-- A run of digits is taken whole when it fits and no digit follows it. -/
theorem takeDigits_of_isDigit {most : Nat} {ds rest : List Char}
    (hds : ∀ c ∈ ds, isDigit c = true) (hlen : ds.length ≤ most)
    (hrest : ds.length = most ∨ ∀ c ∈ rest.head?, isDigit c = false) :
    takeDigits most (ds ++ rest) = (ds, rest) := by
  induction ds generalizing most with
  | nil =>
    cases most with
    | zero => rfl
    | succ most =>
      cases rest with
      | nil => rfl
      | cons c rest =>
        have hc : isDigit c = false := by
          rcases hrest with h | h
          · simp at h
          · exact h c rfl
        simp [takeDigits, hc]
  | cons d ds ih =>
    cases most with
    | zero => simp at hlen
    | succ most =>
      have hd : isDigit d = true := hds d List.mem_cons_self
      have htail := @ih most (fun c hc => hds c (List.mem_cons_of_mem _ hc))
        (by simpa using hlen) (by simpa using hrest)
      simp [takeDigits, hd, htail]

theorem read_eq_some {least most : Nat} {cs rest : List Char} {n : Nat}
    (h : read least most cs = some (n, rest)) :
    ∃ ds, cs = ds ++ rest ∧ value ds = n ∧ least ≤ ds.length ∧ ds.length ≤ most ∧
      ∀ c ∈ ds, isDigit c = true := by
  simp only [read] at h
  split at h
  case isTrue hleast =>
    simp only [Option.some.injEq, Prod.mk.injEq] at h
    refine ⟨(takeDigits most cs).1, ?_, h.1, hleast, length_takeDigits_le most cs,
      fun c hc => isDigit_of_mem_takeDigits hc⟩
    rw [← h.2, takeDigits_append]
  case isFalse => simp at h

/-- A run of digits of an allowed length is read back as its value. -/
theorem read_of_isDigit {least most : Nat} {ds rest : List Char}
    (hds : ∀ c ∈ ds, isDigit c = true) (hleast : least ≤ ds.length) (hlen : ds.length ≤ most)
    (hrest : ds.length = most ∨ ∀ c ∈ rest.head?, isDigit c = false) :
    read least most (ds ++ rest) = some (value ds, rest) := by
  simp [read, takeDigits_of_isDigit hds hlen hrest, hleast]

/-- A number written with a fixed width is read back, whatever follows. -/
theorem read_padded {least width n : Nat} (hl : least ≤ width) (hw : 0 < width)
    (h : n < Nat.pow 10 width) (rest : List Char) : read least width (padded width n ++ rest) = some (n, rest) := by
  have hlen := length_padded hw h
  have hread : read least width (padded width n ++ rest) = some (value (padded width n), rest) :=
    read_of_isDigit (fun c hc => isDigit_of_mem_padded hc) (by omega) (by omega) (Or.inl hlen)
  rwa [value_padded] at hread

/-- The text of a number is read back, if no digit follows. -/
theorem readAll_digits (n : Nat) {rest : List Char} (hrest : ∀ c ∈ rest.head?, isDigit c = false) :
    readAll (digits n ++ rest) = some (n, rest) := by
  have hlen : 0 < (digits n).length := List.length_pos_iff.2 (digits_ne_nil n)
  have h := read_of_isDigit (fun c hc => isDigit_of_mem_digits hc) hlen
    (show (digits n).length ≤ (digits n ++ rest).length by simp) (Or.inr hrest)
  rw [value_digits] at h
  exact h

theorem parse?_digits (n : Nat) : parse? (digits n) = some n := by
  have hend : ∀ c ∈ ([] : List Char).head?, isDigit c = false := by simp
  have h := readAll_digits n hend
  rw [List.append_nil] at h
  rw [parse?, h]

end LeaseBoard.Numeral
