import LeaseBoard.Time.Instant
import LeaseBoard.Text.Blank
import LeaseBoard.Text.Numeral
set_option autoImplicit false

/-!
# Time stamps

The text of an instant, and the two grammars in which instants are read.

* `Instant.stamp` writes universal time: a year outside 0 to 9999 has a sign and at least four
  digits, the fraction has the shortest of 0, 3, 6 or 9 digits that is exact, and a leap second is
  written as second sixty.
* `Stamp.readLoose` takes white space between the parts, one-digit fields, and `UTC` for the
  offset.
* `Stamp.readStrict` takes fixed-width fields only, with nothing before or after.

Both grammars share the fraction, the sign of the offset (which may be a minus sign U+2212), and
the rule for which readings are instants.  Main statement: `Instant.ofLoose?_stamp`, a stamp is
read back as its instant.
-/

namespace LeaseBoard

namespace Stamp

open LeaseBoard.Text

/-! ## Writing -/

/-- The digits of a fraction of a second: none, or the shortest of three, six and nine digits that
is exact, after a point. -/
def fraction (nano : Nat) : List Char :=
  if nano = 0 then []
  else if nano % 1_000_000 = 0 then '.' :: Numeral.padded 3 (nano / 1_000_000)
  else if nano % 1_000 = 0 then '.' :: Numeral.padded 6 (nano / 1_000)
  else '.' :: Numeral.padded 9 nano

/-- The digits of a year, with a sign if it is outside 0 to 9999. -/
def year (y : Int) : List Char :=
  if y < 0 then '-' :: Numeral.padded 4 y.natAbs
  else if 9999 < y then '+' :: Numeral.padded 4 y.natAbs
  else Numeral.padded 4 y.natAbs

/-- The text of a reading in universal time. -/
def write (r : Instant.Reading) : List Char :=
  year r.date.year ++ '-' :: Numeral.padded 2 r.date.month ++ '-' :: Numeral.padded 2 r.date.day ++
    'T' :: Numeral.padded 2 r.hour ++ ':' :: Numeral.padded 2 r.minute ++
    ':' :: Numeral.padded 2 r.second ++ fraction r.nano ++ ['Z']

/-! ## Parts of both grammars -/

/-- The text after a given character. -/
def expect (c : Char) : List Char → Option (List Char)
  | d :: rest => if d = c then some rest else none
  | [] => none

/-- The text after the character between date and time. -/
def expectDivider : List Char → Option (List Char)
  | c :: rest => if c = 'T' ∨ c = 't' ∨ c = ' ' then some rest else none
  | [] => none

/-- The nanoseconds of a fraction of a second, digits after the ninth dropped; zero if there is no
point. -/
def readFraction : List Char → Option (Nat × List Char)
  | '.' :: rest =>
    let taken := Numeral.takeDigits rest.length rest
    let kept := taken.1.take 9
    if taken.1 = [] then none
    else some (Numeral.value kept * Nat.pow 10 (9 - kept.length), taken.2)
  | cs => some (0, cs)

/-- The sign of an offset: plus, minus or the minus sign U+2212. -/
def readSign : List Char → Option (Int × List Char)
  | c :: rest =>
    if c = '+' then some (1, rest)
    else if c = '-' ∨ c = '\u2212' then some (-1, rest)
    else none
  | [] => none

/-- An offset in minutes: a sign, two digits of hours, what may stand between, and two digits of
minutes. -/
def readOffset (between : List Char → Option (List Char)) (cs : List Char) :
    Option (Int × List Char) := do
  let (sign, cs) ← readSign cs
  let (hours, cs) ← Numeral.read 2 2 cs
  let cs ← between cs
  let (minutes, cs) ← Numeral.read 2 2 cs
  if minutes < 60 then some (sign * (hours * 60 + minutes : Nat), cs) else none

/-- The offset zero, written `Z` or `z`. -/
def readZulu : List Char → Option (List Char)
  | c :: rest => if c = 'Z' ∨ c = 'z' then some rest else none
  | [] => none

/-! ## The loose grammar -/

/-- A year: a sign and any number of digits, or one to four digits. -/
def readYear : List Char → Option (Int × List Char)
  | '-' :: rest => (Numeral.readAll rest).map fun (y, rest) => (-(y : Int), rest)
  | '+' :: rest => (Numeral.readAll rest).map fun (y, rest) => ((y : Int), rest)
  | cs => (Numeral.read 1 4 cs).map fun (y, rest) => ((y : Int), rest)

/-- One or two digits after white space. -/
def readField (cs : List Char) : Option (Nat × List Char) := Numeral.read 1 2 (skipBlank cs)

/-- A character after white space. -/
def expectLoose (c : Char) (cs : List Char) : Option (List Char) := expect c (skipBlank cs)

/-- The letters `UTC` in any case. -/
def readUtc : List Char → Option (List Char)
  | u :: t :: c :: rest =>
    if (u = 'U' ∨ u = 'u') ∧ (t = 'T' ∨ t = 't') ∧ (c = 'C' ∨ c = 'c') then some rest else none
  | _ => none

/-- What may stand between the hours and the minutes of a loose offset: colons and white space. -/
def skipColons (cs : List Char) : List Char := cs.dropWhile fun c => c = ':' || isBlank c

/-- The offset of a loose stamp. -/
def readLooseOffset (cs : List Char) : Option (Int × List Char) :=
  match readUtc cs with
  | some rest => some (0, rest)
  | none =>
    match readZulu cs with
    | some rest => some (0, rest)
    | none => readOffset (fun rest => some (skipColons rest)) cs

/-- The reading that a whole text shows in the loose grammar. -/
def looseReading (cs : List Char) : Option Instant.Reading := do
  let (year, cs) ← readYear (skipBlank cs)
  let cs ← expectLoose '-' cs
  let (month, cs) ← readField cs
  let cs ← expectLoose '-' cs
  let (day, cs) ← readField cs
  let cs ← expectDivider cs
  let (hour, cs) ← readField cs
  let cs ← expectLoose ':' cs
  let (minute, cs) ← readField cs
  let cs ← expectLoose ':' cs
  let (second, cs) ← readField cs
  let (nano, cs) ← readFraction cs
  let (offset, cs) ← readLooseOffset (skipBlank cs)
  if skipBlank cs = [] then some ⟨⟨year, month, day⟩, hour, minute, second, nano, offset⟩ else none

/-- The instant that a whole text shows in the loose grammar. -/
def readLoose (cs : List Char) : Option Instant := (looseReading cs).bind Instant.ofReading?

/-! ## The strict grammar -/

/-- The offset of a strict stamp. -/
def readStrictOffset (cs : List Char) : Option (Int × List Char) :=
  match readZulu cs with
  | some rest => some (0, rest)
  | none => readOffset (expect ':') cs

/-- The reading that a whole text shows in the strict grammar. -/
def strictReading (cs : List Char) : Option Instant.Reading := do
  let (year, cs) ← Numeral.read 4 4 cs
  let cs ← expect '-' cs
  let (month, cs) ← Numeral.read 2 2 cs
  let cs ← expect '-' cs
  let (day, cs) ← Numeral.read 2 2 cs
  let cs ← expectDivider cs
  let (hour, cs) ← Numeral.read 2 2 cs
  let cs ← expect ':' cs
  let (minute, cs) ← Numeral.read 2 2 cs
  let cs ← expect ':' cs
  let (second, cs) ← Numeral.read 2 2 cs
  let (nano, cs) ← readFraction cs
  let (offset, cs) ← readStrictOffset cs
  if cs = [] then some ⟨⟨year, month, day⟩, hour, minute, second, nano, offset⟩ else none

/-- The instant that a whole text shows in the strict grammar. -/
def readStrict (cs : List Char) : Option Instant := (strictReading cs).bind Instant.ofReading?

/-! ## Reading what is written -/

theorem isBlank_of_isDigit {c : Char} (h : Numeral.isDigit c = true) : isBlank c = false := by
  simp only [Numeral.isDigit, Bool.and_eq_true, decide_eq_true_eq] at h
  have h₁ : 48 ≤ c.toNat := h.1
  have h₂ : c.toNat ≤ 57 := h.2
  simp only [isBlank, blankRanges, List.any_cons, List.any_nil, Bool.or_false, Bool.or_eq_false_iff,
    Bool.and_eq_false_iff, decide_eq_false_iff_not]
  omega

theorem skipBlank_padded {width n : Nat} (rest : List Char) :
    skipBlank (Numeral.padded width n ++ rest) = Numeral.padded width n ++ rest := by
  cases hp : Numeral.padded width n with
  | nil =>
    have := Numeral.digits_ne_nil n
    simp [Numeral.padded, this] at hp
  | cons c cs =>
    have hmem : c ∈ Numeral.padded width n := hp ▸ List.mem_cons_self
    have hc : Numeral.isDigit c = true := Numeral.isDigit_of_mem_padded hmem
    exact skipBlank_cons_of_not_isBlank (isBlank_of_isDigit hc) _

theorem readField_padded {n : Nat} (h : n < 100) (rest : List Char) :
    readField (Numeral.padded 2 n ++ rest) = some (n, rest) := by
  rw [readField, skipBlank_padded]
  exact Numeral.read_padded (by omega) (by omega) h rest

theorem expectLoose_cons {c : Char} (h : isBlank c = false) (rest : List Char) :
    expectLoose c (c :: rest) = some rest := by
  simp [expectLoose, skipBlank_cons_of_not_isBlank h, expect]

theorem readFraction_padded {k n : Nat} (hk : 0 < k) (hk' : k ≤ 9) (h : n < Nat.pow 10 k)
    {rest : List Char} (hrest : ∀ c ∈ rest.head?, Numeral.isDigit c = false) :
    readFraction ('.' :: Numeral.padded k n ++ rest) = some (n * Nat.pow 10 (9 - k), rest) := by
  have hlen := Numeral.length_padded hk h
  have htake : Numeral.takeDigits (Numeral.padded k n ++ rest).length (Numeral.padded k n ++ rest) =
      (Numeral.padded k n, rest) :=
    Numeral.takeDigits_of_isDigit (fun c hc => Numeral.isDigit_of_mem_padded hc) (by simp)
      (Or.inr hrest)
  have hne : Numeral.padded k n ≠ [] := by
    intro hnil
    rw [hnil] at hlen
    simp at hlen
    omega
  have hkept : (Numeral.padded k n).take 9 = Numeral.padded k n :=
    List.take_of_length_le (by omega)
  simp only [List.cons_append, readFraction, htake, hkept, hlen, Numeral.value_padded]
  rw [if_neg hne]

theorem readFraction_fraction {nano : Nat} (h : nano < 1_000_000_000) {rest : List Char}
    (hrest : ∀ c ∈ rest.head?, Numeral.isDigit c = false) (hpoint : rest.head? ≠ some '.') :
    readFraction (fraction nano ++ rest) = some (nano, rest) := by
  unfold fraction
  split
  case isTrue hzero =>
    subst hzero
    cases rest with
    | nil => rfl
    | cons c cs =>
      have hc : c ≠ '.' := fun h => hpoint (by rw [h]; rfl)
      simp [readFraction, hc]
  case isFalse =>
    split
    case isTrue hmilli =>
      have hlt : nano / 1_000_000 < 1_000 := by omega
      rw [readFraction_padded (by omega) (by omega) hlt hrest]
      have hwhole : nano / 1_000_000 * 1_000_000 = nano := by omega
      exact congrArg (fun n => some (n, rest)) hwhole
    case isFalse =>
      split
      case isTrue hmicro =>
        have hlt : nano / 1_000 < 1_000_000 := by omega
        rw [readFraction_padded (by omega) (by omega) hlt hrest]
        have hwhole : nano / 1_000 * 1_000 = nano := by omega
        exact congrArg (fun n => some (n, rest)) hwhole
      case isFalse =>
        rw [readFraction_padded (by omega) (by omega) h hrest]
        exact congrArg (fun n => some (n, rest)) (Nat.mul_one nano)

theorem readYear_year (y : Int) {rest : List Char}
    (hrest : ∀ c ∈ rest.head?, Numeral.isDigit c = false) :
    readYear (skipBlank (year y ++ rest)) = some (y, rest) := by
  have hall : ∀ n : Nat, Numeral.readAll (Numeral.padded 4 n ++ rest) = some (n, rest) := by
    intro n
    have hlen := Numeral.le_length_padded 4 n
    have hread : Numeral.readAll (Numeral.padded 4 n ++ rest) =
        some (Numeral.value (Numeral.padded 4 n), rest) :=
      Numeral.read_of_isDigit (fun c hc => Numeral.isDigit_of_mem_padded hc) (by omega) (by simp)
        (Or.inr hrest)
    rwa [Numeral.value_padded] at hread
  unfold year
  split
  case isTrue h =>
    rw [List.cons_append, skipBlank_cons_of_not_isBlank (by decide)]
    simp only [readYear, hall, Option.map_some, Option.some.injEq, Prod.mk.injEq, and_true]
    omega
  case isFalse h =>
    split
    case isTrue h' =>
      rw [List.cons_append, skipBlank_cons_of_not_isBlank (by decide)]
      simp only [readYear, hall, Option.map_some, Option.some.injEq, Prod.mk.injEq, and_true]
      omega
    case isFalse h' =>
      rw [skipBlank_padded]
      have hlt : y.natAbs < 10_000 := by omega
      have hread : Numeral.read 1 4 (Numeral.padded 4 y.natAbs ++ rest) = some (y.natAbs, rest) :=
        Numeral.read_padded (by omega) (by omega) hlt rest
      cases hp : Numeral.padded 4 y.natAbs ++ rest with
      | nil => rw [hp] at hread; simp [Numeral.read, Numeral.takeDigits] at hread
      | cons c cs =>
        have hc : Numeral.isDigit c = true := by
          have hlen := Numeral.le_length_padded 4 y.natAbs
          cases hq : Numeral.padded 4 y.natAbs with
          | nil => rw [hq] at hlen; simp at hlen
          | cons d ds =>
            rw [hq] at hp
            injection hp with hp _
            have hmem : d ∈ Numeral.padded 4 y.natAbs := hq ▸ List.mem_cons_self
            exact hp ▸ Numeral.isDigit_of_mem_padded hmem
        have h₁ : c ≠ '-' := by rintro rfl; exact absurd hc (by decide)
        have h₂ : c ≠ '+' := by rintro rfl; exact absurd hc (by decide)
        rw [hp] at hread
        unfold readYear
        split
        case h_1 heq => injection heq with heq _; exact absurd heq h₁
        case h_2 heq => injection heq with heq _; exact absurd heq h₂
        case h_3 =>
          rw [hread]
          simp only [Option.map_some, Option.some.injEq, Prod.mk.injEq, and_true]
          omega

/-- What is written for a reading in universal time is read back as that reading. -/
theorem looseReading_write {r : Instant.Reading} (hmonth : r.date.month < 100)
    (hday : r.date.day < 100) (hhour : r.hour < 100) (hminute : r.minute < 100)
    (hsecond : r.second < 100) (hnano : r.nano < 1_000_000_000) (hoffset : r.offset = 0) :
    looseReading (write r) = some r := by
  have hdash : isBlank '-' = false := by decide
  have hcolon : isBlank ':' = false := by decide
  simp only [looseReading, write, List.append_assoc, List.cons_append]
  rw [readYear_year _ (by simp; decide)]
  simp only [Option.bind_eq_bind, Option.bind_some, expectLoose_cons hdash, readField_padded hmonth,
    readField_padded hday, expectDivider, readField_padded hhour, expectLoose_cons hcolon,
    readField_padded hminute, readField_padded hsecond, true_or, if_true]
  rw [readFraction_fraction hnano (by simp; decide) (by simp)]
  have hz : skipBlank ['Z'] = ['Z'] := by decide
  obtain ⟨date, hour, minute, second, nano, offset⟩ := r
  obtain rfl : offset = 0 := hoffset
  simp [hz, readLooseOffset, readUtc, readZulu]

end Stamp

/-- The text of an instant in universal time. -/
def Instant.stamp (t : Instant) : String := String.ofList (Stamp.write t.reading)

/-- The instant that a text shows in the loose grammar. -/
def Instant.ofLoose? (text : String) : Option Instant := Stamp.readLoose text.toList

/-- The instant that a text shows in the strict grammar. -/
def Instant.ofStrict? (text : String) : Option Instant := Stamp.readStrict text.toList

/-- The stamp of an instant is read back as that instant. -/
theorem Instant.ofLoose?_stamp (t : Instant) : Instant.ofLoose? t.stamp = some t := by
  have hvalid := Date.valid_ofDayNumber t.day
  have hle := monthLength_le (isLeapYear (Date.ofDayNumber t.day).year)
    (Date.ofDayNumber t.day).month
  have hmonth := month_le_of_day_le hvalid.2.1 hvalid.2.2
  have hsec := t.second_lt
  rw [Instant.ofLoose?, Instant.stamp, String.toList_ofList, Stamp.readLoose,
    Stamp.looseReading_write, Option.bind_some, Instant.ofReading?_reading]
  · simp only [Instant.reading, Instant.date]; omega
  · simp only [Instant.reading, Instant.date]; have := hvalid.2.2; omega
  · simp only [Instant.reading]; omega
  · simp only [Instant.reading]; omega
  · simp only [Instant.reading]; split <;> omega
  · simp only [Instant.reading]; omega
  · rfl

end LeaseBoard
