set_option autoImplicit false

/-!
# The civil calendar

Dates of the proleptic Gregorian calendar and their day numbers, counted from the first of January
of the year one.  Main statements: `Date.ofDayNumber_dayNumber` and `Date.dayNumber_ofDayNumber`,
the two directions are inverse to each other.
-/

namespace LeaseBoard

/-! ## Years -/

/-- A leap year is divisible by four, and by four hundred if it is divisible by a hundred. -/
def isLeapYear (year : Int) : Bool := year % 4 = 0 && (year % 100 ≠ 0 || year % 400 = 0)

/-- The number of days from the first of January of the year one to that of another year. -/
def daysBeforeYear (year : Int) : Int :=
  let past := year - 1
  365 * past + past / 4 - past / 100 + past / 400

/-- The year that a day number falls in.  Four hundred years have 146097 days, so the mean length
of a year gives the year up to one. -/
def yearOfDayNumber (n : Int) : Int :=
  let guess := 400 * n / 146097 + 1
  if n < daysBeforeYear guess then guess - 1
  else if daysBeforeYear (guess + 1) ≤ n then guess + 1
  else guess

theorem daysBeforeYear_succ (year : Int) :
    daysBeforeYear (year + 1) = daysBeforeYear year + if isLeapYear year then 366 else 365 := by
  simp only [daysBeforeYear, isLeapYear, Bool.and_eq_true, Bool.or_eq_true, decide_eq_true_eq]
  split <;> omega

theorem daysBeforeYear_yearOfDayNumber_le (n : Int) :
    daysBeforeYear (yearOfDayNumber n) ≤ n := by
  simp only [yearOfDayNumber]
  split
  case isTrue h => simp only [daysBeforeYear] at *; omega
  case isFalse h =>
    split
    case isTrue h' => exact h'
    case isFalse h' => omega

theorem lt_daysBeforeYear_yearOfDayNumber_succ (n : Int) :
    n < daysBeforeYear (yearOfDayNumber n + 1) := by
  simp only [yearOfDayNumber]
  split
  case isTrue h => simpa using h
  case isFalse h =>
    split
    case isTrue h' => simp only [daysBeforeYear] at *; omega
    case isFalse h' => omega

theorem daysBeforeYear_lt_of_lt {a b : Int} (h : a < b) :
    daysBeforeYear (a + 1) ≤ daysBeforeYear b := by
  simp only [daysBeforeYear]
  omega

/-- A day number between the starts of two consecutive years falls in the first of them. -/
theorem yearOfDayNumber_eq {n year : Int} (h₁ : daysBeforeYear year ≤ n)
    (h₂ : n < daysBeforeYear (year + 1)) : yearOfDayNumber n = year := by
  have h₃ := daysBeforeYear_yearOfDayNumber_le n
  have h₄ := lt_daysBeforeYear_yearOfDayNumber_succ n
  rcases Int.lt_trichotomy (yearOfDayNumber n) year with h | h | h
  · have := daysBeforeYear_lt_of_lt h
    omega
  · exact h
  · have := daysBeforeYear_lt_of_lt h
    omega

/-! ## Months -/

/-- The lengths of the twelve months. -/
def monthLengths (leap : Bool) : List Nat :=
  [31, if leap then 29 else 28, 31, 30, 31, 30, 31, 31, 30, 31, 30, 31]

/-- The number of days of a month, counted from one; zero for a month that does not exist. -/
def monthLength (leap : Bool) (month : Nat) : Nat :=
  if month = 0 then 0 else ((monthLengths leap)[month - 1]?).getD 0

/-- The number of days of the year before the first of a month. -/
def daysBeforeMonth (leap : Bool) (month : Nat) : Nat :=
  ((monthLengths leap).take (month - 1)).foldr (· + ·) 0

/-- Splits an offset into months of given lengths: how many months are past, and how many days of
the month reached. -/
def splitMonths : List Nat → Nat → Nat × Nat
  | [], n => (0, n)
  | length :: rest, n =>
    if n < length then (0, n)
    else
      let split := splitMonths rest (n - length)
      (split.1 + 1, split.2)

/-- The month and the day of the month of a day of the year counted from zero. -/
def monthOfDay (leap : Bool) (n : Nat) : Nat × Nat :=
  let split := splitMonths (monthLengths leap) n
  (split.1 + 1, split.2 + 1)

/-- The number of days of a year. -/
def yearLength (leap : Bool) : Nat := if leap then 366 else 365

theorem monthOfDay_valid (leap : Bool) {n : Nat} (h : n < yearLength leap) :
    let md := monthOfDay leap n
    (1 ≤ md.1 ∧ md.1 ≤ 12) ∧ (1 ≤ md.2 ∧ md.2 ≤ monthLength leap md.1) ∧
      daysBeforeMonth leap md.1 + (md.2 - 1) = n := by
  cases leap with
  | true =>
    have hall : ∀ m : Fin 366, (let md := monthOfDay true m.val
        (1 ≤ md.1 ∧ md.1 ≤ 12) ∧ (1 ≤ md.2 ∧ md.2 ≤ monthLength true md.1) ∧
          daysBeforeMonth true md.1 + (md.2 - 1) = m.val) := by decide +kernel
    exact hall ⟨n, h⟩
  | false =>
    have hall : ∀ m : Fin 365, (let md := monthOfDay false m.val
        (1 ≤ md.1 ∧ md.1 ≤ 12) ∧ (1 ≤ md.2 ∧ md.2 ≤ monthLength false md.1) ∧
          daysBeforeMonth false md.1 + (md.2 - 1) = m.val) := by decide +kernel
    exact hall ⟨n, h⟩

theorem monthLength_le (leap : Bool) (month : Nat) : monthLength leap month ≤ 31 := by
  by_cases h : month ≤ 12
  · have hall : ∀ l : Bool, ∀ m : Fin 13, monthLength l m.val ≤ 31 := by decide
    exact hall leap ⟨month, by omega⟩
  · have hnone : (monthLengths leap)[month - 1]? = none :=
      List.getElem?_eq_none (by simp [monthLengths]; omega)
    simp [monthLength, hnone]

/-- Only the twelve months have days. -/
theorem month_le_of_day_le {leap : Bool} {month day : Nat} (hd : 1 ≤ day)
    (hday : day ≤ monthLength leap month) : month ≤ 12 := by
  rcases Nat.lt_or_ge 12 month with h | h
  · have hnone : (monthLengths leap)[month - 1]? = none :=
      List.getElem?_eq_none (by simp [monthLengths]; omega)
    simp [monthLength, hnone] at hday
    omega
  · exact h

theorem monthOfDay_daysBeforeMonth (leap : Bool) {month day : Nat} (hm : 1 ≤ month)
    (hd : 1 ≤ day) (hday : day ≤ monthLength leap month) :
    daysBeforeMonth leap month + (day - 1) < yearLength leap ∧
      monthOfDay leap (daysBeforeMonth leap month + (day - 1)) = (month, day) := by
  have hmonth : month ≤ 12 := month_le_of_day_le hd hday
  have hall : ∀ l : Bool, ∀ m : Fin 12, ∀ d : Fin 31, d.val + 1 ≤ monthLength l (m.val + 1) →
      daysBeforeMonth l (m.val + 1) + d.val < yearLength l ∧
        monthOfDay l (daysBeforeMonth l (m.val + 1) + d.val) = (m.val + 1, d.val + 1) := by
    decide +kernel
  have hle := monthLength_le leap month
  have h := hall leap ⟨month - 1, by omega⟩ ⟨day - 1, by omega⟩
  simp only [Nat.sub_add_cancel hm, Nat.sub_add_cancel hd] at h
  exact h hday

/-! ## Dates -/

/-- A year, a month and a day of the month, both counted from one. -/
structure Date where
  year : Int
  month : Nat
  day : Nat
  deriving DecidableEq, Repr, Inhabited

namespace Date

/-- The calendar has the month and the month has the day. -/
def Valid (d : Date) : Prop :=
  1 ≤ d.month ∧ 1 ≤ d.day ∧ d.day ≤ monthLength (isLeapYear d.year) d.month

instance (d : Date) : Decidable d.Valid := inferInstanceAs (Decidable (_ ∧ _ ∧ _))

/-- The number of days since the first of January of the year one. -/
def dayNumber (d : Date) : Int :=
  daysBeforeYear d.year + (daysBeforeMonth (isLeapYear d.year) d.month : Nat) + d.day - 1

/-- The date with a day number. -/
def ofDayNumber (n : Int) : Date :=
  let year := yearOfDayNumber n
  let md := monthOfDay (isLeapYear year) (n - daysBeforeYear year).toNat
  ⟨year, md.1, md.2⟩

theorem toNat_sub_lt_yearLength (n : Int) :
    (n - daysBeforeYear (yearOfDayNumber n)).toNat <
      yearLength (isLeapYear (yearOfDayNumber n)) := by
  have h₁ := daysBeforeYear_yearOfDayNumber_le n
  have h₂ := lt_daysBeforeYear_yearOfDayNumber_succ n
  rw [daysBeforeYear_succ] at h₂
  unfold yearLength
  split at h₂ <;> simp_all <;> omega

theorem valid_ofDayNumber (n : Int) : (ofDayNumber n).Valid := by
  have h := monthOfDay_valid _ (toNat_sub_lt_yearLength n)
  exact ⟨h.1.1, h.2.1.1, h.2.1.2⟩

theorem dayNumber_ofDayNumber (n : Int) : (ofDayNumber n).dayNumber = n := by
  have h := monthOfDay_valid _ (toNat_sub_lt_yearLength n)
  have h₁ := daysBeforeYear_yearOfDayNumber_le n
  simp only [ofDayNumber, dayNumber]
  have h₂ := h.2.2
  have h₃ := h.2.1.1
  omega

theorem ofDayNumber_dayNumber {d : Date} (h : d.Valid) : ofDayNumber d.dayNumber = d := by
  obtain ⟨hm, hd, hday⟩ := h
  obtain ⟨hlt, hmd⟩ := monthOfDay_daysBeforeMonth _ hm hd hday
  have hyear : yearOfDayNumber d.dayNumber = d.year := by
    apply yearOfDayNumber_eq
    · simp only [dayNumber]; omega
    · rw [daysBeforeYear_succ]
      unfold yearLength at hlt
      simp only [dayNumber]
      split <;> simp_all <;> omega
  have hoff : (d.dayNumber - daysBeforeYear d.year).toNat =
      daysBeforeMonth (isLeapYear d.year) d.month + (d.day - 1) := by
    simp only [dayNumber]; omega
  obtain ⟨year, month, day⟩ := d
  simp only [ofDayNumber, hyear, hoff, hmd]

end Date

end LeaseBoard
