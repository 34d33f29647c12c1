import LeaseBoard.Time.Calendar
set_option autoImplicit false

/-!
# Instants

Points of universal time with nanosecond resolution, within a fixed range of years.  A leap second
is part of the second before it: its fraction counts on from one billion nanoseconds to below two.

The module fixes the order of instants, the signed distance between two of them and the checked
addition of a distance.  Main statements: the order is linear (`le_total`, `le_antisymm`,
`le_trans`), and away from leap seconds distance and addition are those of the number line
(`since_eq`, `nanos_of_add?`).
-/

namespace LeaseBoard

/-- The first year of the range of instants. -/
def firstYear : Int := -262143

/-- The last year of the range of instants. -/
def lastYear : Int := 262142

/-- Whether a day number lies in the range of instants. -/
def InRange (day : Int) : Prop :=
  daysBeforeYear firstYear ≤ day ∧ day < daysBeforeYear (lastYear + 1)

instance (day : Int) : Decidable (InRange day) := inferInstanceAs (Decidable (_ ∧ _))

/-- A point of universal time: the number of its day, the second of the day, and the nanoseconds
since that second began.  Only the last second of a minute has more than a billion of them. -/
@[ext] structure Instant where
  day : Int
  second : Nat
  nano : Nat
  inRange : InRange day
  second_lt : second < 86_400
  nano_lt : nano < 2_000_000_000
  second_of_leap : 1_000_000_000 ≤ nano → second % 60 = 59
  deriving DecidableEq, Repr

namespace Instant

instance : Inhabited Instant :=
  ⟨⟨0, 0, 0, by decide, by decide, by decide, by decide⟩⟩

/-- The date of an instant. -/
def date (t : Instant) : Date := Date.ofDayNumber t.day

/-- The year of an instant. -/
def year (t : Instant) : Int := yearOfDayNumber t.day

/-- Whether an instant lies in a leap second. -/
def isLeap (t : Instant) : Bool := 1_000_000_000 ≤ t.nano

/-! ## Order -/

/-- Instants are ordered by day, second of the day and nanosecond. -/
def le (a b : Instant) : Prop :=
  a.day < b.day ∨ (a.day = b.day ∧
    (a.second < b.second ∨ (a.second = b.second ∧ a.nano ≤ b.nano)))

instance : LE Instant := ⟨le⟩

instance : LT Instant := ⟨fun a b => ¬ b ≤ a⟩

instance (a b : Instant) : Decidable (a ≤ b) := inferInstanceAs (Decidable (_ ∨ _))

instance (a b : Instant) : Decidable (a < b) := inferInstanceAs (Decidable (¬ _))

theorem le_iff {a b : Instant} : a ≤ b ↔ a.day < b.day ∨ (a.day = b.day ∧
    (a.second < b.second ∨ (a.second = b.second ∧ a.nano ≤ b.nano))) := Iff.rfl

theorem not_le {a b : Instant} : ¬ a ≤ b ↔ b < a := Iff.rfl

theorem le_refl (a : Instant) : a ≤ a := by
  rw [le_iff]; omega

theorem le_trans {a b c : Instant} (h₁ : a ≤ b) (h₂ : b ≤ c) : a ≤ c := by
  rw [le_iff] at *; omega

theorem le_antisymm {a b : Instant} (h₁ : a ≤ b) (h₂ : b ≤ a) : a = b := by
  rw [le_iff] at *
  ext <;> omega

theorem le_total (a b : Instant) : a ≤ b ∨ b ≤ a := by
  rw [le_iff, le_iff]; omega

/-! ## Distance -/

/-- The place of an instant on the number line: nanoseconds since the first day began, leap seconds
not counted. -/
def nanos (t : Instant) : Int :=
  (t.day * 86_400 + t.second) * 1_000_000_000 + t.nano

/-- The nanoseconds from one instant to a later one; negative if it is earlier.  Within a day, a
leap second that lies between the two counts. -/
def since (a b : Instant) : Int :=
  let leap : Int :=
    if b.second < a.second ∧ b.isLeap then 1
    else if a.second < b.second ∧ a.isLeap then -1
    else 0
  a.nanos - b.nanos + leap * 1_000_000_000

theorem since_eq {a b : Instant} (ha : a.isLeap = false) (hb : b.isLeap = false) :
    a.since b = a.nanos - b.nanos := by
  simp [since, ha, hb]

@[simp] theorem since_self (a : Instant) : a.since a = 0 := by
  simp [since]

/-- Away from leap seconds an instant is not after another exactly when the distance is not
negative. -/
theorem le_iff_since_nonneg {a b : Instant} (ha : a.isLeap = false) (hb : b.isLeap = false) :
    a ≤ b ↔ 0 ≤ b.since a := by
  rw [since_eq hb ha, le_iff]
  simp only [isLeap, decide_eq_false_iff_not] at ha hb
  have := a.second_lt
  have := b.second_lt
  simp only [nanos]
  omega

/-! ## Addition -/

/-- The instant at a place of the number line, if it is in range. -/
def ofNanos? (n : Int) : Option Instant :=
  let day := n / 86_400_000_000_000
  if h : InRange day then
    some
      { day := day
        second := (n / 1_000_000_000 % 86_400).toNat
        nano := (n % 1_000_000_000).toNat
        inRange := h
        second_lt := by omega
        nano_lt := by omega
        second_of_leap := by omega }
  else none

/-- An instant moved by a number of nanoseconds, if that is still in range.  Out of a leap second,
a move forward starts from the fraction of its last ordinary second and a move back of a second or
more from the second after it. -/
def add? (t : Instant) (ns : Int) : Option Instant :=
  if h : t.isLeap then
    if hpast : 2_000_000_000 ≤ t.nano + ns then ofNanos? (t.nanos - 1_000_000_000 + ns)
    else if ns ≤ -1_000_000_000 then ofNanos? (t.nanos + ns)
    else
      some
        { t with
          nano := (t.nano + ns).toNat
          nano_lt := by omega
          second_of_leap := fun _ => t.second_of_leap (of_decide_eq_true h) }
  else ofNanos? (t.nanos + ns)

theorem isLeap_of_ofNanos? {n : Int} {t : Instant} (h : ofNanos? n = some t) :
    t.isLeap = false := by
  simp only [ofNanos?] at h
  split at h
  case isTrue =>
    injection h with h
    subst h
    simp only [isLeap, decide_eq_false_iff_not]
    omega
  case isFalse => simp at h

theorem nanos_of_ofNanos? {n : Int} {t : Instant} (h : ofNanos? n = some t) : t.nanos = n := by
  simp only [ofNanos?] at h
  split at h
  case isTrue =>
    injection h with h
    subst h
    simp only [nanos]
    omega
  case isFalse => simp at h

theorem ofNanos?_eq_none_iff {n : Int} :
    ofNanos? n = none ↔ ¬ InRange (n / 86_400_000_000_000) := by
  simp only [ofNanos?]
  split <;> simp_all

/-- Away from leap seconds a moved instant lies where the number line says. -/
theorem nanos_of_add? {t u : Instant} {ns : Int} (ht : t.isLeap = false)
    (h : t.add? ns = some u) : u.nanos = t.nanos + ns := by
  simp only [add?, ht] at h
  exact nanos_of_ofNanos? h

/-! ## Civil readings -/

/-- A reading of calendar and clock, with the fraction of the second in nanoseconds and the offset
from universal time in minutes. -/
structure Reading where
  date : Date
  hour : Nat
  minute : Nat
  second : Nat
  nano : Nat
  offset : Int
  deriving DecidableEq, Repr

/-- A reading that a clock can show: the date exists and is in range, the second may be a leap
second, and the offset is below a day. -/
def Reading.Valid (r : Reading) : Prop :=
  r.date.Valid ∧ InRange r.date.dayNumber ∧ r.hour < 24 ∧ r.minute < 60 ∧ r.second ≤ 60 ∧
    r.nano < 1_000_000_000 ∧ r.offset.natAbs < 24 * 60

instance (r : Reading) : Decidable r.Valid := inferInstanceAs (Decidable (_ ∧ _))

/-- The minutes of a reading in universal time, counted from the first day. -/
def Reading.minutes (r : Reading) : Int :=
  r.date.dayNumber * 1440 + r.hour * 60 + r.minute - r.offset

/-- The instant of a reading, if a clock can show it and the instant is in range.  A leap second is
kept as the second before it with a billion nanoseconds more. -/
def ofReading? (r : Reading) : Option Instant :=
  if h : r.Valid ∧ InRange (r.minutes / 1440) then
    some
      { day := r.minutes / 1440
        second := (r.minutes % 1440).toNat * 60 + min r.second 59
        nano := r.nano + if r.second = 60 then 1_000_000_000 else 0
        inRange := h.2
        second_lt := by omega
        nano_lt := by have := h.1.2.2.2.2.2.1; split <;> omega
        second_of_leap := by have := h.1.2.2.2.2.2.1; split <;> omega }
  else none

/-- The reading of an instant in universal time; a leap second shows as second sixty. -/
def reading (t : Instant) : Reading where
  date := t.date
  hour := t.second / 3600
  minute := t.second / 60 % 60
  second := if t.isLeap then 60 else t.second % 60
  nano := t.nano % 1_000_000_000
  offset := 0

/-- Every instant is the instant of its own reading. -/
theorem ofReading?_reading (t : Instant) : ofReading? t.reading = some t := by
  have hday : t.reading.date.dayNumber = t.day := Date.dayNumber_ofDayNumber t.day
  have hsec := t.second_lt
  have hnano := t.nano_lt
  have hleap := t.second_of_leap
  have hminutes : t.reading.minutes = t.day * 1440 + (t.second / 60 : Nat) := by
    simp only [Reading.minutes, hday]
    simp only [reading]
    omega
  have hdiv : t.reading.minutes / 1440 = t.day := by rw [hminutes]; omega
  have hmod : (t.reading.minutes % 1440).toNat = t.second / 60 := by rw [hminutes]; omega
  have hvalid : t.reading.Valid ∧ InRange (t.reading.minutes / 1440) := by
    refine ⟨⟨Date.valid_ofDayNumber t.day, ?_, ?_, ?_, ?_, ?_, ?_⟩, ?_⟩
    · rw [hday]; exact t.inRange
    · simp only [reading]; omega
    · simp only [reading]; omega
    · simp only [reading]; split <;> omega
    · simp only [reading]; omega
    · simp [reading]
    · rw [hdiv]; exact t.inRange
  rw [ofReading?, dif_pos hvalid]
  congr 1
  ext
  · exact hdiv
  · simp only [hmod]
    simp only [reading, isLeap, decide_eq_true_eq]
    split
    case isTrue h => have := hleap h; omega
    case isFalse h => omega
  · simp only [reading, isLeap, decide_eq_true_eq]
    split <;> split <;> omega

end Instant

end LeaseBoard
