import LeaseBoard.Lease.Basic
import LeaseBoard.Proofs.Released
import LeaseBoard.Proofs.Step
set_option autoImplicit false

/-!
# Labels that count seconds

The last two columns of a lease show the time since its start and the time until its expiry.  `Spells` is
the form that such a label has, `H:MM:SS`, and the number of seconds that it stands for; `secondsOf?`
reads that number back.  `Tells` says that a label goes with two instants: it is empty if the second is
not the later one, and otherwise says the whole seconds between them.

Both columns are labels of this kind (`tells_spanLabel`), and what they say moves with the clock in one
direction (`Tells.secondsOf?_le`).  Main statement: `labels_count_whole_seconds`.
-/

namespace LeaseBoard

/-! ## The form of a label -/

/-- The digits of a number without superfluous zeros. -/
structure Numeral.IsPlain (cs : List Char) : Prop where
  nonempty : cs ≠ []
  isDigit : ∀ c ∈ cs, isDigit c = true
  eq_zero : cs.head? = some '0' → cs = ['0']

/-- Two digits of a number below sixty. -/
structure Numeral.IsSixtieth (cs : List Char) : Prop where
  length : cs.length = 2
  isDigit : ∀ c ∈ cs, isDigit c = true
  value_lt : value cs < 60

open Numeral

/-- A label says a number of seconds as `H:MM:SS`: hours without superfluous zeros, however many there
are, and two digits each for the minutes and seconds. -/
inductive Spells : String → Nat → Prop
  | intro {hours minutes seconds : List Char} (hhours : IsPlain hours) (hminutes : IsSixtieth minutes)
      (hseconds : IsSixtieth seconds) :
      Spells (String.ofList (hours ++ ':' :: minutes ++ ':' :: seconds))
        (3600 * value hours + 60 * value minutes + value seconds)

/-- The number of seconds that a label stands for. -/
def secondsOf? (label : String) : Option Nat :=
  match readAll label.toList with
  | some (hours, ':' :: rest) =>
    match read 2 2 rest with
    | some (minutes, ':' :: rest) =>
      match read 2 2 rest with
      | some (seconds, []) => some (3600 * hours + 60 * minutes + seconds)
      | _ => none
    | _ => none
  | _ => none

theorem Numeral.isPlain_digits (n : Nat) : IsPlain (digits n) where
  nonempty := digits_ne_nil n
  isDigit _ := isDigit_of_mem_digits
  eq_zero hhead := by
    obtain ⟨d, ds, hdigits, -, hzero⟩ := head_digits n
    rw [hdigits, List.head?_cons, Option.some.injEq] at hhead
    have hn : n = 0 := Decidable.not_not.1 fun hn => hzero hn hhead
    rw [hn, digits, if_pos (Nat.zero_lt_succ 9)]
    rfl

theorem Numeral.isSixtieth_padded {n : Nat} (h : n < 60) : IsSixtieth (padded 2 n) where
  length := length_padded (by decide) (Nat.lt_trans h (by decide))
  isDigit _ := isDigit_of_mem_padded
  value_lt := by rwa [value_padded]

/-- Two digits are read whatever follows. -/
theorem Numeral.IsSixtieth.read {cs : List Char} (h : IsSixtieth cs) (rest : List Char) :
    read 2 2 (cs ++ rest) = some (value cs, rest) :=
  read_of_isDigit h.isDigit (Nat.le_of_eq h.length.symm) (Nat.le_of_eq h.length) (Or.inl h.length)

/-- A label stands for the number of seconds that it says, and so says one number only. -/
theorem Spells.secondsOf? {label : String} {n : Nat} (h : Spells label n) :
    secondsOf? label = some n := by
  obtain ⟨hhours, hminutes, hseconds⟩ := h
  rename_i hours minutes seconds
  have hcolon : ∀ c ∈ (':' :: (minutes ++ ':' :: seconds)).head?, isDigit c = false := by
    simp [isDigit]
  have hread : readAll (hours ++ ':' :: (minutes ++ ':' :: seconds)) =
      some (value hours, ':' :: (minutes ++ ':' :: seconds)) :=
    read_of_isDigit hhours.isDigit (List.length_pos_iff.2 hhours.nonempty) (by simp) (Or.inr hcolon)
  have hlast : read 2 2 seconds = some (value seconds, []) := by
    simpa using hseconds.read []
  simp only [LeaseBoard.secondsOf?, String.toList_ofList, List.append_assoc, List.cons_append, hread,
    hminutes.read, hlast]

/-- The label of a span that is positive says its whole seconds. -/
theorem spells_spanLabel {ns : Int} (h : 0 < ns) : Spells (spanLabel ns) (ns.toNat / 1_000_000_000) := by
  have hspells := Spells.intro (isPlain_digits (ns.toNat / 1_000_000_000 / 3600))
    (@isSixtieth_padded (ns.toNat / 1_000_000_000 % 3600 / 60) (by omega))
    (@isSixtieth_padded (ns.toNat / 1_000_000_000 % 60) (by omega))
  have htotal : ns.toNat / 1_000_000_000 = 3600 * (ns.toNat / 1_000_000_000 / 3600) +
      60 * (ns.toNat / 1_000_000_000 % 3600 / 60) + ns.toNat / 1_000_000_000 % 60 := by omega
  rw [value_digits, value_padded, value_padded, ← htotal] at hspells
  rw [spanLabel, if_neg (Int.not_le.2 h)]
  exact hspells

/-! ## Labels of two instants -/

/-- The whole seconds from one instant to a later one. -/
def WholeSeconds (start finish : Instant) (n : Nat) : Prop :=
  n * 1_000_000_000 ≤ finish.nanos - start.nanos ∧
    finish.nanos - start.nanos < (n + 1) * 1_000_000_000

theorem WholeSeconds.eq {start finish : Instant} {n : Nat} (h : WholeSeconds start finish n) :
    n = (finish.nanos - start.nanos).toNat / 1_000_000_000 := by
  obtain ⟨hfrom, hto⟩ := h
  omega

/-- A label tells the time from one instant to another: it is empty if the second is not later, and
otherwise says the whole seconds between them. -/
structure Tells (label : String) (start finish : Instant) : Prop where
  eq_empty_iff : label = "" ↔ finish ≤ start
  spells : start < finish → ∃ n, Spells label n ∧ WholeSeconds start finish n

variable {a b : Instant}

/-- Away from leap seconds instants have the order of their places on the number line. -/
theorem Instant.le_iff_nanos_le (ha : a.isLeap = false) (hb : b.isLeap = false) :
    a ≤ b ↔ a.nanos ≤ b.nanos := by
  rw [le_iff_since_nonneg ha hb, since_eq hb ha]
  omega

/-- The label of the span between two instants tells the time from one to the other. -/
theorem tells_spanLabel (ha : a.isLeap = false) (hb : b.isLeap = false) :
    Tells (spanLabel (spanBetween a b)) a b where
  eq_empty_iff := by
    rw [spanLabel_eq_empty_iff, ← spanBetween_eq_zero_iff ha hb]
    exact ⟨fun h => Int.le_antisymm h (spanBetween_nonneg a b), fun h => Int.le_of_eq h⟩
  spells hlt := by
    have hlater : a.nanos < b.nanos := by
      rw [← Instant.not_le, Instant.le_iff_nanos_le hb ha] at hlt
      exact Int.not_le.1 hlt
    have hspan : spanBetween a b = b.nanos - a.nanos := by
      rw [spanBetween, Instant.since_eq hb ha]
      omega
    refine ⟨_, spells_spanLabel (by omega), ?_⟩
    rw [hspan, WholeSeconds]
    omega

/-- Of two labels the one of the shorter time stands for no more seconds, and an empty one for none. -/
theorem Tells.secondsOf?_le {label other : String} {c d : Instant} (h : Tells label a b)
    (hother : Tells other c d) (ha : a.isLeap = false) (hb : b.isLeap = false)
    (hc : c.isLeap = false) (hd : d.isLeap = false) (hle : b.nanos - a.nanos ≤ d.nanos - c.nanos) :
    secondsOf? label ≤ secondsOf? other := by
  by_cases hempty : b ≤ a
  · rw [h.eq_empty_iff.2 hempty]
    exact Option.none_le
  · have hlonger : ¬ d ≤ c := by
      rw [Instant.le_iff_nanos_le hb ha] at hempty
      rw [Instant.le_iff_nanos_le hd hc]
      omega
    obtain ⟨n, hspells, hfrom, -⟩ := h.spells hempty
    obtain ⟨m, hmore, -, hto⟩ := hother.spells hlonger
    rw [hspells.secondsOf?, hmore.secondsOf?, Option.some_le_some]
    omega

/-! ## The columns of a lease -/

namespace Lease

/-- The label of the column with the time since the start. -/
def sinceLabel (lease : Lease) (now : Instant) : String := (Cell.elapsed lease.started).label now

/-- The label of the column with the time until the expiry. -/
def untilLabel (lease : Lease) (now : Instant) : String := (Cell.remaining lease.expiry).label now

variable {lease : Lease} {now later : Instant}

theorem untilLabel_of_expiry {t : Instant} (h : lease.expiry = some t) :
    lease.untilLabel now = spanLabel (spanBetween now t) := by
  rw [untilLabel, h]
  rfl

theorem sinceLabel_of_started {t : Instant} (h : lease.started = some t) :
    lease.sinceLabel now = spanLabel (spanBetween t now) := by
  rw [sinceLabel, h]
  rfl

theorem isExpired_iff_of_expiry {t : Instant} (h : lease.expiry = some t) :
    lease.isExpired now = true ↔ t ≤ now := by
  rw [isExpired, h, decide_eq_true_iff]

theorem untilLabel_eq_empty_iff (hnow : now.isLeap = false)
    (hexpiry : ∀ t ∈ lease.expiry, t.isLeap = false) :
    lease.untilLabel now = "" ↔ lease.expiry = none ∨ lease.isExpired now = true := by
  cases ht : lease.expiry with
  | none =>
    rw [untilLabel, ht]
    exact iff_of_true rfl (Or.inl rfl)
  | some t =>
    rw [untilLabel_of_expiry ht, (tells_spanLabel hnow (hexpiry t ht)).eq_empty_iff,
      isExpired_iff_of_expiry ht]
    simp

theorem sinceLabel_eq_empty_iff (hnow : now.isLeap = false)
    (hstart : ∀ t ∈ lease.started, t.isLeap = false) :
    lease.sinceLabel now = "" ↔ ∀ t, lease.started = some t → now ≤ t := by
  cases ht : lease.started with
  | none =>
    rw [sinceLabel, ht]
    exact iff_of_true rfl fun t h => by cases h
  | some t =>
    rw [sinceLabel_of_started ht, (tells_spanLabel (hstart t ht) hnow).eq_empty_iff]
    simp

/-- The time until the expiry never grows. -/
theorem secondsOf?_untilLabel_le (hnow : now.isLeap = false) (hlater : later.isLeap = false)
    (hexpiry : ∀ t ∈ lease.expiry, t.isLeap = false) (hle : now ≤ later) :
    secondsOf? (lease.untilLabel later) ≤ secondsOf? (lease.untilLabel now) := by
  cases ht : lease.expiry with
  | none =>
    rw [untilLabel, untilLabel, ht]
    exact Option.none_le
  | some t =>
    have hleap := hexpiry t ht
    rw [Instant.le_iff_nanos_le hnow hlater] at hle
    rw [untilLabel_of_expiry ht, untilLabel_of_expiry ht]
    exact (tells_spanLabel hlater hleap).secondsOf?_le (tells_spanLabel hnow hleap) hlater hleap hnow
      hleap (by omega)

/-- The time since the start never shrinks. -/
theorem secondsOf?_sinceLabel_le (hnow : now.isLeap = false) (hlater : later.isLeap = false)
    (hstart : ∀ t ∈ lease.started, t.isLeap = false) (hle : now ≤ later) :
    secondsOf? (lease.sinceLabel now) ≤ secondsOf? (lease.sinceLabel later) := by
  cases ht : lease.started with
  | none =>
    rw [sinceLabel, sinceLabel, ht]
    exact Option.none_le
  | some t =>
    have hleap := hstart t ht
    rw [Instant.le_iff_nanos_le hnow hlater] at hle
    rw [sinceLabel_of_started ht, sinceLabel_of_started ht]
    exact (tells_spanLabel hleap hnow).secondsOf?_le (tells_spanLabel hleap hlater) hleap hnow hleap
      hlater (by omega)

end Lease

/-- The last two columns of a lease count whole seconds.  Away from leap seconds the time until the
expiry is empty exactly if there is none or the lease has expired, and the time since the start exactly
if there is none or it is still to come; otherwise each is written `H:MM:SS` and says the whole
seconds.  A label says one number only, and as the clock goes on the first never grows and the second
never shrinks. -/
theorem labels_count_whole_seconds (lease : Lease) (now : Instant) (hnow : now.isLeap = false)
    (hstart : ∀ t ∈ lease.started, t.isLeap = false)
    (hexpiry : ∀ t ∈ lease.expiry, t.isLeap = false) :
    lease.cells.map (Cell.label? (some now)) = [some lease.program, some lease.user, some lease.host,
      some lease.process, some lease.status.name, some (lease.sinceLabel now),
      some (lease.untilLabel now)] ∧
    (lease.untilLabel now = "" ↔ lease.expiry = none ∨ lease.isExpired now = true) ∧
    (∀ t, lease.expiry = some t → lease.isExpired now = false →
      ∃ n, Spells (lease.untilLabel now) n ∧ WholeSeconds now t n) ∧
    (lease.sinceLabel now = "" ↔ ∀ t, lease.started = some t → now ≤ t) ∧
    (∀ t, lease.started = some t → t < now →
      ∃ n, Spells (lease.sinceLabel now) n ∧ WholeSeconds t now n) ∧
    (∀ label n, Spells label n → secondsOf? label = some n) ∧
    ∀ later, later.isLeap = false → now ≤ later →
      secondsOf? (lease.untilLabel later) ≤ secondsOf? (lease.untilLabel now) ∧
      secondsOf? (lease.sinceLabel now) ≤ secondsOf? (lease.sinceLabel later) := by
  refine ⟨?_, Lease.untilLabel_eq_empty_iff hnow hexpiry, ?_,
    Lease.sinceLabel_eq_empty_iff hnow hstart, ?_, fun _ _ => Spells.secondsOf?, ?_⟩
  · simp [Lease.cells, Cell.label?_some, Cell.label, Lease.sinceLabel, Lease.untilLabel]
  · intro t ht halive
    have hahead : now < t := fun hle => by simp [(Lease.isExpired_iff_of_expiry ht).2 hle] at halive
    rw [Lease.untilLabel_of_expiry ht]
    exact (tells_spanLabel hnow (hexpiry t ht)).spells hahead
  · intro t ht hbegun
    rw [Lease.sinceLabel_of_started ht]
    exact (tells_spanLabel (hstart t ht) hnow).spells hbegun
  · intro later hlater hle
    exact ⟨Lease.secondsOf?_untilLabel_le hnow hlater hexpiry hle,
      Lease.secondsOf?_sinceLabel_le hnow hlater hstart hle⟩

/-- Half a second before it expires a lease still shows a remaining time, of no whole second, and next
to it more than an hour since its start. -/
theorem labels_count_whole_seconds_last_half_second :
    let lease := { Lease.ofParts (releasedEntry "a" "gpu") "a" "gpu" (some (atSecond 5)) with
      started := some (atSecond (-4000)) }
    ∃ now, (atSecond 4).add? 500_000_000 = some now ∧ lease.isExpired now = false ∧
      Spells (lease.untilLabel now) 0 ∧ Spells (lease.sinceLabel now) 4004 := by
  intro lease
  refine ⟨((atSecond 4).add? 500_000_000).getD default, rfl, by decide, ?_⟩
  obtain ⟨-, -, huntil, -, hsince, -⟩ := labels_count_whole_seconds lease
    (((atSecond 4).add? 500_000_000).getD default) (by decide) (by decide) (by decide)
  obtain ⟨n, hremaining, hn⟩ := huntil (atSecond 5) rfl (by decide)
  obtain ⟨m, helapsed, hm⟩ := hsince (atSecond (-4000)) rfl (by decide)
  obtain rfl : n = 0 := hn.eq
  obtain rfl : m = 4004 := hm.eq
  exact ⟨hremaining, helapsed⟩

end LeaseBoard
