import LeaseBoard.Proofs.Change
import LeaseBoard.Proofs.Results
import LeaseBoard.Proofs.Step
set_option autoImplicit false

/-!
# The roster without expiry

What the roster would be if no lease ever expired, as a function of the lists of leases that were
accepted.  The roster of a board differs from it by expired leases only: `Agrees now` says that two
rosters hold the same leases that have not expired at an instant, and updates and the clock keep it.

Main statements: `get?_update_of_nodup` (the roster after a list of leases, in closed form) and
`Agrees.update`.
-/

namespace LeaseBoard

/-! ## Listed rows -/

/-- The leases of a list of entries have different identities. -/
theorem Lease.nodup_ids_of_collect {entries : List LeaseEntry} {leases : List Lease}
    (h : Lease.collect entries = .ok leases) : (leases.map Lease.id).Nodup := by
  obtain ⟨rows, -, rfl⟩ := Except.map_eq_ok h
  exact Arrival.nodup_ids_collect Lease.id rows

/-- The last row with an identity is that of the last entry that names the identity. -/
theorem Tabled.last?_of_mapM {ε α : Type} [Tabled α] {ofEntry : ε → Except Failure α}
    {named : ε → Option String}
    (hnamed : ∀ {entry row}, ofEntry entry = .ok row → named entry = some (id row))
    {entries : List ε} {rows : List α} (h : entries.mapM ofEntry = .ok rows) (key : String) :
    ((entries.reverse.find? fun entry => named entry = some key) = none ∧ last? rows key = none) ∨
      ∃ entry row, (entries.reverse.find? fun entry => named entry = some key) = some entry ∧
        ofEntry entry = .ok row ∧ last? rows key = some row := by
  induction entries generalizing rows with
  | nil =>
    cases h
    exact Or.inl ⟨rfl, rfl⟩
  | cons entry rest ih =>
    rw [List.mapM_cons] at h
    obtain ⟨first, hentry, h⟩ := Except.bind_eq_ok h
    obtain ⟨others, hrest, h⟩ := Except.bind_eq_ok h
    cases h
    have hfirst : named entry = some (id first) := hnamed hentry
    rw [List.reverse_cons, List.find?_append, last?_cons]
    obtain ⟨hfind, hlast⟩ | ⟨later, row, hfind, hrow, hlast⟩ := ih hrest
    · rw [hfind, hlast]
      by_cases hid : id first = key
      · exact Or.inr ⟨entry, first, by simp [hfirst, hid], hentry, by simp [hid]⟩
      · exact Or.inl ⟨by simp [hfirst, hid], by simp [hid]⟩
    · rw [hfind, hlast]
      exact Or.inr ⟨later, row, rfl, hrow, rfl⟩

/-- The collected row with an identity is that of the last entry that names the identity. -/
theorem Tabled.last?_of_collect {ε α : Type} [Tabled α] {ofEntry : ε → Except Failure α}
    {named : ε → Option String}
    (hnamed : ∀ {entry row}, ofEntry entry = .ok row → named entry = some (id row))
    {entries : List ε} {rows : List α}
    (h : (entries.mapM ofEntry).map (Arrival.collect id) = .ok rows) (key : String) :
    ((entries.reverse.find? fun entry => named entry = some key) = none ∧ last? rows key = none) ∨
      ∃ entry row, (entries.reverse.find? fun entry => named entry = some key) = some entry ∧
        ofEntry entry = .ok row ∧ last? rows key = some row := by
  obtain ⟨all, hall, rfl⟩ := Except.map_eq_ok h
  rw [last?_collect all key]
  exact last?_of_mapM hnamed hall key

/-- An entry that makes a lease gives an identity, a resource and an instant of expiry in the calendar,
and the lease is made of these. -/
theorem Lease.ofEntry_eq_ok {entry : LeaseEntry} {lease : Lease} (h : ofEntry entry = .ok lease) :
    entry.id? = some lease.id ∧ entry.resource? = some lease.resource ∧
      expiryOf (Status.ofName entry.status) entry.lastRenewal (setInstant? entry.released)
        entry.duration entry.decay = .ok lease.expiry ∧
      lease = ofParts entry lease.id lease.resource lease.expiry := by
  unfold ofEntry at h
  cases hid : entry.id? with
  | none => rw [hid] at h; cases h
  | some id =>
    cases hresource : entry.resource? with
    | none => rw [hid, hresource] at h; cases h
    | some resource =>
      simp only [hid, hresource] at h
      obtain ⟨expiry, hexpiry, rfl⟩ := Except.map_eq_ok h
      exact ⟨rfl, rfl, hexpiry, rfl⟩

/-- A lease has the identity and the resource of its entry. -/
theorem Lease.parts_of_ofEntry {entry : LeaseEntry} {lease : Lease} (h : ofEntry entry = .ok lease) :
    entry.id? = some lease.id ∧ entry.resource? = some lease.resource := by
  obtain ⟨hid, hresource, -, -⟩ := ofEntry_eq_ok h
  exact ⟨hid, hresource⟩

/-- A lease of a list of entries has the identity and the resource of one of them. -/
theorem Lease.exists_entry_of_collect {entries : List LeaseEntry} {leases : List Lease}
    (h : collect entries = .ok leases) {lease : Lease} (hmem : lease ∈ leases) :
    ∃ entry ∈ entries, entry.id? = some lease.id ∧ entry.resource? = some lease.resource := by
  have hlast : Tabled.last? leases lease.id = some lease :=
    (Tabled.last?_eq_some_iff (nodup_ids_of_collect h)).2 ⟨hmem, rfl⟩
  obtain ⟨-, hnone⟩ | ⟨entry, row, hfind, hrow, hlastRow⟩ :=
    Tabled.last?_of_collect (fun hentry => (parts_of_ofEntry hentry).1) h lease.id
  · rw [hlast] at hnone
    cases hnone
  · obtain rfl := Option.some.inj (hlast.symm.trans hlastRow)
    exact ⟨entry, List.mem_reverse.1 (List.mem_of_find?_eq_some hfind), parts_of_ofEntry hrow⟩

namespace Roster

/-- Where identities do not repeat, the last live lease with an identity is the listed one, if it is
live. -/
theorem last?_live {leases : List Lease} (h : (leases.map Lease.id).Nodup) (now : Instant)
    (id : String) :
    Tabled.last? (live leases now) id =
      (Tabled.last? leases id).filter fun lease => !lease.isExpired now := by
  have hlive : ((live leases now).map Lease.id).Nodup := h.sublist (List.filter_sublist.map _)
  ext lease
  rw [Tabled.last?_eq_some_iff hlive, Option.filter_eq_some_iff, Tabled.last?_eq_some_iff h, live,
    List.mem_filter]
  exact ⟨fun ⟨⟨hmem, hnot⟩, hid⟩ => ⟨⟨hmem, hid⟩, hnot⟩, fun ⟨⟨hmem, hid⟩, hnot⟩ => ⟨⟨hmem, hnot⟩, hid⟩⟩

theorem contains_ids_filter {leases : List Lease} {id : String} (h : id ∉ leases.map Lease.id)
    (keep : Lease → Bool) : ((leases.filter keep).map Lease.id).contains id = false := by
  have hsub : (leases.filter keep).map Lease.id ⊆ leases.map Lease.id :=
    (List.filter_sublist.map _).subset
  rw [List.contains_eq_mem]
  exact decide_eq_false fun hmem => h (hsub hmem)

/-- An unlisted lease goes exactly if it is one of the scope. -/
theorem goes_of_not_listed {leases : List Lease} {id : String} (h : id ∉ leases.map Lease.id)
    (scope : Option String) (now : Instant) (x : Lease) :
    goes scope leases now id x = inScope scope x := by
  simp only [goes, live, contains_ids_filter h, Bool.or_false, Bool.not_false, Bool.and_true]

/-- A lease that is listed as expired goes. -/
theorem goes_of_expired {leases : List Lease} (h : (leases.map Lease.id).Nodup) {now : Instant}
    {lease : Lease} (hmem : lease ∈ leases) (hgone : lease.isExpired now = true)
    (scope : Option String) (x : Lease) : goes scope leases now lease.id x = true := by
  have hexpired : lease.id ∈ (leases.filter fun lease => lease.isExpired now).map Lease.id :=
    List.mem_map_of_mem (List.mem_filter.2 ⟨hmem, hgone⟩)
  have hlive : lease.id ∉ (live leases now).map Lease.id := by
    intro hlisted
    obtain ⟨other, hother, hid⟩ := List.mem_map.1 hlisted
    obtain ⟨hother, hnot⟩ := List.mem_filter.1 hother
    rw [List.inj_on_of_nodup_map h hother hmem hid, hgone] at hnot
    cases hnot
  simp only [goes, List.contains_eq_mem, hexpired, hlive, decide_true, decide_false, Bool.or_true,
    Bool.not_false, Bool.and_true]

/-- The roster after a list whose identities do not repeat: a listed lease is there if it is live, an
unlisted one stays unless it is one of the scope. -/
theorem get?_update_of_nodup (roster : Roster) (scope : Option String) {leases : List Lease}
    (h : (leases.map Lease.id).Nodup) (now : Instant) (id : String) :
    (roster.update scope leases now).2.get? id =
      match Tabled.last? leases id with
      | some lease => if lease.isExpired now then none else some lease
      | none => (roster.get? id).filter fun lease => !inScope scope lease := by
  rw [update_eq, Keyed.get?_merge, last?_live h]
  cases hlast : Tabled.last? leases id with
  | none =>
    have hnot : id ∉ leases.map Lease.id := Tabled.last?_eq_none_iff.1 hlast
    simp only [Option.filter_none, Option.none_or, goes_of_not_listed hnot]
  | some lease =>
    by_cases hgone : lease.isExpired now = true
    · have hgoes : ∀ x, goes scope leases now id x = true := by
        rw [← Tabled.id_of_last? hlast]
        exact goes_of_expired h (Tabled.mem_of_last? hlast) hgone scope
      cases roster.get? id <;> simp [hgone, hgoes, Option.filter]
    · simp [hgone, Option.filter]

/-- A lease that is on the roster after an update is listed and live, or it was there before and is not
listed. -/
theorem of_get?_update {roster : Roster} {scope : Option String} {leases : List Lease}
    (h : (leases.map Lease.id).Nodup) {now : Instant} {id : String} {lease : Lease}
    (hget : (roster.update scope leases now).2.get? id = some lease) :
    (Tabled.last? leases id = some lease ∧ lease.isExpired now = false) ∨
      (Tabled.last? leases id = none ∧ roster.get? id = some lease) := by
  rw [get?_update_of_nodup roster scope h] at hget
  cases hlast : Tabled.last? leases id with
  | none =>
    rw [hlast] at hget
    exact Or.inr ⟨rfl, (Option.filter_eq_some_iff.1 hget).1⟩
  | some listed =>
    simp only [hlast] at hget
    split at hget
    case isTrue => cases hget
    case isFalse hlive =>
      obtain rfl := Option.some.inj hget
      exact Or.inl ⟨rfl, Bool.eq_false_iff.2 hlive⟩

/-! ## Expiry -/

theorem get?_expire (roster : Roster) (now : Instant) (id : String) :
    (roster.expire now).2.get? id = (roster.get? id).filter fun lease => !lease.isExpired now :=
  Keyed.get?_filter roster _ id

/-- Leases that have expired early are expired later. -/
theorem expire_expire (roster : Roster) {now later : Instant} (hle : now ≤ later) :
    ((roster.expire now).2.expire later).2 = (roster.expire later).2 := by
  apply Keyed.ext
  intro id
  rw [get?_expire, get?_expire, get?_expire, Option.filter_filter]
  congr 1
  funext lease
  by_cases hnow : lease.isExpired now = true
  · simp [hnow, Lease.isExpired_mono hle hnow]
  · simp [hnow]

/-- Two rosters agree at an instant if they hold the same leases that have not expired then. -/
def Agrees (now : Instant) (a b : Roster) : Prop := (a.expire now).2 = (b.expire now).2

theorem Agrees.mono {a b : Roster} {now later : Instant} (h : Agrees now a b) (hle : now ≤ later) :
    Agrees later a b := by
  unfold Agrees at *
  rw [← expire_expire a hle, ← expire_expire b hle, h]

/-- Taking off what has expired does not matter later on. -/
theorem Agrees.expire_left {a b : Roster} {now : Instant} (h : Agrees now a b) :
    Agrees now (a.expire now).2 b :=
  (expire_expire a (Instant.le_refl now)).trans h

/-! ## The ageless roster -/

/-- Puts a list of leases on the roster as if no lease ever expired: listed leases are there, and with
a scope the unlisted leases of that resource go. -/
def enter (roster : Roster) (scope : Option String) (leases : List Lease) : Roster :=
  Keyed.merge roster leases fun id lease =>
    inScope scope lease && !(leases.map Lease.id).contains id

theorem get?_enter (roster : Roster) (scope : Option String) (leases : List Lease) (id : String) :
    (roster.enter scope leases).get? id =
      (Tabled.last? leases id).or ((roster.get? id).filter fun lease => !inScope scope lease) := by
  rw [enter, Keyed.get?_merge]
  cases hlast : Tabled.last? leases id with
  | none =>
    have hnot : id ∉ leases.map Lease.id := Tabled.last?_eq_none_iff.1 hlast
    simp only [List.contains_eq_mem, hnot, decide_false, Bool.not_false, Bool.and_true]
  | some lease => rfl

/-- A list of leases keeps rosters in agreement, with expiry on one side and without on the other. -/
theorem Agrees.update {a b : Roster} {now : Instant} (h : Agrees now a b) (scope : Option String)
    {leases : List Lease} (hnodup : (leases.map Lease.id).Nodup) :
    Agrees now (a.update scope leases now).2 (b.enter scope leases) := by
  apply Keyed.ext
  intro id
  have hid : (a.get? id).filter (fun lease => !lease.isExpired now) =
      (b.get? id).filter fun lease => !lease.isExpired now := by
    rw [← get?_expire, ← get?_expire, h]
  rw [get?_expire, get?_expire, get?_update_of_nodup a scope hnodup, get?_enter]
  cases hlast : Tabled.last? leases id with
  | none =>
    -- Neither side lists the lease: what is live stays or goes on both.
    have hswap : ∀ x : Option Lease,
        (x.filter fun lease => !inScope scope lease).filter (fun lease => !lease.isExpired now) =
          (x.filter fun lease => !lease.isExpired now).filter fun lease => !inScope scope lease := by
      intro x
      rw [Option.filter_filter, Option.filter_filter]
      congr 1
      funext lease
      exact Bool.and_comm _ _
    simp only [Option.none_or, hswap, hid]
  | some lease =>
    by_cases hgone : lease.isExpired now = true
    · simp [hgone, Option.filter]
    · simp [hgone, Option.filter]

/-- Puts the leases of an announcement on the roster as if no lease ever expired. -/
def enterList (roster : Roster) (list : LeaseList) : Roster :=
  match Lease.collect list.leases with
  | .ok leases => roster.enter list.resource leases
  | .error _ => roster

theorem enterList_of_collect {list : LeaseList} {leases : List Lease}
    (h : Lease.collect list.leases = .ok leases) (roster : Roster) :
    roster.enterList list = roster.enter list.resource leases := by
  simp only [enterList, h]

/-- The roster of announcements one after the other, if no lease ever expired. -/
def ageless (lists : List LeaseList) : Roster := lists.foldl enterList .empty

end Roster

end LeaseBoard
