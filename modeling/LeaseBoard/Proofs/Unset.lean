import LeaseBoard.Proofs.Origin
set_option autoImplicit false

/-!
# Instants that are not set

An instant up to the end of the year one means that none is set.  Of the instants of a lease the renewal
and the release are always set, whichever part of the entry they come from; so is the start, unless it is
the time at which the process began.  That time is taken as it is written.

Main statement: `instants_set_unless_of_process`.
-/

namespace LeaseBoard

/-! ## The time at which the process began -/

/-- An entry says in its properties when the process began, in the strict grammar. -/
def LeaseEntry.BeganAt (entry : LeaseEntry) (t : Instant) : Prop :=
  ∃ properties text, entry.properties = some properties ∧
    properties.get? "process.creation" = some text ∧ Instant.ofStrict? text = some t

namespace LeaseEntry

variable {entry : LeaseEntry} {t : Instant}

/-- The empty text is no time, so it makes no difference that an empty property counts as none. -/
theorem bind_processCreation_eq_some_iff :
    (Ranking.processCreation.find? entry.properties).bind Instant.ofStrict? = some t ↔
      entry.BeganAt t := by
  simp only [Option.bind_eq_some_iff, Ranking.find?, Ranking.processCreation,
    List.findSome?_singleton, Option.filter_eq_some_iff, decide_eq_true_eq]
  constructor
  · rintro ⟨text, ⟨properties, hproperties, htext, -⟩, hread⟩
    exact ⟨properties, text, hproperties, htext, hread⟩
  · rintro ⟨properties, text, hproperties, htext, hread⟩
    have hne : text ≠ "" := by
      rintro rfl
      cases hread
    exact ⟨text, ⟨properties, hproperties, htext, hne⟩, hread⟩

/-- The start to show is when the process began or, where that is not said, the start of the lease. -/
theorem shownStart_eq_some_iff : entry.shownStart = some t ↔
    entry.BeganAt t ∨ (∀ u, ¬ entry.BeganAt u) ∧ Instant.IsSet entry.started t := by
  simp only [shownStart, Option.or_eq_some_iff, Option.eq_none_iff_forall_ne_some, ne_eq,
    bind_processCreation_eq_some_iff, setInstant?_eq_some_iff]

end LeaseEntry

/-! ## The instants of a lease -/

/-- The instants that a lease has from its entry. -/
theorem Lease.instants_of_ofEntry {entry : LeaseEntry} {lease : Lease}
    (h : ofEntry entry = .ok lease) :
    lease.started = entry.shownStart ∧ lease.renewed = entry.lastRenewal ∧
      lease.released = setInstant? entry.released := by
  obtain ⟨-, -, -, hlease⟩ := ofEntry_eq_ok h
  rw [hlease]
  exact ⟨rfl, rfl, rfl⟩

theorem LeaseEntry.RunsFrom.one_lt_year {entry : LeaseEntry} {t : Instant} (h : entry.RunsFrom t) :
    1 < t.year := by
  cases h with
  | renewal hrenewed => exact hrenewed.2
  | start _ hstarted => exact hstarted.2

theorem Lease.mem_cells_elapsed_iff {lease : Lease} {start : Option Instant} :
    .elapsed start ∈ lease.cells ↔ start = lease.started := by
  simp [cells]

/-- Every lease that a history leaves on the board was made of the last entry with its identity in an
applied list.  Its renewal and its release lie after the year one.  It shows the time since when the
process began, if the entry says so, and else since the start of the lease, if that is set; so an instant
up to the end of the year one is shown exactly if the process is said to have begun then. -/
theorem instants_set_unless_of_process (steps : List Board.Step) {id : String} {lease : Lease}
    (h : (Board.empty.run steps).leases.get? id = some lease) :
    (∀ t, lease.renewed = some t → 1 < t.year) ∧ (∀ t, lease.released = some t → 1 < t.year) ∧
    ∃ list ∈ Board.accepted (Board.empty.verdicts steps), ∃ entry,
      list.entry? id = some entry ∧ Lease.ofEntry entry = .ok lease ∧
      (∀ t, lease.started = some t ↔
        entry.BeganAt t ∨ (∀ u, ¬ entry.BeganAt u) ∧ Instant.IsSet entry.started t) ∧
      ∀ t, t.year ≤ 1 → (.elapsed (some t) ∈ lease.cells ↔ entry.BeganAt t) := by
  rcases Board.madeOf_of_get?_run h with hempty | ⟨list, hlist, entry, hentry, hmade⟩
  · cases hempty
  obtain ⟨hstarted, hrenewed, hreleased⟩ := Lease.instants_of_ofEntry hmade
  have hstart : ∀ t, lease.started = some t ↔
      entry.BeganAt t ∨ (∀ u, ¬ entry.BeganAt u) ∧ Instant.IsSet entry.started t := by
    intro t
    rw [hstarted, LeaseEntry.shownStart_eq_some_iff]
  refine ⟨fun t ht => ?_, fun t ht => ?_, list, hlist, entry, hentry, hmade, hstart, fun t hyear => ?_⟩
  · rw [hrenewed, LeaseEntry.lastRenewal_eq_some_iff] at ht
    exact ht.one_lt_year
  · rw [hreleased, setInstant?_eq_some_iff] at ht
    exact ht.2
  · rw [Lease.mem_cells_elapsed_iff, eq_comm, hstart]
    refine or_iff_left_of_imp ?_
    rintro ⟨-, hset⟩
    exact absurd hset.2 (Int.not_lt.2 hyear)

/-- The start and the renewal of a lease are the first instant of the year one, and nothing is said of
its process: it shows no time since its start. -/
theorem instants_set_unless_of_process_unset :
    let list : LeaseList := ⟨some "gpu", none,
      [{ releasedEntry "a" "gpu" with started := some default, renewed := some default }], none⟩
    let b := Board.empty.run [.event (.leases list) (atSecond 1)]
    ∃ lease, b.leases.get? "a" = some lease ∧ (∀ t, lease.renewed = some t → 1 < t.year) ∧
      ∀ t, .elapsed (some t) ∈ lease.cells → 1 < t.year := by
  intro list b
  obtain ⟨lease, hlease⟩ : ∃ lease, b.leases.get? "a" = some lease := ⟨_, rfl⟩
  obtain ⟨hrenewed, -, named, hnamed, entry, hentry, -, -, hshown⟩ :=
    instants_set_unless_of_process [.event (.leases list) (atSecond 1)] hlease
  refine ⟨lease, hlease, hrenewed, fun t ht => Int.not_le.1 fun hyear => ?_⟩
  obtain ⟨properties, text, hproperties, -⟩ := (hshown t hyear).1 ht
  obtain rfl := List.mem_singleton.1 hnamed
  obtain rfl := Option.some.inj hentry
  cases hproperties

/-- The first instant of the year one reaches a lease as the time at which its process began. -/
theorem unset_instant_shown_of_process :
    let entry := { releasedEntry "a" "gpu" with
      properties := some (.ofList [("process.creation", "0001-01-01T00:00:00Z")]) }
    let b := Board.empty.run [.event (.leases ⟨some "gpu", none, [entry], none⟩) (atSecond 1)]
    ∃ lease, b.leases.get? "a" = some lease ∧ lease.started = some default ∧
      (default : Instant).year = 1 ∧ .elapsed (some default) ∈ lease.cells := by
  intro entry b
  have hshown : (b.leases.get? "a").map Lease.started = some (some default) := by decide
  obtain ⟨lease, hlease, hstarted⟩ := Option.map_eq_some_iff.1 hshown
  exact ⟨lease, hlease, hstarted, rfl, Lease.mem_cells_elapsed_iff.2 hstarted.symm⟩

end LeaseBoard
