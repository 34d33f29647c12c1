import LeaseBoard.Lease.Roster
import LeaseBoard.Policy.Book
import LeaseBoard.Proofs.Shown
import Mathlib.Data.List.Nodup
set_option autoImplicit false

/-!
# Changes to a table

A list of rows changes a table in one way, whether the rows are leases or policies: listed rows come
or take the place of the row with their identity, and some rows of the table that are not listed go.
`Change.between` is the change, `Keyed.merge` is the table after it.

Main statement: `Display.Tracks.applyAll_between`.  A display that shows the rows of a table shows,
after the instructions of a change, the rows of the table after the change.
-/

namespace LeaseBoard

variable {α : Type} [Tabled α]

/-- The last row of a list with an identity. -/
def Tabled.last? (rows : List α) (key : String) : Option α :=
  rows.reverse.find? fun row => id row = key

/-- The table of a list of rows. -/
def Keyed.ofRows (rows : List α) : Keyed α := .ofList (rows.map fun row => (Tabled.id row, row))

/-- The table after a list of rows, where some rows that are not listed go. -/
def Keyed.merge (old : Keyed α) (listed : List α) (goes : String → α → Bool) : Keyed α :=
  listed.foldl (fun table row => table.insert (Tabled.id row) row)
    (old.filter fun key row => !goes key row)

/-- The change that a list of rows makes to a table, where some rows that are not listed go. -/
def Change.between (old : Keyed α) (listed : List α) (goes : String → α → Bool) : Change α where
  added := listed.filter fun row => !old.contains (Tabled.id row)
  updated := listed.filter fun row => old.contains (Tabled.id row)
  removed := (old.filter goes).keys

/-! ## The last row with an identity -/

namespace Tabled

@[simp] theorem last?_nil (key : String) : last? ([] : List α) key = none := rfl

theorem last?_cons (row : α) (rest : List α) (key : String) :
    last? (row :: rest) key = (last? rest key).or (if id row = key then some row else none) := by
  simp only [last?, List.reverse_cons, List.find?_append]
  by_cases h : id row = key <;> simp [h]

theorem last?_concat (rows : List α) (row : α) (key : String) :
    last? (rows ++ [row]) key = if id row = key then some row else last? rows key := by
  simp only [last?, List.reverse_append, List.reverse_singleton, List.singleton_append,
    List.find?_cons]
  by_cases h : id row = key <;> simp [h]

theorem id_of_last? {rows : List α} {key : String} {row : α} (h : last? rows key = some row) :
    id row = key := by
  simpa using List.find?_some h

theorem mem_of_last? {rows : List α} {key : String} {row : α} (h : last? rows key = some row) :
    row ∈ rows :=
  List.mem_reverse.1 (List.mem_of_find?_eq_some h)

theorem last?_eq_none_iff {rows : List α} {key : String} :
    last? rows key = none ↔ key ∉ rows.map id := by
  simp only [last?, List.find?_eq_none, List.mem_reverse, List.mem_map, decide_eq_true_eq]
  exact ⟨fun h ⟨row, hmem, heq⟩ => h row hmem heq, fun h row hmem heq => h ⟨row, hmem, heq⟩⟩

/-- A test of identities keeps the last row with an identity that passes and no other. -/
theorem last?_filter (rows : List α) (keep : String → Bool) (key : String) :
    last? (rows.filter fun row => keep (id row)) key =
      if keep key then last? rows key else none := by
  induction rows with
  | nil => simp
  | cons row rest ih =>
    by_cases hkeep : keep (id row) = true
    · simp only [List.filter_cons, hkeep, if_true, last?_cons, ih]
      by_cases hid : id row = key
      · simp [← hid, hkeep]
      · simp [hid]
    · simp only [List.filter_cons, hkeep, Bool.false_eq_true, if_false, last?_cons, ih]
      by_cases hid : id row = key
      · simp [← hid, hkeep]
      · simp [hid]

/-- Where identities do not repeat, the last row with an identity is the only one. -/
theorem last?_eq_some_iff {rows : List α} (h : (rows.map id).Nodup) {key : String} {row : α} :
    last? rows key = some row ↔ row ∈ rows ∧ id row = key := by
  constructor
  · exact fun hlast => ⟨mem_of_last? hlast, id_of_last? hlast⟩
  · rintro ⟨hmem, rfl⟩
    cases hlast : last? rows (id row) with
    | none => exact absurd (List.mem_map_of_mem hmem) (last?_eq_none_iff.1 hlast)
    | some found =>
      rw [List.inj_on_of_nodup_map h (mem_of_last? hlast) hmem (id_of_last? hlast)]

/-- Where identities do not repeat, the rows with an identity are the last one. -/
theorem filter_id_eq {rows : List α} (h : (rows.map id).Nodup) (key : String) :
    (rows.filter fun row => id row = key) = (last? rows key).toList := by
  induction rows with
  | nil => rfl
  | cons row rest ih =>
    obtain ⟨hnot, hrest⟩ := List.nodup_cons.1 h
    by_cases hid : id row = key
    · have hnone : last? rest key = none := last?_eq_none_iff.2 (hid ▸ hnot)
      simp [last?_cons, ih hrest, hid, hnone]
    · simp [last?_cons, ih hrest, hid]

/-- Where identities do not repeat, the last row with an identity is the first one. -/
theorem last?_eq_find? {rows : List α} (h : (rows.map id).Nodup)
    (key : String) : last? rows key = rows.find? fun row => id row = key := by
  rw [← List.head?_filter, filter_id_eq h]
  cases last? rows key <;> rfl

/-- Of rows with one identity the last is kept. -/
theorem last?_collect (rows : List α) (key : String) :
    last? (Arrival.collect id rows) key = last? rows key := by
  rw [last?_eq_find? (Arrival.nodup_ids_collect id rows)]
  exact Arrival.find?_collect id rows key

end Tabled

/-! ## The table after a change -/

namespace Keyed

theorem get?_foldl_last? (listed : List α) (table : Keyed α) (key : String) :
    (listed.foldl (fun table row => table.insert (Tabled.id row) row) table).get? key =
      (Tabled.last? listed key).or (table.get? key) :=
  get?_foldl_insert Tabled.id listed table key

theorem get?_ofRows (rows : List α) (key : String) : (ofRows rows).get? key = Tabled.last? rows key := by
  have hinsert : ofRows rows =
      rows.foldl (fun table row => table.insert (Tabled.id row) row) .empty := by
    rw [ofRows, ofList, List.foldl_map]
  rw [hinsert, get?_foldl_last?, get?_empty, Option.or_none]

/-- After a merge a listed row is there, and any other row unless it goes. -/
theorem get?_merge (old : Keyed α) (listed : List α) (goes : String → α → Bool) (key : String) :
    (old.merge listed goes).get? key =
      (Tabled.last? listed key).or ((old.get? key).filter fun row => !goes key row) := by
  rw [merge, get?_foldl_last?, get?_filter]

end Keyed

/-! ## The three lists of a change -/

namespace Change

variable (old : Keyed α) (listed : List α) (goes : String → α → Bool) (key : String)

/-- A listed row that is not in the table comes. -/
theorem last?_added : Tabled.last? (between old listed goes).added key =
    if (old.get? key).isNone then Tabled.last? listed key else none := by
  refine (Tabled.last?_filter listed (fun key => !old.contains key) key).trans ?_
  cases h : old.get? key <;> simp [Keyed.contains, h]

/-- A listed row that is in the table is drawn anew. -/
theorem last?_updated : Tabled.last? (between old listed goes).updated key =
    if (old.get? key).isSome then Tabled.last? listed key else none :=
  Tabled.last?_filter listed (fun key => old.contains key) key

/-- A row of the table that goes is removed. -/
theorem mem_removed : key ∈ (between old listed goes).removed ↔
    ((old.get? key).filter (goes key)).isSome := by
  rw [between, Keyed.mem_keys_iff, Keyed.get?_filter]

end Change

/-! ## The display after a change -/

namespace Display

/-- The cells of the rows of a table are what the display shows. -/
def Tracks (d : Display) (rows : Keyed α) : Prop :=
  ∀ key, d.cells? (Tabled.table α) key = (rows.get? key).map Tabled.cells

theorem cells?_applyAll_additions (d : Display) (rows : List α) (key : String) :
    (d.applyAll (rows.map Tabled.addition)).cells? (Tabled.table α) key =
      ((Tabled.last? rows key).map Tabled.cells).or (d.cells? (Tabled.table α) key) := by
  induction rows generalizing d with
  | nil => rfl
  | cons row rest ih =>
    rw [List.map_cons, applyAll, List.foldl_cons, ← applyAll, ih, Tabled.addition,
      cells?_apply_add, Tabled.last?_cons]
    by_cases h : Tabled.id row = key
    · cases Tabled.last? rest key <;> simp [h]
    · cases Tabled.last? rest key <;> simp [h]

theorem cells?_applyAll_revisions (d : Display) (rows : List α) (key : String) :
    (d.applyAll (rows.map Tabled.revision)).cells? (Tabled.table α) key =
      (d.cells? (Tabled.table α) key).map fun cells =>
        ((Tabled.last? rows key).map Tabled.cells).getD cells := by
  induction rows generalizing d with
  | nil => simp [applyAll]
  | cons row rest ih =>
    rw [List.map_cons, applyAll, List.foldl_cons, ← applyAll, ih, Tabled.revision,
      cells?_apply_update, Tabled.last?_cons]
    by_cases h : Tabled.id row = key
    · cases Tabled.last? rest key <;> simp [h, Function.comp_def]
    · cases Tabled.last? rest key <;> simp [h]

theorem cells?_applyAll_removals (d : Display) (ids : List String) (key : String) :
    (d.applyAll (ids.map (Tabled.removal α))).cells? (Tabled.table α) key =
      if key ∈ ids then none else d.cells? (Tabled.table α) key := by
  induction ids generalizing d with
  | nil => simp [applyAll]
  | cons id rest ih =>
    rw [List.map_cons, applyAll, List.foldl_cons, ← applyAll, ih, Tabled.removal,
      cells?_apply_remove]
    by_cases h : id = key
    · simp [h]
    · simp [h, Ne.symm h]

/-- A display that shows the rows of a table shows, after the instructions of a change, the rows of
the changed table.  Rows that are listed must not be among those that go: removals come last. -/
theorem Tracks.applyAll_between {d : Display} {old : Keyed α} (h : d.Tracks old) (listed : List α)
    (goes : String → α → Bool) (hgoes : ∀ row ∈ listed, ∀ x, goes (Tabled.id row) x = false) :
    (d.applyAll (Change.between old listed goes).instructions).Tracks (old.merge listed goes) := by
  intro key
  simp only [Change.instructions, applyAll_append, cells?_applyAll_removals,
    cells?_applyAll_revisions, cells?_applyAll_additions, h key, Keyed.get?_merge,
    Change.last?_added, Change.last?_updated, Change.mem_removed]
  cases hlast : Tabled.last? listed key with
  | none =>
    -- The row is not listed: it stays as it was shown, unless it is removed.
    cases hold : old.get? key with
    | none => simp
    | some row => by_cases hgo : goes key row = true <;> simp [Option.filter, hgo]
  | some row =>
    -- The row is listed: it is added or updated, by whether it was there, and never removed.
    have hkeep : ∀ x, goes key x = false := by
      rw [← Tabled.id_of_last? hlast]
      exact hgoes row (Tabled.mem_of_last? hlast)
    cases hold : old.get? key with
    | none => simp
    | some known => simp [Option.filter, hkeep]

end Display

/-! ## Leases -/

namespace Roster

/-- The leases of a list that have not expired. -/
def live (leases : List Lease) (now : Instant) : List Lease :=
  leases.filter fun lease => !lease.isExpired now

/-- Whether a lease of the roster goes when a list comes: it is left out of its resource's list, or
listed as expired, and not listed as live. -/
def goes (scope : Option String) (leases : List Lease) (now : Instant) (id : String)
    (lease : Lease) : Bool :=
  (inScope scope lease || ((leases.filter fun lease => lease.isExpired now).map Lease.id).contains id)
    && !((live leases now).map Lease.id).contains id

/-- A list of leases changes the roster by those of its leases that are live. -/
theorem update_eq (roster : Roster) (scope : Option String) (leases : List Lease) (now : Instant) :
    roster.update scope leases now =
      (Change.between roster (live leases now) (goes scope leases now),
        Keyed.merge roster (live leases now) (goes scope leases now)) :=
  rfl

theorem goes_eq_false_of_mem_live {scope : Option String} {leases : List Lease} {now : Instant}
    {lease : Lease} (h : lease ∈ live leases now) (x : Lease) :
    goes scope leases now lease.id x = false := by
  have hlisted : ((live leases now).map Lease.id).contains lease.id = true :=
    List.contains_iff_mem.2 (List.mem_map_of_mem h)
  simp only [goes, hlisted, Bool.not_true, Bool.and_false]

end Roster

/-! ## Policies -/

namespace Book

/-- Whether a policy of the book goes when a list comes: its resource is not listed. -/
def goes (listed : List Policy) (resource : String) (_ : Policy) : Bool :=
  !(listed.map Policy.resource).contains resource

theorem goes_eq_false_of_mem {listed : List Policy} {policy : Policy} (h : policy ∈ listed)
    (x : Policy) : goes listed policy.resource x = false := by
  have hlisted : (listed.map Policy.resource).contains policy.resource = true :=
    List.contains_iff_mem.2 (List.mem_map_of_mem h)
  simp only [goes, hlisted, Bool.not_true]

/-- The book of a list of policies is the old book with the list merged into it. -/
theorem merge_eq_ofRows (book : Book) (listed : List Policy) :
    Keyed.merge book listed (goes listed) = Keyed.ofRows listed := by
  apply Keyed.ext
  intro resource
  rw [Keyed.get?_ofRows, Keyed.get?_merge]
  cases hlast : Tabled.last? listed resource with
  | some policy => rfl
  | none =>
    -- What is not listed goes.
    have hnot : resource ∉ listed.map Policy.resource := Tabled.last?_eq_none_iff.1 hlast
    cases hold : book.get? resource with
    | none => rfl
    | some known => simp [Option.filter, goes, hnot]

/-- A list of policies changes the book by the listed policies with the statistics known of them. -/
theorem replace_eq (book : Book) (policies : List Policy) :
    book.replace policies =
      (Change.between book (policies.map book.withStatistics)
          (goes (policies.map book.withStatistics)),
        Keyed.merge book (policies.map book.withStatistics)
          (goes (policies.map book.withStatistics))) := by
  rw [merge_eq_ofRows]
  rfl

end Book

end LeaseBoard
