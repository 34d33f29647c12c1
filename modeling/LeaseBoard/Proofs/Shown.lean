import LeaseBoard.Display
import LeaseBoard.Keyed
import Mathlib.Data.List.Nodup
set_option autoImplicit false

/-!
# What a display shows under an identity

The view of a display is `cells?`: the cells that a table shows under an identity.  Each instruction
has one lemma that says what it does to the view.  Main statements: `nodup_ids_applyAll` (no
instruction makes an identity occur twice) and `rows_applyAll_of_ne` (instructions for one table leave
the other alone).
-/

namespace LeaseBoard

/-! ## Rows in order of arrival, by identity -/

/-- A row that is put is found under its identity, every other row as before. -/
theorem Arrival.find?_put {α : Type} (id : α → String) (row : α) (rows : List α) (key : String) :
    (Arrival.put id row rows).find? (fun x => id x = key) =
      if id row = key then some row else rows.find? fun x => id x = key := by
  induction rows with
  | nil => by_cases h : id row = key <;> simp [Arrival.put, h]
  | cons first rest ih =>
    by_cases hfirst : id first = id row
    · by_cases h : id row = key <;> simp [Arrival.put, hfirst, h]
    · by_cases h : id first = key
      · have hrow : id row ≠ key := fun heq => hfirst (h.trans heq.symm)
        rw [Arrival.put, if_neg hfirst, if_neg hrow]
        simp [h]
      · simp [Arrival.put, hfirst, h, ih]

/-- Of rows with one identity the last is found. -/
theorem Arrival.find?_collect {α : Type} (id : α → String) (rows : List α) (key : String) :
    (Arrival.collect id rows).find? (fun x => id x = key) =
      rows.reverse.find? fun x => id x = key := by
  suffices h : ∀ kept : List α,
      (rows.foldl (fun kept row => put id row kept) kept).find? (fun x => id x = key) =
        (rows.reverse.find? fun x => id x = key).or (kept.find? fun x => id x = key) from
    (h []).trans Option.or_none
  induction rows with
  | nil => exact fun kept => rfl
  | cons row rest ih =>
    intro kept
    rw [List.foldl_cons, ih, find?_put, List.reverse_cons, List.find?_append]
    by_cases h : id row = key <;> cases rest.reverse.find? (fun x => id x = key) <;> simp [h]

/-- A row with a new identity comes last. -/
theorem Arrival.put_of_not_mem {α : Type} {id : α → String} {row : α} {rows : List α}
    (h : id row ∉ rows.map id) : put id row rows = rows ++ [row] := by
  induction rows with
  | nil => rfl
  | cons first rest ih =>
    obtain ⟨hne, hrest⟩ := not_or.1 (mt List.mem_cons.2 h)
    rw [put, if_neg (Ne.symm hne), ih hrest, List.cons_append]

namespace Display

/-- The cells that a table shows under an identity. -/
def cells? (d : Display) (table : Table) (id : String) : Option (List Cell) :=
  (d.row? table id).map ShownRow.cells

theorem find?_replaceRow (row : ShownRow) (rows : List ShownRow) (key : String) :
    (replaceRow row rows).find? (fun x => x.id = key) =
      (rows.find? fun x => x.id = key).map fun old => if old.id = row.id then row else old := by
  have hsame : ((fun x : ShownRow => decide (x.id = key)) ∘
      fun old => if old.id = row.id then row else old) = fun x => decide (x.id = key) := by
    funext old
    by_cases h : old.id = row.id <;> simp [h]
  rw [replaceRow, List.find?_map, hsame]

theorem find?_redraw (now : Option Instant) (rows : List ShownRow) (key : String) :
    (rows.map (ShownRow.redraw now)).find? (fun x => x.id = key) =
      (rows.find? fun x => x.id = key).map (ShownRow.redraw now) :=
  List.find?_map

theorem find?_filter_ne (id : String) (rows : List ShownRow) (key : String) :
    (rows.filter fun row => row.id ≠ id).find? (fun x => x.id = key) =
      if id = key then none else rows.find? fun x => x.id = key := by
  rw [List.find?_filter]
  by_cases h : id = key
  · subst h
    simp
  · rw [if_neg h]
    congr 1
    funext row
    by_cases hrow : row.id = key
    · simp [hrow, Ne.symm h]
    · simp [hrow]

/-- A table without repeated identities shows under an identity the cells of the row that has it. -/
theorem cells?_eq_some_iff {d : Display} {table : Table} (h : (d.ids table).Nodup) {key : String}
    {cells : List Cell} :
    d.cells? table key = some cells ↔ ∃ row ∈ d.rows table, row.id = key ∧ row.cells = cells := by
  simp only [cells?, row?, Option.map_eq_some_iff]
  constructor
  · rintro ⟨row, hfind, hcells⟩
    exact ⟨row, List.mem_of_find?_eq_some hfind, by simpa using List.find?_some hfind, hcells⟩
  · rintro ⟨row, hmem, hkey, hcells⟩
    refine ⟨row, ?_, hcells⟩
    cases hfind : (d.rows table).find? fun row => row.id = key with
    | none => exact absurd hkey (by simpa using List.find?_eq_none.1 hfind row hmem)
    | some found =>
      have hfound : found.id = key := by simpa using List.find?_some hfind
      rw [List.inj_on_of_nodup_map h (List.mem_of_find?_eq_some hfind) hmem
        (hfound.trans hkey.symm)]

/-! ## One instruction -/

theorem drawnAt_withRows (d : Display) (table : Table) (f : List ShownRow → List ShownRow) :
    (d.withRows table f).drawnAt = d.drawnAt := by
  cases table <;> rfl

theorem connection_withRows (d : Display) (table : Table) (f : List ShownRow → List ShownRow) :
    (d.withRows table f).connection = d.connection := by
  cases table <;> rfl

theorem rows_apply_refresh (d : Display) (now : Instant) (table : Table) :
    (d.apply (.refresh now)).rows table = (d.rows table).map (.redraw (some now)) := by
  cases table <;> rfl

section Apply

variable (d : Display) (table other : Table) (id key : String) (cells : List Cell)

/-- A row that is added is shown with its cells. -/
theorem cells?_apply_add :
    (d.apply (.add table id cells)).cells? other key =
      if table = other ∧ id = key then some cells else d.cells? other key := by
  simp only [cells?, row?, apply, rows_withRows]
  by_cases ht : table = other
  · by_cases hid : id = key
    · simp [ht, hid, Arrival.find?_put, ShownRow.draw]
    · simp [ht, hid, Arrival.find?_put, ShownRow.draw]
  · simp [ht]

/-- A row that is updated is shown with its new cells, if it was shown at all. -/
theorem cells?_apply_update :
    (d.apply (.update table id cells)).cells? other key =
      if table = other ∧ id = key then (d.cells? other key).map fun _ => cells
      else d.cells? other key := by
  simp only [cells?, row?, apply, rows_withRows]
  by_cases ht : table = other
  · subst ht
    simp only [if_true, find?_replaceRow, Option.map_map, true_and]
    cases hfind : (d.rows table).find? fun x => x.id = key with
    | none => simp
    | some old =>
      have hold : old.id = key := by simpa using List.find?_some hfind
      by_cases hid : id = key
      · simp [hid, hold, ShownRow.draw]
      · simp [hid, hold, Ne.symm hid, ShownRow.draw]
  · simp [ht]

/-- A row that is removed is shown no more. -/
theorem cells?_apply_remove :
    (d.apply (.remove table id)).cells? other key =
      if table = other ∧ id = key then none else d.cells? other key := by
  simp only [cells?, row?, apply, rows_withRows]
  by_cases ht : table = other
  · subst ht
    simp only [if_true, find?_filter_ne, true_and]
    by_cases hid : id = key <;> simp [hid]
  · simp [ht]

/-- A refresh draws labels anew and leaves the cells. -/
theorem cells?_apply_refresh (now : Instant) :
    (d.apply (.refresh now)).cells? other key = d.cells? other key := by
  cases other with
  | policies =>
    simp only [cells?, row?, apply, rows, find?_redraw, Option.map_map]
    rfl
  | leases =>
    simp only [cells?, row?, apply, rows, find?_redraw, Option.map_map]
    rfl

/-- The state of the connection is no row. -/
theorem cells?_apply_connection (status : Connection) :
    (d.apply (.connection status)).cells? other key = d.cells? other key := by
  cases other <;> rfl

end Apply

/-! ## Lists of instructions -/

/-- An instruction adds one new identity behind those of a table, or none at all. -/
theorem ids_apply (d : Display) (i : Instruction) (table : Table) :
    ((d.apply i).ids table).Sublist (d.ids table) ∨
      ∃ id cells, i = .add table id cells ∧ id ∉ d.ids table ∧
        (d.apply i).ids table = d.ids table ++ [id] := by
  cases i with
  | add t id cells =>
    by_cases ht : t = table
    · subst ht
      have hids : (d.apply (.add t id cells)).ids t =
          if id ∈ d.ids t then d.ids t else d.ids t ++ [id] := by
        rw [ids, apply, rows_withRows, if_pos rfl, Arrival.ids_put]
        rfl
      by_cases hmem : id ∈ d.ids t
      · rw [hids, if_pos hmem]
        exact Or.inl (List.Sublist.refl _)
      · rw [hids, if_neg hmem]
        exact Or.inr ⟨id, cells, rfl, hmem, rfl⟩
    · rw [ids, rows_apply_of_ne rfl ht]
      exact Or.inl (List.Sublist.refl _)
  | update t id cells =>
    have hids : (d.apply (.update t id cells)).ids table = d.ids table := by
      simp only [ids, apply, rows_withRows]
      split
      case isTrue => exact ids_replaceRow ..
      case isFalse => rfl
    exact Or.inl (hids ▸ List.Sublist.refl _)
  | remove t id =>
    left
    simp only [ids, apply, rows_withRows]
    split
    case isTrue => exact List.filter_sublist.map _
    case isFalse => exact List.Sublist.refl _
  | refresh now =>
    have hids : (d.apply (.refresh now)).ids table = d.ids table := by
      rw [ids, rows_apply_refresh, ids_redraw, ids]
    exact Or.inl (hids ▸ List.Sublist.refl _)
  | connection status =>
    left
    cases table <;> exact List.Sublist.refl _

/-- Every instruction keeps the identities of a table apart. -/
theorem nodup_ids_apply {d : Display} (i : Instruction) (h : ∀ table, (d.ids table).Nodup) :
    ∀ table, ((d.apply i).ids table).Nodup := by
  intro table
  obtain hsub | ⟨id, cells, -, hnew, hids⟩ := d.ids_apply i table
  · exact (h table).sublist hsub
  · rw [hids]
    refine List.nodup_append.2 ⟨h table, by simp, fun a ha b hb => ?_⟩
    rw [List.mem_singleton.1 hb]
    exact ne_of_mem_of_not_mem ha hnew

theorem nodup_ids_applyAll {d : Display} (instructions : List Instruction)
    (h : ∀ table, (d.ids table).Nodup) : ∀ table, ((d.applyAll instructions).ids table).Nodup := by
  induction instructions generalizing d with
  | nil => exact h
  | cons i rest ih => exact ih (nodup_ids_apply i h)

/-- Instructions for one table leave the rows of the other alone. -/
theorem rows_applyAll_of_ne {d : Display} {instructions : List Instruction} {table other : Table}
    (hi : ∀ i ∈ instructions, i.table? = some table) (hne : table ≠ other) :
    (d.applyAll instructions).rows other = d.rows other := by
  induction instructions generalizing d with
  | nil => rfl
  | cons i rest ih =>
    rw [applyAll, List.foldl_cons, ← applyAll, ih fun j hj => hi j (List.mem_cons_of_mem _ hj)]
    exact rows_apply_of_ne (hi i List.mem_cons_self) hne

/-- Instructions for tables leave the state of the connection alone. -/
theorem connection_applyAll {d : Display} {instructions : List Instruction}
    (hi : ∀ i ∈ instructions, i.table?.isSome) :
    (d.applyAll instructions).connection = d.connection := by
  induction instructions generalizing d with
  | nil => rfl
  | cons i rest ih =>
    rw [applyAll, List.foldl_cons, ← applyAll, ih fun j hj => hi j (List.mem_cons_of_mem _ hj)]
    have htable := hi i List.mem_cons_self
    cases i with
    | add t id cells => exact connection_withRows ..
    | update t id cells => exact connection_withRows ..
    | remove t id => exact connection_withRows ..
    | refresh now => simp [Instruction.table?] at htable
    | connection status => simp [Instruction.table?] at htable

end Display

end LeaseBoard
