import LeaseBoard.Proofs.Shown
import Mathlib.Data.List.Induction
import Mathlib.Tactic.Choose
set_option autoImplicit false

/-!
# Displays and their history

What a display shows, read off the instructions that it was given, whatever they are: rows may be added
twice, updated before they are there, and removed and added again.

A row is there exactly if the last instruction that adds or removes it adds it, with the cells of the last
one that gives it any.  Rows stand in the order of the instructions that made them appear, and the labels
are those of the last refresh.  Main statement: `display_follows_instructions`.
-/

namespace LeaseBoard

/-! ## What instructions say -/

namespace Instruction

/-- What the last of the instructions that say something of a kind says. -/
def latest? {α : Type} (part : Instruction → Option α) (sent : List Instruction) : Option α :=
  sent.reverse.findSome? part

/-- Whether an instruction makes a row appear or disappear. -/
def places? (table : Table) (id : String) : Instruction → Option Bool
  | .add other key _ => if other = table ∧ key = id then some true else none
  | .update .. => none
  | .remove other key => if other = table ∧ key = id then some false else none
  | .refresh _ => none
  | .connection _ => none

/-- The cells that an instruction gives a row. -/
def draws? (table : Table) (id : String) : Instruction → Option (List Cell)
  | .add other key cells => if other = table ∧ key = id then some cells else none
  | .update other key cells => if other = table ∧ key = id then some cells else none
  | .remove .. => none
  | .refresh _ => none
  | .connection _ => none

/-- The instant that an instruction draws labels for. -/
def refreshes? : Instruction → Option Instant
  | .refresh now => some now
  | .add .. => none
  | .update .. => none
  | .remove .. => none
  | .connection _ => none

/-- The state of the connection that an instruction shows. -/
def connects? : Instruction → Option Connection
  | .connection status => some status
  | .add .. => none
  | .update .. => none
  | .remove .. => none
  | .refresh _ => none

/-- Whether an instruction may bear on a table: it is not for the other one. -/
def bearsOn (table : Table) (i : Instruction) : Bool := i.table?.all (· = table)

/-- Instructions have a row shown: the last one that adds or removes it adds it. -/
def Shows (sent : List Instruction) (table : Table) (id : String) : Prop :=
  latest? (places? table id) sent = some true

instance (sent : List Instruction) (table : Table) (id : String) : Decidable (Shows sent table id) :=
  inferInstanceAs (Decidable (_ = _))

/-- An instruction makes a row appear: it adds one that is not shown so far. -/
structure Introduces (sent : List Instruction) (table : Table) (id : String) (n : Nat) : Prop where
  addition : ∃ cells, sent[n]? = some (.add table id cells)
  absent : ¬Shows (sent.take n) table id

/-- An instruction is the last that makes a row appear. -/
structure LastIntroduces (sent : List Instruction) (table : Table) (id : String) (n : Nat) : Prop
    extends Introduces sent table id n where
  last : ∀ m, Introduces sent table id m → m ≤ n

section Latest

variable {α : Type} {part : Instruction → Option α} {sent : List Instruction} {i : Instruction}

theorem latest?_concat : latest? part (sent ++ [i]) = (part i).or (latest? part sent) := by
  rw [latest?, List.reverse_append, List.findSome?_append]
  cases h : part i <;> simp [latest?, h]

theorem exists_mem_of_latest? {a : α} (h : latest? part sent = some a) :
    ∃ i ∈ sent, part i = some a := by
  obtain ⟨i, hmem, hpart⟩ := List.exists_of_findSome?_eq_some h
  exact ⟨i, List.mem_reverse.1 hmem, hpart⟩

theorem isSome_latest? (hmem : i ∈ sent) (h : (part i).isSome) : (latest? part sent).isSome :=
  List.findSome?_isSome_iff.2 ⟨i, List.mem_reverse.2 hmem, h⟩

end Latest

variable {sent : List Instruction} {table : Table} {id : String}

theorem places?_eq_some_true_iff {i : Instruction} :
    places? table id i = some true ↔ ∃ cells, i = .add table id cells := by
  cases i <;> simp [places?]

/-- What does not bear on a table is for the other one. -/
theorem exists_table?_of_bearsOn {i : Instruction} (h : bearsOn table i = false) :
    ∃ other, i.table? = some other ∧ other ≠ table := by
  rw [bearsOn, Option.all_eq_false] at h
  simpa using h

theorem refreshes?_of_table? {i : Instruction} (h : i.table? = some table) : refreshes? i = none := by
  cases i with
  | refresh now => cases h
  | add other key cells => rfl
  | update other key cells => rfl
  | remove other key => rfl
  | connection status => rfl

/-- A row that is shown was given cells. -/
theorem Shows.exists_cells (h : Shows sent table id) :
    ∃ cells, latest? (draws? table id) sent = some cells := by
  obtain ⟨i, hmem, hplaces⟩ := exists_mem_of_latest? h
  obtain ⟨cells, rfl⟩ := places?_eq_some_true_iff.1 hplaces
  exact Option.isSome_iff_exists.1 (isSome_latest? hmem (by simp [draws?]))

section Concat

variable {other : Table} {key : String}

theorem shows_concat_add {cells : List Cell} : Shows (sent ++ [.add other key cells]) table id ↔
    (other = table ∧ key = id) ∨ Shows sent table id := by
  rw [Shows, latest?_concat, places?]
  by_cases h : other = table ∧ key = id <;> simp [h, Shows]

theorem shows_concat_remove : Shows (sent ++ [.remove other key]) table id ↔
    ¬(other = table ∧ key = id) ∧ Shows sent table id := by
  rw [Shows, latest?_concat, places?]
  by_cases h : other = table ∧ key = id <;> simp [h, Shows]

/-- Other instructions have no row appear or disappear. -/
theorem shows_concat_of_none {i : Instruction} (h : places? table id i = none) :
    Shows (sent ++ [i]) table id ↔ Shows sent table id := by
  rw [Shows, latest?_concat, h, Option.none_or, Shows]

end Concat

/-- A row that comes to be shown is added. -/
theorem Shows.exists_add_of_concat {i : Instruction} (h : Shows (sent ++ [i]) table id)
    (hnot : ¬Shows sent table id) : ∃ cells, i = .add table id cells := by
  rw [← places?_eq_some_true_iff]
  cases hplaces : places? table id i with
  | none => exact absurd ((shows_concat_of_none hplaces).1 h) hnot
  | some placed => rwa [Shows, latest?_concat, hplaces, Option.some_or] at h

/-! ## The instruction that made a row appear -/

/-- One more instruction makes a row appear only if it adds one that was not shown. -/
theorem introduces_concat {i : Instruction} {n : Nat} :
    Introduces (sent ++ [i]) table id n ↔ Introduces sent table id n ∨
      n = sent.length ∧ ¬Shows sent table id ∧ ∃ cells, i = .add table id cells := by
  constructor
  · rintro ⟨⟨cells, hadd⟩, habsent⟩
    obtain hlt | rfl | hgt := Nat.lt_trichotomy n sent.length
    · rw [List.getElem?_append_left hlt] at hadd
      rw [List.take_append_of_le_length (Nat.le_of_lt hlt)] at habsent
      exact Or.inl ⟨⟨cells, hadd⟩, habsent⟩
    · rw [List.getElem?_concat_length] at hadd
      rw [List.take_left] at habsent
      exact Or.inr ⟨rfl, habsent, cells, Option.some.inj hadd⟩
    · rw [List.getElem?_eq_none (by simpa using Nat.succ_le_of_lt hgt)] at hadd
      cases hadd
  · rintro (⟨⟨cells, hadd⟩, habsent⟩ | ⟨rfl, habsent, cells, rfl⟩)
    · have hlt : n < sent.length := (List.getElem?_eq_some_iff.1 hadd).1
      refine ⟨⟨cells, ?_⟩, ?_⟩
      · rw [List.getElem?_append_left hlt, hadd]
      · rwa [List.take_append_of_le_length (Nat.le_of_lt hlt)]
    · exact ⟨⟨cells, List.getElem?_concat_length⟩, by rwa [List.take_left]⟩

theorem Introduces.lt_length {n : Nat} (h : Introduces sent table id n) : n < sent.length := by
  obtain ⟨cells, hadd⟩ := h.addition
  exact (List.getElem?_eq_some_iff.1 hadd).1

/-- While a row is shown, nothing makes it appear anew. -/
theorem Shows.lastIntroduces_concat (h : Shows sent table id) {i : Instruction} {n : Nat} :
    LastIntroduces (sent ++ [i]) table id n ↔ LastIntroduces sent table id n := by
  have hsame : ∀ m, Introduces (sent ++ [i]) table id m ↔ Introduces sent table id m := fun m =>
    introduces_concat.trans (or_iff_left fun hnew => hnew.2.1 h)
  constructor
  · exact fun ⟨hn, hlast⟩ => ⟨(hsame n).1 hn, fun m hm => hlast m ((hsame m).2 hm)⟩
  · exact fun ⟨hn, hlast⟩ => ⟨(hsame n).2 hn, fun m hm => hlast m ((hsame m).1 hm)⟩

/-- A row that was not shown appears with the instruction that adds it. -/
theorem lastIntroduces_concat_add (h : ¬Shows sent table id) {cells : List Cell} {n : Nat} :
    LastIntroduces (sent ++ [.add table id cells]) table id n ↔ n = sent.length := by
  have hnew : Introduces (sent ++ [.add table id cells]) table id sent.length :=
    introduces_concat.2 (Or.inr ⟨rfl, h, cells, rfl⟩)
  have hle : ∀ m, Introduces (sent ++ [.add table id cells]) table id m → m ≤ sent.length := by
    intro m hm
    obtain hold | ⟨rfl, -⟩ := introduces_concat.1 hm
    · exact Nat.le_of_lt hold.lt_length
    · exact Nat.le_refl _
  constructor
  · exact fun ⟨hn, hlast⟩ => Nat.le_antisymm (hle n hn) (hlast _ hnew)
  · rintro rfl
    exact ⟨hnew, hle⟩

/-- A row that is shown has an instruction that made it appear last. -/
theorem Shows.exists_lastIntroduces (h : Shows sent table id) : ∃ n, LastIntroduces sent table id n := by
  induction sent using List.reverseRecOn with
  | nil => cases h
  | append_singleton sent i ih =>
    by_cases hold : Shows sent table id
    · obtain ⟨n, hn⟩ := ih hold
      exact ⟨n, hold.lastIntroduces_concat.2 hn⟩
    · obtain ⟨cells, rfl⟩ := h.exists_add_of_concat hold
      exact ⟨sent.length, (lastIntroduces_concat_add hold).2 rfl⟩

end Instruction

/-! ## Rows that are replaced -/

theorem Display.replaceRow_of_not_mem {row : ShownRow} {rows : List ShownRow}
    (h : row.id ∉ rows.map ShownRow.id) : replaceRow row rows = rows := by
  refine (List.map_congr_left fun old hold => ?_).trans (List.map_id _)
  exact if_neg fun hid : old.id = row.id => h (hid ▸ List.mem_map_of_mem hold)

/-- In rows with different identities, a row with a known identity is put in the place of the old one. -/
theorem Arrival.put_eq_replaceRow {row : ShownRow} {rows : List ShownRow}
    (hnodup : (rows.map ShownRow.id).Nodup) (h : row.id ∈ rows.map ShownRow.id) :
    put ShownRow.id row rows = Display.replaceRow row rows := by
  induction rows with
  | nil => cases h
  | cons first rest ih =>
    obtain ⟨hfirst, hrest⟩ := List.nodup_cons.1 hnodup
    by_cases heq : first.id = row.id
    · have hothers : Display.replaceRow row rest = rest := Display.replaceRow_of_not_mem (heq ▸ hfirst)
      rw [put, if_pos heq, Display.replaceRow, List.map_cons, if_pos heq, ← Display.replaceRow, hothers]
    · have hmem : row.id ∈ rest.map ShownRow.id :=
        (List.mem_cons.1 h).resolve_left (Ne.symm heq)
      rw [put, if_neg heq, ih hrest hmem, Display.replaceRow, Display.replaceRow, List.map_cons,
        if_neg heq]

namespace Display

open Instruction

/-! ## What is shown -/

/-- A display shows under an identity the latest cells for it, if the row is there. -/
theorem cells?_applyAll_empty (sent : List Instruction) (table : Table) (id : String) :
    (empty.applyAll sent).cells? table id =
      if Shows sent table id then latest? (draws? table id) sent else none := by
  induction sent using List.reverseRecOn with
  | nil => cases table <;> rfl
  | append_singleton sent i ih =>
    rw [applyAll_append]
    change ((empty.applyAll sent).apply i).cells? table id = _
    cases i with
    | add other key cells =>
      rw [cells?_apply_add, ih]
      by_cases hsame : other = table ∧ key = id <;>
        simp [shows_concat_add, latest?_concat, draws?, hsame]
    | update other key cells =>
      have hshows : Shows (sent ++ [.update other key cells]) table id ↔ Shows sent table id :=
        shows_concat_of_none rfl
      rw [cells?_apply_update, ih]
      by_cases hsame : other = table ∧ key = id
      · by_cases hold : Shows sent table id
        · obtain ⟨drawn, hdrawn⟩ := hold.exists_cells
          rw [if_pos hsame, if_pos hold, if_pos (hshows.2 hold), hdrawn, latest?_concat, draws?,
            if_pos hsame]
          rfl
        · rw [if_pos hsame, if_neg hold, if_neg (mt hshows.1 hold)]
          rfl
      · simp [hshows, latest?_concat, draws?, hsame]
    | remove other key =>
      rw [cells?_apply_remove, ih]
      by_cases hsame : other = table ∧ key = id <;>
        simp [shows_concat_remove, latest?_concat, draws?, hsame]
    | refresh now =>
      have hshows : Shows (sent ++ [.refresh now]) table id ↔ Shows sent table id :=
        shows_concat_of_none rfl
      simp [cells?_apply_refresh, ih, hshows, latest?_concat, draws?]
    | connection status =>
      have hshows : Shows (sent ++ [.connection status]) table id ↔ Shows sent table id :=
        shows_concat_of_none rfl
      simp [cells?_apply_connection, ih, hshows, latest?_concat, draws?]

theorem nodup_ids_applyAll_empty (sent : List Instruction) (table : Table) :
    ((empty.applyAll sent).ids table).Nodup :=
  nodup_ids_applyAll sent (fun table => by cases table <;> exact List.nodup_nil) table

/-- The row of an identity is there exactly if the instructions have it shown. -/
theorem mem_ids_applyAll_empty {sent : List Instruction} {table : Table} {id : String} :
    id ∈ (empty.applyAll sent).ids table ↔ Shows sent table id := by
  have hnodup := nodup_ids_applyAll_empty sent table
  constructor
  · intro hmem
    obtain ⟨row, hrow, rfl⟩ := List.mem_map.1 hmem
    have hcells := (cells?_eq_some_iff hnodup).2 ⟨row, hrow, rfl, rfl⟩
    rw [cells?_applyAll_empty] at hcells
    by_contra hnot
    rw [if_neg hnot] at hcells
    cases hcells
  · intro hshows
    obtain ⟨cells, hcells⟩ := hshows.exists_cells
    have hshown : (empty.applyAll sent).cells? table id = some cells := by
      rw [cells?_applyAll_empty, if_pos hshows, hcells]
    obtain ⟨row, hrow, rfl, -⟩ := (cells?_eq_some_iff hnodup).1 hshown
    exact List.mem_map_of_mem hrow

/-- A row has the latest cells for it. -/
theorem latest?_draws?_of_mem {sent : List Instruction} {table : Table} {row : ShownRow}
    (h : row ∈ (empty.applyAll sent).rows table) :
    latest? (draws? table row.id) sent = some row.cells := by
  have hshows := mem_ids_applyAll_empty.1 (List.mem_map_of_mem h)
  have hcells := (cells?_eq_some_iff (nodup_ids_applyAll_empty sent table)).2 ⟨row, h, rfl, rfl⟩
  rwa [cells?_applyAll_empty, if_pos hshows] at hcells

/-! ## The order of rows -/

/-- Rows stand in the order of the instructions that made them appear last. -/
theorem order_applyAll_empty (sent : List Instruction) (table : Table) :
    ((empty.applyAll sent).ids table).Pairwise fun a b =>
      ∀ m n, LastIntroduces sent table a m → LastIntroduces sent table b n → m < n := by
  induction sent using List.reverseRecOn with
  | nil => cases table <;> exact .nil
  | append_singleton sent i ih =>
    -- What is shown before the last instruction did not appear with it.
    have hkept : ((empty.applyAll sent).ids table).Pairwise fun a b => ∀ m n,
        LastIntroduces (sent ++ [i]) table a m → LastIntroduces (sent ++ [i]) table b n → m < n := by
      refine ih.imp_of_mem fun ha hb hlt m n hm hn => ?_
      exact hlt m n ((mem_ids_applyAll_empty.1 ha).lastIntroduces_concat.1 hm)
        ((mem_ids_applyAll_empty.1 hb).lastIntroduces_concat.1 hn)
    rw [applyAll_append]
    change (((empty.applyAll sent).apply i).ids table).Pairwise _
    obtain hsub | ⟨id, cells, rfl, hnew, hids⟩ := (empty.applyAll sent).ids_apply i table
    · exact hkept.sublist hsub
    · rw [hids]
      refine List.pairwise_append.2 ⟨hkept, List.pairwise_singleton _ _, fun a ha b hb m n hm hn => ?_⟩
      obtain rfl := List.mem_singleton.1 hb
      rw [(lastIntroduces_concat_add (mt mem_ids_applyAll_empty.2 hnew)).1 hn]
      exact ((mem_ids_applyAll_empty.1 ha).lastIntroduces_concat.1 hm).lt_length

/-! ## Labels, and the state of the connection -/

/-- The instant that labels are drawn for is the last one given. -/
theorem drawnAt_apply (d : Display) (i : Instruction) :
    (d.apply i).drawnAt = (refreshes? i).or d.drawnAt := by
  cases i with
  | add table id cells => exact drawnAt_withRows ..
  | update table id cells => exact drawnAt_withRows ..
  | remove table id => exact drawnAt_withRows ..
  | refresh now => rfl
  | connection status => rfl

theorem connection_apply (d : Display) (i : Instruction) :
    (d.apply i).connection = (connects? i).getD d.connection := by
  cases i with
  | add table id cells => exact connection_withRows ..
  | update table id cells => exact connection_withRows ..
  | remove table id => exact connection_withRows ..
  | refresh now => rfl
  | connection status => rfl

theorem drawnAt_applyAll_empty (sent : List Instruction) :
    (empty.applyAll sent).drawnAt = latest? refreshes? sent := by
  induction sent using List.reverseRecOn with
  | nil => rfl
  | append_singleton sent i ih =>
    rw [applyAll_append, latest?_concat, ← ih]
    exact drawnAt_apply ..

theorem connection_applyAll_empty (sent : List Instruction) :
    (empty.applyAll sent).connection = (latest? connects? sent).getD .connected := by
  induction sent using List.reverseRecOn with
  | nil => rfl
  | append_singleton sent i ih =>
    rw [applyAll_append, latest?_concat]
    refine (connection_apply ..).trans ?_
    rw [ih]
    cases connects? i <;> rfl

/-- Every row is drawn for the instant of the last refresh. -/
def Drawn (d : Display) : Prop :=
  ∀ table, ∀ row ∈ d.rows table, row = .draw d.drawnAt row.id row.cells

theorem Drawn.apply {d : Display} (h : d.Drawn) (i : Instruction) : (d.apply i).Drawn := by
  intro table row hrow
  cases i with
  | add other id cells =>
    rw [Display.apply, rows_withRows] at hrow
    rw [Display.apply, drawnAt_withRows]
    split at hrow
    case isTrue =>
      obtain rfl | hold := Arrival.mem_put hrow
      · rfl
      · exact h table row hold
    case isFalse => exact h table row hrow
  | update other id cells =>
    rw [Display.apply, rows_withRows] at hrow
    rw [Display.apply, drawnAt_withRows]
    split at hrow
    case isTrue =>
      obtain ⟨old, hold, rfl⟩ := List.mem_map.1 hrow
      split
      case isTrue => rfl
      case isFalse => exact h table old hold
    case isFalse => exact h table row hrow
  | remove other id =>
    rw [Display.apply, rows_withRows] at hrow
    rw [Display.apply, drawnAt_withRows]
    split at hrow
    case isTrue => exact h table row (List.mem_of_mem_filter hrow)
    case isFalse => exact h table row hrow
  | refresh now =>
    rw [rows_apply_refresh] at hrow
    obtain ⟨old, -, rfl⟩ := List.mem_map.1 hrow
    rfl
  | connection status =>
    cases table with
    | policies => exact h .policies row hrow
    | leases => exact h .leases row hrow

theorem Drawn.applyAll {d : Display} (h : d.Drawn) (sent : List Instruction) :
    (d.applyAll sent).Drawn := by
  induction sent generalizing d with
  | nil => exact h
  | cons i rest ih => exact ih (h.apply i)

theorem drawn_empty : empty.Drawn := by
  intro table row hrow
  cases table <;> cases hrow

/-! ## What makes no difference -/

theorem withRows_congr {d : Display} {table : Table} {f g : List ShownRow → List ShownRow}
    (h : f (d.rows table) = g (d.rows table)) : d.withRows table f = d.withRows table g := by
  cases table with
  | policies => exact congrArg (fun rows => { d with policies := rows }) h
  | leases => exact congrArg (fun rows => { d with leases := rows }) h

theorem withRows_id (d : Display) (table : Table) : d.withRows table id = d := by
  cases table <;> rfl

/-- To update a row that is not shown changes nothing. -/
theorem apply_update_of_not_mem {d : Display} {table : Table} {id : String}
    (h : id ∉ d.ids table) (cells : List Cell) : d.apply (.update table id cells) = d := by
  refine (withRows_congr ?_).trans (d.withRows_id table)
  exact replaceRow_of_not_mem h

/-- To add a row that is shown is to update it. -/
theorem apply_add_of_mem {d : Display} {table : Table} {id : String} (hnodup : (d.ids table).Nodup)
    (h : id ∈ d.ids table) (cells : List Cell) :
    d.apply (.add table id cells) = d.apply (.update table id cells) :=
  withRows_congr (Arrival.put_eq_replaceRow hnodup h)

/-- What becomes of a table depends on its rows and the instant of the last refresh alone. -/
theorem rows_apply_congr {d e : Display} {table : Table} (hrows : d.rows table = e.rows table)
    (hdrawn : d.drawnAt = e.drawnAt) (i : Instruction) :
    (d.apply i).rows table = (e.apply i).rows table := by
  cases i with
  | add other id cells => simp only [apply, rows_withRows, hrows, hdrawn]
  | update other id cells => simp only [apply, rows_withRows, hrows, hdrawn]
  | remove other id => simp only [apply, rows_withRows, hrows]
  | refresh now => rw [rows_apply_refresh, rows_apply_refresh, hrows]
  | connection status =>
    cases table with
    | policies => exact hrows
    | leases => exact hrows

/-- The rows of a table do not depend on the instructions for the other one. -/
theorem rows_applyAll_filter (sent : List Instruction) (table : Table) :
    (empty.applyAll sent).rows table = (empty.applyAll (sent.filter (bearsOn table))).rows table := by
  suffices h : (empty.applyAll sent).rows table =
        (empty.applyAll (sent.filter (bearsOn table))).rows table ∧
      (empty.applyAll sent).drawnAt = (empty.applyAll (sent.filter (bearsOn table))).drawnAt from h.1
  induction sent using List.reverseRecOn with
  | nil => exact ⟨rfl, rfl⟩
  | append_singleton sent i ih =>
    obtain ⟨hrows, hdrawn⟩ := ih
    rw [List.filter_append, applyAll_append, applyAll_append]
    cases hbears : bearsOn table i with
    | true =>
      rw [List.filter_cons_of_pos hbears]
      refine ⟨rows_apply_congr hrows hdrawn i, ?_⟩
      exact (drawnAt_apply ..).trans (hdrawn ▸ (drawnAt_apply ..).symm)
    | false =>
      obtain ⟨other, hother, hne⟩ := exists_table?_of_bearsOn hbears
      rw [List.filter_cons_of_neg (by simp [hbears])]
      refine ⟨(rows_apply_of_ne hother hne).trans hrows, (drawnAt_apply ..).trans ?_⟩
      rw [refreshes?_of_table? hother, Option.none_or, hdrawn]
      rfl

end Display

/-! ## The display after instructions -/

section Account

open Instruction

/-- A display accounts for instructions.  A row is there exactly if the last instruction that adds or
removes it adds it, and then has the cells of the last one that adds or updates it.  The rows of a table
are different, and stand in the order of the instructions that made them appear last: to add a row that
is there is to update it in its place, and to update one that is not there is to do nothing.  Neither
table depends on instructions for the other.  All labels are those for the instant of the last refresh,
if there was one, and the connection is in the state that was shown last. -/
structure Display.AccountsFor (d : Display) (sent : List Instruction) : Prop where
  distinct : ∀ table, (d.ids table).Nodup
  present : ∀ table id, id ∈ d.ids table ↔ Shows sent table id
  cells : ∀ table, ∀ row ∈ d.rows table, latest? (draws? table row.id) sent = some row.cells
  order : ∀ table, ∃ position : String → Nat,
    (∀ id ∈ d.ids table, LastIntroduces sent table id (position id)) ∧
      (d.ids table).Pairwise fun a b => position a < position b
  readded : ∀ before table id cells after, sent = before ++ .add table id cells :: after →
    Shows before table id → d = empty.applyAll (before ++ .update table id cells :: after)
  unshown : ∀ before table id cells after, sent = before ++ .update table id cells :: after →
    ¬Shows before table id → d = empty.applyAll (before ++ after)
  apart : ∀ table, d.rows table = (empty.applyAll (sent.filter (bearsOn table))).rows table
  labels : ∀ now, latest? refreshes? sent = some now → ∀ table, ∀ row ∈ d.rows table,
    row.labels = row.cells.map fun cell => some (cell.label now)
  connection : d.connection = (latest? connects? sent).getD .connected

/-- Whatever instructions an empty display is given, it accounts for them. -/
theorem display_follows_instructions (sent : List Instruction) :
    (Display.empty.applyAll sent).AccountsFor sent where
  distinct := Display.nodup_ids_applyAll_empty sent
  present _ _ := Display.mem_ids_applyAll_empty
  cells _ _ := Display.latest?_draws?_of_mem
  order table := by
    have hintroduced : ∀ id, ∃ n, Shows sent table id → LastIntroduces sent table id n := by
      intro id
      by_cases h : Shows sent table id
      · exact h.exists_lastIntroduces.imp fun n hn _ => hn
      · exact ⟨0, fun hshows => absurd hshows h⟩
    choose position hposition using hintroduced
    have hlast : ∀ id ∈ (Display.empty.applyAll sent).ids table,
        LastIntroduces sent table id (position id) := fun id hid =>
      hposition id (Display.mem_ids_applyAll_empty.1 hid)
    exact ⟨position, hlast, (Display.order_applyAll_empty sent table).imp_of_mem
      fun ha hb hlt => hlt _ _ (hlast _ ha) (hlast _ hb)⟩
  readded before table id cells after hsent hshows := by
    have hsame := Display.apply_add_of_mem (Display.nodup_ids_applyAll_empty before table)
      (Display.mem_ids_applyAll_empty.2 hshows) cells
    rw [hsent, Display.applyAll_append, Display.applyAll_append]
    exact congrArg (Display.applyAll · after) hsame
  unshown before table id cells after hsent hnot := by
    have hsame := Display.apply_update_of_not_mem (mt Display.mem_ids_applyAll_empty.1 hnot) cells
    rw [hsent, Display.applyAll_append, Display.applyAll_append]
    exact congrArg (Display.applyAll · after) hsame
  apart := Display.rows_applyAll_filter sent
  labels now hnow table row hrow := by
    have hdrawn := Display.drawn_empty.applyAll sent table row hrow
    rw [Display.drawnAt_applyAll_empty, hnow] at hdrawn
    rw [congrArg ShownRow.labels hdrawn]
    exact List.map_congr_left fun cell _ => cell.label?_some now
  connection := Display.connection_applyAll_empty sent

example : (Display.empty.applyAll [.update .leases "a" [], .add .leases "a" [], .add .leases "b" [],
    .remove .leases "a", .add .leases "b" [], .add .leases "a" []]).ids .leases = ["b", "a"] := by
  decide

end Account

end LeaseBoard
