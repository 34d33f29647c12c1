set_option autoImplicit false

/-!
# Rows in order of arrival

A list of rows, each with an identity, in the order in which the identities first came.  A row whose
identity is there takes the place of the old one.  Main statements: `ids_put` (how a row changes the
identities) and `nodup_ids_collect` (no identity occurs twice).
-/

namespace LeaseBoard.Arrival

variable {α : Type}

/-- Puts a row in place of the one with its identity, or behind all. -/
def put (id : α → String) (row : α) : List α → List α
  | [] => [row]
  | first :: rest => if id first = id row then row :: rest else first :: put id row rest

/-- The rows of a list with repeated identities: the place of the first, the content of the last. -/
def collect (id : α → String) (rows : List α) : List α :=
  rows.foldl (fun kept row => put id row kept) []

theorem ids_put (id : α → String) (row : α) (rows : List α) :
    (put id row rows).map id =
      if id row ∈ rows.map id then rows.map id else rows.map id ++ [id row] := by
  induction rows with
  | nil => rfl
  | cons first rest ih =>
    by_cases h : id first = id row
    · simp [put, h]
    · simp only [put, h, if_false, List.map_cons, ih, List.mem_cons]
      by_cases hmem : id row ∈ rest.map id
      · simp [hmem]
      · simp [hmem, Ne.symm h]

theorem mem_put {id : α → String} {row x : α} {rows : List α} (h : x ∈ put id row rows) :
    x = row ∨ x ∈ rows := by
  induction rows with
  | nil => exact Or.inl (List.mem_singleton.1 h)
  | cons first rest ih =>
    by_cases heq : id first = id row
    · simp only [put, heq, if_true, List.mem_cons] at h
      exact h.imp (fun h => h) (List.mem_cons_of_mem _)
    · simp only [put, heq, if_false, List.mem_cons] at h
      rcases h with h | h
      · exact Or.inr (h ▸ List.mem_cons_self)
      · exact (ih h).imp (fun h => h) (List.mem_cons_of_mem _)

theorem nodup_ids_put {id : α → String} {row : α} {rows : List α} (h : (rows.map id).Nodup) :
    ((put id row rows).map id).Nodup := by
  rw [ids_put]
  split
  case isTrue => exact h
  case isFalse hnot =>
    refine List.nodup_append.2 ⟨h, by simp, fun a ha b hb => ?_⟩
    rw [List.mem_singleton.1 hb]
    rintro rfl
    exact hnot ha

theorem nodup_ids_collect (id : α → String) (rows : List α) : ((collect id rows).map id).Nodup := by
  suffices h : ∀ kept : List α, (kept.map id).Nodup →
      ((rows.foldl (fun kept row => put id row kept) kept).map id).Nodup from h [] List.nodup_nil
  induction rows with
  | nil => exact fun kept h => h
  | cons row rest ih => exact fun kept h => ih _ (nodup_ids_put h)

end LeaseBoard.Arrival
