set_option autoImplicit false

/-!
# Tables keyed by text

A `Keyed α` holds at most one value for each key and lists its entries in strictly ascending key
order.  The order is part of the type, so two tables that answer every look-up alike are equal
(`Keyed.ext`), and whatever is read off a table comes out sorted by key.

Keys are compared code point by code point, which is also the order of their UTF-8 bytes.

The view of a table is `get?`; each operation has one lemma that says what it does to the view
(`get?_insert`, `get?_erase`, `get?_filter`, `get?_mapValues`, `get?_ofList`).
-/

namespace LeaseBoard

/-! ## Entry lists -/

namespace Entries

variable {α β : Type}

/-- The value stored under a key. -/
def find? (key : String) : List (String × α) → Option α
  | [] => none
  | (k, v) :: rest => if k = key then some v else find? key rest

/-- Puts a value under a key: in place of the value that is there, or else before the first larger
key. -/
def put (key : String) (value : α) : List (String × α) → List (String × α)
  | [] => [(key, value)]
  | (k, v) :: rest =>
    if key < k then (key, value) :: (k, v) :: rest
    else if key = k then (key, value) :: rest
    else (k, v) :: put key value rest

/-- Every key occurs once and keys ascend. -/
def Sorted (entries : List (String × α)) : Prop :=
  entries.Pairwise fun a b => a.1 < b.1

theorem find?_eq_none_of_lt {key : String} {entries : List (String × α)}
    (h : ∀ e ∈ entries, key < e.1) : find? key entries = none := by
  induction entries with
  | nil => rfl
  | cons e rest ih =>
    obtain ⟨k, v⟩ := e
    have hk : key < k := h (k, v) List.mem_cons_self
    have hne : k ≠ key := fun hEq => String.lt_irrefl key (hEq ▸ hk)
    simp only [find?, hne, if_false]
    exact ih fun e he => h e (List.mem_cons_of_mem _ he)

theorem find?_put (key key' : String) (value : α) (entries : List (String × α)) :
    find? key' (put key value entries) = if key = key' then some value else find? key' entries := by
  induction entries with
  | nil => rfl
  | cons e rest ih =>
    obtain ⟨k, v⟩ := e
    by_cases hlt : key < k
    · simp only [put, hlt, if_true, find?]
    · by_cases heq : key = k
      · subst heq
        simp only [put, hlt, if_false, if_true, find?]
        by_cases h : key = key' <;> simp [h]
      · simp only [put, hlt, heq, if_false, find?, ih]
        by_cases h : k = key'
        · subst h; simp [heq]
        · simp [h]

theorem mem_put {key : String} {value : α} {e : String × α} {entries : List (String × α)}
    (h : e ∈ put key value entries) : e = (key, value) ∨ e ∈ entries := by
  induction entries with
  | nil => exact Or.inl (List.mem_singleton.1 h)
  | cons f rest ih =>
    obtain ⟨k, v⟩ := f
    by_cases hlt : key < k
    · simp only [put, hlt, if_true, List.mem_cons] at h
      rcases h with h | h | h
      · exact Or.inl h
      · exact Or.inr (h ▸ List.mem_cons_self)
      · exact Or.inr (List.mem_cons_of_mem _ h)
    · by_cases heq : key = k
      · subst heq
        simp only [put, hlt, if_false, if_true] at h
        rcases List.mem_cons.1 h with h | h
        · exact Or.inl h
        · exact Or.inr (List.mem_cons_of_mem _ h)
      · simp only [put, hlt, heq, if_false] at h
        rcases List.mem_cons.1 h with h | h
        · exact Or.inr (h ▸ List.mem_cons_self)
        · exact (ih h).imp id (List.mem_cons_of_mem _)

theorem sorted_put (key : String) (value : α) {entries : List (String × α)}
    (h : Sorted entries) : Sorted (put key value entries) := by
  induction entries with
  | nil => exact List.pairwise_singleton _ _
  | cons e rest ih =>
    obtain ⟨k, v⟩ := e
    obtain ⟨hhead, htail⟩ := List.pairwise_cons.1 h
    by_cases hlt : key < k
    · simp only [put, hlt, if_true]
      refine List.pairwise_cons.2 ⟨fun e he => ?_, h⟩
      rcases List.mem_cons.1 he with he | he
      · subst he; exact hlt
      · exact String.lt_trans hlt (hhead e he)
    · by_cases heq : key = k
      · subst heq
        simp only [put, hlt, if_false, if_true]
        exact List.pairwise_cons.2 ⟨hhead, htail⟩
      · simp only [put, hlt, heq, if_false]
        refine List.pairwise_cons.2 ⟨fun e he => ?_, ih htail⟩
        rcases mem_put he with he | he
        · subst he
          rcases String.le_total key k with hle | hle
          · exact absurd (String.le_antisymm hle (String.not_lt.1 hlt)) heq
          · exact String.not_le.1 fun hle' => heq (String.le_antisymm hle' hle)
        · exact hhead e he

theorem find?_filter {entries : List (String × α)} (h : Sorted entries)
    (keep : String → α → Bool) (key : String) :
    find? key (entries.filter fun e => keep e.1 e.2) =
      (find? key entries).filter fun v => keep key v := by
  induction entries with
  | nil => rfl
  | cons e rest ih =>
    obtain ⟨k, v⟩ := e
    obtain ⟨hhead, htail⟩ := List.pairwise_cons.1 h
    by_cases hk : k = key
    · subst hk
      by_cases hkeep : keep k v = true
      · simp [find?, hkeep, Option.filter]
      · have hrest : find? k rest = none := find?_eq_none_of_lt hhead
        simp [find?, hkeep, ih htail, hrest, Option.filter]
    · by_cases hkeep : keep k v = true
      · simp [find?, hkeep, hk, ih htail]
      · simp [find?, hkeep, hk, ih htail]

theorem find?_map (f : α → β) (key : String) (entries : List (String × α)) :
    find? key (entries.map fun e => (e.1, f e.2)) = (find? key entries).map f := by
  induction entries with
  | nil => rfl
  | cons e rest ih =>
    obtain ⟨k, v⟩ := e
    by_cases hk : k = key
    · simp [find?, hk]
    · simp [find?, hk, ih]

theorem sorted_map (f : α → β) {entries : List (String × α)} (h : Sorted entries) :
    Sorted (entries.map fun e => (e.1, f e.2)) := by
  unfold Sorted
  rw [List.pairwise_map]
  exact h

theorem find?_eq_some_iff {key : String} {value : α} {entries : List (String × α)}
    (h : Sorted entries) : find? key entries = some value ↔ (key, value) ∈ entries := by
  induction entries with
  | nil => simp [find?]
  | cons e rest ih =>
    obtain ⟨k, v⟩ := e
    obtain ⟨hhead, htail⟩ := List.pairwise_cons.1 h
    by_cases hk : k = key
    · subst hk
      have hnot : (k, value) ∉ rest := fun hmem => String.lt_irrefl k (hhead _ hmem)
      simp [find?, hnot, eq_comm]
    · simp [find?, hk, ih htail, Ne.symm hk]

theorem eq_of_find?_eq {l₁ l₂ : List (String × α)} (h₁ : Sorted l₁) (h₂ : Sorted l₂)
    (h : ∀ key, find? key l₁ = find? key l₂) : l₁ = l₂ := by
  induction l₁ generalizing l₂ with
  | nil =>
    cases l₂ with
    | nil => rfl
    | cons e rest => have := h e.1; simp [find?] at this
  | cons e₁ r₁ ih =>
    obtain ⟨k₁, v₁⟩ := e₁
    cases l₂ with
    | nil => have := h k₁; simp [find?] at this
    | cons e₂ r₂ =>
      obtain ⟨k₂, v₂⟩ := e₂
      obtain ⟨hd₁, ht₁⟩ := List.pairwise_cons.1 h₁
      obtain ⟨hd₂, ht₂⟩ := List.pairwise_cons.1 h₂
      have m₁ : (k₁, v₁) ∈ (k₂, v₂) :: r₂ :=
        (find?_eq_some_iff h₂).1 ((h k₁).symm.trans (by simp [find?]))
      have m₂ : (k₂, v₂) ∈ (k₁, v₁) :: r₁ :=
        (find?_eq_some_iff h₁).1 ((h k₂).trans (by simp [find?]))
      have hk : (k₁, v₁) = (k₂, v₂) := by
        rcases List.mem_cons.1 m₁ with m₁ | m₁
        · exact m₁
        · rcases List.mem_cons.1 m₂ with m₂ | m₂
          · exact m₂.symm
          · exact absurd (String.lt_trans (hd₁ _ m₂) (hd₂ _ m₁)) (String.lt_irrefl _)
      obtain ⟨rfl, rfl⟩ := Prod.mk.injEq .. ▸ hk
      refine congrArg _ (ih ht₁ ht₂ fun key => ?_)
      by_cases hkey : k₁ = key
      · subst hkey
        rw [find?_eq_none_of_lt hd₁, find?_eq_none_of_lt hd₂]
      · have := h key
        simpa [find?, hkey] using this

end Entries

/-! ## The table type -/

/-- A table from text keys to values, listed in ascending key order. -/
structure Keyed (α : Type) where
  entries : List (String × α)
  sorted : Entries.Sorted entries
  deriving Repr

namespace Keyed

variable {α β : Type}

instance [DecidableEq α] : DecidableEq (Keyed α) := fun a b =>
  decidable_of_iff (a.entries = b.entries) <| by
    cases a; cases b; simp

/-- The table without entries. -/
def empty : Keyed α := ⟨[], List.Pairwise.nil⟩

instance : Inhabited (Keyed α) := ⟨empty⟩

instance : EmptyCollection (Keyed α) := ⟨empty⟩

/-- The value under a key, if there is one. -/
def get? (t : Keyed α) (key : String) : Option α := Entries.find? key t.entries

/-- Whether there is a value under a key. -/
def contains (t : Keyed α) (key : String) : Bool := (t.get? key).isSome

/-- Puts a value under a key, in place of the value that is there. -/
def insert (t : Keyed α) (key : String) (value : α) : Keyed α :=
  ⟨Entries.put key value t.entries, Entries.sorted_put key value t.sorted⟩

/-- Keeps the entries that pass a test. -/
def filter (t : Keyed α) (keep : String → α → Bool) : Keyed α :=
  ⟨t.entries.filter fun e => keep e.1 e.2, t.sorted.filter _⟩

/-- Drops the entry under a key. -/
def erase (t : Keyed α) (key : String) : Keyed α := t.filter fun k _ => k != key

/-- Applies a function to every value. -/
def mapValues (t : Keyed α) (f : α → β) : Keyed β :=
  ⟨t.entries.map fun e => (e.1, f e.2), Entries.sorted_map f t.sorted⟩

/-- The keys in ascending order. -/
def keys (t : Keyed α) : List String := t.entries.map (·.1)

/-- The values in ascending order of their keys. -/
def values (t : Keyed α) : List α := t.entries.map (·.2)

/-- The number of entries. -/
def size (t : Keyed α) : Nat := t.entries.length

/-- Whether there are no entries. -/
def isEmpty (t : Keyed α) : Bool := t.entries.isEmpty

/-- The table of a list of pairs; of two pairs with one key the later one counts. -/
def ofList (pairs : List (String × α)) : Keyed α :=
  pairs.foldl (fun t p => t.insert p.1 p.2) empty

/-! ## The view -/

@[ext] theorem ext {a b : Keyed α} (h : ∀ key, a.get? key = b.get? key) : a = b := by
  obtain ⟨l₁, h₁⟩ := a
  obtain ⟨l₂, h₂⟩ := b
  obtain rfl : l₁ = l₂ := Entries.eq_of_find?_eq h₁ h₂ h
  rfl

@[simp] theorem get?_empty (key : String) : (empty : Keyed α).get? key = none := rfl

theorem get?_insert (t : Keyed α) (key key' : String) (value : α) :
    (t.insert key value).get? key' = if key = key' then some value else t.get? key' :=
  Entries.find?_put key key' value t.entries

/-- Where rows are put in one after the other, the last one under a key counts. -/
theorem get?_foldl_insert (id : α → String) (rows : List α) (t : Keyed α) (key : String) :
    (rows.foldl (fun t row => t.insert (id row) row) t).get? key =
      (rows.reverse.find? fun row => id row = key).or (t.get? key) := by
  induction rows generalizing t with
  | nil => rfl
  | cons row rest ih =>
    simp only [List.foldl_cons, ih, List.reverse_cons, List.find?_append, get?_insert]
    by_cases h : id row = key <;> cases rest.reverse.find? (fun row => id row = key) <;> simp [h]

theorem get?_filter (t : Keyed α) (keep : String → α → Bool) (key : String) :
    (t.filter keep).get? key = (t.get? key).filter fun v => keep key v :=
  Entries.find?_filter t.sorted keep key

theorem get?_erase (t : Keyed α) (key key' : String) :
    (t.erase key).get? key' = if key = key' then none else t.get? key' := by
  rw [erase, get?_filter]
  by_cases h : key = key'
  · subst h
    cases t.get? key <;> simp [Option.filter]
  · have hne : (key' != key) = true := by simp [Ne.symm h]
    cases t.get? key' <;> simp [Option.filter, hne, h]

@[simp] theorem get?_mapValues (t : Keyed α) (f : α → β) (key : String) :
    (t.mapValues f).get? key = (t.get? key).map f :=
  Entries.find?_map f key t.entries

@[simp] theorem keys_mapValues (t : Keyed α) (f : α → β) : (t.mapValues f).keys = t.keys := by
  simp only [keys, mapValues, List.map_map, Function.comp_def]

@[simp] theorem contains_mapValues (t : Keyed α) (f : α → β) (key : String) :
    (t.mapValues f).contains key = t.contains key := by
  simp [contains]

theorem get?_eq_some_iff (t : Keyed α) {key : String} {value : α} :
    t.get? key = some value ↔ (key, value) ∈ t.entries :=
  Entries.find?_eq_some_iff t.sorted

theorem mem_keys_iff (t : Keyed α) {key : String} : key ∈ t.keys ↔ (t.get? key).isSome := by
  rw [Option.isSome_iff_exists]
  constructor
  · intro h
    obtain ⟨⟨k, v⟩, hmem, rfl⟩ := List.mem_map.1 h
    exact ⟨v, t.get?_eq_some_iff.2 hmem⟩
  · rintro ⟨v, hv⟩
    exact List.mem_map.2 ⟨(key, v), t.get?_eq_some_iff.1 hv, rfl⟩

/-- The keys of a table are strictly ascending. -/
theorem keys_pairwise (t : Keyed α) : t.keys.Pairwise (· < ·) :=
  List.pairwise_map.2 t.sorted

/-- Of two pairs with one key the later one counts. -/
theorem get?_ofList (pairs : List (String × α)) (key : String) :
    (ofList pairs).get? key = pairs.reverse.lookup key := by
  suffices h : ∀ t : Keyed α, (pairs.foldl (fun t p => t.insert p.1 p.2) t).get? key =
      (pairs.reverse.lookup key).or (t.get? key) by
    have := h empty
    simpa [ofList] using this
  induction pairs with
  | nil => intro t; rfl
  | cons p rest ih =>
    intro t
    obtain ⟨k, v⟩ := p
    rw [List.foldl_cons, ih, get?_insert, List.reverse_cons, List.lookup_append]
    by_cases h : k = key
    · subst h; cases rest.reverse.lookup k <;> simp
    · have hne : (key == k) = false := by simp [Ne.symm h]
      cases rest.reverse.lookup key <;> simp [h, List.lookup_cons, hne]

/-- Where keys do not repeat, looking up a key finds exactly its entry. -/
theorem lookup_eq_some_iff {pairs : List (String × α)} (h : pairs.Pairwise fun a b => a.1 ≠ b.1)
    {key : String} {value : α} : pairs.lookup key = some value ↔ (key, value) ∈ pairs := by
  induction pairs with
  | nil => simp
  | cons p rest ih =>
    obtain ⟨k, v⟩ := p
    obtain ⟨hhead, htail⟩ := List.pairwise_cons.1 h
    by_cases hk : key = k
    · subst hk
      have hnot : (key, value) ∉ rest := fun hmem => hhead _ hmem rfl
      simp [hnot, eq_comm]
    · have hne : (key == k) = false := by simp [hk]
      simp [List.lookup_cons, hne, ih htail, hk]

/-- A table is the table of its own entries, whatever order they are listed in. -/
theorem ofList_of_perm {t : Keyed α} {pairs : List (String × α)} (h : pairs.Perm t.entries) :
    ofList pairs = t := by
  have hentries : t.entries.Pairwise fun a b => a.1 ≠ b.1 := by
    refine List.Pairwise.imp ?_ t.sorted
    intro a b hlt heq
    rw [heq] at hlt
    exact String.lt_irrefl _ hlt
  have hpairs : pairs.reverse.Pairwise fun a b => a.1 ≠ b.1 :=
    hentries.perm (h.symm.trans pairs.reverse_perm.symm) Ne.symm
  ext key value
  rw [get?_ofList, lookup_eq_some_iff hpairs, List.mem_reverse, h.mem_iff, get?_eq_some_iff]

end Keyed

end LeaseBoard
