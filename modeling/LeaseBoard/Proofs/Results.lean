set_option autoImplicit false

/-!
# Programs that can fail

Where a program succeeds each of its parts did, and where it fails the first part did that failed.  Rows
are made of a list of entries one by one, with `List.mapM`, so a list fails as its first bad entry does.

Main statements: `Except.mapM_eq_error_iff` and `Except.exists_mapM_eq_ok_iff`.
-/

namespace LeaseBoard

/-! ## Two programs in sequence -/

section Sequence

variable {ε α β : Type} {x : Except ε α}

theorem Except.map_eq_ok {f : α → β} {b : β} (h : x.map f = .ok b) : ∃ a, x = .ok a ∧ f a = b := by
  cases x with
  | error e => cases h
  | ok a => exact ⟨a, rfl, Except.ok.inj h⟩

theorem Except.map_eq_error_iff {f : α → β} {e : ε} : x.map f = .error e ↔ x = .error e := by
  cases x <;> simp [Except.map]

theorem Except.bind_eq_ok {f : α → Except ε β} {b : β} (h : (x >>= f) = .ok b) :
    ∃ a, x = .ok a ∧ f a = .ok b := by
  cases x with
  | error e => cases h
  | ok a => exact ⟨a, rfl, h⟩

/-- A sequence fails where its first part does, or else where its second part does. -/
theorem Except.bind_eq_error {f : α → Except ε β} {e : ε} (h : (x >>= f) = .error e) :
    x = .error e ∨ ∃ a, x = .ok a ∧ f a = .error e := by
  cases x with
  | error cause =>
    cases h
    exact Or.inl rfl
  | ok a => exact Or.inr ⟨a, rfl, h⟩

/-- Results with the same image are the same failure, or values with the same image. -/
theorem Except.cases_of_map_eq {γ : Type} {y : Except ε γ} {f : α → β} {g : γ → β}
    (h : x.map f = y.map g) :
    (∃ e, x = .error e ∧ y = .error e) ∨ ∃ a c, x = .ok a ∧ y = .ok c ∧ f a = g c := by
  cases x with
  | error e =>
    cases y with
    | error other => exact Or.inl ⟨e, rfl, congrArg Except.error (Except.error.inj h).symm⟩
    | ok c => cases h
  | ok a =>
    cases y with
    | error other => cases h
    | ok c => exact Or.inr ⟨a, c, rfl, rfl, Except.ok.inj h⟩

end Sequence

/-! ## Lists of entries -/

section Entries

variable {ε α β : Type} {f : α → Except ε β} {entries : List α}

/-- A list of entries fails as its first entry does that fails. -/
theorem Except.mapM_eq_error_iff {e : ε} : entries.mapM f = .error e ↔
    ∃ before entry after, entries = before ++ entry :: after ∧ f entry = .error e ∧
      ∀ x ∈ before, ∃ b, f x = .ok b := by
  induction entries with
  | nil => simp [pure, Except.pure]
  | cons first rest ih =>
    rw [List.mapM_cons]
    constructor
    · intro h
      rcases Except.bind_eq_error h with hfirst | ⟨b, hfirst, h⟩
      · exact ⟨[], first, rest, rfl, hfirst, by simp⟩
      · rcases Except.bind_eq_error h with hrest | ⟨bs, -, h⟩
        · obtain ⟨before, entry, after, rfl, hentry, hbefore⟩ := ih.1 hrest
          exact ⟨first :: before, entry, after, rfl, hentry, List.forall_mem_cons.2
            ⟨⟨b, hfirst⟩, hbefore⟩⟩
        · cases h
    · rintro ⟨before, entry, after, hsplit, hentry, hbefore⟩
      cases before with
      | nil =>
        obtain ⟨rfl, rfl⟩ := List.cons.inj hsplit
        rw [hentry]
        rfl
      | cons x before =>
        obtain ⟨rfl, rfl⟩ := List.cons.inj hsplit
        obtain ⟨⟨b, hfirst⟩, hbefore⟩ := List.forall_mem_cons.1 hbefore
        rw [hfirst, ih.2 ⟨before, entry, after, rfl, hentry, hbefore⟩]
        rfl

/-- A list of entries succeeds exactly if each of them does. -/
theorem Except.exists_mapM_eq_ok_iff : (∃ rows, entries.mapM f = .ok rows) ↔
    ∀ entry ∈ entries, ∃ b, f entry = .ok b := by
  induction entries with
  | nil => exact ⟨fun _ => by simp, fun _ => ⟨[], rfl⟩⟩
  | cons first rest ih =>
    rw [List.mapM_cons, List.forall_mem_cons, ← ih]
    constructor
    · rintro ⟨rows, h⟩
      obtain ⟨b, hfirst, h⟩ := Except.bind_eq_ok h
      obtain ⟨bs, hrest, -⟩ := Except.bind_eq_ok h
      exact ⟨⟨b, hfirst⟩, bs, hrest⟩
    · rintro ⟨⟨b, hfirst⟩, bs, hrest⟩
      exact ⟨b :: bs, by rw [hfirst, hrest]; rfl⟩

/-- Where a list of entries fails, one of them does. -/
theorem Except.exists_of_mapM_eq_error {e : ε} (h : entries.mapM f = .error e) :
    ∃ entry ∈ entries, f entry = .error e := by
  obtain ⟨before, entry, after, rfl, hentry, -⟩ := Except.mapM_eq_error_iff.1 h
  exact ⟨entry, List.mem_append_right before List.mem_cons_self, hentry⟩

/-- Rows are made of entries in the same way, if one entry is replaced by one of which the same is
made. -/
theorem Except.mapM_replace {one other : α} (h : f one = f other) (before after : List α) :
    (before ++ one :: after).mapM f = (before ++ other :: after).mapM f := by
  rw [List.mapM_append, List.mapM_append, List.mapM_cons, List.mapM_cons, h]

/-- Rows may be changed when they are all made, or each as it is made. -/
theorem Except.map_mapM {γ : Type} (g : β → γ) :
    (entries.mapM f).map (List.map g) = entries.mapM fun entry => (f entry).map g := by
  induction entries with
  | nil => rfl
  | cons entry rest ih =>
    rw [List.mapM_cons, List.mapM_cons, ← ih]
    cases f entry with
    | error e => rfl
    | ok row => cases rest.mapM f <;> rfl

end Entries

end LeaseBoard
