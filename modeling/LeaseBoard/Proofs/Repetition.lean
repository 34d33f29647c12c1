import LeaseBoard.Proofs.Difference
import LeaseBoard.Proofs.PolicyHistory
import LeaseBoard.Proofs.Survival
import Mathlib.Data.List.Induction
set_option autoImplicit false

/-!
# Identities that repeat

A list of entries may name an identity more than once.  The rows made of it name each identity once, in
the order in which the identities first come, with the content of the last entry; and no rows are made
if an entry lacks a part that a row needs, for the cause of the first such entry.

`Resolves` and `InOrder` say so of rows and entries.  `Arrival.resolve` makes the rows in one pass that
overwrites a row at the position where its identity stands; `resolve_eq` is its agreement with
`Arrival.collect`.  Main statement: `repeated_identities_resolve`.
-/

namespace LeaseBoard

/-! ## One pass over the entries -/

namespace Arrival

variable {ε α : Type}

/-- Rows, with the position at which each identity stands. -/
structure Indexed (α : Type) where
  rows : List α
  position : Keyed Nat

namespace Indexed

/-- No rows. -/
def empty : Indexed α := ⟨[], .empty⟩

/-- Overwrites the row at the position of an identity, or puts the row behind all and notes where. -/
def put (id : α → String) (row : α) (kept : Indexed α) : Indexed α :=
  match kept.position.get? (id row) with
  | some i => { kept with rows := kept.rows.set i row }
  | none => ⟨kept.rows ++ [row], kept.position.insert (id row) kept.rows.length⟩

/-- The noted positions are where the identities stand. -/
def Sound (id : α → String) (kept : Indexed α) : Prop :=
  ∀ key, kept.position.get? key = (kept.rows.map id).idxOf? key

theorem sound_empty (id : α → String) : (empty : Indexed α).Sound id := fun _ => rfl

end Indexed

theorem put_eq_set {id : α → String} {row : α} {rows : List α} {i : Nat}
    (h : (rows.map id).idxOf? (id row) = some i) : put id row rows = rows.set i row := by
  induction rows generalizing i with
  | nil => cases h
  | cons first rest ih =>
    rw [List.map_cons, List.idxOf?_cons] at h
    by_cases hid : id first = id row
    · simp only [hid, beq_self_eq_true, if_true, Option.some.injEq] at h
      rw [put, if_pos hid, ← h, List.set_cons_zero]
    · simp only [beq_iff_eq, hid, if_false] at h
      obtain ⟨j, hj, rfl⟩ := Option.map_eq_some_iff.1 h
      rw [put, if_neg hid, ih hj, List.set_cons_succ]

namespace Indexed

/-- Overwriting at a position is putting in place, and keeps the positions right. -/
theorem Sound.put {id : α → String} {kept : Indexed α} (h : kept.Sound id) (row : α) :
    (kept.put id row).rows = Arrival.put id row kept.rows ∧ (kept.put id row).Sound id := by
  have hposition := h (id row)
  unfold Indexed.put
  cases hrow : kept.position.get? (id row) with
  | some i =>
    have hi : (kept.rows.map id).idxOf? (id row) = some i := hposition.symm.trans hrow
    refine ⟨(put_eq_set hi).symm, fun key => ?_⟩
    have hids : (kept.rows.set i row).map id = kept.rows.map id := by
      have hmem : id row ∈ kept.rows.map id :=
        Classical.not_not.1 fun hnot => by
          rw [List.idxOf?_eq_none_iff.2 hnot] at hi
          cases hi
      rw [← put_eq_set hi, ids_put, if_pos hmem]
    exact (h key).trans (congrArg (List.idxOf? key) hids.symm)
  | none =>
    have hnot : id row ∉ kept.rows.map id :=
      List.idxOf?_eq_none_iff.1 (hposition.symm.trans hrow)
    refine ⟨(put_of_not_mem hnot).symm, fun key => ?_⟩
    rw [Keyed.get?_insert, h key, List.map_append, List.idxOf?, List.findIdx?_append]
    by_cases hkey : id row = key
    · subst hkey
      rw [if_pos rfl, ← List.idxOf?, List.idxOf?_eq_none_iff.2 hnot]
      simp
    · rw [if_neg hkey, ← List.idxOf?]
      simp [hkey]

end Indexed

/-- The rows of a list of entries, made and put one after the other. -/
def resolve (make : ε → Except Failure α) (id : α → String) (entries : List ε) :
    Except Failure (List α) :=
  (entries.foldlM (fun kept entry => (make entry).map (Indexed.put id · kept)) Indexed.empty).map
    Indexed.rows

/-- One pass makes the rows that are made of all entries first and then collected. -/
theorem resolve_eq (make : ε → Except Failure α) (id : α → String) (entries : List ε) :
    resolve make id entries = (entries.mapM make).map (collect id) := by
  suffices h : ∀ kept : Indexed α, kept.Sound id →
      (entries.foldlM (fun kept entry => (make entry).map (Indexed.put id · kept)) kept).map
          Indexed.rows =
        (entries.mapM make).map fun rows => rows.foldl (fun kept row => put id row kept) kept.rows
    from h .empty (Indexed.sound_empty id)
  induction entries with
  | nil => exact fun kept _ => rfl
  | cons entry rest ih =>
    intro kept hkept
    rw [List.foldlM_cons, List.mapM_cons]
    cases hentry : make entry with
    | error failure => rfl
    | ok row =>
      obtain ⟨hrows, hsound⟩ := hkept.put row
      refine (ih (kept.put id row) hsound).trans ?_
      rw [hrows]
      cases rest.mapM make <;> rfl

end Arrival

/-! ## Collected rows -/

namespace Arrival

variable {α : Type} (id : α → String)

theorem collect_concat (rows : List α) (row : α) :
    collect id (rows ++ [row]) = put id row (collect id rows) := by
  rw [collect, List.foldl_append]
  rfl

/-- Collecting loses no identity and adds none. -/
theorem mem_ids_collect {rows : List α} {key : String} :
    key ∈ (collect id rows).map id ↔ key ∈ rows.map id := by
  induction rows using List.reverseRecOn with
  | nil => exact Iff.rfl
  | append_singleton rows row ih =>
    rw [collect_concat, ids_put, List.map_append, List.mem_append, ← ih]
    split
    case isTrue hmem =>
      refine (or_iff_left_of_imp fun hrow => ?_).symm
      rw [List.map_singleton, List.mem_singleton] at hrow
      exact hrow ▸ hmem
    case isFalse => exact List.mem_append

/-- Collected identities stand in the order in which they first come. -/
theorem pairwise_idxOf_collect (rows : List α) :
    ((collect id rows).map id).Pairwise fun a b =>
      (rows.map id).idxOf a < (rows.map id).idxOf b := by
  induction rows using List.reverseRecOn with
  | nil => exact .nil
  | append_singleton rows row ih =>
    have hkept : ((collect id rows).map id).Pairwise fun a b =>
        ((rows ++ [row]).map id).idxOf a < ((rows ++ [row]).map id).idxOf b := by
      refine ih.imp_of_mem fun ha hb hlt => ?_
      rw [List.map_append, List.idxOf_append_of_mem ((mem_ids_collect id).1 ha),
        List.idxOf_append_of_mem ((mem_ids_collect id).1 hb)]
      exact hlt
    rw [collect_concat, ids_put]
    split
    case isTrue => exact hkept
    case isFalse hnew =>
      refine List.pairwise_append.2 ⟨hkept, List.pairwise_singleton _ _, fun a ha b hb => ?_⟩
      obtain rfl := List.mem_singleton.1 hb
      have hlt := List.idxOf_lt_length_iff.2 ((mem_ids_collect id).1 ha)
      rw [List.map_append, List.idxOf_append_of_mem ((mem_ids_collect id).1 ha),
        List.idxOf_append_of_notMem (mt (mem_ids_collect id).2 hnew)]
      omega

end Arrival

/-! ## Rows that resolve entries -/

section Resolves

variable {ε α : Type} [Tabled α]

/-- Rows resolve entries: their identities are different and are the ones that the entries name, and
each row is what `makes` says of the last entry with its name. -/
structure Resolves (named : ε → Option String) (makes : ε → α → Prop) (entries : List ε)
    (rows : List α) : Prop where
  distinct : (rows.map Tabled.id).Nodup
  listed : ∀ key, key ∈ rows.map Tabled.id ↔ ∃ entry ∈ entries, named entry = some key
  last : ∀ row ∈ rows, ∃ entry,
    (entries.reverse.find? fun entry => named entry = some (Tabled.id row)) = some entry ∧
      makes entry row

/-- Rows stand in the order in which the entries first name them. -/
def InOrder (named : ε → Option String) (entries : List ε) (rows : List α) : Prop :=
  (rows.map Tabled.id).Pairwise fun a b =>
    (entries.filterMap named).idxOf a < (entries.filterMap named).idxOf b

variable {make : ε → Except Failure α} {named : ε → Option String}

/-- Rows that are made of entries have the names of the entries. -/
theorem filterMap_named_of_mapM
    (hnamed : ∀ {entry row}, make entry = .ok row → named entry = some (Tabled.id row))
    {entries : List ε} {rows : List α} (h : entries.mapM make = .ok rows) :
    entries.filterMap named = rows.map Tabled.id := by
  induction entries generalizing rows with
  | nil => cases h; rfl
  | cons entry rest ih =>
    rw [List.mapM_cons] at h
    obtain ⟨first, hentry, h⟩ := Except.bind_eq_ok h
    obtain ⟨others, hrest, h⟩ := Except.bind_eq_ok h
    cases h
    rw [List.filterMap_cons_some (hnamed hentry), ih hrest, List.map_cons]

/-- Collected rows resolve their entries and stand in order. -/
theorem resolves_of_collect
    (hnamed : ∀ {entry row}, make entry = .ok row → named entry = some (Tabled.id row))
    {entries : List ε} {rows : List α}
    (h : (entries.mapM make).map (Arrival.collect Tabled.id) = .ok rows) :
    Resolves named (fun entry row => make entry = .ok row) entries rows ∧
      InOrder named entries rows := by
  obtain ⟨all, hall, rfl⟩ := Except.map_eq_ok h
  have hnames := filterMap_named_of_mapM hnamed hall
  have hnodup := Arrival.nodup_ids_collect Tabled.id all
  refine ⟨⟨hnodup, fun key => ?_, fun row hrow => ?_⟩, ?_⟩
  · rw [Arrival.mem_ids_collect, ← hnames, List.mem_filterMap]
  · have hlast := (Tabled.last?_eq_some_iff hnodup).2 ⟨hrow, rfl⟩
    obtain ⟨-, hnone⟩ | ⟨entry, made, hfind, hmade, hsome⟩ :=
      Tabled.last?_of_collect hnamed h (Tabled.id row)
    · rw [hlast] at hnone
      cases hnone
    · obtain rfl := Option.some.inj (hlast.symm.trans hsome)
      exact ⟨entry, hfind, hmade⟩
  · unfold InOrder
    rw [hnames]
    exact Arrival.pairwise_idxOf_collect Tabled.id all

end Resolves

/-! ## Entries that lack a part -/

/-- A lease lacks a part that its row needs: an identity of its instance that is not empty, or a
resource that is not empty. -/
inductive LeaseEntry.Lacks (entry : LeaseEntry) : Rejection → Prop
  | identity (h : ∀ holder id, entry.holder = some holder → holder.id = some id → id = "") :
      Lacks entry (.invalid .lease "missing instance id")
  | resource {holder : Holder} {id : String} (hholder : entry.holder = some holder)
      (hid : holder.id = some id) (hne : id ≠ "") (h : ∀ name, entry.resource = some name → name = "") :
      Lacks entry (.invalid .lease ("lease '" ++ id ++ "' has no resource"))

/-- A policy lacks a resource that is not empty. -/
inductive PolicyEntry.Lacks (entry : PolicyEntry) : Rejection → Prop
  | resource (h : ∀ name, entry.resource = some name → name = "") :
      Lacks entry (.invalid .policy "missing resource")

theorem nonempty?_eq_none_iff {text : Option String} :
    nonempty? text = none ↔ ∀ name, text = some name → name = "" := by
  rw [nonempty?, Option.filter_eq_none_iff]
  simp

theorem nonempty?_eq_some_iff {text : Option String} {name : String} :
    nonempty? text = some name ↔ text = some name ∧ name ≠ "" := by
  rw [nonempty?, Option.filter_eq_some_iff]
  simp

namespace LeaseEntry

variable {entry : LeaseEntry}

theorem id?_eq_none_iff : entry.id? = none ↔
    ∀ holder id, entry.holder = some holder → holder.id = some id → id = "" := by
  rw [id?, nonempty?_eq_none_iff]
  simp only [Option.bind_eq_some_iff]
  constructor
  · intro h holder id hholder hid
    exact h id ⟨holder, hholder, hid⟩
  · rintro h id ⟨holder, hholder, hid⟩
    exact h holder id hholder hid

theorem id?_eq_some_iff {id : String} : entry.id? = some id ↔
    ∃ holder, entry.holder = some holder ∧ holder.id = some id ∧ id ≠ "" := by
  rw [id?, nonempty?_eq_some_iff, Option.bind_eq_some_iff]
  constructor
  · rintro ⟨⟨holder, hholder, hid⟩, hne⟩
    exact ⟨holder, hholder, hid, hne⟩
  · rintro ⟨holder, hholder, hid, hne⟩
    exact ⟨⟨holder, hholder, hid⟩, hne⟩

theorem fault?_eq_some_iff {cause : Rejection} : entry.fault? = some cause ↔ entry.Lacks cause := by
  constructor
  · intro h
    unfold fault? at h
    split at h
    case h_1 hid =>
      cases h
      exact .identity (id?_eq_none_iff.1 hid)
    case h_2 id hid hresource =>
      cases h
      obtain ⟨holder, hholder, hsome, hne⟩ := id?_eq_some_iff.1 hid
      exact .resource hholder hsome hne (nonempty?_eq_none_iff.1 hresource)
    case h_3 => cases h
  · intro h
    cases h with
    | identity h => rw [fault?, id?_eq_none_iff.2 h]; rfl
    | resource hholder hid hne h =>
      have hresource : entry.resource? = none := nonempty?_eq_none_iff.2 h
      rw [fault?, id?_eq_some_iff.2 ⟨_, hholder, hid, hne⟩, hresource]
      rfl

/-- A lease can be made of an entry: it lacks nothing and its lease ends inside the calendar. -/
def Good (entry : LeaseEntry) : Prop := (∀ cause, ¬ entry.Lacks cause) ∧ ¬ entry.EndsOutside

end LeaseEntry

/-- A policy can be made of an entry: it lacks nothing. -/
def PolicyEntry.Good (entry : PolicyEntry) : Prop := ∀ cause, ¬ entry.Lacks cause

namespace Lease

variable {entry : LeaseEntry}

theorem ofEntry_eq_rejected_iff {cause : Rejection} :
    ofEntry entry = .error (.rejected cause) ↔ entry.Lacks cause := by
  rw [← LeaseEntry.fault?_eq_some_iff]
  constructor
  · intro h
    cases hfault : entry.fault? with
    | some other =>
      rw [ofEntry_of_fault hfault] at h
      cases h
      rfl
    | none =>
      rcases ofEntry_of_no_fault hfault with ⟨lease, hlease⟩ | hcalendar
      · rw [hlease] at h
        cases h
      · rw [hcalendar] at h
        cases h
  · exact ofEntry_of_fault

theorem exists_ofEntry_eq_ok_iff : (∃ lease, ofEntry entry = .ok lease) ↔ entry.Good := by
  have hcalendar := @ofEntry_eq_outOfCalendar_iff entry
  simp only [LeaseEntry.Good, ← ofEntry_eq_rejected_iff]
  cases hfault : entry.fault? with
  | some cause =>
    rw [ofEntry_of_fault hfault]
    simp
  | none =>
    rcases ofEntry_of_no_fault hfault with ⟨lease, hlease⟩ | houtside
    · rw [hlease, hfault] at hcalendar
      rw [hlease]
      simpa using hcalendar
    · rw [houtside, hfault] at hcalendar
      rw [houtside]
      simpa using hcalendar

end Lease

namespace Policy

variable {entry : PolicyEntry}

theorem ofEntry_eq_rejected_iff {cause : Rejection} :
    ofEntry entry = .error (.rejected cause) ↔ entry.Lacks cause := by
  have hnone : entry.resource.filter (· ≠ "") = none ↔
      ∀ name, entry.resource = some name → name = "" := nonempty?_eq_none_iff
  unfold ofEntry
  constructor
  · intro h
    split at h
    case h_1 hresource =>
      cases h
      exact .resource (hnone.1 hresource)
    case h_2 => cases h
  · rintro ⟨h⟩
    rw [hnone.2 h]
    rfl

theorem exists_ofEntry_eq_ok_iff : (∃ policy, ofEntry entry = .ok policy) ↔ entry.Good := by
  simp only [PolicyEntry.Good, ← ofEntry_eq_rejected_iff]
  unfold ofEntry
  split <;> simp

end Policy

/-! ## Both kinds of list -/

/-- What a list of policies brings anew and what it draws anew are together one policy for each resource
that it names. -/
theorem Book.resolves_replace (book : Book) {entries : List PolicyEntry} {policies : List Policy}
    (h : Policy.collect entries = .ok policies) :
    Resolves PolicyEntry.resource
        (fun entry policy => Policy.ofEntry entry = .ok { policy with statistics := none }) entries
        ((book.replace policies).1.added ++ (book.replace policies).1.updated) ∧
      InOrder PolicyEntry.resource entries (book.replace policies).1.added ∧
      InOrder PolicyEntry.resource entries (book.replace policies).1.updated := by
  obtain ⟨⟨hdistinct, hlisted, hlast⟩, horder⟩ :=
    resolves_of_collect (fun hentry => (Policy.parts_of_ofEntry hentry).1) h
  have hids : (policies.map book.withStatistics).map Tabled.id = policies.map Tabled.id :=
    book.map_resource_withStatistics policies
  have hsplit : ((book.replace policies).1.added ++ (book.replace policies).1.updated).Perm
      (policies.map book.withStatistics) :=
    List.perm_append_comm.trans (List.filter_append_perm _ _)
  have hperm := hsplit.map Tabled.id
  rw [hids] at hperm
  have hsub : ∀ keep : Policy → Bool,
      InOrder PolicyEntry.resource entries ((policies.map book.withStatistics).filter keep) := by
    intro keep
    refine List.Pairwise.sublist (List.filter_sublist.map _) ?_
    rw [hids]
    exact horder
  refine ⟨⟨hperm.nodup_iff.2 hdistinct, fun key => ?_, fun row hrow => ?_⟩, hsub _, hsub _⟩
  · rw [hperm.mem_iff]
    exact hlisted key
  · obtain ⟨policy, hpolicy, rfl⟩ := List.mem_map.1 (hsplit.mem_iff.1 hrow)
    obtain ⟨entry, hfind, hentry⟩ := hlast policy hpolicy
    have hnone : policy.statistics = none := (Policy.parts_of_ofEntry hentry).2
    have hdefinition : { book.withStatistics policy with statistics := none } = policy := by
      rw [book.withStatistics_eq hnone, ← hnone]
    refine ⟨entry, ?_, hdefinition.symm ▸ hentry⟩
    exact (congrArg (fun key => entries.reverse.find? fun entry => entry.resource = some key)
      (book.resource_withStatistics policy)).trans hfind

/-- A list of entries is turned down for what the first bad entry lacks, if that comes before any lease
that ends outside the calendar, and makes rows exactly if all entries are good.  The rows name each
identity of the entries once, in the order in which the identities first come, with the content of the
last entry.  So do the policies that a list adds to a book, together with those that it updates.  Both
kinds of rows come of one pass that overwrites by position. -/
theorem repeated_identities_resolve :
    (∀ entries : List LeaseEntry,
      Arrival.resolve Lease.ofEntry Lease.id entries = Lease.collect entries ∧
        (∀ cause, Lease.collect entries = .error (.rejected cause) ↔
          ∃ before entry after, entries = before ++ entry :: after ∧ entry.Lacks cause ∧
            ∀ earlier ∈ before, earlier.Good) ∧
        ((∃ leases, Lease.collect entries = .ok leases) ↔ ∀ entry ∈ entries, entry.Good) ∧
        ∀ leases, Lease.collect entries = .ok leases →
          Resolves LeaseEntry.id? (fun entry lease => Lease.ofEntry entry = .ok lease) entries leases ∧
            InOrder LeaseEntry.id? entries leases) ∧
      ∀ (book : Book) (entries : List PolicyEntry),
        Arrival.resolve Policy.ofEntry Policy.resource entries = Policy.collect entries ∧
          (∀ cause, Policy.collect entries = .error (.rejected cause) ↔
            ∃ before entry after, entries = before ++ entry :: after ∧ entry.Lacks cause ∧
              ∀ earlier ∈ before, earlier.Good) ∧
          ((∃ policies, Policy.collect entries = .ok policies) ↔ ∀ entry ∈ entries, entry.Good) ∧
          ∀ policies, Policy.collect entries = .ok policies →
            Resolves PolicyEntry.resource
                (fun entry policy => Policy.ofEntry entry = .ok { policy with statistics := none })
                entries ((book.replace policies).1.added ++ (book.replace policies).1.updated) ∧
              InOrder PolicyEntry.resource entries (book.replace policies).1.added ∧
              InOrder PolicyEntry.resource entries (book.replace policies).1.updated := by
  have hmade : ∀ {α : Type} {x : Except Failure (List α)} {f : List α → List α},
      (∃ rows, x.map f = .ok rows) ↔ ∃ rows, x = .ok rows := by
    intro α x f
    cases x <;> simp [Except.map]
  refine ⟨fun entries => ⟨Arrival.resolve_eq .., fun cause => ?_, ?_, fun leases hleases => ?_⟩,
    fun book entries => ⟨Arrival.resolve_eq .., fun cause => ?_, ?_, fun policies hpolicies => ?_⟩⟩
  · simp only [Lease.collect, Except.map_eq_error_iff, Except.mapM_eq_error_iff,
      Lease.ofEntry_eq_rejected_iff, Lease.exists_ofEntry_eq_ok_iff]
  · simp only [Lease.collect, hmade, Except.exists_mapM_eq_ok_iff, Lease.exists_ofEntry_eq_ok_iff]
  · exact resolves_of_collect (fun hentry => (Lease.parts_of_ofEntry hentry).1) hleases
  · simp only [Policy.collect, Except.map_eq_error_iff, Except.mapM_eq_error_iff,
      Policy.ofEntry_eq_rejected_iff, Policy.exists_ofEntry_eq_ok_iff]
  · simp only [Policy.collect, hmade, Except.exists_mapM_eq_ok_iff, Policy.exists_ofEntry_eq_ok_iff]
  · exact book.resolves_replace hpolicies

/-- Leases and policies with an identity that comes back: it keeps its first place and takes its last
content. -/
theorem repeated_identities_resolve_in_place :
    let entries := [releasedEntry "a" "gpu", releasedEntry "b" "gpu", releasedEntry "a" "cad"]
    let listed : List PolicyEntry :=
      [⟨some "gpu", none, 4, none⟩, ⟨some "cad", none, 2, none⟩, ⟨some "gpu", none, 8, none⟩]
    (∃ leases, Lease.collect entries = .ok leases ∧
        leases.map (fun lease => (lease.id, lease.resource)) = [("a", "cad"), ("b", "gpu")] ∧
        Resolves LeaseEntry.id? (fun entry lease => Lease.ofEntry entry = .ok lease) entries leases ∧
        InOrder LeaseEntry.id? entries leases) ∧
      ∃ policies, Policy.collect listed = .ok policies ∧
        policies.map (fun policy => (policy.resource, policy.limit)) = [("gpu", 8), ("cad", 2)] ∧
        InOrder PolicyEntry.resource listed (Book.replace .empty policies).1.added := by
  intro entries listed
  obtain ⟨leases, hleases, hshown⟩ : ∃ leases, Lease.collect entries = .ok leases ∧
      leases.map (fun lease => (lease.id, lease.resource)) = [("a", "cad"), ("b", "gpu")] :=
    ⟨_, rfl, by decide⟩
  obtain ⟨policies, hpolicies, hlimits⟩ : ∃ policies, Policy.collect listed = .ok policies ∧
      policies.map (fun policy => (policy.resource, policy.limit)) = [("gpu", 8), ("cad", 2)] :=
    ⟨_, rfl, by decide⟩
  obtain ⟨hresolves, horder⟩ := (repeated_identities_resolve.1 entries).2.2.2 leases hleases
  have hadded := ((repeated_identities_resolve.2 .empty listed).2.2.2 policies hpolicies).2.1
  exact ⟨⟨leases, hleases, hshown, hresolves, horder⟩, policies, hpolicies, hlimits, hadded⟩

end LeaseBoard
