import LeaseBoard.Wire.Decode
import Mathlib.Data.List.Nodup
import Mathlib.Data.Option.Defs
set_option autoImplicit false

/-!
# Rewriting the records of an announcement

The same record can be written in several ways: its members in any order, with members that its kind does
not declare, as the array of its leading fields, or without a member that is null.  `Rewriting` changes
one record in one of these ways, at any depth of an announcement, one constructor for each and one for
each way down to a record inside another.

A record is read from its fields alone.  `Kind.FieldsAlike` compares the fields of two records, and
`Kind.ofJson?_congr` says that it is enough; each rewriting leaves the fields alike, if there are any to
be had at all.  Main statement: `Rewriting.ofJson?_eq`.
-/

namespace LeaseBoard

open LeaseBoard.Json

/-! ## Kinds of records -/

/-- The kinds of records that an announcement is made of. -/
inductive Kind where
  | policyList
  | leaseList
  | policy
  | lease
  | holder
  | statistics
  | usage
  deriving DecidableEq, Repr

/-- What a field holds: a plain value, one that may be null, a record that may be null, or a list of
records that may be null. -/
inductive Content where
  | plain
  | optional
  | record (kind : Kind)
  | records (kind : Kind)
  deriving DecidableEq, Repr

/-- Whether a field that is null counts as absent. -/
def Content.nullable : Content → Bool
  | plain => false
  | optional => true
  | record _ => true
  | records _ => true

namespace Kind

/-- The fields of a kind of record, in order. -/
def fields : Kind → List (String × Content)
  | policyList => [("policies", .records policy)]
  | leaseList =>
    [("resource", .optional), ("revision", .optional), ("leases", .records lease),
     ("stats", .record statistics)]
  | policy =>
    [("resource", .optional), ("strategy", .optional), ("limit", .plain), ("properties", .optional)]
  | lease =>
    [("instance", .record holder), ("resource", .optional), ("status", .plain),
     ("started", .optional), ("renewed", .optional), ("released", .optional), ("duration", .plain),
     ("decay", .plain), ("properties", .optional)]
  | holder => [("id", .optional), ("user", .optional), ("host", .optional)]
  | statistics => [("consumer", .record usage), ("instance", .record usage)]
  | usage => [("consumed", .plain), ("active", .plain), ("released", .plain), ("queued", .plain)]

/-- The field names of a kind of record. -/
def names (kind : Kind) : List String := kind.fields.map (·.1)

/-- What a field of a name holds, if there is one. -/
def content? (kind : Kind) (name : String) : Option Content := kind.fields.lookup name

/-- The type of the records of a kind. -/
def Record : Kind → Type
  | policyList => PolicyList
  | leaseList => LeaseList
  | policy => PolicyEntry
  | lease => LeaseEntry
  | holder => Holder
  | statistics => Statistics
  | usage => Usage

/-- The record of a kind that a JSON value shows. -/
def ofJson? : (kind : Kind) → Value → Option kind.Record
  | policyList => PolicyList.ofJson?
  | leaseList => LeaseList.ofJson?
  | policy => PolicyEntry.ofJson?
  | lease => LeaseEntry.ofJson?
  | holder => Holder.ofJson?
  | statistics => Statistics.ofJson?
  | usage => Usage.ofJson?

theorem nodup_names (kind : Kind) : kind.names.Nodup := by
  cases kind <;> decide

theorem mem_names_of_content? {kind : Kind} {name : String} {content : Content}
    (h : kind.content? name = some content) : name ∈ kind.names := by
  obtain ⟨before, after, hsplit, -⟩ := List.lookup_eq_some_iff.1 h
  rw [names, hsplit]
  simp

theorem content?_of_getElem? {kind : Kind} {n : Nat} {name : String} {content : Content}
    (h : kind.fields[n]? = some (name, content)) : kind.content? name = some content :=
  (Keyed.lookup_eq_some_iff (List.pairwise_map.1 kind.nodup_names)).2 (List.mem_of_getElem? h)

end Kind

/-! ## Rewritings -/

/-- Two values for a field differ in the writing of one record, on one side changed in one way: its
members are permuted, it has a member more that its kind does not declare, or one more that is declared,
null and not given anywhere else; or it is written as the array of its leading fields.  The record is the
value itself, or is a member of a record, an item of one that is written as an array, or an element of a
list. -/
inductive Rewriting : Content → Value → Value → Prop
  | permuted {kind : Kind} {members others : List (Option String × Value)}
      (h : members.Perm others) : Rewriting (.record kind) (.object members) (.object others)
  | undeclared {kind : Kind} (before after : List (Option String × Value)) {key : String} (v : Value)
      (h : key ∉ kind.names) :
      Rewriting (.record kind) (.object (before ++ after))
        (.object (before ++ (some key, v) :: after))
  | null {kind : Kind} (before after : List (Option String × Value)) {name : String}
      {content : Content} (hfield : kind.content? name = some content)
      (hnullable : content.nullable = true) (honly : ∀ m ∈ before ++ after, m.1 ≠ some name) :
      Rewriting (.record kind) (.object (before ++ after))
        (.object (before ++ (some name, .null) :: after))
  | leading {kind : Kind} {items : List Value} (h : items.length ≤ kind.names.length) :
      Rewriting (.record kind) (.ofFields (kind.names.zip items)) (.array items)
  | member {kind : Kind} (before after : List (Option String × Value)) {name : String}
      {content : Content} {v w : Value} (hfield : kind.content? name = some content)
      (h : Rewriting content v w) :
      Rewriting (.record kind) (.object (before ++ (some name, v) :: after))
        (.object (before ++ (some name, w) :: after))
  | item {kind : Kind} (before after : List Value) {name : String} {content : Content}
      {v w : Value} (hfield : kind.fields[before.length]? = some (name, content))
      (h : Rewriting content v w) :
      Rewriting (.record kind) (.array (before ++ v :: after)) (.array (before ++ w :: after))
  | element {kind : Kind} (before after : List Value) {v w : Value}
      (h : Rewriting (.record kind) v w) :
      Rewriting (.records kind) (.array (before ++ v :: after)) (.array (before ++ w :: after))

/-! ## Fields that are read alike -/

/-- Two values for a field are read alike: they are one, or records and lists of records that are read
as the same. -/
def Content.Alike : Content → Value → Value → Prop
  | plain, v, w => v = w
  | optional, v, w => v = w
  | record kind, v, w => v ≠ .null ∧ w ≠ .null ∧ kind.ofJson? v = kind.ofJson? w
  | records kind, v, w => ∃ vs ws, v = .array vs ∧ w = .array ws ∧
      vs.mapM kind.ofJson? = ws.mapM kind.ofJson?

/-- What two records give for a field is read alike. -/
inductive Content.FieldAlike (content : Content) : Option Value → Option Value → Prop
  | same (v? : Option Value) : FieldAlike content v? v?
  | alike {v w : Value} (h : content.Alike v w) : FieldAlike content (some v) (some w)
  | null (h : content.nullable = true) : FieldAlike content none (some .null)

/-- The fields of two records of a kind are read alike, each by itself. -/
def Kind.FieldsAlike (kind : Kind) (f g : Fields) : Prop :=
  ∀ name content, kind.content? name = some content →
    content.FieldAlike (f.lookup name) (g.lookup name)

namespace Json.Fields

variable {α : Type} {f g : Fields} {name : String}

theorem withDefault_congr (h : Content.plain.FieldAlike (f.lookup name) (g.lookup name)) (default : α)
    (read : Value → Option α) : f.withDefault name default read = g.withDefault name default read := by
  unfold withDefault
  generalize f.lookup name = v at h
  generalize g.lookup name = w at h
  cases h with
  | same => rfl
  | alike h => rw [show _ = _ from h]
  | null h => cases h

theorem optional_congr (h : Content.optional.FieldAlike (f.lookup name) (g.lookup name))
    (read : Value → Option α) : f.optional name read = g.optional name read := by
  unfold optional
  generalize f.lookup name = v at h
  generalize g.lookup name = w at h
  cases h with
  | same => rfl
  | alike h => rw [show _ = _ from h]
  | null h => rfl

theorem record_congr (kind : Kind)
    (h : (Content.record kind).FieldAlike (f.lookup name) (g.lookup name)) :
    f.optional name kind.ofJson? = g.optional name kind.ofJson? := by
  unfold optional
  generalize f.lookup name = v at h
  generalize g.lookup name = w at h
  cases h with
  | same => rfl
  | @alike v w h =>
    obtain ⟨hv, hw, heq⟩ := h
    simp only [heq]
  | null h => rfl

theorem list_congr (kind : Kind)
    (h : (Content.records kind).FieldAlike (f.lookup name) (g.lookup name)) :
    f.list name kind.ofJson? = g.list name kind.ofJson? := by
  unfold list
  generalize f.lookup name = v at h
  generalize g.lookup name = w at h
  cases h with
  | same => rfl
  | alike h =>
    obtain ⟨vs, ws, rfl, rfl, heq⟩ := h
    exact heq
  | null h => rfl

end Json.Fields

/-- Fields that are had alike and read alike are read as the same. -/
theorem Kind.bind_eq_of_fieldsAlike {kind : Kind} {α : Type} {f? g? : Option Fields}
    {read : Fields → Option α} (h : Option.Rel kind.FieldsAlike f? g?)
    (hread : ∀ f g, kind.FieldsAlike f g → read f = read g) : f?.bind read = g?.bind read := by
  cases h with
  | none => rfl
  | some h => exact hread _ _ h

/-- A record is read from its fields, each by itself. -/
theorem Kind.ofJson?_congr {kind : Kind} {v w : Value}
    (h : Option.Rel kind.FieldsAlike (v.fields? kind.names) (w.fields? kind.names)) :
    kind.ofJson? v = kind.ofJson? w := by
  cases kind with
  | policyList =>
    refine bind_eq_of_fieldsAlike h fun f g hfields => ?_
    have hpolicies : f.list "policies" PolicyEntry.ofJson? = g.list "policies" PolicyEntry.ofJson? :=
      Fields.list_congr .policy (hfields "policies" _ rfl)
    rw [hpolicies]
  | leaseList =>
    refine bind_eq_of_fieldsAlike h fun f g hfields => ?_
    have hleases : f.list "leases" LeaseEntry.ofJson? = g.list "leases" LeaseEntry.ofJson? :=
      Fields.list_congr .lease (hfields "leases" _ rfl)
    have hstats : f.optional "stats" Statistics.ofJson? = g.optional "stats" Statistics.ofJson? :=
      Fields.record_congr .statistics (hfields "stats" _ rfl)
    rw [Fields.optional_congr (hfields "resource" _ rfl),
      Fields.optional_congr (hfields "revision" _ rfl), hleases, hstats]
  | policy =>
    refine bind_eq_of_fieldsAlike h fun f g hfields => ?_
    rw [Fields.optional_congr (hfields "resource" _ rfl),
      Fields.optional_congr (hfields "strategy" _ rfl),
      Fields.withDefault_congr (hfields "limit" _ rfl),
      Fields.optional_congr (hfields "properties" _ rfl)]
  | lease =>
    refine bind_eq_of_fieldsAlike h fun f g hfields => ?_
    have hholder : f.optional "instance" Holder.ofJson? = g.optional "instance" Holder.ofJson? :=
      Fields.record_congr .holder (hfields "instance" _ rfl)
    rw [hholder, Fields.optional_congr (hfields "resource" _ rfl),
      Fields.withDefault_congr (hfields "status" _ rfl),
      Fields.optional_congr (hfields "started" _ rfl),
      Fields.optional_congr (hfields "renewed" _ rfl),
      Fields.optional_congr (hfields "released" _ rfl),
      Fields.withDefault_congr (hfields "duration" _ rfl),
      Fields.withDefault_congr (hfields "decay" _ rfl),
      Fields.optional_congr (hfields "properties" _ rfl)]
  | holder =>
    refine bind_eq_of_fieldsAlike h fun f g hfields => ?_
    rw [Fields.optional_congr (hfields "id" _ rfl), Fields.optional_congr (hfields "user" _ rfl),
      Fields.optional_congr (hfields "host" _ rfl)]
  | statistics =>
    refine bind_eq_of_fieldsAlike h fun f g hfields => ?_
    have hcount : ∀ name, Kind.statistics.content? name = some (.record .usage) →
        f.optional name Usage.ofJson? = g.optional name Usage.ofJson? := fun name hname =>
      Fields.record_congr .usage (hfields name _ hname)
    rw [hcount "consumer" rfl, hcount "instance" rfl]
  | usage =>
    refine bind_eq_of_fieldsAlike h fun f g hfields => ?_
    rw [Fields.withDefault_congr (hfields "consumed" _ rfl),
      Fields.withDefault_congr (hfields "active" _ rfl),
      Fields.withDefault_congr (hfields "released" _ rfl),
      Fields.withDefault_congr (hfields "queued" _ rfl)]

/-! ## The fields of an object -/

namespace Json.Value

/-- Whether all keys of an object have a text. -/
def legible (members : List (Option String × Value)) : Bool := members.all fun m => m.1.isSome

/-- The members of an object that give a declared field. -/
def known (names : List String) (members : List (Option String × Value)) : Fields :=
  (members.filterMap named?).filter fun field => names.contains field.1

theorem mapM_named? (members : List (Option String × Value)) :
    members.mapM named? = if legible members then some (members.filterMap named?) else none := by
  induction members with
  | nil => rfl
  | cons m rest ih =>
    obtain ⟨key, v⟩ := m
    rw [List.mapM_cons, ih]
    cases key with
    | none => rfl
    | some key =>
      have hcons : legible ((some key, v) :: rest) = legible rest := rfl
      rw [hcons]
      cases legible rest <;> rfl

/-- An object gives its known members, if all its keys have a text and no known one is given twice. -/
theorem fields?_object (names : List String) (members : List (Option String × Value)) :
    (object members).fields? names =
      if legible members ∧ ((known names members).map (·.1)).Nodup then some (known names members)
      else none := by
  rw [fields?, mapM_named?]
  cases h : legible members with
  | false => rfl
  | true =>
    simp only [if_true, true_and]
    rfl

theorem known_append (names : List String) (before after : List (Option String × Value)) :
    known names (before ++ after) = known names before ++ known names after := by
  rw [known, List.filterMap_append, List.filter_append]
  rfl

theorem known_cons (names : List String) (key : String) (v : Value)
    (rest : List (Option String × Value)) : known names ((some key, v) :: rest) =
      if key ∈ names then (key, v) :: known names rest else known names rest := by
  by_cases h : key ∈ names <;> simp [known, named?, h]

theorem legible_insert (before after : List (Option String × Value)) (key : String) (v : Value) :
    legible (before ++ (some key, v) :: after) = legible (before ++ after) := by
  simp [legible]

theorem known_insert {names : List String} {key : String} (h : key ∈ names)
    (before after : List (Option String × Value)) (v : Value) :
    known names (before ++ (some key, v) :: after) =
      known names before ++ (key, v) :: known names after := by
  rw [known_append, known_cons, if_pos h]

theorem mem_of_mem_known {names : List String} {members : List (Option String × Value)}
    {field : String × Value} (h : field ∈ known names members) :
    (some field.1, field.2) ∈ members := by
  obtain ⟨⟨key, v⟩, hm, hnamed⟩ := List.mem_filterMap.1 (List.mem_filter.1 h).1
  obtain ⟨name, rfl, rfl⟩ := Option.map_eq_some_iff.1 hnamed
  exact hm

/-- A record that is written with declared fields only gives just these. -/
theorem known_ofFields {names : List String} {fields : Fields} (h : ∀ f ∈ fields, f.1 ∈ names) :
    known names (fields.map fun f => (some f.1, f.2)) = fields := by
  induction fields with
  | nil => rfl
  | cons f rest ih =>
    obtain ⟨hf, hrest⟩ := List.forall_mem_cons.1 h
    rw [List.map_cons, known_cons, if_pos hf, ih hrest]

end Json.Value

/-- Where no field is given twice, the order of the fields does not matter. -/
theorem Json.Fields.lookup_eq_of_perm {f g : Fields} (h : f.Perm g) (hnodup : (f.map (·.1)).Nodup)
    (name : String) : f.lookup name = g.lookup name := by
  have hg : (g.map (·.1)).Nodup := (h.map _).nodup_iff.1 hnodup
  refine Option.ext fun v => ?_
  rw [Keyed.lookup_eq_some_iff (List.pairwise_map.1 hnodup),
    Keyed.lookup_eq_some_iff (List.pairwise_map.1 hg), h.mem_iff]

namespace Kind

variable {kind : Kind}

/-- Objects give fields that are alike, if neither gives any, or both do. -/
theorem rel_fields?_object {members others : List (Option String × Value)}
    (hlegible : Value.legible members = Value.legible others)
    (hnodup : ((Value.known kind.names members).map (·.1)).Nodup ↔
      ((Value.known kind.names others).map (·.1)).Nodup)
    (halike : ((Value.known kind.names members).map (·.1)).Nodup →
      kind.FieldsAlike (Value.known kind.names members) (Value.known kind.names others)) :
    Option.Rel kind.FieldsAlike ((Value.object members).fields? kind.names)
      ((Value.object others).fields? kind.names) := by
  have hsame : Value.legible members ∧ ((Value.known kind.names members).map (·.1)).Nodup ↔
      Value.legible others ∧ ((Value.known kind.names others).map (·.1)).Nodup := by
    rw [hlegible, hnodup]
  rw [Value.fields?_object, Value.fields?_object]
  by_cases h : Value.legible members ∧ ((Value.known kind.names members).map (·.1)).Nodup
  · rw [if_pos h, if_pos (hsame.1 h)]
    exact .some (halike h.2)
  · rw [if_neg h, if_neg (mt hsame.2 h)]
    exact .none

theorem FieldsAlike.of_lookup_eq {f g : Fields} (h : ∀ name, f.lookup name = g.lookup name) :
    kind.FieldsAlike f g := fun name _ _ => h name ▸ .same _

variable {name : String} {content : Content}

/-- Fields are alike if one of them is read alike and the others are the same. -/
theorem FieldsAlike.replace (hcontent : kind.content? name = some content) {v w : Value}
    (h : content.Alike v w) (first last : Fields) :
    kind.FieldsAlike (first ++ (name, v) :: last) (first ++ (name, w) :: last) := by
  intro other held hheld
  rw [List.lookup_append, List.lookup_append]
  cases first.lookup other with
  | some found => exact .same _
  | none =>
    rw [Option.none_or, Option.none_or, List.lookup_cons, List.lookup_cons]
    cases heq : other == name with
    | true =>
      obtain rfl := eq_of_beq heq
      obtain rfl := Option.some.inj (hheld.symm.trans hcontent)
      exact .alike h
    | false => exact .same _

/-- Fields are alike if one of them is null or absent and the others are the same. -/
theorem FieldsAlike.insert_null (hcontent : kind.content? name = some content)
    (hnullable : content.nullable = true) {first last : Fields} (hfirst : first.lookup name = none)
    (hlast : last.lookup name = none) :
    kind.FieldsAlike (first ++ last) (first ++ (name, .null) :: last) := by
  intro other held hheld
  rw [List.lookup_append, List.lookup_append, List.lookup_cons]
  cases heq : other == name with
  | true =>
    obtain rfl := eq_of_beq heq
    obtain rfl := Option.some.inj (hheld.symm.trans hcontent)
    rw [hfirst, hlast]
    exact .null hnullable
  | false => exact .same _

end Kind

/-! ## Rewritings leave fields alike -/

section Rewritings

variable {kind : Kind}

theorem Kind.ofJson?_eq_of_perm {members others : List (Option String × Value)}
    (h : members.Perm others) :
    kind.ofJson? (.object members) = kind.ofJson? (.object others) := by
  have hknown : (Value.known kind.names members).Perm (Value.known kind.names others) :=
    (h.filterMap named?).filter _
  exact Kind.ofJson?_congr (Kind.rel_fields?_object h.all_eq (hknown.map _).nodup_iff fun hnodup =>
    .of_lookup_eq (Fields.lookup_eq_of_perm hknown hnodup))

theorem Kind.ofJson?_eq_of_undeclared (before after : List (Option String × Value)) {key : String}
    (v : Value) (h : key ∉ kind.names) :
    kind.ofJson? (.object (before ++ after)) =
      kind.ofJson? (.object (before ++ (some key, v) :: after)) := by
  have hknown : Value.known kind.names (before ++ (some key, v) :: after) =
      Value.known kind.names (before ++ after) := by
    rw [Value.known_append, Value.known_append, Value.known_cons, if_neg h]
  exact Kind.ofJson?_congr (Kind.rel_fields?_object (Value.legible_insert ..).symm (by rw [hknown])
    fun _ => .of_lookup_eq fun name => by rw [hknown])

variable {name : String} {content : Content}

theorem Kind.ofJson?_eq_of_null (before after : List (Option String × Value))
    (hfield : kind.content? name = some content) (hnullable : content.nullable = true)
    (honly : ∀ m ∈ before ++ after, m.1 ≠ some name) :
    kind.ofJson? (.object (before ++ after)) =
      kind.ofJson? (.object (before ++ (some name, .null) :: after)) := by
  have hinsert := Value.known_insert (Kind.mem_names_of_content? hfield) before after .null
  have habsent : ∀ members, (∀ m ∈ members, m.1 ≠ some name) →
      name ∉ (Value.known kind.names members).map (·.1) := by
    intro members hmembers hmem
    obtain ⟨field, hknown, rfl⟩ := List.mem_map.1 hmem
    exact hmembers _ (Value.mem_of_mem_known hknown) rfl
  have hlookup : ∀ members, (∀ m ∈ members, m.1 ≠ some name) →
      (Value.known kind.names members).lookup name = none := by
    intro members hmembers
    refine List.lookup_eq_none_iff.2 fun field hknown => ?_
    have hne : name ≠ field.1 := fun heq => hmembers _ (Value.mem_of_mem_known hknown) (by rw [heq])
    simpa using hne
  refine Kind.ofJson?_congr (Kind.rel_fields?_object (Value.legible_insert ..).symm ?_ fun _ => ?_)
  · have hnot := habsent _ honly
    rw [Value.known_append, List.map_append] at hnot ⊢
    rw [hinsert, List.map_append, List.map_cons, List.nodup_middle, List.nodup_cons]
    exact (and_iff_right hnot).symm
  · rw [Value.known_append, hinsert]
    exact .insert_null hfield hnullable
      (hlookup before fun m hm => honly m (List.mem_append_left _ hm))
      (hlookup after fun m hm => honly m (List.mem_append_right _ hm))

theorem Kind.ofJson?_eq_of_member (before after : List (Option String × Value)) {v w : Value}
    (hfield : kind.content? name = some content) (h : content.Alike v w) :
    kind.ofJson? (.object (before ++ (some name, v) :: after)) =
      kind.ofJson? (.object (before ++ (some name, w) :: after)) := by
  have hname := Kind.mem_names_of_content? hfield
  refine Kind.ofJson?_congr (Kind.rel_fields?_object ?_ ?_ fun _ => ?_)
  · rw [Value.legible_insert, Value.legible_insert]
  · rw [Value.known_insert hname, Value.known_insert hname]
    simp only [List.map_append, List.map_cons]
  · rw [Value.known_insert hname, Value.known_insert hname]
    exact .replace hfield h _ _

theorem Kind.fields?_array {items : List Value} (h : items.length ≤ kind.names.length) :
    (Value.array items).fields? kind.names = some (kind.names.zip items) := if_pos h

theorem Kind.ofJson?_eq_of_leading {items : List Value} (h : items.length ≤ kind.names.length) :
    kind.ofJson? (.ofFields (kind.names.zip items)) = kind.ofJson? (.array items) := by
  have hkeys : (kind.names.zip items).map (·.1) = kind.names.take items.length := by
    rw [List.zip_eq_zip_take_min, Nat.min_eq_right h]
    refine List.map_fst_zip ?_
    rw [List.take_length]
    exact List.length_take_le _ _
  have hknown := Value.known_ofFields fun f (hf : f ∈ kind.names.zip items) => (List.of_mem_zip hf).1
  have hlegible : Value.legible ((kind.names.zip items).map fun f => (some f.1, f.2)) = true := by
    simp [Value.legible]
  have hobject : (Value.ofFields (kind.names.zip items)).fields? kind.names =
      some (kind.names.zip items) := by
    rw [Value.ofFields, Value.fields?_object, hknown, hkeys, if_pos]
    exact ⟨hlegible, kind.nodup_names.sublist (List.take_sublist _ _)⟩
  refine Kind.ofJson?_congr ?_
  rw [hobject, Kind.fields?_array h]
  exact .some (.of_lookup_eq fun _ => rfl)

/-- Where the items of an array are paired with field names, one field may be singled out. -/
theorem Kind.zip_names (before after : List Value) (v : Value)
    (hfield : kind.fields[before.length]? = some (name, content)) :
    kind.names.zip (before ++ v :: after) =
      (kind.names.take before.length).zip before ++
        (name, v) :: (kind.names.drop (before.length + 1)).zip after := by
  obtain ⟨hlt, hget⟩ := List.getElem?_eq_some_iff.1 hfield
  have hlength : before.length < kind.names.length := by rwa [names, List.length_map]
  have hname : kind.names[before.length] = name := by simp [names, hget]
  have hsplit : kind.names = kind.names.take before.length ++
      name :: kind.names.drop (before.length + 1) := by
    rw [← hname, ← List.drop_eq_getElem_cons hlength, List.take_append_drop]
  conv_lhs => rw [hsplit]
  rw [List.zip_append (by simp [Nat.le_of_lt hlength]), List.zip_cons_cons]

theorem Kind.ofJson?_eq_of_item (before after : List Value) {v w : Value}
    (hfield : kind.fields[before.length]? = some (name, content)) (h : content.Alike v w) :
    kind.ofJson? (.array (before ++ v :: after)) = kind.ofJson? (.array (before ++ w :: after)) := by
  have hlength : (before ++ v :: after).length = (before ++ w :: after).length := by simp
  refine Kind.ofJson?_congr ?_
  by_cases hle : (before ++ w :: after).length ≤ kind.names.length
  · rw [Kind.fields?_array (hlength ▸ hle), Kind.fields?_array hle, Kind.zip_names _ _ _ hfield,
      Kind.zip_names _ _ _ hfield]
    exact .some (.replace (Kind.content?_of_getElem? hfield) h _ _)
  · rw [Value.fields?, Value.fields?, hlength, if_neg hle, if_neg hle]
    exact .none

end Rewritings

/-- A rewriting is read alike, whatever record of a value is rewritten. -/
theorem Rewriting.alike {content : Content} {v w : Value} (h : Rewriting content v w) :
    content.Alike v w := by
  induction h with
  | permuted h => exact ⟨nofun, nofun, Kind.ofJson?_eq_of_perm h⟩
  | undeclared before after v h =>
    exact ⟨nofun, nofun, Kind.ofJson?_eq_of_undeclared before after v h⟩
  | null before after hfield hnullable honly =>
    exact ⟨nofun, nofun, Kind.ofJson?_eq_of_null before after hfield hnullable honly⟩
  | leading h => exact ⟨nofun, nofun, Kind.ofJson?_eq_of_leading h⟩
  | member before after hfield h ih =>
    exact ⟨nofun, nofun, Kind.ofJson?_eq_of_member before after hfield ih⟩
  | item before after hfield h ih =>
    exact ⟨nofun, nofun, Kind.ofJson?_eq_of_item before after hfield ih⟩
  | element before after h ih =>
    refine ⟨_, _, rfl, rfl, ?_⟩
    rw [List.mapM_append, List.mapM_append, List.mapM_cons, List.mapM_cons, ih.2.2]

/-- A record is read the same however it is written. -/
theorem Rewriting.ofJson?_eq {kind : Kind} {v w : Value} (h : Rewriting (.record kind) v w) :
    kind.ofJson? v = kind.ofJson? w :=
  h.alike.2.2

end LeaseBoard
