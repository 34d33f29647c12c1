import LeaseBoard.Json.Value
import LeaseBoard.Keyed
set_option autoImplicit false

/-!
# Records as JSON values

A record type declares its fields in an order.  `Value.fields?` takes the fields of a record from
an object or from an array of its leading fields, and the accessors of `Fields` read single fields:
`optional` and `list` take null for an absent field, `withDefault` does not.

A field that the type does not declare is skipped whatever it holds; a key without a text, or a
declared field given twice, makes the whole record unreadable.

A record is written as an object with all its fields, and a table of texts with its entries in any
order.  Main statements: `Value.fields?_ofFields`, a written record gives its fields back, and with it
`Fields.optional_eq`, `Fields.withDefault_eq` and `Fields.list_eq` for the single fields.
-/

namespace LeaseBoard.Json

/-- The declared fields that a record gives, by name. -/
abbrev Fields := List (String × Value)

/-- A member whose key has a text. -/
def named? (member : Option String × Value) : Option (String × Value) :=
  member.1.map fun key => (key, member.2)

/-- The fields of a record with the given field names. -/
def Value.fields? (names : List String) : Value → Option Fields
  | object members =>
    match members.mapM named? with
    | none => none
    | some named =>
      let known := named.filter fun m => names.contains m.1
      if (known.map (·.1)).Nodup then some known else none
  | array items => if items.length ≤ names.length then some (names.zip items) else none
  | _ => none

namespace Fields

variable {α : Type}

/-- A field that may be absent or null. -/
def optional (fields : Fields) (name : String) (read : Value → Option α) : Option (Option α) :=
  match fields.lookup name with
  | none => some none
  | some .null => some none
  | some v => (read v).map some

/-- A field that has a value of its own when it is absent. -/
def withDefault (fields : Fields) (name : String) (default : α) (read : Value → Option α) :
    Option α :=
  match fields.lookup name with
  | none => some default
  | some v => read v

/-- A list, empty if the field is absent or null. -/
def list (fields : Fields) (name : String) (read : Value → Option α) : Option (List α) :=
  match fields.lookup name with
  | none => some []
  | some .null => some []
  | some (.array items) => items.mapM read
  | some _ => none

end Fields

/-! ## Values of the basic types -/

namespace Value

/-- A string. -/
def asText : Value → Option String
  | string text => text
  | _ => none

/-- An unsigned integer of sixty-four bits. -/
def asUInt64 : Value → Option UInt64
  | number (some (.ofNat n)) => if n < UInt64.size then some (UInt64.ofNat n) else none
  | _ => none

/-- A signed integer of sixty-four bits. -/
def asInt64 : Value → Option Int64
  | number (some i) =>
    if Int64.minValue.toInt ≤ i ∧ i ≤ Int64.maxValue.toInt then some (Int64.ofInt i) else none
  | _ => none

/-- A member whose key and value are texts. -/
def textMember? (member : Option String × Value) : Option (String × String) :=
  match member.1, member.2.asText with
  | some key, some text => some (key, text)
  | _, _ => none

/-- A table of texts; the last of several members with one key counts. -/
def asTexts : Value → Option (Keyed String)
  | object members => (members.mapM textMember?).map Keyed.ofList
  | _ => none

end Value

/-! ## Writing -/

namespace Value

/-- A string. -/
def ofText (text : String) : Value := string (some text)

/-- An unsigned integer. -/
def ofUInt64 (n : UInt64) : Value := number (some (.ofNat n.toNat))

/-- A signed integer. -/
def ofInt64 (i : Int64) : Value := number (some i.toInt)

/-- A row of texts with their keys. -/
def ofEntries (entries : List (String × String)) : Value :=
  object (entries.map fun e => (some e.1, ofText e.2))

/-- A table of texts, its entries in the order of their keys. -/
def ofTexts (table : Keyed String) : Value := ofEntries table.entries

/-- A value that may be absent. -/
def ofOption {α : Type} (write : α → Value) : Option α → Value
  | some a => write a
  | none => null

/-- A record with its fields by name. -/
def ofFields (fields : List (String × Value)) : Value :=
  object (fields.map fun f => (some f.1, f.2))

theorem asText_ofText (text : String) : (ofText text).asText = some text := rfl

theorem asUInt64_ofUInt64 (n : UInt64) : (ofUInt64 n).asUInt64 = some n := by
  have := n.toNat_lt
  simp only [ofUInt64, asUInt64]
  rw [if_pos (by simpa [UInt64.size] using this)]
  simp

theorem asInt64_ofInt64 (i : Int64) : (ofInt64 i).asInt64 = some i := by
  have h₁ := i.minValue_le_toInt
  have h₂ := i.toInt_le
  simp only [ofInt64, asInt64]
  rw [if_pos ⟨h₁, h₂⟩]
  simp

/-- A written table is read back, whatever order its entries are written in. -/
theorem asTexts_ofEntries {entries : List (String × String)} {table : Keyed String}
    (h : entries.Perm table.entries) : (ofEntries entries).asTexts = some table := by
  have hread : ∀ entries : List (String × String),
      (entries.map fun e => (some e.1, ofText e.2)).mapM textMember? = some entries := by
    intro entries
    induction entries with
    | nil => rfl
    | cons e rest ih => simp [List.mapM_cons, ih, textMember?, asText_ofText]
  simp [ofEntries, asTexts, hread, Keyed.ofList_of_perm h]

/-- A written record gives all its fields. -/
theorem fields?_ofFields {names : List String} {fields : List (String × Value)}
    (hnames : fields.map (·.1) = names) (hnodup : names.Nodup) :
    (ofFields fields).fields? names = some fields := by
  have hnamed : ∀ fields : List (String × Value),
      (fields.map fun f => (some f.1, f.2)).mapM named? = some fields := by
    intro fields
    induction fields with
    | nil => rfl
    | cons f rest ih => simp [List.mapM_cons, ih, named?]
  have hknown : fields.filter (fun m => names.contains m.1) = fields := by
    rw [List.filter_eq_self]
    intro f hf
    rw [List.contains_iff_mem, ← hnames]
    exact List.mem_map_of_mem hf
  simp only [ofFields, fields?, hnamed, hknown, hnames, hnodup, if_true]

/-- A value shows what may be absent: as null if it is, and else as another value that is read. -/
def Shows {α : Type} (read : Value → Option α) : Option α → Value → Prop
  | none, v => v = null
  | some a, v => v ≠ null ∧ read v = some a

theorem shows_ofOption {α : Type} {read : Value → Option α} {write : α → Value}
    (hread : ∀ a, read (write a) = some a) (hnull : ∀ a, write a ≠ null) (a : Option α) :
    Shows read a (ofOption write a) := by
  cases a with
  | none => rfl
  | some a => exact ⟨hnull a, hread a⟩

end Value

namespace Fields

variable {α : Type} {read : Value → Option α}

/-- A written field that may be absent is read back. -/
theorem optional_eq {fields : Fields} {name : String} {a : Option α} {v : Value}
    (hfield : fields.lookup name = some v) (h : v.Shows read a) :
    fields.optional name read = some a := by
  cases a with
  | none =>
    have hnull : v = .null := h
    simp [optional, hfield, hnull]
  | some a =>
    obtain ⟨hnull, hread⟩ := h
    simp only [optional, hfield, hread, Option.map_some]

/-- A written field is read back, not replaced by the default. -/
theorem withDefault_eq (write : α → Value) {fields : Fields} {name : String} {a default : α}
    (hfield : fields.lookup name = some (write a)) (hread : ∀ a, read (write a) = some a) :
    fields.withDefault name default read = some a := by
  simp [withDefault, hfield, hread]

/-- A written list is read back. -/
theorem list_eq {fields : Fields} {name : String} {items : List α} {values : List Value}
    (hfield : fields.lookup name = some (.array values)) (hitems : values.mapM read = some items) :
    fields.list name read = some items := by
  simp [list, hfield, hitems]

end Fields

end LeaseBoard.Json
