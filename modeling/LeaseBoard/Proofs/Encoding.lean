import LeaseBoard.Wire.Encode
import Mathlib.Data.List.Forall2
set_option autoImplicit false

/-!
# Decoding what was encoded

An event has more than one document, because the properties of a lease or a policy are a table and
nothing fixes the order in which its entries are written.  `Event.WrittenAs` is the relation between
an event and its documents.  Each of them is read back as the event: a record from its fields, a list
item by item, and a table from its entries in any order, as no two of them have one key.
-/

namespace LeaseBoard

open LeaseBoard.Json

/-! ## The documents of an event -/

/-- Properties and the JSON values that are written for them: null if there are none, and else the
entries in some order. -/
inductive Properties.WrittenAs : Option Properties → Value → Prop where
  | absent : WrittenAs none .null
  | entries {table : Properties} {entries : List (String × String)}
      (order : entries.Perm table.entries) : WrittenAs (some table) (.ofEntries entries)

/-- A JSON value that is written for a lease. -/
def LeaseEntry.WrittenAs (e : LeaseEntry) (v : Value) : Prop :=
  ∃ properties, Properties.WrittenAs e.properties properties ∧ v = e.toJsonWith properties

/-- A JSON value that is written for a policy. -/
def PolicyEntry.WrittenAs (e : PolicyEntry) (v : Value) : Prop :=
  ∃ properties, Properties.WrittenAs e.properties properties ∧ v = e.toJsonWith properties

/-- A JSON value that is written for a list of policies. -/
def PolicyList.WrittenAs (l : PolicyList) (v : Value) : Prop :=
  ∃ policies, List.Forall₂ PolicyEntry.WrittenAs l.policies policies ∧ v = toJsonWith policies

/-- A JSON value that is written for a list of leases. -/
def LeaseList.WrittenAs (l : LeaseList) (v : Value) : Prop :=
  ∃ leases, List.Forall₂ LeaseEntry.WrittenAs l.leases leases ∧ v = l.toJsonWith leases

/-- A JSON value that is written for an event. -/
def Event.WrittenAs : Event → Value → Prop
  | policies list => list.WrittenAs
  | leases list => list.WrittenAs

/-! ## Every event has a document -/

theorem Properties.writtenAs_ofOption (properties : Option Properties) :
    WrittenAs properties (.ofOption .ofTexts properties) := by
  cases properties with
  | none => exact .absent
  | some table => exact .entries (.refl table.entries)

/-- Items that are written one by one are written as a list. -/
theorem forall₂_map_of_forall {α : Type} {written : α → Value → Prop} {write : α → Value}
    (h : ∀ a, written a (write a)) (items : List α) :
    List.Forall₂ written items (items.map write) := by
  rw [List.forall₂_map_right_iff]
  exact List.forall₂_same.2 fun a _ => h a

/-- The document with all entries in the order of their keys is written for its event. -/
theorem Event.writtenAs_toJson (event : Event) : event.WrittenAs event.toJson := by
  have hlease : ∀ e : LeaseEntry, e.WrittenAs e.toJson :=
    fun e => ⟨_, Properties.writtenAs_ofOption e.properties, rfl⟩
  have hpolicy : ∀ e : PolicyEntry, e.WrittenAs e.toJson :=
    fun e => ⟨_, Properties.writtenAs_ofOption e.properties, rfl⟩
  cases event with
  | policies list => exact ⟨_, forall₂_map_of_forall hpolicy list.policies, rfl⟩
  | leases list => exact ⟨_, forall₂_map_of_forall hlease list.leases, rfl⟩

/-! ## Reading the documents -/

theorem Properties.shows_of_writtenAs {properties : Option Properties} {v : Value}
    (h : WrittenAs properties v) : v.Shows Value.asTexts properties := by
  cases h with
  | absent => rfl
  | entries order => exact ⟨nofun, Value.asTexts_ofEntries order⟩

theorem LeaseEntry.ofJson?_of_writtenAs {e : LeaseEntry} {v : Value} (h : e.WrittenAs v) :
    ofJson? v = some e := by
  obtain ⟨properties, hproperties, rfl⟩ := h
  exact e.ofJson?_toJsonWith (Properties.shows_of_writtenAs hproperties)

theorem PolicyEntry.ofJson?_of_writtenAs {e : PolicyEntry} {v : Value} (h : e.WrittenAs v) :
    ofJson? v = some e := by
  obtain ⟨properties, hproperties, rfl⟩ := h
  exact e.ofJson?_toJsonWith (Properties.shows_of_writtenAs hproperties)

/-- Items that are read back one by one are read back as a list. -/
theorem mapM_of_forall₂ {α : Type} {read : Value → Option α} {items : List α} {values : List Value}
    (h : List.Forall₂ (fun a v => read v = some a) items values) :
    values.mapM read = some items := by
  induction h with
  | nil => rfl
  | cons hitem hrest ih => simp [List.mapM_cons, hitem, ih]

/-- What is written for an event is read back as that event. -/
theorem Event.ofJson?_of_writtenAs {event : Event} {v : Value} (h : event.WrittenAs v) :
    ofJson? event.name v = some event := by
  cases event with
  | policies list =>
    obtain ⟨values, hvalues, rfl⟩ := h
    have hitems := mapM_of_forall₂ (hvalues.imp fun _ _ => PolicyEntry.ofJson?_of_writtenAs)
    exact congrArg (Option.map policies) (list.ofJson?_toJsonWith hitems)
  | leases list =>
    obtain ⟨values, hvalues, rfl⟩ := h
    have hitems := mapM_of_forall₂ (hvalues.imp fun _ _ => LeaseEntry.ofJson?_of_writtenAs)
    exact congrArg (Option.map leases) (list.ofJson?_toJsonWith hitems)

/-- Every event has a document, and each of its documents is decoded as that event.  So a payload that
can be decoded may be replaced by any document of its event. -/
theorem decoding_undoes_encoding (event : Event) :
    event.WrittenAs event.toJson ∧ ∀ v, event.WrittenAs v →
      Event.decode event.name (String.ofList v.render) = .ok (some event) ∧
        ∀ name payload, Event.decode name payload = .ok (some event) →
          Event.decode name (String.ofList v.render) = Event.decode name payload := by
  refine ⟨event.writtenAs_toJson, fun v hwritten => ?_⟩
  have hname : Event.isName event.name = true := by cases event <;> rfl
  have hdecode : Event.decode event.name (String.ofList v.render) = .ok (some event) := by
    rw [Event.decode_of_render hname String.toList_ofList, Event.ofJson?_of_writtenAs hwritten]
  refine ⟨hdecode, fun name payload h => ?_⟩
  rw [h, ← Event.name_of_decode h, hdecode]

/-- A list of one lease: texts with escapes, integers at their limits, a leap second, a year of five
digits and a year before zero, and properties in descending order of their keys. -/
theorem decoding_undoes_encoding_of_limits :
    let properties : Properties := Keyed.ofList [("a", "\u0001\n"), ("b", "")]
    let lease : LeaseEntry :=
      { holder := some ⟨some "i\"\\", none, some "ä😀"⟩, resource := none, status := ""
        started := some ⟨719_162, 86_399, 1_500_000_000, by decide, by decide, by decide, by decide⟩
        renewed := some ⟨4_000_000, 0, 1, by decide, by decide, by decide, by decide⟩
        released := some ⟨-400_000, 1, 1_000, by decide, by decide, by decide, by decide⟩
        duration := Int64.minValue, decay := Int64.maxValue, properties := some properties }
    let list : LeaseList := ⟨some "gpu", some 18446744073709551615, [lease], none⟩
    let document := list.toJsonWith [lease.toJsonWith (.ofEntries [("b", ""), ("a", "\u0001\n")])]
    [lease.started, lease.renewed, lease.released].map (·.map Instant.stamp) =
        [some "1970-01-01T23:59:60.500Z", some "+10952-08-18T00:00:00.000000001Z",
          some "-1095-11-03T00:00:01.000001Z"] ∧
      Event.decode "leases" (String.ofList document.render) = .ok (some (.leases list)) := by
  intro properties lease list document
  have horder : List.Perm [("b", ""), ("a", "\u0001\n")] properties.entries := by decide
  have hwritten : (Event.leases list).WrittenAs document :=
    ⟨_, .cons ⟨_, .entries horder, rfl⟩ .nil, rfl⟩
  exact ⟨by decide +kernel, ((decoding_undoes_encoding (.leases list)).2 document hwritten).1⟩

end LeaseBoard
