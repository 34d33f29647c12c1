import LeaseBoard.Proofs.Rewriting
import LeaseBoard.Proofs.Spacing
import Mathlib.Logic.Relation
set_option autoImplicit false

/-!
# Payloads

Two payloads are read as one event, or are both turned down, if they differ in nothing but the white
space between their tokens and the writing of their records.  White space leaves the row of tokens, and
with it the tree (`Value.parse?_insert_space`); and of a tree the event is read as a record is
(`Rewriting.ofJson?_eq`).  Main statement: `rewritten_payloads_decode_alike`.
-/

namespace LeaseBoard

open LeaseBoard.Json Relation

/-- The kind of record that the payload of a named event is. -/
def Kind.ofEvent? (name : String) : Option Kind :=
  if name = "policies" then some .policyList
  else if name = "leases" then some .leaseList
  else none

/-- A payload with another writing: white space put in or left out between two tokens, or one record of
its tree rewritten. -/
inductive Payload.Rewriting (kind : Kind) : String → String → Prop
  | spaced (before after : List Char) {c : Char} (hc : isSpace c = true)
      (hmeet : Token.Meet before after) :
      Rewriting kind (.ofList (before ++ after)) (.ofList (before ++ c :: after))
  | unspaced (before after : List Char) {c : Char} (hc : isSpace c = true) {ts us : List Token}
      {v : Value} (hbefore : Token.readAll before = some ts) (hafter : Token.readAll after = some us)
      (hparse : Value.parse? (before ++ c :: after) = some v) :
      Rewriting kind (.ofList (before ++ c :: after)) (.ofList (before ++ after))
  | record {one other : String} {v w : Value} (hone : Value.parse? one.toList = some v)
      (hother : Value.parse? other.toList = some w) (h : LeaseBoard.Rewriting (.record kind) v w) :
      Rewriting kind one other

namespace Event

variable {name : String} {kind : Kind}

theorem isName_of_ofEvent? (h : Kind.ofEvent? name = some kind) : isName name = true := by
  unfold Kind.ofEvent? at h
  split at h
  case isTrue hname => simp [isName, hname]
  case isFalse =>
    split at h
    case isTrue hname => simp [isName, hname]
    case isFalse => cases h

/-- The event of a name is read as the record that its payload is. -/
theorem ofJson?_congr (hkind : Kind.ofEvent? name = some kind) {v w : Value}
    (h : kind.ofJson? v = kind.ofJson? w) : ofJson? name v = ofJson? name w := by
  unfold Kind.ofEvent? at hkind
  unfold ofJson?
  split at hkind
  case isTrue hname =>
    obtain rfl := Option.some.inj hkind
    rw [if_pos hname, if_pos hname]
    exact congrArg (Option.map policies) h
  case isFalse hname =>
    split at hkind
    case isTrue hleases =>
      obtain rfl := Option.some.inj hkind
      rw [if_neg hname, if_neg hname, if_pos hleases, if_pos hleases]
      exact congrArg (Option.map leases) h
    case isFalse => cases hkind

theorem decode_congr {one other : String}
    (h : (Value.parse? one.toList).bind (ofJson? name) =
      (Value.parse? other.toList).bind (ofJson? name)) : decode name one = decode name other := by
  rw [decode, decode, h]

/-- One rewriting leaves what is read of a payload. -/
theorem decode_of_rewriting (hkind : Kind.ofEvent? name = some kind) {one other : String}
    (h : Payload.Rewriting kind one other) : decode name one = decode name other := by
  refine decode_congr ?_
  cases h with
  | spaced before after hc hmeet =>
    rw [String.toList_ofList, String.toList_ofList, Value.parse?_insert_space hmeet hc]
  | unspaced before after hc hbefore hafter hparse =>
    have hmeet := Value.meet_of_parse? hbefore hafter hc hparse
    rw [String.toList_ofList, String.toList_ofList, Value.parse?_insert_space hmeet hc]
  | record hone hother h =>
    rw [hone, hother]
    exact ofJson?_congr hkind h.ofJson?_eq

end Event

/-- Payloads of one event that differ by any number of rewritings, in either direction, give one result:
the same event, or for both that the payload of an event of this name cannot be read. -/
theorem rewritten_payloads_decode_alike {name : String} {kind : Kind}
    (hkind : Kind.ofEvent? name = some kind) {one other : String}
    (h : EqvGen (Payload.Rewriting kind) one other) :
    Event.decode name one = Event.decode name other ∧
      ((∃ event, event.name = name ∧ Event.decode name one = .ok (some event)) ∨
        Event.decode name one = .error (.undecodable name)) := by
  constructor
  · induction h with
    | rel one other h => exact Event.decode_of_rewriting hkind h
    | refl one => rfl
    | symm one other _ ih => exact ih.symm
    | trans one between other _ _ ihone ihother => exact ihone.trans ihother
  · rw [Event.decode, if_pos (Event.isName_of_ofEvent? hkind)]
    cases hread : (Value.parse? one.toList).bind (Event.ofJson? name) with
    | none => exact Or.inr rfl
    | some event =>
      obtain ⟨v, -, hevent⟩ := Option.bind_eq_some_iff.1 hread
      exact Or.inl ⟨event, Event.name_of_ofJson? hevent, rfl⟩

/-- A list of one lease, once with statistics that are null, and once without them, with a member that
is not declared before all others, with the instance as an array, and with a space behind the first
brace. -/
theorem rewritten_payloads_decode_alike_of_lease :
    let lease (holder : Value) : Value :=
      .object [(some "instance", holder), (some "resource", .ofText "gpu")]
    let first : Value := .object
      [(some "leases", .array [lease (.object [(some "id", .ofText "a")])]), (some "stats", .null)]
    let second : Value := .object
      [(some "rest", .array [.null, .object []]), (some "leases", .array [lease (.array [.ofText "a"])])]
    let one := String.ofList first.render
    let other := String.ofList ('{' :: ' ' :: second.render.tail)
    EqvGen (Payload.Rewriting .leaseList) one other ∧
      Event.decode "leases" one = Event.decode "leases" other ∧
      ∃ list, Event.decode "leases" one = .ok (some (.leases list)) ∧
        list.leases.map LeaseEntry.resource = [some "gpu"] := by
  intro lease first second one other
  let bare : Value := .object [(some "leases", .array [lease (.object [(some "id", .ofText "a")])])]
  let brief : Value := .object [(some "leases", .array [lease (.array [.ofText "a"])])]
  let longer : Value := .object
    [(some "leases", .array [lease (.array [.ofText "a"])]), (some "rest", .array [.null, .object []])]
  have hrecord : ∀ {v w : Value}, Rewriting (.record .leaseList) v w →
      Payload.Rewriting .leaseList (.ofList v.render) (.ofList w.render) := fun h =>
    .record (by rw [String.toList_ofList, Value.parse?_render])
      (by rw [String.toList_ofList, Value.parse?_render]) h
  have hnull : Rewriting (.record .leaseList) bare first := .null [_] [] rfl rfl (by simp)
  have hholder : Rewriting (.record .holder) (.object [(some "id", .ofText "a")])
      (.array [.ofText "a"]) := @Rewriting.leading .holder [.ofText "a"] (by decide)
  have hbrief : Rewriting (.record .leaseList) bare brief :=
    .member [] [] rfl (.element [] [] (.member [] _ rfl hholder))
  have hlonger : Rewriting (.record .leaseList) brief longer := .undeclared [_] [] _ (by decide)
  have hsecond : Rewriting (.record .leaseList) longer second := .permuted (.swap _ _ _)
  -- The first brace is a token of its own, and so are the tokens behind it.
  have hspaced : Payload.Rewriting .leaseList (.ofList second.render) other := by
    have hbrace : ∀ rest, Token.readAll ('{' :: rest) = (Token.readAll rest).map (.openBrace :: ·) :=
      fun rest => Token.readAll_spell .openBrace nofun
    have hwhole : Token.readAll ('{' :: second.render.tail) = some second.tokens :=
      second.readAll_render
    obtain ⟨us, hus, htokens⟩ := Option.map_eq_some_iff.1 ((hbrace _).symm.trans hwhole)
    have hfirst : Token.readAll ['{'] = some [.openBrace] := by
      rw [hbrace, Token.readAll]
      rfl
    exact .spaced ['{'] second.render.tail (by decide) ⟨_, us, hfirst, hus, hwhole.trans (congrArg some htokens.symm)⟩
  have hequal : EqvGen (Payload.Rewriting .leaseList) one other :=
    .trans _ _ _ (.symm _ _ (.rel _ _ (hrecord hnull))) <|
      .trans _ _ _ (.rel _ _ (hrecord hbrief)) <|
        .trans _ _ _ (.rel _ _ (hrecord hlonger)) <|
          .trans _ _ _ (.rel _ _ (hrecord hsecond)) (.rel _ _ hspaced)
  refine ⟨hequal, (rewritten_payloads_decode_alike rfl hequal).1, ?_⟩
  rw [Event.decode_of_render rfl String.toList_ofList]
  exact ⟨_, rfl, rfl⟩

/-- A null can be left out only if it is the one member of its name: a list that names its statistics
twice cannot be read, even if both are null, and without one of the two it can. -/
theorem repeated_null_member_undecodable :
    let null : Option String × Value := (some "stats", .null)
    let twice := "\x7b\"stats\":null,\"stats\":null\x7d"
    let once := "\x7b\"stats\":null\x7d"
    (Kind.leaseList.content? "stats").map Content.nullable = some true ∧
      Value.parse? twice.toList = some (.object [null, null]) ∧
      Value.parse? once.toList = some (.object [null]) ∧
      Event.decode "leases" twice = .error (.undecodable "leases") ∧
      Event.decode "leases" once = .ok (some (.leases ⟨none, none, [], none⟩)) := by
  intro null twice once
  have htwice : twice.toList = (Value.object [null, null]).render := by decide
  have honce : once.toList = (Value.object [null]).render := by decide
  refine ⟨rfl, ?_, ?_, ?_, ?_⟩
  · rw [htwice, Value.parse?_render]
  · rw [honce, Value.parse?_render]
  · exact (Event.decode_of_render rfl htwice).trans rfl
  · exact (Event.decode_of_render rfl honce).trans rfl

end LeaseBoard
