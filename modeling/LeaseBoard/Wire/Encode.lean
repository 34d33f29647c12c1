import LeaseBoard.Wire.Decode
set_option autoImplicit false

/-!
# Writing events

The JSON document of an event: every field is written, in the declared order, with null for what is
absent, integers in decimal, and instants as time stamps in universal time.  Properties are a table, and
its entries may be written in any order.  Main statements: `PolicyList.ofJson?_toJsonWith` and
`LeaseList.ofJson?_toJsonWith`, what is written for a list of entries is read back as that list.
-/

namespace LeaseBoard

open LeaseBoard.Json

/-- An instant, as its time stamp. -/
def Json.Value.ofInstant (t : Instant) : Value := .ofText t.stamp

/-! ## Records -/

/-- The JSON value of a holder. -/
def Holder.toJson (h : Holder) : Value :=
  .ofFields
    [("id", .ofOption .ofText h.id), ("user", .ofOption .ofText h.user),
     ("host", .ofOption .ofText h.host)]

/-- The JSON value of a lease, given that of its properties. -/
def LeaseEntry.toJsonWith (e : LeaseEntry) (properties : Value) : Value :=
  .ofFields
    [("instance", .ofOption Holder.toJson e.holder), ("resource", .ofOption .ofText e.resource),
     ("status", .ofText e.status), ("started", .ofOption .ofInstant e.started),
     ("renewed", .ofOption .ofInstant e.renewed), ("released", .ofOption .ofInstant e.released),
     ("duration", .ofInt64 e.duration), ("decay", .ofInt64 e.decay), ("properties", properties)]

/-- The JSON value of a lease. -/
def LeaseEntry.toJson (e : LeaseEntry) : Value := e.toJsonWith (.ofOption .ofTexts e.properties)

/-- The JSON value of a policy, given that of its properties. -/
def PolicyEntry.toJsonWith (e : PolicyEntry) (properties : Value) : Value :=
  .ofFields
    [("resource", .ofOption .ofText e.resource), ("strategy", .ofOption .ofText e.strategy),
     ("limit", .ofUInt64 e.limit), ("properties", properties)]

/-- The JSON value of a policy. -/
def PolicyEntry.toJson (e : PolicyEntry) : Value := e.toJsonWith (.ofOption .ofTexts e.properties)

/-- The JSON value of a count of use. -/
def Usage.toJson (u : Usage) : Value :=
  .ofFields
    [("consumed", .ofUInt64 u.consumed), ("active", .ofUInt64 u.active),
     ("released", .ofUInt64 u.released), ("queued", .ofUInt64 u.queued)]

/-- The JSON value of statistics. -/
def Statistics.toJson (s : Statistics) : Value :=
  .ofFields
    [("consumer", .ofOption Usage.toJson s.byConsumer),
     ("instance", .ofOption Usage.toJson s.byInstance)]

/-- The JSON value of a list of policies, given those of the policies. -/
def PolicyList.toJsonWith (policies : List Value) : Value := .ofFields [("policies", .array policies)]

/-- The JSON value of a list of policies. -/
def PolicyList.toJson (l : PolicyList) : Value := toJsonWith (l.policies.map PolicyEntry.toJson)

/-- The JSON value of a list of leases, given those of the leases. -/
def LeaseList.toJsonWith (l : LeaseList) (leases : List Value) : Value :=
  .ofFields
    [("resource", .ofOption .ofText l.resource), ("revision", .ofOption .ofUInt64 l.revision),
     ("leases", .array leases), ("stats", .ofOption Statistics.toJson l.statistics)]

/-- The JSON value of a list of leases. -/
def LeaseList.toJson (l : LeaseList) : Value := l.toJsonWith (l.leases.map LeaseEntry.toJson)

/-- The JSON value of an event. -/
def Event.toJson : Event → Value
  | policies list => list.toJson
  | leases list => list.toJson

/-! ## Reading what is written -/

theorem Json.Value.asInstant_ofInstant (t : Instant) : (Value.ofInstant t).asInstant = some t := by
  rw [Value.asInstant, Value.ofInstant, Value.asText_ofText, Option.bind_some,
    Instant.ofLoose?_stamp]

theorem Json.Value.shows_ofText (text : Option String) :
    Value.Shows Value.asText text (.ofOption .ofText text) :=
  Value.shows_ofOption Value.asText_ofText nofun text

theorem Json.Value.ofInstant_ne_null (t : Instant) : Value.ofInstant t ≠ .null := nofun

theorem Json.Value.shows_ofInstant (t : Option Instant) :
    Value.Shows Value.asInstant t (.ofOption .ofInstant t) :=
  Value.shows_ofOption Value.asInstant_ofInstant Value.ofInstant_ne_null t

theorem Json.Value.shows_ofUInt64 (n : Option UInt64) :
    Value.Shows Value.asUInt64 n (.ofOption .ofUInt64 n) :=
  Value.shows_ofOption Value.asUInt64_ofUInt64 nofun n

theorem Holder.ofJson?_toJson (h : Holder) : ofJson? h.toJson = some h := by
  have hfields : h.toJson.fields? fieldNames = some _ := Value.fields?_ofFields rfl (by decide)
  simp only [ofJson?, hfields, Option.bind_eq_bind, Option.bind_some]
  rw [Fields.optional_eq rfl (Value.shows_ofText h.id), Option.bind_some,
    Fields.optional_eq rfl (Value.shows_ofText h.user), Option.bind_some,
    Fields.optional_eq rfl (Value.shows_ofText h.host), Option.bind_some]

theorem LeaseEntry.ofJson?_toJsonWith (e : LeaseEntry) {properties : Value}
    (hproperties : properties.Shows Value.asTexts e.properties) :
    ofJson? (e.toJsonWith properties) = some e := by
  have hfields : (e.toJsonWith properties).fields? fieldNames = some _ :=
    Value.fields?_ofFields rfl (by decide)
  have hholder : Value.Shows Holder.ofJson? e.holder (.ofOption Holder.toJson e.holder) :=
    Value.shows_ofOption Holder.ofJson?_toJson nofun e.holder
  simp only [ofJson?, hfields, Option.bind_eq_bind, Option.bind_some]
  rw [Fields.optional_eq rfl hholder, Option.bind_some,
    Fields.optional_eq rfl (Value.shows_ofText e.resource), Option.bind_some,
    Fields.withDefault_eq Value.ofText rfl Value.asText_ofText, Option.bind_some,
    Fields.optional_eq rfl (Value.shows_ofInstant e.started), Option.bind_some,
    Fields.optional_eq rfl (Value.shows_ofInstant e.renewed), Option.bind_some,
    Fields.optional_eq rfl (Value.shows_ofInstant e.released), Option.bind_some,
    Fields.withDefault_eq Value.ofInt64 rfl Value.asInt64_ofInt64, Option.bind_some,
    Fields.withDefault_eq Value.ofInt64 rfl Value.asInt64_ofInt64, Option.bind_some,
    Fields.optional_eq rfl hproperties, Option.bind_some]

theorem PolicyEntry.ofJson?_toJsonWith (e : PolicyEntry) {properties : Value}
    (hproperties : properties.Shows Value.asTexts e.properties) :
    ofJson? (e.toJsonWith properties) = some e := by
  have hfields : (e.toJsonWith properties).fields? fieldNames = some _ :=
    Value.fields?_ofFields rfl (by decide)
  simp only [ofJson?, hfields, Option.bind_eq_bind, Option.bind_some]
  rw [Fields.optional_eq rfl (Value.shows_ofText e.resource), Option.bind_some,
    Fields.optional_eq rfl (Value.shows_ofText e.strategy), Option.bind_some,
    Fields.withDefault_eq Value.ofUInt64 rfl Value.asUInt64_ofUInt64, Option.bind_some,
    Fields.optional_eq rfl hproperties, Option.bind_some]

theorem Usage.ofJson?_toJson (u : Usage) : ofJson? u.toJson = some u := by
  have hfields : u.toJson.fields? fieldNames = some _ := Value.fields?_ofFields rfl (by decide)
  simp only [ofJson?, hfields, Option.bind_eq_bind, Option.bind_some]
  rw [Fields.withDefault_eq Value.ofUInt64 rfl Value.asUInt64_ofUInt64, Option.bind_some,
    Fields.withDefault_eq Value.ofUInt64 rfl Value.asUInt64_ofUInt64, Option.bind_some,
    Fields.withDefault_eq Value.ofUInt64 rfl Value.asUInt64_ofUInt64, Option.bind_some,
    Fields.withDefault_eq Value.ofUInt64 rfl Value.asUInt64_ofUInt64, Option.bind_some]

theorem Statistics.ofJson?_toJson (s : Statistics) : ofJson? s.toJson = some s := by
  have hfields : s.toJson.fields? fieldNames = some _ := Value.fields?_ofFields rfl (by decide)
  have husage : ∀ u : Option Usage, Value.Shows Usage.ofJson? u (.ofOption Usage.toJson u) :=
    fun u => Value.shows_ofOption Usage.ofJson?_toJson nofun u
  simp only [ofJson?, hfields, Option.bind_eq_bind, Option.bind_some]
  rw [Fields.optional_eq rfl (husage s.byConsumer), Option.bind_some,
    Fields.optional_eq rfl (husage s.byInstance), Option.bind_some]

/-- What is written for a list of policies is read back, if its policies are. -/
theorem PolicyList.ofJson?_toJsonWith (l : PolicyList) {policies : List Value}
    (hpolicies : policies.mapM PolicyEntry.ofJson? = some l.policies) :
    ofJson? (toJsonWith policies) = some l := by
  have hfields : (toJsonWith policies).fields? fieldNames = some _ :=
    Value.fields?_ofFields rfl (by decide)
  simp only [ofJson?, hfields, Option.bind_eq_bind, Option.bind_some]
  rw [Fields.list_eq rfl hpolicies, Option.bind_some]

/-- What is written for a list of leases is read back, if its leases are. -/
theorem LeaseList.ofJson?_toJsonWith (l : LeaseList) {leases : List Value}
    (hleases : leases.mapM LeaseEntry.ofJson? = some l.leases) :
    ofJson? (l.toJsonWith leases) = some l := by
  have hfields : (l.toJsonWith leases).fields? fieldNames = some _ :=
    Value.fields?_ofFields rfl (by decide)
  have hstatistics :
      Value.Shows Statistics.ofJson? l.statistics (.ofOption Statistics.toJson l.statistics) :=
    Value.shows_ofOption Statistics.ofJson?_toJson nofun l.statistics
  simp only [ofJson?, hfields, Option.bind_eq_bind, Option.bind_some]
  rw [Fields.optional_eq rfl (Value.shows_ofText l.resource), Option.bind_some,
    Fields.optional_eq rfl (Value.shows_ofUInt64 l.revision), Option.bind_some,
    Fields.list_eq rfl hleases, Option.bind_some,
    Fields.optional_eq rfl hstatistics, Option.bind_some]

end LeaseBoard
