import LeaseBoard.Proofs.Schedule
set_option autoImplicit false

/-!
# Policies and their history

The policies of a board, read off the events that were applied.  A resource has a policy exactly if the
last list of policies names it, with the definition of its last entry in that list.  Its statistics are
the latest ones that came for it since it was last added; what came before is forgotten.

`Recalls` is what every history keeps: definition and statistics of each policy are those of two
different moments of the history.  Main statement: `policies_follow_history`.
-/

namespace LeaseBoard

/-! ## The latest of something -/

namespace Event

/-- What the last of the events that have something of a kind has. -/
def latest? {α : Type} (part : Event → Option α) (events : List Event) : Option α :=
  events.reverse.findSome? part

section Latest

variable {α : Type} (part : Event → Option α)

theorem latest?_append (first second : List Event) :
    latest? part (first ++ second) = (latest? part second).or (latest? part first) := by
  rw [latest?, List.reverse_append, List.findSome?_append]
  rfl

theorem latest?_singleton (event : Event) : latest? part [event] = part event := by
  cases h : part event <;> simp [latest?, h]

theorem exists_mem_of_latest? {events : List Event} {a : α} (h : latest? part events = some a) :
    ∃ event ∈ events, part event = some a := by
  obtain ⟨event, hmem, hpart⟩ := List.exists_of_findSome?_eq_some h
  exact ⟨event, List.mem_reverse.1 hmem, hpart⟩

end Latest

/-- The list of policies that an event brings. -/
def policyList? : Event → Option PolicyList
  | .policies list => some list
  | .leases _ => none

/-- The statistics that an event brings for a resource: those of a list of leases that names it. -/
def statisticsOf? (resource : String) : Event → Option Statistics
  | .policies _ => none
  | .leases list => if list.resource = some resource then list.statistics else none

end Event

/-- The last entry of a list for a resource. -/
def PolicyList.entry? (list : PolicyList) (resource : String) : Option PolicyEntry :=
  list.policies.reverse.find? fun entry => entry.resource = some resource

/-- The definition of a resource after events: its last entry in the last list of policies, if that list
names it. -/
def Event.definition? (events : List Event) (resource : String) : Option PolicyEntry :=
  (Event.latest? Event.policyList? events).bind fun list => list.entry? resource

/-- A resource is added in the course of events: a list of policies names it, which was not defined
before. -/
structure Event.Added (events : List Event) (resource : String) (before : List Event)
    (list : PolicyList) (since : List Event) : Prop where
  split : events = before ++ .policies list :: since
  absent : Event.definition? before resource = none
  listed : (list.entry? resource).isSome

/-- A resource is added for the last time. -/
structure Event.LastAdded (events : List Event) (resource : String) (before : List Event)
    (list : PolicyList) (since : List Event) : Prop extends
    Event.Added events resource before list since where
  last : ∀ before' list' since', Event.Added events resource before' list' since' →
    before'.length ≤ before.length

/-! ## Definitions -/

theorem Event.definition?_concat_leases (events : List Event) (list : LeaseList) (resource : String) :
    definition? (events ++ [.leases list]) resource = definition? events resource := by
  rw [definition?, latest?_append, latest?_singleton]
  rfl

theorem Event.definition?_concat_policies (events : List Event) (list : PolicyList)
    (resource : String) :
    definition? (events ++ [.policies list]) resource = list.entry? resource := by
  rw [definition?, latest?_append, latest?_singleton]
  rfl

/-- A resource stays defined as long as all lists of policies name it. -/
theorem Event.definition?_isSome (before : List Event) {since : List Event} {list : PolicyList}
    {resource : String} (hlisted : (list.entry? resource).isSome)
    (hstays : ∀ other, .policies other ∈ since → (other.entry? resource).isSome) :
    (definition? (before ++ .policies list :: since) resource).isSome := by
  rw [← List.singleton_append, ← List.append_assoc, definition?, latest?_append, latest?_append,
    latest?_singleton]
  cases hlatest : latest? policyList? since with
  | none => exact hlisted
  | some other =>
    obtain ⟨event, hmem, hevent⟩ := exists_mem_of_latest? policyList? hlatest
    cases event with
    | leases list => cases hevent
    | policies newer =>
      cases hevent
      exact hstays _ hmem

/-- Where a resource that is added is named by all later lists, it is added for the last time. -/
theorem Event.Added.lastAdded {events before since : List Event} {list : PolicyList}
    {resource : String} (h : Added events resource before list since)
    (hstays : ∀ other, .policies other ∈ since → (other.entry? resource).isSome) :
    LastAdded events resource before list since where
  toAdded := h
  last := by
    intro before' list' since' h'
    refine Nat.le_of_not_lt fun hlt => ?_
    -- A later addition would find the resource defined.
    have hsplit : before ++ .policies list :: since = before' ++ .policies list' :: since' :=
      h.split.symm.trans h'.split
    obtain ⟨middle, rfl, hrest⟩ | ⟨middle, rfl, -⟩ := List.append_eq_append_iff.1 hsplit
    · cases middle with
      | nil => simp at hlt
      | cons first others =>
        obtain ⟨rfl, rfl⟩ := List.cons.inj hrest
        have hdefined := definition?_isSome before h.listed fun other hother =>
          hstays other (List.mem_append_left _ hother)
        rw [h'.absent] at hdefined
        cases hdefined
    · simp only [List.length_append] at hlt
      omega

/-! ## Lists of policies -/

/-- An entry that makes a policy gives a resource with a name, and the policy is what the entry says of
it, without statistics. -/
theorem Policy.ofEntry_eq_ok {entry : PolicyEntry} {policy : Policy} (h : ofEntry entry = .ok policy) :
    entry.resource = some policy.resource ∧ policy.resource ≠ "" ∧
      policy.program = Ranking.program.resolve entry.properties (some policy.resource) ∧
      policy.strategy = Strategy.ofName? entry.strategy ∧ policy.limit = entry.limit ∧
      policy.statistics = none := by
  unfold ofEntry at h
  split at h
  case h_1 => cases h
  case h_2 resource hresource =>
    cases h
    obtain ⟨hgiven, hne⟩ := Option.filter_eq_some_iff.1 hresource
    exact ⟨hgiven, of_decide_eq_true hne, rfl, rfl, rfl, rfl⟩

/-- A policy has the resource of its entry, and no statistics yet. -/
theorem Policy.parts_of_ofEntry {entry : PolicyEntry} {policy : Policy}
    (h : ofEntry entry = .ok policy) :
    entry.resource = some policy.resource ∧ policy.statistics = none := by
  obtain ⟨hresource, -, -, -, -, hstatistics⟩ := ofEntry_eq_ok h
  exact ⟨hresource, hstatistics⟩

/-- The policy that a list brings for a resource is that of its last entry for it. -/
theorem Policy.last?_of_collect {list : PolicyList} {policies : List Policy}
    (h : collect list.policies = .ok policies) (resource : String) :
    (list.entry? resource = none ∧ Tabled.last? policies resource = none) ∨
      ∃ entry policy, list.entry? resource = some entry ∧ ofEntry entry = .ok policy ∧
        Tabled.last? policies resource = some policy :=
  Tabled.last?_of_collect (fun hentry => (parts_of_ofEntry hentry).1) h resource

/-! ## What a book recalls of its history -/

/-- A policy recalls events: it has the definition of its resource, and the latest statistics that came
since its resource was added, from when on all lists of policies name it. -/
structure Policy.Recalls (policy : Policy) (events : List Event) (resource : String) : Prop where
  defined : ∃ entry, Event.definition? events resource = some entry ∧
    ofEntry entry = .ok { policy with statistics := none }
  counted : ∃ before list since, Event.Added events resource before list since ∧
    (∀ other, .policies other ∈ since → (other.entry? resource).isSome) ∧
    policy.statistics = Event.latest? (Event.statisticsOf? resource) since

/-- A book recalls events: it holds the policies of the resources that are defined, and no others. -/
def Book.Recalls (book : Book) (events : List Event) : Prop :=
  ∀ resource,
    match book.get? resource with
    | none => Event.definition? events resource = none
    | some policy => policy.Recalls events resource

theorem Book.recalls_empty : Book.Recalls .empty [] := fun _ => rfl

theorem Event.Added.concat {events before since : List Event} {list : PolicyList} {resource : String}
    (h : Added events resource before list since) (event : Event) :
    Added (events ++ [event]) resource before list (since ++ [event]) where
  split := by rw [h.split, List.append_assoc, List.cons_append]
  absent := h.absent
  listed := h.listed

/-- A list of leases leaves every policy as it is but for its statistics. -/
theorem Board.get?_report (b : Board) (list : LeaseList) (resource : String) :
    (b.report list).1.get? resource = (b.policies.get? resource).map fun policy =>
      { policy with
        statistics := (Event.statisticsOf? resource (.leases list)).or policy.statistics } := by
  simp only [Event.statisticsOf?, report]
  cases hscope : list.resource with
  | none => simp
  | some named =>
    cases hstatistics : list.statistics with
    | none => simp
    | some statistics =>
      by_cases hnamed : named = resource
      · subst hnamed
        cases hget : b.policies.get? named with
        | none => simp [Book.report, hget]
        | some policy => simp [Book.report, hget, Keyed.get?_insert]
      · cases hget : b.policies.get? named with
        | none => simp [Book.report, hget, hnamed]
        | some policy => simp [Book.report, hget, hnamed, Keyed.get?_insert]

/-- A list of leases that is applied keeps what a book recalls. -/
theorem Book.Recalls.report {b : Board} {events : List Event} (h : Book.Recalls b.policies events)
    (list : LeaseList) : Book.Recalls (b.report list).1 (events ++ [.leases list]) := by
  intro resource
  have hrecalls := h resource
  rw [Board.get?_report]
  cases hget : b.policies.get? resource with
  | none =>
    simp only [hget] at hrecalls
    exact (Event.definition?_concat_leases events list resource).trans hrecalls
  | some policy =>
    simp only [hget] at hrecalls
    obtain ⟨⟨entry, hentry, hpolicy⟩, before, added, since, hadded, hstays, hstatistics⟩ := hrecalls
    refine ⟨⟨entry, (Event.definition?_concat_leases events list resource).trans hentry, hpolicy⟩,
      before, added, since ++ [.leases list], hadded.concat _, ?_, ?_⟩
    · intro other hother
      rcases List.mem_append.1 hother with hother | hother
      · exact hstays other hother
      · cases List.mem_singleton.1 hother
    · rw [Event.latest?_append, Event.latest?_singleton, ← hstatistics]

/-- A new policy takes the statistics of the policy that it replaces. -/
theorem Book.withStatistics_eq (book : Book) {policy : Policy} (h : policy.statistics = none) :
    book.withStatistics policy =
      { policy with statistics := (book.get? policy.resource).bind Policy.statistics } := by
  unfold withStatistics
  cases book.get? policy.resource with
  | none => rw [Option.bind_none, ← h]
  | some known => rfl

/-- A list of policies makes of a book the listed policies, each with the statistics that the book has
for its resource. -/
theorem Book.get?_replace_of_collect (book : Book) {list : PolicyList} {policies : List Policy}
    (hcollect : Policy.collect list.policies = .ok policies) (resource : String) :
    (book.replace policies).2.get? resource = (Tabled.last? policies resource).map fun policy =>
      { policy with statistics := (book.get? resource).bind Policy.statistics } := by
  have hget : (book.replace policies).2.get? resource =
      (Tabled.last? policies resource).map book.withStatistics := book.get?_replace policies resource
  rw [hget]
  obtain ⟨-, hlast⟩ | ⟨entry, policy, -, hpolicy, hlast⟩ :=
    Policy.last?_of_collect hcollect resource
  · rw [hlast]
    rfl
  · have hresource : policy.resource = resource := Tabled.id_of_last? hlast
    rw [hlast, Option.map_some, Option.map_some,
      withStatistics_eq book (Policy.parts_of_ofEntry hpolicy).2, hresource]

/-- A list of policies that is applied is recalled, and with it the statistics of what stays. -/
theorem Book.Recalls.replace {book : Book} {events : List Event} (h : book.Recalls events)
    {list : PolicyList} {policies : List Policy} (hcollect : Policy.collect list.policies = .ok policies) :
    Book.Recalls (book.replace policies).2 (events ++ [.policies list]) := by
  intro resource
  have hdefined := Event.definition?_concat_policies events list resource
  rw [get?_replace_of_collect book hcollect]
  obtain ⟨hentry, hlast⟩ | ⟨entry, policy, hentry, hpolicy, hlast⟩ :=
    Policy.last?_of_collect hcollect resource
  · rw [hlast]
    exact hdefined.trans hentry
  · have hnone := (Policy.parts_of_ofEntry hpolicy).2
    have hsome : (list.entry? resource).isSome := by rw [hentry]; rfl
    rw [hlast, Option.map_some]
    refine ⟨⟨entry, hdefined.trans hentry, by rw [hpolicy, ← hnone]⟩, ?_⟩
    have hrecalls := h resource
    cases hold : book.get? resource with
    | none =>
      -- The resource is added, and has no statistics yet.
      simp only [hold] at hrecalls
      exact ⟨events, list, [], ⟨rfl, hrecalls, hsome⟩, fun _ hother => absurd hother List.not_mem_nil,
        rfl⟩
    | some known =>
      -- The resource stays, and keeps its statistics.
      simp only [hold] at hrecalls
      obtain ⟨-, before, added, since, hadded, hstays, hknown⟩ := hrecalls
      refine ⟨before, added, since ++ [.policies list], hadded.concat _, ?_, ?_⟩
      · intro other hother
        rcases List.mem_append.1 hother with hother | hother
        · exact hstays other hother
        · cases List.mem_singleton.1 hother
          exact hsome
      · rw [Event.latest?_append, Event.latest?_singleton]
        exact hknown

/-! ## Histories -/

namespace Board

/-- The events with verdicts that were applied. -/
def applied (verdicts : List (Event × Except Failure Unit)) : List Event :=
  verdicts.filterMap fun
    | (event, .ok ()) => some event
    | (_, .error _) => none

theorem applied_cons_ok (event : Event) (rest : List (Event × Except Failure Unit)) :
    applied ((event, .ok ()) :: rest) = event :: applied rest := rfl

/-- Every history keeps what a book recalls. -/
theorem recalls_run {b : Board} {events : List Event} (h : Book.Recalls b.policies events)
    (steps : List Step) :
    Book.Recalls (b.run steps).policies (events ++ applied (b.verdicts steps)) := by
  induction steps generalizing b events with
  | nil => rwa [verdicts, applied, List.filterMap_nil, List.append_nil]
  | cons s rest ih =>
    cases s with
    | interruption reason => exact ih (b := (b.step (.interruption reason)).board) h
    | tick now => exact ih (b := (b.step (.tick now)).board) h
    | event event now =>
      rw [run_cons, verdicts, map_result_event]
      obtain ⟨failure, hverdict, hboard⟩ | ⟨list, policies, rfl, hverdict, hcollect, hboard⟩ |
        ⟨list, leases, revisions, rfl, hverdict, -, -, hboard⟩ := b.step_event_cases event now
      · rw [hverdict, hboard]
        exact ih h
      · rw [hverdict, hboard, applied_cons_ok, List.append_cons]
        exact ih (h.replace hcollect)
      · rw [hverdict, hboard, applied_cons_ok, List.append_cons]
        exact ih (h.report list)

end Board

/-! ## Policies as a function of history -/

/-- How much a strategy counts in statistics: what its kind of use says, and nothing if there is no such
use. -/
def Strategy.count (statistics : Statistics) : Strategy → UInt64
  | .consumer => (statistics.byConsumer.map Usage.consumed).getD 0
  | .instances => (statistics.byInstance.map Usage.consumed).getD 0
  | .other _ => 0

theorem Strategy.consumed_eq_count (strategy : Strategy) (statistics : Statistics) :
    strategy.consumed statistics = strategy.count statistics := by
  unfold consumed usage?
  cases strategy with
  | consumer => cases h : statistics.byConsumer <;> simp [count, h]
  | instances => cases h : statistics.byInstance <;> simp [count, h]
  | other name => rfl

/-- A policy follows events: its definition is the last one of its resource in the last list of policies,
its statistics are the latest ones since its resource was last added, and what is consumed and available
goes by both. -/
structure Policy.Follows (policy : Policy) (events : List Event) (resource : String) : Prop where
  defined : ∃ list entry, Event.latest? Event.policyList? events = some list ∧
    list.entry? resource = some entry ∧ policy.resource = resource ∧
    policy.program = Ranking.program.resolve entry.properties (some resource) ∧
    policy.strategy = Strategy.ofName? entry.strategy ∧ policy.limit = entry.limit
  counted : ∃ before list since, Event.LastAdded events resource before list since ∧
    policy.statistics = Event.latest? (Event.statisticsOf? resource) since
  consumed : policy.consumed = policy.statistics.map fun statistics => policy.strategy.count statistics
  available : policy.available = policy.consumed.map fun n => (policy.limit.toNat : Int) - n.toNat
  total : ∀ n rest, policy.consumed = some n → policy.available = some rest →
    n.toNat + rest = policy.limit.toNat

theorem Policy.Recalls.follows {policy : Policy} {events : List Event} {resource : String}
    (h : policy.Recalls events resource) : policy.Follows events resource where
  defined := by
    obtain ⟨entry, hentry, hpolicy⟩ := h.defined
    obtain ⟨list, hlist, hlisted⟩ := Option.bind_eq_some_iff.1 hentry
    have hnamed : entry.resource = some resource := by
      simpa using List.find?_some hlisted
    obtain ⟨hgiven, -, hprogram, hstrategy, hlimit, -⟩ := ofEntry_eq_ok hpolicy
    have hresource : policy.resource = resource := Option.some.inj (hgiven.symm.trans hnamed)
    refine ⟨list, entry, hlist, hlisted, hresource, ?_, hstrategy, hlimit⟩
    rw [← hresource]
    exact hprogram
  counted := by
    obtain ⟨before, list, since, hadded, hstays, hstatistics⟩ := h.counted
    exact ⟨before, list, since, hadded.lastAdded hstays, hstatistics⟩
  consumed := by
    unfold Policy.consumed
    congr 1
    funext statistics
    exact policy.strategy.consumed_eq_count statistics
  available := rfl
  total := fun _ _ => policy.consumed_add_available

/-- After any history a resource has a policy exactly if the last list of policies that was applied
names it.  Its definition is that of the last entry for it there.  Its statistics are the latest ones
that came for it, in lists of leases that were applied, since the resource was last added: none from
before that, none from lists of other resources or of none, and none that were turned down.  What is
consumed is what its present strategy counts in them, and what is available is exactly the rest of its
limit. -/
theorem policies_follow_history (steps : List Board.Step) (resource : String) :
    let events := Board.applied (Board.empty.verdicts steps)
    let row := (Board.empty.run steps).policies.get? resource
    (row.isSome ↔ ∃ list, Event.latest? Event.policyList? events = some list ∧
      (list.entry? resource).isSome) ∧
    ∀ policy, row = some policy → policy.Follows events resource := by
  intro events row
  have hrecalls : match row with
      | none => Event.definition? events resource = none
      | some policy => policy.Recalls events resource :=
    Board.recalls_run (b := Board.empty) Book.recalls_empty steps resource
  have hdefined : (Event.definition? events resource).isSome ↔
      ∃ list, Event.latest? Event.policyList? events = some list ∧ (list.entry? resource).isSome := by
    unfold Event.definition?
    cases Event.latest? Event.policyList? events <;> simp
  rw [← hdefined]
  cases hrow : row with
  | none =>
    simp only [hrow] at hrecalls
    refine ⟨by rw [hrecalls]; rfl, fun policy hpolicy => nomatch hpolicy⟩
  | some known =>
    simp only [hrow] at hrecalls
    obtain ⟨entry, hentry, -⟩ := hrecalls.defined
    refine ⟨by rw [hentry]; rfl, fun policy hpolicy => ?_⟩
    rw [← Option.some.inj hpolicy]
    exact hrecalls.follows

/-- A resource that goes and comes back under another strategy, with statistics before it goes and after
it has come back. -/
theorem policies_follow_history_after_return :
    let listed : String → Event := fun strategy => .policies ⟨[⟨some "gpu", some strategy, 4, none⟩]⟩
    let counted : UInt64 → UInt64 → Event := fun revision n =>
      .leases ⟨some "gpu", some revision, [], some ⟨some ⟨n, 0, 0, 0⟩, some ⟨9, 0, 0, 0⟩⟩⟩
    let steps : List Board.Step := [.event (listed "instance") (atSecond 0),
      .event (counted 1 5) (atSecond 1), .event (.policies ⟨[]⟩) (atSecond 2),
      .event (counted 2 6) (atSecond 3), .event (listed "consumer") (atSecond 4),
      .event (counted 3 7) (atSecond 5)]
    ∃ policy, (Board.empty.run steps).policies.get? "gpu" = some policy ∧
      policy.consumed = some 7 ∧ policy.available = some (-3) ∧
      policy.Follows (Board.applied (Board.empty.verdicts steps)) "gpu" := by
  intro listed counted steps
  have hget : (Board.empty.run steps).policies.get? "gpu" =
      some ⟨"gpu", "gpu", .consumer, 4, some ⟨some ⟨7, 0, 0, 0⟩, some ⟨9, 0, 0, 0⟩⟩⟩ := by decide
  exact ⟨_, hget, rfl, rfl, (policies_follow_history steps "gpu").2 _ hget⟩

end LeaseBoard
