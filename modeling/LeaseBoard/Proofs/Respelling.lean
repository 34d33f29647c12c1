import LeaseBoard.Proofs.Released
import LeaseBoard.Proofs.Results
import LeaseBoard.Proofs.Step
import Mathlib.Data.List.Forall2
import Mathlib.Logic.Relation
set_option autoImplicit false

/-!
# Spellings of what is not set

What an announcement leaves open can be written in two ways or more: a revision is absent or zero, a
text is absent or empty, an instant is absent or lies before the year two, an instance is absent or has
no parts, and properties are absent, or there are none, or one of them has no value.  `Respelling` puts
one of these spellings in the place of another, one constructor for each.

An entry makes the same lease or policy, or is turned down for the same cause, in all its spellings
(`Lease.ofEntry_of_respelling`, `Policy.ofEntry_of_respelling`), and so a step does the same to every
board.  Main statement: `spelling_never_matters`.
-/

namespace LeaseBoard

open Relation

/-! ## Spellings -/

/-- Properties that are absent, or a property that is absent, with its spelling as present and empty. -/
inductive Keyed.Respelling : Option Properties → Option Properties → Prop
  | table : Respelling none (some .empty)
  | property (table : Properties) (key : String) (habsent : table.get? key = none) :
      Respelling (some table) (some (table.insert key ""))

/-- A part of an instance that is absent, with its spelling as empty. -/
inductive Holder.Respelling : Holder → Holder → Prop
  | id (holder : Holder) : Respelling { holder with id := none } { holder with id := some "" }
  | user (holder : Holder) : Respelling { holder with user := none } { holder with user := some "" }
  | host (holder : Holder) : Respelling { holder with host := none } { holder with host := some "" }

/-- A part of a lease that is absent, with its spelling as present and not set. -/
inductive LeaseEntry.Respelling : LeaseEntry → LeaseEntry → Prop
  | holder (entry : LeaseEntry) :
      Respelling { entry with holder := none } { entry with holder := some ⟨none, none, none⟩ }
  | ofHolder (entry : LeaseEntry) {one other : Holder} (h : one.Respelling other) :
      Respelling { entry with holder := some one } { entry with holder := some other }
  | resource (entry : LeaseEntry) :
      Respelling { entry with resource := none } { entry with resource := some "" }
  | started (entry : LeaseEntry) {t : Instant} (h : t.year ≤ 1) :
      Respelling { entry with started := none } { entry with started := some t }
  | renewed (entry : LeaseEntry) {t : Instant} (h : t.year ≤ 1) :
      Respelling { entry with renewed := none } { entry with renewed := some t }
  | released (entry : LeaseEntry) {t : Instant} (h : t.year ≤ 1) :
      Respelling { entry with released := none } { entry with released := some t }
  | ofProperties (entry : LeaseEntry) {one other : Option Properties}
      (h : Keyed.Respelling one other) :
      Respelling { entry with properties := one } { entry with properties := other }

/-- A part of a policy that is absent, with its spelling as present and empty. -/
inductive PolicyEntry.Respelling : PolicyEntry → PolicyEntry → Prop
  | resource (entry : PolicyEntry) :
      Respelling { entry with resource := none } { entry with resource := some "" }
  | strategy (entry : PolicyEntry) :
      Respelling { entry with strategy := none } { entry with strategy := some "" }
  | ofProperties (entry : PolicyEntry) {one other : Option Properties}
      (h : Keyed.Respelling one other) :
      Respelling { entry with properties := one } { entry with properties := other }

/-- An announcement with another spelling of one part that is not set: its revision, or a part of one of
its entries. -/
inductive Event.Respelling : Event → Event → Prop
  | revision (list : LeaseList) :
      Respelling (.leases { list with revision := none }) (.leases { list with revision := some 0 })
  | lease (list : LeaseList) (before after : List LeaseEntry) {one other : LeaseEntry}
      (h : one.Respelling other) :
      Respelling (.leases { list with leases := before ++ one :: after })
        (.leases { list with leases := before ++ other :: after })
  | policy (before after : List PolicyEntry) {one other : PolicyEntry} (h : one.Respelling other) :
      Respelling (.policies ⟨before ++ one :: after⟩) (.policies ⟨before ++ other :: after⟩)

/-- A step with another spelling of its event. -/
inductive Board.Step.Respelling : Board.Step → Board.Step → Prop
  | event {one other : Event} (now : Instant) (h : one.Respelling other) :
      Respelling (.event one now) (.event other now)

/-! ## What is read of an entry -/

theorem setInstant?_of_year_le {t : Instant} (h : t.year ≤ 1) : setInstant? (some t) = none :=
  Option.filter_eq_none_iff.2 fun u hu => by
    obtain rfl := Option.some.inj hu
    simpa using h

namespace Ranking

/-- A property without a value is passed over like one that is not there. -/
theorem find?_of_respelling {one other : Option Properties} (h : Keyed.Respelling one other)
    (r : Ranking) : r.find? one = r.find? other := by
  cases h with
  | table =>
    have hnone : r.keys.findSome?
        (fun key => ((Keyed.empty : Properties).get? key).filter (· ≠ "")) = none :=
      List.findSome?_eq_none_iff.2 fun key _ => rfl
    exact hnone.symm
  | property table key habsent =>
    have hvalue : ∀ asked, (table.get? asked).filter (· ≠ "") =
        ((table.insert key "").get? asked).filter (· ≠ "") := by
      intro asked
      rw [Keyed.get?_insert]
      split
      case isTrue heq =>
        rw [← heq, habsent]
        rfl
      case isFalse => rfl
    simp only [find?, Option.bind_some, hvalue]

/-- An empty default is as good as none. -/
theorem resolve_eq (r : Ranking) (properties : Option Properties) (default : Option String) :
    r.resolve properties default = (r.find? properties).getD (default.getD "") := by
  unfold resolve
  cases r.find? properties <;> rfl

end Ranking

namespace LeaseEntry

/-- Two entries in which a lease finds the same: identity and resource, the instants that are set, the
properties that have a value, and an empty text for a user or a host that is not given. -/
structure ReadsAs (one other : LeaseEntry) : Prop where
  id : one.id? = other.id?
  resource : one.resource? = other.resource?
  user : (one.holder.bind (·.user)).getD "" = (other.holder.bind (·.user)).getD ""
  host : (one.holder.bind (·.host)).getD "" = (other.holder.bind (·.host)).getD ""
  status : one.status = other.status
  started : setInstant? one.started = setInstant? other.started
  renewed : setInstant? one.renewed = setInstant? other.renewed
  released : setInstant? one.released = setInstant? other.released
  duration : one.duration = other.duration
  decay : one.decay = other.decay
  property : ∀ r : Ranking, r.find? one.properties = r.find? other.properties

theorem ReadsAs.refl (entry : LeaseEntry) : entry.ReadsAs entry :=
  ⟨rfl, rfl, rfl, rfl, rfl, rfl, rfl, rfl, rfl, rfl, fun _ => rfl⟩

theorem readsAs_of_respelling {one other : LeaseEntry} (h : one.Respelling other) :
    one.ReadsAs other := by
  cases h with
  | holder entry => exact { ReadsAs.refl entry with id := rfl, user := rfl, host := rfl }
  | ofHolder entry h =>
    cases h with
    | id holder => exact { ReadsAs.refl { entry with holder := some holder } with id := rfl }
    | user holder => exact { ReadsAs.refl { entry with holder := some holder } with user := rfl }
    | host holder => exact { ReadsAs.refl { entry with holder := some holder } with host := rfl }
  | resource entry => exact { ReadsAs.refl entry with resource := rfl }
  | started entry h =>
    exact { ReadsAs.refl entry with started := (setInstant?_of_year_le h).symm }
  | renewed entry h =>
    exact { ReadsAs.refl entry with renewed := (setInstant?_of_year_le h).symm }
  | released entry h =>
    exact { ReadsAs.refl entry with released := (setInstant?_of_year_le h).symm }
  | ofProperties entry h =>
    exact { ReadsAs.refl entry with property := fun r => r.find?_of_respelling h }

end LeaseEntry

namespace Lease

variable {one other : LeaseEntry}

theorem ofParts_of_readsAs (h : one.ReadsAs other) (id resource : String)
    (expiry : Option Instant) : ofParts one id resource expiry = ofParts other id resource expiry := by
  simp only [ofParts, LeaseEntry.shownStart, LeaseEntry.lastRenewal, Ranking.resolve_eq, h.user,
    h.host, h.status, h.started, h.renewed, h.released, h.duration, h.decay, h.property]

/-- A lease is made of its entry, or the entry turned down, the same in every spelling. -/
theorem ofEntry_of_respelling (h : one.Respelling other) : ofEntry one = ofEntry other := by
  have hreads := LeaseEntry.readsAs_of_respelling h
  simp only [ofEntry, LeaseEntry.lastRenewal, hreads.id, hreads.resource, hreads.status,
    hreads.started, hreads.renewed, hreads.released, hreads.duration, hreads.decay,
    funext (ofParts_of_readsAs hreads _ _)]

end Lease

/-- A policy is made of its entry, or the entry turned down, the same in every spelling. -/
theorem Policy.ofEntry_of_respelling {one other : PolicyEntry} (h : one.Respelling other) :
    ofEntry one = ofEntry other := by
  cases h with
  | resource entry => rfl
  | strategy entry => rfl
  | ofProperties entry h => simp only [ofEntry, Ranking.resolve_eq, Ranking.find?_of_respelling h]

/-! ## Steps -/

namespace Board

variable (b : Board)

/-- An event does the same to a board in every spelling. -/
theorem apply_of_respelling {one other : Event} (h : one.Respelling other) (now : Instant) :
    b.apply one now = b.apply other now := by
  cases h with
  | revision list =>
    have hadvance : b.advance { list with revision := none } =
        b.advance { list with revision := some 0 } := by
      unfold advance
      cases list.resource <;> rfl
    simp only [apply, applyLeases, hadvance]
    rfl
  | lease list before after h =>
    have hcollect := congrArg (Except.map (Arrival.collect Lease.id))
      (Except.mapM_replace (Lease.ofEntry_of_respelling h) before after)
    simp only [apply, applyLeases, Lease.collect, hcollect]
    rfl
  | policy before after h =>
    simp only [apply, applyPolicies, Policy.collect,
      Except.mapM_replace (Policy.ofEntry_of_respelling h) before after]

/-- So does a step in which any number of parts is spelt otherwise. -/
theorem step_of_respellings {s t : Step} (h : EqvGen Step.Respelling s t) : b.step s = b.step t := by
  induction h with
  | rel s t h =>
    cases h with
    | event now h => simp only [step, b.apply_of_respelling h]
  | refl s => rfl
  | symm s t _ ih => exact ih.symm
  | trans s t u _ _ ihst ihtu => exact ihst.trans ihtu

end Board

/-- Two histories differ in nothing but the spelling of what is not set, in any number of places and in
either direction.  Step by step they have the same results, which are instructions or the cause why an
event is turned down, and the boards after any number of steps are the same. -/
theorem spelling_never_matters (b : Board) {first second : List Board.Step}
    (h : List.Forall₂ (EqvGen Board.Step.Respelling) first second) :
    b.results first = b.results second ∧ ∀ n, b.run (first.take n) = b.run (second.take n) := by
  induction h generalizing b with
  | nil => exact ⟨rfl, fun n => rfl⟩
  | @cons s t first second hstep hrest ih =>
    have hsame := b.step_of_respellings hstep
    obtain ⟨hresults, hrun⟩ := ih (b.step t).board
    refine ⟨by rw [Board.results, Board.results, hsame, hresults], fun n => ?_⟩
    cases n with
    | zero => rfl
    | succ n =>
      rw [List.take_succ_cons, List.take_succ_cons, Board.run_cons, Board.run_cons, hsame, hrun]

/-- A policy and a released lease, where the strategy, a property, the revision and the start of the
lease are not set, in two spellings each. -/
theorem spelling_never_matters_of_start :
    let policy : PolicyEntry := ⟨some "gpu", none, 4, some .empty⟩
    let named : PolicyEntry :=
      ⟨some "gpu", some "", 4, some (Keyed.empty.insert "resource.name" "")⟩
    let lease := releasedEntry "a" "gpu"
    let first : List Board.Step :=
      [.event (.policies ⟨[policy]⟩) (atSecond 1),
        .event (.leases ⟨some "gpu", some 0, [lease], none⟩) (atSecond 2), .tick (atSecond 3)]
    let second : List Board.Step :=
      [.event (.policies ⟨[named]⟩) (atSecond 1),
        .event (.leases ⟨some "gpu", none, [{ lease with started := some default }], none⟩)
          (atSecond 2),
        .tick (atSecond 3)]
    (Board.empty.run first).leases.keys = ["a"] ∧ first ≠ second ∧
      Board.empty.results first = Board.empty.results second ∧
      ∀ n, Board.empty.run (first.take n) = Board.empty.run (second.take n) := by
  intro policy named lease first second
  have hstrategy : Board.Step.Respelling (.event (.policies ⟨[policy]⟩) (atSecond 1))
      (.event (.policies ⟨[{ policy with strategy := some "" }]⟩) (atSecond 1)) :=
    .event _ (.policy [] [] (.strategy policy))
  have hproperty : Board.Step.Respelling
      (.event (.policies ⟨[{ policy with strategy := some "" }]⟩) (atSecond 1))
      (.event (.policies ⟨[named]⟩) (atSecond 1)) :=
    .event _ (.policy [] [] (.ofProperties { policy with strategy := some "" }
      (.property .empty "resource.name" rfl)))
  have hrevision : Board.Step.Respelling
      (.event (.leases ⟨some "gpu", none, [lease], none⟩) (atSecond 2))
      (.event (.leases ⟨some "gpu", some 0, [lease], none⟩) (atSecond 2)) :=
    .event _ (.revision ⟨some "gpu", none, [lease], none⟩)
  have hstarted : Board.Step.Respelling
      (.event (.leases ⟨some "gpu", none, [lease], none⟩) (atSecond 2))
      (.event (.leases ⟨some "gpu", none, [{ lease with started := some default }], none⟩)
        (atSecond 2)) :=
    .event _ (.lease ⟨some "gpu", none, [lease], none⟩ [] [] (.started lease (by decide)))
  exact ⟨by decide, by decide, spelling_never_matters Board.empty
    (.cons (.trans _ _ _ (.rel _ _ hstrategy) (.rel _ _ hproperty))
      (.cons (.trans _ _ _ (.symm _ _ (.rel _ _ hrevision)) (.rel _ _ hstarted))
        (.cons (.refl _) .nil)))⟩

end LeaseBoard
