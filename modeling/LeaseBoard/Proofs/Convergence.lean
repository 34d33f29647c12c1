import LeaseBoard.Proofs.Revision
import LeaseBoard.Proofs.Schedule
set_option autoImplicit false

/-!
# Convergence of a resource

The announcements of one resource may come in any order and any number of times, between ticks,
interruptions, policies and announcements that have nothing to do with the resource.  Whichever way
they come, the last revision of the resource is the greatest one announced, and its leases are those
of the announcement with that revision.

`Settled` is what every history keeps: the last announcement of the channel that was let in has set the
last revision, and the leases of the resource on the ageless roster are its leases.  Main statement:
`leases_converge`.
-/

namespace LeaseBoard

/-! ## The channel of a resource -/

/-- Announcements of one resource: all of them name it, with revisions above zero that tell them
apart, and with good entries of that resource alone. -/
structure Channel (resource : String) (lists : List LeaseList) : Prop where
  named : ∀ list ∈ lists, list.resource = some resource
  revised : ∀ list ∈ lists, ∃ n, list.revision = some n ∧ n ≠ 0
  distinct : ∀ list ∈ lists, ∀ other ∈ lists, list.revision = other.revision → list = other
  good : ∀ list ∈ lists, ∃ leases, Lease.collect list.leases = .ok leases
  tagged : ∀ list ∈ lists, ∀ entry ∈ list.leases, entry.resource = some resource

namespace Channel

/-- An announcement that has nothing to do with a channel: it does not name the resource, and none of
its entries has the resource or the identity of an entry of the channel. -/
structure Apart (resource : String) (lists : List LeaseList) (list : LeaseList) : Prop where
  scope : list.resource ≠ some resource
  tags : ∀ entry ∈ list.leases, entry.resource ≠ some resource
  identities : ∀ entry ∈ list.leases, ∀ other ∈ lists, ∀ listed ∈ other.leases,
    entry.id? ≠ listed.id?

/-- A history that delivers all announcements of a channel, and no others but those that have nothing
to do with it. -/
structure Delivered (resource : String) (lists : List LeaseList) (steps : List Board.Step) : Prop where
  all : ∀ list ∈ lists, ∃ now, .event (.leases list) now ∈ steps
  others : ∀ list now, .event (.leases list) now ∈ steps → list ∈ lists ∨ Apart resource lists list

variable {resource : String} {lists : List LeaseList}

theorem announced? (h : Channel resource lists) {list : LeaseList} (hmem : list ∈ lists) {n : UInt64}
    (hrevision : list.revision = some n) : list.announced? resource = some n := by
  obtain ⟨m, hm, hne⟩ := h.revised list hmem
  obtain rfl := Option.some.inj (hm.symm.trans hrevision)
  exact LeaseList.announced?_eq_some_iff.2 ⟨h.named list hmem, hrevision, hne⟩

/-- One announcement has the greatest revision. -/
theorem exists_greatest {lists : List LeaseList} (hne : lists ≠ [])
    (hrevised : ∀ list ∈ lists, ∃ n, list.revision = some n ∧ n ≠ 0) :
    ∃ newest ∈ lists, ∃ n, newest.revision = some n ∧
      ∀ list ∈ lists, ∀ m, list.revision = some m → m ≤ n := by
  induction lists with
  | nil => exact absurd rfl hne
  | cons first rest ih =>
    obtain ⟨n, hn, -⟩ := hrevised first List.mem_cons_self
    have hself : ∀ m, first.revision = some m → m ≤ n := by
      intro m hm
      rw [Option.some.inj (hm.symm.trans hn)]
      exact UInt64.le_refl n
    by_cases hrest : rest = []
    · subst hrest
      refine ⟨first, List.mem_cons_self, n, hn, fun list hlist => ?_⟩
      rw [List.mem_singleton.1 hlist]
      exact hself
    · obtain ⟨newest, hmem, k, hk, hgreatest⟩ :=
        ih hrest fun list hlist => hrevised list (List.mem_cons_of_mem _ hlist)
      rcases UInt64.le_total n k with hle | hle
      · refine ⟨newest, List.mem_cons_of_mem _ hmem, k, hk, fun list hlist m hm => ?_⟩
        rcases List.mem_cons.1 hlist with rfl | hlist
        · exact UInt64.le_trans (hself m hm) hle
        · exact hgreatest list hlist m hm
      · refine ⟨first, List.mem_cons_self, n, hn, fun list hlist m hm => ?_⟩
        rcases List.mem_cons.1 hlist with rfl | hlist
        · exact hself m hm
        · exact UInt64.le_trans (hgreatest list hlist m hm) hle

end Channel

/-! ## The leases of a resource -/

namespace Roster

/-- The leases of a resource. -/
def ofResource (roster : Roster) (resource : String) : Roster :=
  roster.filter fun _ lease => lease.resource = resource

theorem get?_ofResource (roster : Roster) (resource id : String) :
    (roster.ofResource resource).get? id =
      (roster.get? id).filter fun lease => lease.resource = resource :=
  Keyed.get?_filter roster _ id

theorem get?_ageless_singleton {list : LeaseList} {leases : List Lease}
    (h : Lease.collect list.leases = .ok leases) (id : String) :
    (ageless [list]).get? id = Tabled.last? leases id := by
  have hsingle : ageless [list] = Roster.enter .empty list.resource leases :=
    enterList_of_collect h .empty
  rw [hsingle, get?_enter, Keyed.get?_empty, Option.filter_none, Option.or_none]

/-- Where the leases of a resource are those of an announcement, the ones that have not expired are the
live leases of that announcement. -/
theorem ofResource_expire {roster : Roster} {resource : String} {list : LeaseList}
    {leases : List Lease} (hcollect : Lease.collect list.leases = .ok leases)
    (hrows : roster.ofResource resource = ageless [list]) (now : Instant) :
    (roster.expire now).2.ofResource resource = Keyed.ofRows (live leases now) := by
  apply Keyed.ext
  intro id
  have hid : ((roster.get? id).filter fun lease => lease.resource = resource) =
      Tabled.last? leases id := by
    rw [← get?_ofResource, hrows, get?_ageless_singleton hcollect]
  rw [get?_ofResource, get?_expire, Keyed.get?_ofRows, last?_live (Lease.nodup_ids_of_collect hcollect),
    ← hid, Option.filter_filter, Option.filter_filter]
  congr 1
  funext lease
  exact Bool.and_comm _ _

end Roster

namespace Channel

variable {resource : String} {lists : List LeaseList}

/-- The leases of a channel are of its resource. -/
theorem resource_of_collect (h : Channel resource lists) {list : LeaseList} (hmem : list ∈ lists)
    {leases : List Lease} (hcollect : Lease.collect list.leases = .ok leases) {lease : Lease}
    (hlease : lease ∈ leases) : lease.resource = resource := by
  obtain ⟨entry, hentry, -, hresource⟩ := Lease.exists_entry_of_collect hcollect hlease
  unfold LeaseEntry.resource? nonempty? at hresource
  rw [h.tagged list hmem entry hentry] at hresource
  exact (Option.some.inj (Option.filter_eq_some_iff.1 hresource).1).symm

/-- Once an announcement of a channel is entered, the leases of the resource are its leases. -/
theorem ofResource_enterList (h : Channel resource lists) {list : LeaseList} (hmem : list ∈ lists)
    (roster : Roster) :
    (roster.enterList list).ofResource resource = Roster.ageless [list] := by
  obtain ⟨leases, hcollect⟩ := h.good list hmem
  apply Keyed.ext
  intro id
  rw [Roster.get?_ofResource, Roster.enterList_of_collect hcollect, Roster.get?_enter,
    Roster.get?_ageless_singleton hcollect, h.named list hmem]
  cases hlast : Tabled.last? leases id with
  | some lease =>
    have hresource := h.resource_of_collect hmem hcollect (Tabled.mem_of_last? hlast)
    simp [Option.filter, hresource]
  | none =>
    -- Whatever was there of the resource is not listed, and goes.
    cases hold : roster.get? id with
    | none => rfl
    | some lease =>
      by_cases hresource : lease.resource = resource
      · simp [Option.filter, Roster.inScope, hresource]
      · have hne : resource ≠ lease.resource := fun heq => hresource heq.symm
        simp [Option.filter, Roster.inScope, hresource, hne]

/-- An announcement that has nothing to do with a channel leaves the leases of the resource, as long as
these have identities of the channel. -/
theorem Apart.ofResource_enterList {list : LeaseList} (h : Apart resource lists list)
    {leases : List Lease} (hcollect : Lease.collect list.leases = .ok leases) {roster : Roster}
    (hlisted : ∀ id lease, (roster.ofResource resource).get? id = some lease →
      ∃ other ∈ lists, ∃ listed ∈ other.leases, listed.id? = some id) :
    (roster.enterList list).ofResource resource = roster.ofResource resource := by
  apply Keyed.ext
  intro id
  rw [Roster.get?_ofResource, Roster.enterList_of_collect hcollect, Roster.get?_enter]
  cases hlast : Tabled.last? leases id with
  | none =>
    -- What the scope takes off is of another resource.
    rw [Option.none_or, Roster.get?_ofResource, Option.filter_filter]
    congr 1
    funext lease
    by_cases hresource : lease.resource = resource
    · simp [Roster.inScope, hresource, h.scope]
    · simp [hresource]
  | some lease =>
    obtain ⟨entry, hentry, hid, hresource⟩ :=
      Lease.exists_entry_of_collect hcollect (Tabled.mem_of_last? hlast)
    have hidentity : lease.id = id := Tabled.id_of_last? hlast
    have hother : lease.resource ≠ resource := by
      intro heq
      obtain ⟨hraw, -⟩ := Option.filter_eq_some_iff.1 hresource
      exact h.tags entry hentry (heq ▸ hraw)
    have hnone : (roster.ofResource resource).get? id = none := by
      cases hold : (roster.ofResource resource).get? id with
      | none => rfl
      | some old =>
        obtain ⟨other, hmem, listed, hin, hlistedId⟩ := hlisted id old hold
        have hsame : entry.id? = listed.id? := hid.trans (hidentity ▸ hlistedId.symm)
        exact absurd hsame (h.identities entry hentry other hmem listed hin)
    rw [hnone]
    simp [Option.filter, hother]

/-! ## What every history keeps -/

/-- The last announcement of a channel that was let in, if any, has set the last revision of the
resource, and the leases of the resource are its leases. -/
structure Settled (resource : String) (lists : List LeaseList) (newest : Option LeaseList)
    (revisions : Revisions) (roster : Roster) : Prop where
  mem : ∀ list, newest = some list → list ∈ lists
  last : revisions.last? resource = newest.bind (·.revision)
  rows : roster.ofResource resource = Roster.ageless newest.toList

namespace Settled

variable {newest : Option LeaseList} {revisions : Revisions} {roster : Roster}

/-- The leases of the resource have identities of the channel. -/
theorem listed (hchannel : Channel resource lists)
    (h : Settled resource lists newest revisions roster) {id : String} {lease : Lease}
    (hlease : (roster.ofResource resource).get? id = some lease) :
    ∃ other ∈ lists, ∃ listed ∈ other.leases, listed.id? = some id := by
  rw [h.rows] at hlease
  cases newest with
  | none => cases hlease
  | some list =>
    have hmem := h.mem list rfl
    obtain ⟨leases, hcollect⟩ := hchannel.good list hmem
    rw [Option.toList_some, Roster.get?_ageless_singleton hcollect] at hlease
    obtain ⟨entry, hentry, hid, -⟩ :=
      Lease.exists_entry_of_collect hcollect (Tabled.mem_of_last? hlease)
    have hidentity : lease.id = id := Tabled.id_of_last? hlease
    exact ⟨list, hmem, entry, hentry, hidentity ▸ hid⟩

/-- An announcement that is let in keeps a channel settled, as the last one if it is of the channel. -/
theorem enter (hchannel : Channel resource lists) {b : Board}
    (h : Settled resource lists newest b.revisions roster) {list : LeaseList} {leases : List Lease}
    (hcollect : Lease.collect list.leases = .ok leases) (hadvance : b.advance list = .ok revisions)
    (hlist : list ∈ lists ∨ Apart resource lists list) :
    ∃ newest, Settled resource lists newest revisions (roster.enterList list) := by
  rcases hlist with hmem | hapart
  · obtain ⟨n, hrevision, -⟩ := hchannel.revised list hmem
    refine ⟨some list, ?_, ?_, hchannel.ofResource_enterList hmem roster⟩
    · rintro other ⟨⟩
      exact hmem
    · rw [Board.last?_of_advance hadvance, hchannel.announced? hmem hrevision]
      exact hrevision.symm
  · refine ⟨newest, h.mem, ?_, ?_⟩
    · have hnone : list.announced? resource = none := if_neg hapart.scope
      rw [Board.last?_of_advance hadvance, hnone, Option.none_or, h.last]
    · rw [hapart.ofResource_enterList hcollect fun _ _ hlease => h.listed hchannel hlease, h.rows]

theorem run (hchannel : Channel resource lists) {b : Board}
    (h : Settled resource lists newest b.revisions roster) {steps : List Board.Step}
    (hothers : ∀ list now, .event (.leases list) now ∈ steps →
      list ∈ lists ∨ Apart resource lists list) :
    ∃ newest, Settled resource lists newest (b.run steps).revisions
      ((Board.accepted (b.verdicts steps)).foldl Roster.enterList roster) := by
  induction steps generalizing b roster newest with
  | nil => exact ⟨newest, h⟩
  | cons s rest ih =>
    have hrest : ∀ list now, .event (.leases list) now ∈ rest →
        list ∈ lists ∨ Apart resource lists list :=
      fun list now hmem => hothers list now (List.mem_cons_of_mem _ hmem)
    cases s with
    | interruption reason => exact ih (b := (b.step (.interruption reason)).board) h hrest
    | tick now => exact ih (b := (b.step (.tick now)).board) h hrest
    | event event now =>
      rw [Board.run_cons, Board.verdicts, Board.map_result_event]
      obtain ⟨failure, hverdict, hboard⟩ | ⟨list, policies, rfl, hverdict, -, hboard⟩ |
        ⟨list, leases, revisions, rfl, hverdict, hcollect, hadvance, hboard⟩ :=
          b.step_event_cases event now
      · rw [hverdict, Board.accepted_cons_error, hboard]
        exact ih h hrest
      · rw [hverdict, hboard]
        exact ih h hrest
      · rw [hverdict, hboard]
        obtain ⟨newest, hentered⟩ := h.enter hchannel hcollect hadvance
          (hothers list now List.mem_cons_self)
        exact ih hentered hrest

end Settled

/-! ## The final board -/

/-- A history that delivers an announcement of a channel leaves a last revision that is not below its
revision. -/
theorem reaches_run (hchannel : Channel resource lists) {steps : List Board.Step}
    {list : LeaseList} (hmem : list ∈ lists) {n : UInt64} (hrevision : list.revision = some n)
    (hdelivered : ∃ now, .event (.leases list) now ∈ steps) (b : Board) :
    ∃ last, (b.run steps).revisions.last? resource = some last ∧ n ≤ last := by
  obtain ⟨now, hin⟩ := hdelivered
  obtain ⟨before, after, rfl⟩ := List.append_of_mem hin
  obtain ⟨leases, hcollect⟩ := hchannel.good list hmem
  obtain ⟨last, hlast, hle⟩ :=
    Board.reaches_step (b := b.run before) hcollect (hchannel.announced? hmem hrevision) now
  obtain ⟨later, hlater, hle'⟩ := Board.raises_run _ after _ _ hlast
  refine ⟨later, ?_, UInt64.le_trans hle hle'⟩
  rw [Board.run_append]
  exact hlater

/-- A channel whose last revision is not below the greatest one has settled on the newest
announcement. -/
theorem Settled.eq_newest (hchannel : Channel resource lists) {settled : Option LeaseList}
    {revisions : Revisions} {roster : Roster}
    (h : Settled resource lists settled revisions roster) {newest : LeaseList}
    (hmem : newest ∈ lists) {n last : UInt64} (hrevision : newest.revision = some n)
    (hgreatest : ∀ list ∈ lists, ∀ m, list.revision = some m → m ≤ n)
    (hlast : revisions.last? resource = some last) (hle : n ≤ last) : settled = some newest := by
  have hrevisions := h.last
  rw [hlast] at hrevisions
  cases settled with
  | none => cases hrevisions
  | some list =>
    have hlist := h.mem list rfl
    have hsame : n = last := UInt64.le_antisymm hle (hgreatest list hlist last hrevisions.symm)
    rw [hchannel.distinct list hlist newest hmem (hrevisions.symm.trans (hsame ▸ hrevision.symm))]

end Channel

/-- However the announcements of a resource are delivered, at the end the last revision is the greatest
one among them, and the leases of the resource are those of the announcement with that revision that
have not expired. -/
theorem leases_converge {resource : String} {lists : List LeaseList} (hne : lists ≠ [])
    (hchannel : Channel resource lists) :
    ∃ newest ∈ lists, ∃ n leases, newest.revision = some n ∧
      (∀ list ∈ lists, ∀ m, list.revision = some m → m ≤ n) ∧
      Lease.collect newest.leases = .ok leases ∧
      ∀ (steps : List Board.Step) (finish : Instant), Board.Timely (steps ++ [.tick finish]) →
        Channel.Delivered resource lists steps →
        (Board.empty.run (steps ++ [.tick finish])).revisions.last? resource = some n ∧
          (Board.empty.run (steps ++ [.tick finish])).leases.ofResource resource =
            Keyed.ofRows (leases.filter fun lease => !lease.isExpired finish) := by
  obtain ⟨newest, hmem, n, hrevision, hgreatest⟩ := Channel.exists_greatest hne hchannel.revised
  obtain ⟨leases, hcollect⟩ := hchannel.good newest hmem
  refine ⟨newest, hmem, n, leases, hrevision, hgreatest, hcollect, ?_⟩
  intro steps finish htimely hdelivered
  have hempty : Channel.Settled resource lists none Board.empty.revisions .empty :=
    ⟨nofun, rfl, rfl⟩
  obtain ⟨settled, hsettled⟩ := hempty.run hchannel hdelivered.others
  obtain ⟨last, hlast, hle⟩ :=
    Channel.reaches_run hchannel hmem hrevision (hdelivered.all newest hmem) Board.empty
  obtain rfl := hsettled.eq_newest hchannel hmem hrevision hgreatest hlast hle
  constructor
  · rw [Board.run_append]
    exact hsettled.last.trans hrevision
  · rw [Board.leases_run_tick htimely]
    exact Roster.ofResource_expire hcollect hsettled.rows finish

/-- Two announcements of one resource that come in the wrong order and again, with a loss of the
connection, a tick and an announcement of another resource in between. -/
theorem leases_converge_newest_first :
    let older := releasedList "a" "gpu" (some 1)
    let newer := releasedList "b" "gpu" (some 2)
    let steps : List Board.Step := [.event (.leases newer) (atSecond 1), .interruption "reset",
      .event (.leases older) (atSecond 2), .event (.leases (releasedList "c" "cad" none)) (atSecond 2),
      .tick (atSecond 3), .event (.leases newer) (atSecond 3)]
    ∃ newest ∈ [older, newer], ∃ n leases, newest.revision = some n ∧
      (∀ list ∈ [older, newer], ∀ m, list.revision = some m → m ≤ n) ∧
      Lease.collect newest.leases = .ok leases ∧
      (Board.empty.run (steps ++ [.tick (atSecond 4)])).revisions.last? "gpu" = some n ∧
      (Board.empty.run (steps ++ [.tick (atSecond 4)])).leases.ofResource "gpu" =
        Keyed.ofRows (leases.filter fun lease => !lease.isExpired (atSecond 4)) := by
  intro older newer steps
  have hchannel : Channel "gpu" [older, newer] :=
    { named := by decide
      revised := by simp [older, newer, releasedList]
      distinct := by decide
      good := by
        simp only [List.forall_mem_cons]
        exact ⟨⟨_, Lease.collect_releasedList (by decide) (by decide) _⟩,
          ⟨_, Lease.collect_releasedList (by decide) (by decide) _⟩,
          fun _ h => absurd h List.not_mem_nil⟩
      tagged := by decide }
  obtain ⟨newest, hmem, n, leases, hrevision, hgreatest, hcollect, hruns⟩ :=
    leases_converge (by decide) hchannel
  refine ⟨newest, hmem, n, leases, hrevision, hgreatest, hcollect, ?_⟩
  refine hruns steps (atSecond 4) (by decide) ⟨?_, ?_⟩
  · simp only [List.forall_mem_cons]
    exact ⟨⟨atSecond 2, by decide⟩, ⟨atSecond 1, by decide⟩, fun _ h => absurd h List.not_mem_nil⟩
  · intro list now hin
    have hlist : list = newer ∨ list = older ∨ list = releasedList "c" "cad" none := by
      simp only [steps, List.mem_cons, Board.Step.event.injEq, Event.leases.injEq, reduceCtorEq,
        List.not_mem_nil, or_false, false_or] at hin
      tauto
    rcases hlist with rfl | rfl | rfl
    · exact Or.inl (by decide)
    · exact Or.inl (by decide)
    · exact Or.inr ⟨by decide, by decide, by decide⟩

end LeaseBoard
