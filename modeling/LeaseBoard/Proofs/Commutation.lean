import LeaseBoard.Proofs.PolicyHistory
import LeaseBoard.Proofs.Verdict
set_option autoImplicit false

/-!
# Events in either order

Two lists of leases, each of a resource of its own and without a common identity, may come in either
order: both are judged alike and the board ends the same.  A list of policies and a list of leases may
come in either order as well, except in one case.  Statistics that come before the policy of their
resource are dropped, and kept if they come after it.

Neither event of such a pair bears on whether the other is applied (`Impartial`), so it is enough to look
at two events that are applied (`run_swap`).  What an event does to leases and policies is then compared
row by row.

Main statements: `lists_of_two_resources_commute` and `policies_commute_with_leases`.
-/

namespace LeaseBoard

/-! ## Judged alike in either order -/

namespace Board

/-- An event that is turned down leaves the board. -/
theorem board_of_verdict_error {b : Board} {event : Event} {failure : Failure}
    (h : b.verdict event = .error failure) (now : Instant) :
    (b.step (.event event now)).board = b := by
  obtain ⟨-, -, hboard⟩ | ⟨-, -, -, hok, -⟩ | ⟨-, -, -, -, hok, -⟩ := b.step_event_cases event now
  · exact hboard
  · rw [h] at hok
    cases hok
  · rw [h] at hok
    cases hok

/-- Neither of two events bears on whether the other one is applied. -/
structure Impartial (b : Board) (first second : Event) (now later : Instant) : Prop where
  verdict_first : (b.step (.event second later)).board.verdict first = b.verdict first
  verdict_second : (b.step (.event first now)).board.verdict second = b.verdict second

variable {b : Board} {first second : Event} {now later : Instant}

theorem Impartial.verdicts_swap (h : b.Impartial first second now later) :
    b.verdicts [.event second later, .event first now] =
      (b.verdicts [.event first now, .event second later]).reverse := by
  simp only [verdicts, map_result_event, h.verdict_first, h.verdict_second,
    List.reverse_cons, List.reverse_nil,
    List.nil_append, List.cons_append]

/-- Two such events lead to the same board in either order if they do so where both are applied. -/
theorem Impartial.run_swap (h : b.Impartial first second now later)
    (hboth : b.verdict first = .ok () → b.verdict second = .ok () →
      b.run [.event first now, .event second later] = b.run [.event second later, .event first now]) :
    b.run [.event first now, .event second later] =
      b.run [.event second later, .event first now] := by
  have hpair : ∀ s t, b.run [s, t] = ((b.step s).board.step t).board := fun _ _ => rfl
  cases hfirst : b.verdict first with
  | error failure =>
    -- The first event is turned down before the second one and after it.
    rw [hpair, hpair, board_of_verdict_error hfirst,
      board_of_verdict_error (h.verdict_first.trans hfirst)]
  | ok _ =>
    cases hsecond : b.verdict second with
    | error failure =>
      rw [hpair, hpair, board_of_verdict_error hsecond,
        board_of_verdict_error (h.verdict_second.trans hsecond)]
    | ok _ => exact hboth hfirst hsecond

/-- A list of leases that is applied has good entries. -/
theorem exists_of_verdict_leases {list : LeaseList} (h : b.verdict (.leases list) = .ok ()) :
    ∃ leases, Lease.collect list.leases = .ok leases := by
  obtain ⟨leases, hcollect, -⟩ := Except.bind_eq_ok h
  exact ⟨leases, hcollect⟩

/-- A list of leases that is applied updates the leases, hands its statistics to the policies and ends
an interruption. -/
theorem board_of_verdict_leases {list : LeaseList} {leases : List Lease}
    (h : b.verdict (.leases list) = .ok ()) (hcollect : Lease.collect list.leases = .ok leases)
    (now : Instant) :
    (b.step (.event (.leases list) now)).board.leases =
        (b.leases.update list.resource leases now).2 ∧
      (b.step (.event (.leases list) now)).board.policies = (b.report list).1 ∧
      (b.step (.event (.leases list) now)).board.connection = .connected := by
  obtain ⟨_, -, hadvance⟩ := Except.bind_eq_ok h
  obtain ⟨revisions, hadvance, -⟩ := Except.map_eq_ok hadvance
  rw [board_leases, hcollect, hadvance]
  exact ⟨rfl, rfl, rfl⟩

/-- Whether a list is applied depends on its entries and on the last revision of its resource. -/
theorem verdict_leases_congr {a b : Board} {list : LeaseList}
    (h : ∀ resource, list.resource = some resource →
      a.revisions.last? resource = b.revisions.last? resource) :
    a.verdict (.leases list) = b.verdict (.leases list) := by
  have hstale : ∀ failure, a.advance list = .error failure ↔ b.advance list = .error failure := by
    intro failure
    rw [advance_eq_error_iff, advance_eq_error_iff]
    refine exists_congr fun resource => exists_congr fun n => exists_congr fun last => ?_
    refine and_congr_right fun hannounced => ?_
    rw [h resource (LeaseList.announced?_eq_some_iff.1 hannounced).1]
  have hmap : ((a.advance list).map fun _ => ()) = (b.advance list).map fun _ => () := by
    cases hfirst : a.advance list with
    | error failure => rw [(hstale failure).1 hfirst]
    | ok revisions =>
      cases hsecond : b.advance list with
      | error failure => exact nomatch hfirst.symm.trans ((hstale failure).2 hsecond)
      | ok others => rfl
  simp only [verdict, hmap]

/-- A list leaves the last revisions of resources that it does not name. -/
theorem last?_step_of_ne (b : Board) {list : LeaseList} {resource : String}
    (h : list.resource ≠ some resource) (now : Instant) :
    (b.step (.event (.leases list) now)).board.revisions.last? resource =
      b.revisions.last? resource := by
  cases hcollect : Lease.collect list.leases with
  | error failure => simp only [board_leases, hcollect]
  | ok leases =>
    have hnone : list.announced? resource = none := if_neg h
    rw [last?_step_leases hcollect, hnone, Option.merge_none_right]

/-- Steps in another order leave the same revisions. -/
theorem revisions_run_perm (b : Board) {steps other : List Step} (h : steps.Perm other) :
    (b.run steps).revisions = (b.run other).revisions := by
  refine Revisions.eq_of_last? fun resource => ?_
  rw [last?_run_goodList, last?_run_goodList, LeaseList.greatest?_perm (h.filterMap _)]

end Board

/-! ## Lists of two resources -/

/-- A list of leases keeps to a resource: it names the resource, and none of its entries names
another. -/
structure LeaseList.KeepsTo (list : LeaseList) (resource : String) : Prop where
  named : list.resource = some resource
  tagged : ∀ entry ∈ list.leases, ∀ other, entry.resource? = some other → other = resource

/-- Two lists of leases have no identity in common. -/
def LeaseList.Disjoint (first second : LeaseList) : Prop :=
  ∀ entry ∈ first.leases, ∀ other ∈ second.leases, ∀ id, entry.id? = some id → other.id? ≠ some id

theorem LeaseList.KeepsTo.resource_of_collect {list : LeaseList} {resource : String}
    (h : list.KeepsTo resource) {leases : List Lease} (hcollect : Lease.collect list.leases = .ok leases)
    {lease : Lease} (hmem : lease ∈ leases) : lease.resource = resource := by
  obtain ⟨entry, hentry, -, hresource⟩ := Lease.exists_entry_of_collect hcollect hmem
  exact h.tagged entry hentry _ hresource

theorem LeaseList.Disjoint.not_listed {first second : LeaseList} (h : first.Disjoint second)
    {leases others : List Lease} (hfirst : Lease.collect first.leases = .ok leases)
    (hsecond : Lease.collect second.leases = .ok others) {lease other : Lease}
    (hmem : lease ∈ leases) (hother : other ∈ others) : lease.id ≠ other.id := by
  obtain ⟨entry, hentry, hid, -⟩ := Lease.exists_entry_of_collect hfirst hmem
  obtain ⟨listed, hlisted, hlistedId, -⟩ := Lease.exists_entry_of_collect hsecond hother
  exact fun heq => h entry hentry listed hlisted lease.id hid (heq ▸ hlistedId)

/-- Two lists of different resources without a common identity update a roster alike in either order. -/
theorem Roster.update_comm (roster : Roster) {resource other : String} (hne : resource ≠ other)
    {first second : List Lease} (hfirst : (first.map Lease.id).Nodup)
    (hsecond : (second.map Lease.id).Nodup) (hresource : ∀ lease ∈ first, lease.resource = resource)
    (hother : ∀ lease ∈ second, lease.resource = other)
    (hids : ∀ lease ∈ first, ∀ listed ∈ second, lease.id ≠ listed.id) (now later : Instant) :
    ((roster.update (some resource) first now).2.update (some other) second later).2 =
      ((roster.update (some other) second later).2.update (some resource) first now).2 := by
  apply Keyed.ext
  intro id
  simp only [get?_update_of_nodup _ _ hfirst, get?_update_of_nodup _ _ hsecond]
  cases hlast : Tabled.last? first id with
  | none =>
    cases hlater : Tabled.last? second id with
    | none =>
      -- Neither lists it: it goes if it is of either resource.
      simp only [Option.filter_filter, Bool.and_comm]
    | some listed =>
      -- The second lists it under its own resource, so the first does not take it off.
      have hkeep := hother listed (Tabled.mem_of_last? hlater)
      by_cases hgone : listed.isExpired later = true
      · simp [hgone]
      · simp [hgone, Option.filter, inScope, hkeep, hne]
  | some lease =>
    cases hlater : Tabled.last? second id with
    | none =>
      have hkeep := hresource lease (Tabled.mem_of_last? hlast)
      by_cases hgone : lease.isExpired now = true
      · simp [hgone]
      · simp [hgone, Option.filter, inScope, hkeep, hne.symm]
    | some listed =>
      have hid : Tabled.id lease = Tabled.id listed :=
        (Tabled.id_of_last? hlast).trans (Tabled.id_of_last? hlater).symm
      exact absurd hid (hids lease (Tabled.mem_of_last? hlast) listed (Tabled.mem_of_last? hlater))

namespace Board

variable {b : Board} {first second : LeaseList} {resource other : String}

/-- Statistics of two resources are kept alike in either order. -/
theorem report_comm {a : Board} (hne : resource ≠ other) (hfirst : first.KeepsTo resource)
    (hsecond : second.KeepsTo other) {forth back : Board} (hforth : forth.policies = (a.report first).1)
    (hback : back.policies = (a.report second).1) :
    (forth.report second).1 = (back.report first).1 := by
  apply Keyed.ext
  intro key
  simp only [get?_report, hforth, hback, Option.map_map]
  congr 1
  funext policy
  -- No resource takes statistics of both.
  by_cases hkey : resource = key
  · have hnone : Event.statisticsOf? key (.leases second) = none :=
      if_neg fun heq => hne (hkey.trans (Option.some.inj (hsecond.named.symm.trans heq)).symm)
    simp [hnone]
  · have hnone : Event.statisticsOf? key (.leases first) = none :=
      if_neg fun heq => hkey (Option.some.inj (hfirst.named.symm.trans heq))
    simp [hnone]

end Board

/-- Two lists of leases of different resources, each with entries of its own resource alone and without
a common identity, are judged alike in either order, at whatever instants they come, and leave the same
board: leases, policies with their statistics, revisions and the state of the connection.  One of them or
both may be turned down. -/
theorem lists_of_two_resources_commute (b : Board) {first second : LeaseList}
    {resource other : String} (hne : resource ≠ other) (hfirst : first.KeepsTo resource)
    (hsecond : second.KeepsTo other) (hids : first.Disjoint second) (now later : Instant) :
    let one : Board.Step := .event (.leases first) now
    let two : Board.Step := .event (.leases second) later
    b.verdicts [two, one] = (b.verdicts [one, two]).reverse ∧ b.run [one, two] = b.run [two, one] := by
  intro one two
  have himpartial : b.Impartial (.leases first) (.leases second) now later := by
    refine ⟨Board.verdict_leases_congr fun named hnamed => ?_,
      Board.verdict_leases_congr fun named hnamed => ?_⟩
    · obtain rfl := Option.some.inj (hfirst.named.symm.trans hnamed)
      exact b.last?_step_of_ne (fun heq => hne (Option.some.inj (heq.symm.trans hsecond.named))) later
    · obtain rfl := Option.some.inj (hsecond.named.symm.trans hnamed)
      exact b.last?_step_of_ne (fun heq => hne (Option.some.inj (hfirst.named.symm.trans heq))) now
  refine ⟨himpartial.verdicts_swap, himpartial.run_swap fun hok hokOther => ?_⟩
  have hrevisions : (b.run [one, two]).revisions = (b.run [two, one]).revisions :=
    b.revisions_run_perm (.swap ..)
  obtain ⟨leases, hcollect⟩ := Board.exists_of_verdict_leases hok
  obtain ⟨others, hothers⟩ := Board.exists_of_verdict_leases hokOther
  -- Each list is applied on the board and on the board that the other one leaves.
  obtain ⟨hleases₁, hpolicies₁, -⟩ := Board.board_of_verdict_leases hok hcollect now
  obtain ⟨hleases₂, hpolicies₂, -⟩ := Board.board_of_verdict_leases hokOther hothers later
  obtain ⟨hleases₁₂, hpolicies₁₂, hconnection₁₂⟩ := Board.board_of_verdict_leases
    (himpartial.verdict_second.trans hokOther) hothers later
  obtain ⟨hleases₂₁, hpolicies₂₁, hconnection₂₁⟩ := Board.board_of_verdict_leases
    (himpartial.verdict_first.trans hok) hcollect now
  have hpolicies : (b.run [one, two]).policies = (b.run [two, one]).policies :=
    hpolicies₁₂.trans ((Board.report_comm hne hfirst hsecond hpolicies₁ hpolicies₂).trans
      hpolicies₂₁.symm)
  have hleases : (b.run [one, two]).leases = (b.run [two, one]).leases := by
    refine hleases₁₂.trans (Eq.trans ?_ hleases₂₁.symm)
    rw [hleases₁, hleases₂, hfirst.named, hsecond.named]
    exact b.leases.update_comm hne (Lease.nodup_ids_of_collect hcollect)
      (Lease.nodup_ids_of_collect hothers) (fun _ => hfirst.resource_of_collect hcollect)
      (fun _ => hsecond.resource_of_collect hothers)
      (fun _ hmem _ => hids.not_listed hcollect hothers hmem) now later
  exact Board.SameStanding.eq_of_leases
    ⟨hrevisions, hpolicies, hconnection₁₂.trans hconnection₂₁.symm⟩ hleases

theorem LeaseList.keepsTo_releasedList (holder resource : String) (revision : Option UInt64) :
    (releasedList holder resource revision).KeepsTo resource where
  named := rfl
  tagged := by
    intro entry hentry other hother
    rw [List.mem_singleton.1 hentry] at hother
    unfold LeaseEntry.resource? nonempty? at hother
    exact (Option.some.inj (Option.filter_eq_some_iff.1 hother).1).symm

/-- A lease goes over from one resource to another, whose list takes it on.  The list of the first
resource, which leaves it out, may come before or after that, and brings a lease that has expired. -/
theorem lists_of_two_resources_commute_going_over :
    let b := Board.empty.run [.event (.leases (releasedList "a" "cad" (some 1))) (atSecond 1)]
    let one : Board.Step := .event (.leases (releasedList "a" "gpu" (some 1))) (atSecond 2)
    let two : Board.Step := .event (.leases (releasedList "c" "cad" (some 2))) (atSecond 6)
    (b.run [two]).leases.keys = [] ∧ (b.run [one, two]).leases.keys = ["a"] ∧
      b.verdicts [two, one] = (b.verdicts [one, two]).reverse ∧
      b.run [one, two] = b.run [two, one] := by
  intro b one two
  refine ⟨by decide, by decide, ?_⟩
  refine lists_of_two_resources_commute b (by decide) (LeaseList.keepsTo_releasedList "a" "gpu" _)
    (LeaseList.keepsTo_releasedList "c" "cad" _) ?_ (atSecond 2) (atSecond 6)
  intro entry hentry other hother id hid
  rw [List.mem_singleton.1 hentry] at hid
  rw [List.mem_singleton.1 hother, ← hid]
  decide

/-! ## Policies and leases -/

/-- A list of policies names the resources of its policies. -/
theorem PolicyList.isSome_entry?_iff {list : PolicyList} {policies : List Policy}
    (hcollect : Policy.collect list.policies = .ok policies) (resource : String) :
    (list.entry? resource).isSome ↔ (Tabled.last? policies resource).isSome := by
  obtain ⟨hentry, hlast⟩ | ⟨entry, policy, hentry, -, hlast⟩ :=
    Policy.last?_of_collect hcollect resource
  · simp [hentry, hlast]
  · simp [hentry, hlast]

theorem Event.statisticsOf?_eq_some_iff {list : LeaseList} {resource : String}
    {statistics : Statistics} : statisticsOf? resource (.leases list) = some statistics ↔
      list.resource = some resource ∧ list.statistics = some statistics := by
  simp only [statisticsOf?]
  split
  case isTrue h => simp [h]
  case isFalse h => simp [h]

namespace Board

/-- The statistics of a list of leases are premature for a list of policies: both lists are applied, and
the statistics are of a resource that has no policy yet, and has one with the list of policies. -/
structure Premature (b : Board) (policies : PolicyList) (leases : LeaseList) (resource : String)
    (statistics : Statistics) : Prop where
  policies_ok : b.verdict (.policies policies) = .ok ()
  leases_ok : b.verdict (.leases leases) = .ok ()
  scope : leases.resource = some resource
  statistics : leases.statistics = some statistics
  absent : b.policies.get? resource = none
  listed : (policies.entry? resource).isSome

/-- Two boards differ in nothing but the statistics of a policy: the first one has them, the second one
has none. -/
structure DifferInStatistics (forth back : Board) (resource : String) (statistics : Statistics) :
    Prop where
  leases : forth.leases = back.leases
  revisions : forth.revisions = back.revisions
  connection : forth.connection = back.connection
  others : ∀ other, other ≠ resource → forth.policies.get? other = back.policies.get? other
  policy : ∃ policy : Policy,
    forth.policies.get? resource = some { policy with statistics := some statistics } ∧
      back.policies.get? resource = some { policy with statistics := none }

theorem DifferInStatistics.ne {forth back : Board} {resource : String} {statistics : Statistics}
    (h : forth.DifferInStatistics back resource statistics) : forth ≠ back := by
  rintro rfl
  obtain ⟨policy, hforth, hback⟩ := h.policy
  rw [hback] at hforth
  cases hforth

variable {b : Board} {policies : PolicyList} {leases : LeaseList}

theorem impartial_policies_leases (b : Board) (policies : PolicyList) (leases : LeaseList)
    (now later : Instant) : b.Impartial (.policies policies) (.leases leases) now later where
  verdict_first := rfl
  verdict_second := by
    refine verdict_leases_congr fun resource _ => ?_
    rw [board_policies]
    cases Policy.collect policies.policies <;> rfl

/-- Where a list of policies and a list of leases are both applied, the two orders leave boards that
differ in their policies at most.  Either way a resource has the policy that is listed.  Its statistics
are the new ones and else the old ones, but where the list of leases comes first, only if there was a
policy to take them. -/
theorem run_policies_leases (hpolicies : b.verdict (.policies policies) = .ok ())
    (hleases : b.verdict (.leases leases) = .ok ()) (now later : Instant) :
    ∃ revisions roster forth back rows, Policy.collect policies.policies = .ok rows ∧
      b.run [.event (.policies policies) now, .event (.leases leases) later] =
        ⟨revisions, roster, forth, .connected⟩ ∧
      b.run [.event (.leases leases) later, .event (.policies policies) now] =
        ⟨revisions, roster, back, .connected⟩ ∧
      ∀ resource,
        (forth.get? resource = (Tabled.last? rows resource).map fun policy =>
          { policy with
            statistics := (Event.statisticsOf? resource (.leases leases)).or
              ((b.policies.get? resource).bind Policy.statistics) }) ∧
        back.get? resource = (Tabled.last? rows resource).map fun policy =>
          { policy with
            statistics := (b.policies.get? resource).bind fun known =>
              (Event.statisticsOf? resource (.leases leases)).or known.statistics } := by
  obtain ⟨rows, hrows, -⟩ := Except.map_eq_ok hpolicies
  obtain ⟨listed, hlisted, hadvance⟩ := Except.bind_eq_ok hleases
  obtain ⟨revisions, hadvance, -⟩ := Except.map_eq_ok hadvance
  have hforth : (b.step (.event (.policies policies) now)).board =
      { b with policies := (b.policies.replace rows).2, connection := .connected } := by
    rw [board_policies, hrows]
  have hback : (b.step (.event (.leases leases) later)).board =
      { revisions := revisions
        leases := (b.leases.update leases.resource listed later).2
        policies := (b.report leases).1
        connection := .connected } := by
    rw [board_leases, hlisted, hadvance]
  have hadvanceForth : (b.step (.event (.policies policies) now)).board.advance leases =
      .ok revisions := by
    rw [hforth]
    exact hadvance
  refine ⟨revisions, (b.leases.update leases.resource listed later).2,
    ((b.step (.event (.policies policies) now)).board.report leases).1,
    ((b.report leases).1.replace rows).2, rows, hrows, ?_, ?_, fun resource => ⟨?_, ?_⟩⟩
  · rw [run_cons, run_cons, board_leases, hlisted, hadvanceForth, hforth]
    rfl
  · rw [run_cons, hback, run_cons, board_policies, hrows]
    rfl
  · rw [get?_report, hforth, Book.get?_replace_of_collect _ hrows, Option.map_map]
    rfl
  · rw [Book.get?_replace_of_collect _ hrows, get?_report]
    cases b.policies.get? resource <;> rfl

/-- Premature statistics make the difference between the two orders. -/
theorem Premature.differ {resource : String} {statistics : Statistics}
    (h : b.Premature policies leases resource statistics) (now later : Instant) :
    (b.run [.event (.policies policies) now, .event (.leases leases) later]).DifferInStatistics
      (b.run [.event (.leases leases) later, .event (.policies policies) now]) resource statistics := by
  obtain ⟨revisions, roster, forth, back, rows, hrows, hforth, hback, hget⟩ :=
    run_policies_leases h.policies_ok h.leases_ok now later
  rw [hforth, hback]
  refine ⟨rfl, rfl, rfl, fun other hother => ?_, ?_⟩
  · have hnone : Event.statisticsOf? other (.leases leases) = none :=
      if_neg fun heq => hother (Option.some.inj (heq.symm.trans h.scope))
    rw [(hget other).1, (hget other).2, hnone]
    cases b.policies.get? other <;> rfl
  · obtain ⟨policy, hpolicy⟩ :=
      Option.isSome_iff_exists.1 ((PolicyList.isSome_entry?_iff hrows resource).1 h.listed)
    have hsome : Event.statisticsOf? resource (.leases leases) = some statistics :=
      Event.statisticsOf?_eq_some_iff.2 ⟨h.scope, h.statistics⟩
    refine ⟨policy, ?_, ?_⟩
    · rw [(hget resource).1, hpolicy, hsome]
      rfl
    · rw [(hget resource).2, hpolicy, h.absent]
      rfl

/-- Where no statistics are premature, the order of two lists that are applied does not matter. -/
theorem run_eq_of_not_premature
    (hnot : ¬ ∃ resource statistics, b.Premature policies leases resource statistics)
    (hpolicies : b.verdict (.policies policies) = .ok ())
    (hleases : b.verdict (.leases leases) = .ok ()) (now later : Instant) :
    b.run [.event (.policies policies) now, .event (.leases leases) later] =
      b.run [.event (.leases leases) later, .event (.policies policies) now] := by
  obtain ⟨revisions, roster, forth, back, rows, hrows, hforth, hback, hget⟩ :=
    run_policies_leases hpolicies hleases now later
  rw [hforth, hback]
  congr 1
  apply Keyed.ext
  intro resource
  rw [(hget resource).1, (hget resource).2]
  cases hold : b.policies.get? resource with
  | some known => rfl
  | none =>
    cases hlast : Tabled.last? rows resource with
    | none => rfl
    | some policy =>
      -- The resource is listed and has no policy yet, so there are no statistics of it.
      cases htold : Event.statisticsOf? resource (.leases leases) with
      | none => rfl
      | some statistics =>
        obtain ⟨hscope, hstatistics⟩ := Event.statisticsOf?_eq_some_iff.1 htold
        have hlisted := (PolicyList.isSome_entry?_iff hrows resource).2 (by rw [hlast]; rfl)
        exact absurd ⟨resource, statistics, hpolicies, hleases, hscope, hstatistics, hold, hlisted⟩
          hnot

end Board

/-- A list of policies and a list of leases are judged alike in either order, at whatever instants they
come, and leave the same board unless the statistics of the list of leases are premature.  Then the two
boards differ in nothing but the policy of the resource: it has these statistics if the list of policies
came first, and none if the list of leases did. -/
theorem policies_commute_with_leases (b : Board) (policies : PolicyList) (leases : LeaseList)
    (now later : Instant) :
    let p : Board.Step := .event (.policies policies) now
    let l : Board.Step := .event (.leases leases) later
    b.verdicts [l, p] = (b.verdicts [p, l]).reverse ∧
    (b.run [p, l] = b.run [l, p] ↔
      ¬ ∃ resource statistics, b.Premature policies leases resource statistics) ∧
    ∀ resource statistics, b.Premature policies leases resource statistics →
      (b.run [p, l]).DifferInStatistics (b.run [l, p]) resource statistics := by
  intro p l
  have himpartial := b.impartial_policies_leases policies leases now later
  refine ⟨himpartial.verdicts_swap, ⟨?_, fun hnot => ?_⟩, fun _ _ h => h.differ now later⟩
  · rintro heq ⟨resource, statistics, h⟩
    exact (h.differ now later).ne heq
  · exact himpartial.run_swap fun hpolicies hleases =>
      Board.run_eq_of_not_premature hnot hpolicies hleases now later

/-- Statistics of a resource that come before its policy, of which there is nothing left once the policy
is there. -/
theorem policies_commute_with_leases_unless_premature :
    let policies : PolicyList := ⟨[⟨some "gpu", some "instance", 4, none⟩]⟩
    let statistics : Statistics := ⟨none, some ⟨2, 0, 0, 0⟩⟩
    let leases : LeaseList := ⟨some "gpu", some 1, [], some statistics⟩
    let p : Board.Step := .event (.policies policies) (atSecond 1)
    let l : Board.Step := .event (.leases leases) (atSecond 1)
    Board.empty.Premature policies leases "gpu" statistics ∧
      Board.empty.run [p, l] ≠ Board.empty.run [l, p] ∧
      (Board.empty.run [p, l]).DifferInStatistics (Board.empty.run [l, p]) "gpu" statistics := by
  intro policies statistics leases p l
  have hpremature : Board.empty.Premature policies leases "gpu" statistics :=
    ⟨rfl, rfl, rfl, rfl, rfl, rfl⟩
  obtain ⟨-, hsame, hdiffer⟩ :=
    policies_commute_with_leases Board.empty policies leases (atSecond 1) (atSecond 1)
  exact ⟨hpremature, fun heq => hsame.1 heq ⟨"gpu", statistics, hpremature⟩, hdiffer _ _ hpremature⟩

end LeaseBoard
