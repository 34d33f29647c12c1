import LeaseBoard.Proofs.Change
import LeaseBoard.Proofs.Released
import LeaseBoard.Proofs.Results
import LeaseBoard.Proofs.Step
set_option autoImplicit false

/-!
# Appearance

Properties of leases and policies, and the user and the host of an instance, are there to be looked at.
`bare` takes them off entries, and takes what is made of them off rows and boards; `outline` takes the
texts and the times since a start off instructions.

What becomes of a bare board in a step, and the outline of what is sent, depend on the bare board and the
bare step alone (`bare_step_congr`): whether an event is turned down, which rows there are, when they
expire and what is counted against a limit.

Main statement: `appearance_never_matters`.
-/

namespace LeaseBoard

/-! ## Bare entries, rows and boards -/

/-- An instance without its user and host. -/
def Holder.bare (holder : Holder) : Holder := { holder with user := none, host := none }

/-- A lease as announced, without properties, user and host. -/
def LeaseEntry.bare (entry : LeaseEntry) : LeaseEntry :=
  { entry with holder := entry.holder.map Holder.bare, properties := none }

/-- A policy as announced, without properties. -/
def PolicyEntry.bare (entry : PolicyEntry) : PolicyEntry := { entry with properties := none }

/-- A list of bare leases. -/
def LeaseList.bare (list : LeaseList) : LeaseList :=
  { list with leases := list.leases.map LeaseEntry.bare }

/-- A list of bare policies. -/
def PolicyList.bare (list : PolicyList) : PolicyList := ⟨list.policies.map PolicyEntry.bare⟩

/-- An announcement of bare entries. -/
def Event.bare : Event → Event
  | policies list => policies list.bare
  | leases list => leases list.bare

/-- A step with a bare event. -/
def Board.Step.bare : Board.Step → Board.Step
  | .event announced now => .event announced.bare now
  | .interruption reason => .interruption reason
  | .tick now => .tick now

/-- A lease without the columns that properties, user and host may fill. -/
def Lease.bare (lease : Lease) : Lease :=
  { lease with program := "", user := "", host := "", process := "", started := none }

/-- A policy without the column that properties may fill. -/
def Policy.bare (policy : Policy) : Policy := { policy with program := "" }

/-- A board of bare rows. -/
def Board.bare (b : Board) : Board :=
  { b with leases := b.leases.mapValues Lease.bare, policies := b.policies.mapValues Policy.bare }

/-! ## Outlines of instructions -/

/-- A column without its text or its start; the time until an instant stays. -/
def Cell.outline : Cell → Cell
  | text _ => text ""
  | elapsed _ => elapsed none
  | remaining finish => remaining finish

/-- An instruction with the outlines of its columns. -/
def Instruction.outline : Instruction → Instruction
  | .add table id cells => .add table id (cells.map Cell.outline)
  | .update table id cells => .update table id (cells.map Cell.outline)
  | .remove table id => .remove table id
  | .refresh now => .refresh now
  | .connection status => .connection status

/-- The outlines of instructions. -/
def Instruction.outlines (sent : List Instruction) : List Instruction := sent.map outline

@[simp] theorem Instruction.outlines_append (first second : List Instruction) :
    outlines (first ++ second) = outlines first ++ outlines second := List.map_append

/-- The outcome of a step, as far as it can be told without appearance. -/
def Board.Outcome.bare (o : Outcome) : Outcome :=
  ⟨o.board.bare, o.result.map Instruction.outlines⟩

/-! ## Rows with one outline -/

/-- A function on rows keeps outlines if it keeps identities and the outlines of columns. -/
structure Tabled.KeepsOutline {α : Type} [Tabled α] (f : α → α) : Prop where
  id : ∀ row, Tabled.id (f row) = Tabled.id row
  cells : ∀ row, (Tabled.cells (f row)).map Cell.outline = (Tabled.cells row).map Cell.outline

section Rows

variable {α : Type} {f : α → α}

namespace Keyed

variable (t : Keyed α)

/-- Rows may be stripped before a test or after it, if the test does not look at what goes. -/
theorem filter_mapValues {keep kept : String → α → Bool}
    (hkeep : ∀ key row, kept key (f row) = keep key row) :
    (t.mapValues f).filter kept = (t.filter keep).mapValues f := by
  apply ext
  intro key
  rw [get?_mapValues, get?_filter, get?_filter, get?_mapValues]
  cases t.get? key with
  | none => rfl
  | some row => by_cases h : keep key row = true <;> simp [Option.filter, hkeep, h]

theorem insert_mapValues (key : String) (row : α) :
    (t.mapValues f).insert key (f row) = (t.insert key row).mapValues f := by
  apply ext
  intro other
  rw [get?_mapValues, get?_insert, get?_insert, get?_mapValues]
  split <;> rfl

end Keyed

variable [Tabled α]

theorem Arrival.put_map (h : Tabled.KeepsOutline f) (row : α) (rows : List α) :
    put Tabled.id (f row) (rows.map f) = (put Tabled.id row rows).map f := by
  induction rows with
  | nil => rfl
  | cons first rest ih =>
    simp only [put, List.map_cons, h.id]
    split
    · rfl
    · rw [ih, List.map_cons]

theorem Arrival.collect_map (h : Tabled.KeepsOutline f) (rows : List α) :
    collect Tabled.id (rows.map f) = (collect Tabled.id rows).map f := by
  suffices hall : ∀ kept : List α,
      (rows.map f).foldl (fun kept row => put Tabled.id row kept) (kept.map f) =
        (rows.foldl (fun kept row => put Tabled.id row kept) kept).map f from hall []
  induction rows with
  | nil => exact fun kept => rfl
  | cons row rest ih =>
    intro kept
    rw [List.map_cons, List.foldl_cons, List.foldl_cons, put_map h]
    exact ih _

theorem Tabled.last?_map (h : KeepsOutline f) (rows : List α) (key : String) :
    last? (rows.map f) key = (last? rows key).map f := by
  simp only [last?, ← List.map_reverse, List.find?_map, Function.comp_def, h.id]

/-- Rows may be stripped before a merge or after it. -/
theorem Keyed.merge_mapValues (h : Tabled.KeepsOutline f) (old : Keyed α) (listed : List α)
    {goes gone : String → α → Bool} (hgoes : ∀ key row, gone key (f row) = goes key row) :
    (old.mapValues f).merge (listed.map f) gone = (old.merge listed goes).mapValues f := by
  have hkept : (old.mapValues f).filter (fun key row => !gone key row) =
      (old.filter fun key row => !goes key row).mapValues f :=
    old.filter_mapValues fun key row => congrArg _ (hgoes key row)
  apply Keyed.ext
  intro key
  rw [merge, merge, hkept, get?_mapValues, get?_foldl_last?, get?_foldl_last?, get?_mapValues,
    Tabled.last?_map h, Option.map_or]

/-- The instructions of a change of stripped rows have the outlines of those of the change. -/
theorem Change.outlines_between (h : Tabled.KeepsOutline f) (old : Keyed α) (listed : List α)
    {goes gone : String → α → Bool} (hgoes : ∀ key row, gone key (f row) = goes key row) :
    Instruction.outlines (between (old.mapValues f) (listed.map f) gone).instructions =
      Instruction.outlines (between old listed goes).instructions := by
  simp only [between, instructions, Instruction.outlines, List.map_append, List.map_map,
    List.filter_map, old.filter_mapValues hgoes, Keyed.keys_mapValues, Keyed.contains_mapValues,
    Function.comp_def, Tabled.addition, Tabled.revision, Instruction.outline, h.id, h.cells]

/-- Entries make the same rows in outline, if each of them does. -/
theorem Tabled.map_collect {ε : Type} {strip : ε → ε} {ofEntry : ε → Except Failure α}
    (h : KeepsOutline f) (hentry : ∀ entry, (ofEntry (strip entry)).map f = (ofEntry entry).map f)
    (entries : List ε) :
    (((entries.map strip).mapM ofEntry).map (Arrival.collect id)).map (List.map f) =
      ((entries.mapM ofEntry).map (Arrival.collect id)).map (List.map f) := by
  have hmove : ∀ rows : Except Failure (List α), (rows.map (Arrival.collect id)).map (List.map f) =
      (rows.map (List.map f)).map (Arrival.collect id) := by
    intro rows
    cases rows with
    | error failure => rfl
    | ok rows => exact congrArg Except.ok (Arrival.collect_map h rows).symm
  rw [hmove, hmove, Except.map_mapM, Except.map_mapM, List.mapM_map]
  simp only [Function.comp_def, hentry]

end Rows

/-! ## Leases -/

namespace Lease

theorem keepsOutline_bare : Tabled.KeepsOutline Lease.bare := ⟨fun _ => rfl, fun _ => rfl⟩

theorem id?_bare (entry : LeaseEntry) : entry.bare.id? = entry.id? := by
  unfold LeaseEntry.id? LeaseEntry.bare
  cases entry.holder <;> rfl

/-- Whether an entry makes a lease, and the lease without its appearance, do not depend on properties,
user and host. -/
theorem map_bare_ofEntry (entry : LeaseEntry) :
    (ofEntry entry.bare).map bare = (ofEntry entry).map bare := by
  unfold ofEntry
  rw [id?_bare]
  cases entry.id? with
  | none => rfl
  | some id =>
    have hresource : entry.bare.resource? = entry.resource? := rfl
    simp only [hresource]
    cases entry.resource? with
    | none => rfl
    | some resource =>
      -- The expiry runs from the times of the lease itself, which are those of the bare entry.
      have hexpiry : expiryOf (Status.ofName entry.bare.status) entry.bare.lastRenewal
          (setInstant? entry.bare.released) entry.bare.duration entry.bare.decay =
            expiryOf (Status.ofName entry.status) entry.lastRenewal (setInstant? entry.released)
              entry.duration entry.decay := rfl
      simp only [hexpiry]
      cases expiryOf (Status.ofName entry.status) entry.lastRenewal (setInstant? entry.released)
        entry.duration entry.decay <;> rfl

theorem map_bare_collect (list : LeaseList) :
    (collect list.bare.leases).map (List.map bare) = (collect list.leases).map (List.map bare) :=
  Tabled.map_collect keepsOutline_bare map_bare_ofEntry list.leases

end Lease

namespace Roster

variable (roster : Roster) (scope : Option String) (leases : List Lease) (now : Instant)

theorem live_map_bare : live (leases.map Lease.bare) now = (live leases now).map Lease.bare :=
  List.filter_map

theorem goes_map_bare (id : String) (lease : Lease) :
    goes scope (leases.map Lease.bare) now id lease.bare = goes scope leases now id lease := by
  simp only [goes, live, List.filter_map, List.map_map, Function.comp_def]
  rfl

theorem update_bare : (update (roster.mapValues Lease.bare) scope (leases.map Lease.bare) now).2 =
    (update roster scope leases now).2.mapValues Lease.bare := by
  rw [update_eq, update_eq, live_map_bare]
  exact Keyed.merge_mapValues Lease.keepsOutline_bare roster _ (goes_map_bare scope leases now)

theorem outlines_update_bare : Instruction.outlines
      (update (roster.mapValues Lease.bare) scope (leases.map Lease.bare) now).1.instructions =
    Instruction.outlines (update roster scope leases now).1.instructions := by
  rw [update_eq, update_eq, live_map_bare]
  exact Change.outlines_between Lease.keepsOutline_bare roster _ (goes_map_bare scope leases now)

theorem expire_bare : expire (roster.mapValues Lease.bare) now =
    ((expire roster now).1, (expire roster now).2.mapValues Lease.bare) := by
  have hexpired : (roster.mapValues Lease.bare).filter (fun _ lease => lease.isExpired now) =
      (roster.filter fun _ lease => lease.isExpired now).mapValues Lease.bare :=
    roster.filter_mapValues fun _ _ => rfl
  have hkept : (roster.mapValues Lease.bare).filter (fun _ lease => !lease.isExpired now) =
      (roster.filter fun _ lease => !lease.isExpired now).mapValues Lease.bare :=
    roster.filter_mapValues fun _ _ => rfl
  simp only [expire, hexpired, hkept, Keyed.keys_mapValues]

end Roster

/-! ## Policies -/

namespace Policy

theorem keepsOutline_bare : Tabled.KeepsOutline Policy.bare := ⟨fun _ => rfl, fun _ => rfl⟩

/-- Whether an entry makes a policy, and the policy without its appearance, do not depend on
properties. -/
theorem map_bare_ofEntry (entry : PolicyEntry) :
    (ofEntry entry.bare).map bare = (ofEntry entry).map bare := by
  unfold ofEntry
  have hresource : entry.bare.resource = entry.resource := rfl
  rw [hresource]
  cases entry.resource.filter (· ≠ "") <;> rfl

theorem map_bare_collect (list : PolicyList) :
    (collect list.bare.policies).map (List.map bare) = (collect list.policies).map (List.map bare) :=
  Tabled.map_collect keepsOutline_bare map_bare_ofEntry list.policies

end Policy

namespace Book

variable (book : Book) (policies : List Policy)

theorem withStatistics_bare (policy : Policy) :
    withStatistics (book.mapValues Policy.bare) policy.bare = (book.withStatistics policy).bare := by
  have hresource : policy.bare.resource = policy.resource := rfl
  simp only [withStatistics, Keyed.get?_mapValues, hresource]
  cases book.get? policy.resource <;> rfl

theorem map_withStatistics_bare :
    (policies.map Policy.bare).map (withStatistics (book.mapValues Policy.bare)) =
      (policies.map book.withStatistics).map Policy.bare := by
  simp only [List.map_map, Function.comp_def, withStatistics_bare]

theorem goes_map_bare (resource : String) (policy : Policy) :
    goes (policies.map Policy.bare) resource policy.bare = goes policies resource policy := by
  simp only [goes, List.map_map, Function.comp_def]
  rfl

theorem replace_bare : (replace (book.mapValues Policy.bare) (policies.map Policy.bare)).2 =
    (book.replace policies).2.mapValues Policy.bare := by
  rw [replace_eq, replace_eq, map_withStatistics_bare]
  exact Keyed.merge_mapValues Policy.keepsOutline_bare book _ (goes_map_bare _)

theorem outlines_replace_bare : Instruction.outlines
      (replace (book.mapValues Policy.bare) (policies.map Policy.bare)).1.instructions =
    Instruction.outlines (book.replace policies).1.instructions := by
  rw [replace_eq, replace_eq, map_withStatistics_bare]
  exact Change.outlines_between Policy.keepsOutline_bare book _ (goes_map_bare _)

theorem report_bare (resource : String) (statistics : Statistics) :
    report (book.mapValues Policy.bare) resource statistics =
      (book.report resource statistics).map (Prod.map Policy.bare (Keyed.mapValues · Policy.bare)) := by
  simp only [report, Keyed.get?_mapValues]
  cases book.get? resource with
  | none => rfl
  | some policy =>
    simp only [Option.map_some, Prod.map, ← Keyed.insert_mapValues]
    rfl

end Book

/-! ## Boards -/

namespace Board

variable {a b : Board}

theorem bare_eq_iff : a.bare = b.bare ↔
    a.revisions = b.revisions ∧ a.leases.mapValues Lease.bare = b.leases.mapValues Lease.bare ∧
      a.policies.mapValues Policy.bare = b.policies.mapValues Policy.bare ∧
      a.connection = b.connection :=
  Board.mk.injEq .. ▸ Iff.rfl

/-- What an event makes of a board, as far as it can be told without appearance. -/
def bareApplied : Board × List Instruction → Board × List Instruction :=
  Prod.map Board.bare Instruction.outlines

theorem reconnect_bare (b : Board) (sent : List Instruction) :
    bareApplied (b.reconnect sent) = b.bare.reconnect (Instruction.outlines sent) := by
  have hconnection : b.bare.connection = b.connection := rfl
  simp only [reconnect, hconnection]
  split <;> rfl

theorem report_bare (b : Board) (list : LeaseList) :
    (b.bare.report list.bare).1 = (b.report list).1.mapValues Policy.bare ∧
      Instruction.outlines (b.bare.report list.bare).2 = Instruction.outlines (b.report list).2 := by
  obtain ⟨resource, revision, leases, statistics⟩ := list
  cases resource with
  | none => exact ⟨rfl, rfl⟩
  | some resource =>
    cases statistics with
    | none => exact ⟨rfl, rfl⟩
    | some statistics =>
      simp only [report, LeaseList.bare, Board.bare, Book.report_bare]
      cases b.policies.report resource statistics with
      | none => exact ⟨rfl, rfl⟩
      | some reported => exact ⟨rfl, rfl⟩

theorem applyPolicies_congr (hboard : a.bare = b.bare) {first second : PolicyList}
    (hlist : first.bare = second.bare) :
    (a.applyPolicies first).map bareApplied = (b.applyPolicies second).map bareApplied := by
  obtain ⟨hrevisions, hroster, hbook, hconnection⟩ := bare_eq_iff.1 hboard
  have hcollect : (Policy.collect first.policies).map (List.map Policy.bare) =
      (Policy.collect second.policies).map (List.map Policy.bare) := by
    rw [← Policy.map_bare_collect, hlist, Policy.map_bare_collect]
  obtain ⟨failure, hfirst, hsecond⟩ | ⟨policies, others, hfirst, hsecond, hbare⟩ :=
    Except.cases_of_map_eq hcollect
  · simp only [applyPolicies, hfirst, hsecond]
    rfl
  · have hreplaced : (a.policies.replace policies).2.mapValues Policy.bare =
        (b.policies.replace others).2.mapValues Policy.bare := by
      rw [← Book.replace_bare, hbook, hbare, Book.replace_bare]
    have hsent : Instruction.outlines (a.policies.replace policies).1.instructions =
        Instruction.outlines (b.policies.replace others).1.instructions := by
      rw [← Book.outlines_replace_bare, hbook, hbare, Book.outlines_replace_bare]
    simp only [applyPolicies, hfirst, hsecond]
    exact congrArg Except.ok
      (Prod.ext (bare_eq_iff.2 ⟨hrevisions, hroster, hreplaced, hconnection⟩) hsent)

theorem applyLeases_congr (hboard : a.bare = b.bare) {first second : LeaseList}
    (hlist : first.bare = second.bare) (now : Instant) :
    (a.applyLeases first now).map bareApplied = (b.applyLeases second now).map bareApplied := by
  obtain ⟨hrevisions, hroster, hbook, hconnection⟩ := bare_eq_iff.1 hboard
  obtain ⟨hresource, hrevision, -, -⟩ := LeaseList.mk.inj hlist
  have hcollect : (Lease.collect first.leases).map (List.map Lease.bare) =
      (Lease.collect second.leases).map (List.map Lease.bare) := by
    rw [← Lease.map_bare_collect, hlist, Lease.map_bare_collect]
  have hadvance : a.advance first = b.advance second := by
    simp only [advance, hrevisions, hresource, hrevision]
  obtain ⟨failure, hfirst, hsecond⟩ | ⟨leases, others, hfirst, hsecond, hbare⟩ :=
    Except.cases_of_map_eq hcollect
  · simp only [applyLeases, hfirst, hsecond]
    rfl
  · simp only [applyLeases, hfirst, hsecond, hadvance]
    cases b.advance second with
    | error failure => rfl
    | ok revisions =>
      have hreported : (a.report first).1.mapValues Policy.bare =
          (b.report second).1.mapValues Policy.bare := by
        rw [← (a.report_bare first).1, hboard, hlist, (b.report_bare second).1]
      have hupdated : (a.leases.update first.resource leases now).2.mapValues Lease.bare =
          (b.leases.update second.resource others now).2.mapValues Lease.bare := by
        rw [← Roster.update_bare, hroster, hbare, hresource, Roster.update_bare]
      have hsent : Instruction.outlines ((a.report first).2 ++
            (a.leases.update first.resource leases now).1.instructions) =
          Instruction.outlines ((b.report second).2 ++
            (b.leases.update second.resource others now).1.instructions) := by
        rw [Instruction.outlines_append, Instruction.outlines_append, ← (a.report_bare first).2,
          hboard, hlist, (b.report_bare second).2, ← Roster.outlines_update_bare, hroster, hbare,
          hresource, Roster.outlines_update_bare]
      exact congrArg Except.ok
        (Prod.ext (bare_eq_iff.2 ⟨rfl, hupdated, hreported, hconnection⟩) hsent)

/-- Events that differ in appearance alone, on boards that do so, are turned down for the same cause, or
applied with the same outline. -/
theorem apply_congr (hboard : a.bare = b.bare) {first second : Event}
    (hevent : first.bare = second.bare) (now : Instant) :
    (a.apply first now).map bareApplied = (b.apply second now).map bareApplied := by
  have hchange : (a.change now first).map bareApplied = (b.change now second).map bareApplied := by
    cases first with
    | policies list =>
      cases second with
      | policies other => exact applyPolicies_congr hboard (Event.policies.inj hevent)
      | leases other => cases hevent
    | leases list =>
      cases second with
      | policies other => cases hevent
      | leases other => exact applyLeases_congr hboard (Event.leases.inj hevent) now
  rw [apply_eq, apply_eq]
  obtain ⟨failure, hfirst, hsecond⟩ | ⟨one, other, hfirst, hsecond, hbare⟩ :=
    Except.cases_of_map_eq hchange
  · rw [hfirst, hsecond]
  · obtain ⟨hone, hsent⟩ := Prod.mk.inj hbare
    rw [hfirst, hsecond]
    refine congrArg Except.ok ?_
    rw [reconnect_bare, reconnect_bare, hone, hsent]

theorem tick_bare (b : Board) (now : Instant) :
    b.bare.tick now = ((b.tick now).1.bare, (b.tick now).2) := by
  have hexpire : b.bare.leases.expire now = _ := Roster.expire_bare b.leases now
  simp only [tick, expire, hexpire]
  rfl

/-- What a step does without appearance depends on what it is, and on what the board is, without
appearance. -/
theorem bare_step_congr (hboard : a.bare = b.bare) {s t : Step} (hstep : s.bare = t.bare) :
    (a.step s).bare = (b.step t).bare := by
  cases s with
  | event first now =>
    cases t with
    | event second later =>
      obtain ⟨hevent, rfl⟩ := Step.event.inj hstep
      obtain ⟨failure, hfirst, hsecond⟩ | ⟨one, other, hfirst, hsecond, hbare⟩ :=
        Except.cases_of_map_eq (apply_congr hboard hevent now)
      · simp only [step, hfirst, hsecond, Outcome.bare, hboard]
      · obtain ⟨hone, hsent⟩ := Prod.mk.inj hbare
        simp only [step, hfirst, hsecond, Outcome.bare, hone, Except.map, hsent]
    | interruption reason => cases hstep
    | tick later => cases hstep
  | interruption reason =>
    cases t with
    | event second later => cases hstep
    | interruption other =>
      obtain rfl := Step.interruption.inj hstep
      obtain ⟨hrevisions, hroster, hbook, -⟩ := bare_eq_iff.1 hboard
      exact congrArg (Outcome.mk · _) (bare_eq_iff.2 ⟨hrevisions, hroster, hbook, rfl⟩)
    | tick later => cases hstep
  | tick now =>
    cases t with
    | event second later => cases hstep
    | interruption other => cases hstep
    | tick later =>
      obtain rfl := Step.tick.inj hstep
      have htick := (tick_bare a now).symm.trans ((congrArg (tick · now) hboard).trans (tick_bare b now))
      obtain ⟨hafter, hsent⟩ := Prod.mk.inj htick
      simp only [step, Outcome.bare, hafter, hsent]

theorem bare_run_congr (hboard : a.bare = b.bare) {first second : List Step}
    (h : first.map Step.bare = second.map Step.bare) : (a.run first).bare = (b.run second).bare := by
  induction first generalizing a b second with
  | nil =>
    obtain rfl := List.map_eq_nil_iff.1 h.symm
    exact hboard
  | cons s rest ih =>
    obtain ⟨t, others, rfl, hstep, hrest⟩ := List.map_eq_cons_iff.1 h.symm
    have hnext := bare_step_congr hboard hstep.symm
    exact ih (congrArg Outcome.board hnext) hrest.symm

theorem outlines_results_congr (hboard : a.bare = b.bare) {first second : List Step}
    (h : first.map Step.bare = second.map Step.bare) :
    (a.results first).map (Except.map Instruction.outlines) =
      (b.results second).map (Except.map Instruction.outlines) := by
  induction first generalizing a b second with
  | nil =>
    obtain rfl := List.map_eq_nil_iff.1 h.symm
    rfl
  | cons s rest ih =>
    obtain ⟨t, others, rfl, hstep, hrest⟩ := List.map_eq_cons_iff.1 h.symm
    have hnext := bare_step_congr hboard hstep.symm
    rw [results, results, List.map_cons, List.map_cons, ih (congrArg Outcome.board hnext) hrest.symm]
    exact congrArg (· :: _) (congrArg Outcome.result hnext)

end Board

/-- Two histories differ in nothing but the properties of leases and policies and in the users and hosts
of instances.  From one board, step by step, the same events are turned down for the same causes, the
instructions of both have the same outlines, and the boards after any number of steps are the same but for
the columns that properties, users and hosts may fill. -/
theorem appearance_never_matters (b : Board) {first second : List Board.Step}
    (h : first.map Board.Step.bare = second.map Board.Step.bare) :
    (b.results first).map (Except.map Instruction.outlines) =
        (b.results second).map (Except.map Instruction.outlines) ∧
      ∀ n, (b.run (first.take n)).bare = (b.run (second.take n)).bare := by
  refine ⟨Board.outlines_results_congr rfl h, fun n => Board.bare_run_congr rfl ?_⟩
  rw [List.map_take, h, List.map_take]

/-- A policy, a released lease of a user, and the clock at an instant by which the lease has expired.  The
process that holds the lease began at a given time. -/
def releasedByUser (creation user program : String) : List Board.Step :=
  [.event (.policies ⟨[⟨some "gpu", none, 4, some (.ofList [("program.name", program)])⟩]⟩) (atSecond 1),
    .event (.leases ⟨some "gpu", some 1,
      [{ releasedEntry "a" "gpu" with
        holder := some ⟨some "a", some user, none⟩
        properties := some (.ofList [("process.creation", creation)]) }], none⟩) (atSecond 2),
    .tick (atSecond 6)]

/-- Of two processes one began after the release, and the time of the other cannot be read: both leases
expire when the release says so. -/
theorem appearance_never_matters_of_process :
    let first := releasedByUser "1970-01-01T00:00:03Z" "ann" "solver"
    let second := releasedByUser "long ago" "bob" "mesher"
    ((Board.empty.run (first.take 2)).leases.get? "a").map Lease.started = some (some (atSecond 3)) ∧
      ((Board.empty.run (second.take 2)).leases.get? "a").map Lease.started = some none ∧
      (Board.empty.run first).leases.keys = [] ∧
      first.map Board.Step.bare = second.map Board.Step.bare ∧
      (Board.empty.results first).map (Except.map Instruction.outlines) =
        (Board.empty.results second).map (Except.map Instruction.outlines) ∧
      ∀ n, (Board.empty.run (first.take n)).bare = (Board.empty.run (second.take n)).bare :=
  ⟨by decide, by decide, by decide, by decide, appearance_never_matters Board.empty (by decide)⟩

end LeaseBoard
