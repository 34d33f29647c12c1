import LeaseBoard.Proofs.Ageing
import LeaseBoard.Proofs.Banner
import LeaseBoard.Proofs.Verdict
set_option autoImplicit false

/-!
# What a worker survives

A worker takes whatever a stream brings, and turns down what it cannot apply.  One thing ends it: a list
of leases in which the end of a lease is outside the calendar.  The entries of a list are read in order,
so a bad entry before that one turns the list down instead.

`LeaseEntry.EndsOutside` says field by field when that is so, for an entry whose lease does have an end;
`LeaseEntry.EndsAt` is its counterpart.  Main statement: `survives_iff_within_calendar`.
-/

namespace LeaseBoard

open LeaseBoard.Feed

/-! ## Ends outside the calendar -/

namespace LeaseEntry

/-- An active lease runs over: from the instant that it runs from, its duration leads out of the
calendar, or its duration does not and its decay after that does. -/
inductive RunsOver (entry : LeaseEntry) : Prop
  | duration {t : Instant} (hfrom : entry.RunsFrom t)
      (hduration : t.add? entry.duration.toInt = none) : RunsOver entry
  | decay {t ended : Instant} (hfrom : entry.RunsFrom t)
      (hduration : t.add? entry.duration.toInt = some ended)
      (hdecay : ended.add? entry.decay.toInt = none) : RunsOver entry

/-- The end of a lease is outside the calendar: it is active and runs over, or it was released and its
decay leads out of the calendar, or it was released at an instant that is not set and runs over. -/
inductive EndsOutside (entry : LeaseEntry) : Prop
  | active (hstatus : entry.status = "active") (hover : entry.RunsOver) : EndsOutside entry
  | released {t : Instant} (hstatus : entry.status = "released")
      (hreleased : Instant.IsSet entry.released t)
      (hdecay : t.add? entry.decay.toInt = none) : EndsOutside entry
  | unreleased (hstatus : entry.status = "released") (hreleased : Instant.IsUnset entry.released)
      (hover : entry.RunsOver) : EndsOutside entry

end LeaseEntry

theorem Instant.addSpan_eq_error_iff {t : Instant} {span : Int64} :
    t.addSpan span = .error .outOfCalendar ↔ t.add? span.toInt = none := by
  unfold addSpan
  cases t.add? span.toInt <;> simp

namespace LeaseEntry

variable {entry : LeaseEntry}

theorem nominalExpiry_eq_error_iff :
    nominalExpiry entry.lastRenewal entry.duration entry.decay = .error .outOfCalendar ↔
      entry.RunsOver := by
  constructor
  · intro h
    cases hrenewal : entry.lastRenewal with
    | none => rw [hrenewal] at h; cases h
    | some t =>
      rw [hrenewal] at h
      have hfrom := lastRenewal_eq_some_iff.1 hrenewal
      rcases Except.bind_eq_error h with hduration | ⟨ended, hended, h⟩
      · exact .duration hfrom (Instant.addSpan_eq_error_iff.1 hduration)
      · rcases Except.bind_eq_error h with hdecay | ⟨final, -, h⟩
        · exact .decay hfrom (Instant.addSpan_eq_ok_iff.1 hended)
            (Instant.addSpan_eq_error_iff.1 hdecay)
        · cases h
  · intro h
    cases h with
    | duration hfrom hduration =>
      rw [lastRenewal_eq_some_iff.2 hfrom, nominalExpiry, Instant.addSpan_eq_error_iff.2 hduration]
      rfl
    | decay hfrom hduration hdecay =>
      rw [lastRenewal_eq_some_iff.2 hfrom, nominalExpiry, Instant.addSpan_eq_ok_iff.2 hduration]
      simp only [bind, Except.bind, Instant.addSpan_eq_error_iff.2 hdecay]

/-- The expiry of an entry cannot be computed exactly if the end of its lease is outside the calendar. -/
theorem expiryOf_eq_error_iff :
    expiryOf (Status.ofName entry.status) entry.lastRenewal (setInstant? entry.released)
        entry.duration entry.decay = .error .outOfCalendar ↔ entry.EndsOutside := by
  constructor
  · intro h
    unfold Status.ofName at h
    split at h
    case isTrue hstatus => exact .active hstatus (nominalExpiry_eq_error_iff.1 h)
    case isFalse =>
      split at h
      case isTrue hstatus =>
        cases hreleased : setInstant? entry.released with
        | none =>
          rw [hreleased] at h
          exact .unreleased hstatus (setInstant?_eq_none_iff.1 hreleased)
            (nominalExpiry_eq_error_iff.1 h)
        | some t =>
          rw [hreleased] at h
          have hdecay : t.addSpan entry.decay = .error .outOfCalendar := by
            cases hadd : t.addSpan entry.decay with
            | error failure => rw [Instant.addSpan_eq_error hadd]
            | ok final => simp only [expiryOf, hadd] at h; cases h
          exact .released hstatus (setInstant?_eq_some_iff.1 hreleased)
            (Instant.addSpan_eq_error_iff.1 hdecay)
      case isFalse => split at h <;> cases h
  · intro h
    cases h with
    | active hstatus hover =>
      rw [hstatus]
      exact nominalExpiry_eq_error_iff.2 hover
    | released hstatus hreleased hdecay =>
      rw [hstatus, setInstant?_eq_some_iff.2 hreleased]
      exact congrArg (Except.map some) (Instant.addSpan_eq_error_iff.2 hdecay)
    | unreleased hstatus hreleased hover =>
      rw [hstatus, setInstant?_eq_none_iff.2 hreleased]
      exact nominalExpiry_eq_error_iff.2 hover

end LeaseEntry

namespace Lease

/-- An entry is out of the calendar exactly if it has no fault and the end of its lease is outside. -/
theorem ofEntry_eq_outOfCalendar_iff {entry : LeaseEntry} :
    ofEntry entry = .error .outOfCalendar ↔ entry.fault? = none ∧ entry.EndsOutside := by
  cases hfault : entry.fault? with
  | some cause =>
    rw [ofEntry_of_fault hfault]
    simp
  | none =>
    rw [← LeaseEntry.expiryOf_eq_error_iff]
    unfold LeaseEntry.fault? at hfault
    unfold ofEntry
    cases hid : entry.id? with
    | none => simp only [hid] at hfault; cases hfault
    | some id =>
      cases hresource : entry.resource? with
      | none => simp only [hid, hresource] at hfault; cases hfault
      | some resource =>
        simp only [Except.map_eq_error_iff, true_and]

end Lease

/-- Entries leave the calendar: the end of one of the leases is outside, and neither its entry nor any
before it has a fault. -/
inductive LeaseEntry.LeaveCalendar : List LeaseEntry → Prop
  | here {entry : LeaseEntry} (hfault : entry.fault? = none) (houtside : entry.EndsOutside)
      (rest : List LeaseEntry) : LeaveCalendar (entry :: rest)
  | later {entry : LeaseEntry} {rest : List LeaseEntry} (hfault : entry.fault? = none)
      (hrest : LeaveCalendar rest) : LeaveCalendar (entry :: rest)

namespace Lease

theorem mapM_ofEntry_eq_outOfCalendar_iff {entries : List LeaseEntry} :
    entries.mapM ofEntry = .error .outOfCalendar ↔ LeaseEntry.LeaveCalendar entries := by
  induction entries with
  | nil => exact ⟨fun h => (nomatch h), fun h => (nomatch h)⟩
  | cons entry rest ih =>
    rw [List.mapM_cons]
    constructor
    · intro h
      rcases Except.bind_eq_error h with hentry | ⟨lease, hlease, h⟩
      · obtain ⟨hfault, houtside⟩ := ofEntry_eq_outOfCalendar_iff.1 hentry
        exact .here hfault houtside rest
      · -- The entry makes a lease, so it has no fault.
        have hfault : entry.fault? = none := by
          cases hfault : entry.fault? with
          | none => rfl
          | some cause => exact nomatch hlease.symm.trans (ofEntry_of_fault hfault)
        rcases Except.bind_eq_error h with hrest | ⟨leases, -, h⟩
        · exact .later hfault (ih.1 hrest)
        · cases h
    · intro h
      cases h with
      | here hfault houtside rest => rw [ofEntry_eq_outOfCalendar_iff.2 ⟨hfault, houtside⟩]; rfl
      | later hfault hrest =>
        rcases ofEntry_of_no_fault hfault with ⟨lease, hlease⟩ | hcalendar
        · rw [hlease, ih.2 hrest]
          rfl
        · rw [hcalendar]
          rfl

theorem collect_eq_outOfCalendar_iff {entries : List LeaseEntry} :
    collect entries = .error .outOfCalendar ↔ LeaseEntry.LeaveCalendar entries :=
  Except.map_eq_error_iff.trans mapM_ofEntry_eq_outOfCalendar_iff

end Lease

/-! ## Steps outside the calendar -/

/-- A policy entry is turned down or makes a policy: a policy has no end. -/
theorem Policy.rejected_of_collect {entries : List PolicyEntry} {failure : Failure}
    (h : collect entries = .error failure) : ∃ cause, failure = .rejected cause := by
  obtain ⟨entry, -, hentry⟩ := Except.exists_of_mapM_eq_error (Except.map_eq_error_iff.1 h)
  unfold ofEntry at hentry
  split at hentry
  · exact ⟨_, (Except.error.inj hentry).symm⟩
  · cases hentry

/-- A lease entry is turned down, or its lease ends outside the calendar, or it makes a lease. -/
theorem Lease.rejected_or_of_collect {entries : List LeaseEntry} {failure : Failure}
    (h : collect entries = .error failure) :
    (∃ cause, failure = .rejected cause) ∨ failure = .outOfCalendar := by
  obtain ⟨entry, -, hentry⟩ := Except.exists_of_mapM_eq_error (Except.map_eq_error_iff.1 h)
  cases hfault : entry.fault? with
  | some cause =>
    rw [ofEntry_of_fault hfault] at hentry
    exact Or.inl ⟨cause, (Except.error.inj hentry).symm⟩
  | none =>
    rcases ofEntry_of_no_fault hfault with ⟨lease, hlease⟩ | hcalendar
    · exact nomatch hlease.symm.trans hentry
    · exact Or.inr (Except.error.inj (hentry.symm.trans hcalendar))

/-- An event leaves the calendar if it is a list of leases that does. -/
def Event.LeavesCalendar : Event → Prop
  | .policies _ => False
  | .leases list => LeaseEntry.LeaveCalendar list.leases

/-- A step leaves the calendar if it brings a frame of an event that does. -/
def Session.Step.LeavesCalendar : Session.Step → Prop
  | .receive (.frame frame) _ =>
    ∃ event, Event.decode frame.event frame.data = .ok (some event) ∧ event.LeavesCalendar
  | .receive (.interrupted _) _ => False
  | .tick _ => False

namespace Board

variable (b : Board) {event : Event}

/-- An event that leaves the calendar fails, whatever the board. -/
theorem verdict_of_leavesCalendar (h : event.LeavesCalendar) :
    b.verdict event = .error .outOfCalendar := by
  cases event with
  | policies list => exact h.elim
  | leases list => rw [verdict, Lease.collect_eq_outOfCalendar_iff.2 h]; rfl

/-- Any other event is applied or turned down with a cause. -/
theorem goesOn_verdict (h : ¬ event.LeavesCalendar) : Failure.goesOn (b.verdict event) = true := by
  cases event with
  | policies list =>
    rw [verdict]
    cases hcollect : Policy.collect list.policies with
    | ok policies => rfl
    | error failure =>
      obtain ⟨cause, rfl⟩ := Policy.rejected_of_collect hcollect
      rfl
  | leases list =>
    rw [verdict]
    cases hcollect : Lease.collect list.leases with
    | error failure =>
      rcases Lease.rejected_or_of_collect hcollect with ⟨cause, rfl⟩ | rfl
      · rfl
      · exact absurd (Lease.collect_eq_outOfCalendar_iff.1 hcollect) h
    | ok leases =>
      -- Once there are leases, only a stale revision is left to turn the list down.
      cases hadvance : b.advance list with
      | ok revisions => simp only [Except.bind]; rfl
      | error failure =>
        obtain ⟨resource, n, last, -, -, -, rfl⟩ := advance_eq_error_iff.1 hadvance
        simp only [Except.bind]
        rfl

end Board

namespace Session

variable (s : Session) {x : Session.Step}

/-- A step that leaves the calendar fails and changes nothing. -/
theorem step_of_leavesCalendar (h : x.LeavesCalendar) :
    s.step x = ⟨s, [], .error .outOfCalendar⟩ := by
  cases x with
  | tick now => exact h.elim
  | receive signal now =>
    cases signal with
    | interrupted reason => exact h.elim
    | frame frame =>
      obtain ⟨event, hdecode, hevent⟩ := h
      refine receive_frame_of_error s now ?_
      rw [receive_event s now hdecode]
      exact (s.board.map_result_event event now).trans (s.board.verdict_of_leavesCalendar hevent)

/-- After any other step things go on. -/
theorem goesOn_step (h : ¬ x.LeavesCalendar) : Failure.goesOn (s.step x).result = true := by
  cases x with
  | tick now => rfl
  | receive signal now =>
    cases signal with
    | interrupted reason => rfl
    | frame frame =>
      rw [step]
      cases hdecode : Event.decode frame.event frame.data with
      | error cause => rw [receive_undecodable s now hdecode]; rfl
      | ok decoded =>
        cases decoded with
        | none => rw [receive_ignored s now hdecode]; rfl
        | some event =>
          have hevent : ¬ event.LeavesCalendar := fun hleaves => h ⟨event, hdecode, hleaves⟩
          rw [receive_event s now hdecode]
          exact (s.board.map_result_event event now).symm ▸ s.board.goesOn_verdict hevent

/-- Things go on after a step unless it leaves the calendar. -/
theorem goesOn_step_iff (x : Session.Step) :
    Failure.goesOn (s.step x).result = true ↔ ¬ x.LeavesCalendar := by
  refine ⟨fun hgoes h => ?_, s.goesOn_step⟩
  rw [s.step_of_leavesCalendar h] at hgoes
  cases hgoes

end Session

/-! ## Workers -/

/-- The turn of a worker that a step is. -/
def Session.Step.turn : Session.Step → Turn
  | .receive signal now => .signal signal now
  | .tick now => .tick now

theorem Failure.goesOn_iff {result : Except Failure Unit} :
    goesOn result = true ↔ result = .ok () ∨ ∃ cause, result = .error (.rejected cause) := by
  cases result with
  | ok _ => simp [goesOn]
  | error failure => cases failure <;> simp [goesOn]

namespace Worker

/-- A worker survives what a stream brings beside the clock.  Every signal is taken, and it is applied,
passed over or turned down with a cause; together they do what they do to a session.  At the end of the
stream the worker shows that it is closed. -/
structure Survives (w : Worker) (steps : List Session.Step) : Prop where
  taken : ∀ entry ∈ w.record (steps.map Session.Step.turn),
    entry.2 = some (.ok ()) ∨ ∃ cause, entry.2 = some (.error (.rejected cause))
  session : (w.run (steps.map Session.Step.turn)).relay.session = w.relay.session.run steps
  closed : (w.run (steps.map Session.Step.turn ++ [.closing])).Closed

/-- A worker takes a step as a session does, and stops where things do not go on. -/
theorem take_turn (r : Relay) (x : Session.Step) :
    (⟨r, true⟩ : Worker).take x.turn =
      (⟨r.after (r.session.step x), Failure.goesOn (r.session.step x).result⟩,
        some (r.session.step x).result) := by
  cases x with
  | tick now => simp only [Session.Step.turn, take, perform, InPlace.run_tick]; rfl
  | receive signal now => simp only [Session.Step.turn, take, perform_receive, if_true]; rfl

/-- A step that leaves the calendar ends a worker, which has done nothing in it. -/
theorem take_of_leavesCalendar (r : Relay) {x : Session.Step} (h : x.LeavesCalendar) :
    (⟨r, true⟩ : Worker).take x.turn = (⟨r, false⟩, some (.error .outOfCalendar)) := by
  rw [take_turn, r.session.step_of_leavesCalendar h]
  simp [Relay.after, Failure.goesOn]

/-- Every turn has a result after which things go on exactly if no step leaves the calendar. -/
theorem goesOn_record_iff (r : Relay) (steps : List Session.Step) :
    (∀ entry ∈ (⟨r, true⟩ : Worker).record (steps.map Session.Step.turn),
      entry.2 = some (.ok ()) ∨ ∃ cause, entry.2 = some (.error (.rejected cause))) ↔
      ∀ x ∈ steps, ¬ x.LeavesCalendar := by
  induction steps generalizing r with
  | nil => simp [record]
  | cons x rest ih =>
    have hfirst : (some (r.session.step x).result = some (.ok ()) ∨
        ∃ cause, some (r.session.step x).result = some (.error (.rejected cause))) ↔
          ¬ x.LeavesCalendar := by
      simp only [Option.some.injEq, ← Failure.goesOn_iff, Session.goesOn_step_iff]
    rw [List.map_cons, record, take_turn, List.forall_mem_cons, List.forall_mem_cons, hfirst]
    refine and_congr_right fun hx => ?_
    rw [(r.session.goesOn_step_iff x).2 hx]
    exact ih _

/-- A worker that meets nothing outside the calendar goes on, and has done what a session does. -/
theorem run_turns (r : Relay) {steps : List Session.Step} (h : ∀ x ∈ steps, ¬ x.LeavesCalendar) :
    ((⟨r, true⟩ : Worker).run (steps.map Session.Step.turn)).running = true ∧
      ((⟨r, true⟩ : Worker).run (steps.map Session.Step.turn)).relay.session =
        r.session.run steps := by
  induction steps generalizing r with
  | nil => exact ⟨rfl, rfl⟩
  | cons x rest ih =>
    obtain ⟨hx, hrest⟩ := List.forall_mem_cons.1 h
    rw [List.map_cons, run_cons, take_turn, (r.session.goesOn_step_iff x).2 hx]
    exact ih _ hrest

end Worker

/-- A worker survives a stream, at whatever instants its signals come and with any beats of the clock in
between, exactly if nothing that it brings leaves the calendar.  An entry of a lease does so exactly if it
has no fault and the end of the lease is outside. -/
theorem survives_iff_within_calendar (r : Relay) (steps : List Session.Step) :
    ((⟨r, true⟩ : Worker).Survives steps ↔ ∀ x ∈ steps, ¬ x.LeavesCalendar) ∧
      ∀ entry : LeaseEntry, Lease.ofEntry entry = .error .outOfCalendar ↔
        entry.fault? = none ∧ entry.EndsOutside := by
  refine ⟨⟨fun h => ?_, fun h => ?_⟩, fun entry => Lease.ofEntry_eq_outOfCalendar_iff⟩
  · exact (Worker.goesOn_record_iff r steps).1 h.taken
  · obtain ⟨hrunning, hsession⟩ := Worker.run_turns r h
    exact ⟨(Worker.goesOn_record_iff r steps).2 h, hsession, Worker.closed_run hrunning []⟩

/-- The last second of the calendar. -/
def lastSecond : Instant := atSecond 8_210_266_876_799

/-- A lease that was released in the last second of the calendar, and is to decay after that, ends the
worker: what comes next is not taken, and the end of the stream is not shown. -/
theorem worker_stops_outside_calendar :
    let frame : Frame :=
      ⟨"leases",
        "\x7b\"leases\":[\x7b\"instance\":\x7b\"id\":\"a\"\x7d,\"resource\":\"gpu\",\"status\":\"released\",\"released\":\"+262142-12-31T23:59:59Z\",\"decay\":5000000000\x7d]\x7d",
        none, none⟩
    let entry : LeaseEntry := { releasedEntry "a" "gpu" with released := some lastSecond }
    let w : Worker := ⟨⟨.empty, []⟩, true⟩
    let turns : List Turn :=
      [.signal (.frame frame) (atSecond 1), .signal (.interrupted "reset") (atSecond 2), .closing]
    Event.decode frame.event frame.data = .ok (some (.leases ⟨none, none, [entry], none⟩)) ∧
      Lease.ofEntry entry = .error .outOfCalendar ∧
      (w.record turns).map Prod.snd = [some (.error .outOfCalendar), none, none] ∧
      (w.run turns).relay.session.display.connection = .connected := by
  intro frame entry w turns
  have hdecode : Event.decode frame.event frame.data =
      .ok (some (.leases ⟨none, none, [entry], none⟩)) := by
    let lease : Json.Value := .object
      [(some "instance", .object [(some "id", .ofText "a")]), (some "resource", .ofText "gpu"),
        (some "status", .ofText "released"), (some "released", .ofText "+262142-12-31T23:59:59Z"),
        (some "decay", .ofInt64 5_000_000_000)]
    have hdata : frame.data.toList = (Json.Value.object [(some "leases", .array [lease])]).render := by
      decide +kernel
    exact (Event.decode_of_render rfl hdata).trans rfl
  clear_value frame
  have hfault : entry.fault? = none := by rfl
  have houtside : entry.EndsOutside := .released rfl ⟨rfl, by decide⟩ (by decide)
  have hentry := Lease.ofEntry_eq_outOfCalendar_iff.2 ⟨hfault, houtside⟩
  have hleaves : (Session.Step.receive (.frame frame) (atSecond 1)).LeavesCalendar :=
    ⟨_, hdecode, .here hfault houtside []⟩
  have htake : w.take (.signal (.frame frame) (atSecond 1)) = _ :=
    Worker.take_of_leavesCalendar w.relay hleaves
  refine ⟨hdecode, hentry, ?_, ?_⟩
  · simp only [turns, Worker.record, htake]
    rfl
  · simp only [turns, Worker.run_cons, htake]
    rfl

end LeaseBoard
