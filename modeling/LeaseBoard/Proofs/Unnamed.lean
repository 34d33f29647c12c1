import LeaseBoard.Proofs.Reconciliation
import LeaseBoard.Proofs.WellFormed
set_option autoImplicit false

/-!
# Lists that name no resource

A list of leases names no resource if it gives none or the empty text.  No lease and no policy is of the
empty resource, so the two do the same to leases and policies: nothing goes for being left out, and no
statistics arrive.  They differ in their revisions.  Where no resource is given, the revision is not
looked at; the empty text is a resource of its own among the revisions, and a list that gives it is stale
when its revision is not above those that came before under the empty text.

Main statement: `unnamed_lists_alike_unless_overtaken`.
-/

namespace LeaseBoard

/-- Tests that agree on the rows of a table keep the same rows. -/
theorem Keyed.filter_congr {α : Type} {t : Keyed α} {keep other : String → α → Bool}
    (h : ∀ key row, t.get? key = some row → keep key row = other key row) :
    t.filter keep = t.filter other := by
  refine Keyed.ext fun key => ?_
  rw [get?_filter, get?_filter]
  cases hrow : t.get? key with
  | none => rfl
  | some row => rw [Option.filter, Option.filter, h key row hrow]

/-- Where no lease is of the empty resource, its scope is that of no resource. -/
theorem Roster.update_empty {roster : Roster} (leases : List Lease) (now : Instant)
    (h : ∀ id lease, roster.get? id = some lease → lease.resource ≠ "") :
    roster.update (some "") leases now = roster.update none leases now := by
  have hscope : ∀ id lease, roster.get? id = some lease →
      goes (some "") leases now id lease = goes none leases now id lease := by
    intro id lease hlease
    simp [goes, inScope, (h id lease hlease).symm]
  have hgone := Keyed.filter_congr hscope
  have hkept : (roster.filter fun id lease => !goes (some "") leases now id lease) =
      roster.filter fun id lease => !goes none leases now id lease :=
    Keyed.filter_congr fun id lease hlease => congrArg not (hscope id lease hlease)
  rw [update_eq, update_eq, Change.between, Keyed.merge, hgone, hkept]
  rfl

namespace Board

variable {b : Board} {list : LeaseList} {leases : List Lease}

/-- Statistics find no policy under the empty resource. -/
theorem report_empty (h : b.Named) (list : LeaseList) :
    b.report { list with resource := some "" } = (b.policies, []) := by
  obtain hnone | ⟨resource, statistics, policy, book, hresource, -, hreport, -⟩ :=
    b.report_cases { list with resource := some "" }
  · exact hnone
  · cases hresource
    rw [Book.report, h.policies] at hreport
    cases hreport

/-- What a list that names no resource makes of a board when it is let in, and what it sends: its
leases are put on the roster, and an interruption ends. -/
def enterUnscoped (b : Board) (leases : List Lease) (now : Instant) : Board × List Instruction :=
  ({ b with leases := (b.leases.update none leases now).2 } : Board).reconnect
    (b.leases.update none leases now).1.instructions

/-- A list of good entries without a resource is applied, whatever its revision. -/
theorem apply_none (hcollect : Lease.collect list.leases = .ok leases) (now : Instant) :
    b.apply (.leases { list with resource := none }) now = .ok (b.enterUnscoped leases now) := by
  simp only [apply, applyLeases, hcollect]
  rfl

/-- A list of good entries that gives the empty text does the same, and keeps its revision, if that is
let in. -/
theorem apply_empty (h : b.Named) (hcollect : Lease.collect list.leases = .ok leases)
    (now : Instant) :
    b.apply (.leases { list with resource := some "" }) now =
      (b.advance { list with resource := some "" }).map fun revisions =>
        ({ (b.enterUnscoped leases now).1 with revisions := revisions },
          (b.enterUnscoped leases now).2) := by
  simp only [apply, applyLeases, hcollect, report_empty h, bind, Except.bind,
    Roster.update_empty leases now h.leases]
  cases b.advance { list with resource := some "" } with
  | error failure => rfl
  | ok revisions =>
    simp only [Except.map, enterUnscoped, reconnect, List.nil_append]
    split <;> rfl

/-- A list that names no resource changes no lease but those that it lists, and tells of no policy. -/
theorem enterUnscoped_spares (hcollect : Lease.collect list.leases = .ok leases) (now : Instant) :
    (b.enterUnscoped leases now).1.revisions = b.revisions ∧
      (b.enterUnscoped leases now).1.policies = b.policies ∧
      (∀ id, (∀ entry ∈ list.leases, entry.id? ≠ some id) →
        (b.enterUnscoped leases now).1.leases.get? id = b.leases.get? id) ∧
      ∀ i ∈ (b.enterUnscoped leases now).2, i.table? ≠ some .policies := by
  rw [enterUnscoped, reconnect_fst, reconnect_snd]
  refine ⟨rfl, rfl, fun id hunlisted => ?_, fun i hi => ?_⟩
  · have hnone := LeaseList.entry?_eq_none_iff.2 hunlisted
    exact b.leases.get?_update_of_other none hcollect now hnone fun _ _ => nofun
  · rcases List.mem_append.1 hi with hi | hi
    · split at hi
      · cases hi
      · rw [List.mem_singleton.1 hi]
        exact nofun
    · rw [Change.table?_of_mem_instructions hi]
      exact nofun

/-- Of the revisions a list that gives the empty text changes the one under the empty text. -/
theorem last?_of_advance_empty {revisions : Revisions}
    (h : b.advance { list with resource := some "" } = .ok revisions) :
    revisions.last? "" = (list.revision.filter (· ≠ 0)).or (b.revisions.last? "") ∧
      ∀ resource, resource ≠ "" → revisions.last? resource = b.revisions.last? resource := by
  refine ⟨?_, fun resource hne => ?_⟩
  · rw [last?_of_advance h, LeaseList.announced?, if_pos rfl]
  · rw [last?_of_advance h, LeaseList.announced?, if_neg fun heq => hne (Option.some.inj heq).symm,
      Option.none_or]

end Board

/-- A list of good entries may come without a resource or with the empty one.  Without one it is always
applied: it changes no revision and no policy, and no lease that it does not list.  With the empty one
it is stale exactly if its revision is not above the greatest that was applied under the empty text
before, and else it does the same as without, and leaves its revision under the empty text. -/
theorem unnamed_lists_alike_unless_overtaken (steps : List Board.Step) {list : LeaseList}
    (hgood : ∀ entry ∈ list.leases, entry.Good) (now : Instant) :
    let b := Board.empty.run steps
    ∃ after sent, b.apply (.leases { list with resource := none }) now = .ok (after, sent) ∧
      after.revisions = b.revisions ∧ after.policies = b.policies ∧
      (∀ i ∈ sent, i.table? ≠ some .policies) ∧
      (∀ id, (∀ entry ∈ list.leases, entry.id? ≠ some id) →
        after.leases.get? id = b.leases.get? id) ∧
      (∀ failure, b.apply (.leases { list with resource := some "" }) now = .error failure ↔
        ∃ n last, list.revision = some n ∧ n ≠ 0 ∧
          LeaseList.greatest? (Board.accepted (Board.empty.verdicts steps)) "" = some last ∧
          n ≤ last ∧ failure = .rejected (.stale "" n last)) ∧
      ∀ result, b.apply (.leases { list with resource := some "" }) now = .ok result →
        ∃ revisions, result = ({ after with revisions := revisions }, sent) ∧
          revisions.last? "" = (list.revision.filter (· ≠ 0)).or (b.revisions.last? "") ∧
          ∀ resource, resource ≠ "" → revisions.last? resource = b.revisions.last? resource := by
  intro b
  have hnamed : b.Named := .of_run steps
  have hgreatest : b.revisions.last? "" =
      LeaseList.greatest? (Board.accepted (Board.empty.verdicts steps)) "" :=
    (Board.last?_run_accepted .empty steps "").trans Option.merge_none_left
  obtain ⟨leases, hcollect⟩ := Lease.exists_collect_eq_ok_iff.2 hgood
  obtain ⟨hrevisions, hpolicies, hleases, hsent⟩ := b.enterUnscoped_spares hcollect now
  refine ⟨_, _, Board.apply_none hcollect now, hrevisions, hpolicies, hsent, hleases,
    fun failure => ?_, fun result hresult => ?_⟩
  · rw [Board.apply_empty hnamed hcollect, Except.map_eq_error_iff, Board.advance_eq_error_iff,
      ← hgreatest]
    simp only [LeaseList.announced?_eq_some_iff]
    constructor
    · rintro ⟨resource, n, last, ⟨hresource, hrevision, hne⟩, hlast, hle, rfl⟩
      obtain rfl := Option.some.inj hresource
      exact ⟨n, last, hrevision, hne, hlast, hle, rfl⟩
    · rintro ⟨n, last, hrevision, hne, hlast, hle, rfl⟩
      exact ⟨"", n, last, ⟨rfl, hrevision, hne⟩, hlast, hle, rfl⟩
  · rw [Board.apply_empty hnamed hcollect] at hresult
    obtain ⟨revisions, hadvance, rfl⟩ := Except.map_eq_ok hresult
    exact ⟨revisions, rfl, Board.last?_of_advance_empty hadvance⟩

/-- Lists of one new lease each come without a resource and with the empty one, and the lease that was
there stays. -/
theorem unnamed_lists_alike_unless_overtaken_newer :
    let earlier : LeaseList := ⟨some "", some 5, [releasedEntry "a" "gpu"], none⟩
    let list : LeaseList := ⟨none, some 6, [releasedEntry "b" "cad"], none⟩
    let b := Board.empty.run [.event (.leases earlier) (atSecond 1)]
    ∃ after sent revisions, b.apply (.leases list) (atSecond 2) = .ok (after, sent) ∧
      b.apply (.leases { list with resource := some "" }) (atSecond 2) =
        .ok ({ after with revisions := revisions }, sent) ∧
      revisions.last? "" = some 6 ∧ after.leases.get? "a" = b.leases.get? "a" := by
  intro earlier list b
  have hgood : ∀ entry ∈ list.leases, entry.Good := by
    intro entry hentry
    rw [List.mem_singleton.1 hentry]
    exact Lease.exists_ofEntry_eq_ok_iff.1 ⟨_, rfl⟩
  obtain ⟨after, sent, hnone, -, -, -, hleases, hstale, hempty⟩ :=
    unnamed_lists_alike_unless_overtaken [.event (.leases earlier) (atSecond 1)] hgood (atSecond 2)
  obtain ⟨result, hresult⟩ : ∃ result,
      b.apply (.leases { list with resource := some "" }) (atSecond 2) = .ok result := ⟨_, rfl⟩
  obtain ⟨revisions, rfl, hlast, -⟩ := hempty result hresult
  refine ⟨after, sent, revisions, hnone, hresult, hlast, hleases "a" ?_⟩
  intro entry hentry
  rw [List.mem_singleton.1 hentry]
  decide

/-- Without a resource a list is applied after a newer one; with the empty one it is stale. -/
theorem unnamed_list_overtaken :
    let newer : LeaseList := ⟨some "", some 5, [releasedEntry "a" "gpu"], none⟩
    let older : LeaseList := ⟨some "", some 4, [releasedEntry "b" "gpu"], none⟩
    let b := Board.empty.run [.event (.leases newer) (atSecond 1)]
    nonempty? older.resource = none ∧ (∀ entry ∈ older.leases, entry.Good) ∧
      b.apply (.leases older) (atSecond 2) = .error (.rejected (.stale "" 4 5)) ∧
      ∃ after sent, b.apply (.leases { older with resource := none }) (atSecond 2) =
        .ok (after, sent) := by
  intro newer older b
  refine ⟨rfl, ?_, rfl, _, _, rfl⟩
  intro entry hentry
  rw [List.mem_singleton.1 hentry]
  exact Lease.exists_ofEntry_eq_ok_iff.1 ⟨_, rfl⟩

end LeaseBoard
