import LeaseBoard.Proofs.Ageless
import LeaseBoard.Proofs.Projection
import LeaseBoard.Proofs.Released
set_option autoImplicit false

/-!
# Instructions tell the difference

An event that is applied tells a display exactly how the rows of the board have changed: what comes is
added, what goes is removed, what has changed is updated, each once, and nothing else is told of any
row.  `Keyed.Difference` says so row by row, for one table before and after.

A change between tables tells their difference (`Change.difference_between`); the rest is that an event
makes such a change of one table, and of at most one row of the other.  Main statements:
`difference_step` (what a step tells of both tables) and `apply_sends_difference` (what an event tells, and
in which order).
-/

namespace LeaseBoard

/-! ## What is told of a row -/

/-- The row that an instruction is for, by table and identity, if it is for one. -/
def Instruction.row? : Instruction → Option (Table × String)
  | .add table id _ => some (table, id)
  | .update table id _ => some (table, id)
  | .remove table id => some (table, id)
  | .refresh _ => none
  | .connection _ => none

/-- The instructions for one row, in order. -/
def Instruction.about (sent : List Instruction) (table : Table) (id : String) : List Instruction :=
  sent.filter fun i => i.row? = some (table, id)

/-- What is told of a row that is there before, after, both or neither: it comes, it goes, it is drawn
anew, or nothing.  Nothing is told of a row that stays only if it stays as it was. -/
def Tabled.Told {α : Type} [Tabled α] (id : String) (told : List Instruction) :
    Option α → Option α → Prop
  | none, none => told = []
  | none, some row => told = [.add (table α) id (cells row)]
  | some _, none => told = [.remove (table α) id]
  | some before, some row => told = [.update (table α) id (cells row)] ∨ told = [] ∧ row = before

/-- Instructions that tell, of every row, how one table differs from the one before it. -/
def Keyed.Difference {α : Type} [Tabled α] (old new : Keyed α) (sent : List Instruction) : Prop :=
  ∀ id, Tabled.Told id (Instruction.about sent (Tabled.table α) id) (old.get? id) (new.get? id)

/-- The instructions of an event, in order.  Those of a list of policies are a change: what comes, what
is drawn anew, what goes in ascending order.  Those of a list of leases are the policy that takes its
statistics, if any, and then a change. -/
def Event.TellsInOrder (told : List Instruction) : Event → Prop
  | .policies _ =>
    ∃ change : Change Policy, told = change.instructions ∧ change.removed.Pairwise (· < ·)
  | .leases _ =>
    ∃ (reported : Option Policy) (change : Change Lease),
      told = reported.toList.map Tabled.revision ++ change.instructions ∧
        change.removed.Pairwise (· < ·)

namespace Instruction

theorem about_append (first second : List Instruction) (table : Table) (id : String) :
    about (first ++ second) table id = about first table id ++ about second table id :=
  List.filter_append first second

theorem table?_eq_map_row? (i : Instruction) : i.table? = i.row?.map Prod.fst := by
  cases i <;> rfl

/-- Instructions that are not for a table tell nothing of its rows. -/
theorem about_eq_nil {sent : List Instruction} {table : Table}
    (hsent : ∀ i ∈ sent, i.table? ≠ some table) (id : String) : about sent table id = [] := by
  refine List.filter_eq_nil_iff.2 fun i hi hrow => hsent i hi ?_
  rw [table?_eq_map_row?, of_decide_eq_true hrow]
  rfl

end Instruction

/-! ## Changes -/

section Change

variable {α : Type} [Tabled α]

/-- What a change tells of a row: it is among those that come, those drawn anew, or those that go. -/
theorem Change.about_instructions {c : Change α} (hadded : (c.added.map Tabled.id).Nodup)
    (hupdated : (c.updated.map Tabled.id).Nodup) (hremoved : c.removed.Nodup) (key : String) :
    Instruction.about c.instructions (Tabled.table α) key =
      (Tabled.last? c.added key).toList.map Tabled.addition ++
        (Tabled.last? c.updated key).toList.map Tabled.revision ++
        if key ∈ c.removed then [Tabled.removal α key] else [] := by
  have hadd : Instruction.about (c.added.map Tabled.addition) (Tabled.table α) key =
      (Tabled.last? c.added key).toList.map Tabled.addition := by
    rw [← Tabled.filter_id_eq hadded, Instruction.about, List.filter_map]
    simp [Function.comp_def, Tabled.addition, Instruction.row?]
  have hupdate : Instruction.about (c.updated.map Tabled.revision) (Tabled.table α) key =
      (Tabled.last? c.updated key).toList.map Tabled.revision := by
    rw [← Tabled.filter_id_eq hupdated, Instruction.about, List.filter_map]
    simp [Function.comp_def, Tabled.revision, Instruction.row?]
  have hremove : Instruction.about (c.removed.map (Tabled.removal α)) (Tabled.table α) key =
      if key ∈ c.removed then [Tabled.removal α key] else [] := by
    rw [Instruction.about, List.filter_map]
    simp only [Function.comp_def, Tabled.removal, Instruction.row?, Option.some.injEq, Prod.mk.injEq,
      true_and, List.filter_eq, hremoved.count]
    split <;> rfl
  rw [Change.instructions, Instruction.about_append, Instruction.about_append, hadd, hupdate, hremove]

theorem Change.table?_ne {c : Change α} {i : Instruction} {table : Table} (h : i ∈ c.instructions)
    (hne : Tabled.table α ≠ table) : i.table? ≠ some table := by
  rw [table?_of_mem_instructions h]
  exact fun heq => hne (Option.some.inj heq)

/-- A change that a list of rows makes to a table tells the difference to the table after it.  Rows that
are listed must have different identities, and not be among those that go. -/
theorem Change.difference_between (old : Keyed α) {listed : List α} {goes : String → α → Bool}
    (hnodup : (listed.map Tabled.id).Nodup)
    (hgoes : ∀ row ∈ listed, ∀ x, goes (Tabled.id row) x = false) :
    old.Difference (old.merge listed goes) (between old listed goes).instructions := by
  intro key
  rw [about_instructions (hnodup.sublist (List.filter_sublist.map _))
    (hnodup.sublist (List.filter_sublist.map _)) (old.filter goes).nodup_keys, Keyed.get?_merge,
    last?_added, last?_updated]
  simp only [mem_removed]
  cases hlast : Tabled.last? listed key with
  | none =>
    -- The row is not listed: it is removed, or stays as it was and nothing is told of it.
    cases hold : old.get? key with
    | none => simp [Tabled.Told]
    | some row =>
      by_cases hgo : goes key row = true <;>
        simp [Option.filter, hgo, Tabled.Told, Tabled.removal]
  | some row =>
    -- The row is listed: it is added or updated, by whether it was there, and never removed.
    have hid : Tabled.id row = key := Tabled.id_of_last? hlast
    have hkeep : ∀ x, goes key x = false := by
      rw [← hid]
      exact hgoes row (Tabled.mem_of_last? hlast)
    cases hold : old.get? key with
    | none => simp [Tabled.Told, Tabled.addition, hid]
    | some known => simp [Option.filter, hkeep, Tabled.Told, Tabled.revision, hid]

/-- Where nothing is told of a table, it is as it was. -/
theorem Keyed.difference_self {rows : Keyed α} {sent : List Instruction}
    (hsent : ∀ i ∈ sent, i.table? ≠ some (Tabled.table α)) : rows.Difference rows sent := by
  intro key
  rw [Instruction.about_eq_nil hsent]
  cases rows.get? key with
  | none => rfl
  | some row => exact Or.inr ⟨rfl, rfl⟩

/-- Instructions for no table tell nothing of any. -/
theorem Keyed.difference_of_table?_eq_none {rows : Keyed α} {sent : List Instruction}
    (hsent : ∀ i ∈ sent, i.table? = none) : rows.Difference rows sent := by
  refine difference_self fun i hi => ?_
  rw [hsent i hi]
  exact (Option.some_ne_none _).symm

/-- Instructions that are not for the table may come before or after. -/
theorem Keyed.Difference.append_left {old new : Keyed α} {sent others : List Instruction}
    (h : old.Difference new sent) (hothers : ∀ i ∈ others, i.table? ≠ some (Tabled.table α)) :
    old.Difference new (others ++ sent) := by
  intro key
  rw [Instruction.about_append, Instruction.about_eq_nil hothers, List.nil_append]
  exact h key

theorem Keyed.Difference.append_right {old new : Keyed α} {sent others : List Instruction}
    (h : old.Difference new sent) (hothers : ∀ i ∈ others, i.table? ≠ some (Tabled.table α)) :
    old.Difference new (sent ++ others) := by
  intro key
  rw [Instruction.about_append, Instruction.about_eq_nil hothers, List.append_nil]
  exact h key

end Change

/-! ## Events -/

/-- The policies of a list of entries have different resources. -/
theorem Policy.nodup_ids_of_collect {entries : List PolicyEntry} {policies : List Policy}
    (h : collect entries = .ok policies) : (policies.map Policy.resource).Nodup := by
  obtain ⟨rows, -, rfl⟩ := Except.map_eq_ok h
  exact Arrival.nodup_ids_collect Policy.resource rows

theorem Book.map_resource_withStatistics (book : Book) (policies : List Policy) :
    (policies.map book.withStatistics).map Policy.resource = policies.map Policy.resource := by
  rw [List.map_map]
  exact List.map_congr_left fun policy _ => book.resource_withStatistics policy

namespace Board

variable {b : Board}

/-- Statistics redraw the one policy that takes them. -/
theorem difference_report (hid : Keyed.ByIdentity b.policies) (list : LeaseList) :
    ∃ reported : Option Policy, (b.report list).2 = reported.toList.map Tabled.revision ∧
      Keyed.Difference b.policies (b.report list).1 (b.report list).2 := by
  rcases b.report_cases list with hnone | ⟨resource, statistics, policy, book, -, -, hreport, hsome⟩
  · rw [hnone]
    refine ⟨none, rfl, fun key => ?_⟩
    cases b.policies.get? key with
    | none => rfl
    | some policy => exact Or.inr ⟨rfl, rfl⟩
  · rw [hsome]
    refine ⟨some policy, rfl, fun key => ?_⟩
    have hresource : Tabled.id policy = resource := Book.resource_of_report hid hreport
    rw [Book.get?_of_report hreport key]
    by_cases hkey : resource = key
    · obtain ⟨known, hknown, -⟩ := Option.map_eq_some_iff.1 hreport
      rw [if_pos hkey, ← hkey, hknown]
      exact Or.inl (by simp [Instruction.about, Instruction.row?, Tabled.revision, hresource])
    · have hnothing : Instruction.about [Tabled.revision policy] (Tabled.table Policy) key = [] := by
        simp [Instruction.about, Instruction.row?, Tabled.revision, hresource, hkey]
      rw [if_neg hkey, hnothing]
      cases b.policies.get? key with
      | none => rfl
      | some policy => exact Or.inr ⟨rfl, rfl⟩

/-- A list of policies tells a change of the book. -/
theorem difference_applyPolicies {after : Board} {list : PolicyList} {sent : List Instruction}
    (h : b.applyPolicies list = .ok (after, sent)) :
    Keyed.Difference b.policies after.policies sent ∧ Keyed.Difference b.leases after.leases sent ∧
      Event.TellsInOrder sent (.policies list) := by
  obtain ⟨policies, hcollect, rfl, rfl⟩ := applyPolicies_eq_ok h
  have hnodup : ((policies.map b.policies.withStatistics).map Policy.resource).Nodup := by
    rw [Book.map_resource_withStatistics]
    exact Policy.nodup_ids_of_collect hcollect
  refine ⟨?_, Keyed.difference_self fun i hi => Change.table?_ne hi (by decide),
    (b.policies.replace policies).1, rfl, Keyed.keys_pairwise _⟩
  rw [Book.replace_eq]
  exact Change.difference_between _ hnodup fun row hrow => Book.goes_eq_false_of_mem hrow

/-- A list of leases tells the policy with new statistics, if any, and a change of the roster. -/
theorem difference_applyLeases {after : Board} {list : LeaseList} {now : Instant}
    {sent : List Instruction} (hid : Keyed.ByIdentity b.policies)
    (h : b.applyLeases list now = .ok (after, sent)) :
    Keyed.Difference b.policies after.policies sent ∧ Keyed.Difference b.leases after.leases sent ∧
      Event.TellsInOrder sent (.leases list) := by
  obtain ⟨leases, revisions, hcollect, -, rfl, rfl⟩ := applyLeases_eq_ok h
  obtain ⟨reported, hreported, hpolicies⟩ := difference_report hid list
  have hnodup : ((Roster.live leases now).map Lease.id).Nodup :=
    (Lease.nodup_ids_of_collect hcollect).sublist (List.filter_sublist.map _)
  have hleases : Keyed.Difference b.leases (b.leases.update list.resource leases now).2
      (b.leases.update list.resource leases now).1.instructions := by
    rw [Roster.update_eq]
    exact Change.difference_between _ hnodup fun row hrow => Roster.goes_eq_false_of_mem_live hrow
  have htable : ∀ i ∈ (b.report list).2, i.table? ≠ some Table.leases := by
    rw [hreported]
    intro i hi
    obtain ⟨policy, -, rfl⟩ := List.mem_map.1 hi
    exact nofun
  refine ⟨hpolicies.append_right fun i hi => Change.table?_ne hi (by decide),
    hleases.append_left htable, reported, (b.leases.update list.resource leases now).1, ?_,
    Keyed.keys_pairwise _⟩
  rw [hreported]

/-! ## Steps -/

/-- A tick tells which leases go. -/
theorem difference_tick (b : Board) (now : Instant) :
    Keyed.Difference b.leases (b.tick now).1.leases (b.tick now).2 := by
  -- What the clock does is the change by a list of no lease, where the expired ones go.
  have hchange : Keyed.Difference b.leases
      (Keyed.merge b.leases [] fun _ lease => lease.isExpired now)
      (Change.between b.leases [] fun _ lease => lease.isExpired now).instructions :=
    Change.difference_between b.leases List.nodup_nil fun _ hrow => absurd hrow List.not_mem_nil
  refine hchange.append_right fun i hi => ?_
  rw [List.mem_singleton.1 hi]
  exact (Option.some_ne_none _).symm

/-- A step tells exactly how the rows of both tables differ. -/
theorem difference_step (hid : b.ByIdentity) (s : Step) :
    Keyed.Difference b.policies (b.step s).board.policies (b.step s).sent ∧
      Keyed.Difference b.leases (b.step s).board.leases (b.step s).sent := by
  cases s with
  | interruption reason =>
    have hsent : ∀ i ∈ (b.step (.interruption reason)).sent, i.table? = none := by
      intro i hi
      rw [List.mem_singleton.1 hi]
      rfl
    exact ⟨Keyed.difference_of_table?_eq_none hsent, Keyed.difference_of_table?_eq_none hsent⟩
  | tick now =>
    refine ⟨Keyed.difference_self fun i hi heq => ?_, b.difference_tick now⟩
    rcases List.mem_append.1 hi with hi | hi
    · obtain ⟨id, -, rfl⟩ := List.mem_map.1 hi
      cases heq
    · rw [List.mem_singleton.1 hi] at heq
      cases heq
  | event event now =>
    cases happly : b.apply event now with
    | error failure =>
      have hstep : b.step (.event event now) = ⟨b, .error failure⟩ := by simp only [step, happly]
      have hsent : ∀ i ∈ ([] : List Instruction), i.table? = none :=
        fun _ hi => absurd hi List.not_mem_nil
      rw [hstep]
      exact ⟨Keyed.difference_of_table?_eq_none hsent, Keyed.difference_of_table?_eq_none hsent⟩
    | ok applied =>
      obtain ⟨changed, told, hchange, hreconnect⟩ := apply_eq_ok happly
      have hstep : b.step (.event event now) =
          ⟨(changed.reconnect told).1, .ok (changed.reconnect told).2⟩ := by
        simp only [step, happly, hreconnect]
      have hdifference : Keyed.Difference b.policies changed.policies told ∧
          Keyed.Difference b.leases changed.leases told := by
        cases event with
        | policies list =>
          obtain ⟨hpolicies, hleases, -⟩ := difference_applyPolicies hchange
          exact ⟨hpolicies, hleases⟩
        | leases list =>
          obtain ⟨hpolicies, hleases, -⟩ := difference_applyLeases hid.policies hchange
          exact ⟨hpolicies, hleases⟩
      -- The end of an interruption is told first, and is for no table.
      have hbanner : ∀ table, ∀ i ∈ (if changed.connection = .connected then []
          else [Instruction.connection .connected]), i.table? ≠ some table := by
        intro table i hi heq
        split at hi
        · cases hi
        · rw [List.mem_singleton.1 hi] at heq
          cases heq
      rw [hstep, reconnect_fst, Outcome.sent, reconnect_snd]
      exact ⟨hdifference.1.append_left (hbanner _), hdifference.2.append_left (hbanner _)⟩

end Board

/-! ## The difference of an event -/

/-- An event that is applied on a reachable board first tells the end of an interruption, if there was
one.  Then it tells exactly how the rows of both tables differ, each row that comes, goes or changes
once and with the cells that it has now, in the order of its kind. -/
theorem apply_sends_difference {b after : Board} {event : Event} {now : Instant}
    {sent : List Instruction} (hreachable : b.Reachable)
    (happly : b.apply event now = .ok (after, sent)) :
    ∃ told, sent = (if b.connection = .connected then [] else [.connection .connected]) ++ told ∧
      Keyed.Difference b.policies after.policies told ∧
      Keyed.Difference b.leases after.leases told ∧ event.TellsInOrder told := by
  obtain ⟨changed, told, hchange, hreconnect⟩ := Board.apply_eq_ok happly
  have hconnection : changed.connection = b.connection := (Board.frame_change hchange).2
  have hafter : after = { changed with connection := .connected } := by
    rw [← Board.reconnect_fst changed told, hreconnect]
  have hpolicies : after.policies = changed.policies := by rw [hafter]
  have hleases : after.leases = changed.leases := by rw [hafter]
  refine ⟨told, ?_, ?_⟩
  · rw [← hconnection]
    unfold Board.reconnect at hreconnect
    split at hreconnect
    case isTrue hup => rw [if_pos hup, ← (Prod.mk.inj hreconnect).2, List.nil_append]
    case isFalse hdown => rw [if_neg hdown, ← (Prod.mk.inj hreconnect).2, List.singleton_append]
  · rw [hpolicies, hleases]
    cases event with
    | policies list => exact Board.difference_applyPolicies hchange
    | leases list =>
      exact Board.difference_applyLeases (Board.byIdentity_of_reachable hreachable).policies hchange

/-- After a loss of the connection, a list that leaves out the one lease of its resource and brings
another. -/
theorem apply_sends_difference_one_for_another :
    let b := Board.empty.run
      [.event (.leases (releasedList "a" "gpu" (some 1))) (atSecond 1), .interruption "reset"]
    let event := Event.leases (releasedList "b" "gpu" (some 2))
    ∃ after sent, b.apply event (atSecond 2) = .ok (after, sent) ∧
      sent.map Instruction.row? = [none, some (.leases, "b"), some (.leases, "a")] ∧
      ∃ told, sent = (if b.connection = .connected then [] else [.connection .connected]) ++ told ∧
        Keyed.Difference b.policies after.policies told ∧
        Keyed.Difference b.leases after.leases told ∧ event.TellsInOrder told := by
  intro b event
  have happly : b.apply event (atSecond 2) = .ok (_, _) := rfl
  exact ⟨_, _, happly, rfl, apply_sends_difference ⟨_, rfl⟩ happly⟩

end LeaseBoard
