import LeaseBoard.Proofs.Identity
import LeaseBoard.Proofs.SessionTrace
set_option autoImplicit false

/-!
# A display shows its board

After any signals and any beats of the clock, at any instants, the display of a session shows one
row for each policy and one for each lease of the board, with the cells that the row has now, no
other row, and the state of the connection of the board.

The invariant is `Display.ShowsRows`: look-ups in the tables of the display are look-ups in the
tables of the board.  A step keeps it (`Mirrors.step`), and a session is made of steps of its board
(`Session.step_eq`).  Main statement: `display_projects_board`.
-/

namespace LeaseBoard

/-! ## Instructions of a change -/

section Change

variable {α : Type} [Tabled α]

theorem Change.table?_of_mem_instructions {c : Change α} {i : Instruction}
    (h : i ∈ c.instructions) : i.table? = some (Tabled.table α) := by
  simp only [Change.instructions, List.mem_append, List.mem_map] at h
  rcases h with (⟨row, -, rfl⟩ | ⟨row, -, rfl⟩) | ⟨id, -, rfl⟩
  · rfl
  · rfl
  · rfl

theorem Display.Tracks.of_rows_eq {d d' : Display} {rows : Keyed α} (h : d.Tracks rows)
    (heq : d'.rows (Tabled.table α) = d.rows (Tabled.table α)) : d'.Tracks rows := by
  intro key
  rw [← h key, cells?, cells?, row?, row?, heq]

/-- Instructions for the other table keep what a table shows. -/
theorem Display.Tracks.applyAll_of_ne {d : Display} {rows : Keyed α} (h : d.Tracks rows)
    {instructions : List Instruction} {table : Table}
    (hi : ∀ i ∈ instructions, i.table? = some table) (hne : table ≠ Tabled.table α) :
    (d.applyAll instructions).Tracks rows :=
  h.of_rows_eq (rows_applyAll_of_ne hi hne)

end Change

namespace Display

/-- The tables of a display show the rows of a board. -/
structure ShowsRows (d : Display) (b : Board) : Prop where
  policies : d.Tracks b.policies
  leases : d.Tracks b.leases

namespace ShowsRows

variable {d : Display} {b : Board}

/-! ## Steps of a board -/

theorem apply_connection (h : d.ShowsRows b) (status : Connection) :
    (d.apply (.connection status)).ShowsRows b where
  policies := fun key => (cells?_apply_connection d _ key status).trans (h.policies key)
  leases := fun key => (cells?_apply_connection d _ key status).trans (h.leases key)

theorem apply_refresh (h : d.ShowsRows b) (now : Instant) :
    (d.apply (.refresh now)).ShowsRows b where
  policies := fun key => (cells?_apply_refresh d _ key now).trans (h.policies key)
  leases := fun key => (cells?_apply_refresh d _ key now).trans (h.leases key)

/-- Statistics redraw the row of the one policy that takes them. -/
theorem report (h : d.ShowsRows b) (hid : b.ByIdentity) (list : LeaseList) :
    (d.applyAll (b.report list).2).ShowsRows { b with policies := (b.report list).1 } := by
  rcases b.report_cases list with hnone | ⟨resource, statistics, policy, book, -, -, hreport, hsome⟩
  · rw [hnone]
    exact ⟨h.policies, h.leases⟩
  · rw [hsome]
    have hresource := Book.resource_of_report hid.policies hreport
    refine ⟨fun key => ?_, h.leases.of_rows_eq rfl⟩
    have hshown := h.policies key
    have hbook := Book.get?_of_report hreport key
    obtain ⟨known, hknown, -⟩ := Option.map_eq_some_iff.1 hreport
    rw [applyAll, List.foldl_cons, List.foldl_nil, Tabled.revision, cells?_apply_update, hbook]
    by_cases hkey : resource = key
    · have hhere : Tabled.id policy = key := hresource.trans hkey
      rw [if_pos ⟨rfl, hhere⟩, if_pos hkey, hshown, ← hkey, hknown]
      rfl
    · have hother : ¬Tabled.id policy = key := fun heq => hkey (hresource.symm.trans heq)
      rw [if_neg fun hboth => hother hboth.2, if_neg hkey, hshown]

/-- A change of an event brings the tables of the display to the rows of the changed board. -/
theorem change (h : d.ShowsRows b) (hid : b.ByIdentity) {after : Board} {event : Event}
    {now : Instant} {sent : List Instruction} (hchange : b.change now event = .ok (after, sent)) :
    (d.applyAll sent).ShowsRows after := by
  cases event with
  | policies list =>
    obtain ⟨policies, -, rfl, rfl⟩ := Board.applyPolicies_eq_ok hchange
    refine ⟨?_, h.leases.applyAll_of_ne (fun i => Change.table?_of_mem_instructions) (by decide)⟩
    rw [Book.replace_eq]
    exact h.policies.applyAll_between _ _ fun row hrow => Book.goes_eq_false_of_mem hrow
  | leases list =>
    obtain ⟨leases, revisions, -, -, rfl, rfl⟩ := Board.applyLeases_eq_ok hchange
    have hreported := h.report hid list
    rw [applyAll_append]
    refine ⟨hreported.policies.applyAll_of_ne (fun i => Change.table?_of_mem_instructions)
      (by decide), ?_⟩
    rw [Roster.update_eq]
    exact hreported.leases.applyAll_between _ _ fun row hrow => Roster.goes_eq_false_of_mem_live hrow

/-- Leases that expire are removed from the display. -/
theorem expire (h : d.ShowsRows b) (now : Instant) :
    (d.applyAll (b.expire now).2).ShowsRows (b.expire now).1 := by
  have htable : ∀ i ∈ (b.expire now).2, i.table? = some Table.leases := by
    intro i hi
    obtain ⟨id, -, rfl⟩ := List.mem_map.1 hi
    rfl
  refine ⟨h.policies.applyAll_of_ne htable (by decide), fun key => ?_⟩
  · have hshown := h.leases key
    simp only [Board.expire, Roster.expire, cells?_applyAll_removals, Keyed.mem_keys_iff,
      Keyed.get?_filter, hshown]
    cases hold : b.leases.get? key with
    | none => rfl
    | some lease => by_cases hgone : lease.isExpired now = true <;> simp [Option.filter, hgone]

end ShowsRows

/-- A display is a mirror of a board: rows, connection, and no identity twice. -/
structure Mirrors (d : Display) (b : Board) : Prop where
  rows : d.ShowsRows b
  connection : d.connection = b.connection
  nodup : ∀ table, (d.ids table).Nodup

theorem mirrors_empty : Display.empty.Mirrors Board.empty where
  rows := ⟨fun _ => rfl, fun _ => rfl⟩
  connection := rfl
  nodup := fun table => by cases table <;> exact List.nodup_nil

end Display

/-! ## The connection -/

/-- The instructions of an event are for tables, and its change leaves the connection. -/
theorem Board.frame_change {b after : Board} {event : Event} {now : Instant}
    {sent : List Instruction} (h : b.change now event = .ok (after, sent)) :
    (∀ i ∈ sent, i.table?.isSome) ∧ after.connection = b.connection := by
  cases event with
  | policies list =>
    obtain ⟨policies, -, rfl, rfl⟩ := applyPolicies_eq_ok h
    exact ⟨fun i hi => by rw [Change.table?_of_mem_instructions hi]; rfl, rfl⟩
  | leases list =>
    obtain ⟨leases, revisions, -, -, rfl, rfl⟩ := applyLeases_eq_ok h
    refine ⟨fun i hi => ?_, rfl⟩
    rcases List.mem_append.1 hi with hi | hi
    · rcases b.report_cases list with hnone | ⟨_, _, policy, _, -, -, -, hsome⟩
      · rw [hnone] at hi
        exact absurd hi List.not_mem_nil
      · rw [hsome] at hi
        rw [List.mem_singleton.1 hi]
        rfl
    · rw [Change.table?_of_mem_instructions hi]
      rfl

namespace Display.Mirrors

variable {d : Display} {b : Board}

/-- A mirror stays one through an event that is applied. -/
theorem apply (h : d.Mirrors b) (hid : b.ByIdentity) {after : Board} {event : Event} {now : Instant}
    {sent : List Instruction} (happly : b.apply event now = .ok (after, sent)) :
    (d.applyAll sent).Mirrors after := by
  obtain ⟨changed, instructions, hchange, hreconnect⟩ := Board.apply_eq_ok happly
  obtain ⟨htables, hconnection⟩ := Board.frame_change hchange
  have hafter : after = { changed with connection := .connected } := by
    rw [← Board.reconnect_fst changed instructions, hreconnect]
  unfold Board.reconnect at hreconnect
  split at hreconnect
  case isTrue hup =>
    -- No interruption: the instructions are those of the change.
    obtain ⟨-, rfl⟩ := Prod.mk.inj hreconnect
    have hrows := h.rows.change hid hchange
    refine ⟨?_, ?_, nodup_ids_applyAll _ h.nodup⟩
    · rw [hafter]
      exact ⟨hrows.policies, hrows.leases⟩
    · rw [connection_applyAll htables, h.connection, ← hconnection, hup, hafter]
  case isFalse =>
    -- The end of an interruption goes first; it is no row.
    obtain ⟨-, rfl⟩ := Prod.mk.inj hreconnect
    have hrows := (h.rows.apply_connection .connected).change hid hchange
    rw [applyAll, List.foldl_cons, ← applyAll]
    refine ⟨?_, ?_, nodup_ids_applyAll _ (nodup_ids_apply _ h.nodup)⟩
    · rw [hafter]
      exact ⟨hrows.policies, hrows.leases⟩
    · rw [connection_applyAll htables, hafter]
      rfl

/-- A mirror stays one through every step. -/
theorem step (h : d.Mirrors b) (hid : b.ByIdentity) (s : Board.Step) :
    (d.applyAll (b.step s).sent).Mirrors (b.step s).board := by
  cases s with
  | event event now =>
    cases happly : b.apply event now with
    | error failure =>
      simp only [Board.step, happly, Board.Outcome.sent]
      exact h
    | ok applied =>
      simp only [Board.step, happly, Board.Outcome.sent]
      exact h.apply hid happly
  | interruption reason =>
    have hrows := h.rows.apply_connection (.interrupted reason)
    exact ⟨⟨hrows.policies, hrows.leases⟩, rfl, nodup_ids_applyAll _ h.nodup⟩
  | tick now =>
    have hexpired := h.rows.expire now
    have hrows := hexpired.apply_refresh now
    have hsent : (b.step (.tick now)).sent = (b.expire now).2 ++ [.refresh now] := rfl
    have htables : ∀ i ∈ (b.expire now).2, i.table?.isSome := by
      intro i hi
      obtain ⟨id, -, rfl⟩ := List.mem_map.1 hi
      rfl
    rw [hsent]
    refine ⟨?_, ?_, nodup_ids_applyAll _ h.nodup⟩
    · rw [applyAll_append]
      exact ⟨hrows.policies, hrows.leases⟩
    · rw [applyAll_append]
      exact (connection_applyAll htables).trans h.connection

theorem run (h : d.Mirrors b) (hid : b.ByIdentity) (steps : List Board.Step) :
    (d.applyAll (b.sent steps)).Mirrors (b.run steps) := by
  induction steps generalizing d b with
  | nil => exact h
  | cons s rest ih =>
    have hsent : b.sent (s :: rest) = (b.step s).sent ++ (b.step s).board.sent rest := rfl
    rw [hsent, applyAll_append]
    exact ih (h.step hid s) (hid.step s)

end Display.Mirrors

/-- The display of a session stays a mirror of its board. -/
theorem Session.mirrors_run {s : Session} (h : s.display.Mirrors s.board)
    (hid : s.board.ByIdentity) (steps : List Session.Step) :
    (s.run steps).display.Mirrors (s.run steps).board := by
  induction steps generalizing s with
  | nil => exact h
  | cons x rest ih =>
    obtain ⟨hboard, hsent⟩ := step_eq s x
    have hmirrors : (s.step x).session.display.Mirrors (s.step x).session.board := by
      rw [display_step, hboard, hsent]
      exact h.run hid _
    refine ih hmirrors ?_
    rw [hboard]
    exact hid.run _

/-! ## One row for each row of the board -/

namespace Display

variable {α : Type} [Tabled α]

/-- A table of a display holds exactly one row for each row of a table of the board, with its cells,
and no other row. -/
def Projects (d : Display) (rows : Keyed α) : Prop :=
  (d.ids (Tabled.table α)).Nodup ∧
    ((d.rows (Tabled.table α)).map fun row => (row.id, row.cells)).Perm
      (rows.values.map fun row => (Tabled.id row, Tabled.cells row))

/-- Look-ups that agree make a projection, where rows stand under their own identities. -/
theorem Tracks.projects {d : Display} {rows : Keyed α} (h : d.Tracks rows)
    (hnodup : (d.ids (Tabled.table α)).Nodup) (hid : rows.ByIdentity) : d.Projects rows := by
  have hshown : ((d.rows (Tabled.table α)).map fun row => (row.id, row.cells)).Nodup := by
    refine List.Nodup.of_map Prod.fst ?_
    rw [List.map_map]
    exact hnodup
  have hheld : (rows.values.map fun row => (Tabled.id row, Tabled.cells row)).Nodup := by
    refine List.Nodup.of_map Prod.fst ?_
    rw [List.map_map]
    exact hid.map_id_values ▸ rows.nodup_keys
  refine ⟨hnodup, (List.perm_ext_iff_of_nodup hshown hheld).2 ?_⟩
  rintro ⟨key, cells⟩
  simp only [List.mem_map, Prod.mk.injEq]
  rw [← cells?_eq_some_iff hnodup, h key, Option.map_eq_some_iff]
  constructor
  · rintro ⟨row, hrow, hcells⟩
    have hkey := hid key row hrow
    exact ⟨row, hid.mem_values_iff.2 (hkey.symm ▸ hrow), hkey, hcells⟩
  · rintro ⟨row, hmem, rfl, hcells⟩
    exact ⟨row, hid.mem_values_iff.1 hmem, hcells⟩

end Display

/-- After any signals and any beats of the clock, in any order and at any instants, the display of a
session holds one row for each policy and one for each lease of the board, with the cells that the
row has now, and no other row, and it shows the state of the connection of the board. -/
theorem display_projects_board (steps : List Session.Step) :
    let s := Session.empty.run steps
    s.display.Projects s.board.policies ∧ s.display.Projects s.board.leases ∧
      s.display.connection = s.board.connection := by
  have hid := Board.byIdentity_of_reachable (Session.reachable_board_run steps)
  have hempty : Session.empty.display.Mirrors Session.empty.board := Display.mirrors_empty
  have hmirror := Session.mirrors_run hempty Board.byIdentity_empty steps
  exact ⟨hmirror.rows.policies.projects (hmirror.nodup _) hid.policies,
    hmirror.rows.leases.projects (hmirror.nodup _) hid.leases, hmirror.connection⟩

end LeaseBoard
