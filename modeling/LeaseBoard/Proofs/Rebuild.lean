import LeaseBoard.Proofs.Projection
set_option autoImplicit false

/-!
# Rebuilding a display

A fresh display that is given a snapshot of a board and then refreshed shows what the display shows that
was told of everything that happened to the board, once that one is refreshed at the same instant: the
same rows with the same cells and labels, and the same state of the connection.  Only the order may
differ: a rebuilt table is in ascending order of identities.

Both displays hold one row for each row of the board, the one because it is a mirror of the board
(`Display.Projects`), the other because it was given just these rows (`rows_applyAll_snapshot`); and a
refresh draws rows from identity and cells alone.  Main statement: `rebuild_shows_what_is_live`.
-/

namespace LeaseBoard

/-- A row as it is shown, drawn for an instant. -/
def Tabled.drawn {α : Type} [Tabled α] (now : Option Instant) (row : α) : ShownRow :=
  .draw now (id row) (cells row)

namespace Display

/-! ## Rows that are added -/

section Rows

variable {α : Type} [Tabled α]

/-- Rows with new identities are added behind those that are there, in their order. -/
theorem rows_applyAll_additions (d : Display) {rows : List α}
    (hnodup : (d.ids (Tabled.table α) ++ rows.map Tabled.id).Nodup) :
    (d.applyAll (rows.map Tabled.addition)).rows (Tabled.table α) =
      d.rows (Tabled.table α) ++ rows.map (Tabled.drawn d.drawnAt) := by
  induction rows generalizing d with
  | nil => exact (List.append_nil _).symm
  | cons row rest ih =>
    have hnew : Tabled.id row ∉ d.ids (Tabled.table α) := fun hmem =>
      (List.nodup_append.1 hnodup).2.2 _ hmem _ List.mem_cons_self rfl
    have hrows : (d.apply (Tabled.addition row)).rows (Tabled.table α) =
        d.rows (Tabled.table α) ++ [Tabled.drawn d.drawnAt row] := by
      rw [Tabled.addition, apply, rows_withRows, if_pos rfl]
      exact Arrival.put_of_not_mem hnew
    have hdrawn : (d.apply (Tabled.addition row)).drawnAt = d.drawnAt := drawnAt_withRows ..
    have hids : (d.apply (Tabled.addition row)).ids (Tabled.table α) ++ rest.map Tabled.id =
        d.ids (Tabled.table α) ++ (row :: rest).map Tabled.id := by
      rw [ids, hrows, List.map_append, List.append_assoc]
      rfl
    rw [List.map_cons, applyAll, List.foldl_cons, ← applyAll, ih _ (hids ▸ hnodup), hrows, hdrawn,
      List.append_assoc]
    rfl

theorem table?_of_mem_additions {rows : List α} {i : Instruction}
    (h : i ∈ rows.map Tabled.addition) : i.table? = some (Tabled.table α) := by
  obtain ⟨row, -, rfl⟩ := List.mem_map.1 h
  rfl

/-- The rows of a table in ascending order, added to a display that shows none yet. -/
theorem rows_applyAll_values {d : Display} (hempty : d.rows (Tabled.table α) = [])
    {rows : Keyed α} (hid : rows.ByIdentity) :
    (d.applyAll (rows.values.map Tabled.addition)).rows (Tabled.table α) =
      rows.values.map (Tabled.drawn d.drawnAt) := by
  have hnodup : (d.ids (Tabled.table α) ++ rows.values.map Tabled.id).Nodup := by
    rw [ids, hempty, hid.map_id_values]
    exact rows.nodup_keys
  rw [rows_applyAll_additions d hnodup, hempty, List.nil_append]

/-- Rows that are added leave the instant of the last refresh. -/
theorem drawnAt_applyAll_additions (d : Display) (rows : List α) :
    (d.applyAll (rows.map Tabled.addition)).drawnAt = d.drawnAt := by
  induction rows generalizing d with
  | nil => rfl
  | cons row rest ih => exact (ih _).trans (drawnAt_withRows ..)

end Rows

/-! ## A display that is refreshed -/

/-- A display that holds one row for each row of a table draws just these rows when it is refreshed. -/
theorem Projects.perm_drawn {α : Type} [Tabled α] {d : Display} {rows : Keyed α}
    (h : d.Projects rows) (now : Instant) :
    ((d.apply (.refresh now)).rows (Tabled.table α)).Perm
      (rows.values.map (Tabled.drawn (some now))) := by
  have hdraw := h.2.map fun shown => ShownRow.draw (some now) shown.1 shown.2
  rw [List.map_map, List.map_map] at hdraw
  rw [rows_apply_refresh]
  exact hdraw

/-! ## A display that is given a snapshot -/

/-- A fresh display that is given a snapshot shows the policies and the leases of the board, each in
ascending order, and the state of its connection. -/
theorem applyAll_snapshot {b : Board} (hid : b.ByIdentity) :
    (empty.applyAll b.snapshot).rows .policies = b.policies.values.map (Tabled.drawn none) ∧
      (empty.applyAll b.snapshot).rows .leases = b.leases.values.map (Tabled.drawn none) ∧
      (empty.applyAll b.snapshot).connection = b.connection := by
  let blank := empty.apply (.connection b.connection)
  let filled := blank.applyAll (b.policies.values.map Tabled.addition)
  have hsplit : empty.applyAll b.snapshot = filled.applyAll (b.leases.values.map Tabled.addition) := by
    rw [Board.snapshot, applyAll_append]
    rfl
  have hpolicies : filled.rows .policies = b.policies.values.map (Tabled.drawn none) :=
    rows_applyAll_values (d := blank) rfl hid.policies
  have hnone : filled.rows .leases = [] :=
    rows_applyAll_of_ne (d := blank) (fun _ => table?_of_mem_additions) (by decide)
  have hleases : (filled.applyAll (b.leases.values.map Tabled.addition)).rows .leases =
      b.leases.values.map (Tabled.drawn filled.drawnAt) := rows_applyAll_values hnone hid.leases
  have hdrawn : filled.drawnAt = none := drawnAt_applyAll_additions blank _
  have htable : ∀ {α : Type} [Tabled α] {rows : List α}, ∀ i ∈ rows.map Tabled.addition,
      i.table?.isSome := fun i hi => by rw [table?_of_mem_additions hi]; rfl
  rw [hsplit]
  refine ⟨?_, hdrawn ▸ hleases, ?_⟩
  · exact (rows_applyAll_of_ne (fun _ => table?_of_mem_additions) (by decide)).trans hpolicies
  · exact (connection_applyAll htable).trans (connection_applyAll htable)

end Display

/-! ## Rebuilding -/

namespace Session

/-- A display that is rebuilt at an instant shows what the display of the session shows when it is
refreshed at that instant, in ascending order of identities. -/
structure RebuildsAt (s : Session) (now : Instant) : Prop where
  rows : ∀ table, ((s.rebuild now).rows table).Perm ((s.display.apply (.refresh now)).rows table)
  ascending : ∀ table, ((s.rebuild now).ids table).Pairwise (· < ·)
  connection : (s.rebuild now).connection = (s.display.apply (.refresh now)).connection

/-- The rows of a display that is rebuilt are the rows of the board in ascending order. -/
theorem rows_rebuild {s : Session} (hid : s.board.ByIdentity) (now : Instant) :
    (s.rebuild now).rows .policies = s.board.policies.values.map (Tabled.drawn (some now)) ∧
      (s.rebuild now).rows .leases = s.board.leases.values.map (Tabled.drawn (some now)) := by
  obtain ⟨hpolicies, hleases, -⟩ := Display.applyAll_snapshot hid
  have hsplit : s.rebuild now = (Display.empty.applyAll s.board.snapshot).apply (.refresh now) :=
    Display.applyAll_append _ _ _
  rw [hsplit, Display.rows_apply_refresh, Display.rows_apply_refresh, hpolicies, hleases,
    List.map_map, List.map_map]
  exact ⟨rfl, rfl⟩

/-- Where the display of a session is a mirror of its board, a rebuilt display shows the same. -/
theorem rebuildsAt_of_mirrors {s : Session} (hid : s.board.ByIdentity)
    (h : s.display.Mirrors s.board) (now : Instant) : s.RebuildsAt now := by
  obtain ⟨hpolicies, hleases⟩ := rows_rebuild hid now
  have hascending : ∀ {α : Type} [Tabled α] {rows : Keyed α}, rows.ByIdentity →
      ((rows.values.map (Tabled.drawn (some now))).map ShownRow.id).Pairwise (· < ·) := by
    intro α _ rows hrows
    have hids : (rows.values.map (Tabled.drawn (some now))).map ShownRow.id =
        rows.values.map Tabled.id := List.map_map
    rw [hids, hrows.map_id_values]
    exact rows.keys_pairwise
  refine ⟨fun table => ?_, fun table => ?_, ?_⟩
  · cases table with
    | policies =>
      rw [hpolicies]
      exact ((h.rows.policies.projects (h.nodup _) hid.policies).perm_drawn now).symm
    | leases =>
      rw [hleases]
      exact ((h.rows.leases.projects (h.nodup _) hid.leases).perm_drawn now).symm
  · cases table with
    | policies => rw [Display.ids, hpolicies]; exact hascending hid.policies
    | leases => rw [Display.ids, hleases]; exact hascending hid.leases
  · have hsplit : s.rebuild now = (Display.empty.applyAll s.board.snapshot).apply (.refresh now) :=
      Display.applyAll_append _ _ _
    rw [hsplit]
    exact (Display.applyAll_snapshot hid).2.2.trans h.connection.symm

/-- The session of a board whose display was told of all that happened to it. -/
def ofHistory (steps : List Board.Step) : Session :=
  ⟨Board.empty.run steps, Display.empty.applyAll (Board.empty.sent steps)⟩

end Session

/-- Whatever has happened to a board, and a display was told of, a fresh display that is rebuilt at an
instant shows the same rows as that display does when it is refreshed at the instant, identity for
identity and with the same cells and labels, and the same state of the connection.  The rebuilt rows are
in strictly ascending order of identities.  It is so for all histories of a board, and for all that a
session takes from its stream and its clock. -/
theorem rebuild_shows_what_is_live :
    (∀ (steps : List Board.Step) (now : Instant), (Session.ofHistory steps).RebuildsAt now) ∧
      ∀ (steps : List Session.Step) (now : Instant), (Session.empty.run steps).RebuildsAt now := by
  constructor
  · intro steps now
    exact Session.rebuildsAt_of_mirrors (Board.byIdentity_empty.run steps)
      (Display.mirrors_empty.run Board.byIdentity_empty steps) now
  · intro steps now
    exact Session.rebuildsAt_of_mirrors
      (Board.byIdentity_of_reachable (Session.reachable_board_run steps))
      (Session.mirrors_run Display.mirrors_empty Board.byIdentity_empty steps) now

end LeaseBoard
