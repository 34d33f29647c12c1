import LeaseBoard.Proofs.Difference
import LeaseBoard.Proofs.DisplayHistory
import LeaseBoard.Proofs.Origin
set_option autoImplicit false

/-!
# Boards are well formed

What the tables of a board take for granted of their rows: a lease stands under its own identity and a
policy under its own resource, neither of them empty; a lease has a resource, and the instant of expiry
that its own status and times give; and a revision that is kept is above zero.  Whatever a step writes
keeps it so (`Board.WellFormed.step`).

A display is therefore told of rows under the identity that they have, and of leases with an instant of
expiry that was computed anew.  Main statement: `rows_stand_under_own_identity`.
-/

namespace LeaseBoard

/-- A lease has an identity and a resource, and expires when its own status and times say so. -/
structure Lease.WellFormed (lease : Lease) : Prop where
  id_ne_empty : lease.id ≠ ""
  resource_ne_empty : lease.resource ≠ ""
  expiry_eq : expiryOf lease.status lease.renewed lease.released lease.duration lease.decay =
    .ok lease.expiry

/-- The lease of an entry is well formed. -/
theorem Lease.wellFormed_of_ofEntry {entry : LeaseEntry} {lease : Lease}
    (h : ofEntry entry = .ok lease) : lease.WellFormed := by
  obtain ⟨hid, hresource, hexpiry, hlease⟩ := ofEntry_eq_ok h
  refine ⟨(nonempty?_eq_some_iff.1 hid).2, (nonempty?_eq_some_iff.1 hresource).2, ?_⟩
  -- Status and times of the lease are what the expiry was computed of.
  rw [hlease]
  exact hexpiry

namespace Board

/-! ## Boards -/

/-- Rows stand under their own identity, which is not empty, leases expire by their own times, and
revisions are above zero. -/
structure WellFormed (b : Board) : Prop where
  leases : ∀ id lease, b.leases.get? id = some lease → lease.id = id ∧ lease.WellFormed
  policies : ∀ resource policy, b.policies.get? resource = some policy →
    policy.resource = resource ∧ resource ≠ ""
  revisions : ∀ resource n, b.revisions.last? resource = some n → 0 < n

variable {b : Board}

theorem wellFormed_empty : empty.WellFormed where
  leases _ _ h := nomatch h
  policies _ _ h := nomatch h
  revisions _ _ h := nomatch h

theorem WellFormed.byIdentity (h : b.WellFormed) : b.ByIdentity where
  leases id lease hget := (h.leases id lease hget).1
  policies resource policy hget := (h.policies resource policy hget).1

theorem WellFormed.named (h : b.WellFormed) : b.Named where
  leases id lease hget := (h.leases id lease hget).2.resource_ne_empty
  policies := Option.eq_none_iff_forall_ne_some.2 fun policy hget => (h.policies "" policy hget).2 rfl

/-- Every step leaves a board well formed: what it writes comes from entries and announced revisions, or
was there before. -/
theorem WellFormed.step (h : b.WellFormed) (s : Step) : (b.step s).board.WellFormed where
  leases id lease hget := by
    refine ⟨(h.byIdentity.step s).leases id lease hget, ?_⟩
    rcases madeOf_of_get?_step hget with hold | ⟨list, -, entry, -, hmade⟩
    · exact (h.leases id lease hold).2
    · exact Lease.wellFormed_of_ofEntry hmade
  policies resource policy hget := by
    refine ⟨(h.byIdentity.step s).policies resource policy hget, ?_⟩
    rintro rfl
    rw [get?_policies_step_empty h.named.policies s] at hget
    cases hget
  revisions resource n hlast := by
    rcases announced_of_last?_step hlast with hold | ⟨list, now, -, hannounced⟩
    · exact h.revisions resource n hold
    · exact UInt64.pos_iff_ne_zero.2 (LeaseList.announced?_eq_some_iff.1 hannounced).2.2

theorem WellFormed.run (h : b.WellFormed) (steps : List Step) : (b.run steps).WellFormed := by
  induction steps generalizing b with
  | nil => exact h
  | cons s rest ih => exact ih (h.step s)

/-- Every board that a history leads to has named resources only. -/
theorem Named.of_run (steps : List Step) : (empty.run steps).Named := (wellFormed_empty.run steps).named

/-! ## What a display is told -/

/-- A table of a board holds a row under the identity that the row has, with the cells of the row.  The
cells of a lease show the instant of expiry that its status and times give. -/
inductive Holds (b : Board) : Table → String → List Cell → Prop
  | policy {policy : Policy} (hget : b.policies.get? policy.resource = some policy) :
      Holds b .policies policy.resource policy.cells
  | lease {lease : Lease} {expiry : Option Instant} (hget : b.leases.get? lease.id = some lease)
      (hexpiry : expiryOf lease.status lease.renewed lease.released lease.duration lease.decay =
        .ok expiry) :
      Holds b .leases lease.id { lease with expiry := expiry }.cells

theorem WellFormed.holds_policy (h : b.WellFormed) {resource : String} {policy : Policy}
    (hget : b.policies.get? resource = some policy) : b.Holds .policies resource policy.cells := by
  obtain ⟨rfl, -⟩ := h.policies resource policy hget
  exact .policy hget

theorem WellFormed.holds_lease (h : b.WellFormed) {id : String} {lease : Lease}
    (hget : b.leases.get? id = some lease) : b.Holds .leases id lease.cells := by
  obtain ⟨rfl, hlease⟩ := h.leases id lease hget
  exact .lease hget hlease.expiry_eq

/-- A snapshot adds what the tables hold. -/
theorem WellFormed.add_mem_snapshot_iff (h : b.WellFormed) {table : Table} {id : String}
    {cells : List Cell} : .add table id cells ∈ b.snapshot ↔ b.Holds table id cells := by
  constructor
  · intro hadd
    rcases List.mem_append.1 hadd with hadd | hadd
    · rcases List.mem_cons.1 hadd with hadd | hadd
      · cases hadd
      · obtain ⟨policy, hmem, heq⟩ := List.mem_map.1 hadd
        cases heq
        exact .policy (h.byIdentity.policies.mem_values_iff.1 hmem)
    · obtain ⟨lease, hmem, heq⟩ := List.mem_map.1 hadd
      cases heq
      exact h.holds_lease (h.byIdentity.leases.mem_values_iff.1 hmem)
  · intro hholds
    cases hholds with
    | policy hget =>
      have hmem := h.byIdentity.policies.mem_values_iff.2 hget
      exact List.mem_append_left _ (List.mem_cons_of_mem _ (List.mem_map_of_mem hmem))
    | @lease lease expiry hget hexpiry =>
      have hmem := h.byIdentity.leases.mem_values_iff.2 hget
      obtain rfl : lease.expiry = expiry :=
        Except.ok.inj ((h.leases _ lease hget).2.expiry_eq.symm.trans hexpiry)
      exact List.mem_append_right _ (List.mem_map_of_mem hmem)

end Board

/-- An instruction that draws a row is about it. -/
theorem Instruction.row?_of_draws {i : Instruction} {table : Table} {id : String} {drawn : List Cell}
    (h : i.draws? table id = some drawn) : i.row? = some (table, id) := by
  cases i with
  | add other key cells =>
    obtain ⟨⟨rfl, rfl⟩, -⟩ := Option.ite_none_right_eq_some.1 h
    rfl
  | update other key cells =>
    obtain ⟨⟨rfl, rfl⟩, -⟩ := Option.ite_none_right_eq_some.1 h
    rfl
  | remove other key => cases h
  | refresh now => cases h
  | connection status => cases h

section Tables

variable {α : Type} [Tabled α] {i : Instruction} {id : String} {drawn : List Cell}

/-- A row that is drawn is there after it is told of, with these cells. -/
theorem Tabled.Told.exists_of_draws {told : List Instruction} {before after : Option α}
    (h : Told id told before after) (hi : i ∈ told) (hdraws : i.draws? (table α) id = some drawn) :
    ∃ row, after = some row ∧ cells row = drawn := by
  cases before with
  | none =>
    cases after with
    | none =>
      rw [Told] at h
      rw [h] at hi
      cases hi
    | some row =>
      rw [Told] at h
      rw [h, List.mem_singleton] at hi
      refine ⟨row, rfl, ?_⟩
      simpa [hi, Instruction.draws?] using hdraws
  | some known =>
    cases after with
    | none =>
      rw [Told] at h
      rw [h, List.mem_singleton] at hi
      rw [hi] at hdraws
      cases hdraws
    | some row =>
      refine ⟨row, rfl, ?_⟩
      rcases h with h | ⟨h, -⟩
      · rw [h, List.mem_singleton] at hi
        simpa [hi, Instruction.draws?] using hdraws
      · rw [h] at hi
        cases hi

/-- A row that is drawn is one of the table after the difference, with its cells. -/
theorem Keyed.Difference.exists_of_draws {old new : Keyed α} {sent : List Instruction}
    (h : old.Difference new sent) (hi : i ∈ sent)
    (hdraws : i.draws? (Tabled.table α) id = some drawn) :
    ∃ row, new.get? id = some row ∧ Tabled.cells row = drawn := by
  have habout : i ∈ Instruction.about sent (Tabled.table α) id :=
    List.mem_filter.2 ⟨hi, decide_eq_true (Instruction.row?_of_draws hdraws)⟩
  exact (h id).exists_of_draws habout hdraws

end Tables

/-- A row that a step draws is held by the board after the step, under its identity and with the cells
that it is drawn with. -/
theorem Board.WellFormed.holds_of_draws {b : Board} (h : b.WellFormed) (s : Board.Step)
    {i : Instruction} (hi : i ∈ (b.step s).sent) {table : Table} {id : String} {drawn : List Cell}
    (hdraws : i.draws? table id = some drawn) : (b.step s).board.Holds table id drawn := by
  obtain ⟨hpolicies, hleases⟩ := b.difference_step h.byIdentity s
  cases table with
  | policies =>
    obtain ⟨policy, hget, rfl⟩ := hpolicies.exists_of_draws hi hdraws
    exact (h.step s).holds_policy hget
  | leases =>
    obtain ⟨lease, hget, rfl⟩ := hleases.exists_of_draws hi hdraws
    exact (h.step s).holds_lease hget

/-! ## Every board -/

/-- Every board that a history leads to is well formed.  A snapshot adds exactly the rows of the board,
each under the identity that the row has.  What a step adds or updates is a row of the board after the
step, under the identity that the row has and with the cells that it has then; of a lease they show the
instant of expiry that its status and times give. -/
theorem rows_stand_under_own_identity (steps : List Board.Step) :
    let b := Board.empty.run steps
    b.WellFormed ∧
      (∀ table id cells, .add table id cells ∈ b.snapshot ↔ b.Holds table id cells) ∧
      ∀ s, ∀ i ∈ (b.step s).sent, ∀ table id cells, i.draws? table id = some cells →
        (b.step s).board.Holds table id cells := by
  intro b
  have hb : b.WellFormed := Board.wellFormed_empty.run steps
  refine ⟨hb, fun table id cells => hb.add_mem_snapshot_iff, fun s i hi table id cells hdraws => ?_⟩
  exact hb.holds_of_draws s hi hdraws

/-- A lease that is renewed under another resource is drawn anew, with the instant of expiry of its new
times. -/
theorem rows_stand_under_own_identity_renewed :
    let b := Board.empty.run [.event (.leases (releasedList "a" "gpu" (some 1))) (atSecond 1)]
    let renewed := { releasedEntry "a" "cad" with
      status := "active", renewed := some (atSecond 2), duration := 60_000_000_000 }
    let s : Board.Step := .event (.leases ⟨some "cad", some 1, [renewed], none⟩) (atSecond 3)
    let cells : List Cell := [.text "cad", .text "", .text "", .text "", .text "active", .elapsed none,
      .remaining (some (atSecond 67))]
    .update .leases "a" cells ∈ (b.step s).sent ∧ (b.step s).board.Holds .leases "a" cells := by
  intro b renewed s cells
  obtain ⟨-, -, hdrawn⟩ :=
    rows_stand_under_own_identity [.event (.leases (releasedList "a" "gpu" (some 1))) (atSecond 1)]
  have hupdate : .update .leases "a" cells ∈ (b.step s).sent := by decide
  exact ⟨hupdate, hdrawn s _ hupdate .leases "a" cells rfl⟩

end LeaseBoard
