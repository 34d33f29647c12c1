import LeaseBoard.Proofs.Ageing
import LeaseBoard.Proofs.Commutation
set_option autoImplicit false

/-!
# Lists of one resource and leases of another

Leases are kept by identity, and lists of leases come by resource.  A list that keeps to its resource
therefore bears on a lease of another resource through the identity alone: if it lists the identity, the
lease goes over to the resource of the list, or goes where it is listed as expired.  Any other lease of
another resource stays as it is.

Main statement: `other_resources_kept_iff_unlisted`.
-/

namespace LeaseBoard

/-- A list of leases of one resource leaves a lease of another resource as it is exactly if it does not
list the identity. -/
theorem Roster.get?_update_eq_iff_of_other {roster : Roster} {leases : List Lease} {resource : String}
    (hnodup : (leases.map Lease.id).Nodup) (hresource : ∀ lease ∈ leases, lease.resource = resource)
    {id : String} {row : Lease} (hrow : roster.get? id = some row) (hother : row.resource ≠ resource)
    (now : Instant) :
    (roster.update (some resource) leases now).2.get? id = some row ↔
      Tabled.last? leases id = none := by
  rw [get?_update_of_nodup roster (some resource) hnodup, hrow]
  cases hlast : Tabled.last? leases id with
  | none => simp [Option.filter, inScope, Ne.symm hother]
  | some listed =>
    -- The listed lease is of the resource of the list, so it is not the one that was there.
    have hne : listed ≠ row := fun heq =>
      hother (heq ▸ hresource listed (Tabled.mem_of_last? hlast))
    by_cases hgone : listed.isExpired now = true
    · simp [hgone]
    · simp [hgone, hne]

/-- A list that names a resource, and has entries of that resource alone, comes to a board on which a
lease is of another resource.  The lease is on the board afterwards, the same in every part, exactly if
the list is turned down or does not list its identity. -/
theorem other_resources_kept_iff_unlisted (b : Board) {list : LeaseList} {resource : String}
    (hkeeps : list.KeepsTo resource) {id : String} {row : Lease}
    (hrow : b.leases.get? id = some row) (hother : row.resource ≠ resource) (now : Instant) :
    (b.step (.event (.leases list) now)).board.leases.get? id = some row ↔
      b.verdict (.leases list) ≠ .ok () ∨ ∀ entry ∈ list.leases, entry.id? ≠ some id := by
  cases hverdict : b.verdict (.leases list) with
  | error failure =>
    rw [Board.board_of_verdict_error hverdict]
    simp [hrow]
  | ok _ =>
    obtain ⟨leases, hcollect⟩ := Board.exists_of_verdict_leases hverdict
    obtain ⟨hleases, -, -⟩ := Board.board_of_verdict_leases hverdict hcollect now
    have hkept := Roster.get?_update_eq_iff_of_other (Lease.nodup_ids_of_collect hcollect)
      (fun _ => hkeeps.resource_of_collect hcollect) hrow hother now
    rw [hleases, hkeeps.named, hkept, ← LeaseList.entry?_eq_none_iff]
    obtain ⟨hentry, hlast⟩ | ⟨entry, lease, hentry, -, hlast⟩ := Lease.last?_of_collect hcollect id
    · simp [hentry, hlast]
    · simp [hentry, hlast]

/-- A lease stays under a list of another resource that takes its own leases off. -/
theorem other_resources_kept_iff_unlisted_beside :
    let b := Board.empty.run
      [.event (.leases (releasedList "a" "cad" (some 1))) (atSecond 1),
        .event (.leases (releasedList "b" "gpu" (some 1))) (atSecond 2)]
    let s : Board.Step := .event (.leases (releasedList "c" "gpu" (some 2))) (atSecond 3)
    b.leases.keys = ["a", "b"] ∧ (b.step s).board.leases.keys = ["a", "c"] ∧
      (b.step s).board.leases.get? "a" = b.leases.get? "a" := by
  intro b s
  obtain ⟨row, hrow, hother⟩ : ∃ row, b.leases.get? "a" = some row ∧ row.resource ≠ "gpu" :=
    ⟨(b.leases.get? "a").get (by decide), (Option.some_get _).symm, by decide⟩
  have hunlisted : ∀ entry ∈ (releasedList "c" "gpu" (some 2)).leases, entry.id? ≠ some "a" := by
    intro entry hentry
    rw [List.mem_singleton.1 hentry]
    decide
  have hkept := (other_resources_kept_iff_unlisted b
    (LeaseList.keepsTo_releasedList "c" "gpu" (some 2)) hrow hother (atSecond 3)).2 (Or.inr hunlisted)
  exact ⟨by decide, by decide, hkept.trans hrow.symm⟩

/-- A list of one resource takes a lease of another off, where it lists the identity as expired, and
takes it over where it lists the identity as live. -/
theorem other_resource_changed_by_identity :
    let b := Board.empty.run [.event (.leases (releasedList "a" "cad" (some 1))) (atSecond 1)]
    let list := releasedList "a" "gpu" (some 1)
    list.KeepsTo "gpu" ∧
      (b.leases.get? "a").map Lease.resource = some "cad" ∧
      (b.step (.event (.leases list) (atSecond 6))).board.leases.get? "a" = none ∧
      ((b.step (.event (.leases list) (atSecond 2))).board.leases.get? "a").map Lease.resource =
        some "gpu" :=
  ⟨LeaseList.keepsTo_releasedList "a" "gpu" (some 1), by decide, by decide, by decide⟩

end LeaseBoard
