import LeaseBoard.Proofs.Change
import LeaseBoard.Proofs.Step
set_option autoImplicit false

/-!
# Rows under their own identity

On every reachable board a lease stands under its own identity and a policy under its own resource.
Main statement: `byIdentity_of_reachable`.
-/

namespace LeaseBoard

variable {α : Type} [Tabled α]

/-! ## Tables -/

/-- Every row of a table stands under its own identity. -/
def Keyed.ByIdentity (t : Keyed α) : Prop :=
  ∀ key row, t.get? key = some row → Tabled.id row = key

namespace Keyed

theorem byIdentity_empty : (empty : Keyed α).ByIdentity := by
  intro key row h
  simp at h

theorem ByIdentity.filter {t : Keyed α} (h : t.ByIdentity) (keep : String → α → Bool) :
    (t.filter keep).ByIdentity := by
  intro key row hrow
  rw [get?_filter] at hrow
  exact h key row (Option.filter_eq_some_iff.1 hrow).1

theorem ByIdentity.insert {t : Keyed α} (h : t.ByIdentity) {key : String} {row : α}
    (hid : Tabled.id row = key) : (t.insert key row).ByIdentity := by
  intro other found hfound
  rw [get?_insert] at hfound
  by_cases hkey : key = other
  · rw [if_pos hkey] at hfound
    rw [← Option.some.inj hfound, hid, hkey]
  · rw [if_neg hkey] at hfound
    exact h other found hfound

theorem ByIdentity.merge {t : Keyed α} (h : t.ByIdentity) (listed : List α)
    (goes : String → α → Bool) : (t.merge listed goes).ByIdentity := by
  intro key row hrow
  rw [get?_merge] at hrow
  rcases Option.or_eq_some_iff.1 hrow with hlast | ⟨-, hold⟩
  · exact Tabled.id_of_last? hlast
  · exact h key row (Option.filter_eq_some_iff.1 hold).1

omit [Tabled α] in
theorem nodup_keys (t : Keyed α) : t.keys.Nodup := by
  refine t.keys_pairwise.imp ?_
  rintro a b hlt rfl
  exact String.lt_irrefl a hlt

/-- The identities of the rows of a table are its keys. -/
theorem ByIdentity.map_id_values {t : Keyed α} (h : t.ByIdentity) :
    t.values.map Tabled.id = t.keys := by
  rw [values, keys, List.map_map]
  refine List.map_congr_left fun e he => ?_
  exact h e.1 e.2 (t.get?_eq_some_iff.2 he)

theorem ByIdentity.mem_values_iff {t : Keyed α} (h : t.ByIdentity) {row : α} :
    row ∈ t.values ↔ t.get? (Tabled.id row) = some row := by
  rw [get?_eq_some_iff, values, List.mem_map]
  constructor
  · rintro ⟨e, he, rfl⟩
    rw [h e.1 e.2 (t.get?_eq_some_iff.2 he)]
    exact he
  · exact fun hmem => ⟨(Tabled.id row, row), hmem, rfl⟩

end Keyed

/-- Statistics keep a policy under its resource. -/
theorem Book.resource_of_report {book after : Book} {resource : String} {statistics : Statistics}
    {policy : Policy} (hbook : Keyed.ByIdentity book)
    (h : book.report resource statistics = some (policy, after)) : policy.resource = resource := by
  obtain ⟨known, hknown, hpair⟩ := Option.map_eq_some_iff.1 h
  obtain ⟨rfl, rfl⟩ := Prod.mk.inj hpair
  exact hbook resource known hknown

theorem Book.after_of_report {book after : Book} {resource : String} {statistics : Statistics}
    {policy : Policy} (h : book.report resource statistics = some (policy, after)) :
    after = book.insert resource policy := by
  obtain ⟨known, -, hpair⟩ := Option.map_eq_some_iff.1 h
  obtain ⟨rfl, rfl⟩ := Prod.mk.inj hpair
  rfl

/-! ## Boards -/

namespace Board

/-- Leases and policies stand under their own identities. -/
structure ByIdentity (b : Board) : Prop where
  leases : Keyed.ByIdentity b.leases
  policies : Keyed.ByIdentity b.policies

theorem byIdentity_report {b : Board} (h : b.ByIdentity) (list : LeaseList) :
    Keyed.ByIdentity (b.report list).1 := by
  rcases b.report_cases list with hnone | ⟨resource, statistics, policy, book, -, -, hreport, hsome⟩
  · rw [hnone]
    exact h.policies
  · rw [hsome, Book.after_of_report hreport]
    exact h.policies.insert (Book.resource_of_report h.policies hreport)

/-- Every step leaves rows under their own identities. -/
theorem ByIdentity.step {b : Board} (h : b.ByIdentity) (s : Step) : (b.step s).board.ByIdentity := by
  cases s with
  | event event now =>
    obtain ⟨failure, -, hboard⟩ | ⟨list, policies, rfl, -, -, hboard⟩ |
      ⟨list, leases, revisions, rfl, -, -, -, hboard⟩ := b.step_event_cases event now
    · rw [hboard]
      exact h
    · rw [hboard, Book.replace_eq]
      exact ⟨h.leases, h.policies.merge _ _⟩
    · rw [hboard, Roster.update_eq]
      exact ⟨h.leases.merge _ _, byIdentity_report h list⟩
  | interruption reason => exact ⟨h.leases, h.policies⟩
  | tick now => exact ⟨h.leases.filter _, h.policies⟩

theorem byIdentity_empty : Board.empty.ByIdentity :=
  ⟨Keyed.byIdentity_empty, Keyed.byIdentity_empty⟩

theorem ByIdentity.run {b : Board} (h : b.ByIdentity) (steps : List Step) :
    (b.run steps).ByIdentity := by
  induction steps generalizing b with
  | nil => exact h
  | cons s rest ih => exact ih (h.step s)

/-- On every reachable board rows stand under their own identities. -/
theorem byIdentity_of_reachable {b : Board} (h : Reachable b) : b.ByIdentity :=
  h.induction byIdentity_empty fun _ s hb => hb.step s

end Board

end LeaseBoard
