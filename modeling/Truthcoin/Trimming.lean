import Mathlib.Logic.Relation
import Mathlib.Data.Set.Basic

/-!
# Removing nodes with their descendants

A work list removes nodes of a graph one by one and takes up the successors of each. What is
missing in between is reachable from the roots, and the successors of what is missing are
missing or wait. When nothing waits, exactly the nodes reachable from the roots are gone.
-/

namespace Truthcoin.Trimming

open Relation

variable {α : Type*} {edge : α → α → Prop} {whole kept roots pending : Set α}

/-- Between the removal of two nodes of `whole`, of which `kept` are left. -/
structure Trimmed (edge : α → α → Prop) (whole kept roots pending : Set α) : Prop where
  subset : kept ⊆ whole
  waiting : ∀ x y, edge x y → x ∈ whole → x ∉ kept → y ∈ kept → y ∈ pending
  source : ∀ x, x ∈ pending ∨ x ∈ whole ∧ x ∉ kept → ∃ r ∈ roots, ReflTransGen edge r x

theorem Trimmed.start : Trimmed edge whole whole roots ∅ where
  subset := subset_rfl
  waiting _ _ _ hx hnot _ := absurd hx hnot
  source x hx := by
    rcases hx with hx | ⟨hx, hnot⟩
    · exact absurd hx (Set.notMem_empty x)
    · exact absurd hx hnot

theorem Trimmed.wait (h : Trimmed edge whole kept roots pending) {r : α} (hr : r ∈ roots) :
    Trimmed edge whole kept roots (insert r pending) where
  subset := h.subset
  waiting x y hxy hx hnot hy := .inr (h.waiting x y hxy hx hnot hy)
  source x hx := by
    rcases hx with (rfl | hx) | hx
    · exact ⟨x, hr, .refl⟩
    · exact h.source x (.inl hx)
    · exact h.source x (.inr hx)

theorem Trimmed.drop (h : Trimmed edge whole kept roots pending) {x : α} (hx : x ∉ kept)
    {pending' : Set α} (hsub : pending' ⊆ pending)
    (hothers : ∀ y ∈ pending, y ≠ x → y ∈ pending') : Trimmed edge whole kept roots pending' where
  subset := h.subset
  waiting y z hyz hy hnot hz :=
    hothers z (h.waiting y z hyz hy hnot hz) fun heq => hx (heq ▸ hz)
  source y hy := h.source y (hy.imp_left fun hy => hsub hy)

theorem Trimmed.remove (h : Trimmed edge whole kept roots pending) {x : α} (hx : x ∈ pending)
    {kept' pending' : Set α} (hkept : ∀ y, y ∈ kept' ↔ y ∈ kept ∧ y ≠ x)
    (hnew : ∀ y ∈ pending', y ∈ pending ∨ edge x y)
    (hothers : ∀ y ∈ pending, y ≠ x → y ∈ pending')
    (hsuccessors : ∀ y ∈ kept', edge x y → y ∈ pending') :
    Trimmed edge whole kept' roots pending' where
  subset y hy := h.subset ((hkept y).mp hy).1
  waiting y z hyz hy hnot hz := by
    by_cases heq : y = x
    · exact hsuccessors z hz (heq ▸ hyz)
    · have hold : y ∉ kept := fun hy => hnot ((hkept y).mpr ⟨hy, heq⟩)
      obtain ⟨hz, hne⟩ := (hkept z).mp hz
      exact hothers z (h.waiting y z hyz hy hold hz) hne
  source y hy := by
    obtain ⟨r, hr, hreach⟩ := h.source x (.inl hx)
    rcases hy with hy | ⟨hy, hnot⟩
    · rcases hnew y hy with hy | hedge
      · exact h.source y (.inl hy)
      · exact ⟨r, hr, hreach.tail hedge⟩
    · by_cases heq : y = x
      · exact ⟨r, hr, heq ▸ hreach⟩
      · exact h.source y (.inr ⟨hy, fun hy => hnot ((hkept y).mpr ⟨hy, heq⟩)⟩)

theorem Trimmed.not_kept_of_reach (h : Trimmed edge whole kept roots ∅)
    (hedge : ∀ x y, edge x y → x ∈ whole) {x y : α} (hx : x ∉ kept)
    (hreach : ReflTransGen edge x y) : y ∉ kept := by
  induction hreach with
  | refl => exact hx
  | @tail y z _ hyz ih =>
      intro hz
      exact h.waiting y z hyz (hedge y z hyz) ih hz

theorem Trimmed.kept_iff (h : Trimmed edge whole kept roots ∅)
    (hedge : ∀ x y, edge x y → x ∈ whole) (hroots : ∀ r ∈ roots, r ∉ kept) (x : α) :
    x ∈ kept ↔ x ∈ whole ∧ ∀ r ∈ roots, ¬ ReflTransGen edge r x := by
  constructor
  · intro hx
    exact ⟨h.subset hx, fun r hr hreach => h.not_kept_of_reach hedge (hroots r hr) hreach hx⟩
  · rintro ⟨hx, hnone⟩
    by_contra hnot
    obtain ⟨r, hr, hreach⟩ := h.source x (.inr ⟨hx, hnot⟩)
    exact hnone r hr hreach

end Truthcoin.Trimming
