import Mathlib

/-!
# Words below given bounds

The words of a fixed length whose digits stay below given bounds, listed with the first
digit most significant, and sums over them of products that go digit by digit.
-/

namespace Truthcoin.Grid

/-- All words with digits below the bounds. -/
def grid : List Nat → List (List Nat)
  | [] => [[]]
  | d :: ds => (List.range d).flatMap fun q => (grid ds).map (q :: ·)

theorem mem_grid_iff {ds xs : List Nat} : xs ∈ grid ds ↔ List.Forall₂ (· < ·) xs ds := by
  induction ds generalizing xs with
  | nil => simp [grid]
  | cons d ds ih =>
      simp only [grid, List.mem_flatMap, List.mem_range, List.mem_map, ih,
        List.forall₂_cons_right_iff]
      constructor
      · rintro ⟨q, hq, ys, hys, rfl⟩
        exact ⟨q, ys, hq, hys, rfl⟩
      · rintro ⟨q, ys, hq, hys, rfl⟩
        exact ⟨q, hq, ys, hys, rfl⟩

theorem length_of_mem_grid {ds xs : List Nat} (h : xs ∈ grid ds) : xs.length = ds.length :=
  (mem_grid_iff.mp h).length_eq

theorem nodup_grid (ds : List Nat) : (grid ds).Nodup := by
  induction ds with
  | nil => exact List.nodup_singleton []
  | cons d ds ih =>
      rw [grid, List.nodup_flatMap]
      constructor
      · intro q _
        exact ih.map fun _ _ h => (List.cons.inj h).2
      · refine List.nodup_range.imp ?_
        intro q q' hne xs hxs hxs'
        obtain ⟨_, -, rfl⟩ := List.mem_map.mp hxs
        obtain ⟨_, -, heq⟩ := List.mem_map.mp hxs'
        exact hne (List.cons.inj heq).1.symm

theorem length_grid (ds : List Nat) : (grid ds).length = ds.prod := by
  induction ds with
  | nil => rfl
  | cons d ds ih => simp [grid, ih]

/-- The words below smaller bounds are a part of the list, in the same order. -/
theorem filter_grid {P : List Nat → Bool} {ts ds : List Nat}
    (hle : List.Forall₂ (· ≤ ·) ts ds)
    (hP : ∀ xs ∈ grid ds, P xs = true ↔ List.Forall₂ (· < ·) xs ts) :
    (grid ds).filter P = grid ts := by
  induction hle generalizing P with
  | nil =>
      have htrue : P [] = true := (hP [] (by simp [grid])).mpr .nil
      simp [grid, htrue]
  | @cons t d ts ds hle _ ih =>
      have hrow : ∀ q < d, ((grid ds).map (q :: ·)).filter P =
          if q < t then (grid ts).map (q :: ·) else [] := by
        intro q hq
        rw [List.filter_map]
        have hcons : ∀ xs ∈ grid ds, (P ∘ (q :: ·)) xs = true ↔
            q < t ∧ List.Forall₂ (· < ·) xs ts := by
          intro xs hxs
          have hmem : q :: xs ∈ grid (d :: ds) :=
            mem_grid_iff.mpr (.cons hq (mem_grid_iff.mp hxs))
          rw [← List.forall₂_cons]
          exact hP _ hmem
        split
        · rename_i hlt
          rw [ih fun xs hxs => (hcons xs hxs).trans (and_iff_right hlt)]
        · rename_i hlt
          have hnone : (grid ds).filter (P ∘ (q :: ·)) = [] := by
            rw [List.filter_eq_nil_iff]
            intro xs hxs h
            exact hlt ((hcons xs hxs).mp h).1
          rw [hnone]
          rfl
      have hsplit : List.range d = List.range t ++ (List.range (d - t)).map (t + ·) := by
        rw [← List.range_add, Nat.add_sub_cancel' hle]
      have hlow : (List.range t).flatMap (fun q => ((grid ds).map (q :: ·)).filter P) =
          grid (t :: ts) := by
        refine List.flatMap_congr fun q hq => ?_
        have hlt := List.mem_range.mp hq
        rw [hrow q (hlt.trans_le hle), if_pos hlt]
      have hhigh : ((List.range (d - t)).map (t + ·)).flatMap
          (fun q => ((grid ds).map (q :: ·)).filter P) = [] := by
        rw [List.flatMap_eq_nil_iff]
        intro q hq
        obtain ⟨k, hk, rfl⟩ := List.mem_map.mp hq
        have hlt := List.mem_range.mp hk
        rw [hrow _ (by omega), if_neg (by omega)]
      rw [grid, List.filter_flatMap, hsplit, List.flatMap_append, hlow, hhigh, List.append_nil]

variable {R : Type} [CommSemiring R]

/-- Product of the entries that a word selects. -/
def weight : List (List R) → List Nat → R
  | a :: as, q :: qs => a.getD q 1 * weight as qs
  | _, _ => 1

def widths (as : List (List R)) : List Nat :=
  as.map List.length

theorem sum_range_getD (a : List R) :
    ((List.range a.length).map fun q => a.getD q 1).sum = a.sum := by
  congr 1
  apply List.ext_getElem
  · simp
  · intro q hq _
    have hlt : q < a.length := by simpa using hq
    rw [List.getElem_map, List.getElem_range, List.getD_eq_getElem _ _ hlt]

theorem sum_flatMap {α : Type} (l : List α) (f : α → List R) :
    (l.flatMap f).sum = (l.map fun x => (f x).sum).sum := by
  rw [List.flatMap_def, List.sum_flatten, List.map_map]
  rfl

theorem sum_range_ite {n q : Nat} (hq : q < n) (c : R) :
    ((List.range n).map fun p => if p = q then c else 0).sum = c := by
  change ∑ p ∈ Finset.range n, (if p = q then c else 0) = c
  rw [Finset.sum_ite_eq', if_pos (Finset.mem_range.mpr hq)]

theorem sum_weight (as : List (List R)) :
    ((grid (widths as)).map (weight as)).sum = (as.map List.sum).prod := by
  induction as with
  | nil => simp [grid, widths, weight]
  | cons a as ih =>
      have hrow : ∀ q, (((grid (widths as)).map (q :: ·)).map (weight (a :: as))).sum =
          a.getD q 1 * (as.map List.sum).prod := by
        intro q
        rw [List.map_map, ← ih, ← List.sum_map_mul_left]
        rfl
      rw [widths, List.map_cons, ← widths, grid, List.map_flatMap, sum_flatMap,
        List.map_congr_left fun q _ => hrow q, List.sum_map_mul_right, sum_range_getD,
        List.map_cons, List.prod_cons]

/-- The sum over the words with a given digit. -/
theorem sum_weight_of_digit {as : List (List R)} {j q : Nat} {a : List R}
    (ha : as[j]? = some a) (hq : q < a.length) :
    (((grid (widths as)).filter fun xs => xs[j]? = some q).map (weight as)).sum =
      a.getD q 1 * ((as.eraseIdx j).map List.sum).prod := by
  induction as generalizing j with
  | nil => simp at ha
  | cons b as ih =>
      rw [widths, List.map_cons, ← widths, grid, List.filter_flatMap, List.map_flatMap,
        sum_flatMap]
      cases j with
      | zero =>
          obtain rfl : b = a := by simpa using ha
          have hrow : ∀ p, (((((grid (widths as)).map (p :: ·)).filter
              fun xs => xs[0]? = some q).map (weight (b :: as))).sum) =
              if p = q then b.getD q 1 * (as.map List.sum).prod else 0 := by
            intro p
            rw [List.filter_map]
            split
            · rename_i heq
              subst heq
              have hall : (grid (widths as)).filter
                  ((fun xs => decide (xs[0]? = some p)) ∘ (p :: ·)) = grid (widths as) := by
                simp
              rw [hall, List.map_map, ← sum_weight, ← List.sum_map_mul_left]
              rfl
            · rename_i hne
              have hnone : (grid (widths as)).filter
                  ((fun xs => decide (xs[0]? = some q)) ∘ (p :: ·)) = [] := by
                simp [hne]
              rw [hnone]
              rfl
          rw [List.map_congr_left fun p _ => hrow p, sum_range_ite hq, List.eraseIdx_zero,
            List.tail_cons]
      | succ j =>
          have ha' : as[j]? = some a := by simpa using ha
          have hrow : ∀ p, (((((grid (widths as)).map (p :: ·)).filter
              fun xs => xs[j + 1]? = some q).map (weight (b :: as))).sum) =
              b.getD p 1 * (a.getD q 1 * ((as.eraseIdx j).map List.sum).prod) := by
            intro p
            rw [List.filter_map, List.map_map, ← ih ha', ← List.sum_map_mul_left]
            rfl
          rw [List.map_congr_left fun p _ => hrow p, List.sum_map_mul_right, sum_range_getD,
            List.eraseIdx_cons_succ, List.map_cons, List.prod_cons]
          ring

end Truthcoin.Grid
