import Mathlib

/-!
# Lists of weighted values

Every entry of a list has a value and a weight. A list that is cut where its values pass some
bound has the weight below the bound in its first part and the weight above it in the second.
-/

namespace Truthcoin.WeightedLists

variable {α R : Type} [AddCommMonoid R]

/-- Weight of all entries. -/
def total (l : List (α × R)) : R :=
  (l.map Prod.snd).sum

/-- Weight of the entries whose values meet a condition. -/
def weightWhere (p : α → Prop) [DecidablePred p] (l : List (α × R)) : R :=
  total (l.filter fun entry => p entry.1)

theorem total_append (l l' : List (α × R)) : total (l ++ l') = total l + total l' := by
  rw [total, List.map_append, List.sum_append]
  rfl

theorem total_cons (entry : α × R) (l : List (α × R)) :
    total (entry :: l) = entry.2 + total l := by
  rw [total, List.map_cons, List.sum_cons]
  rfl

theorem total_perm {l l' : List (α × R)} (h : l.Perm l') : total l = total l' :=
  (h.map Prod.snd).sum_eq

section

variable (p : α → Prop) [DecidablePred p]

theorem weightWhere_append (l l' : List (α × R)) :
    weightWhere p (l ++ l') = weightWhere p l + weightWhere p l' := by
  rw [weightWhere, List.filter_append, total_append]
  rfl

theorem weightWhere_perm {l l' : List (α × R)} (h : l.Perm l') :
    weightWhere p l = weightWhere p l' :=
  total_perm (h.filter _)

theorem weightWhere_eq_zero {l : List (α × R)} (h : ∀ entry ∈ l, ¬ p entry.1) :
    weightWhere p l = 0 := by
  have hnone : l.filter (fun entry => p entry.1) = [] := by
    rw [List.filter_eq_nil_iff]
    exact fun entry hentry hp => h entry hentry (of_decide_eq_true hp)
  rw [weightWhere, hnone]
  rfl

theorem total_ofFn {n : ℕ} (values : Fin n → α) (weights : Fin n → R) :
    total (List.ofFn fun i => (values i, weights i)) = ∑ i, weights i := by
  rw [total, List.map_ofFn, List.sum_ofFn]
  rfl

theorem weightWhere_ofFn {n : ℕ} (values : Fin n → α) (weights : Fin n → R) :
    weightWhere p (List.ofFn fun i => (values i, weights i)) =
      ∑ i with p (values i), weights i := by
  rw [weightWhere, total, List.ofFn_eq_map, List.filter_map, List.map_map,
    Finset.sum_filter, ← List.sum_ofFn, List.ofFn_eq_map]
  induction List.finRange n with
  | nil => rfl
  | cons i is ih =>
      rw [List.map_cons, List.sum_cons, ← ih, List.filter_cons]
      by_cases hi : p (values i)
      · simp [hi]
      · simp [hi]

end

variable [PartialOrder R] [IsOrderedAddMonoid R]

theorem total_nonneg {l : List (α × R)} (h : ∀ entry ∈ l, 0 ≤ entry.2) : 0 ≤ total l := by
  refine List.sum_nonneg ?_
  intro weight hweight
  obtain ⟨entry, hentry, rfl⟩ := List.mem_map.mp hweight
  exact h entry hentry

theorem weightWhere_le_total (p : α → Prop) [DecidablePred p] {l : List (α × R)}
    (h : ∀ entry ∈ l, 0 ≤ entry.2) : weightWhere p l ≤ total l := by
  refine (List.filter_sublist.map Prod.snd).sum_le_sum ?_
  intro weight hweight
  obtain ⟨entry, hentry, rfl⟩ := List.mem_map.mp hweight
  exact h entry hentry

section

variable [LinearOrder α] {l l' : List (α × R)} {bound : α}

theorem weightWhere_lt_le (hweights : ∀ entry ∈ l, 0 ≤ entry.2)
    (hrest : ∀ entry ∈ l', bound ≤ entry.1) :
    weightWhere (· < bound) (l ++ l') ≤ total l := by
  have hzero : weightWhere (· < bound) l' = 0 :=
    weightWhere_eq_zero _ fun entry hentry => not_lt.mpr (hrest entry hentry)
  rw [weightWhere_append, hzero, add_zero]
  exact weightWhere_le_total _ hweights

theorem weightWhere_gt_le (hweights : ∀ entry ∈ l', 0 ≤ entry.2)
    (hfirst : ∀ entry ∈ l, entry.1 ≤ bound) :
    weightWhere (bound < ·) (l ++ l') ≤ total l' := by
  have hzero : weightWhere (bound < ·) l = 0 :=
    weightWhere_eq_zero _ fun entry hentry => not_lt.mpr (hfirst entry hentry)
  rw [weightWhere_append, hzero, zero_add]
  exact weightWhere_le_total _ hweights

end

end Truthcoin.WeightedLists
