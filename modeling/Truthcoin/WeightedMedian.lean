import Truthcoin.OracleWeights
import Truthcoin.WeightedLists

/-!
# The weighted median

The median of weighted values lies between the smallest and the largest of them. The values
below it have at most half of the weight, up to a tolerance, and the values above it at most
half.
-/

namespace Truthcoin.WeightedMedian

open Truthcoin.Fallible Truthcoin.Oracle Truthcoin.OracleWeights Truthcoin.WeightedLists

/-- A median of a list that weighs twice the half: it is between two of the values, and the
values on each side of it weigh at most the half. -/
structure IsMedian (half : Rat) (l : List (Rat × Rat)) (median : Rat) : Prop where
  lower : ∃ entry ∈ l, entry.1 ≤ median
  upper : ∃ entry ∈ l, median ≤ entry.1
  below : weightWhere (· < median) l ≤ half + 1 / 10 ^ 10
  above : weightWhere (median < ·) l ≤ half

/-- A sorted list of weighted values, cut behind one of its entries. -/
structure Cut (half : Rat) (before : List (Rat × Rat)) (entry : Rat × Rat)
    (rest : List (Rat × Rat)) : Prop where
  weights : ∀ e ∈ before ++ entry :: rest, 0 ≤ e.2
  sorted : (before ++ entry :: rest).Pairwise fun a b => a.1 ≤ b.1
  sum : total (before ++ entry :: rest) = half + half

section

variable {half bound : Rat} {before rest : List (Rat × Rat)} {entry next : Rat × Rat}

theorem Cut.after (h : Cut half before entry rest) : ∀ e ∈ rest, entry.1 ≤ e.1 :=
  (List.pairwise_cons.mp (List.pairwise_append.mp h.sorted).2.1).1

theorem Cut.before_le (h : Cut half before entry rest) : ∀ e ∈ before, e.1 ≤ entry.1 :=
  fun e he => (List.pairwise_append.mp h.sorted).2.2 e he entry List.mem_cons_self

theorem cut_append : before ++ entry :: rest = (before ++ [entry]) ++ rest := by
  rw [List.append_assoc, List.singleton_append]

theorem total_cut : total (before ++ [entry]) = total before + entry.2 := by
  rw [total_append, total_cons]
  exact congrArg _ (add_zero _)

theorem Cut.moved (h : Cut half before entry (next :: rest)) :
    Cut half (before ++ [entry]) next rest := by
  obtain ⟨hweights, hsorted, htotal⟩ := h
  rw [cut_append] at hweights hsorted htotal
  exact ⟨hweights, hsorted, htotal⟩

theorem Cut.below_le (h : Cut half before entry rest) (hbound : bound ≤ entry.1) :
    weightWhere (· < bound) (before ++ entry :: rest) ≤ total before := by
  refine weightWhere_lt_le (fun e he => h.weights e (List.mem_append_left _ he)) ?_
  intro e he
  rcases List.mem_cons.mp he with rfl | he
  · exact hbound
  · exact hbound.trans (h.after e he)

theorem Cut.above_le (h : Cut half before entry rest) (hreached : half ≤ total before + entry.2)
    (hbound : entry.1 ≤ bound) :
    weightWhere (bound < ·) (before ++ entry :: rest) ≤ half := by
  have hfirst : ∀ e ∈ before ++ [entry], e.1 ≤ bound := by
    intro e he
    rcases List.mem_append.mp he with hbefore | hlast
    · exact (h.before_le e hbefore).trans hbound
    · rw [List.mem_singleton.mp hlast]
      exact hbound
  have hweights := h.weights
  have htotal := h.sum
  rw [cut_append] at hweights htotal ⊢
  rw [total_append, total_cut] at htotal
  calc weightWhere (bound < ·) ((before ++ [entry]) ++ rest) ≤ total rest :=
        weightWhere_gt_le (fun e he => hweights e (List.mem_append_right _ he)) hfirst
    _ ≤ half := by linarith

theorem Cut.isMedian (h : Cut half before entry rest) (hbefore : total before < half)
    (hreached : half ≤ total before + entry.2) :
    IsMedian half (before ++ entry :: rest) entry.1 where
  lower := ⟨entry, by simp, le_rfl⟩
  upper := ⟨entry, by simp, le_rfl⟩
  below := by
    have hbelow := h.below_le le_rfl
    linarith
  above := h.above_le hreached le_rfl

theorem Cut.isMedian_middle (h : Cut half before entry (next :: rest))
    (hreached : half ≤ total before + entry.2)
    (hclose : |total before + entry.2 - half| < 1 / 10 ^ 10) :
    IsMedian half (before ++ entry :: next :: rest) ((entry.1 + next.1) / 2) := by
  have hle : entry.1 ≤ next.1 := h.after next List.mem_cons_self
  have hlower : entry.1 ≤ (entry.1 + next.1) / 2 := by linarith
  have hupper : (entry.1 + next.1) / 2 ≤ next.1 := by linarith
  refine ⟨⟨entry, by simp, hlower⟩, ⟨next, by simp, hupper⟩, ?_, h.above_le hreached hlower⟩
  have hbelow := h.moved.below_le hupper
  rw [total_cut] at hbelow
  have hnear := (abs_lt.mp hclose).2
  rw [cut_append]
  linarith

/-- The scan of a sorted list stops at a median: the entries that it has passed do not reach
the half, and all of them together do. -/
theorem exists_medianLoop (h : Cut half before entry rest) (hbefore : total before < half) :
    ∃ median, medianLoop half (total before) (entry :: rest) = some median ∧
      IsMedian half (before ++ entry :: rest) median := by
  induction rest generalizing before entry with
  | nil =>
      have hreached : half ≤ total before + entry.2 := by
        have htotal := h.sum
        rw [total_cut] at htotal
        have hnonneg := total_nonneg fun e he => h.weights e (List.mem_append_left _ he)
        linarith
      refine ⟨entry.1, ?_, h.isMedian hbefore hreached⟩
      rw [medianLoop, if_pos hreached]
  | cons next rest ih =>
      rw [medianLoop]
      by_cases hreached : half ≤ total before + entry.2
      · rw [if_pos hreached]
        by_cases hclose : |total before + entry.2 - half| < 1 / 10 ^ 10
        · exact ⟨_, if_pos hclose, h.isMedian_middle hreached hclose⟩
        · exact ⟨_, if_neg hclose, h.isMedian hbefore hreached⟩
      · have hpassed : total (before ++ [entry]) < half := by
          rw [total_cut]
          exact lt_of_not_ge hreached
        obtain ⟨median, hloop, hmedian⟩ := ih h.moved hpassed
        rw [total_cut] at hloop
        rw [← cut_append] at hmedian
        exact ⟨median, (if_neg hreached).trans hloop, hmedian⟩

end

variable {n : Nat}

/-- What the median of a vector is: it is between the smallest and the largest value, and the
values on each side of it have at most half of the weight. -/
structure IsWeightedMedian (values weights : DVector n) (median : Rat) : Prop where
  smallest : ∃ i, (∀ k, values i ≤ values k) ∧ values i ≤ median
  largest : ∃ i, (∀ k, values k ≤ values i) ∧ median ≤ values i
  below : ∑ i with values i < median, weights i ≤ (∑ i, weights i) / 2 + 1 / 10 ^ 10
  above : ∑ i with median < values i, weights i ≤ (∑ i, weights i) / 2

theorem IsMedian.isWeightedMedian {values weights : DVector n} {median : Rat}
    (h : IsMedian ((∑ i, weights i) / 2) (List.ofFn fun i => (values i, weights i)) median) :
    IsWeightedMedian values weights median := by
  obtain ⟨⟨low, hlow, hlower⟩, ⟨high, hhigh, hupper⟩, hbelow, habove⟩ := h
  obtain ⟨i, rfl⟩ := List.mem_ofFn.mp hlow
  obtain ⟨j, rfl⟩ := List.mem_ofFn.mp hhigh
  have hn : Nonempty (Fin n) := ⟨i⟩
  obtain ⟨least, hleast⟩ := Finite.exists_min values
  obtain ⟨greatest, hgreatest⟩ := Finite.exists_max values
  rw [weightWhere_ofFn] at hbelow habove
  exact ⟨⟨least, hleast, (hleast i).trans hlower⟩,
    ⟨greatest, hgreatest, hupper.trans (hgreatest j)⟩, hbelow, habove⟩

theorem IsMedian.perm {half median : Rat} {l l' : List (Rat × Rat)} (h : IsMedian half l median)
    (hperm : l.Perm l') : IsMedian half l' median where
  lower := by
    obtain ⟨entry, hentry, hle⟩ := h.lower
    exact ⟨entry, hperm.subset hentry, hle⟩
  upper := by
    obtain ⟨entry, hentry, hle⟩ := h.upper
    exact ⟨entry, hperm.subset hentry, hle⟩
  below := by
    rw [← weightWhere_perm _ hperm]
    exact h.below
  above := by
    rw [← weightWhere_perm _ hperm]
    exact h.above

theorem exists_weightedMedian (values weights : DVector n) (hweights : ∀ i, 0 ≤ weights i)
    (htotal : 0 < ∑ i, weights i) :
    ∃ median, weightedMedian values weights = .ok median ∧
      IsWeightedMedian values weights median := by
  have hperm := List.perm_insertionSort (fun a b : Rat × Rat => a.1 ≤ b.1)
    (List.ofFn fun i => (values i, weights i))
  have hsorted : ((List.ofFn fun i => (values i, weights i)).insertionSort
      fun a b => a.1 ≤ b.1).Pairwise fun a b => a.1 ≤ b.1 := by
    have : Std.Total fun a b : Rat × Rat => a.1 ≤ b.1 := ⟨fun a b => le_total a.1 b.1⟩
    have : IsTrans (Rat × Rat) fun a b => a.1 ≤ b.1 := ⟨fun a b c => le_trans⟩
    exact List.pairwise_insertionSort _ _
  have hsum := total_perm hperm
  rw [total_ofFn] at hsum
  rw [weightedMedian]
  generalize (List.ofFn fun i => (values i, weights i)).insertionSort
    (fun a b => a.1 ≤ b.1) = sorted at hperm hsorted hsum
  cases sorted with
  | nil =>
      rw [← hsum] at htotal
      exact absurd htotal (lt_irrefl 0)
  | cons entry rest =>
      have hcut : Cut ((∑ i, weights i) / 2) [] entry rest := by
        refine ⟨?_, hsorted, ?_⟩
        · intro e he
          obtain ⟨i, rfl⟩ := List.mem_ofFn.mp (hperm.subset he)
          exact hweights i
        · rw [List.nil_append, hsum]
          ring
      obtain ⟨median, hloop, hmedian⟩ := exists_medianLoop hcut (half_pos htotal)
      refine ⟨median, ?_, (hmedian.perm hperm).isWeightedMedian⟩
      rw [List.getLast?_cons]
      dsimp only
      rw [if_neg (not_le.mpr htotal)]
      have hscan : medianLoop ((∑ i, weights i) / 2) 0 (entry :: rest) = some median := hloop
      rw [hscan, Option.getD_some]

/-- The median of nonnegative weights that are not all zero is found. It is between the
smallest and the largest value; the values below it have at most half of the weight and the
tolerance, and the values above it at most half of the weight. -/
theorem weightedMedian_halves (values weights : DVector n) (hweights : ∀ i, 0 ≤ weights i)
    (htotal : 0 < ∑ i, weights i) :
    ∃ median, weightedMedian values weights = .ok median ∧
      (∃ i, (∀ k, values i ≤ values k) ∧ values i ≤ median) ∧
      (∃ i, (∀ k, values k ≤ values i) ∧ median ≤ values i) ∧
      ∑ i with values i < median, weights i ≤ (∑ i, weights i) / 2 + 1 / 10 ^ 10 ∧
      ∑ i with median < values i, weights i ≤ (∑ i, weights i) / 2 := by
  obtain ⟨median, hmedian, his⟩ := exists_weightedMedian values weights hweights htotal
  exact ⟨median, hmedian, his.smallest, his.largest, his.below, his.above⟩

def sampleValues : DVector 3 := ![3, 4, 5]

def sampleWeights : DVector 3 := ![1 / 5, 1 / 5, 2 / 5]

/-- Half of the weight is reached exactly at the second of three values. -/
theorem weightedMedian_halves_sample :
    weightedMedian sampleValues sampleWeights = .ok (9 / 2) ∧
      ∃ median, weightedMedian sampleValues sampleWeights = .ok median ∧
        (∃ i, (∀ k, sampleValues i ≤ sampleValues k) ∧ sampleValues i ≤ median) ∧
        (∃ i, (∀ k, sampleValues k ≤ sampleValues i) ∧ median ≤ sampleValues i) ∧
        ∑ i with sampleValues i < median, sampleWeights i ≤
          (∑ i, sampleWeights i) / 2 + 1 / 10 ^ 10 ∧
        ∑ i with median < sampleValues i, sampleWeights i ≤ (∑ i, sampleWeights i) / 2 :=
  ⟨by decide +kernel,
    weightedMedian_halves sampleValues sampleWeights (by decide +kernel) (by decide +kernel)⟩

variable {m : Nat}

theorem decisionOutcome_isWeightedMedian {rep : DVector n} (hrep : rep ∈ stdSimplex ℚ (Fin n))
    (filled : FilledMatrix n m) (catchP : Rat) (j : Fin m) :
    IsWeightedMedian (fun i => filled i j) rep (decisionOutcome filled rep catchP true j) := by
  have htotal : 0 < ∑ i, rep i := by
    rw [hrep.2]
    exact zero_lt_one
  obtain ⟨median, hmedian, his⟩ :=
    exists_weightedMedian (fun i => filled i j) rep hrep.1 htotal
  rw [decisionOutcome, if_pos rfl, hmedian]
  exact his

theorem factory_isWeightedMedian {rep : DVector n} (hn : n ≠ 0) (hm : m ≠ 0)
    (hrep : rep ∈ stdSimplex ℚ (Fin n)) (prinComp : PrinComp) (votes : VoteMatrix n m)
    (catchP : Rat) (scaledFlags : Fin m → Bool) :
    ∃ result, factory prinComp votes rep catchP scaledFlags = .ok result ∧
      ∀ j, scaledFlags j = true →
        IsWeightedMedian (fun i => (fillNa votes rep catchP).filled i j) result.agents.smoothRep
          (result.decisions j) := by
  obtain ⟨result, hresult, hsmooth⟩ :=
    factory_succeeds hn hm hrep prinComp votes catchP scaledFlags
  refine ⟨result, hresult, ?_⟩
  intro j hscaled
  rw [factory, if_neg fun h => h.elim hm hn] at hresult
  obtain ⟨agents, -, hagents⟩ := bind_eq_ok_iff.mp hresult
  obtain rfl := Except.ok.inj hagents
  dsimp only at hsmooth ⊢
  rw [hscaled]
  exact decisionOutcome_isWeightedMedian hsmooth _ catchP j

end Truthcoin.WeightedMedian
