import Truthcoin.ExactNumbers

/-!
# Costs in exact numbers

On numbers whose operations do not round, the market maker computes the real costs and the real
temperature.
-/

namespace Truthcoin.ExactCosts

open Truthcoin.Fallible Truthcoin.Arithmetic Truthcoin.Blocks Truthcoin.Trading Truthcoin.Lmsr

section

variable {F : Type} [F64 F] {val : F → ℝ}

theorem val_ofNat (h : Exact val) (n : Nat) : val (F64.ofNat n) = n := by
  rw [F64.ofNat, h.ofRat, Rat.cast_natCast]

theorem val_ofInt (h : Exact val) (n : Int) : val (F64.ofInt n) = n := by
  rw [F64.ofInt, h.ofRat, Rat.cast_intCast]

theorem val_sum (h : ExactOps val) (xs : List F) : val (F64.sum xs) = (xs.map val).sum := by
  have hfold (start : F) :
      val (xs.foldl F64.add start) = val start + (xs.map val).sum := by
    induction xs generalizing start with
    | nil => rw [List.foldl_nil, List.map_nil, List.sum_nil, add_zero]
    | cons x xs ih =>
        rw [List.foldl_cons, ih, h.add, List.map_cons, List.sum_cons, add_assoc]
  rw [F64.sum, hfold, h.zero, zero_add]

theorem val_foldl_max (h : ExactOps val) (xs : List F) (start : F) :
    val (xs.foldl F64.max start) = (xs.map val).foldl F64.max (val start) := by
  induction xs generalizing start with
  | nil => rfl
  | cons x xs ih =>
      rw [List.foldl_cons, ih, h.max]
      rfl

end

variable {F : Type} [ExpF64 F] {val : F → ℝ} {beta c : F} {shares : List F}

theorem val_maxShare (h : ExactOps val) (shares : List F) :
    val (maxShare shares) = maxShare (shares.map val) := by
  cases shares with
  | nil => exact h.zero.trans Rat.cast_zero.symm
  | cons share shares => exact val_foldl_max h shares share

theorem val_sharesToF64 (h : Exact val) (shares : List I64) :
    (sharesToF64 shares).map val = sharesToF64 shares := by
  rw [sharesToF64, List.map_map]
  refine List.map_congr_left fun share _ => ?_
  exact (val_ofInt h share.val).trans (Rat.cast_intCast share.val).symm

theorem inRange_val_iff (h : Exact val) :
    (F64.le beta minBeta = false ∧ F64.le maxBeta beta = false) ↔ InRange (val beta) := by
  have hlow : F64.le beta minBeta = false ↔ 1 / 10 ^ 6 < val beta := by
    rw [← Bool.not_eq_true, h.le, minBeta, h.ofRat, not_le]
    push_cast
    rfl
  have hhigh : F64.le maxBeta beta = false ↔ val beta < 10 ^ 12 := by
    rw [← Bool.not_eq_true, h.le, maxBeta, h.ofRat, not_le]
    push_cast
    rfl
  rw [hlow, hhigh]
  exact ⟨fun hbeta => ⟨hbeta.1, hbeta.2⟩, fun hbeta => ⟨hbeta.above, hbeta.below⟩⟩

theorem sumExp_pos (h : ExactReal val) (hne : shares ≠ []) (beta : F) :
    0 < val (F64.sum (shares.map fun share =>
      ExpF64.exp (F64.div (F64.sub share (maxShare shares)) beta))) := by
  rw [val_sum h.toExactOps, List.map_map]
  refine List.sum_pos _ (fun x hx => ?_) (by simpa using hne)
  obtain ⟨share, -, rfl⟩ := List.mem_map.mp hx
  rw [Function.comp_apply, h.exp]
  exact Real.exp_pos _

/-- On finite numbers the market maker computes a cost whenever its temperature is in range. -/
theorem costFunction_ok (h : ExactReal val) (hfinite : ∀ a : F, F64.isFinite a = true)
    (hbeta : InRange (val beta)) (hne : shares ≠ []) :
    costFunction beta shares = .ok (F64.mul beta (F64.add
      (F64.log (F64.sum (shares.map fun share =>
        ExpF64.exp (F64.div (F64.sub share (maxShare shares)) beta))))
      (F64.div (maxShare shares) beta))) := by
  have hfull : ¬ shares.isEmpty = true := by simpa using hne
  have hpositive (x : F) (hx : 0 < val x) : F64.le x F64.zero = false := by
    rw [← Bool.not_eq_true, h.le, h.zero, not_le]
    exact hx
  simp only [costFunction, calculateCoreExpLn, bind_eq_ok_iff, ensure_eq_ok_iff, if_neg hfull,
    Except.ok.injEq]
  exact ⟨_, ⟨(), (inRange_val_iff h.toExact).mpr hbeta, (),
    List.all_eq_true.mpr fun x _ => hfinite x, (),
    ⟨hpositive _ (sumExp_pos h hne beta), hfinite _⟩, (), hfinite _, rfl⟩, rfl⟩

theorem val_costFunction (h : ExactReal val) (hne : shares ≠ [])
    (hcost : costFunction beta shares = .ok c) :
    InRange (val beta) ∧ val c = cost (val beta) (shares.map val) := by
  have hfull : ¬ shares.isEmpty = true := by simpa using hne
  simp only [costFunction, calculateCoreExpLn, bind_eq_ok_iff, ensure_eq_ok_iff, if_neg hfull,
    Except.ok.injEq] at hcost
  obtain ⟨_, ⟨_, hbeta, _, -, _, -, _, -, rfl⟩, rfl⟩ := hcost
  have hrange := (inRange_val_iff h.toExact).mp hbeta
  have hmapped : shares.map val ≠ [] := fun hnil => hne (List.map_eq_nil_iff.mp hnil)
  refine ⟨hrange, ?_⟩
  rw [← shifted_eq hrange.pos hmapped (maxShare (shares.map val)), ← val_maxShare h.toExactOps]
  simp only [h.mul, h.add, h.log, h.div, val_sum h.toExactOps, List.map_map]
  refine congrArg (fun xs : List ℝ => _ * (Real.log xs.sum + _)) (List.map_congr_left ?_)
  intro share _
  simp only [Function.comp_apply, h.exp, h.div, h.sub]

theorem val_calculateUpdateCost (h : ExactReal val) {current new : List F} (hne : current ≠ [])
    (hcost : calculateUpdateCost current new beta = .ok c) :
    current.length = new.length ∧ InRange (val beta) ∧
      val c = cost (val beta) (new.map val) - cost (val beta) (current.map val) := by
  simp only [calculateUpdateCost, bind_eq_ok_iff, ensure_eq_ok_iff, Except.ok.injEq] at hcost
  obtain ⟨_, hlength, currentCost, hcurrent, newCost, hnew, rfl⟩ := hcost
  have hne' : new ≠ [] := List.ne_nil_of_length_pos (hlength ▸ List.length_pos_of_ne_nil hne)
  obtain ⟨hrange, hcurrent⟩ := val_costFunction h hne hcurrent
  obtain ⟨-, hnew⟩ := val_costFunction h hne' hnew
  rw [h.sub, hcurrent, hnew]
  exact ⟨hlength, hrange, rfl⟩

theorem val_updateCost (h : ExactReal val) {L : Library F} (hL : MarketMaker L)
    {old new : List I64} (hne : old ≠ []) (hcost : L.updateCost old new beta = some c) :
    val c = cost (val beta) (sharesToF64 new) - cost (val beta) (sharesToF64 old) := by
  have hne' : (sharesToF64 old : List F) ≠ [] := fun hnil => hne (List.map_eq_nil_iff.mp hnil)
  rw [hL, toOption_eq_some_iff] at hcost
  obtain ⟨-, -, hval⟩ := val_calculateUpdateCost h hne' hcost
  rwa [val_sharesToF64 h.toExact, val_sharesToF64 h.toExact] at hval

theorem val_deriveBeta (h : ExactReal val) (base n : Nat) :
    val (deriveBetaFromLiquidity base n : F) = deriveBetaFromLiquidity base n := by
  have hlog : val (F64.log (F64.ofNat n : F)) = F64.log (F64.ofNat n : ℝ) := by
    rw [h.log, val_ofNat h.toExact]
    exact congrArg Real.log (Rat.cast_natCast n).symm
  have hseven : val (F64.ofRat 7 : F) = (F64.ofRat 7 : ℝ) := h.ofRat 7
  have hle : F64.le (F64.log (F64.ofNat n : F)) F64.zero =
      F64.le (F64.log (F64.ofNat n : ℝ)) F64.zero := by
    rw [Bool.eq_iff_iff, h.le, exact_real.le, hlog, h.zero]
    exact Iff.of_eq (congrArg _ exact_real.zero.symm)
  unfold deriveBetaFromLiquidity
  simp only [hle]
  split
  · exact hseven
  · split
    · exact hseven
    · rw [h.div, hlog, val_ofNat h.toExact]
      exact congrArg (· / _) (Rat.cast_natCast base).symm

end Truthcoin.ExactCosts
