import Truthcoin.CostPotential
import Truthcoin.ExactCosts

/-!
# The potential of the market maker

With the temperature that is derived from the liquidity of a market, the cost function of the
market maker is a potential: its loss is bounded by the liquidity, and an amplification pays for
the losses that it makes possible.
-/

namespace Truthcoin.LmsrPotential

open Truthcoin.Types Truthcoin.Fallible Truthcoin.Arithmetic Truthcoin.Blocks Truthcoin.Trading
open Truthcoin.Lmsr Truthcoin.LogSumExp Truthcoin.CostPotential Truthcoin.ExactCosts

variable {base base' n : Nat} {shares : List I64}

/-- The cost of the shares at the temperature of a liquidity. -/
noncomputable def lmsrPotential (base : Nat) (shares : List I64) : ℝ :=
  cost (deriveBetaFromLiquidity base shares.length) (sharesToF64 shares)

theorem deriveBeta_of_le (h : n ≤ 1) : deriveBetaFromLiquidity (F := ℝ) base n = 7 := by
  rw [deriveBetaFromLiquidity, if_pos h]
  exact Rat.cast_ofNat 7

theorem deriveBeta_of_lt (h : 1 < n) :
    deriveBetaFromLiquidity (F := ℝ) base n = base / Real.log n := by
  have hlog : 0 < Real.log n := Real.log_pos (by exact_mod_cast h)
  have hnat (m : Nat) : (F64.ofNat m : ℝ) = m := Rat.cast_natCast m
  have hzero : (F64.zero : ℝ) = 0 := Rat.cast_zero
  have hpositive : ¬F64.le (F64.log (F64.ofNat n : ℝ)) F64.zero = true := by
    rw [hnat, hzero]
    exact fun hle => absurd (of_decide_eq_true hle) (not_le.mpr hlog)
  rw [deriveBetaFromLiquidity, if_neg (not_le.mpr h)]
  simp only [if_neg hpositive]
  rw [hnat, hnat]
  rfl

theorem deriveBeta_pos (hbase : 0 < base) (n : Nat) :
    0 < deriveBetaFromLiquidity (F := ℝ) base n := by
  rcases le_or_gt n 1 with hn | hn
  · rw [deriveBeta_of_le hn]
    norm_num
  · rw [deriveBeta_of_lt hn]
    exact div_pos (Nat.cast_pos.mpr hbase) (Real.log_pos (by exact_mod_cast hn))

theorem deriveBeta_mul_log (hn : 1 < n) :
    deriveBetaFromLiquidity (F := ℝ) base n * Real.log n = base := by
  rw [deriveBeta_of_lt hn, div_mul_cancel₀]
  exact (Real.log_pos (by exact_mod_cast hn)).ne'

theorem length_sharesToF64 (shares : List I64) :
    (sharesToF64 (F := ℝ) shares).length = shares.length :=
  List.length_map _

theorem mem_sharesToF64 {x : I64} (h : x ∈ shares) : (x.val : ℝ) ∈ sharesToF64 (F := ℝ) shares :=
  List.mem_map.mpr ⟨x, h, Rat.cast_intCast x.val⟩

theorem share_le_lmsrPotential (hbase : 0 < base) {x : I64} (hx : x ∈ shares) :
    (x.val : ℝ) ≤ lmsrPotential base shares := by
  obtain ⟨i, hi, heq⟩ := List.getElem_of_mem (mem_sharesToF64 hx)
  have hle := le_logSumExp (deriveBeta_pos hbase shares.length)
    (fun j : Fin (sharesToF64 (F := ℝ) shares).length => (sharesToF64 shares)[j]) ⟨i, hi⟩
  rw [lmsrPotential, cost, ← heq]
  exact hle

theorem lmsrPotential_seed (hbase : 0 < base) (hzero : ∀ x ∈ shares, x.val = 0) :
    lmsrPotential base shares ≤ base := by
  have hshares : sharesToF64 shares = List.replicate shares.length (0 : ℝ) := by
    rw [List.eq_replicate_iff]
    refine ⟨length_sharesToF64 shares, fun y hy => ?_⟩
    obtain ⟨x, hx, rfl⟩ := List.mem_map.mp hy
    rw [hzero x hx]
    exact Rat.cast_zero
  rw [lmsrPotential, hshares, cost_of_length List.length_replicate]
  simp only [Fin.getElem_fin, List.getElem_replicate]
  rcases Nat.eq_zero_or_pos shares.length with hnil | hpos
  · rw [hnil, logSumExp, Finset.univ_eq_empty, Finset.sum_empty, Real.log_zero, mul_zero]
    exact Nat.cast_nonneg base
  · have : Nonempty (Fin shares.length) := ⟨⟨0, hpos⟩⟩
    rw [logSumExp_const (deriveBeta_pos hbase _).ne', Fintype.card_fin, zero_add]
    rcases le_or_gt shares.length 1 with hone | hmany
    · rw [le_antisymm hone hpos, Nat.cast_one, Real.log_one, mul_zero]
      exact Nat.cast_nonneg base
    · exact (deriveBeta_mul_log hmany).le

theorem cost_excess_antitone {β β' : ℝ} (hβ : 0 < β) (hle : β ≤ β') {q : List ℝ} (hq : q ≠ []) :
    cost β' q - β' * Real.log q.length ≤ cost β q - β * Real.log q.length := by
  have : Nonempty (Fin q.length) := ⟨⟨0, List.length_pos_of_ne_nil hq⟩⟩
  have hexcess := excess_antitone hβ hle fun i : Fin q.length => q[i]
  rwa [Fintype.card_fin] at hexcess

theorem lmsrPotential_amplify (hbase : 0 < base) (hle : base ≤ base') :
    lmsrPotential base' shares ≤ lmsrPotential base shares + ((base' : ℝ) - base) := by
  have hle' : (base : ℝ) ≤ base' := by exact_mod_cast hle
  rcases le_or_gt shares.length 1 with hone | hmany
  · rw [lmsrPotential, lmsrPotential, deriveBeta_of_le hone, deriveBeta_of_le hone]
    linarith
  · have hlog : 0 < Real.log shares.length := Real.log_pos (by exact_mod_cast hmany)
    have hne : sharesToF64 (F := ℝ) shares ≠ [] :=
      List.ne_nil_of_length_pos (by rw [length_sharesToF64]; exact Nat.zero_lt_of_lt hmany)
    have hbeta : deriveBetaFromLiquidity (F := ℝ) base shares.length ≤
        deriveBetaFromLiquidity base' shares.length := by
      rw [deriveBeta_of_lt hmany, deriveBeta_of_lt hmany]
      exact div_le_div_of_nonneg_right hle' hlog.le
    have hexcess := cost_excess_antitone (deriveBeta_pos hbase shares.length) hbeta hne
    rw [length_sharesToF64, deriveBeta_mul_log hmany, deriveBeta_mul_log hmany] at hexcess
    rw [lmsrPotential, lmsrPotential]
    linarith

/-- In exact arithmetic the cost function of the market maker is a potential: it covers the
shares of each outcome, it starts from no more than the liquidity, and an amplification raises
it by no more than it pays. -/
theorem potential_of_marketMaker {F : Type} [ExpF64 F] {val : F → ℝ} (hval : ExactReal val)
    {L : Library F} (hL : MarketMaker L) : Potential L val lmsrPotential where
  updateCost base old new c hne hlength h := by
    rw [val_updateCost hval hL hne h, val_deriveBeta hval, lmsrPotential, lmsrPotential, ← hlength]
  share_le base shares hbase x hx := share_le_lmsrPotential hbase hx
  seed base shares hbase hzero := lmsrPotential_seed hbase hzero
  amplify base base' shares hbase hle := lmsrPotential_amplify hbase hle

open Truthcoin.TradePrices in
theorem potential_of_marketMaker_realLibrary : Potential realLibrary id lmsrPotential :=
  potential_of_marketMaker exactReal_real marketMaker_realLibrary

end Truthcoin.LmsrPotential
