import Mathlib

/-!
# Log-sum-exp

The smooth maximum of finitely many real numbers at a temperature. It lies above all of the
numbers, it moves along with a shift of them, and what it adds to an even spread shrinks as the
temperature grows.
-/

namespace Truthcoin

open Finset

variable {ι : Type*} [Fintype ι]

/-- The smooth maximum of `q` at the temperature `β`. -/
noncomputable def logSumExp (β : ℝ) (q : ι → ℝ) : ℝ :=
  β * Real.log (∑ i, Real.exp (q i / β))

/-- The part of the sum that each number has: the gradient of the smooth maximum. -/
noncomputable def softmax (β : ℝ) (q : ι → ℝ) (i : ι) : ℝ :=
  Real.exp (q i / β) / ∑ j, Real.exp (q j / β)

namespace LogSumExp

variable {β β' : ℝ} {q q' : ι → ℝ}

theorem sum_exp_pos [Nonempty ι] (q : ι → ℝ) : 0 < ∑ i, Real.exp (q i) :=
  sum_pos (fun i _ => Real.exp_pos (q i)) univ_nonempty

theorem le_logSumExp (hβ : 0 < β) (q : ι → ℝ) (i : ι) : q i ≤ logSumExp β q := by
  have hterm : Real.exp (q i / β) ≤ ∑ j, Real.exp (q j / β) :=
    single_le_sum (f := fun j => Real.exp (q j / β)) (fun j _ => (Real.exp_pos _).le)
      (mem_univ i)
  have hlog : q i / β ≤ Real.log (∑ j, Real.exp (q j / β)) :=
    (Real.le_log_iff_exp_le ((Real.exp_pos _).trans_le hterm)).mpr hterm
  calc q i = β * (q i / β) := (mul_div_cancel₀ (q i) hβ.ne').symm
    _ ≤ logSumExp β q := mul_le_mul_of_nonneg_left hlog hβ.le

theorem logSumExp_sub_const [Nonempty ι] (hβ : 0 < β) (q : ι → ℝ) (m : ℝ) :
    logSumExp β (fun i => q i - m) = logSumExp β q - m := by
  have hsum : ∑ i, Real.exp ((q i - m) / β) =
      Real.exp (-(m / β)) * ∑ i, Real.exp (q i / β) := by
    rw [mul_sum]
    refine sum_congr rfl fun i _ => ?_
    rw [← Real.exp_add]
    ring_nf
  rw [logSumExp, hsum, Real.log_mul (Real.exp_pos _).ne' (sum_exp_pos _).ne', Real.log_exp,
    mul_add, mul_neg, mul_div_cancel₀ m hβ.ne', logSumExp]
  ring

theorem logSumExp_const (hβ : β ≠ 0) [Nonempty ι] (m : ℝ) :
    logSumExp β (fun _ : ι => m) = m + β * Real.log (Fintype.card ι) := by
  have hcard : (Fintype.card ι : ℝ) ≠ 0 := Nat.cast_ne_zero.mpr Fintype.card_ne_zero
  rw [logSumExp, sum_const, card_univ, nsmul_eq_mul, Real.log_mul hcard (Real.exp_pos _).ne',
    Real.log_exp, mul_add, mul_div_cancel₀ m hβ, add_comm]

/-- The power mean of positive numbers grows with its exponent: here of the numbers
`exp (q i / β')` with the exponents one and `β' / β`. -/
theorem mean_exp_rpow_le [Nonempty ι] (hβ : 0 < β) (hle : β ≤ β') (q : ι → ℝ) :
    ((∑ i, Real.exp (q i / β')) / Fintype.card ι) ^ (β' / β) ≤
      (∑ i, Real.exp (q i / β)) / Fintype.card ι := by
  have hcard : (Fintype.card ι : ℝ) ≠ 0 := Nat.cast_ne_zero.mpr Fintype.card_ne_zero
  have hβ' : β' ≠ 0 := (hβ.trans_le hle).ne'
  have hmean := Real.rpow_arith_mean_le_arith_mean_rpow univ
    (fun _ : ι => (Fintype.card ι : ℝ)⁻¹) (fun i => Real.exp (q i / β'))
    (fun _ _ => inv_nonneg.mpr (Nat.cast_nonneg _))
    (by rw [sum_const, card_univ, nsmul_eq_mul, mul_inv_cancel₀ hcard])
    (fun i _ => (Real.exp_pos _).le) ((one_le_div hβ).mpr hle)
  have hpower (i : ι) : Real.exp (q i / β') ^ (β' / β) = Real.exp (q i / β) := by
    rw [← Real.exp_mul, div_mul_div_cancel₀ hβ']
  simp only [hpower, ← mul_sum] at hmean
  rwa [inv_mul_eq_div, inv_mul_eq_div] at hmean

theorem excess_antitone [Nonempty ι] (hβ : 0 < β) (hle : β ≤ β') (q : ι → ℝ) :
    logSumExp β' q - β' * Real.log (Fintype.card ι) ≤
      logSumExp β q - β * Real.log (Fintype.card ι) := by
  have hcard : (0 : ℝ) < Fintype.card ι := Nat.cast_pos.mpr Fintype.card_pos
  have hexcess (γ : ℝ) : logSumExp γ q - γ * Real.log (Fintype.card ι) =
      γ * Real.log ((∑ i, Real.exp (q i / γ)) / Fintype.card ι) := by
    rw [Real.log_div (sum_exp_pos _).ne' hcard.ne', mul_sub, logSumExp]
  have hpos (γ : ℝ) : 0 < (∑ i, Real.exp (q i / γ)) / Fintype.card ι :=
    div_pos (sum_exp_pos _) hcard
  rw [hexcess, hexcess]
  calc β' * Real.log ((∑ i, Real.exp (q i / β')) / Fintype.card ι)
      = β * (β' / β * Real.log ((∑ i, Real.exp (q i / β')) / Fintype.card ι)) := by
        rw [← mul_assoc, mul_div_cancel₀ β' hβ.ne']
    _ = β * Real.log (((∑ i, Real.exp (q i / β')) / Fintype.card ι) ^ (β' / β)) := by
        rw [Real.log_rpow (hpos β')]
    _ ≤ β * Real.log ((∑ i, Real.exp (q i / β)) / Fintype.card ι) :=
        mul_le_mul_of_nonneg_left
          (Real.log_le_log (Real.rpow_pos_of_pos (hpos β') _) (mean_exp_rpow_le hβ hle q)) hβ.le

theorem softmax_pos [Nonempty ι] (β : ℝ) (q : ι → ℝ) (i : ι) : 0 < softmax β q i :=
  div_pos (Real.exp_pos _) (sum_exp_pos _)

theorem sum_softmax [Nonempty ι] (β : ℝ) (q : ι → ℝ) : ∑ i, softmax β q i = 1 := by
  simp only [softmax, ← sum_div]
  exact div_self (sum_exp_pos _).ne'

theorem logSumExp_add_le [Nonempty ι] (hβ : 0 < β) (q q' : ι → ℝ) :
    logSumExp β q + ∑ i, softmax β q i * (q' i - q i) ≤ logSumExp β q' := by
  have hpos := sum_exp_pos fun i => q i / β
  have hjensen : Real.exp (∑ i, softmax β q i * ((q' i - q i) / β)) ≤
      ∑ i, softmax β q i * Real.exp ((q' i - q i) / β) :=
    convexOn_exp.map_sum_le (fun i _ => (softmax_pos β q i).le) (sum_softmax β q)
      fun i _ => Set.mem_univ _
  have hsum : ∑ i, Real.exp (q' i / β) =
      (∑ i, Real.exp (q i / β)) * ∑ i, softmax β q i * Real.exp ((q' i - q i) / β) := by
    rw [mul_sum]
    refine sum_congr rfl fun i _ => ?_
    rw [softmax, ← mul_assoc, mul_div_cancel₀ _ hpos.ne', ← Real.exp_add, ← add_div,
      add_sub_cancel]
  have hlog : ∑ i, softmax β q i * ((q' i - q i) / β) ≤
      Real.log (∑ i, softmax β q i * Real.exp ((q' i - q i) / β)) :=
    (Real.le_log_iff_exp_le ((Real.exp_pos _).trans_le hjensen)).mpr hjensen
  have hscale : ∑ i, softmax β q i * (q' i - q i) =
      β * ∑ i, softmax β q i * ((q' i - q i) / β) := by
    rw [mul_sum]
    refine sum_congr rfl fun i _ => ?_
    rw [mul_left_comm, mul_div_cancel₀ _ hβ.ne']
  calc logSumExp β q + ∑ i, softmax β q i * (q' i - q i)
      = β * (Real.log (∑ i, Real.exp (q i / β)) +
          ∑ i, softmax β q i * ((q' i - q i) / β)) := by
        rw [hscale, logSumExp, mul_add]
    _ ≤ β * (Real.log (∑ i, Real.exp (q i / β)) +
          Real.log (∑ i, softmax β q i * Real.exp ((q' i - q i) / β))) :=
        mul_le_mul_of_nonneg_left (add_le_add_right hlog _) hβ.le
    _ = logSumExp β q' := by
        rw [logSumExp, hsum, Real.log_mul hpos.ne' ((Real.exp_pos _).trans_le hjensen).ne']

end LogSumExp

end Truthcoin
