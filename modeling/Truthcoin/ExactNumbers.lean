import Truthcoin.Lmsr
import Truthcoin.Trading

/-!
# Exact numbers

Types of numbers on which the operations do not round: the rationals, on which the model runs,
and the reals. On them a conversion to satoshis rounds an amount up or down by less than one.
-/

namespace Truthcoin

/-- The operations are those of the real numbers that `val` gives. -/
structure Exact {F : Type} [F64 F] (val : F → ℝ) : Prop where
  ofRat : ∀ q : ℚ, val (F64.ofRat q) = q
  lt : ∀ a b : F, F64.lt a b = true ↔ val a < val b
  le : ∀ a b : F, F64.le a b = true ↔ val a ≤ val b
  ceil : ∀ a : F, val (F64.ceil a) = ⌈val a⌉
  floor : ∀ a : F, val (F64.floor a) = ⌊val a⌋
  toU64 : ∀ (a : F) (n : Nat), n < 2 ^ 64 → val a = n → F64.toU64 a = n

/-- So are the operations that round a product to the nearest number. -/
structure ExactOps {F : Type} [F64 F] (val : F → ℝ) : Prop extends Exact val where
  add : ∀ a b : F, val (F64.add a b) = val a + val b
  sub : ∀ a b : F, val (F64.sub a b) = val a - val b
  mul : ∀ a b : F, val (F64.mul a b) = val a * val b
  div : ∀ a b : F, val (F64.div a b) = val a / val b
  max : ∀ a b : F, val (F64.max a b) = Max.max (val a) (val b)
  round : ∀ a : F, val (F64.round a) =
    if val a < 0 then -(⌊-val a + 1 / 2⌋ : ℝ) else ⌊val a + 1 / 2⌋

/-- So are the exponential and the logarithm. -/
structure ExactReal {F : Type} [ExpF64 F] (val : F → ℝ) : Prop extends ExactOps val where
  log : ∀ a : F, val (F64.log a) = Real.log (val a)
  exp : ∀ a : F, val (ExpF64.exp a) = Real.exp (val a)

theorem exact_real : Exact (id : ℝ → ℝ) where
  ofRat _ := rfl
  lt a b := decide_eq_true_iff
  le a b := decide_eq_true_iff
  ceil _ := rfl
  floor _ := rfl
  toU64 a n hlt ha := by
    obtain rfl : a = n := ha
    change (max 0 (min (2 ^ 64 - 1) ⌊(n : ℝ)⌋)).toNat = n
    rw [Int.floor_natCast]
    omega

theorem ceil_rat (a : ℚ) : a.ceil = ⌈a⌉ := by
  have hneg : ⌊-a⌋ = -⌈a⌉ := Int.floor_neg
  rw [Rat.ceil_eq_neg_floor_neg]
  exact neg_eq_iff_eq_neg.mpr hneg

theorem exact_rat : Exact (fun q : ℚ => (q : ℝ)) where
  ofRat _ := rfl
  lt a b := decide_eq_true_iff.trans Rat.cast_lt.symm
  le a b := decide_eq_true_iff.trans Rat.cast_le.symm
  ceil a := by
    change ((a.ceil : ℚ) : ℝ) = _
    rw [Rat.ceil_cast, Rat.cast_intCast, ceil_rat]
  floor a := by
    rw [Rat.floor_cast]
    exact Rat.cast_intCast a.floor
  toU64 a n hlt ha := by
    have hq : a = n := by exact_mod_cast ha
    subst hq
    change (truncRat 0 (2 ^ 64 - 1) (n : ℚ)).toNat = n
    have hfloor : (n : ℚ).floor = n := by exact_mod_cast Rat.floor_intCast n
    rw [truncRat, if_neg (not_lt.mpr n.cast_nonneg), hfloor]
    omega

theorem exactReal_real : ExactReal (id : ℝ → ℝ) where
  toExact := exact_real
  add _ _ := rfl
  sub _ _ := rfl
  mul _ _ := rfl
  div _ _ := rfl
  max _ _ := rfl
  round _ := rfl
  log _ := rfl
  exp _ := rfl

theorem exactOps_rat : ExactOps (fun q : ℚ => (q : ℝ)) where
  toExact := exact_rat
  add := Rat.cast_add
  sub := Rat.cast_sub
  mul := Rat.cast_mul
  div := Rat.cast_div
  max a b := by
    have hmax : F64.max a b = Max.max a b := by
      change (if a < b then b else a) = _
      split
      · rename_i hlt
        exact (max_eq_right hlt.le).symm
      · rename_i hge
        exact (max_eq_left (not_lt.mp hge)).symm
    rw [hmax, Rat.cast_max]
  round a := by
    have hfloor (x : ℚ) : ((x.floor : ℚ) : ℝ) = (⌊(x : ℝ)⌋ : ℝ) := by
      rw [Rat.floor_cast]
      exact Rat.cast_intCast x.floor
    change ((roundRat a : ℚ) : ℝ) = _
    rw [roundRat]
    split
    · rename_i hneg
      rw [if_pos (Rat.cast_lt_zero.mpr hneg), Rat.cast_neg, hfloor]
      push_cast
      rfl
    · rename_i hnonneg
      rw [if_neg fun hneg => hnonneg (Rat.cast_lt_zero.mp hneg), hfloor]
      push_cast
      rfl

namespace Exact

open Truthcoin.Fallible Truthcoin.Trading

variable {F : Type} [F64 F] {val : F → ℝ} {value : F} {n : Nat}

theorem zero (h : Exact val) : val F64.zero = 0 :=
  (h.ofRat 0).trans Rat.cast_zero

theorem toSats_of_round (h : Exact val) (mode : Rounding) {z : Int}
    (hz : val (roundWith mode value) = z) (hsats : toSats value mode = .ok n) :
    0 ≤ val value ∧ (0 ≤ z → (n : ℤ) = z) := by
  simp only [toSats, bind_eq_ok_iff, ensure_eq_ok_iff, Except.ok.injEq] at hsats
  obtain ⟨_, -, _, hvalue, _, hfits, rfl⟩ := hsats
  have hnonneg : ¬val value < val F64.zero := by
    rw [← h.lt, hvalue]
    exact Bool.false_ne_true
  have hlt : ¬val (F64.ofRat (2 ^ 64)) ≤ val (roundWith mode value) := by
    rw [← h.le, hfits]
    exact Bool.false_ne_true
  rw [h.zero] at hnonneg
  refine ⟨not_lt.mp hnonneg, fun hpos => ?_⟩
  obtain ⟨k, rfl⟩ := Int.eq_ofNat_of_zero_le hpos
  have hbound : k < 2 ^ 64 := by
    rw [h.ofRat, hz, not_le] at hlt
    have hcast : ((2 ^ 64 : ℚ) : ℝ) = ((2 ^ 64 : ℕ) : ℝ) := by norm_num
    rw [hcast, Int.cast_natCast] at hlt
    exact Nat.cast_lt.mp hlt
  rw [h.toU64 _ k hbound (by rw [hz, Int.cast_natCast])]

theorem toSats_up (h : Exact val) (hsats : toSats value .up = .ok n) :
    val value ≤ n ∧ (n : ℝ) < val value + 1 := by
  obtain ⟨hvalue, hn⟩ := h.toSats_of_round .up (h.ceil value) hsats
  have hcast : (n : ℝ) = (⌈val value⌉ : ℝ) := by exact_mod_cast hn (Int.ceil_nonneg hvalue)
  rw [hcast]
  exact ⟨Int.le_ceil _, Int.ceil_lt_add_one _⟩

theorem toSats_down (h : Exact val) (hsats : toSats value .down = .ok n) :
    (n : ℝ) ≤ val value ∧ val value < n + 1 := by
  obtain ⟨hvalue, hn⟩ := h.toSats_of_round .down (h.floor value) hsats
  have hcast : (n : ℝ) = (⌊val value⌋ : ℝ) := by
    exact_mod_cast hn (Int.floor_nonneg.mpr hvalue)
  rw [hcast]
  exact ⟨Int.floor_le _, Int.lt_floor_add_one _⟩

end Exact

end Truthcoin
