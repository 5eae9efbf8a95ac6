import Truthcoin.Blocks
import Truthcoin.LogSumExp

/-!
# The market maker's cost function

The logarithmic market scoring rule: the cost of a share vector, the prices of its outcomes and
the cost of a trade between two vectors. In exact arithmetic the cost is the smooth maximum of
the shares, whose prices are a distribution.
-/

namespace Truthcoin

/-- Double-precision numbers with the exponential. -/
class ExpF64 (F : Type) extends F64 F where
  exp : F → F

/-- Real numbers in place of doubles, to state what holds in exact arithmetic. -/
noncomputable instance : ExpF64 ℝ where
  ofRat q := q
  lt a b := decide (a < b)
  le a b := decide (a ≤ b)
  eq a b := decide (a = b)
  add := (· + ·)
  sub := (· - ·)
  mul := (· * ·)
  div := (· / ·)
  abs x := |x|
  max := max
  floor x := ⌊x⌋
  ceil x := ⌈x⌉
  round x := if x < 0 then -(⌊-x + 1 / 2⌋ : ℝ) else ⌊x + 1 / 2⌋
  log := Real.log
  isNan _ := false
  isFinite _ := true
  toU64 x := (max 0 (min (2 ^ 64 - 1) ⌊x⌋)).toNat
  toI64 x := max (-2 ^ 63) (min (2 ^ 63 - 1) (if x < 0 then ⌈x⌉ else ⌊x⌋))
  display _ := "a real number"
  exp := Real.exp

namespace Lmsr

open Truthcoin.Types Truthcoin.Fallible Truthcoin.Arithmetic Truthcoin.Blocks

inductive LmsrError (F : Type) where
  | invalidBeta (beta min max : F)
  | shareQuantityOverflow
  | invalidCostCalculation
  | invalidOutcomeCount (count min max : Nat)
  | precisionLoss
  | dimensionMismatch (expected actual : Nat)
  deriving DecidableEq

/-- Least number of outcomes of a market. -/
def minOutcomes : Nat := 2

section

variable {F : Type} [ExpF64 F]

def minBeta : F := F64.ofRat (1 / 10 ^ 6)

def maxBeta : F := F64.ofRat (10 ^ 12)

def lmsrPrecision : F := F64.ofRat (1 / 10 ^ 8)

/-- The greatest share. The source folds from negative infinity, which the first share
replaces. -/
def maxShare : List F → F
  | [] => F64.zero
  | share :: shares => shares.foldl F64.max share

/-- `C = β ln Σ exp(qᵢ / β)`, with the sum and its terms shifted by the greatest share. -/
def calculateCoreExpLn (beta : F) (shares : List F) :
    Except (LmsrError F) (F × F × List F) := do
  ensure (F64.le beta minBeta = false ∧ F64.le maxBeta beta = false)
    (.invalidBeta beta minBeta maxBeta)
  if shares.isEmpty then
    .ok (F64.zero, F64.zero, [])
  else
    let expShares := shares.map fun share =>
      ExpF64.exp (F64.div (F64.sub share (maxShare shares)) beta)
    ensure (expShares.all F64.isFinite = true) .shareQuantityOverflow
    let sumExp := F64.sum expShares
    ensure (F64.le sumExp F64.zero = false ∧ F64.isFinite sumExp = true) .invalidCostCalculation
    let cost := F64.mul beta (F64.add (F64.log sumExp) (F64.div (maxShare shares) beta))
    ensure (F64.isFinite cost = true) .invalidCostCalculation
    .ok (cost, sumExp, expShares)

def costFunction (beta : F) (shares : List F) : Except (LmsrError F) F := do
  let (cost, _, _) ← calculateCoreExpLn beta shares
  .ok cost

def calculatePrices (beta : F) (shares : List F) : Except (LmsrError F) (List F) := do
  let (_, sumExp, expShares) ← calculateCoreExpLn beta shares
  if F64.eq sumExp F64.zero = true then
    .ok []
  else
    let prices := expShares.map fun x => F64.div x sumExp
    ensure (F64.lt lmsrPrecision (F64.abs (F64.sub (F64.sum prices) F64.one)) = false)
      .precisionLoss
    .ok prices

def validateParams (maxOutcomes : Nat) (beta : F) (shares : List F) :
    Except (LmsrError F) (List F) := do
  ensure (F64.le beta minBeta = false ∧ F64.le maxBeta beta = false)
    (.invalidBeta beta minBeta maxBeta)
  ensure ((shares.all fun x => F64.le F64.zero x && F64.isFinite x) = true)
    .shareQuantityOverflow
  ensure (minOutcomes ≤ shares.length ∧ shares.length ≤ maxOutcomes)
    (.invalidOutcomeCount shares.length minOutcomes maxOutcomes)
  let prices ← calculatePrices beta shares
  ensure (F64.lt lmsrPrecision (F64.abs (F64.sub (F64.sum prices) F64.one)) = false)
    .precisionLoss
  .ok prices

def calculateUpdateCost (current new : List F) (beta : F) : Except (LmsrError F) F := do
  ensure (current.length = new.length) (.dimensionMismatch current.length new.length)
  let currentCost ← costFunction beta current
  let newCost ← costFunction beta new
  .ok (F64.sub newCost currentCost)

/-- Shares as numbers. -/
def sharesToF64 (shares : List I64) : List F :=
  shares.map fun share => F64.ofInt share.val

/-- The library's costs are those of the market maker. -/
def MarketMaker (L : Library F) : Prop :=
  ∀ old new beta,
    L.updateCost old new beta =
      (calculateUpdateCost (sharesToF64 old) (sharesToF64 new) beta).toOption

end

/-- The cost of a share vector. -/
noncomputable def cost (β : ℝ) (shares : List ℝ) : ℝ :=
  logSumExp β fun i : Fin shares.length => shares[i]

/-- The temperatures that the market maker accepts. -/
structure InRange (β : ℝ) : Prop where
  above : 1 / 10 ^ 6 < β
  below : β < 10 ^ 12

theorem InRange.pos {β : ℝ} (h : InRange β) : 0 < β :=
  lt_trans (by norm_num) h.above

theorem inRange_iff {β : ℝ} :
    (F64.le β minBeta = false ∧ F64.le maxBeta β = false) ↔ InRange β := by
  have hmin : (minBeta : ℝ) = 1 / 10 ^ 6 := by
    change ((1 / 10 ^ 6 : ℚ) : ℝ) = _
    norm_num
  have hmax : (maxBeta : ℝ) = 10 ^ 12 := by
    change ((10 ^ 12 : ℚ) : ℝ) = _
    norm_num
  rw [hmin, hmax]
  constructor
  · rintro ⟨hlow, hhigh⟩
    exact ⟨not_le.mp (of_decide_eq_false hlow), not_le.mp (of_decide_eq_false hhigh)⟩
  · rintro ⟨hlow, hhigh⟩
    exact ⟨decide_eq_false (not_le.mpr hlow), decide_eq_false (not_le.mpr hhigh)⟩

theorem sum_eq (xs : List ℝ) : F64.sum xs = xs.sum := by
  have hzero : (F64.zero : ℝ) = 0 := Rat.cast_zero
  rw [F64.sum, hzero, List.sum_eq_foldl]
  rfl

theorem sum_map_eq (f : ℝ → ℝ) (shares : List ℝ) :
    (shares.map f).sum = ∑ i : Fin shares.length, f shares[i] := by
  rw [← Fin.sum_univ_fun_getElem]
  rfl

variable {β : ℝ} {shares : List ℝ}

theorem shifted_eq (hβ : 0 < β) (hne : shares ≠ []) (m : ℝ) :
    β * (Real.log ((shares.map fun share => Real.exp ((share - m) / β)).sum) + m / β) =
      cost β shares := by
  have : Nonempty (Fin shares.length) := ⟨⟨0, List.length_pos_of_ne_nil hne⟩⟩
  have hshift := LogSumExp.logSumExp_sub_const hβ (fun i : Fin shares.length => shares[i]) m
  rw [sum_map_eq (fun share => Real.exp ((share - m) / β)), mul_add, mul_div_cancel₀ m hβ.ne']
  rw [logSumExp] at hshift
  rw [hshift, sub_add_cancel, cost]

/-- The exponentials of a share vector, shifted by its greatest share. -/
noncomputable def expShares (β : ℝ) (shares : List ℝ) : List ℝ :=
  shares.map fun share => Real.exp ((share - maxShare shares) / β)

theorem sum_expShares_pos (hne : shares ≠ []) : 0 < (expShares β shares).sum := by
  refine List.sum_pos _ ?_ (by simpa [expShares] using hne)
  intro x hx
  obtain ⟨share, -, rfl⟩ := List.mem_map.mp hx
  exact Real.exp_pos _

theorem calculateCoreExpLn_eq (hβ : InRange β) (hne : shares ≠ []) :
    calculateCoreExpLn β shares =
      .ok (cost β shares, (expShares β shares).sum, expShares β shares) := by
  have hpos : 0 < (expShares β shares).sum := sum_expShares_pos hne
  have hzero : (F64.zero : ℝ) = 0 := Rat.cast_zero
  have hfinite : (expShares β shares).all F64.isFinite = true := List.all_eq_true.mpr fun _ _ => rfl
  have hsum : F64.sum (expShares β shares) = (expShares β shares).sum := sum_eq _
  have hpositive : F64.le (F64.sum (expShares β shares)) F64.zero = false ∧
      F64.isFinite (F64.sum (expShares β shares)) = true := by
    rw [hsum, hzero]
    exact ⟨decide_eq_false (not_le.mpr hpos), rfl⟩
  have hcost : F64.mul β (F64.add (F64.log (F64.sum (expShares β shares)))
      (F64.div (maxShare shares) β)) = cost β shares := by
    rw [hsum]
    exact shifted_eq hβ.pos hne (maxShare shares)
  have hnot : ¬shares.isEmpty = true := by simpa using hne
  simp only [calculateCoreExpLn, bind_eq_ok_iff, ensure_eq_ok_iff, if_neg hnot]
  refine ⟨(), inRange_iff.mpr hβ, (), hfinite, (), hpositive, (), rfl, ?_⟩
  rw [← hcost, ← hsum]
  rfl

theorem inRange_of_costFunction {c : ℝ} (h : costFunction β shares = .ok c) : InRange β := by
  simp only [costFunction, calculateCoreExpLn, bind_eq_ok_iff, ensure_eq_ok_iff] at h
  obtain ⟨_, ⟨_, hrange, -⟩, -⟩ := h
  exact inRange_iff.mp hrange

theorem costFunction_eq (hβ : InRange β) (hne : shares ≠ []) :
    costFunction β shares = .ok (cost β shares) := by
  rw [costFunction, calculateCoreExpLn_eq hβ hne, ok_bind]

theorem calculateUpdateCost_eq_ok_iff {current new : List ℝ} (hne : current ≠ []) {c : ℝ} :
    calculateUpdateCost current new β = .ok c ↔
      current.length = new.length ∧ InRange β ∧ c = cost β new - cost β current := by
  simp only [calculateUpdateCost, bind_eq_ok_iff, ensure_eq_ok_iff, Except.ok.injEq]
  constructor
  · rintro ⟨_, hlength, currentCost, hcurrent, newCost, hnew, rfl⟩
    have hβ := inRange_of_costFunction hcurrent
    have hne' : new ≠ [] := List.ne_nil_of_length_pos (hlength ▸ List.length_pos_of_ne_nil hne)
    rw [costFunction_eq hβ hne] at hcurrent
    rw [costFunction_eq hβ hne'] at hnew
    obtain rfl := Except.ok.inj hcurrent
    obtain rfl := Except.ok.inj hnew
    exact ⟨hlength, hβ, rfl⟩
  · rintro ⟨hlength, hβ, rfl⟩
    have hne' : new ≠ [] := List.ne_nil_of_length_pos (hlength ▸ List.length_pos_of_ne_nil hne)
    exact ⟨(), hlength, _, costFunction_eq hβ hne, _, costFunction_eq hβ hne', rfl⟩

/-- The prices of the outcomes. -/
noncomputable def prices (β : ℝ) (shares : List ℝ) : List ℝ :=
  (expShares β shares).map fun x => x / (expShares β shares).sum

theorem sum_prices (hne : shares ≠ []) : (prices β shares).sum = 1 := by
  have hpos : 0 < (expShares β shares).sum := sum_expShares_pos hne
  simp only [prices, div_eq_mul_inv]
  rw [List.sum_map_mul_right, List.map_id', mul_inv_cancel₀ hpos.ne']

theorem price_pos (hne : shares ≠ []) : ∀ p ∈ prices β shares, 0 < p := by
  intro p hp
  simp only [prices, expShares, List.mem_map] at hp
  obtain ⟨_, ⟨share, -, rfl⟩, rfl⟩ := hp
  exact div_pos (Real.exp_pos _) (sum_expShares_pos hne)

theorem prices_getElem (i : Fin shares.length) :
    (prices β shares)[(i : Nat)]? =
      some (softmax β (fun j : Fin shares.length => shares[j]) i) := by
  have hterm (share : ℝ) : Real.exp ((share - maxShare shares) / β) =
      Real.exp (-(maxShare shares / β)) * Real.exp (share / β) := by
    rw [← Real.exp_add]
    ring_nf
  have hsum : (expShares β shares).sum =
      Real.exp (-(maxShare shares / β)) * ∑ j : Fin shares.length, Real.exp (shares[j] / β) := by
    simp only [expShares, hterm]
    rw [List.sum_map_mul_left, sum_map_eq fun share => Real.exp (share / β)]
  rw [prices, hsum]
  simp only [expShares, List.map_map, List.getElem?_map, hterm, softmax]
  rw [List.getElem?_eq_getElem i.isLt, Option.map_some, Function.comp_apply,
    mul_div_mul_left _ _ (Real.exp_pos _).ne']
  rfl

theorem prices_precise (hne : shares ≠ []) :
    F64.lt lmsrPrecision (F64.abs (F64.sub (F64.sum (prices β shares)) F64.one)) = false := by
  have hone : (F64.one : ℝ) = 1 := Rat.cast_one
  rw [sum_eq, sum_prices hne, hone]
  change decide ((((1 / 10 ^ 8 : ℚ) : ℝ)) < |(1 : ℝ) - 1|) = false
  norm_num

theorem calculatePrices_eq (hβ : InRange β) (hne : shares ≠ []) :
    calculatePrices β shares = .ok (prices β shares) := by
  have hzero : (F64.zero : ℝ) = 0 := Rat.cast_zero
  have hpositive : ¬F64.eq (expShares β shares).sum F64.zero = true := by
    rw [hzero]
    exact fun h => (sum_expShares_pos hne).ne' (of_decide_eq_true h)
  simp only [calculatePrices, calculateCoreExpLn_eq hβ hne, ok_bind, if_neg hpositive,
    bind_eq_ok_iff, ensure_eq_ok_iff]
  exact ⟨(), prices_precise hne, rfl⟩

theorem inRange_of_calculatePrices {p : List ℝ} (h : calculatePrices β shares = .ok p) :
    InRange β := by
  simp only [calculatePrices, calculateCoreExpLn, bind_eq_ok_iff, ensure_eq_ok_iff] at h
  obtain ⟨_, ⟨_, hrange, -⟩, -⟩ := h
  exact inRange_iff.mp hrange

theorem calculatePrices_eq_ok_iff (hne : shares ≠ []) {p : List ℝ} :
    calculatePrices β shares = .ok p ↔ InRange β ∧ p = prices β shares := by
  constructor
  · intro h
    have hβ := inRange_of_calculatePrices h
    rw [calculatePrices_eq hβ hne] at h
    exact ⟨hβ, (Except.ok.inj h).symm⟩
  · rintro ⟨hβ, rfl⟩
    exact calculatePrices_eq hβ hne

/-- In exact arithmetic the check of the precision never fails. -/
theorem validateParams_eq_ok_iff {maxOutcomes : Nat} {p : List ℝ} :
    validateParams maxOutcomes β shares = .ok p ↔
      InRange β ∧ (∀ x ∈ shares, 0 ≤ x) ∧ (2 ≤ shares.length ∧ shares.length ≤ maxOutcomes) ∧
        p = prices β shares := by
  have hzero : (F64.zero : ℝ) = 0 := Rat.cast_zero
  have hshares : (shares.all fun x => F64.le F64.zero x && F64.isFinite x) = true ↔
      ∀ x ∈ shares, 0 ≤ x := by
    rw [List.all_eq_true, hzero]
    apply forall₂_congr
    intro x _
    change (decide (0 ≤ x) && true) = true ↔ 0 ≤ x
    rw [Bool.and_true, decide_eq_true_iff]
  have hne (h : 2 ≤ shares.length) : shares ≠ [] :=
    List.ne_nil_of_length_pos (Nat.zero_lt_of_lt h)
  simp only [validateParams, bind_eq_ok_iff, ensure_eq_ok_iff, inRange_iff, hshares,
    Except.ok.injEq]
  constructor
  · rintro ⟨_, hβ, _, hpositive, _, hcount, q, hq, _, -, rfl⟩
    exact ⟨hβ, hpositive, hcount, ((calculatePrices_eq_ok_iff (hne hcount.1)).mp hq).2⟩
  · rintro ⟨hβ, hpositive, hcount, rfl⟩
    have hnonempty := hne hcount.1
    exact ⟨(), hβ, (), hpositive, (), hcount, _, calculatePrices_eq hβ hnonempty, (),
      prices_precise hnonempty, rfl⟩

theorem cost_of_length {n : Nat} (hn : shares.length = n) :
    cost β shares = logSumExp β fun i : Fin n => shares[i] := by
  subst hn
  rfl

/-- The cost lies above its tangent: moving one outcome costs at least its price before. -/
theorem cost_add_le (hβ : 0 < β) {i : Nat} {x y p : ℝ} (hx : shares[i]? = some x)
    (hp : (prices β shares)[i]? = some p) :
    cost β shares + p * (y - x) ≤ cost β (shares.set i y) := by
  obtain ⟨hi, rfl⟩ := List.getElem?_eq_some_iff.mp hx
  have : Nonempty (Fin shares.length) := ⟨⟨i, hi⟩⟩
  rw [prices_getElem ⟨i, hi⟩] at hp
  obtain rfl := Option.some.inj hp
  have hlength : (shares.set i y).length = shares.length := List.length_set
  have htangent := LogSumExp.logSumExp_add_le hβ (fun j : Fin shares.length => shares[j])
    fun j : Fin shares.length => (shares.set i y)[j]
  rw [Finset.sum_eq_single_of_mem ⟨i, hi⟩ (Finset.mem_univ _)] at htangent
  · rw [cost_of_length hlength]
    simpa [cost] using htangent
  · intro j _ hj
    have hne : i ≠ j := fun h => hj (Fin.ext h.symm)
    simp [List.getElem_set_ne hne]

end Lmsr

end Truthcoin
