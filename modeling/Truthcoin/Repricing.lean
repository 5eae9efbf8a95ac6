import Truthcoin.Decisions

/-!
# The price of a period after a window

A window that sold `s` of `a` slots multiplies the price by `2 ^ (2 s / a - 1)`, in fixed
point and with three exact cases. The factor grows with the sales, from one half to two, and
none of its intermediate results leaves its machine type.
-/

namespace Truthcoin.Repricing

open Truthcoin.Types Truthcoin.Fallible Truthcoin.Decisions

def inI128 (x : Int) : Option Int :=
  if -2 ^ 127 ≤ x ∧ x < 2 ^ 127 then some x else none

def inU128 (x : Nat) : Option Nat :=
  if x < 2 ^ 128 then some x else none

def inU64 (x : Nat) : Option Nat :=
  if x < 2 ^ 64 then some x else none

/-- One more term of the series, from the term before it and the sum so far. -/
def seriesStep (xQ62 : Nat) (acc : Nat × Nat) (k : Nat) : Option (Nat × Nat) := do
  let product ← inU128 (acc.1 * xQ62)
  let term := product / 2 ^ 62 / k
  let sum ← inU128 (acc.2 + term)
  some (term, sum)

/-- `pow2FracQ62`, without a result where an operation overflows. -/
def pow2FracQ62Checked (fracQ32 : Nat) : Option Nat := do
  let fracQ62 ← inU128 (fracQ32 * 2 ^ 30)
  let product ← inU128 (fracQ62 * 0x2C5C85FDF473DE6B)
  let acc ← (List.range' 1 11).foldlM (seriesStep (product / 2 ^ 62)) (2 ^ 62, 2 ^ 62)
  some acc.2

/-- `pow2FixedQ32`, without a result where an operation overflows or a shift loses bits. -/
def pow2FixedQ32Checked (eFp : Int) : Option Nat := do
  let expInt := eFp / 2 ^ 32
  let frac := (eFp % 2 ^ 32).toNat
  let fracFactor ← pow2FracQ62Checked frac
  let resultQ32 := fracFactor / 2 ^ 30
  if 0 ≤ expInt then
    if 64 ≤ expInt then some (2 ^ 128 - 1) else inU128 (resultQ32 * 2 ^ expInt.toNat)
  else
    if 64 ≤ -expInt then some 0 else some (resultQ32 / 2 ^ (-expInt).toNat)

/-- `reprice`, without a result where an operation overflows or a cast truncates. -/
def repriceChecked (pOld sales availableAtOpen : Nat) : Option Nat :=
  if availableAtOpen = 0 then
    some pOld
  else if sales = 0 then
    some (pOld / 2)
  else if sales = availableAtOpen then
    some (saturatingMul pOld 2)
  else if saturatingMul sales 2 = availableAtOpen then
    some pOld
  else do
    let doubled ← inI128 ((sales : Int) * 2)
    let scaled ← inI128 (doubled * 2 ^ 32)
    let eFp ← inI128 (scaled / availableAtOpen - 2 ^ 32)
    let factor ← pow2FixedQ32Checked eFp
    let product ← inU128 (pOld * factor)
    inU64 (product / 2 ^ 32)

theorem inI128_of_range {x : Int} (hlow : -2 ^ 127 ≤ x) (hhigh : x < 2 ^ 127) :
    inI128 x = some x :=
  if_pos ⟨hlow, hhigh⟩

theorem inU128_of_lt {x : Nat} (h : x < 2 ^ 128) : inU128 x = some x := if_pos h

theorem inU64_of_lt {x : Nat} (h : x < 2 ^ 64) : inU64 x = some x := if_pos h

/-- The step of the series as `pow2FracQ62` takes it. -/
def seriesTerm (xQ62 : Nat) (acc : Nat × Nat) (k : Nat) : Nat × Nat :=
  let term := acc.1 * xQ62 / 2 ^ 62 / k
  (term, acc.2 + term)

theorem pow2FracQ62_eq (frac : Nat) :
    pow2FracQ62 frac = ((List.range' 1 11).foldl
      (seriesTerm (frac * 2 ^ 30 * 0x2C5C85FDF473DE6B / 2 ^ 62)) (2 ^ 62, 2 ^ 62)).2 := rfl

theorem foldl_seriesTerm_mono {x y : Nat} (hxy : x ≤ y) (ks : List Nat) {a b : Nat × Nat}
    (hab : a ≤ b) : ks.foldl (seriesTerm x) a ≤ ks.foldl (seriesTerm y) b := by
  induction ks generalizing a b with
  | nil => exact hab
  | cons k ks ih =>
      apply ih
      have hterm : a.1 * x / 2 ^ 62 / k ≤ b.1 * y / 2 ^ 62 / k :=
        Nat.div_le_div_right (Nat.div_le_div_right (Nat.mul_le_mul hab.1 hxy))
      exact ⟨hterm, Nat.add_le_add hab.2 hterm⟩

theorem pow2FracQ62_mono {f g : Nat} (h : f ≤ g) : pow2FracQ62 f ≤ pow2FracQ62 g := by
  rw [pow2FracQ62_eq, pow2FracQ62_eq]
  refine (foldl_seriesTerm_mono ?_ _ le_rfl).2
  exact Nat.div_le_div_right (Nat.mul_le_mul_right _ (Nat.mul_le_mul_right _ h))

theorem pow2FracQ62_bounds {f : Nat} (h : f < 2 ^ 32) :
    2 ^ 62 ≤ pow2FracQ62 f ∧ pow2FracQ62 f ≤ 2 ^ 63 := by
  have hfirst : pow2FracQ62 0 = 2 ^ 62 := by decide
  have hlast : pow2FracQ62 (2 ^ 32 - 1) ≤ 2 ^ 63 := by decide
  constructor
  · exact hfirst ▸ pow2FracQ62_mono (Nat.zero_le f)
  · exact (pow2FracQ62_mono (Nat.le_sub_one_of_lt h)).trans hlast

/-- The terms do not grow, so neither they nor their sum overflow. -/
theorem foldlM_seriesStep {x : Nat} (hx : x ≤ 2 ^ 62) (ks : List Nat) {term sum : Nat}
    (hterm : term ≤ 2 ^ 62) (hsum : sum + ks.length * 2 ^ 62 < 2 ^ 128) :
    ks.foldlM (seriesStep x) (term, sum) = some (ks.foldl (seriesTerm x) (term, sum)) := by
  induction ks generalizing term sum with
  | nil => rfl
  | cons k ks ih =>
      have hproduct : term * x ≤ 2 ^ 62 * 2 ^ 62 := Nat.mul_le_mul hterm hx
      have hnext : term * x / 2 ^ 62 / k ≤ 2 ^ 62 :=
        (Nat.div_le_self _ _).trans (Nat.div_le_of_le_mul hproduct)
      rw [List.length_cons] at hsum
      have hterm' : term * x < 2 ^ 128 := by omega
      have hsum' : sum + term * x / 2 ^ 62 / k < 2 ^ 128 := by omega
      have hstep : seriesStep x (term, sum) k =
          some (term * x / 2 ^ 62 / k, sum + term * x / 2 ^ 62 / k) := by
        simp only [seriesStep, inU128_of_lt hterm', Option.bind_eq_bind, Option.bind_some,
          inU128_of_lt hsum']
      rw [List.foldlM_cons, hstep, List.foldl_cons]
      exact ih hnext (by omega)

theorem pow2FracQ62Checked_eq {f : Nat} (h : f < 2 ^ 32) :
    pow2FracQ62Checked f = some (pow2FracQ62 f) := by
  have hfrac : f * 2 ^ 30 < 2 ^ 62 := by omega
  have hproduct : f * 2 ^ 30 * 0x2C5C85FDF473DE6B ≤ 2 ^ 62 * 2 ^ 62 :=
    Nat.mul_le_mul hfrac.le (by norm_num)
  have hx : f * 2 ^ 30 * 0x2C5C85FDF473DE6B / 2 ^ 62 ≤ 2 ^ 62 := Nat.div_le_of_le_mul hproduct
  have hroom : 2 ^ 62 + (List.range' 1 11).length * 2 ^ 62 < 2 ^ 128 := by
    rw [List.length_range']
    norm_num
  rw [pow2FracQ62Checked, inU128_of_lt (hfrac.trans (by norm_num)), Option.bind_eq_bind,
    Option.bind_some, inU128_of_lt (hproduct.trans_lt (by norm_num)), Option.bind_eq_bind,
    Option.bind_some, foldlM_seriesStep hx _ le_rfl hroom, pow2FracQ62_eq]
  rfl

/-- The factor for a window with `u / 2 ^ 33` of its slots sold. -/
def factorQ32 (u : Nat) : Nat :=
  if u < 2 ^ 32 then pow2FracQ62 u / 2 ^ 30 / 2 else pow2FracQ62 (u - 2 ^ 32) / 2 ^ 30

theorem factorQ32_lower {u : Nat} (h : u < 2 ^ 32) :
    2 ^ 31 ≤ factorQ32 u ∧ factorQ32 u ≤ 2 ^ 32 := by
  obtain ⟨hlow, hhigh⟩ := pow2FracQ62_bounds h
  rw [factorQ32, if_pos h]
  omega

theorem factorQ32_upper {u : Nat} (hlow : 2 ^ 32 ≤ u) (hhigh : u < 2 ^ 33) :
    2 ^ 32 ≤ factorQ32 u ∧ factorQ32 u ≤ 2 ^ 33 := by
  obtain ⟨hone, htwo⟩ := pow2FracQ62_bounds (show u - 2 ^ 32 < 2 ^ 32 by omega)
  rw [factorQ32, if_neg (Nat.not_lt.mpr hlow)]
  omega

theorem factorQ32_mono {u v : Nat} (huv : u ≤ v) (hv : v < 2 ^ 33) :
    factorQ32 u ≤ factorQ32 v := by
  rcases Nat.lt_or_ge u (2 ^ 32) with hu | hu
  · rcases Nat.lt_or_ge v (2 ^ 32) with hlow | hhigh
    · rw [factorQ32, if_pos hu, factorQ32, if_pos hlow]
      exact Nat.div_le_div_right (Nat.div_le_div_right (pow2FracQ62_mono huv))
    · exact (factorQ32_lower hu).2.trans (factorQ32_upper hhigh hv).1
  · rw [factorQ32, if_neg (Nat.not_lt.mpr hu), factorQ32, if_neg (by omega)]
    exact Nat.div_le_div_right (pow2FracQ62_mono (Nat.sub_le_sub_right huv _))

theorem pow2FixedQ32_low {u : Nat} (h : u < 2 ^ 32) :
    pow2FixedQ32 ((u : Int) - 2 ^ 32) = factorQ32 u ∧
      pow2FixedQ32Checked ((u : Int) - 2 ^ 32) = some (factorQ32 u) := by
  have hexp : ((u : Int) - 2 ^ 32) / 2 ^ 32 = -1 := by omega
  have hfrac : (((u : Int) - 2 ^ 32) % 2 ^ 32).toNat = u := by omega
  constructor
  · rw [pow2FixedQ32, hexp, hfrac, if_neg (by decide), if_neg (by decide), factorQ32, if_pos h]
    norm_num
  · rw [pow2FixedQ32Checked, hexp, hfrac, pow2FracQ62Checked_eq h, Option.bind_eq_bind,
      Option.bind_some, if_neg (by decide), if_neg (by decide), factorQ32, if_pos h]
    norm_num

theorem pow2FixedQ32_high {u : Nat} (hlow : 2 ^ 32 ≤ u) (hhigh : u < 2 ^ 33) :
    pow2FixedQ32 ((u : Int) - 2 ^ 32) = factorQ32 u ∧
      pow2FixedQ32Checked ((u : Int) - 2 ^ 32) = some (factorQ32 u) := by
  have hexp : ((u : Int) - 2 ^ 32) / 2 ^ 32 = 0 := by omega
  have hfrac : (((u : Int) - 2 ^ 32) % 2 ^ 32).toNat = u - 2 ^ 32 := by omega
  have hbelow : u - 2 ^ 32 < 2 ^ 32 := by omega
  have hfits : pow2FracQ62 (u - 2 ^ 32) / 2 ^ 30 < 2 ^ 128 := by
    obtain ⟨-, hbound⟩ := pow2FracQ62_bounds hbelow
    omega
  have hnot : ¬ u < 2 ^ 32 := Nat.not_lt.mpr hlow
  constructor
  · rw [pow2FixedQ32, hexp, hfrac, if_pos (by decide), if_neg (by decide), factorQ32, if_neg hnot,
      Int.toNat_zero, pow_zero, Nat.mul_one, Nat.mod_eq_of_lt hfits]
  · rw [pow2FixedQ32Checked, hexp, hfrac, pow2FracQ62Checked_eq hbelow, Option.bind_eq_bind,
      Option.bind_some, if_pos (by decide), if_neg (by decide), factorQ32, if_neg hnot,
      Int.toNat_zero, pow_zero, Nat.mul_one, inU128_of_lt hfits]

theorem pow2FixedQ32_eq {u : Nat} (h : u < 2 ^ 33) :
    pow2FixedQ32 ((u : Int) - 2 ^ 32) = factorQ32 u ∧
      pow2FixedQ32Checked ((u : Int) - 2 ^ 32) = some (factorQ32 u) :=
  (Nat.lt_or_ge u (2 ^ 32)).elim pow2FixedQ32_low (fun hhigh => pow2FixedQ32_high hhigh h)

/-- The factor with the three exact cases. -/
def repriceFactor (sales available : Nat) : Nat :=
  if sales = 0 then 2 ^ 31
  else if sales = available then 2 ^ 33
  else if saturatingMul sales 2 = available then 2 ^ 32
  else factorQ32 (sales * 2 ^ 33 / available)

variable {p s s' a : Nat}

theorem exponent_lt (hs : s < a) : s * 2 ^ 33 / a < 2 ^ 33 := by
  rw [Nat.div_lt_iff_lt_mul (by omega), Nat.mul_comm]
  exact Nat.mul_lt_mul_of_pos_left hs (by decide)

theorem exponent_low (hs : 2 * s < a) : s * 2 ^ 33 / a < 2 ^ 32 := by
  rw [Nat.div_lt_iff_lt_mul (by omega)]
  omega

theorem exponent_high (ha : 0 < a) (hs : a ≤ 2 * s) : 2 ^ 32 ≤ s * 2 ^ 33 / a := by
  rw [Nat.le_div_iff_mul_le ha]
  omega

theorem repriceFactor_bounds (ha : 0 < a) (hs : s ≤ a) :
    2 ^ 31 ≤ repriceFactor s a ∧ repriceFactor s a ≤ 2 ^ 33 := by
  unfold repriceFactor
  split
  · omega
  · split
    · omega
    · split
      · omega
      · rcases Nat.lt_or_ge (2 * s) a with hlow | hhigh
        · have hbounds := factorQ32_lower (exponent_low hlow)
          omega
        · have hbounds := factorQ32_upper (exponent_high ha hhigh)
            (exponent_lt (show s < a by omega))
          omega

theorem below_half (ha : a ≤ amountMax) (hss : s < s') (hmid : saturatingMul s' 2 = a)
    (hnot : saturatingMul s 2 ≠ a) : 2 * s < a := by
  unfold saturatingMul at hmid hnot
  omega

theorem repriceFactor_mono (hmax : a ≤ amountMax) (ha : 0 < a) (hss : s ≤ s') (hs : s' ≤ a) :
    repriceFactor s a ≤ repriceFactor s' a := by
  rcases Nat.eq_or_lt_of_le hss with rfl | hlt
  · exact le_rfl
  have hbounds := repriceFactor_bounds ha (hss.trans hs)
  have hbounds' := repriceFactor_bounds ha hs
  by_cases hzero : s = 0
  · rw [repriceFactor, if_pos hzero]
    exact hbounds'.1
  by_cases hall : s' = a
  · have htwo : repriceFactor s' a = 2 ^ 33 := by
      rw [repriceFactor, if_neg (by omega), if_pos hall]
    rw [htwo]
    exact hbounds.2
  have hs₁ : s' < a := by omega
  by_cases hmid : saturatingMul s 2 = a
  · have hone : repriceFactor s a = 2 ^ 32 := by
      rw [repriceFactor, if_neg hzero, if_neg (by omega), if_pos hmid]
    have hhigh : a ≤ 2 * s' := by
      unfold saturatingMul at hmid
      omega
    rw [hone, repriceFactor, if_neg (by omega), if_neg hall]
    split
    · exact le_rfl
    · exact (factorQ32_upper (exponent_high ha hhigh) (exponent_lt hs₁)).1
  · rw [repriceFactor, if_neg hzero, if_neg (by omega), if_neg hmid, repriceFactor,
      if_neg (by omega), if_neg hall]
    split
    · rename_i hmid'
      exact (factorQ32_lower (exponent_low (below_half hmax hlt hmid' hmid))).2
    · exact factorQ32_mono (Nat.div_le_div_right (Nat.mul_le_mul_right _ hss)) (exponent_lt hs₁)

theorem exponent_cast (s a : Nat) :
    (s : Int) * 2 * 2 ^ 32 / a = ((s * 2 ^ 33 / a : Nat) : Int) := by
  have hdouble : (s : Int) * 2 * 2 ^ 32 = ((s * 2 ^ 33 : Nat) : Int) := by omega
  rw [hdouble, Int.natCast_div]

theorem product_fits (hp : p < 2 ^ 63) (ha : 0 < a) (hs : s < a) :
    p * factorQ32 (s * 2 ^ 33 / a) < 2 ^ 96 := by
  have hfactor : factorQ32 (s * 2 ^ 33 / a) ≤ 2 ^ 33 := by
    rcases Nat.lt_or_ge (2 * s) a with hlow | hhigh
    · exact (factorQ32_lower (exponent_low hlow)).2.trans (by norm_num)
    · exact (factorQ32_upper (exponent_high ha hhigh) (exponent_lt hs)).2
  calc p * factorQ32 (s * 2 ^ 33 / a)
      ≤ p * 2 ^ 33 := Nat.mul_le_mul_left p hfactor
    _ < 2 ^ 96 := by omega

theorem interpolated_eq (hp : p < 2 ^ 63) (ha : 0 < a) (hs : s < a) (hmax : a ≤ amountMax)
    (hzero : s ≠ 0) (hmid : saturatingMul s 2 ≠ a) :
    reprice p s a = .ok (p * factorQ32 (s * 2 ^ 33 / a) / 2 ^ 32) ∧
      repriceChecked p s a = some (p * factorQ32 (s * 2 ^ 33 / a) / 2 ^ 32) := by
  have hne : a ≠ 0 := by omega
  obtain ⟨hpower, hchecked⟩ := pow2FixedQ32_eq (exponent_lt hs)
  have hproduct := product_fits hp ha hs
  have hword : s < 2 ^ 64 := hs.trans_le (hmax.trans (by decide))
  constructor
  · rw [reprice, if_neg hne, if_neg hzero, if_neg hs.ne, if_neg hmid, exponent_cast]
    dsimp only
    rw [hpower, ensure_pos (hproduct.trans (by norm_num)), ok_bind, Nat.mod_eq_of_lt (by omega)]
  · have hexp : ∀ u : Nat, u < 2 ^ 33 → inI128 ((u : Int) - 2 ^ 32) = some ((u : Int) - 2 ^ 32) :=
      fun u hu => inI128_of_range (by omega) (by omega)
    rw [repriceChecked, if_neg hne, if_neg hzero, if_neg hs.ne, if_neg hmid,
      inI128_of_range (by omega) (by omega), Option.bind_eq_bind, Option.bind_some,
      inI128_of_range (by omega) (by omega), Option.bind_eq_bind, Option.bind_some,
      exponent_cast, hexp _ (exponent_lt hs), Option.bind_some, hchecked,
      Option.bind_some, inU128_of_lt (hproduct.trans (by norm_num)), Option.bind_some,
      inU64_of_lt (by omega)]

theorem reprice_eq (hp : p < 2 ^ 63) (ha : 0 < a) (hmax : a ≤ amountMax) (hs : s ≤ a) :
    reprice p s a = .ok (p * repriceFactor s a / 2 ^ 32) ∧
      repriceChecked p s a = some (p * repriceFactor s a / 2 ^ 32) := by
  have hne : a ≠ 0 := by omega
  by_cases hzero : s = 0
  · have hhalf : p * repriceFactor s a / 2 ^ 32 = p / 2 := by
      rw [repriceFactor, if_pos hzero]
      omega
    rw [hhalf, reprice, repriceChecked, if_neg hne, if_neg hne, if_pos hzero, if_pos hzero]
    exact ⟨rfl, rfl⟩
  by_cases hall : s = a
  · have hdouble : p * repriceFactor s a / 2 ^ 32 = saturatingMul p 2 := by
      have hroom : p * 2 ≤ amountMax := (show p * 2 ≤ 2 ^ 64 - 1 by omega)
      rw [repriceFactor, if_neg hzero, if_pos hall, saturatingMul, Nat.min_eq_left hroom]
      omega
    rw [hdouble, reprice, repriceChecked, if_neg hne, if_neg hne, if_neg hzero, if_neg hzero,
      if_pos hall, if_pos hall]
    exact ⟨rfl, rfl⟩
  by_cases hmid : saturatingMul s 2 = a
  · have hsame : p * repriceFactor s a / 2 ^ 32 = p := by
      rw [repriceFactor, if_neg hzero, if_neg hall, if_pos hmid]
      exact Nat.mul_div_cancel p (Nat.two_pow_pos 32)
    rw [hsame, reprice, repriceChecked, if_neg hne, if_neg hne, if_neg hzero, if_neg hzero,
      if_neg hall, if_neg hall, if_pos hmid, if_pos hmid]
    exact ⟨rfl, rfl⟩
  · rw [repriceFactor, if_neg hzero, if_neg hall, if_neg hmid]
    exact interpolated_eq hp ha (by omega) hmax hzero hmid

/-- Repricing does not overflow, at most halves or doubles the price, and never lowers it for
more sales. -/
theorem reprice_bounded_mono (hp : p < 2 ^ 63) (ha : 0 < a) (hmax : a ≤ amountMax) :
    ∃ price : Nat → Nat,
      (∀ s ≤ a, repriceChecked p s a = some (price s) ∧ reprice p s a = .ok (price s) ∧
        p / 2 ≤ price s ∧ price s ≤ 2 * p) ∧
      ∀ s s', s ≤ s' → s' ≤ a → price s ≤ price s' := by
  refine ⟨fun s => p * repriceFactor s a / 2 ^ 32, ?_, ?_⟩
  · intro s hs
    obtain ⟨hprice, hchecked⟩ := reprice_eq hp ha hmax hs
    obtain ⟨hlow, hhigh⟩ := repriceFactor_bounds ha hs
    have hhalf : p * 2 ^ 31 ≤ p * repriceFactor s a := Nat.mul_le_mul_left p hlow
    have hdouble : p * repriceFactor s a ≤ p * 2 ^ 33 := Nat.mul_le_mul_left p hhigh
    refine ⟨hchecked, hprice, ?_, ?_⟩
    · dsimp only
      omega
    · dsimp only
      omega
  · intro s s' hss hs
    exact Nat.div_le_div_right (Nat.mul_le_mul_left p (repriceFactor_mono hmax ha hss hs))

theorem reprice_bounded_mono_sample :
    ∃ price : Nat → Nat,
      (∀ s ≤ 100, repriceChecked 10000 s 100 = some (price s) ∧
        reprice 10000 s 100 = .ok (price s) ∧ 10000 / 2 ≤ price s ∧ price s ≤ 2 * 10000) ∧
      ∀ s s', s ≤ s' → s' ≤ 100 → price s ≤ price s' :=
  reprice_bounded_mono (by decide) (by decide) (by decide)

end Truthcoin.Repricing
