import Truthcoin.OutcomeSpace
import Truthcoin.RationalRounding

/-!
# Final prices

With rational numbers for doubles, the final prices of a market are the product of the
results of its decisions: they are a distribution over the outcomes, and its marginal in
each dimension is the result of the decision of that dimension.
-/

namespace Truthcoin.FinalPrices

open Truthcoin.Types Truthcoin.Fallible Truthcoin.Decisions Truthcoin.Markets
open Truthcoin.Markets.Market Truthcoin.Grid Truthcoin.RationalRounding

/-- The outcomes that the votes on a decision can have. -/
def Produced (decision : Decision Rat) (outcome : Option Rat) : Prop :=
  ∀ o, outcome = some o →
    match decision.decisionType with
    | .binary => o = 0 ∨ o = 1 / 2 ∨ o = 1
    | .scaled .. => 0 ≤ o ∧ o ≤ 1
    | .category options => o = 1 / 2 ∨ ∃ k < options.length, o = k

/-- A single dimension is not over options, a categorical one is. -/
def Fits (decision : Decision Rat) : DimensionSpec → Prop
  | .single _ => decision.isCategorical = false
  | .categorical _ => decision.isCategorical = true

/-- What a decision gives to a state of its dimension. -/
def result (decision : Decision Rat) (outcome : Option Rat) (q : Nat) : Rat :=
  match decision.decisionType, outcome with
  | .binary, some o =>
      if o = 0 then if q = 0 then 1 else 0
      else if o = 1 then if q = 1 then 1 else 0
      else 1 / 2
  | .binary, none => 1 / 2
  | .scaled .., some o => if q = 0 then 1 - o else o
  | .scaled .., none => 1 / 2
  | .category options, some o =>
      if o = 1 / 2 then 1 / options.length else if o = q then 1 else 0
  | .category options, none => 1 / options.length

def outcomeOf (decisionOutcomes : List (DecisionId × Rat)) (d : DecisionId) : Option Rat :=
  (decisionOutcomes.find? fun o => o.1 = d).map Prod.snd

theorem singleAxis_eq {decision : Decision Rat} {outcome : Option Rat}
    (hcategory : decision.isCategorical = false) (houtcome : Produced decision outcome) :
    singleAxis decision.isScaled (outcome.getD (F64.ofRat (1 / 2))) =
      (List.range 2).map (result decision outcome) := by
  have hrange : List.range 2 = [0, 1] := rfl
  rw [hrange, List.map_cons, List.map_cons, List.map_nil]
  cases htype : decision.decisionType with
  | binary =>
      have hscaled : decision.isScaled = false := by rw [Decision.isScaled, htype]
      cases outcome with
      | none =>
          simp only [hscaled, result, htype]
          decide +kernel
      | some o =>
          have ho := houtcome o rfl
          rw [htype] at ho
          rcases ho with rfl | rfl | rfl <;>
            · simp only [hscaled, result, htype]
              decide +kernel
  | scaled low high increment =>
      have hscaled : decision.isScaled = true := by rw [Decision.isScaled, htype]
      rw [hscaled, singleAxis, if_pos rfl]
      cases outcome with
      | none =>
          simp only [result, htype]
          decide +kernel
      | some o =>
          simp only [result, htype]
          rfl
  | category options =>
      rw [Decision.isCategorical, htype] at hcategory
      cases hcategory

theorem natCast_ne_half (k : Nat) : (k : Rat) ≠ 1 / 2 := by
  intro h
  have htwo : ((2 * k : Nat) : Rat) = (1 : Nat) := by
    push_cast
    rw [h]
    norm_num
  have := Nat.cast_injective htwo
  omega

theorem realWinner_natCast {n k : Nat} (hn : n ≤ 256) (hk : k < n) :
    realWinner n (k : Rat) = some k := by
  have hhalf : F64.eq (k : Rat) (F64.ofRat (1 / 2)) = false :=
    decide_eq_false (natCast_ne_half k)
  have hround : F64.round (k : Rat) = k := roundRat_intCast (k : ℤ)
  have hnear : F64.lt Trading.epsilon (F64.abs (F64.sub (k : Rat) k)) = false := by
    rw [abs_eq]
    change decide ((1 : Rat) / 2 ^ 52 < |(k : Rat) - k|) = false
    rw [sub_self, abs_zero]
    exact decide_eq_false (by norm_num)
  have hindex : F64.toI64 (k : Rat) = k := by
    have hfloor : ⌊(k : Rat)⌋ = k := Int.floor_natCast k
    refine (truncRat_of_nonneg (by norm_num) (Nat.cast_nonneg k) ?_).trans hfloor
    rw [hfloor]
    norm_num
    omega
  simp only [realWinner, hhalf, hround, hnear, hindex]
  have hbounds : (0 : ℤ) ≤ k ∧ (k : ℤ) < n := by omega
  rw [if_pos hbounds]
  rfl

theorem categoricalAxis_eq {decision : Decision Rat} {outcome : Option Rat}
    {options : List String} (htype : decision.decisionType = .category options)
    (hn : options.length ≤ 256) (houtcome : Produced decision outcome) :
    categoricalAxis options.length outcome =
      (List.range options.length).map (result decision outcome) := by
  have huniform : (∀ q, result decision outcome q = 1 / options.length) →
      outcome.bind (realWinner options.length) = none →
      categoricalAxis options.length outcome =
        (List.range options.length).map (result decision outcome) := by
    intro hresult hwinner
    rw [categoricalAxis, hwinner, funext hresult, List.map_const', List.length_range]
    rfl
  cases outcome with
  | none => exact huniform (fun q => by simp only [result, htype]) rfl
  | some o =>
      have ho := houtcome o rfl
      rw [htype] at ho
      rcases ho with rfl | ⟨k, hk, rfl⟩
      · refine huniform (fun q => ?_) ?_
        · simp only [result, htype]
          rfl
        · have hinconclusive : (F64.eq (1 / 2 : Rat) (F64.ofRat (1 / 2)) ||
              !F64.isFinite (1 / 2 : Rat)) = true := by
            decide +kernel
          exact if_pos hinconclusive
      · rw [categoricalAxis, Option.bind_some, realWinner_natCast hn hk]
        refine List.map_congr_left fun q _ => ?_
        simp only [result, htype, if_neg (natCast_ne_half k), Nat.cast_inj]
        by_cases hq : q = k
        · rw [if_pos hq, if_pos hq.symm]
          rfl
        · rw [if_neg hq, if_neg (Ne.symm hq)]
          rfl

variable {decisionOutcomes : List (DecisionId × Rat)} {decisions : DecisionMap Rat}

/-- What the decision of a dimension gives to a state. -/
def resultOf (decisionOutcomes : List (DecisionId × Rat)) (decisions : DecisionMap Rat)
    (spec : DimensionSpec) (q : Nat) : Rat :=
  (decisions.get spec.decisionId).elim 0 fun decision =>
    result decision (outcomeOf decisionOutcomes spec.decisionId) q

/-- A dimension over a decision of its kind, with an outcome that its votes can have. -/
def Settled (decisionOutcomes : List (DecisionId × Rat)) (decisions : DecisionMap Rat)
    (spec : DimensionSpec) : Prop :=
  ∃ decision, decisions.get spec.decisionId = some decision ∧ Fits decision spec ∧
    Produced decision (outcomeOf decisionOutcomes spec.decisionId)

theorem axisOf_eq {spec : DimensionSpec} (hsettled : Settled decisionOutcomes decisions spec)
    (hrange : tradeableRange decisions spec ≤ 256) :
    axisOf decisionOutcomes decisions spec =
      (List.range (tradeableRange decisions spec)).map
        (resultOf decisionOutcomes decisions spec) := by
  obtain ⟨decision, hdecision, hfits, hproduced⟩ := hsettled
  have hresult : resultOf decisionOutcomes decisions spec =
      result decision (outcomeOf decisionOutcomes spec.decisionId) := by
    funext q
    rw [resultOf, hdecision]
    rfl
  rw [hresult]
  cases spec with
  | single d =>
      have haxis := singleAxis_eq hfits hproduced
      rw [axisOf, hdecision]
      exact haxis
  | categorical d =>
      cases htype : decision.decisionType with
      | category options =>
          have hcount : ((decisions.get d).bind Decision.optionCount) = some options.length := by
            change decisions.get d = some decision at hdecision
            rw [hdecision, Option.bind_some, Decision.optionCount, htype]
          have hn : options.length ≤ 256 := by
            rw [tradeableRange, hcount] at hrange
            exact hrange
          have haxis := categoricalAxis_eq htype hn hproduced
          rw [tradeableRange, hcount]
          change categoricalAxis (((decisions.get d).bind Decision.optionCount).getD 2) _ = _
          rw [hcount]
          exact haxis
      | binary | scaled low high increment =>
          rw [Fits, Decision.isCategorical, htype] at hfits
          cases hfits

theorem sum_two (f : Nat → Rat) : ((List.range 2).map f).sum = f 0 + f 1 := by
  simp [List.range_succ]

/-- The results of a decision are a distribution. -/
theorem result_distribution {decision : Decision Rat} {outcome : Option Rat} {n : Nat}
    (hn : match decision.decisionType with
      | .category options => n = options.length ∧ 0 < n
      | _ => n = 2)
    (houtcome : Produced decision outcome) :
    (∀ q, 0 ≤ result decision outcome q) ∧
      ((List.range n).map (result decision outcome)).sum = 1 := by
  cases htype : decision.decisionType with
  | binary =>
      rw [htype] at hn
      subst hn
      rw [sum_two]
      cases outcome with
      | none => simp only [result, htype]; norm_num
      | some o =>
          have ho := houtcome o rfl
          rw [htype] at ho
          simp only [result, htype]
          constructor
          · intro q
            split_ifs <;> norm_num
          · rcases ho with rfl | rfl | rfl <;> norm_num
  | scaled low high increment =>
      rw [htype] at hn
      subst hn
      rw [sum_two]
      cases outcome with
      | none => simp only [result, htype]; norm_num
      | some o =>
          have ho := houtcome o rfl
          rw [htype] at ho
          simp only [result, htype]
          constructor
          · intro q
            split_ifs <;> linarith [ho.1, ho.2]
          · norm_num
  | category options =>
      rw [htype] at hn
      obtain ⟨rfl, hpos⟩ := hn
      have huniform : ((List.range options.length).map
          fun _ => (1 : Rat) / options.length).sum = 1 := by
        have hne : (options.length : Rat) ≠ 0 := by exact_mod_cast hpos.ne'
        rw [List.map_const', List.length_range, List.sum_replicate, nsmul_eq_mul]
        field_simp
      have hflat : result decision outcome = (fun _ => 1 / (options.length : Rat)) →
          (∀ q, 0 ≤ result decision outcome q) ∧
            ((List.range options.length).map (result decision outcome)).sum = 1 := by
        intro hresult
        rw [hresult]
        exact ⟨fun _ => by positivity, huniform⟩
      cases outcome with
      | none =>
          apply hflat
          funext q
          simp only [result, htype]
      | some o =>
          have ho := houtcome o rfl
          rw [htype] at ho
          rcases ho with rfl | ⟨k, hk, rfl⟩
          · apply hflat
            funext q
            simp only [result, htype]
            rfl
          · have hresult : result decision (some (k : Rat)) = fun q => if q = k then 1 else 0 := by
              funext q
              simp only [result, htype, if_neg (natCast_ne_half k), Nat.cast_inj]
              exact if_congr eq_comm rfl rfl
            rw [hresult]
            constructor
            · intro q
              dsimp only
              split_ifs <;> norm_num
            · exact sum_range_ite hk 1

theorem foldl_weight {f : Rat → List Rat × Nat → Rat}
    (hf : ∀ p axis q, f p (axis, q) = p * axis.getD q 1) (axes : List (List Rat))
    (combo : List Nat) (p : Rat) : (axes.zip combo).foldl f p = p * weight axes combo := by
  induction axes generalizing combo p with
  | nil => exact (mul_one p).symm
  | cons axis axes ih =>
      cases combo with
      | nil => exact (mul_one p).symm
      | cons q combo => rw [List.zip_cons_cons, List.foldl_cons, ih, hf, weight, mul_assoc]

theorem jointProbability_eq (axes : List (List Rat)) (combo : List Nat) :
    jointProbability axes combo = weight axes combo := by
  unfold jointProbability
  refine (foldl_weight ?_ axes combo F64.one).trans (one_mul _)
  intro p axis q
  dsimp only
  rw [List.getD_eq_getElem?_getD]
  cases axis[q]? with
  | none => exact (mul_one p).symm
  | some r => rfl

/-- Sum of the prices of the outcomes with a given state in one dimension. -/
def marginal (m : Market Rat) (prices : List Rat) (j q : Nat) : Rat :=
  (((m.outcomes.zip prices).filter fun entry => entry.1[j]? = some q).map Prod.snd).sum

theorem marginal_map (m : Market Rat) (f : List Nat → Rat) (j q : Nat) :
    marginal m (m.outcomes.map f) j q =
      ((m.outcomes.filter fun combo => combo[j]? = some q).map f).sum := by
  unfold marginal
  induction m.outcomes with
  | nil => rfl
  | cons combo combos ih =>
      rw [List.map_cons, List.zip_cons_cons, List.filter_cons, List.filter_cons]
      split
      · rw [List.map_cons, List.map_cons, List.sum_cons, List.sum_cons, ih]
      · exact ih

/-- Product of what the decisions give to the states of a combination. -/
def productOf (decisionOutcomes : List (DecisionId × Rat)) (decisions : DecisionMap Rat)
    (specs : List DimensionSpec) (combo : List Nat) : Rat :=
  ((specs.zip combo).map fun entry =>
    resultOf decisionOutcomes decisions entry.1 entry.2).prod

section

variable {specs : List DimensionSpec}

/-- The results of the dimensions, state by state. -/
def axesOf (decisionOutcomes : List (DecisionId × Rat)) (decisions : DecisionMap Rat)
    (specs : List DimensionSpec) : List (List Rat) :=
  specs.map fun spec =>
    (List.range (tradeableRange decisions spec)).map (resultOf decisionOutcomes decisions spec)

theorem widths_axesOf (decisionOutcomes : List (DecisionId × Rat)) (decisions : DecisionMap Rat)
    (specs : List DimensionSpec) :
    widths (axesOf decisionOutcomes decisions specs) =
      specs.map (tradeableRange decisions) := by
  rw [widths, axesOf, List.map_map]
  exact List.map_congr_left fun spec _ => by simp

theorem weight_axesOf {combo : List Nat}
    (hcombo : combo ∈ grid (specs.map (tradeableRange decisions))) :
    weight (axesOf decisionOutcomes decisions specs) combo =
      productOf decisionOutcomes decisions specs combo := by
  induction specs generalizing combo with
  | nil =>
      rw [grid.eq_def, List.map_nil] at hcombo
      rfl
  | cons spec specs ih =>
      obtain ⟨q, combo, hq, hrest, rfl⟩ :=
        List.forall₂_cons_right_iff.mp (mem_grid_iff.mp hcombo)
      have hentry : ((List.range (tradeableRange decisions spec)).map
          (resultOf decisionOutcomes decisions spec)).getD q 1 =
          resultOf decisionOutcomes decisions spec q := by
        rw [List.getD_eq_getElem _ _ (by simpa using hq), List.getElem_map, List.getElem_range]
      rw [productOf, List.zip_cons_cons, List.map_cons, List.prod_cons, ← productOf,
        ← ih (mem_grid_iff.mpr hrest), axesOf, List.map_cons, ← axesOf, weight, hentry]

theorem resultOf_distribution {spec : DimensionSpec}
    (hsettled : Settled decisionOutcomes decisions spec)
    (hrange : 2 ≤ tradeableRange decisions spec) :
    (∀ q, 0 ≤ resultOf decisionOutcomes decisions spec q) ∧
      ((List.range (tradeableRange decisions spec)).map
        (resultOf decisionOutcomes decisions spec)).sum = 1 := by
  obtain ⟨decision, hdecision, hfits, hproduced⟩ := hsettled
  have hresult : resultOf decisionOutcomes decisions spec =
      result decision (outcomeOf decisionOutcomes spec.decisionId) := by
    funext q
    rw [resultOf, hdecision]
    rfl
  rw [hresult]
  refine result_distribution ?_ hproduced
  cases spec with
  | single d =>
      cases htype : decision.decisionType with
      | category options =>
          rw [Fits, Decision.isCategorical, htype] at hfits
          cases hfits
      | binary | scaled low high increment => rfl
  | categorical d =>
      change decisions.get d = some decision at hdecision
      cases htype : decision.decisionType with
      | category options =>
          rw [tradeableRange, hdecision, Option.bind_some, Decision.optionCount, htype] at hrange ⊢
          exact ⟨rfl, Nat.lt_of_lt_of_le Nat.zero_lt_two hrange⟩
      | binary | scaled low high increment =>
          rw [Fits, Decision.isCategorical, htype] at hfits
          cases hfits

theorem weight_axesOf_nonneg
    (hsettled : ∀ spec ∈ specs, Settled decisionOutcomes decisions spec)
    (hrange : ∀ spec ∈ specs, 2 ≤ tradeableRange decisions spec) {combo : List Nat} :
    0 ≤ weight (axesOf decisionOutcomes decisions specs) combo := by
  induction specs generalizing combo with
  | nil => exact zero_le_one
  | cons spec specs ih =>
      rw [List.forall_mem_cons] at hsettled hrange
      cases combo with
      | nil => exact zero_le_one
      | cons q combo =>
          refine mul_nonneg ?_ (ih hsettled.2 hrange.2)
          rw [List.getD_eq_getElem?_getD, List.getElem?_map]
          cases (List.range (tradeableRange decisions spec))[q]? with
          | none => exact zero_le_one
          | some p => exact (resultOf_distribution hsettled.1 hrange.1).1 p

theorem prod_sums_axesOf
    (hsettled : ∀ spec ∈ specs, Settled decisionOutcomes decisions spec)
    (hrange : ∀ spec ∈ specs, 2 ≤ tradeableRange decisions spec) :
    ∀ sum ∈ (axesOf decisionOutcomes decisions specs).map List.sum, sum = 1 := by
  intro sum hsum
  obtain ⟨axis, haxis, rfl⟩ := List.mem_map.mp hsum
  obtain ⟨spec, hspec, rfl⟩ := List.mem_map.mp haxis
  exact (resultOf_distribution (hsettled spec hspec) (hrange spec hspec)).2

end

section

variable {computeMarketId : ComputeMarketId} {b : MarketBuilder Rat} {height : Nat}
  {m : Market Rat}

theorem calculateFinalPrices_eq (h : b.build computeMarketId height decisions = .ok m)
    (hsettled : ∀ spec ∈ m.dimensionSpecs, Settled decisionOutcomes decisions spec) :
    m.calculateFinalPrices decisionOutcomes decisions =
        m.outcomes.map (weight (axesOf decisionOutcomes decisions m.dimensionSpecs)) ∧
      (m.outcomes.map (weight (axesOf decisionOutcomes decisions m.dimensionSpecs))).sum = 1 := by
  have hbounds := fun spec (hspec : spec ∈ m.dimensionSpecs) =>
    tradeableRange_bounds (dimensions_of_build h).1 hspec
  have haxes : m.dimensionSpecs.map (axisOf decisionOutcomes decisions) =
      axesOf decisionOutcomes decisions m.dimensionSpecs :=
    List.map_congr_left fun spec hspec => axisOf_eq (hsettled spec hspec) (hbounds spec hspec).2
  have hprices : m.outcomes.map (jointProbability
      (m.dimensionSpecs.map (axisOf decisionOutcomes decisions))) =
        m.outcomes.map (weight (axesOf decisionOutcomes decisions m.dimensionSpecs)) := by
    rw [haxes]
    exact List.map_congr_left fun combo _ => jointProbability_eq _ combo
  have hsum : (m.outcomes.map
      (weight (axesOf decisionOutcomes decisions m.dimensionSpecs))).sum = 1 := by
    rw [outcomes_of_build h, ← widths_axesOf decisionOutcomes, sum_weight]
    exact List.prod_eq_one
      (prod_sums_axesOf hsettled fun spec hspec => (hbounds spec hspec).1)
  refine ⟨?_, hsum⟩
  unfold calculateFinalPrices
  dsimp only
  rw [← Market.outcomes, hprices, sum_eq, hsum]
  have hpositive : F64.lt F64.zero (1 : Rat) = true := by decide +kernel
  rw [if_pos hpositive]
  exact List.map_id'' (fun p => div_one p) _

/-- The final prices of a market are a distribution over its outcomes, the product of the
results of its decisions, and the marginal of a dimension is the result of its decision. -/
theorem finalPrices_product (h : b.build computeMarketId height decisions = .ok m)
    (hsettled : ∀ spec ∈ m.dimensionSpecs, Settled decisionOutcomes decisions spec) :
    let prices := m.calculateFinalPrices decisionOutcomes decisions
    prices = m.outcomes.map (productOf decisionOutcomes decisions m.dimensionSpecs) ∧
      prices.length = m.outcomes.length ∧
      (∀ p ∈ prices, 0 ≤ p ∧ p ≤ 1) ∧
      prices.sum = 1 ∧
      ∀ j spec q, m.dimensionSpecs[j]? = some spec → q < tradeableRange decisions spec →
        marginal m prices j q = resultOf decisionOutcomes decisions spec q := by
  obtain ⟨hprices, hsum⟩ := calculateFinalPrices_eq h hsettled
  have hbounds := fun spec (hspec : spec ∈ m.dimensionSpecs) =>
    (tradeableRange_bounds (dimensions_of_build h).1 hspec).1
  have hnonneg : ∀ p ∈ m.outcomes.map
      (weight (axesOf decisionOutcomes decisions m.dimensionSpecs)), 0 ≤ p := by
    intro p hp
    obtain ⟨combo, -, rfl⟩ := List.mem_map.mp hp
    exact weight_axesOf_nonneg hsettled hbounds
  dsimp only
  rw [hprices]
  refine ⟨?_, List.length_map _, ?_, hsum, ?_⟩
  · refine List.map_congr_left fun combo hcombo => weight_axesOf ?_
    rwa [outcomes_of_build h] at hcombo
  · intro p hp
    exact ⟨hnonneg p hp, hsum ▸ List.single_le_sum hnonneg p hp⟩
  · intro j spec q hspec hq
    have haxis : (axesOf decisionOutcomes decisions m.dimensionSpecs)[j]? =
        some ((List.range (tradeableRange decisions spec)).map
          (resultOf decisionOutcomes decisions spec)) := by
      rw [axesOf, List.getElem?_map, hspec]
      rfl
    have hothers : (((axesOf decisionOutcomes decisions m.dimensionSpecs).eraseIdx j).map
        List.sum).prod = 1 := by
      refine List.prod_eq_one fun sum hsum => ?_
      refine prod_sums_axesOf hsettled hbounds sum ?_
      exact ((List.eraseIdx_sublist _ j).map List.sum).subset hsum
    rw [marginal_map, outcomes_of_build h,
      ← widths_axesOf decisionOutcomes,
      sum_weight_of_digit haxis (by simpa using hq), hothers, mul_one,
      List.getD_eq_getElem _ _ (by simpa using hq), List.getElem_map, List.getElem_range]

end

def sampleOutcomes : List (DecisionId × Rat) := [(0, 1), (1, 1 / 4), (2, 2)]

theorem settled_sample :
    ∀ spec ∈ sampleBuilder.dimensionSpecs, Settled sampleOutcomes sampleDecisions spec := by
  intro spec hspec
  simp only [sampleBuilder, List.mem_cons, List.not_mem_nil, or_false] at hspec
  rcases hspec with rfl | rfl | rfl
  · refine ⟨sampleDecision .binary, rfl, rfl, ?_⟩
    rintro o ⟨⟩
    exact .inr (.inr rfl)
  · refine ⟨sampleDecision (.scaled 0 100 1), rfl, rfl, ?_⟩
    rintro o ⟨⟩
    change (0 : Rat) ≤ 1 / 4 ∧ (1 / 4 : Rat) ≤ 1
    norm_num
  · refine ⟨sampleDecision (.category ["a", "b", "c"]), rfl, rfl, ?_⟩
    rintro o ⟨⟩
    exact .inr ⟨2, by decide, rfl⟩

/-- The binary decision is true, the scaled one a quarter, and the third option has won. -/
theorem finalPrices_product_sample :
    ∃ m, sampleBuilder.build (fun _ _ _ _ => 0) 0 sampleDecisions = .ok m ∧
      (m.calculateFinalPrices sampleOutcomes sampleDecisions).sum = 1 ∧
      marginal m (m.calculateFinalPrices sampleOutcomes sampleDecisions) 1 1 = 1 / 4 := by
  have hcomputed : holds (sampleBuilder.build (fun _ _ _ _ => 0) 0 sampleDecisions)
      (fun m => m.dimensionSpecs = sampleBuilder.dimensionSpecs) = true := by
    decide +kernel
  obtain ⟨m, hbuild, hspecs⟩ := holds_iff.mp hcomputed
  replace hspecs := of_decide_eq_true hspecs
  have hsettled : ∀ spec ∈ m.dimensionSpecs, Settled sampleOutcomes sampleDecisions spec := by
    rw [hspecs]
    exact settled_sample
  obtain ⟨-, -, -, hsum, hmarginal⟩ := finalPrices_product hbuild hsettled
  refine ⟨m, hbuild, hsum, ?_⟩
  rw [hmarginal 1 (.single 1) 1 (by rw [hspecs]; rfl) (Nat.lt_succ_self 1)]
  decide +kernel

end Truthcoin.FinalPrices
