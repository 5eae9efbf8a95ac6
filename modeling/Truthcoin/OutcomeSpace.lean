import Truthcoin.Grid
import Truthcoin.Markets

/-!
# The outcomes of a market

The combinations that a market trades in are the words below the tradeable sizes of its
dimensions, in order, so an outcome index and a combination determine each other.
-/

namespace Truthcoin.Markets

open Truthcoin.Types Truthcoin.Fallible Truthcoin.Decisions Truthcoin.Grid

variable {F : Type}

namespace Market

/-- The combinations that shares are traded in. -/
def outcomes (m : Market F) : List (List Nat) :=
  getValidStateCombos m.stateCombos m.dimensionSpecs

/-- Index of the outcome with one position for each decision. -/
def tradeableIndexForPositions (m : Market F) (positions : List Nat) :
    Except MarketError Nat := do
  ensure (positions.length = m.decisionIds.length) .invalidDimensions
  okOr (m.outcomes.findIdx? fun combo => combo = positions) .invalidOutcomeCombination

end Market

/-- Number of states of a dimension that are traded. -/
def tradeableRange (decisions : DecisionMap F) : DimensionSpec → Nat
  | .single _ => 2
  | .categorical d => ((decisions.get d).bind Decision.optionCount).getD 0

/-- Number of all states of a dimension. -/
def fullRange (decisions : DecisionMap F) : DimensionSpec → Nat
  | .single _ => 3
  | .categorical d => ((decisions.get d).bind Decision.optionCount).getD 0

theorem tradeableRange_le (decisions : DecisionMap F) (spec : DimensionSpec) :
    tradeableRange decisions spec ≤ fullRange decisions spec := by
  cases spec with
  | single d => exact Nat.le_succ 2
  | categorical d => exact Nat.le_refl _

theorem dimensionRange_eq {decisions : DecisionMap F} {spec : DimensionSpec} {range : Nat × Nat}
    (h : dimensionRange decisions spec = .ok range) :
    range = (fullRange decisions spec, tradeableRange decisions spec) ∧
      2 ≤ tradeableRange decisions spec := by
  cases spec with
  | single d =>
      simp only [dimensionRange, bind_eq_ok_iff, Except.ok.injEq] at h
      obtain ⟨_, -, rfl⟩ := h
      exact ⟨rfl, Nat.le_refl 2⟩
  | categorical d =>
      simp only [dimensionRange, bind_eq_ok_iff, okOr_eq_ok_iff, ensure_eq_ok_iff,
        Except.ok.injEq] at h
      obtain ⟨decision, hdecision, n, hn, _, htwo, rfl⟩ := h
      have hrange : ((decisions.get d).bind Decision.optionCount).getD 0 = n := by
        rw [hdecision, Option.bind_some, hn, Option.getD_some]
      rw [fullRange, tradeableRange, hrange]
      exact ⟨rfl, htwo⟩

theorem dimensionRanges_eq {decisions : DecisionMap F} {specs : List DimensionSpec}
    {ranges : List (Nat × Nat)} (h : specs.mapM (dimensionRange decisions) = .ok ranges) :
    ranges.map Prod.fst = specs.map (fullRange decisions) ∧
      ranges.map Prod.snd = specs.map (tradeableRange decisions) ∧
      ∀ spec ∈ specs, 2 ≤ tradeableRange decisions spec := by
  have hpairs := mapM_eq_ok_iff.mp h
  clear h
  induction hpairs with
  | nil => exact ⟨rfl, rfl, by simp⟩
  | cons hfirst _ ih =>
      obtain ⟨hfull, htradeable, htwo⟩ := ih
      obtain ⟨rfl, hfirstTwo⟩ := dimensionRange_eq hfirst
      refine ⟨by rw [List.map_cons, List.map_cons, hfull],
        by rw [List.map_cons, List.map_cons, htradeable], ?_⟩
      rw [List.forall_mem_cons]
      exact ⟨hfirstTwo, htwo⟩

theorem cartesianProduct_eq (dimensions : List Nat) :
    cartesianProduct dimensions = grid dimensions := by
  have hfold : ∀ combos : List (List Nat),
      dimensions.foldl (fun combos size => combos.flatMap fun combo =>
        (List.range size).map fun value => combo ++ [value]) combos =
        combos.flatMap fun combo => (grid dimensions).map (combo ++ ·) := by
    induction dimensions with
    | nil => simp [grid]
    | cons d ds ih =>
        intro combos
        rw [List.foldl_cons, ih, List.flatMap_assoc]
        apply List.flatMap_congr
        intro combo _
        rw [grid, List.map_flatMap, List.flatMap_map]
        apply List.flatMap_congr
        intro q _
        rw [List.map_map]
        simp [Function.comp_def]
  rw [cartesianProduct, hfold]
  simp

theorem all_tradeableState_iff {decisions : DecisionMap F} {specs : List DimensionSpec}
    {combo : List Nat} (h : List.Forall₂ (· < ·) combo (specs.map (fullRange decisions))) :
    (combo.zip specs).all tradeableState = true ↔
      List.Forall₂ (· < ·) combo (specs.map (tradeableRange decisions)) := by
  induction specs generalizing combo with
  | nil => simpa using List.forall₂_nil_right_iff.mp h
  | cons spec specs ih =>
      obtain ⟨q, combo, hq, hrest, rfl⟩ := List.forall₂_cons_right_iff.mp h
      have hstate : tradeableState (q, spec) = true ↔ q < tradeableRange decisions spec := by
        cases spec with
        | single d => exact decide_eq_true_iff
        | categorical d => exact iff_of_true rfl hq
      rw [List.zip_cons_cons, List.all_cons, Bool.and_eq_true, hstate, ih hrest, List.map_cons,
        List.forall₂_cons]

theorem validStateCombos_eq {specs : List DimensionSpec} {decisions : DecisionMap F}
    {combos : List (List Nat)} (h : generateStateCombos specs decisions = .ok combos) :
    getValidStateCombos combos specs = grid (specs.map (tradeableRange decisions)) := by
  simp only [generateStateCombos, bind_eq_ok_iff, Except.ok.injEq] at h
  obtain ⟨_, -, _, -, ranges, hranges, _, -, _, -, rfl⟩ := h
  rw [cartesianProduct_eq, (dimensionRanges_eq hranges).1, getValidStateCombos]
  refine filter_grid ?_ fun combo hcombo => all_tradeableState_iff (mem_grid_iff.mp hcombo)
  rw [List.forall₂_map_left_iff, List.forall₂_map_right_iff]
  exact List.forall₂_same.mpr fun spec _ => tradeableRange_le decisions spec

theorem outcomeSpaceSize_eq {dimensions : List Nat} {size : Nat}
    (h : outcomeSpaceSize dimensions = some size) : size = dimensions.prod := by
  have hfold : ∀ start, dimensions.foldlM
      (fun acc size => if acc * size < 2 ^ 64 then some (acc * size) else none) start =
        some size → size = start * dimensions.prod := by
    clear h
    induction dimensions with
    | nil =>
        intro start h
        rw [← Option.some.inj h, List.prod_nil, Nat.mul_one]
    | cons d ds ih =>
        intro start h
        obtain ⟨next, hnext, hrest⟩ := Option.bind_eq_some_iff.mp h
        dsimp only at hnext
        split at hnext
        · rw [ih next hrest, ← Option.some.inj hnext, List.prod_cons, Nat.mul_assoc]
        · cases hnext
  rw [hfold 1 h, Nat.one_mul]

theorem tradeableRange_bounds {specs : List DimensionSpec} {decisions : DecisionMap F}
    {combos : List (List Nat)} (h : generateStateCombos specs decisions = .ok combos)
    {spec : DimensionSpec} (hspec : spec ∈ specs) :
    2 ≤ tradeableRange decisions spec ∧ tradeableRange decisions spec ≤ maxOutcomes := by
  simp only [generateStateCombos, bind_eq_ok_iff, okOr_eq_ok_iff, ensure_eq_ok_iff,
    Except.ok.injEq] at h
  obtain ⟨_, -, _, -, ranges, hranges, size, hsize, _, hle, -⟩ := h
  obtain ⟨-, hsizes, hlow⟩ := dimensionRanges_eq hranges
  refine ⟨hlow spec hspec, ?_⟩
  rw [outcomeSpaceSize_eq hsize, hsizes] at hle
  refine (Nat.le_of_dvd (List.prod_pos ?_) (List.dvd_prod (List.mem_map_of_mem hspec))).trans hle
  intro n hn
  obtain ⟨spec', hspec', rfl⟩ := List.mem_map.mp hn
  exact Nat.lt_of_lt_of_le Nat.zero_lt_two (hlow spec' hspec')

section

variable [F64 F] {computeMarketId : ComputeMarketId} {b : MarketBuilder F} {height : Nat}
  {decisions : DecisionMap F} {m : Market F}

theorem dimensions_of_build (h : b.build computeMarketId height decisions = .ok m) :
    generateStateCombos m.dimensionSpecs decisions = .ok m.stateCombos ∧
      m.decisionIds = m.dimensionSpecs.map DimensionSpec.decisionId ∧
      m.shares.length = m.outcomes.length := by
  simp only [MarketBuilder.build, bind_eq_ok_iff, Except.ok.injEq] at h
  obtain ⟨combos, hcombos, _, -, rfl⟩ := h
  exact ⟨hcombos, rfl, List.length_replicate⟩

theorem outcomes_of_build (h : b.build computeMarketId height decisions = .ok m) :
    m.outcomes = grid (m.dimensionSpecs.map (tradeableRange decisions)) :=
  validStateCombos_eq (dimensions_of_build h).1

theorem findIdx?_eq_some_iff_of_nodup {α : Type} [DecidableEq α] {xs : List α} (hxs : xs.Nodup)
    {x : α} {i : Nat} : xs.findIdx? (fun y => y = x) = some i ↔ xs[i]? = some x := by
  rw [List.findIdx?_eq_some_iff_getElem]
  constructor
  · rintro ⟨hi, hx, -⟩
    rw [List.getElem?_eq_getElem hi, of_decide_eq_true hx]
  · intro h
    obtain ⟨hi, hx⟩ := List.getElem?_eq_some_iff.mp h
    refine ⟨hi, decide_eq_true hx, ?_⟩
    intro j hj hjx
    have hsame : xs[j] = xs[i] := (of_decide_eq_true hjx).trans hx.symm
    exact hj.ne ((hxs.getElem_inj_iff).mp hsame)

/-- The outcomes of a market are as many different combinations as its dimensions allow, its
shares are counted for each of them, and the lookup of a combination inverts their order. -/
theorem outcomes_bijective (h : b.build computeMarketId height decisions = .ok m) :
    m.outcomes.Nodup ∧
      m.outcomes.length = (m.dimensionSpecs.map (tradeableRange decisions)).prod ∧
      m.shares.length = m.outcomes.length ∧
      ∀ positions i, m.tradeableIndexForPositions positions = .ok i ↔
        m.outcomes[i]? = some positions := by
  obtain ⟨-, hids, hshares⟩ := dimensions_of_build h
  have houtcomes := outcomes_of_build h
  have hnodup : m.outcomes.Nodup := by
    rw [houtcomes]
    exact nodup_grid _
  refine ⟨hnodup, ?_, hshares, ?_⟩
  · rw [houtcomes, length_grid]
  · intro positions i
    simp only [Market.tradeableIndexForPositions, bind_eq_ok_iff, ensure_eq_ok_iff,
      okOr_eq_ok_iff, findIdx?_eq_some_iff_of_nodup hnodup]
    constructor
    · rintro ⟨_, -, hi⟩
      exact hi
    · intro hi
      refine ⟨(), ?_, hi⟩
      have hmem := List.mem_of_getElem? hi
      rw [houtcomes] at hmem
      rw [length_of_mem_grid hmem, hids, List.length_map, List.length_map]

end

def sampleDecision (decisionType : DecisionType Rat) : Decision Rat :=
  ⟨0, decisionType, "h", "d", none, none, []⟩

/-- A binary, a scaled and a category decision. -/
def sampleDecisions : DecisionMap Rat :=
  [(0, sampleDecision .binary), (1, sampleDecision (.scaled 0 100 1)),
    (2, sampleDecision (.category ["a", "b", "c"]))]

def sampleBuilder : MarketBuilder Rat :=
  ⟨"t", "d", [], 0, [.single 0, .single 1, .categorical 2], 0, 0, 0, 0⟩

theorem outcomes_bijective_sample :
    ∃ m, sampleBuilder.build (fun _ _ _ _ => 0) 0 sampleDecisions = .ok m ∧
      m.outcomes.length = 12 ∧ m.outcomes.Nodup ∧
      ∀ positions i, m.tradeableIndexForPositions positions = .ok i ↔
        m.outcomes[i]? = some positions := by
  have hcomputed : holds (sampleBuilder.build (fun _ _ _ _ => 0) 0 sampleDecisions)
      (fun m => m.outcomes.length = 12) = true := by
    decide +kernel
  obtain ⟨m, hbuild, hlength⟩ := holds_iff.mp hcomputed
  obtain ⟨hnodup, -, -, hlookup⟩ := outcomes_bijective hbuild
  exact ⟨m, hbuild, of_decide_eq_true hlength, hnodup, hlookup⟩

end Truthcoin.Markets
