import Truthcoin.ClaimPaths
import Truthcoin.SlotLedger

/-!
# Listing the available decisions

The decisions of a period that are listed as available are counted out tier by tier, as many
as are unlocked. They are those that a claim may have, as long as no period has more mints
than its tiers have room for and every priced period has decisions.
-/

namespace Truthcoin.AvailableSlots

open Truthcoin.Types Truthcoin.Table Truthcoin.Fallible Truthcoin.Arithmetic
open Truthcoin.Decisions Truthcoin.Validation Truthcoin.ClaimPaths Truthcoin.SlotLedger

def validateDecisionBounds (period index : Nat) : Except Error Unit := do
  ensure (period ≤ maxPeriodIndex)
    (.invalidDecisionId s!"Period {period} exceeds maximum {maxPeriodIndex}")
  ensure (index ≤ maxDecisionIndex)
    (.invalidDecisionId s!"Decision index {index} exceeds maximum {maxDecisionIndex}")

/-- The three bytes of a decision. -/
def packed (isStandard : Bool) (period index : Nat) : DecisionId :=
  let standardBit := if isStandard then 1 else 0
  BitVec.ofNat 24 (standardBit <<< 23 ||| period <<< 16 ||| index)

def newDecisionId (isStandard : Bool) (period index : Nat) : Except Error DecisionId := do
  validateDecisionBounds period index
  .ok (packed isStandard period index)

theorem newDecisionId_of_bounds {isStandard : Bool} {period index : Nat}
    (hperiod : period ≤ maxPeriodIndex) (hindex : index ≤ maxDecisionIndex) :
    newDecisionId isStandard period index = .ok (packed isStandard period index) := by
  simp [newDecisionId, validateDecisionBounds, ensure_pos hperiod, ensure_pos hindex]

theorem parts_packed {isStandard : Bool} {period index : Nat} (hperiod : period ≤ maxPeriodIndex)
    (hindex : index ≤ maxDecisionIndex) :
    (packed isStandard period index).isStandard = isStandard ∧
      (packed isStandard period index).periodIndex = period ∧
      (packed isStandard period index).decisionIndex = index := by
  have hp : period < 2 ^ 7 := Nat.lt_succ_of_le hperiod
  have hi : index < 2 ^ 16 := Nat.lt_succ_of_le hindex
  have hbits : ∀ bit, bit <<< 23 ||| period <<< 16 ||| index =
      bit * 2 ^ 23 + period * 2 ^ 16 + index := by
    intro bit
    have hhigh : bit <<< 23 ||| period <<< 16 = (bit * 2 ^ 7 + period) <<< 16 := by
      rw [← Nat.shiftLeft_add_eq_or_of_lt (by rw [Nat.shiftLeft_eq]; omega)]
      simp only [Nat.shiftLeft_eq]
      omega
    rw [hhigh, ← Nat.shiftLeft_add_eq_or_of_lt hi, Nat.shiftLeft_eq]
    omega
  have htoNat : (packed isStandard period index).toNat =
      (if isStandard then 1 else 0) * 2 ^ 23 + period * 2 ^ 16 + index := by
    rw [packed, hbits, BitVec.toNat_ofNat, Nat.mod_eq_of_lt]
    split <;> omega
  simp only [DecisionId.isStandard, DecisionId.periodIndex, DecisionId.decisionIndex, htoNat]
  refine ⟨?_, by split <;> omega, by split <;> omega⟩
  cases isStandard <;> simp <;> omega

section

variable {F : Type}

/-- The slots that are counted out with a number of them unlocked in each tier. -/
def countedSlots (unlockedPerTier : Nat) : List Nat :=
  (List.range tierCount).flatMap fun tier =>
    (List.range unlockedPerTier).map fun pos => (tier * slotsPerTier + pos) % 2 ^ 32

def totalFor (config : DecisionConfig) (period currentTs : Nat) (currentHeight : Option Nat)
    (genesisTs : Nat) : Except Error Nat := do
  let currentPeriod ← getCurrentPeriod config currentTs currentHeight genesisTs
  .ok (Dbs.calculateAvailableDecisions period currentPeriod)

def getAvailableDecisionsInPeriod (config : DecisionConfig) (db : Dbs F)
    (periodIndex currentTs : Nat) (currentHeight : Option Nat) (genesisTs : Nat) :
    Except Error (List DecisionId) := do
  let totalDecisions ← totalFor config periodIndex currentTs currentHeight genesisTs
  if totalDecisions = 0 then
    .ok []
  else
    match db.periodPricing[periodIndex]? with
    | none => .ok []
    | some pricing =>
        let claimedDecisions := db.getClaimedDecisionIdsForPeriod periodIndex
        ensure (pricing.mints * slotsPerTierPerMint ≤ amountMax) .panic
        let decisionIds ← (countedSlots (pricing.mints * slotsPerTierPerMint)).mapM
          (newDecisionId true periodIndex)
        .ok (decisionIds.filter fun decisionId => decisionId ∉ claimedDecisions)

/-- In a period that is current, the listed decisions of every period are those that a claim
may have and that have a price. -/
def ListsClaimable (config : DecisionConfig) (db : Dbs F) : Prop :=
  ∀ currentTs currentHeight genesisTs currentPeriod,
    getCurrentPeriod config currentTs currentHeight genesisTs = .ok currentPeriod →
    ∀ periodIndex, ∃ listed,
      getAvailableDecisionsInPeriod config db periodIndex currentTs currentHeight genesisTs =
        .ok listed ∧ listed.Nodup ∧
      ∀ d, d ∈ listed ↔ d.isStandard = true ∧ d.periodIndex = periodIndex ∧
        db.validateDecisionClaim config d currentTs currentHeight genesisTs = .ok () ∧
        ∃ fee, db.feeForDecisionId d = .ok fee

/-- The priced periods have decisions, and their mints fit into the tiers: they are no more
than there are periods from it to the highest one. -/
def Bounded (db : Dbs F) : Prop :=
  ∀ (period : Nat) (pricing : PeriodPricing), db.periodPricing[period]? = some pricing →
    period ≤ maxPeriodIndex ∧ pricing.mints ≤ futurePeriods ∧
      pricing.mints + period ≤ db.getHighestMintedPeriod.getD 0 + 1

/-- A standard decision that is being voted on is claimed. -/
def VotedClaimed (db : Dbs F) : Prop :=
  ∀ d : DecisionId, d.isStandard = true → db.isDecisionInVoting d = true →
    d ∈ db.getClaimedDecisionIdsForPeriod d.periodIndex

theorem countedSlots_eq {mints : Nat} (h : mints ≤ futurePeriods) :
    countedSlots (mints * slotsPerTierPerMint) = unlockedSlots mints := by
  have hall : ∀ m ∈ List.range (futurePeriods + 1),
      countedSlots (m * slotsPerTierPerMint) = unlockedSlots m := by decide +kernel
  exact hall mints (List.mem_range.mpr (by omega))

theorem mem_unlockedSlots {i mints : Nat} :
    i ∈ unlockedSlots mints ↔ slotUnlocked i mints = true := by
  rw [unlockedSlots, List.mem_filter, List.mem_range, and_iff_right_iff_imp]
  intro h
  simp only [slotUnlocked, Bool.and_eq_true, decide_eq_true_eq] at h
  exact h.1

theorem exists_fee_iff {db : Dbs F} {d : DecisionId} :
    (∃ fee, db.feeForDecisionId d = .ok fee) ↔
      ∃ pricing, db.periodPricing[d.periodIndex]? = some pricing ∧
        slotUnlocked d.decisionIndex pricing.mints = true := by
  simp only [Dbs.feeForDecisionId, feeForIndex, bind_eq_ok_iff, okOr_eq_ok_iff, ensure_eq_ok_iff]
  constructor
  · rintro ⟨_, pricing, hpricing, _, -, _, hunlocked, -⟩
    exact ⟨pricing, hpricing, hunlocked⟩
  · rintro ⟨pricing, hpricing, hunlocked⟩
    refine ⟨_, pricing, hpricing, (), ?_, (), hunlocked, rfl⟩
    exact List.mem_range.mp (List.mem_filter.mp (mem_unlockedSlots.mpr hunlocked)).1

theorem calculateAvailableDecisions_eq_zero_iff {period currentPeriod : Nat} :
    Dbs.calculateAvailableDecisions period currentPeriod = 0 ↔
      period < currentPeriod ∨ currentPeriod + (futurePeriods - 1) < period := by
  unfold Dbs.calculateAvailableDecisions
  by_cases hpast : period < currentPeriod
  · rw [if_pos hpast]
    exact iff_of_true rfl (.inl hpast)
  · rw [if_neg hpast]
    by_cases hfar : futurePeriods ≤ period - currentPeriod
    · rw [if_pos hfar]
      simp only [futurePeriods] at hfar ⊢
      exact iff_of_true trivial (.inr (by omega))
    · rw [if_neg hfar]
      simp only [futurePeriods, initialDecisionsPerPeriod, decisionsDecliningRate] at hfar ⊢
      omega

theorem counted_of_priced {db : Dbs F} (hdb : Bounded db) {periodIndex : Nat}
    {pricing : PeriodPricing} (hpricing : db.periodPricing[periodIndex]? = some pricing) :
    ∃ decisionIds, (countedSlots (pricing.mints * slotsPerTierPerMint)).mapM
        (newDecisionId true periodIndex) = .ok decisionIds ∧ decisionIds.Nodup ∧
      ∀ d, d ∈ decisionIds ↔ d.isStandard = true ∧ d.periodIndex = periodIndex ∧
        slotUnlocked d.decisionIndex pricing.mints = true := by
  obtain ⟨hperiod, hmints, -⟩ := hdb periodIndex pricing hpricing
  rw [countedSlots_eq hmints]
  have hindex : ∀ i ∈ unlockedSlots pricing.mints, i ≤ maxDecisionIndex := fun i hi =>
    (List.mem_range.mp (List.mem_filter.mp hi).1).le.trans (by decide)
  have hparts : ∀ i ∈ unlockedSlots pricing.mints,
      (packed true periodIndex i).isStandard = true ∧
        (packed true periodIndex i).periodIndex = periodIndex ∧
        (packed true periodIndex i).decisionIndex = i :=
    fun i hi => parts_packed hperiod (hindex i hi)
  refine ⟨_, mapM_eq_map fun i hi => newDecisionId_of_bounds hperiod (hindex i hi), ?_, ?_⟩
  · refine List.Nodup.map_on ?_ (List.nodup_range.filter _)
    intro i hi i' hi' heq
    rw [← (hparts i hi).2.2, heq, (hparts i' hi').2.2]
  · intro d
    rw [List.mem_map]
    constructor
    · rintro ⟨i, hi, rfl⟩
      obtain ⟨hstandard, hperiod', hindex'⟩ := hparts i hi
      exact ⟨hstandard, hperiod', by rw [hindex']; exact mem_unlockedSlots.mp hi⟩
    · rintro ⟨hstandard, rfl, hunlocked⟩
      have hi := mem_unlockedSlots.mpr hunlocked
      obtain ⟨hstandard', hperiod', hindex'⟩ := hparts _ hi
      exact ⟨_, hi, decisionId_ext hstandard' hstandard hperiod' hindex'⟩

theorem accepted_iff {config : DecisionConfig} {db : Dbs F} {d : DecisionId}
    {currentTs genesisTs currentPeriod : Nat} {currentHeight : Option Nat}
    (hcurrent : getCurrentPeriod config currentTs currentHeight genesisTs = .ok currentPeriod) :
    db.validateDecisionClaim config d currentTs currentHeight genesisTs = .ok () ↔
      currentPeriod + (futurePeriods - 1) ≤ u32Max ∧ InWindow currentPeriod d ∧
        Available db d := by
  obtain ⟨ctx, rfl, rfl, rfl⟩ : ∃ ctx : ClaimContext, ctx.currentTs = currentTs ∧
      ctx.currentHeight = currentHeight ∧ ctx.genesisTs = genesisTs :=
    ⟨⟨currentTs, currentHeight, genesisTs⟩, rfl, rfl, rfl⟩
  rw [validateDecisionClaim_eq_ok_iff, ← and_assoc]
  refine and_congr_left fun _ => ?_
  constructor
  · rintro ⟨c, last, hc, hlast, hwindow⟩
    obtain rfl := Except.ok.inj (hcurrent.symm.trans hc)
    exact ⟨(addU32_eq_ok_iff.mp hlast).1, hwindow⟩
  · rintro ⟨hfits, hwindow⟩
    exact ⟨_, _, hcurrent, addU32_eq_ok_iff.mpr ⟨hfits, rfl⟩, hwindow⟩

theorem listsClaimable_of_bounded {config : DecisionConfig} {db : Dbs F} (hdb : Bounded db)
    (hvoted : VotedClaimed db) : ListsClaimable config db := by
  intro currentTs currentHeight genesisTs currentPeriod hcurrent periodIndex
  rw [getAvailableDecisionsInPeriod, totalFor, hcurrent, ok_bind, ok_bind]
  simp only [accepted_iff hcurrent, exists_fee_iff]
  by_cases hopen : Dbs.calculateAvailableDecisions periodIndex currentPeriod = 0
  · -- no claim is in the window either
    refine ⟨[], if_pos hopen, List.nodup_nil, fun d => iff_of_false List.not_mem_nil ?_⟩
    rintro ⟨hstandard, rfl, ⟨-, hwindow, -⟩, -⟩
    rcases calculateAvailableDecisions_eq_zero_iff.mp hopen with hpast | hfar
    · exact absurd (hwindow.2.2 hstandard) (Nat.not_le.mpr hpast)
    · exact absurd hwindow.2.1 (Nat.not_le.mpr hfar)
  rw [if_neg hopen]
  cases hpricing : db.periodPricing[periodIndex]? with
  | none =>
      refine ⟨[], rfl, List.nodup_nil, fun d => iff_of_false List.not_mem_nil ?_⟩
      rintro ⟨-, rfl, -, pricing, hrow, -⟩
      rw [hpricing] at hrow
      cases hrow
  | some pricing =>
      obtain ⟨hperiod, hmints, -⟩ := hdb periodIndex pricing hpricing
      obtain ⟨decisionIds, hids, hnodup, hmem⟩ := counted_of_priced hdb hpricing
      have hfits : pricing.mints * slotsPerTierPerMint ≤ amountMax := by
        simp only [futurePeriods, slotsPerTierPerMint, amountMax] at hmints ⊢
        omega
      refine ⟨_, by dsimp only; rw [ensure_pos hfits, ok_bind, hids, ok_bind],
        hnodup.filter _, fun d => ?_⟩
      rw [List.mem_filter, decide_eq_true_eq, hmem]
      constructor
      · rintro ⟨⟨hstandard, rfl, hunlocked⟩, hfree⟩
        have hwindow : currentPeriod ≤ d.periodIndex ∧
            d.periodIndex ≤ currentPeriod + (futurePeriods - 1) := by
          rw [calculateAvailableDecisions_eq_zero_iff, not_or] at hopen
          exact ⟨Nat.not_lt.mp hopen.1, Nat.not_lt.mp hopen.2⟩
        have hnotVoted : db.isDecisionInVoting d = false :=
          Bool.eq_false_iff.mpr fun h => hfree (hvoted d hstandard h)
        refine ⟨hstandard, rfl, ⟨?_, ⟨by omega, hwindow.2, fun _ => hwindow.1⟩, hnotVoted, hfree,
          fun _ => ⟨pricing, hpricing, hunlocked⟩⟩, pricing, hpricing, hunlocked⟩
        simp only [maxPeriodIndex, futurePeriods, u32Max] at hperiod ⊢
        omega
      · rintro ⟨hstandard, rfl, ⟨-, -, -, hfree, -⟩, pricing', hpricing', hunlocked⟩
        obtain rfl := Option.some.inj (hpricing.symm.trans hpricing')
        exact ⟨⟨hstandard, rfl, hunlocked⟩, hfree⟩

end

end Truthcoin.AvailableSlots
