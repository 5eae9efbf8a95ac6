import Truthcoin.ExactPayouts
import Truthcoin.FinalPrices
import Truthcoin.Solvency

/-!
# Settlements that the treasury covers

The final prices of a market sum to one at most, so its positions are worth no more than its
largest outcome, which a solvent treasury covers. No settlement of a block falls short.
-/

namespace Truthcoin.SolventSettlements

open Truthcoin.Types Truthcoin.Table Truthcoin.Fallible Truthcoin.Arithmetic Truthcoin.Decisions
open Truthcoin.Markets Truthcoin.Markets.Market Truthcoin.Blocks Truthcoin.Settlement
open Truthcoin.Ledgers Truthcoin.Ledgers.Ledger Truthcoin.ShareBooks Truthcoin.ShareSettlements
open Truthcoin.FinalPrices Truthcoin.SharePayouts Truthcoin.WrittenRecords Truthcoin.Solvency
open Truthcoin.Connect Truthcoin.ConnectTrace Truthcoin.BlockRun Truthcoin.TagConnect
open Truthcoin.TwoWayPeg Truthcoin.AddressIndex Truthcoin.MarketRecords Truthcoin.MarketIndexes
open Truthcoin.ListedMarkets Truthcoin.ShareWrites Truthcoin.CostPotential
open Truthcoin.TreasuryOutputs Truthcoin.TreasuryFrames Truthcoin.Consolidation
open Truthcoin.Commitments Truthcoin.TradePrices Truthcoin.ListedRuns Truthcoin.ShareRuns
open Truthcoin.ExactPayouts

section

variable {decisionOutcomes : List (DecisionId × Rat)} {decisions : DecisionMap Rat}

/-- The outcomes of scaled decisions are between zero and one. -/
def ScaledInUnit (decisionOutcomes : List (DecisionId × Rat)) (decisions : DecisionMap Rat) :
    Prop :=
  ∀ d decision outcome, decisions.get d = some decision → decision.isScaled = true →
    outcomeOf decisionOutcomes d = some outcome → 0 ≤ outcome ∧ outcome ≤ 1

theorem singleAxis_nonneg {isScaled : Bool} {outcome : Rat}
    (h : isScaled = true → 0 ≤ outcome ∧ outcome ≤ 1) :
    ∀ x ∈ singleAxis isScaled outcome, 0 ≤ x := by
  intro x hx
  unfold singleAxis at hx
  split at hx
  · rename_i hscaled
    obtain ⟨hlow, hhigh⟩ := h hscaled
    simp only [List.mem_cons, List.not_mem_nil, or_false] at hx
    rcases hx with rfl | rfl
    · exact sub_nonneg.mpr hhigh
    · exact hlow
  · split at hx
    · simp only [List.mem_cons, List.not_mem_nil, or_false] at hx
      rcases hx with rfl | rfl
      · exact le_refl 0
      · exact zero_le_one
    · split at hx
      · simp only [List.mem_cons, List.not_mem_nil, or_false] at hx
        rcases hx with rfl | rfl
        · exact zero_le_one
        · exact le_refl 0
      · simp only [List.mem_cons, List.not_mem_nil, or_false, or_self] at hx
        rw [hx]
        exact one_half_pos.le

theorem categoricalAxis_nonneg (n : Nat) (outcome : Option Rat) :
    ∀ x ∈ categoricalAxis n outcome, 0 ≤ x := by
  intro x hx
  unfold categoricalAxis at hx
  split at hx
  · obtain ⟨k, -, rfl⟩ := List.mem_map.mp hx
    split
    · exact zero_le_one
    · exact le_refl 0
  · rw [List.eq_of_mem_replicate hx]
    exact div_nonneg zero_le_one (Nat.cast_nonneg n)

theorem axisOf_nonneg (h : ScaledInUnit decisionOutcomes decisions) (spec : DimensionSpec) :
    ∀ x ∈ axisOf decisionOutcomes decisions spec, 0 ≤ x := by
  cases spec with
  | categorical d => exact categoricalAxis_nonneg _ _
  | single d =>
      refine singleAxis_nonneg fun hscaled => ?_
      cases hdecision : decisions.get d with
      | none =>
          rw [DimensionSpec.decisionId, hdecision] at hscaled
          cases hscaled
      | some decision =>
          rw [DimensionSpec.decisionId, hdecision] at hscaled
          cases houtcome : outcomeOf decisionOutcomes d with
          | none =>
              have hhalf :
                  ((outcomeOf decisionOutcomes d).getD (F64.ofRat (1 / 2)) : Rat) = 1 / 2 := by
                rw [houtcome]
                rfl
              change 0 ≤ (outcomeOf decisionOutcomes d).getD _ ∧
                (outcomeOf decisionOutcomes d).getD _ ≤ 1
              rw [hhalf]
              norm_num
          | some outcome =>
              change 0 ≤ (outcomeOf decisionOutcomes d).getD _ ∧
                (outcomeOf decisionOutcomes d).getD _ ≤ 1
              rw [houtcome]
              exact h d decision outcome hdecision hscaled houtcome

theorem jointProbability_nonneg {axes : List (List Rat)} (h : ∀ axis ∈ axes, ∀ x ∈ axis, 0 ≤ x)
    (combo : List Nat) : 0 ≤ jointProbability axes combo := by
  refine List.foldlRecOn (motive := fun p : Rat => 0 ≤ p) _ _ zero_le_one ?_
  intro p hp entry hentry
  split
  · rename_i q hq
    exact mul_nonneg hp (h entry.1 (List.of_mem_zip hentry).1 q (List.mem_of_getElem? hq))
  · exact hp

theorem finalPrices_le (h : ScaledInUnit decisionOutcomes decisions) (m : Market Rat) :
    (m.calculateFinalPrices decisionOutcomes decisions).length = m.outcomes.length ∧
      (∀ p ∈ m.calculateFinalPrices decisionOutcomes decisions, 0 ≤ p) ∧
      (m.calculateFinalPrices decisionOutcomes decisions).sum ≤ 1 := by
  have hnonneg : ∀ p ∈ m.outcomes.map (jointProbability
      (m.dimensionSpecs.map (axisOf decisionOutcomes decisions))), 0 ≤ p := by
    intro p hp
    obtain ⟨combo, -, rfl⟩ := List.mem_map.mp hp
    refine jointProbability_nonneg (fun axis haxis => ?_) combo
    obtain ⟨spec, -, rfl⟩ := List.mem_map.mp haxis
    exact axisOf_nonneg h spec
  unfold calculateFinalPrices
  dsimp only
  rw [← Market.outcomes, RationalRounding.sum_eq]
  generalize hprices : m.outcomes.map (jointProbability
    (m.dimensionSpecs.map (axisOf decisionOutcomes decisions))) = prices at hnonneg
  have hlength : prices.length = m.outcomes.length := by rw [← hprices, List.length_map]
  split
  · rename_i hpositive
    have hpos : 0 < prices.sum := of_decide_eq_true hpositive
    refine ⟨by rw [List.length_map, hlength], fun p hp => ?_, ?_⟩
    · obtain ⟨q, hq, rfl⟩ := List.mem_map.mp hp
      exact div_nonneg (hnonneg q hq) hpos.le
    · have hone : (prices.map fun p => p / prices.sum).sum = 1 := by
        simp only [div_eq_mul_inv]
        rw [List.sum_map_mul_right, List.map_id', mul_inv_cancel₀ hpos.ne']
      exact hone.le
  · rename_i hpositive
    have hzero : prices.sum ≤ 0 := not_lt.mp fun hlt => hpositive (decide_eq_true hlt)
    exact ⟨hlength, hnonneg, hzero.trans zero_le_one⟩

end

section

variable {F : Type} [F64 F] {L : Library F} {T : Tags} {C : Nat → List I64 → ℝ} {height : Nat}

/-- A state in which some trading markets are left to be looked at. -/
structure Settling (L : Library F) (T : Tags) (C : Nat → List I64 → ℝ) (left : List (Market F))
    (s : State F) : Prop where
  coins : s.coins.Tagged T
  pointers : PointersTagged T s.markets.marketFundsUtxos
  shares : SharesHeld s.markets
  distinct : (left.map Market.id).Nodup
  stored : ∀ market ∈ left, s.markets.getMarket market.id = some market
  trading : ∀ market ∈ left, market.marketState = .trading
  backed : ∀ market ∈ left, Backed L C (fundsOf s) market.id market

theorem Settling.step (hT : TagsOf L T) {market : Market F} {left : List (Market F)}
    {acc acc' : State F × List (SettlementUndoEntry F)}
    (h : Settling L T C (market :: left) acc.1)
    (hstep : transitionMarket L height acc market = .ok acc') : Settling L T C left acc'.1 := by
  obtain ⟨hfresh, hdistinct⟩ := List.nodup_cons.mp h.distinct
  have hne : ∀ other ∈ left, other.id ≠ market.id := by
    rintro other hmem heq
    exact hfresh (heq ▸ List.mem_map_of_mem hmem)
  unfold transitionMarket at hstep
  split at hstep
  · obtain ⟨⟨s', entry⟩, hsettle, hstep⟩ := bind_eq_ok_iff.mp hstep
    rw [← Except.ok.inj hstep]
    obtain ⟨hcoins, hpointers, -⟩ := settleMarket_tagged hT h.coins h.pointers hsettle
    obtain ⟨hpositive, hsettles⟩ := settles_of_settleMarket h.shares.positive hsettle
    obtain ⟨⟨settled, -, hlookup⟩, hkeeps⟩ := settleMarket_others hT h.pointers hsettle
    refine ⟨hcoins, hpointers, ⟨hpositive, ?_⟩, hdistinct, fun other hmem => ?_,
      fun other hmem => h.trading other (List.mem_cons_of_mem _ hmem), fun other hmem => ?_⟩
    · rw [hsettles.ledger_eq]
      exact h.shares.balanced.close _
    · rw [hlookup, if_neg (hne other hmem)]
      exact h.stored other (List.mem_cons_of_mem _ hmem)
    · exact (h.backed other (List.mem_cons_of_mem _ hmem)).keep hT
        (hkeeps ⟨other.id, false⟩ (hne other hmem))
  · rw [← Except.ok.inj hstep]
    exact ⟨h.coins, h.pointers, h.shares, hdistinct,
      fun other hmem => h.stored other (List.mem_cons_of_mem _ hmem),
      fun other hmem => h.trading other (List.mem_cons_of_mem _ hmem),
      fun other hmem => h.backed other (List.mem_cons_of_mem _ hmem)⟩

theorem Settling.run (hT : TagsOf L T) {before left : List (Market F)}
    {acc acc' : State F × List (SettlementUndoEntry F)}
    (h : Settling L T C (before ++ left) acc.1)
    (hrun : before.foldlM (transitionMarket L height) acc = .ok acc') :
    Settling L T C left acc'.1 := by
  induction before generalizing acc with
  | nil =>
      obtain rfl := Except.ok.inj hrun
      exact h
  | cons market before ih =>
      obtain ⟨acc₁, hfirst, hrest⟩ := bind_eq_ok_iff.mp hrun
      exact ih (h.step hT hfirst) hrest

end

theorem settling_counted {F : Type} [F64 F] [DecidableEq F] {L : Library F} {T : Tags}
    {C : Nat → List I64 → ℝ} {val : F → ℝ} {config : DecisionConfig} {archive : Archive}
    {s : State F} {block : Block F} {t : Trace F} (hL : CollisionFree L) (hT : TagsOf L T)
    (hC : Potential L val C) (hval : Exact val) (hs : Tagged T s) (hsound : Sound s.markets)
    (hshares : SharesHeld s.markets) (hspares : SparesTreasuries L s block)
    (hsolvent : Solvent L C s) (ht : Prepares L config archive s block t) :
    Settling L T C (t.counted.markets.getMarketsByState .trading) t.counted := by
  have htagged := counted_tagged hT hs ht
  have hcounted := solvent_counted hL hT hC hval hs hsound.keyed hspares hsolvent ht
  obtain ⟨hnodup, hrecord⟩ := (grown_counted hsound ht).sound.getMarketsByState .trading
  refine ⟨htagged.coins, htagged.pointers,
    (sharesHeld_written hshares hsound.keyed ht).congr rfl rfl,
    hnodup, fun market hmarket => (hrecord market hmarket).1,
    fun market hmarket => (hrecord market hmarket).2, fun market hmarket => ?_⟩
  obtain ⟨hlookup, htrading⟩ := hrecord market hmarket
  exact hcounted market.id market hlookup htrading

/-- The next block begins its settlements with the trading markets backed. -/
theorem settling_of_chain {F : Type} [F64 F] [DecidableEq F] {L : Library F} {T : Tags}
    {C : Nat → List I64 → ℝ} {val : F → ℝ} {config : DecisionConfig}
    {lib : WithdrawalBundle.BundleLib} {okPeg : State F → TwoWayPegData → Prop}
    {archive : Archive} {chain : List (Block F)} {block : Block F} {p : Prepared F}
    {s s₁ s₂ : State F} (hL : CollisionFree L) (hT : TagsOf L T) (hC : Potential L val C)
    (hval : Exact val) (hdeposits : ∀ s data, okPeg s data → DepositsTagged T data)
    (hchain : Chain L config lib (SparesTreasuries L) okPeg chain s)
    (hspares : SparesTreasuries L s block) (hp : beforeClose L config archive s block = .ok p)
    (hresolved : resolvePeriods L config p.state p.currentPeriod p.genesisTs p.height = .ok s₁)
    {before after : List (Market F)} {market : Market F}
    (hmarkets : s₁.markets.getMarketsByState .trading = before ++ market :: after)
    {entries : List (SettlementUndoEntry F)}
    (hbefore : before.foldlM (transitionMarket L p.height) (s₁, []) = .ok (s₂, entries)) :
    Settling L T C (market :: after) s₂ := by
  have hrun := hchain.run
  obtain ⟨_, -, hkept⟩ := sharesKept_of_run hT hdeposits hrun
  obtain ⟨t, ht, rfl⟩ := prepares_of_beforeClose hp
  have hcounted := settling_counted hL hT hC hval (tagged_of_run hT hdeposits hrun)
    (listed_of_run hT hdeposits hrun).sound hkept.held hspares
    (solvent_of_chain hL hT hC hval hdeposits hchain) ht
  obtain ⟨⟨tables, resolved⟩, -, hstate⟩ := bind_eq_ok_iff.mp hresolved
  have hmarkets₁ : s₁.markets = t.counted.markets := by
    rw [← Except.ok.inj hstate]
    rfl
  have hcoins₁ : s₁.coins = t.counted.coins := by
    rw [← Except.ok.inj hstate]
    rfl
  rw [← hmarkets₁, hmarkets] at hcounted
  have hfunds : fundsOf s₁ = fundsOf t.counted := by
    unfold fundsOf
    rw [hmarkets₁, hcoins₁]
  have hstart : Settling L T C (before ++ market :: after) s₁ :=
    ⟨hcoins₁ ▸ hcounted.coins, hmarkets₁ ▸ hcounted.pointers, hmarkets₁ ▸ hcounted.shares,
      hcounted.distinct, hmarkets₁ ▸ hcounted.stored, hcounted.trading, hfunds ▸ hcounted.backed⟩
  exact hstart.run hT hbefore

/-- A backed market redeems its positions within its treasury, at any prices that sum to one at
most. -/
theorem redemptions_of_settling {F : Type} [F64 F] {L : Library F} {T : Tags}
    {C : Nat → List I64 → ℝ} {val price : F → ℝ} {s : State F} {market priced : Market F}
    {left : List (Market F)} (hC : Potential L val C) (hprice : ExactOps price)
    (h : Settling L T C (market :: left) s) (hid : priced.id = market.id)
    (hlength : priced.finalPrices.length = market.shares.length)
    (hprices : ∀ p ∈ priced.finalPrices, 0 ≤ price p)
    (hsum : (priced.finalPrices.map price).sum ≤ 1) :
    ∃ treasury payouts, s.getMarketFundsSats priced.id false = .ok treasury ∧
      ((holdings s.markets priced.id).map fun h =>
        ⌊worth price priced.finalPrices h⌋₊).sum ≤ treasury ∧
      calculateShareRedemptions s priced treasury = .ok (payouts, totalSats payouts) ∧
      totalSats payouts ≤ treasury := by
  have hstored := h.stored market List.mem_cons_self
  have htrading := h.trading market List.mem_cons_self
  obtain ⟨hpositive, -, -, treasury, hholds, hcovered⟩ := h.backed market List.mem_cons_self
  have hshares : ∀ shares ∈ market.shares, shares.val ≤ (treasury : ℤ) := by
    intro shares hmem
    have hle := (hC.share_le market.liquidityBaseSats market.shares hpositive shares hmem).trans
      hcovered
    exact_mod_cast hle
  rw [← hid] at hholds hstored
  obtain ⟨hfloors, payouts, hredeemed, hle⟩ :=
    redemptions_of_covered hprice h.shares hstored htrading hlength hprices hsum hshares
  exact ⟨treasury, payouts, hholds.getMarketFundsSats, hfloors, hredeemed, hle⟩

section

variable {L : Library Rat} {C : Nat → List I64 → ℝ} {val : Rat → ℝ} {config : DecisionConfig}
  {lib : WithdrawalBundle.BundleLib} {archive : Archive} {chain : List (Block Rat)}
  {block : Block Rat} {p : Prepared Rat} {s s₁ s₂ : State Rat}

/-- After blocks that spare the treasuries, whatever markets the next block has settled, the
market that it looks at next redeems the positions of all its holders within its treasury, at the
final prices for any outcomes that are between zero and one where the decision is scaled. -/
theorem redemptions_within_treasury (hL : CollisionFree L) (hC : Potential L val C)
    (hval : Exact val) {main : MainOutputs}
    (hchain : Chain L config lib (SparesTreasuries L) (fun _ data => DepositsFrom main data)
      chain s)
    (hspares : SparesTreasuries L s block) (hp : beforeClose L config archive s block = .ok p)
    (hresolved : resolvePeriods L config p.state p.currentPeriod p.genesisTs p.height = .ok s₁)
    {before after : List (Market Rat)} {market : Market Rat}
    (hmarkets : s₁.markets.getMarketsByState .trading = before ++ market :: after)
    {entries : List (SettlementUndoEntry Rat)}
    (hbefore : before.foldlM (transitionMarket L p.height) (s₁, []) = .ok (s₂, entries))
    (hscaled : ScaledInUnit (outcomesOf s₂ market) (decisionsOf s₂ market)) :
    ∃ priced treasury payouts total,
      market.updateState p.height none none (some (market.calculateFinalPrices
        (outcomesOf s₂ market) (decisionsOf s₂ market))) = .ok priced ∧
      s₂.getMarketFundsSats priced.id false = .ok treasury ∧
      calculateShareRedemptions s₂ priced treasury = .ok (payouts, total) ∧
      total ≤ treasury := by
  have hsettling := settling_of_chain hL (tagsOf_tags hL main) hC hval
    (fun _ _ hdata => depositsTagged_of_depositsFrom hL hdata) hchain hspares hp hresolved hmarkets
    hbefore
  have hshaped := (hsettling.backed market List.mem_cons_self).shaped
  obtain ⟨hlength, hprices, hsum⟩ := finalPrices_le hscaled market
  let priced : Market Rat := { market with
    finalPrices := market.calculateFinalPrices (outcomesOf s₂ market) (decisionsOf s₂ market)
    version := market.version + 1
    lastUpdatedHeight := p.height }
  have hid : priced.id = market.id := rfl
  have hsum' : (priced.finalPrices.map fun p : Rat => (p : ℝ)).sum ≤ 1 := by
    have hcast : ((priced.finalPrices.sum : Rat) : ℝ) ≤ 1 := by exact_mod_cast hsum
    rwa [Rat.cast_list_sum] at hcast
  obtain ⟨treasury, payouts, htreasury, -, hredeemed, hle⟩ := redemptions_of_settling hC
    exactOps_rat hsettling hid (hlength.trans hshaped.symm)
    (fun p hp => Rat.cast_nonneg.mpr (hprices p hp)) hsum'
  exact ⟨priced, treasury, payouts, _, rfl, htreasury, hredeemed, hle⟩

end

open Truthcoin.SampleMarkets Truthcoin.SampleChain

theorem scaledInUnit_of_all {decisionOutcomes : List (DecisionId × Rat)}
    {decisions : DecisionMap Rat} (h : decisions.all (fun entry => !entry.2.isScaled) = true) :
    ScaledInUnit decisionOutcomes decisions := by
  intro d decision outcome hdecision hscaled
  obtain ⟨entry, hentry, rfl⟩ := Option.map_eq_some_iff.mp hdecision
  have hnot := List.all_eq_true.mp h entry (List.mem_of_find?_eq_some hentry)
  rw [hscaled] at hnot
  cases hnot

/-- Two markets are created by blocks that spare the treasuries. -/
noncomputable def toppedMarkets : Except Error (State Rat) := do
  let connect := fun (s : State Rat) blocks =>
    blocks.foldlM (applyChecked toppingLibrary marketConfig (SparesTreasuries toppingLibrary)
      heightArchive) s
  let s ← connect (State.empty Rat) [ownedBlock toppingLibrary 0 []]
  let s ← s.connectTwoWayPegData sampleBundleLib (deposits 5)
  connect s [ownedBlock toppingLibrary 1 claimTxs, ownedBlock toppingLibrary 2 createTxs]

/-- The next block trades in both and starts to settle. -/
noncomputable def settlingTrades : Except Error (State Rat × Prepared Rat × State Rat) := do
  let s ← toppedMarkets
  let p ← beforeClose toppingLibrary marketConfig heightArchive s
    (ownedBlock toppingLibrary 3 tradeTxs)
  let s₁ ← resolvePeriods toppingLibrary marketConfig p.state p.currentPeriod p.genesisTs p.height
  .ok (s, p, s₁)

/-- The block, and the ten shares of the market that it looks at first. -/
noncomputable def settlesTen (run : State Rat × Prepared Rat × State Rat) : Bool :=
  decide (SparesTreasuries toppingLibrary run.1 (ownedBlock toppingLibrary 3 tradeTxs)) &&
    match run.2.2.markets.getMarketsByState .trading with
    | [] => false
    | market :: _ =>
        (decisionsOf run.2.2 market).all (fun entry => !entry.2.isScaled) &&
          decide ((holdings run.2.2.markets market.id).map (fun h => h.2.2.val) = [10])

/-- The first market redeems its ten shares. -/
theorem redemptions_within_treasury_ten :
    ∃ (s : State Rat) (p : Prepared Rat) (s₁ : State Rat) (market : Market Rat)
        (after : List (Market Rat)),
      Chain toppingLibrary marketConfig sampleBundleLib (SparesTreasuries toppingLibrary)
        (fun _ data => DepositsFrom sampleMain data)
        [ownedBlock toppingLibrary 2 createTxs, ownedBlock toppingLibrary 1 claimTxs,
          ownedBlock toppingLibrary 0 []] s ∧
      s₁.markets.getMarketsByState .trading = market :: after ∧
      (holdings s₁.markets market.id).map (fun h => h.2.2.val) = [10] ∧
      ∃ priced treasury payouts total,
        market.updateState p.height none none (some (market.calculateFinalPrices
          (outcomesOf s₁ market) (decisionsOf s₁ market))) = .ok priced ∧
        s₁.getMarketFundsSats priced.id false = .ok treasury ∧
        calculateShareRedemptions s₁ priced treasury = .ok (payouts, total) ∧
        total ≤ treasury := by
  have hcomputed : holds settlingTrades settlesTen = true := by
    decide +kernel
  obtain ⟨run, hrun, htest⟩ := holds_iff.mp hcomputed
  obtain ⟨s, hs, hrun⟩ := bind_eq_ok_iff.mp hrun
  obtain ⟨p, hp, hrun⟩ := bind_eq_ok_iff.mp hrun
  obtain ⟨s₁, hresolved, hrun⟩ := bind_eq_ok_iff.mp hrun
  obtain rfl := Except.ok.inj hrun
  obtain ⟨hspares, htest⟩ := Bool.and_eq_true_iff.mp htest
  obtain ⟨s₀, h₀, hs⟩ := bind_eq_ok_iff.mp hs
  obtain ⟨s', h₁, hs⟩ := bind_eq_ok_iff.mp hs
  have hgenesis : Chain toppingLibrary marketConfig sampleBundleLib
      (SparesTreasuries toppingLibrary) (fun _ data => DepositsFrom sampleMain data)
      [ownedBlock toppingLibrary 0 []] s₀ :=
    chain_of_checked Chain.start h₀
  have hchain := chain_of_checked (hgenesis.connectPeg (depositsFrom_deposits 5) h₁) hs
  cases hmarkets : s₁.markets.getMarketsByState .trading with
  | nil =>
      rw [hmarkets] at htest
      cases htest
  | cons market after =>
      rw [hmarkets] at htest
      obtain ⟨hbinary, hten⟩ := Bool.and_eq_true_iff.mp htest
      exact ⟨s, p, s₁, market, after, hchain, hmarkets, of_decide_eq_true hten,
        redemptions_within_treasury collisionFree_toppingLibrary potential_toppingLibrary exact_rat
          hchain (of_decide_eq_true hspares) hp hresolved
          (show s₁.markets.getMarketsByState .trading = [] ++ market :: after from hmarkets)
          (rfl : [].foldlM (transitionMarket toppingLibrary p.height) (s₁, []) = .ok (s₁, []))
          (scaledInUnit_of_all hbinary)⟩

end Truthcoin.SolventSettlements
