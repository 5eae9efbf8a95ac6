import Truthcoin.ExactNumbers
import Truthcoin.SampleMarkets
import Truthcoin.SlippageCheck

/-!
# Prices of trades

What a buy costs and what a sell brings in exact arithmetic: up to less than a satoshi, the
change of the cost function. Per share that is a price between those before and after the trade.
-/

namespace Truthcoin.TradePrices

open Truthcoin.Types Truthcoin.Fallible Truthcoin.Arithmetic Truthcoin.Blocks
open Truthcoin.Markets Truthcoin.Trading Truthcoin.Apply Truthcoin.ApplySteps
open Truthcoin.SlippageCheck Truthcoin.Lmsr

section

variable {F : Type} [F64 F] {L : Library F} {val : F → ℝ} {old new : List I64} {β fee : F}
  {texts : CostTexts}

theorem buyCost_exact (hval : Exact val) {paid : BuyCost}
    (h : Apply.buyCost L texts fee old new β = .ok paid) :
    ∃ c, L.updateCost old new β = some c ∧ val c ≤ paid.baseCostSats ∧
      (paid.baseCostSats : ℝ) < val c + 1 := by
  simp only [Apply.buyCost, bind_eq_ok_iff, Apply.calculateUpdateCost, okOr_eq_ok_iff] at h
  obtain ⟨c, hc, h⟩ := h
  have hcost := mapError_eq_ok_iff.mp h
  simp only [calculateBuyCost, bind_eq_ok_iff, Except.ok.injEq] at hcost
  obtain ⟨base, hbase, _, -, _, -, rfl⟩ := hcost
  exact ⟨c, hc, hval.toSats_up hbase⟩

theorem sellProceeds_exact (hval : Exact val) {proceeds : SellProceeds}
    (h : Apply.sellProceeds L texts fee old new β = .ok proceeds) :
    ∃ c, L.updateCost new old β = some c ∧
      ((proceeds.netProceedsSats + proceeds.tradingFeeSats : Nat) : ℝ) ≤ val c ∧
      val c < (proceeds.netProceedsSats + proceeds.tradingFeeSats : Nat) + 1 := by
  simp only [Apply.sellProceeds, bind_eq_ok_iff, Apply.calculateUpdateCost, okOr_eq_ok_iff] at h
  obtain ⟨c, hc, h⟩ := h
  have hproceeds := mapError_eq_ok_iff.mp h
  rw [calculateSellProceeds_gross hproceeds]
  simp only [calculateSellProceeds, bind_eq_ok_iff, Except.ok.injEq] at hproceeds
  obtain ⟨gross, hgross, _, -, _, -, rfl⟩ := hproceeds
  exact ⟨c, hc, hval.toSats_down hgross⟩

end

variable {L : Library ℝ} {old new : List I64} {β fee : ℝ} {texts : CostTexts}

theorem updateCost_eq_some_iff (hL : MarketMaker L) (hne : old ≠ []) {c : ℝ} :
    L.updateCost old new β = some c ↔ old.length = new.length ∧ InRange β ∧
      c = cost β (sharesToF64 new) - cost β (sharesToF64 old) := by
  have hne' : (sharesToF64 old : List ℝ) ≠ [] := fun h => hne (List.map_eq_nil_iff.mp h)
  rw [hL old new β, toOption_eq_some_iff, calculateUpdateCost_eq_ok_iff hne', sharesToF64,
    sharesToF64, List.length_map, List.length_map]

theorem buyCost_ok (hL : MarketMaker L) (hne : old ≠ []) {paid : BuyCost}
    (h : buyCost L texts fee old new β = .ok paid) :
    InRange β ∧ cost β (sharesToF64 new) - cost β (sharesToF64 old) ≤ paid.baseCostSats ∧
      (paid.baseCostSats : ℝ) < cost β (sharesToF64 new) - cost β (sharesToF64 old) + 1 := by
  obtain ⟨c, hc, hlow, hhigh⟩ := buyCost_exact exact_real h
  obtain ⟨-, hβ, rfl⟩ := (updateCost_eq_some_iff hL hne).mp hc
  exact ⟨hβ, hlow, hhigh⟩

theorem sellProceeds_ok (hL : MarketMaker L) (hne : new ≠ []) {proceeds : SellProceeds}
    (h : sellProceeds L texts fee old new β = .ok proceeds) :
    InRange β ∧ ((proceeds.netProceedsSats + proceeds.tradingFeeSats : Nat) : ℝ) ≤
        cost β (sharesToF64 old) - cost β (sharesToF64 new) ∧
      cost β (sharesToF64 old) - cost β (sharesToF64 new) <
        (proceeds.netProceedsSats + proceeds.tradingFeeSats : Nat) + 1 := by
  obtain ⟨c, hc, hlow, hhigh⟩ := sellProceeds_exact exact_real h
  obtain ⟨-, hβ, rfl⟩ := (updateCost_eq_some_iff hL hne).mp hc
  exact ⟨hβ, hlow, hhigh⟩

theorem sharesToF64_set (shares : List I64) (i : Nat) (y : I64) :
    (sharesToF64 (shares.set i y) : List ℝ) = (sharesToF64 shares).set i (y.val : ℝ) := by
  have hcast : F64.ofInt y.val = (y.val : ℝ) := Rat.cast_intCast y.val
  rw [sharesToF64, List.map_set, hcast, sharesToF64]

theorem sharesToF64_getElem {shares : List I64} {i : Nat} {x : I64} (h : shares[i]? = some x) :
    (sharesToF64 shares : List ℝ)[i]? = some (x.val : ℝ) := by
  rw [sharesToF64, List.getElem?_map, h, Option.map_some]
  exact congrArg some (Rat.cast_intCast x.val)

theorem cost_between {i : Nat} {delta : I64} (hβ : 0 < β) (hnew : addAt old i delta = .ok new) :
    ∃ p p', (prices β (sharesToF64 old))[i]? = some p ∧
      (prices β (sharesToF64 new))[i]? = some p' ∧
      p * delta.val ≤ cost β (sharesToF64 new) - cost β (sharesToF64 old) ∧
      cost β (sharesToF64 new) - cost β (sharesToF64 old) ≤ p' * delta.val := by
  obtain ⟨x, y, hx, hy, rfl⟩ := addAt_eq_ok_iff.mp hnew
  have hlt : i < old.length := (List.getElem?_eq_some_iff.mp hx).1
  have hlength (shares : List I64) : (prices β (sharesToF64 shares)).length = shares.length := by
    simp [prices, expShares, sharesToF64]
  have hbefore : (sharesToF64 old : List ℝ)[i]? = some (x.val : ℝ) := sharesToF64_getElem hx
  have hafter : (sharesToF64 (old.set i y) : List ℝ)[i]? = some (y.val : ℝ) :=
    sharesToF64_getElem (List.getElem?_set_self hlt)
  have hp : i < (prices β (sharesToF64 old)).length := (hlength old).symm ▸ hlt
  have hp' : i < (prices β (sharesToF64 (old.set i y))).length := by
    rw [hlength, List.length_set]
    exact hlt
  have hdelta : (delta.val : ℝ) = y.val - x.val := by rw [hy]; push_cast; ring
  refine ⟨_, _, List.getElem?_eq_getElem hp, List.getElem?_eq_getElem hp', ?_, ?_⟩
  · have htangent := cost_add_le hβ (y := (y.val : ℝ)) hbefore (List.getElem?_eq_getElem hp)
    rw [← sharesToF64_set] at htangent
    rw [hdelta]
    linarith
  · have htangent := cost_add_le hβ (y := (x.val : ℝ)) hafter (List.getElem?_eq_getElem hp')
    have hback : ((sharesToF64 (old.set i y)).set i (x.val : ℝ) : List ℝ) = sharesToF64 old := by
      obtain ⟨hi, rfl⟩ := List.getElem?_eq_some_iff.mp hx
      rw [← sharesToF64_set, List.set_set, List.set_getElem_self]
    rw [hback] at htangent
    rw [hdelta]
    linarith

/-- The amount that a trade adds to what its market owes the traders or they owe the market is,
up to less than a satoshi, between the price of its outcome before and after, for each share. -/
structure Priced (u u' : StateUpdate ℝ) (trade : Trade) (p p' : ℝ) : Prop where
  buy : trade.isBuy = true → ∃ b, u'.pendingBuySettlements = u.pendingBuySettlements ++ [b] ∧
    p * trade.shares.val ≤ b.lmsrCostSats ∧ (b.lmsrCostSats : ℝ) < p' * trade.shares.val + 1
  sell : trade.isBuy = false → ∃ b, u'.pendingSellPayouts = u.pendingSellPayouts ++ [b] ∧
    p' * -trade.shares.val < (b.payoutSats + b.feeSats : Nat) + 1 ∧
    ((b.payoutSats + b.feeSats : Nat) : ℝ) ≤ p * -trade.shares.val

/-- In exact arithmetic, at any state and after any trades and amplifications of the block, an
applied trade has prices before and after that are distributions, and costs what they say. -/
theorem priced_of_applyTrade (hL : MarketMaker L) {s : State ℝ} {u u' : StateUpdate ℝ}
    {tx : FilledTransaction ℝ} {trade : Trade} (h : applyTrade L s u tx trade = .ok (some u')) :
    ∃ market shares newShares beta before after p p',
      s.markets.getMarket trade.marketId = some market ∧
      runningMarketState trade.marketId market u = .ok (shares, beta) ∧
      addAt shares trade.outcomeIndex trade.shares = .ok newShares ∧
      calculatePrices beta (sharesToF64 shares) = .ok before ∧
      calculatePrices beta (sharesToF64 newShares) = .ok after ∧
      before.sum = 1 ∧ (∀ x ∈ before, 0 < x) ∧ after.sum = 1 ∧ (∀ x ∈ after, 0 < x) ∧
      before[trade.outcomeIndex]? = some p ∧ after[trade.outcomeIndex]? = some p' ∧
      Priced u u' trade p p' := by
  obtain ⟨market, shares, newShares, beta, input, hquote, happlied⟩ := applyTrade_eq_some h
  obtain ⟨x, y, hx, -, hset⟩ := addAt_eq_ok_iff.mp hquote.moved
  have hne : shares ≠ [] := fun hnil => by simp [hnil] at hx
  have hnew : newShares ≠ [] := by
    rw [hset]
    simpa using hne
  have hne' : (sharesToF64 shares : List ℝ) ≠ [] := fun h => hne (List.map_eq_nil_iff.mp h)
  have hnew' : (sharesToF64 newShares : List ℝ) ≠ [] := fun h => hnew (List.map_eq_nil_iff.mp h)
  have hcosts : InRange beta ∧ ∀ p p', p * trade.shares.val ≤
        cost beta (sharesToF64 newShares) - cost beta (sharesToF64 shares) →
      cost beta (sharesToF64 newShares) - cost beta (sharesToF64 shares) ≤
        p' * trade.shares.val → Priced u u' trade p p' := by
    obtain ⟨hbuy, cost, hcost⟩ | ⟨hsell, proceeds, hproceeds⟩ := happlied
    · obtain ⟨texts, hpaid⟩ := hcost.cost_eq
      obtain ⟨hβ, hlow, hhigh⟩ := buyCost_ok hL hne hpaid
      refine ⟨hβ, fun p p' hp hp' => ⟨fun _ => ⟨_, by rw [hcost.update_eq], ?_, ?_⟩, ?_⟩⟩
      · exact hp.trans hlow
      · exact hhigh.trans_le (by linarith)
      · exact fun hsell => absurd (hbuy.symm.trans hsell) Bool.noConfusion
    · obtain ⟨texts, hpaid⟩ := hproceeds.proceeds_eq
      obtain ⟨hβ, hlow, hhigh⟩ := sellProceeds_ok hL hnew hpaid
      refine ⟨hβ, fun p p' hp hp' => ⟨?_, fun _ => ⟨_, by rw [hproceeds.update_eq], ?_, ?_⟩⟩⟩
      · exact fun hbuy => absurd (hsell.symm.trans hbuy) Bool.noConfusion
      · linarith
      · linarith
  obtain ⟨hβ, hpriced⟩ := hcosts
  obtain ⟨p, p', hp, hp', hlow, hhigh⟩ := cost_between hβ.pos hquote.moved
  exact ⟨market, shares, newShares, beta, _, _, p, p', hquote.market_eq, hquote.running,
    hquote.moved, calculatePrices_eq hβ hne', calculatePrices_eq hβ hnew', sum_prices hne',
    price_pos hne', sum_prices hnew', price_pos hnew', hp, hp', hpriced p p' hlow hhigh⟩

/-- The market maker prices the trades; what it does not use is constant. -/
noncomputable def realLibrary : Library ℝ where
  txid _ := 0
  headerHash _ := 0
  coinbaseTxid _ := 0
  merkleRoot _ _ := 0
  bodySize _ := none
  getAddress authorization := authorization.verifyingKey
  scriptPubkey address := [UInt8.ofNat address]
  verifyBody _ := true
  computeMarketId _ _ _ _ := 0
  marketTreasuryAddress marketId := 2 * marketId
  marketAuthorFeeAddress marketId := 2 * marketId + 1
  sellPayoutHash _ _ _ := 0
  buyChangeHash _ _ _ := 0
  sellInputChangeHash _ _ := 0
  sharePayoutHash _ _ _ _ := 0
  updateCost old new beta :=
    (Lmsr.calculateUpdateCost (sharesToF64 old) (sharesToF64 new) beta).toOption
  calculateConsensus _ _ _ _ := none
  verifyTradePow _ _ _ := true
  order := id
  order_perm := List.Perm.refl

theorem marketMaker_realLibrary : MarketMaker realLibrary :=
  fun _ _ _ => rfl

/-- A market of two outcomes with a liquidity of a million satoshis. -/
noncomputable def millionMarket : Market ℝ where
  id := 1
  title := ""
  description := ""
  tags := []
  creatorAddress := 0
  dimensionSpecs := []
  decisionIds := []
  stateCombos := []
  createdAtHeight := 0
  expiresAtHeight := none
  tauFromNow := 0
  storageFeeSats := 0
  marketState := .trading
  tradingFee := 0
  liquidityBaseSats := 10 ^ 6
  shares := [I64.zero, I64.zero]
  finalPrices := []
  version := 0
  lastUpdatedHeight := 0
  totalVolumeSats := 0
  outcomeVolumesSats := []
  txPowHashSelector := 0
  txPowOrdering := 0
  txPowDifficulty := 0

noncomputable def millionState : State ℝ :=
  { State.empty ℝ with markets := (State.empty ℝ).markets.addMarket millionMarket }

theorem inRange_millionMarket :
    InRange (deriveBetaFromLiquidity (10 ^ 6) 2 : ℝ) ∧
      (deriveBetaFromLiquidity (10 ^ 6) 2 : ℝ) = 10 ^ 6 / Real.log 2 := by
  have hlow := Real.log_two_gt_d9
  have hhigh := Real.log_two_lt_d9
  have hpos : 0 < Real.log 2 := by linarith
  have heq : (deriveBetaFromLiquidity (10 ^ 6) 2 : ℝ) = 10 ^ 6 / Real.log 2 := by
    have hln : F64.log (F64.ofNat 2) = Real.log 2 := by
      change Real.log (((2 : ℕ) : ℚ) : ℝ) = _
      norm_num
    have hle : ¬F64.le (Real.log 2) F64.zero = true := by
      change ¬decide (Real.log 2 ≤ ((0 : ℚ) : ℝ)) = true
      rw [decide_eq_true_iff, Rat.cast_zero, not_le]
      exact hpos
    simp only [deriveBetaFromLiquidity, hln, if_neg hle]
    change (((10 ^ 6 : ℕ) : ℚ) : ℝ) / Real.log 2 = _
    norm_num
  refine ⟨⟨?_, ?_⟩, heq⟩
  · rw [heq, lt_div_iff₀ hpos]
    linarith
  · rw [heq, div_lt_iff₀ hpos]
    linarith

theorem exists_toSats {x : ℝ} (mode : Rounding) (hx : 0 ≤ x) (hlt : roundWith mode x < 2 ^ 64) :
    ∃ n, toSats x mode = .ok n := by
  have hnonneg : F64.lt x F64.zero = false := by
    change decide (x < ((0 : ℚ) : ℝ)) = false
    rw [Rat.cast_zero]
    exact decide_eq_false (not_lt.mpr hx)
  have hfits : F64.le (F64.ofRat (2 ^ 64)) (roundWith mode x) = false := by
    change decide (((2 ^ 64 : ℚ) : ℝ) ≤ roundWith mode x) = false
    push_cast
    exact decide_eq_false (not_le.mpr hlt)
  simp only [toSats, bind_eq_ok_iff, ensure_eq_ok_iff, Except.ok.injEq]
  exact ⟨_, (), rfl, (), hnonneg, (), hfits, rfl⟩

theorem toSats_nearest_zero : toSats (0 : ℝ) .nearest = .ok 0 := by
  have hround : roundWith .nearest (0 : ℝ) = 0 := by
    change (if (0 : ℝ) < 0 then (-⌊-0 + 1 / 2⌋ : ℝ) else ⌊(0 : ℝ) + 1 / 2⌋) = 0
    norm_num
  obtain ⟨n, hn⟩ := exists_toSats (x := 0) .nearest le_rfl (by rw [hround]; norm_num)
  obtain ⟨-, hzero⟩ := exact_real.toSats_of_round .nearest (z := 0)
    (hround.trans Int.cast_zero.symm) hn
  have hn' : n = 0 := by exact_mod_cast hzero le_rfl
  rw [hn, hn']

/-- Without a trading fee, shares bought cost at most one satoshi each, and what rounding and
the least fee add. -/
theorem exists_buyCost (hL : MarketMaker L) (hβ : InRange β) (texts : CostTexts) {i : Nat}
    {delta : I64} (hnew : addAt old i delta = .ok new) (hdelta : 0 ≤ delta.val) :
    ∃ paid, buyCost L texts 0 old new β = .ok paid ∧
      paid.totalCostSats ≤ delta.val.natAbs + 1001 := by
  obtain ⟨x, y, hx, -, rfl⟩ := addAt_eq_ok_iff.mp hnew
  have hne : old ≠ [] := fun hnil => by simp [hnil] at hx
  have hold : (sharesToF64 old : List ℝ) ≠ [] := fun h => hne (List.map_eq_nil_iff.mp h)
  have hset : (sharesToF64 (old.set i y) : List ℝ) ≠ [] := by
    simpa only [sharesToF64, ne_eq, List.map_eq_nil_iff, List.set_eq_nil_iff] using hne
  obtain ⟨p, p', hp, hp', hlow, hhigh⟩ := cost_between hβ.pos hnew
  have hdelta' : (0 : ℝ) ≤ delta.val := by exact_mod_cast hdelta
  have hfirst : 0 < p := price_pos hold p (List.mem_of_getElem? hp)
  have hlast : p' ≤ 1 := by
    rw [← sum_prices (β := β) hset]
    exact List.single_le_sum (fun q hq => (price_pos hset q hq).le) p' (List.mem_of_getElem? hp')
  let c := cost β (sharesToF64 (old.set i y)) - cost β (sharesToF64 old)
  have hc : 0 ≤ c := (mul_nonneg hfirst.le hdelta').trans hlow
  have hc' : c ≤ delta.val := hhigh.trans (mul_le_of_le_one_left hdelta' hlast)
  have hmax : (delta.val : ℝ) ≤ 2 ^ 63 - 1 := by exact_mod_cast delta.property.2
  obtain ⟨n, hn⟩ : ∃ n, toSats c .up = .ok n := by
    refine exists_toSats .up hc ((Int.ceil_lt_add_one c).trans ?_)
    linarith
  have hupper : (n : ℤ) ≤ delta.val := by
    have hlt : (n : ℝ) < delta.val + 1 :=
      (exact_real.toSats_up hn).2.trans_le (add_le_add_left hc' 1)
    exact Int.lt_add_one_iff.mp (by exact_mod_cast hlt)
  have hsum : checkedAdd n (max 0 minTradingFeeSats) = some (n + 1000) := by
    have hfits : (n : ℤ) ≤ 2 ^ 63 - 1 := hupper.trans delta.property.2
    exact checkedAdd_eq_some_iff.mpr ⟨by simp only [amountMax, minTradingFeeSats]; omega, rfl⟩
  have hfee : toSats (F64.mul c 0) .nearest = .ok 0 := by
    rw [← toSats_nearest_zero]
    exact congrArg (toSats · .nearest) (mul_zero c)
  have hupdate : Apply.calculateUpdateCost L texts.updateCost old (old.set i y) β = .ok c := by
    rw [Apply.calculateUpdateCost, okOr_eq_ok_iff, updateCost_eq_some_iff hL hne]
    exact ⟨List.length_set.symm, hβ, rfl⟩
  refine ⟨⟨n, 1000, n + 1000⟩, ?_, by simp only; omega⟩
  rw [buyCost, hupdate, ok_bind, mapError_eq_ok_iff]
  simp only [calculateBuyCost, hn, hfee, ok_bind, hsum, okOr_some]
  rfl

/-- Ten shares of the first outcome, for at most two and a half thousand satoshis. -/
def tenShares : Trade := ⟨1, 0, SampleMarkets.ten, 0, 2500, none, 0⟩

def tenSharesTx : FilledTransaction ℝ := ⟨⟨[], [], [], some (.trade tenShares)⟩, [], none⟩

/-- The first ten shares of a market. -/
theorem priced_of_applyTrade_ten :
    ∃ u' p p', applyTrade realLibrary millionState (StateUpdate.new ℝ) tenSharesTx tenShares =
        .ok (some u') ∧ Priced (StateUpdate.new ℝ) u' tenShares p p' := by
  obtain ⟨hβ, -⟩ := inRange_millionMarket
  have hmarket : millionState.markets.getMarket tenShares.marketId = some millionMarket :=
    Std.ExtTreeMap.getElem?_insert_self
  have hshares : sharesAfter tenShares.marketId millionMarket [] =
      .ok [I64.zero, I64.zero] := rfl
  have hmoved : addAt [I64.zero, I64.zero] tenShares.outcomeIndex tenShares.shares =
      .ok [SampleMarkets.ten, I64.zero] := rfl
  have hbeta : betaAfter tenShares.marketId millionMarket [I64.zero, I64.zero] [] =
      (deriveBetaFromLiquidity (10 ^ 6) 2 : ℝ) := rfl
  obtain ⟨paid, hpaid, htotal⟩ := exists_buyCost marketMaker_realLibrary hβ ⟨"", ""⟩
    hmoved (by decide)
  have hlimit : paid.totalCostSats + tradeMinerFeeSats ≤ 2500 := by
    have htrade : tenShares.shares.val.natAbs = 10 := rfl
    rw [tradeMinerFeeSats]
    omega
  have hfits : FitsBlock realLibrary millionState [] tenSharesTx tenShares millionMarket
      [I64.zero, I64.zero] [SampleMarkets.ten, I64.zero] := by
    refine ⟨rfl, ?_, rfl, Nat.zero_le _, ⟨by decide, by decide⟩, fun _ => ?_, fun hsell => ?_⟩
    · intro amount hamount
      obtain rfl := Option.some.inj hamount
      decide
    · rw [hbeta]
      exact ⟨⟨"", ""⟩, paid, hpaid, le_min hlimit (hlimit.trans (by decide))⟩
    · exact absurd hsell (by decide)
  obtain ⟨u', hu'⟩ := (applyTrade_some_iff (Framed.refl millionState) collected_nil hmarket
    hshares hmoved).mpr hfits
  obtain ⟨_, _, _, _, _, _, p, p', -, -, -, -, -, -, -, -, -, -, -, hpriced⟩ :=
    priced_of_applyTrade marketMaker_realLibrary hu'
  exact ⟨u', p, p', hu', hpriced⟩

end Truthcoin.TradePrices
