import Truthcoin.ShareWrites
import Truthcoin.TradePrices

/-!
# Costs with a potential

A market maker whose costs are the changes of a potential cannot be milked: whatever trades and
amplifications a block makes in a market, and in whatever order, they pay in what they add to
the potential, since a buy is rounded up and a sell is rounded down.
-/

namespace Truthcoin.CostPotential

open Truthcoin.Types Truthcoin.Table Truthcoin.Fallible Truthcoin.Arithmetic
open Truthcoin.Markets Truthcoin.Blocks Truthcoin.Trading Truthcoin.Apply Truthcoin.ApplySteps
open Truthcoin.Connect Truthcoin.ShareWrites Truthcoin.TradePrices

variable {F : Type} [F64 F]

/-- The costs of the library are the changes of a potential of liquidity and shares. It is at
least the shares of every outcome, at most the liquidity while there are none, and does not grow
by more than the liquidity does. -/
structure Potential (L : Library F) (val : F → ℝ) (C : Nat → List I64 → ℝ) : Prop where
  updateCost : ∀ base old new c, old ≠ [] → old.length = new.length →
    L.updateCost old new (deriveBetaFromLiquidity base old.length) = some c →
      val c = C base new - C base old
  share_le : ∀ base shares, 0 < base → ∀ x ∈ shares, (x.val : ℝ) ≤ C base shares
  seed : ∀ base shares, 0 < base → (∀ x ∈ shares, x.val = 0) → C base shares ≤ base
  amplify : ∀ base base' shares, 0 < base → base ≤ base' →
    C base' shares ≤ C base shares + ((base' : ℝ) - base)

section

variable (u : StateUpdate F) (marketId : MarketId)

def paidIn : Nat :=
  ((u.pendingBuySettlements.filter fun b => b.marketId = marketId).map
    PendingBuySettlement.lmsrCostSats).sum

def paidOut : Nat :=
  ((u.pendingSellPayouts.filter fun p => p.marketId = marketId).map
    fun p => p.payoutSats + p.feeSats).sum

end

/-- The trades and the amplifications so far lead to shares whose potential is paid for. -/
def Balanced (C : Nat → List I64 → ℝ) (u : StateUpdate F) (marketId : MarketId) (base : Nat)
    (shares : List I64) : Prop :=
  ∃ running, moveShares (movesOf (u.updatesOf marketId)) shares = .ok running ∧
    C (saturatingAdd base (u.amplifications marketId).sum) running + paidOut u marketId ≤
      C base shares + paidIn u marketId

variable {L : Library F} {val : F → ℝ} {C : Nat → List I64 → ℝ} {u u' : StateUpdate F}
  {marketId : MarketId} {base : Nat} {shares : List I64}

omit [F64 F] in
theorem saturatingAdd_zero (h : base ≤ amountMax) : saturatingAdd base 0 = base := by
  rw [saturatingAdd, add_zero, min_eq_left h]

omit [F64 F] in
theorem saturatingAdd_growth (a b c : Nat) :
    saturatingAdd a b ≤ saturatingAdd a (b + c) ∧
      saturatingAdd a (b + c) ≤ saturatingAdd a b + c := by
  have hle : min (a + (b + c)) amountMax ≤ min (a + b) amountMax + c := by
    rw [← min_add_add_right, ← add_assoc]
    exact min_le_min_left _ (Nat.le_add_right _ _)
  exact ⟨min_le_min_right _ (Nat.add_le_add_left (Nat.le_add_right b c) a), hle⟩

omit [F64 F] in
theorem balanced_new (hbase : base ≤ amountMax) :
    Balanced C (StateUpdate.new F) marketId base shares := by
  refine ⟨shares, rfl, ?_⟩
  change C (saturatingAdd base 0) shares + ((0 : Nat) : ℝ) ≤ C base shares + ((0 : Nat) : ℝ)
  rw [saturatingAdd_zero hbase]

omit [F64 F] in
theorem paidIn_append {b : PendingBuySettlement}
    (h : u'.pendingBuySettlements = u.pendingBuySettlements ++ [b]) :
    paidIn u' marketId =
      paidIn u marketId + if b.marketId = marketId then b.lmsrCostSats else 0 := by
  rw [paidIn, h, List.filter_append, List.map_append, List.sum_append, ← paidIn]
  by_cases hb : b.marketId = marketId <;> simp [hb]

omit [F64 F] in
theorem paidOut_append {p : PendingSellPayout}
    (h : u'.pendingSellPayouts = u.pendingSellPayouts ++ [p]) :
    paidOut u' marketId =
      paidOut u marketId + if p.marketId = marketId then p.payoutSats + p.feeSats else 0 := by
  rw [paidOut, h, List.filter_append, List.map_append, List.sum_append, ← paidOut]
  by_cases hp : p.marketId = marketId <;> simp [hp]

omit [F64 F] in
theorem amplifications_append {b : PendingBuySettlement}
    (h : u'.pendingBuySettlements = u.pendingBuySettlements ++ [b]) :
    (u'.amplifications marketId).sum = (u.amplifications marketId).sum +
      if b.marketId = marketId ∧ b.isAmplify = true then b.lmsrCostSats else 0 := by
  unfold StateUpdate.amplifications
  rw [h, List.filter_append, List.map_append, List.sum_append]
  by_cases hb : b.marketId = marketId ∧ b.isAmplify = true <;> simp [hb]

omit [F64 F] in
theorem updatesOf_append {update : MarketStateUpdate}
    (h : u'.marketUpdates = u.marketUpdates ++ [update]) :
    u'.updatesOf marketId =
      u.updatesOf marketId ++ if update.marketId = marketId then [update] else [] := by
  unfold StateUpdate.updatesOf
  rw [h, List.filter_append]
  by_cases hu : update.marketId = marketId <;> simp [hu]

theorem running_eq {market : Market F} {beta : F} {found : List I64}
    (h : runningMarketState marketId market u = .ok (found, beta)) :
    moveShares (movesOf (u.updatesOf marketId)) market.shares = .ok found ∧
      beta = deriveBetaFromLiquidity
        (saturatingAdd market.liquidityBaseSats (u.amplifications marketId).sum) found.length := by
  simp only [runningMarketState, bind_eq_ok_iff, Except.ok.injEq, Prod.mk.injEq] at h
  obtain ⟨shares, hshares, total, htotal, rfl, rfl⟩ := h
  obtain ⟨-, rfl⟩ := sumU64_eq_ok_iff.mp htotal
  refine ⟨?_, rfl⟩
  rw [moveShares, movesOf, List.foldlM_map]
  exact hshares

omit [F64 F] in
theorem moveShares_append {moves : List (Nat × I64)} {running new : List I64} {i : Nat}
    {delta : I64} (h : moveShares moves shares = .ok running)
    (hnew : addAt running i delta = .ok new) :
    moveShares (moves ++ [(i, delta)]) shares = .ok new := by
  rw [moveShares, List.foldlM_append, ← moveShares, h, ok_bind, List.foldlM_cons, hnew]
  rfl

/-- What a trade adds to the collected changes, as far as its market is concerned. -/
structure Adds (u u' : StateUpdate F) (trade : Trade) (paid got : Nat) : Prop where
  updates : ∃ volume, u'.marketUpdates =
    u.marketUpdates ++ [⟨trade.marketId, trade.outcomeIndex, trade.shares, volume⟩]
  paidIn : ∀ marketId, paidIn u' marketId =
    paidIn u marketId + if trade.marketId = marketId then paid else 0
  paidOut : ∀ marketId, paidOut u' marketId =
    paidOut u marketId + if trade.marketId = marketId then got else 0
  amplifications : ∀ marketId,
    (u'.amplifications marketId).sum = (u.amplifications marketId).sum

variable {s : State F} {tx : FilledTransaction F} {trade : Trade} {market : Market F}
  {effective new : List I64} {beta : F} {input : Nat}

omit [F64 F] in
theorem BuyApplied.adds [F64 F] {cost : BuyCost}
    (h : BuyApplied L u u' tx trade market effective new beta input cost) :
    Adds u u' trade cost.baseCostSats 0 := by
  have hbuys : u'.pendingBuySettlements = u.pendingBuySettlements ++
      [⟨trade.marketId, trade.trader, input, cost.baseCostSats, cost.tradingFeeSats,
        L.txid tx.transaction, false⟩] := by rw [h.update_eq]
  have hsells : u'.pendingSellPayouts = u.pendingSellPayouts := by rw [h.update_eq]
  refine ⟨⟨cost.totalCostSats, by rw [h.update_eq]⟩, fun _ => paidIn_append hbuys, ?_, ?_⟩
  · intro marketId
    rw [CostPotential.paidOut, hsells, CostPotential.paidOut, ite_self, add_zero]
  · intro marketId
    simp [amplifications_append hbuys]

omit [F64 F] in
theorem SellApplied.adds [F64 F] {proceeds : SellProceeds}
    (h : SellApplied L u u' tx trade market effective new beta input proceeds) :
    Adds u u' trade 0 (proceeds.netProceedsSats + proceeds.tradingFeeSats) := by
  have hsells : u'.pendingSellPayouts = u.pendingSellPayouts ++
      [⟨trade.marketId, trade.trader, proceeds.netProceedsSats, proceeds.tradingFeeSats,
        L.txid tx.transaction⟩] := by rw [h.update_eq]
  have hbuys : u'.pendingBuySettlements = u.pendingBuySettlements := by rw [h.update_eq]
  refine ⟨⟨proceeds.netProceedsSats, by rw [h.update_eq]⟩, ?_, fun _ => paidOut_append hsells, ?_⟩
  · intro marketId
    rw [CostPotential.paidIn, hbuys, CostPotential.paidIn, ite_self, add_zero]
  · intro marketId
    rw [StateUpdate.amplifications, hbuys, StateUpdate.amplifications]

theorem exists_adds (h : applyTrade L s u tx trade = .ok (some u')) :
    ∃ paid got, Adds u u' trade paid got := by
  obtain ⟨_, _, _, _, _, -, ⟨-, cost, hbuy⟩ | ⟨-, proceeds, hsell⟩⟩ := applyTrade_eq_some h
  · exact ⟨_, _, BuyApplied.adds hbuy⟩
  · exact ⟨_, _, SellApplied.adds hsell⟩

theorem adds_of_applyTrade (hC : Potential L val C) (hval : Exact val)
    (h : applyTrade L s u tx trade = .ok (some u')) :
    ∃ market effective new paid got, s.markets.getMarket trade.marketId = some market ∧
      moveShares (movesOf (u.updatesOf trade.marketId)) market.shares = .ok effective ∧
      addAt effective trade.outcomeIndex trade.shares = .ok new ∧ Adds u u' trade paid got ∧
      C (saturatingAdd market.liquidityBaseSats (u.amplifications trade.marketId).sum) new + got ≤
        C (saturatingAdd market.liquidityBaseSats (u.amplifications trade.marketId).sum)
          effective + paid := by
  obtain ⟨market, effective, new, beta, input, hquote, happlied⟩ := applyTrade_eq_some h
  obtain ⟨hrunning, rfl⟩ := running_eq hquote.running
  obtain ⟨_, _, hx, -, hset⟩ := addAt_eq_ok_iff.mp hquote.moved
  have hne : effective ≠ [] := fun hnil => by simp [hnil] at hx
  have hlength : effective.length = new.length := by rw [hset, List.length_set]
  have hne' : new ≠ [] := List.ne_nil_of_length_pos (hlength ▸ List.length_pos_of_ne_nil hne)
  obtain ⟨-, cost, hbuy⟩ | ⟨-, proceeds, hsell⟩ := happlied
  · obtain ⟨texts, hcost⟩ := hbuy.cost_eq
    obtain ⟨c, hc, hle, -⟩ := buyCost_exact hval hcost
    rw [hC.updateCost _ _ _ _ hne hlength hc] at hle
    refine ⟨market, effective, new, _, _, hquote.market_eq, hrunning, hquote.moved,
      BuyApplied.adds hbuy, ?_⟩
    push_cast
    linarith
  · obtain ⟨texts, hproceeds⟩ := hsell.proceeds_eq
    obtain ⟨c, hc, hle, -⟩ := sellProceeds_exact hval hproceeds
    rw [hlength] at hc
    rw [hC.updateCost _ _ _ _ hne' hlength.symm hc] at hle
    refine ⟨market, effective, new, _, _, hquote.market_eq, hrunning, hquote.moved,
      SellApplied.adds hsell, ?_⟩
    push_cast at hle ⊢
    linarith

theorem balanced_trade (hC : Potential L val C) (hval : Exact val)
    (h : applyTrade L s u tx trade = .ok (some u'))
    (hmarket : s.markets.getMarket marketId = some market)
    (hbalanced : Balanced C u marketId market.liquidityBaseSats market.shares) :
    Balanced C u' marketId market.liquidityBaseSats market.shares := by
  obtain ⟨found, effective, new, paid, got, hfound, hmoved, hnew, hadds, hpays⟩ :=
    adds_of_applyTrade hC hval h
  obtain ⟨running, hrunning, hle⟩ := hbalanced
  obtain ⟨volume, hupdates⟩ := hadds.updates
  unfold Balanced
  rw [updatesOf_append hupdates, hadds.amplifications, hadds.paidIn, hadds.paidOut]
  dsimp only
  by_cases hother : trade.marketId = marketId
  · subst hother
    obtain rfl := Option.some.inj (hfound.symm.trans hmarket)
    obtain rfl := Except.ok.inj (hmoved.symm.trans hrunning)
    rw [if_pos rfl, if_pos rfl, if_pos rfl, movesOf, List.map_append]
    refine ⟨new, moveShares_append hmoved hnew, ?_⟩
    push_cast
    linarith
  · rw [if_neg hother, if_neg hother, if_neg hother, List.append_nil]
    exact ⟨running, hrunning, hle⟩

omit [F64 F] in
theorem applyAmplifyBeta_eq_ok {amplify : AmplifyBeta}
    (h : applyAmplifyBeta L u tx amplify = .ok u') :
    ∃ input, u' = { u with
      pendingBuySettlements := u.pendingBuySettlements ++
        [⟨amplify.marketId, amplify.marketAuthor, input, amplify.amount, 0,
          L.txid tx.transaction, true⟩] } := by
  simp only [applyAmplifyBeta, bind_eq_ok_iff, Except.ok.injEq] at h
  obtain ⟨input, -, rfl⟩ := h
  exact ⟨input, rfl⟩

theorem balanced_amplify (hC : Potential L val C) (hbase : 0 < base) {amplify : AmplifyBeta}
    (h : applyAmplifyBeta L u tx amplify = .ok u') (hbalanced : Balanced C u marketId base shares) :
    Balanced C u' marketId base shares := by
  obtain ⟨input, rfl⟩ := applyAmplifyBeta_eq_ok h
  obtain ⟨running, hrunning, hle⟩ := hbalanced
  refine ⟨running, hrunning, ?_⟩
  rw [amplifications_append (u := u) rfl, paidIn_append (u := u) rfl]
  change C _ running + (paidOut u marketId : ℝ) ≤ _
  simp only [and_true]
  generalize (u.amplifications marketId).sum = added at hle ⊢
  generalize (if amplify.marketId = marketId then amplify.amount else 0) = amount
  have hpos : 0 < saturatingAdd base added := lt_min (Nat.add_pos_left hbase _) (by decide)
  obtain ⟨hmono, hgrowth⟩ := saturatingAdd_growth base added amount
  have hgrowth' : (saturatingAdd base (added + amount) : ℝ) ≤
      saturatingAdd base added + amount := by exact_mod_cast hgrowth
  have hamplify := hC.amplify _ _ running hpos hmono
  push_cast
  linarith

/-- Every stored market with liquidity is balanced. -/
def AllBalanced (C : Nat → List I64 → ℝ) (s : State F) (u : StateUpdate F) : Prop :=
  ∀ marketId market, s.markets.getMarket marketId = some market → 0 < market.liquidityBaseSats →
    market.liquidityBaseSats ≤ amountMax →
      Balanced C u marketId market.liquidityBaseSats market.shares

/-- A market that is not stored is amplified at most, and pays nothing out. -/
def OnlyAmplified (s : State F) (u : StateUpdate F) : Prop :=
  ∀ marketId, s.markets.getMarket marketId = none → u.updatesOf marketId = [] ∧
    paidOut u marketId = 0 ∧ paidIn u marketId = (u.amplifications marketId).sum

variable {s' : State F} {height : Nat}

omit [F64 F] in
theorem getMarket_framed (h : Framed s s') (marketId : MarketId) :
    s'.markets.getMarket marketId = s.markets.getMarket marketId := by
  rw [Framed] at h
  rw [h]
  rfl

theorem onlyAmplified_of_effect [DecidableEq F] (h : Effect L height s u tx s' u')
    (hs : OnlyAmplified s u) : OnlyAmplified s' u' := by
  intro marketId hnone
  rw [getMarket_framed h.framed] at hnone
  have hbefore := hs marketId hnone
  cases h with
  | plain _ | claimDecision _ _ _ | transferReputation _ _ _ => exact hbefore
  | trade trade _ h =>
      obtain ⟨market, _, _, _, _, hquote, happlied⟩ := applyTrade_eq_some h
      have hother : trade.marketId ≠ marketId := by
        rintro rfl
        rw [hquote.market_eq] at hnone
        cases hnone
      obtain ⟨paid, got, hadds⟩ := exists_adds h
      obtain ⟨volume, hupdates⟩ := hadds.updates
      obtain ⟨hmoves, hout, hin⟩ := hbefore
      refine ⟨?_, ?_, ?_⟩
      · rw [updatesOf_append hupdates, if_neg hother, hmoves, List.append_nil]
      · rw [hadds.paidOut, if_neg hother, hout]
      · rw [hadds.paidIn, if_neg hother, hin, hadds.amplifications]
        rfl
  | createMarket creation _ h =>
      obtain ⟨_, _, _, _, -, -, -, rfl, -⟩ := applyMarketCreation_eq_ok h
      exact hbefore
  | submitVote vote _ h =>
      simp only [applySubmitVote, addVote, bind_eq_ok_iff, Except.ok.injEq] at h
      obtain ⟨_, -, _, -, _, -, rfl⟩ := h
      exact hbefore
  | submitBallot ballot _ h =>
      rw [applySubmitBallot_framed h]
      exact hbefore
  | amplifyBeta amplify _ h =>
      obtain ⟨input, rfl⟩ := applyAmplifyBeta_eq_ok h
      obtain ⟨hmoves, hout, hin⟩ := hbefore
      refine ⟨hmoves, hout, ?_⟩
      rw [amplifications_append (u := u) rfl, paidIn_append (u := u) rfl, hin]
      simp

theorem allBalanced_of_effect [DecidableEq F] (hC : Potential L val C) (hval : Exact val)
    (h : Effect L height s u tx s' u') (hs : AllBalanced C s u) : AllBalanced C s' u' := by
  intro marketId market hmarket hbase hmax
  rw [getMarket_framed h.framed] at hmarket
  have hbefore := hs marketId market hmarket hbase hmax
  cases h with
  | plain _ | claimDecision _ _ _ | transferReputation _ _ _ => exact hbefore
  | trade trade _ h => exact balanced_trade hC hval h hmarket hbefore
  | createMarket creation _ h =>
      obtain ⟨_, _, _, _, -, -, -, rfl, -⟩ := applyMarketCreation_eq_ok h
      exact hbefore
  | submitVote vote _ h =>
      simp only [applySubmitVote, addVote, bind_eq_ok_iff, Except.ok.injEq] at h
      obtain ⟨_, -, _, -, _, -, rfl⟩ := h
      exact hbefore
  | submitBallot ballot _ h =>
      rw [applySubmitBallot_framed h]
      exact hbefore
  | amplifyBeta amplify _ h => exact balanced_amplify hC hbase h hbefore

end Truthcoin.CostPotential
