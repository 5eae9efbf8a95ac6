import Truthcoin.MarketSteps

/-!
# What settling a market does

A settlement inserts the payouts, takes the redeemed shares off the accounts and
spends the funds of the market; its reversal deletes the payouts, gives the shares
back and reinstates the funds.
-/

namespace Truthcoin.SettlementSteps

open Truthcoin.Types Truthcoin.Table Truthcoin.Fallible Truthcoin.Arithmetic
open Truthcoin.Decisions Truthcoin.Markets Truthcoin.Blocks Truthcoin.Settlement
open Truthcoin.MarketSteps

variable {F : Type} {L : Library F} {height : Nat} {s s' : State F}

def sharePayoutRow (L : Library F) (height : Nat) (entry : SharePayoutRecord F × Nat) :
    CoinRow :=
  (sharePayoutOutpoint L entry.1.marketId entry.1.address height entry.2,
    bitcoinOutput entry.1.address entry.1.payoutSats)

/-- Outputs for the positions that are worth something. -/
def sharePayoutRows (L : Library F) (height : Nat)
    (entries : List (SharePayoutRecord F × Nat)) : List CoinRow :=
  (entries.filter fun entry => entry.1.payoutSats > 0).map (sharePayoutRow L height)

def feePayoutRow (L : Library F) (marketId : MarketId) (height : Nat)
    (entry : FeePayoutRecord × Nat) : CoinRow :=
  (sharePayoutOutpoint L marketId entry.1.address height entry.2,
    bitcoinOutput entry.1.address entry.1.amountSats)

def refundRow (L : Library F) (summary : MarketPayoutSummary F) (height : Nat)
    (refund : CreatorRefund) : CoinRow :=
  (sharePayoutOutpoint L summary.marketId refund.address height
      (summary.payouts.length + summary.feePayouts.length),
    bitcoinOutput refund.address refund.amountSats)

/-- All outputs that a settlement creates. -/
def payoutRows (L : Library F) (summary : MarketPayoutSummary F) (height : Nat) :
    List CoinRow :=
  sharePayoutRows L height summary.payouts.zipIdx ++
    (summary.feePayouts.zipIdx summary.payouts.length).map
      (feePayoutRow L summary.marketId height) ++
    summary.creatorRefund.toList.map (refundRow L summary height)

/-- Take the shares of a payout off an account. -/
def redeem (height : Nat) (db : MarketsDatabase F) (p : SharePayoutRecord F) :
    Except Error (MarketsDatabase F) :=
  db.removeSharesFromAccount p.address ⟨p.marketId, p.outcomeIndex⟩ p.sharesRedeemed height

/-- Give the shares of a payout back. -/
def giveBack (height : Nat) (db : MarketsDatabase F) (p : SharePayoutRecord F) :
    Except Error (MarketsDatabase F) :=
  db.addSharesToAccount p.address ⟨p.marketId, p.outcomeIndex⟩ p.sharesRedeemed height

/-- Delete the outputs of a list of payouts. -/
def withoutRows (s : State F) (rows : List CoinRow) : State F :=
  { s with coins := deleteOutpoints s.coins (rows.map Prod.fst) }

def withRows (s : State F) (rows : List CoinRow) : State F :=
  { s with coins := insertRows s.coins rows }

theorem foldlM_applySharePayout_iff {entries : List (SharePayoutRecord F × Nat)} :
    entries.foldlM (applySharePayout L height) s = .ok s' ↔
      ∃ db, (entries.map Prod.fst).foldlM (redeem height) s.markets = .ok db ∧
        s' = { withRows s (sharePayoutRows L height entries) with markets := db } := by
  induction entries generalizing s with
  | nil => simp [withRows, sharePayoutRows, eq_comm]
  | cons entry entries ih =>
      obtain ⟨p, sequence⟩ := entry
      simp only [List.foldlM_cons, bind_eq_ok_iff, ih, applySharePayout, Except.ok.injEq,
        List.map_cons]
      constructor
      · rintro ⟨s₁, ⟨db₁, hredeem, rfl⟩, db, hdb, rfl⟩
        refine ⟨db, ⟨db₁, ?_, hdb⟩, ?_⟩
        · split at hredeem <;> exact hredeem
        · by_cases hpaid : p.payoutSats > 0
          · simp [withRows, sharePayoutRows, hpaid, State.insertUtxo, sharePayoutRow]
          · simp [withRows, sharePayoutRows, hpaid]
      · rintro ⟨db, ⟨db₁, hredeem, hdb⟩, rfl⟩
        refine ⟨_, ⟨db₁, ?_, rfl⟩, db, hdb, ?_⟩
        · split <;> exact hredeem
        · by_cases hpaid : p.payoutSats > 0
          · simp [withRows, sharePayoutRows, hpaid, State.insertUtxo, sharePayoutRow]
          · simp [withRows, sharePayoutRows, hpaid]

theorem foldlM_revertSharePayout_iff {entries : List (SharePayoutRecord F × Nat)} :
    entries.foldlM (revertSharePayout L height) s = .ok s' ↔
      ∃ db, (entries.map Prod.fst).foldlM (giveBack height) s.markets = .ok db ∧
        s' = { withoutRows s (sharePayoutRows L height entries) with markets := db } := by
  induction entries generalizing s with
  | nil => simp [withoutRows, sharePayoutRows, eq_comm]
  | cons entry entries ih =>
      obtain ⟨p, sequence⟩ := entry
      simp only [List.foldlM_cons, bind_eq_ok_iff, ih, revertSharePayout, Except.ok.injEq,
        List.map_cons]
      constructor
      · rintro ⟨s₁, ⟨db₁, hback, rfl⟩, db, hdb, rfl⟩
        refine ⟨db, ⟨db₁, ?_, hdb⟩, ?_⟩
        · split at hback <;> exact hback
        · by_cases hpaid : p.payoutSats > 0
          · simp [withoutRows, sharePayoutRows, hpaid, State.deleteUtxo, sharePayoutRow]
          · simp [withoutRows, sharePayoutRows, hpaid]
      · rintro ⟨db, ⟨db₁, hback, hdb⟩, rfl⟩
        refine ⟨_, ⟨db₁, ?_, rfl⟩, db, hdb, ?_⟩
        · split <;> exact hback
        · by_cases hpaid : p.payoutSats > 0
          · simp [withoutRows, sharePayoutRows, hpaid, State.deleteUtxo, sharePayoutRow]
          · simp [withoutRows, sharePayoutRows, hpaid]

theorem foldl_applyFeePayout (marketId : MarketId) (entries : List (FeePayoutRecord × Nat))
    (s : State F) :
    entries.foldl (applyFeePayout L marketId height) s =
      withRows s (entries.map (feePayoutRow L marketId height)) := by
  induction entries generalizing s with
  | nil => rfl
  | cons entry entries ih =>
      rw [List.foldl_cons, ih]
      rfl

theorem foldl_revertFeePayout (marketId : MarketId) (entries : List (FeePayoutRecord × Nat))
    (s : State F) :
    entries.foldl (revertFeePayout L marketId height) s =
      withoutRows s (entries.map (feePayoutRow L marketId height)) := by
  induction entries generalizing s with
  | nil => rfl
  | cons entry entries ih =>
      rw [List.foldl_cons, ih]
      rfl

/-- The outputs that the pointers of a market refer to. -/
def fundsOutpoints (db : MarketsDatabase F) (marketId : MarketId) : List OutPoint :=
  (db.getMarketFundsUtxo marketId false).toList ++ (db.getMarketFundsUtxo marketId true).toList

/-- Clear both pointers of a market. -/
def clearFunds (db : MarketsDatabase F) (marketId : MarketId) : MarketsDatabase F :=
  (db.clearMarketFundsUtxo marketId false).clearMarketFundsUtxo marketId true

theorem consumeMarketFunds_eq (marketId : MarketId) (isFee : Bool) (s : State F) :
    consumeMarketFunds marketId isFee s =
      { s with
        coins := deleteOutpoints s.coins (s.markets.getMarketFundsUtxo marketId isFee).toList
        markets := s.markets.clearMarketFundsUtxo marketId isFee } := by
  unfold consumeMarketFunds
  split
  · rename_i hnone
    have herase : s.markets.clearMarketFundsUtxo marketId isFee = s.markets := by
      unfold MarketsDatabase.clearMarketFundsUtxo
      rw [erase_of_absent (by simpa [MarketsDatabase.getMarketFundsUtxo] using hnone)]
    simp [hnone, herase]
  · rename_i outpoint hsome
    simp [hsome, State.deleteUtxo]

theorem consumeBoth_eq (marketId : MarketId) (s : State F) :
    consumeMarketFunds marketId true (consumeMarketFunds marketId false s) =
      { s with
        coins := deleteOutpoints s.coins (fundsOutpoints s.markets marketId)
        markets := clearFunds s.markets marketId } := by
  have hkept : (s.markets.clearMarketFundsUtxo marketId false).getMarketFundsUtxo marketId true =
      s.markets.getMarketFundsUtxo marketId true := by
    simp [MarketsDatabase.getMarketFundsUtxo, MarketsDatabase.clearMarketFundsUtxo,
      Std.ExtTreeMap.getElem?_erase]
  rw [consumeMarketFunds_eq, consumeMarketFunds_eq]
  simp only [hkept, fundsOutpoints, Coins.deleteOutpoints_append]
  rfl

theorem applyAutomaticSharePayouts_iff {summary : MarketPayoutSummary F} :
    applyAutomaticSharePayouts L s summary height = .ok s' ↔
      ∃ db, summary.payouts.foldlM (redeem height) s.markets = .ok db ∧
        s' = { s with
          coins := deleteOutpoints (insertRows s.coins (payoutRows L summary height))
            (fundsOutpoints db summary.marketId)
          markets := clearFunds db summary.marketId } := by
  have hentries : summary.payouts.zipIdx.map Prod.fst = summary.payouts :=
    List.zipIdx_map_fst ..
  simp only [applyAutomaticSharePayouts, bind_eq_ok_iff, foldlM_applySharePayout_iff, hentries,
    foldl_applyFeePayout, consumeBoth_eq, Except.ok.injEq]
  constructor
  · rintro ⟨_, ⟨db, hdb, rfl⟩, rfl⟩
    refine ⟨db, hdb, ?_⟩
    cases hrefund : summary.creatorRefund <;>
      simp [payoutRows, withRows, hrefund, Coins.insertRows_append, refundRow,
        State.insertUtxo]
  · rintro ⟨db, hdb, rfl⟩
    refine ⟨_, ⟨db, hdb, rfl⟩, ?_⟩
    cases hrefund : summary.creatorRefund <;>
      simp [payoutRows, withRows, hrefund, Coins.insertRows_append, refundRow,
        State.insertUtxo]

theorem revertAutomaticSharePayouts_iff {summary : MarketPayoutSummary F} :
    revertAutomaticSharePayouts L s summary height = .ok s' ↔
      ∃ db, summary.payouts.foldlM (giveBack height) s.markets = .ok db ∧
        s' = { s with
          coins := deleteOutpoints s.coins ((payoutRows L summary height).map Prod.fst)
          markets := db } := by
  have hentries : summary.payouts.zipIdx.map Prod.fst = summary.payouts :=
    List.zipIdx_map_fst ..
  simp only [revertAutomaticSharePayouts, bind_eq_ok_iff, foldlM_revertSharePayout_iff,
    hentries, foldl_revertFeePayout, Except.ok.injEq]
  constructor
  · rintro ⟨_, ⟨db, hdb, rfl⟩, rfl⟩
    refine ⟨db, hdb, ?_⟩
    cases hrefund : summary.creatorRefund <;>
      simp [payoutRows, withoutRows, hrefund, Coins.deleteOutpoints_append, refundRow,
        State.deleteUtxo]
  · rintro ⟨db, hdb, rfl⟩
    refine ⟨_, ⟨db, hdb, rfl⟩, ?_⟩
    cases hrefund : summary.creatorRefund <;>
      simp [payoutRows, withoutRows, hrefund, Coins.deleteOutpoints_append, refundRow,
        State.deleteUtxo]

variable [F64 F]

theorem settleMarket_eq_ok {market : Market F}
    {entry : SettlementUndoEntry F}
    (h : settleMarket L s market height = .ok (s', entry)) :
    ∃ priced settled db,
      market.updateState height none none
        (some (market.calculateFinalPrices (outcomesOf s market) (decisionsOf s market))) =
          .ok priced ∧
      calculateSharePayouts s priced height (outcomesOf s market) (decisionsOf s market) =
        .ok entry.payoutSummary ∧
      entry.payoutSummary.payouts.foldlM (redeem height) s.markets = .ok db ∧
      priced.updateState height (some .settled) none none = .ok settled ∧
      (clearFunds db entry.payoutSummary.marketId).updateMarket settled = .ok s'.markets ∧
      entry = ⟨market, entry.payoutSummary, s.marketFundsOutput market.id false,
        s.marketFundsOutput market.id true⟩ ∧
      s' = { s with
        coins := deleteOutpoints
          (insertRows s.coins (payoutRows L entry.payoutSummary height))
          (fundsOutpoints db entry.payoutSummary.marketId)
        markets := s'.markets } := by
  simp only [settleMarket, bind_eq_ok_iff, mapError_eq_ok_iff,
    applyAutomaticSharePayouts_iff, Except.ok.injEq, Prod.mk.injEq] at h
  obtain ⟨priced, hpriced, summary, hsummary, _, ⟨db, hdb, rfl⟩, settled, hsettled, markets,
    hmarkets, rfl, rfl⟩ := h
  exact ⟨priced, settled, db, hpriced, hsummary, hdb, hsettled, hmarkets, rfl, rfl⟩

theorem transitionAndPayoutResolvedMarkets_framed {entries : List (SettlementUndoEntry F)}
    (h : transitionAndPayoutResolvedMarkets L s height = .ok (s', entries)) :
    s' = { s with coins := s'.coins, markets := s'.markets } := by
  refine foldlM_preserves
    (P := fun acc : State F × List (SettlementUndoEntry F) =>
      acc.1 = { s with coins := acc.1.coins, markets := acc.1.markets }) ?_ h rfl
  rintro market - ⟨s₁, es⟩ acc' hframe hstep
  unfold transitionMarket at hstep
  split at hstep
  · obtain ⟨⟨s₂, entry⟩, hsettle, hstep⟩ := bind_eq_ok_iff.mp hstep
    rw [← Except.ok.inj hstep]
    obtain ⟨_, _, _, -, -, -, -, -, -, hs₂⟩ := settleMarket_eq_ok hsettle
    dsimp only at hframe ⊢
    rw [hs₂, hframe]
  · rw [← Except.ok.inj hstep]
    exact hframe

end Truthcoin.SettlementSteps
