import Truthcoin.SettlementSteps

/-!
# The records of the markets

Every record is filed under the id of its market, in every state of a run. So the
trades and the amplifications of a block rewrite one record each, and leave the
indexes of the markets alone.
-/

namespace Truthcoin.MarketRecords

open Truthcoin.Types Truthcoin.Table Truthcoin.Fallible Truthcoin.Arithmetic
open Truthcoin.Decisions Truthcoin.Markets Truthcoin.Blocks Truthcoin.Settlement
open Truthcoin.Apply Truthcoin.Consolidation Truthcoin.Connect Truthcoin.ConnectTrace
open Truthcoin.Disconnect Truthcoin.BlockRun Truthcoin.MarketSteps Truthcoin.SettlementSteps

variable {F : Type} {L : Library F} {db db' : MarketsDatabase F} {market : Market F}

/-- Every record is filed under the id of its market. -/
def Keyed (db : MarketsDatabase F) : Prop :=
  ∀ (m : MarketId) (record : Market F), db.markets[m]? = some record → record.id = m

theorem keyed_empty : Keyed (MarketsDatabase.empty F) := by
  intro m record h
  simp [MarketsDatabase.empty] at h

theorem keyed_of_markets (hdb : Keyed db) (h : db'.markets = db.markets) : Keyed db' := by
  intro m record hrecord
  rw [h] at hrecord
  exact hdb m record hrecord

theorem keyed_of_insert (hdb : Keyed db) (h : db'.markets = db.markets.insert market.id market) :
    Keyed db' := by
  intro m record hrecord
  rw [h, Std.ExtTreeMap.getElem?_insert] at hrecord
  split at hrecord
  · rename_i heq
    rw [← Option.some.inj hrecord]
    exact Std.LawfulEqCmp.compare_eq_iff_eq.mp heq
  · exact hdb m record hrecord

theorem keyed_of_erase {marketId : MarketId} (hdb : Keyed db)
    (h : db'.markets = db.markets.erase marketId) : Keyed db' := by
  intro m record hrecord
  rw [h, Std.ExtTreeMap.getElem?_erase] at hrecord
  split at hrecord
  · cases hrecord
  · exact hdb m record hrecord

/-- The fields of a record that the indexes are built from. -/
structure SameListing (old new : Market F) : Prop where
  id : new.id = old.id
  marketState : new.marketState = old.marketState
  expiresAtHeight : new.expiresAtHeight = old.expiresAtHeight
  decisionIds : new.decisionIds = old.decisionIds

/-- Put a record in the place of the one that is there. -/
def putRecord (db : MarketsDatabase F) (market : Market F) : MarketsDatabase F :=
  { db with markets := db.markets.insert market.id market }

theorem updateMarket_putRecord {old : Market F} (hold : db.getMarket old.id = some old)
    (hsame : SameListing old market) : db.updateMarket market = .ok (putRecord db market) := by
  have hfound : db.getMarket market.id = some old := by rw [hsame.id, hold]
  rw [updateMarket_eq_ok_iff]
  constructor
  · rintro old' hold'
    rw [← Option.some.inj (hfound.symm.trans hold'), hsame.marketState]
    exact canTransitionTo_self _
  · have hnone : old.decisionIds.filter (· ∉ old.decisionIds) = [] := by
      simp [List.filter_eq_nil_iff]
    unfold MarketsDatabase.writeMarketAndIndexes
    simp only [hfound, hsame.marketState, hsame.expiresAtHeight, hsame.decisionIds, hnone,
      putRecord, List.foldl_nil, if_true]

/-- The record of a market after the trades of a block. -/
def tradedRecord (u : StateUpdate F) (height : Nat) (marketId : MarketId) (old : Market F) :
    Except Error (Market F) := do
  let (market, newShares) ← (u.updatesOf marketId).foldlM addUpdate (old, old.shares)
  (market.updateState height none (some newShares) none).mapError
    (marketFailure "Failed to update market state")

/-- The record of a market after the amplifications of a block. -/
def amplifiedRecord (u : StateUpdate F) (marketId : MarketId) (old : Market F) :
    Except Error (Market F) := do
  let amount ← sumU64 (u.amplifications marketId)
  let liquidityBaseSats ← okOr (checkedAdd old.liquidityBaseSats amount)
    (.invalidTransaction s!"Liquidity base overflow for market {marketId}")
  .ok { old with liquidityBaseSats }

theorem addUpdate_listing {acc acc' : Market F × List I64} {update : MarketStateUpdate}
    (h : addUpdate acc update = .ok acc') :
    SameListing acc.1 acc'.1 ∧ acc'.1.shares = acc.1.shares := by
  simp only [addUpdate, Market.updateTradingVolume, Market.changeVolume, bind_eq_ok_iff,
    mapError_eq_ok_iff, Except.ok.injEq] at h
  obtain ⟨_, -, _, ⟨_, -, rfl⟩, rfl⟩ := h
  exact ⟨⟨rfl, rfl, rfl, rfl⟩, rfl⟩

theorem SameListing.trans {a b c : Market F} (h : SameListing a b) (h' : SameListing b c) :
    SameListing a c where
  id := h'.id.trans h.id
  marketState := h'.marketState.trans h.marketState
  expiresAtHeight := h'.expiresAtHeight.trans h.expiresAtHeight
  decisionIds := h'.decisionIds.trans h.decisionIds

theorem tradedRecord_listing {u : StateUpdate F} {height : Nat} {marketId : MarketId}
    {old new : Market F} (h : tradedRecord u height marketId old = .ok new) :
    SameListing old new := by
  simp only [tradedRecord, Market.updateState, bind_eq_ok_iff, mapError_eq_ok_iff,
    Except.ok.injEq] at h
  obtain ⟨⟨traded, newShares⟩, hfold, _, -, _, -, rfl⟩ := h
  have hlisting : SameListing old traded := foldlM_preserves
    (P := fun acc : Market F × List I64 => SameListing old acc.1)
    (fun _ _ _ _ hacc hstep => hacc.trans (addUpdate_listing hstep).1) hfold ⟨rfl, rfl, rfl, rfl⟩
  exact hlisting.trans ⟨rfl, rfl, rfl, rfl⟩

theorem amplifiedRecord_listing {u : StateUpdate F} {marketId : MarketId} {old new : Market F}
    (h : amplifiedRecord u marketId old = .ok new) : SameListing old new := by
  simp only [amplifiedRecord, bind_eq_ok_iff, Except.ok.injEq] at h
  obtain ⟨_, -, _, -, rfl⟩ := h
  exact ⟨rfl, rfl, rfl, rfl⟩

theorem applyMarketUpdates_iff (hdb : Keyed db) {u : StateUpdate F} {height : Nat}
    {marketId : MarketId} :
    applyMarketUpdates u height db marketId = .ok db' ↔
      ∃ old new, db.getMarket marketId = some old ∧ tradedRecord u height marketId old = .ok new ∧
        db' = (putRecord db new).clearMempoolShares marketId := by
  simp only [applyMarketUpdates, bind_eq_ok_iff, okOr_eq_ok_iff, Except.ok.injEq]
  constructor
  · rintro ⟨old, hold, acc, hfold, new, hnew, db₁, hdb₁, rfl⟩
    have htraded : tradedRecord u height marketId old = .ok new :=
      bind_eq_ok_iff.mpr ⟨acc, hfold, hnew⟩
    have hfiled : db.getMarket old.id = some old := by rw [hdb marketId old hold, hold]
    rw [updateMarket_putRecord hfiled (tradedRecord_listing htraded)] at hdb₁
    rw [← Except.ok.inj hdb₁]
    exact ⟨old, new, hold, htraded, rfl⟩
  · rintro ⟨old, new, hold, htraded, rfl⟩
    have hfiled : db.getMarket old.id = some old := by rw [hdb marketId old hold, hold]
    obtain ⟨acc, hfold, hnew⟩ := bind_eq_ok_iff.mp htraded
    exact ⟨old, hold, acc, hfold, new, hnew, putRecord db new,
      updateMarket_putRecord hfiled (tradedRecord_listing htraded), rfl⟩

theorem applyAmplifications_iff (hdb : Keyed db) {u : StateUpdate F} {marketId : MarketId} :
    applyAmplifications u db marketId = .ok db' ↔
      ∃ old new, db.getMarket marketId = some old ∧ amplifiedRecord u marketId old = .ok new ∧
        db' = putRecord db new := by
  simp only [applyAmplifications, bind_eq_ok_iff, okOr_eq_ok_iff]
  constructor
  · rintro ⟨amount, hamount, old, hold, liquidity, hliquidity, h⟩
    have hnew : amplifiedRecord u marketId old =
        .ok { old with liquidityBaseSats := liquidity } := by
      simp only [amplifiedRecord, bind_eq_ok_iff, okOr_eq_ok_iff]
      exact ⟨amount, hamount, liquidity, hliquidity, rfl⟩
    have hfiled : db.getMarket old.id = some old := by rw [hdb marketId old hold, hold]
    rw [updateMarket_putRecord hfiled (amplifiedRecord_listing hnew)] at h
    exact ⟨old, _, hold, hnew, (Except.ok.inj h).symm⟩
  · rintro ⟨old, new, hold, hnew, rfl⟩
    have hfiled : db.getMarket old.id = some old := by rw [hdb marketId old hold, hold]
    have hput := updateMarket_putRecord hfiled (amplifiedRecord_listing hnew)
    simp only [amplifiedRecord, bind_eq_ok_iff, okOr_eq_ok_iff, Except.ok.injEq] at hnew
    obtain ⟨amount, hamount, liquidity, hliquidity, rfl⟩ := hnew
    exact ⟨amount, hamount, old, hold, liquidity, hliquidity, hput⟩

theorem Keyed.addMarkets (markets : List (Market F)) (hdb : Keyed db) :
    Keyed (markets.foldl MarketsDatabase.addMarket db) := by
  induction markets generalizing db with
  | nil => exact hdb
  | cons market markets ih => exact ih (keyed_of_insert hdb addMarket_markets)

theorem Keyed.applyMarketUpdates {u : StateUpdate F} {height : Nat}
    {marketId : MarketId} (hdb : Keyed db)
    (h : Connect.applyMarketUpdates u height db marketId = .ok db') : Keyed db' := by
  obtain ⟨old, new, -, -, rfl⟩ := (applyMarketUpdates_iff hdb).mp h
  exact keyed_of_insert hdb rfl

theorem Keyed.applyAmplifications {u : StateUpdate F} {marketId : MarketId}
    (hdb : Keyed db) (h : Connect.applyAmplifications u db marketId = .ok db') : Keyed db' := by
  obtain ⟨old, new, -, -, rfl⟩ := (applyAmplifications_iff hdb).mp h
  exact keyed_of_insert hdb rfl

theorem Keyed.updateMarket (hdb : Keyed db) (h : db.updateMarket market = .ok db') :
    Keyed db' := by
  obtain ⟨-, rfl⟩ := updateMarket_eq_ok_iff.mp h
  exact keyed_of_insert hdb writeMarketAndIndexes_markets

theorem Keyed.shareChanges {changes : List (ShareKey × I64)} {height : Nat} (hdb : Keyed db)
    (h : changes.foldlM (applyShareChange height) db = .ok db') : Keyed db' := by
  rw [shareChanges_framed h]
  exact keyed_of_markets hdb rfl

theorem Keyed.deleteMarket (hdb : Keyed db) (marketId : MarketId) :
    Keyed (db.deleteMarket marketId) := by
  unfold MarketsDatabase.deleteMarket
  split
  · exact hdb
  · exact keyed_of_erase hdb rfl

variable {s s' : State F} {height : Nat}

theorem Keyed.writeMarkets [F64 F] {u : StateUpdate F} (hdb : Keyed db)
    (h : Connect.writeMarkets L u height db = .ok db') : Keyed db' := by
  simp only [Connect.writeMarkets, bind_eq_ok_iff, Except.ok.injEq] at h
  obtain ⟨db₁, h₁, db₂, h₂, db₃, h₃, _, -, rfl⟩ := h
  have hupdates := foldlM_preserves (P := Keyed)
    (fun _ _ _ _ hd hstep => hd.applyMarketUpdates hstep) h₁ (hdb.addMarkets _)
  have hamplify := foldlM_preserves (P := Keyed)
    (fun _ _ _ _ hd hstep => hd.applyAmplifications hstep) h₂ hupdates
  exact hamplify.shareChanges h₃

theorem Keyed.redeem {payouts : List (SharePayoutRecord F)} (hdb : Keyed db)
    (h : payouts.foldlM (redeem height) db = .ok db') : Keyed db' := by
  refine foldlM_preserves (P := Keyed) ?_ h hdb
  intro p _ d d' hd hstep
  rw [removeSharesFromAccount_framed hstep]
  exact keyed_of_markets hd rfl

theorem Keyed.giveBack {payouts : List (SharePayoutRecord F)} (hdb : Keyed db)
    (h : payouts.foldlM (giveBack height) db = .ok db') : Keyed db' := by
  refine foldlM_preserves (P := Keyed) ?_ h hdb
  intro p _ d d' hd hstep
  rw [addSharesToAccount_framed hstep]
  exact keyed_of_markets hd rfl

theorem keyed_settleMarket [F64 F] {entry : SettlementUndoEntry F} (hs : Keyed s.markets)
    (h : settleMarket L s market height = .ok (s', entry)) : Keyed s'.markets := by
  obtain ⟨priced, settled, db, -, -, hredeem, -, hmarkets, -, -⟩ := settleMarket_eq_ok h
  have hcleared : Keyed (clearFunds db entry.payoutSummary.marketId) :=
    keyed_of_markets (hs.redeem hredeem) rfl
  exact hcleared.updateMarket hmarkets

theorem keyed_transitionMarkets [F64 F] {entries : List (SettlementUndoEntry F)}
    (hs : Keyed s.markets)
    (h : transitionAndPayoutResolvedMarkets L s height = .ok (s', entries)) :
    Keyed s'.markets := by
  refine foldlM_preserves
    (P := fun acc : State F × List (SettlementUndoEntry F) => Keyed acc.1.markets) ?_ h hs
  intro record _ acc acc' hacc hstep
  unfold transitionMarket at hstep
  split at hstep
  · obtain ⟨⟨s₁, entry⟩, hsettle, hstep⟩ := bind_eq_ok_iff.mp hstep
    rw [← Except.ok.inj hstep]
    exact keyed_settleMarket hacc hsettle
  · rw [← Except.ok.inj hstep]
    exact hacc

variable [F64 F] [DecidableEq F] {config : DecisionConfig}

theorem keyed_applied {block : Block F} {t : Trace F} (hs : Keyed s.markets)
    (h : applyTransactions L (t.opened L s block) t.pre.filledTransactions t.height =
      .ok t.applied) : Keyed t.applied.state.markets := by
  rw [applied_eq h]
  exact keyed_of_markets hs rfl

theorem keyed_applyBlock {archive : Archive} {block : Block F} (hs : Keyed s.markets)
    (h : applyBlock L config archive s block = .ok s') : Keyed s'.markets := by
  obtain ⟨t, ht, rfl⟩ := connects_of_applyBlock h
  have hwritten : Keyed t.written := (keyed_applied hs ht.applied).writeMarkets ht.written
  have hcounted : Keyed t.counted.markets := keyed_of_markets hwritten rfl
  have hpaid : Keyed t.paid.markets := keyed_transitionMarkets hcounted ht.paid
  exact hpaid

omit [F64 F] [DecidableEq F] in
@[simp]
theorem restoreMarketFunds_markets (marketId : MarketId) (isFee : Bool)
    (utxo : Option (OutPoint × FilledOutput)) (s : State F) :
    (restoreMarketFunds marketId isFee utxo s).markets.markets = s.markets.markets := by
  unfold restoreMarketFunds
  split <;> rfl

omit [F64 F] [DecidableEq F] in
theorem keyed_revertSettlement {entries : List (SettlementUndoEntry F)} (hs : Keyed s.markets)
    (h : revertSettlement L s entries height = .ok s') : Keyed s'.markets := by
  refine foldlM_preserves (P := fun s : State F => Keyed s.markets) ?_ h hs
  intro entry _ s₁ s₂ hs₁ hstep
  simp only [revertSettlementEntry, revertAutomaticSharePayouts_iff, bind_eq_ok_iff,
    Except.ok.injEq] at hstep
  obtain ⟨_, ⟨db, hdb, rfl⟩, rfl⟩ := hstep
  refine keyed_of_insert ?_ writeMarketAndIndexes_markets
  exact keyed_of_markets (hs₁.giveBack hdb) (by simp)

omit [DecidableEq F] in
theorem beforeTxs_markets (t : UndoTrace F) :
    t.beforeTxs.markets =
      { t.unsettled.markets with
        marketFundsUtxos := t.beforeTxs.markets.marketFundsUtxos } := by
  have hconsensus : (undoConsensus t.unsettled t.height).markets = t.unsettled.markets := by
    rw [undoConsensus_eq]
  unfold UndoTrace.beforeTxs undoConsolidation
  split
  · rw [hconsensus]
  · simp [withFunds, hconsensus]

theorem keyed_revertTransaction {acc acc' : State F × List (ShareKey × I64)}
    {tx : Transaction F} (hacc : Keyed acc.1.markets)
    (h : revertTransaction L acc tx = .ok acc') : Keyed acc'.1.markets := by
  obtain ⟨filledTx, mid, coins, -, hdata, -, rfl⟩ := revertTransaction_eq_ok h
  rcases hdata with ⟨-, rfl⟩ | ⟨data, -, hdata⟩
  · exact hacc
  · cases data with
    | claimDecision payload | submitVote vote | submitBallot ballot =>
        simp only [revertTxData, bind_eq_ok_iff, Except.ok.injEq] at hdata
        obtain ⟨_, -, rfl⟩ := hdata
        exact hacc
    | transferReputation transfer =>
        rw [← Except.ok.inj hdata]
        exact hacc
    | createMarket creation =>
        simp only [revertTxData, revertCreateMarket, bind_eq_ok_iff, Except.ok.injEq] at hdata
        obtain ⟨_, ⟨creator, -, decisions, -, rfl⟩, rfl⟩ := hdata
        exact hacc.deleteMarket _
    | trade trade =>
        simp only [revertTxData, bind_eq_ok_iff, Except.ok.injEq] at hdata
        obtain ⟨⟨s₁, delta⟩, hrevert, rfl⟩ := hdata
        obtain ⟨old, new, -, -, hdb, -, -⟩ := revertTradeMarketState_eq_ok hrevert
        exact hacc.updateMarket hdb
    | amplifyBeta amplify =>
        simp only [revertTxData, revertAmplifyBeta, bind_eq_ok_iff, Except.ok.injEq] at hdata
        obtain ⟨_, ⟨old, -, base, -, db, hdb, rfl⟩, rfl⟩ := hdata
        exact hacc.updateMarket hdb

theorem keyed_undoTransactions {body : Body F} {deltas : List (ShareKey × I64)}
    (hs : Keyed s.markets) (h : undoTransactions L s body height = .ok (s', deltas)) :
    Keyed s'.markets := by
  simp only [undoTransactions, bind_eq_ok_iff, Except.ok.injEq, Prod.mk.injEq] at h
  obtain ⟨⟨s₁, deltas₁⟩, hfold, rfl, -⟩ := h
  exact foldlM_preserves (P := fun acc : State F × List (ShareKey × I64) => Keyed acc.1.markets)
    (fun _ _ _ _ hacc hstep => keyed_revertTransaction hacc hstep) hfold hs

omit [F64 F] [DecidableEq F] in
theorem keyed_undoSettlement (hs : Keyed s.markets) (h : undoSettlement L s height = .ok s') :
    Keyed s'.markets := by
  unfold undoSettlement at h
  split at h
  · rw [← Except.ok.inj h]
    exact hs
  · obtain ⟨s₁, hrevert, h⟩ := bind_eq_ok_iff.mp h
    have hs₁ : Keyed s₁.markets := keyed_revertSettlement hs hrevert
    rw [← Except.ok.inj h]
    exact hs₁

theorem disconnected_markets {header : Header} {body : Body F} {t : UndoTrace F}
    (ht : Disconnects L s header body t s') : s'.markets = t.markets := by
  rw [setPreviousTip_eq ht.previous]
  unfold UndoTrace.reverted
  rw [undoReputationTransfers_eq]
  rfl

theorem keyed_disconnectTip {header : Header} {body : Body F} (hs : Keyed s.markets)
    (h : disconnectTip L s header body = .ok s') : Keyed s'.markets := by
  obtain ⟨t, ht⟩ := disconnectTip_eq_ok_iff.mp h
  have hbefore : Keyed t.beforeTxs.markets := by
    rw [beforeTxs_markets]
    exact keyed_of_markets (keyed_undoSettlement hs ht.unsettled) rfl
  have hundone : Keyed t.undone.markets := keyed_undoTransactions hbefore ht.undone
  obtain ⟨changes, -, hchanges⟩ := bind_eq_ok_iff.mp ht.markets
  rw [disconnected_markets ht]
  exact hundone.shareChanges hchanges

variable {lib : WithdrawalBundle.BundleLib} {ok : State F → Block F → Prop}
  {okPeg : State F → TwoWayPegData → Prop} {chain : List (Block F)}

theorem keyed_of_run (hrun : Run L config lib ok okPeg chain s) : Keyed s.markets := by
  induction hrun with
  | start => exact keyed_empty
  | connect archive hrun hok h ih => exact keyed_applyBlock ih h
  | disconnect hrun h ih => exact keyed_disconnectTip ih h
  | connectPeg hrun hok h ih =>
      obtain ⟨p, -, h⟩ := bind_eq_ok_iff.mp h
      rw [← Except.ok.inj h]
      exact ih
  | disconnectPeg hrun h ih =>
      obtain ⟨p, -, h⟩ := bind_eq_ok_iff.mp h
      rw [← Except.ok.inj h]
      exact ih

end Truthcoin.MarketRecords
