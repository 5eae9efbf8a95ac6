import Truthcoin.TagConnect

/-!
# Disconnecting a block keeps the tags

The undo records hold tagged outputs only, and what a disconnection does not take
from them it takes from the table of spent outputs.
-/

namespace Truthcoin.TagConnect

open Truthcoin.Types Truthcoin.Table Truthcoin.Fallible Truthcoin.Arithmetic
open Truthcoin.Decisions Truthcoin.Markets Truthcoin.Voting Truthcoin.Blocks
open Truthcoin.Validation Truthcoin.Settlement Truthcoin.Apply Truthcoin.ApplySteps
open Truthcoin.Consolidation Truthcoin.Connect Truthcoin.ConnectTrace
open Truthcoin.Disconnect Truthcoin.MarketSteps Truthcoin.SettlementSteps

variable {F : Type} {L : Library F} {T : Tags} {s s' : State F}

theorem Tagged.withCoins (hs : Tagged T s) {c : Coins} (hc : c.Tagged T) :
    Tagged T { s with coins := c } :=
  ⟨hc, hs.bundles, hs.pointers, hs.settlement, hs.consolidation⟩

theorem Tagged.withMarkets (hs : Tagged T s) {db : MarketsDatabase F}
    (hdb : PointersTagged T db.marketFundsUtxos) : Tagged T { s with markets := db } :=
  ⟨hs.coins, hs.bundles, hdb, hs.settlement, hs.consolidation⟩

theorem eraseRow_of_some {κ β : Type} [TableKey κ] {table : Table κ β} {k k' : κ} {b : β}
    (h : (table.erase k)[k']? = some b) : table[k']? = some b := by
  rw [Std.ExtTreeMap.getElem?_erase] at h
  split at h
  · cases h
  · exact h

theorem giveBack_framed {height : Nat} {db db' : MarketsDatabase F}
    {payouts : List (SharePayoutRecord F)}
    (h : payouts.foldlM (giveBack height) db = .ok db') :
    db' = { db with shareAccounts := db'.shareAccounts } := by
  refine foldlM_preserves (P := fun d => d = { db with shareAccounts := d.shareAccounts })
    ?_ h rfl
  intro p _ d d' hd hstep
  rw [addSharesToAccount_framed hstep]
  conv_lhs => rw [hd]

theorem restoreMarketFunds_tagged {marketId : MarketId} {isFee : Bool}
    {utxo : Option CoinRow} (hs : Tagged T s)
    (hutxo : ∀ row, utxo = some row →
      RowTagged T row ∧ (T row.1).funds = some ⟨marketId, isFee⟩) :
    Tagged T (restoreMarketFunds marketId isFee utxo s) := by
  unfold restoreMarketFunds
  split
  · exact hs
  · rename_i outpoint output
    obtain ⟨hrow, hfunds⟩ := hutxo _ rfl
    have hcoins : Tagged T (s.insertUtxo outpoint output) :=
      hs.withCoins (hs.coins.insertUtxo hrow)
    exact hcoins.withMarkets (hs.pointers.insert hfunds)

theorem revertSettlementEntry_tagged {height : Nat} {entry : SettlementUndoEntry F}
    (hs : Tagged T s) (hentry : SettlementTagged T entry)
    (h : revertSettlementEntry L height s entry = .ok s') : Tagged T s' := by
  simp only [revertSettlementEntry, bind_eq_ok_iff, revertAutomaticSharePayouts_iff,
    Except.ok.injEq] at h
  obtain ⟨s₁, ⟨db, hdb, rfl⟩, rfl⟩ := h
  have hfunds : db.marketFundsUtxos = s.markets.marketFundsUtxos := by
    rw [giveBack_framed hdb]
  have hreverted : Tagged T { s with
      coins := deleteOutpoints s.coins ((payoutRows L entry.payoutSummary height).map Prod.fst)
      markets := db } := by
    refine (hs.withCoins (hs.coins.deleteOutpoints _)).withMarkets ?_
    rw [hfunds]
    exact hs.pointers
  have hrestored := restoreMarketFunds_tagged
    (restoreMarketFunds_tagged hreverted hentry.treasury) hentry.fee
  refine hrestored.withMarkets ?_
  rw [MarketsDatabase.restoreMarket, writeMarketAndIndexes_funds]
  exact hrestored.pointers

theorem undoSettlement_tagged {height : Nat} (hs : Tagged T s)
    (h : undoSettlement L s height = .ok s') : Tagged T s' := by
  unfold undoSettlement at h
  split at h
  · rw [← Except.ok.inj h]
    exact hs
  · rename_i entries hentries
    simp only [revertSettlement, bind_eq_ok_iff, Except.ok.injEq] at h
    obtain ⟨s₁, hfold, rfl⟩ := h
    have hs₁ : Tagged T s₁ := by
      refine foldlM_preserves (P := Tagged T) ?_ hfold hs
      intro e he _ _ ha hstep
      exact revertSettlementEntry_tagged ha
        (hs.settlement hentries e (List.mem_reverse.mp he)) hstep
    exact ⟨hs₁.coins, hs₁.bundles, hs₁.pointers,
      fun hrow => hs₁.settlement (eraseRow_of_some hrow), hs₁.consolidation⟩

theorem undoConsensus_tagged [F64 F] (hs : Tagged T s) (height : Nat) :
    Tagged T (undoConsensus s height) := by
  rw [undoConsensus_eq]
  exact ⟨hs.coins, hs.bundles, hs.pointers, hs.settlement, hs.consolidation⟩

theorem restorePointer_tagged {f : Funds} (hf : FundsTagged T f) {key : FundsKey}
    {pointer : Option OutPoint} (hpointer : ∀ o, pointer = some o → (T o).funds = some key) :
    FundsTagged T (f.restorePointer key pointer) := by
  cases pointer with
  | none => exact ⟨hf.coins, hf.pointers.erase key⟩
  | some o => exact ⟨hf.coins, hf.pointers.insert (hpointer o rfl)⟩

theorem revertConsolidationEntry_tagged {f : Funds} {e : ConsolidationUndoEntry}
    (hf : FundsTagged T f) (he : ConsolidationTagged T e) :
    FundsTagged T (revertConsolidationEntry f e) := by
  refine restorePointer_tagged (restorePointer_tagged ?_ he.treasury) he.fee
  exact ⟨(hf.coins.deleteOutpoints _).insertRows he.rows, hf.pointers⟩

theorem revertConsolidation_tagged {f : Funds} {undo : ConsolidationUndoData}
    (hf : FundsTagged T f) (hundo : ∀ e ∈ undo.entries, ConsolidationTagged T e) :
    FundsTagged T (revertConsolidation f undo) := by
  have hfold : ∀ (l : List ConsolidationUndoEntry) (f : Funds), FundsTagged T f →
      (∀ e ∈ l, ConsolidationTagged T e) →
      FundsTagged T (l.foldl revertConsolidationEntry f) := by
    intro l
    induction l with
    | nil => exact fun f hf _ => hf
    | cons e l ih =>
        intro f hf hl
        exact ih _ (revertConsolidationEntry_tagged hf (hl e (by simp)))
          fun e' he' => hl e' (by simp [he'])
  have hreverted := hfold undo.entries.reverse f hf
    fun e he => hundo e (List.mem_reverse.mp he)
  exact ⟨hreverted.coins.deleteOutpoints _, hreverted.pointers⟩

theorem undoConsolidation_tagged (hs : Tagged T s) (height : Nat) :
    Tagged T (undoConsolidation s height) := by
  unfold undoConsolidation
  split
  · exact hs
  · rename_i undo hundo
    have hfunds : FundsTagged T (revertConsolidation (fundsOf s) undo) :=
      revertConsolidation_tagged ⟨hs.coins, hs.pointers⟩ (hs.consolidation hundo)
    exact ⟨hfunds.coins, hs.bundles, hfunds.pointers, hs.settlement,
      fun hrow => hs.consolidation (eraseRow_of_some hrow)⟩

section

variable [F64 F] [DecidableEq F]

omit [F64 F] [DecidableEq F] in
theorem deleteMarket_tagged {db : MarketsDatabase F}
    (h : PointersTagged T db.marketFundsUtxos) (marketId : MarketId) :
    PointersTagged T (db.deleteMarket marketId).marketFundsUtxos := by
  unfold MarketsDatabase.deleteMarket
  split
  · exact h
  · exact (h.erase _).erase _

theorem revertTxData_tagged {acc acc' : State F × List (ShareKey × I64)}
    {tx : FilledTransaction F} {data : TxData F} (hs : Tagged T acc.1)
    (h : revertTxData L acc tx data = .ok acc') : Tagged T acc'.1 := by
  obtain ⟨s, deltas⟩ := acc
  cases data with
  | claimDecision payload =>
      simp only [revertTxData, bind_eq_ok_iff, Except.ok.injEq] at h
      obtain ⟨decisions, -, rfl⟩ := h
      exact ⟨hs.coins, hs.bundles, hs.pointers, hs.settlement, hs.consolidation⟩
  | createMarket creation =>
      simp only [revertTxData, revertCreateMarket, bind_eq_ok_iff, Except.ok.injEq] at h
      obtain ⟨_, ⟨creator, -, decisions, -, rfl⟩, rfl⟩ := h
      exact ⟨hs.coins, hs.bundles, deleteMarket_tagged hs.pointers _, hs.settlement,
        hs.consolidation⟩
  | trade trade =>
      simp only [revertTxData, bind_eq_ok_iff, Except.ok.injEq] at h
      obtain ⟨⟨s₁, delta⟩, hrevert, rfl⟩ := h
      obtain ⟨old, market, -, -, hdb, -, heq⟩ := revertTradeMarketState_eq_ok hrevert
      obtain ⟨-, hwrite⟩ := updateMarket_eq_ok_iff.mp hdb
      rw [heq]
      refine (hs.withCoins (hs.coins.deleteOutpoints _)).withMarkets ?_
      rw [hwrite, writeMarketAndIndexes_funds]
      exact hs.pointers
  | submitVote vote =>
      simp only [revertTxData, bind_eq_ok_iff, Except.ok.injEq] at h
      obtain ⟨voting, -, rfl⟩ := h
      exact ⟨hs.coins, hs.bundles, hs.pointers, hs.settlement, hs.consolidation⟩
  | submitBallot ballot =>
      simp only [revertTxData, bind_eq_ok_iff, Except.ok.injEq] at h
      obtain ⟨voting, -, rfl⟩ := h
      exact ⟨hs.coins, hs.bundles, hs.pointers, hs.settlement, hs.consolidation⟩
  | transferReputation transfer =>
      rw [← Except.ok.inj h]
      exact hs
  | amplifyBeta amplify =>
      simp only [revertTxData, revertAmplifyBeta, bind_eq_ok_iff, okOr_eq_ok_iff,
        updateMarket_eq_ok_iff, Except.ok.injEq] at h
      obtain ⟨_, ⟨market, -, base, -, _, ⟨-, rfl⟩, rfl⟩, rfl⟩ := h
      refine hs.withMarkets ?_
      rw [writeMarketAndIndexes_funds]
      exact hs.pointers

omit [F64 F] [DecidableEq F] in
theorem removeOutput_tagged {c c' : Coins} {o : OutPoint} (hc : c.Tagged T)
    (h : removeOutput c o = .ok c') : c'.Tagged T := by
  simp only [removeOutput, bind_eq_ok_iff, Except.ok.injEq] at h
  obtain ⟨_, -, rfl⟩ := h
  exact hc.deleteUtxo o

omit [F64 F] [DecidableEq F] in
theorem unspendInput_tagged {c c' : Coins} {o : OutPoint} (hc : c.Tagged T)
    (h : unspendInput c o = .ok c') : c'.Tagged T := by
  simp only [unspendInput, bind_eq_ok_iff, okOr_eq_ok_iff, Except.ok.injEq] at h
  obtain ⟨spent, hspent, rfl⟩ := h
  have hrow : RowTagged T (o, spent.output) := hc.stxos hspent
  exact (hc.deleteStxo o).insertUtxo hrow

theorem revertTransaction_tagged {acc acc' : State F × List (ShareKey × I64)}
    {tx : Transaction F} (hs : Tagged T acc.1)
    (h : revertTransaction L acc tx = .ok acc') : Tagged T acc'.1 := by
  obtain ⟨filledTx, mid, coins, -, hdata, hcoins, rfl⟩ := revertTransaction_eq_ok h
  obtain ⟨removed, hremoved, hcoins⟩ := bind_eq_ok_iff.mp hcoins
  have hmid : Tagged T mid.1 := by
    rcases hdata with ⟨-, rfl⟩ | ⟨data, -, hdata⟩
    · exact hs
    · exact revertTxData_tagged hs hdata
  have hremoved : removed.Tagged T :=
    foldlM_preserves (P := Coins.Tagged T) (fun _ _ _ _ hc hstep => removeOutput_tagged hc hstep)
      hremoved hmid.coins
  have hcoins : coins.Tagged T :=
    foldlM_preserves (P := Coins.Tagged T) (fun _ _ _ _ hc hstep => unspendInput_tagged hc hstep)
      hcoins hremoved
  exact hmid.withCoins hcoins

theorem undoTransactions_tagged {body : Body F} {height : Nat}
    {deltas : List (ShareKey × I64)} (hs : Tagged T s)
    (h : undoTransactions L s body height = .ok (s', deltas)) : Tagged T s' := by
  simp only [undoTransactions, bind_eq_ok_iff, Except.ok.injEq, Prod.mk.injEq] at h
  obtain ⟨⟨s₁, deltas₁⟩, hfold, rfl, -⟩ := h
  have hs₁ : Tagged T s₁ :=
    foldlM_preserves (P := fun acc : State F × List (ShareKey × I64) => Tagged T acc.1)
      (fun _ _ _ _ ha hstep => revertTransaction_tagged ha hstep) hfold hs
  exact ⟨hs₁.coins, hs₁.bundles, hs₁.pointers, hs₁.settlement, hs₁.consolidation⟩

theorem tagged_disconnectTip {header : Header} {body : Body F} (hs : Tagged T s)
    (h : disconnectTip L s header body = .ok s') : Tagged T s' := by
  obtain ⟨t, ht⟩ := disconnectTip_eq_ok_iff.mp h
  have hbefore : Tagged T t.beforeTxs :=
    undoConsolidation_tagged (undoConsensus_tagged (undoSettlement_tagged hs ht.unsettled) _) _
  have hundone : Tagged T t.undone := undoTransactions_tagged hbefore ht.undone
  have hcoins : t.coins.Tagged T :=
    foldlM_preserves (P := Coins.Tagged T) (fun _ _ _ _ hc hstep => removeOutput_tagged hc hstep)
      ht.coins hundone.coins
  have hmarkets : PointersTagged T t.markets.marketFundsUtxos := by
    obtain ⟨changes, -, hfold⟩ := bind_eq_ok_iff.mp ht.markets
    rw [shareChanges_framed hfold]
    exact hundone.pointers
  have hreverted : Tagged T t.reverted := by
    unfold UndoTrace.reverted
    rw [undoReputationTransfers_eq]
    exact ⟨hcoins, hundone.bundles, hmarkets, hundone.settlement, hundone.consolidation⟩
  rw [setPreviousTip_eq ht.previous]
  exact ⟨hreverted.coins, hreverted.bundles, hreverted.pointers, hreverted.settlement,
    hreverted.consolidation⟩

end

end Truthcoin.TagConnect
