import Truthcoin.FundsReverts
import Truthcoin.SeededMarkets

/-!
# The outpoints of a chain

The stages of a block are the only ones that use new outpoints, so all outpoints of a chain come
from its blocks or from deposits. A pointer to funds belongs to a stored market.
-/

namespace Truthcoin.CoinChains

open Truthcoin.Types Truthcoin.Table Truthcoin.Fallible Truthcoin.Decisions Truthcoin.Markets
open Truthcoin.Blocks Truthcoin.Validation Truthcoin.Settlement Truthcoin.Apply
open Truthcoin.ApplySteps Truthcoin.Consolidation Truthcoin.Connect Truthcoin.ConnectTrace
open Truthcoin.BlockChecks Truthcoin.BlockRun Truthcoin.Disconnect Truthcoin.MarketSteps
open Truthcoin.MarketIndexes Truthcoin.TagConnect Truthcoin.ListedMarkets
open Truthcoin.ListedRuns Truthcoin.Commitments
open Truthcoin.TwoWayPeg Truthcoin.SeededMarkets Truthcoin.UndoPaths Truthcoin.CoinStages
open Truthcoin.CostPotential Truthcoin.SettlementSteps Truthcoin.AddressIndex
open Truthcoin.CoinReverts Truthcoin.FundsReverts

variable {F : Type} {L : Library F} {T : Tags} {s s' : State F} {block : Block F}
  {height : Nat}

/-- The payments that a block has collected come from its transactions and are about stored
markets. -/
structure Payments (L : Library F) (block : Block F) (s : State F) (u : StateUpdate F) : Prop
    where
  sells : ∀ p ∈ u.pendingSellPayouts, Stored s.markets p.marketId ∧
    ∃ tx ∈ block.body.transactions, p.transactionId = L.txid tx
  buys : ∀ b ∈ u.pendingBuySettlements, Stored s.markets b.marketId ∧
    ∃ tx ∈ block.body.transactions, b.transactionId = L.txid tx
  changes : ∀ p ∈ u.pendingSellInputChanges,
    ∃ tx ∈ block.body.transactions, p.transactionId = L.txid tx

theorem Payments.collects {u : StateUpdate F} (h : Payments L block s u) :
    Collects L block u.pendingSellPayouts u.pendingBuySettlements :=
  ⟨fun p hp => (h.sells p hp).2, fun b hb => (h.buys b hb).2⟩

theorem Payments.stored {u : StateUpdate F} (h : Payments L block s u) {marketId : MarketId}
    (hmem : marketId ∈ marketsToConsolidate L u.pendingSellPayouts u.pendingBuySettlements) :
    Stored s.markets marketId := by
  rw [marketsToConsolidate, (L.order_perm _).mem_iff, List.mem_dedup, List.mem_append,
    List.mem_map, List.mem_map] at hmem
  rcases hmem with ⟨p, hp, rfl⟩ | ⟨b, hb, rfl⟩
  · exact (h.sells p hp).1
  · exact (h.buys b hb).1

theorem stored_framed (h : Framed s s') {marketId : MarketId} :
    Stored s'.markets marketId ↔ Stored s.markets marketId := by
  unfold Framed at h
  rw [h]
  exact Iff.rfl

section

variable [F64 F] [DecidableEq F] {config : DecisionConfig} {archive : Archive}
  {u u' : StateUpdate F} {tx : FilledTransaction F}

omit [F64 F] [DecidableEq F] in
theorem Payments.add (hu : Payments L block s u)
    (hsells : ∀ p ∈ u'.pendingSellPayouts, p ∈ u.pendingSellPayouts ∨
      Stored s.markets p.marketId ∧ ∃ tx ∈ block.body.transactions, p.transactionId = L.txid tx)
    (hbuys : ∀ b ∈ u'.pendingBuySettlements, b ∈ u.pendingBuySettlements ∨
      Stored s.markets b.marketId ∧ ∃ tx ∈ block.body.transactions, b.transactionId = L.txid tx)
    (hchanges : ∀ p ∈ u'.pendingSellInputChanges, p ∈ u.pendingSellInputChanges ∨
      ∃ tx ∈ block.body.transactions, p.transactionId = L.txid tx) : Payments L block s u' :=
  ⟨fun p hp => (hsells p hp).elim (hu.sells p) id, fun b hb => (hbuys b hb).elim (hu.buys b) id,
    fun p hp => (hchanges p hp).elim (hu.changes p) id⟩

theorem payments_of_effect {s₀ : State F} (htx : tx.transaction ∈ block.body.transactions)
    (hvalid : ∀ data, tx.transaction.data = some data →
      validateTxData L config archive s₀ tx (some height) data = .ok ())
    (hs : ∀ marketId, Stored s.markets marketId → Stored s₀.markets marketId)
    (hu : Payments L block s₀ u) (h : Effect L height s u tx s' u') :
    Payments L block s₀ u' := by
  have hid : ∃ tx' ∈ block.body.transactions, L.txid tx.transaction = L.txid tx' :=
    ⟨tx.transaction, htx, rfl⟩
  cases h with
  | plain _ => exact hu
  | trade trade _ h =>
      obtain ⟨market, shares, shares', β, input, hquote, hside⟩ := applyTrade_eq_some h
      have hstored := hs trade.marketId ⟨market, hquote.market_eq⟩
      rcases hside with ⟨-, cost, hbuy⟩ | ⟨-, proceeds, hsell⟩
      · rw [hbuy.update_eq]
        refine hu.add (fun p hp => .inl hp) (fun b hb => ?_) fun p hp => .inl hp
        refine (List.mem_append.mp hb).imp_right fun hnew => ?_
        rw [List.mem_singleton.mp hnew]
        exact ⟨hstored, hid⟩
      · rw [hsell.update_eq]
        refine hu.add (fun p hp => ?_) (fun b hb => .inl hb) fun p hp => ?_
        · refine (List.mem_append.mp hp).imp_right fun hnew => ?_
          rw [List.mem_singleton.mp hnew]
          exact ⟨hstored, hid⟩
        · dsimp only at hp
          split at hp
          · refine (List.mem_append.mp hp).imp_right fun hnew => ?_
            rw [List.mem_singleton.mp hnew]
            exact hid
          · exact .inl hp
  | createMarket creation _ h =>
      obtain ⟨_, _, _, _, -, -, -, rfl, -⟩ := applyMarketCreation_eq_ok h
      exact ⟨hu.sells, hu.buys, hu.changes⟩
  | claimDecision payload _ h => exact hu
  | submitVote vote _ h =>
      simp only [applySubmitVote, addVote, bind_eq_ok_iff, Except.ok.injEq] at h
      obtain ⟨_, -, _, -, _, -, rfl⟩ := h
      exact ⟨hu.sells, hu.buys, hu.changes⟩
  | submitBallot ballot _ h =>
      rw [applySubmitBallot_framed h]
      exact ⟨hu.sells, hu.buys, hu.changes⟩
  | transferReputation transfer _ h => exact hu
  | amplifyBeta amplify hdata h =>
      have hmarket := hvalid _ hdata
      simp only [validateTxData, validateAmplifyBeta, tradingMarket, bind_eq_ok_iff,
        okOr_eq_ok_iff] at hmarket
      obtain ⟨_, -, market, ⟨found, hstored, -⟩, -⟩ := hmarket
      obtain ⟨input, rfl⟩ := applyAmplifyBeta_eq_ok h
      refine hu.add (fun p hp => .inl hp) (fun b hb => ?_) fun p hp => .inl hp
      refine (List.mem_append.mp hb).imp_right fun hnew => ?_
      rw [List.mem_singleton.mp hnew]
      exact ⟨⟨found, hstored⟩, hid⟩

theorem pointers_of_effect_eq (h : Effect L height s u tx s' u') :
    (∀ marketId ∈ u.marketCreations.map Market.id,
      marketId ∈ u'.marketCreations.map Market.id) ∧
    ∀ key : FundsKey, key.marketId ∉ u'.marketCreations.map Market.id →
      s'.markets.marketFundsUtxos[key]? = s.markets.marketFundsUtxos[key]? := by
  by_cases hdata : ∃ creation, tx.transaction.data = some (.createMarket creation)
  · obtain ⟨creation', hcreation⟩ := hdata
    cases h with
    | createMarket creation _ h =>
        obtain ⟨creator, decisions, market, liquidity, -, -, -, rfl, hs'⟩ :=
          applyMarketCreation_eq_ok h
        rw [List.map_append]
        refine ⟨fun marketId hmem => List.mem_append_left _ hmem, fun key hkey => ?_⟩
        rcases hs' with rfl | ⟨vout, rfl⟩
        · rfl
        · refine lookup_insert.trans (if_neg ?_)
          rintro rfl
          exact hkey (List.mem_append_right _ (by simp))
    | plain hother | trade _ hother _ | claimDecision _ hother _ | submitVote _ hother _
    | submitBallot _ hother _ | transferReputation _ hother _ | amplifyBeta _ hother _ =>
        rw [hother] at hcreation
        cases hcreation
  · obtain ⟨hcreations, hpointers⟩ :=
      unseeded_of_effect h fun creation hcreation => hdata ⟨creation, hcreation⟩
    rw [hcreations, hpointers]
    exact ⟨fun _ hmem => hmem, fun _ _ => rfl⟩

variable {t : Trace F}

/-- What a block collects: payments from its transactions, and pointers to the funds of the
markets that it creates. -/
theorem collected_of_prepares (ht : Prepares L config archive s block t) :
    Payments L block s t.applied.update ∧
      ∀ key : FundsKey, key.marketId ∉ t.applied.update.marketCreations.map Market.id →
        t.applied.state.markets.marketFundsUtxos[key]? = s.markets.marketFundsUtxos[key]? := by
  have hpre := prevalidated_of_prevalidate ht.prevalidated
  have hmarkets : (t.opened L s block).markets = s.markets := by rw [opened_eq]
  have hnew : Payments L block s (StateUpdate.new F) := by
    constructor <;> simp [StateUpdate.new]
  refine (effects_preserve
    (P := fun s' u => (∀ marketId, Stored s'.markets marketId → Stored s.markets marketId) ∧
      Payments L block s u ∧ ∀ key : FundsKey, key.marketId ∉ u.marketCreations.map Market.id →
        s'.markets.marketFundsUtxos[key]? = s.markets.marketFundsUtxos[key]?) ?_
    (effects_of_applyTransactions ht.applied)
    ⟨fun _ hstored => hmarkets ▸ hstored, hnew, fun key _ => by rw [hmarkets]⟩).2
  rintro tx htx s₁ u₁ s₂ u₂ ⟨hstored, hpayments, hpointers⟩ heffect
  have hmem := (notSkipped_sublist _ _).subset htx
  have hbody : tx.transaction ∈ block.body.transactions := by
    rw [← hpre.map_transaction]
    exact List.mem_map_of_mem hmem
  obtain ⟨hcreations, hpointers'⟩ := pointers_of_effect_eq heffect
  refine ⟨fun m hm => hstored m ((stored_framed heffect.framed).mp hm), ?_, fun key hkey => ?_⟩
  · exact payments_of_effect hbody (fun data hdata => hpre.validTxData hmem hdata) hstored
      hpayments heffect
  · rw [hpointers' key hkey, hpointers key fun hold => hkey (hcreations _ hold)]

/-- A transaction is undone where nothing that it creates was there before, and where no payment
of the block has been made. -/
structure TransactsNew (L : Library F) (block : Block F) (height : Nat) (tx : Transaction F)
    (c c' : Coins) : Prop where
  step : Transacts L tx c c'
  untouched : Untouched L block height (.transaction (L.txid tx)) c
  payments : ∀ m, Untouched L block height (.consolidation m) c'
  change : Untouched L block height .sellChange c'

omit [F64 F] [DecidableEq F] in
theorem path_of_transactions (hL : CollisionFree L) {txs : List (FilledTransaction F)}
    {c c' : Coins}
    (hbody : ∀ tx ∈ txs, tx.transaction ∈ block.body.transactions)
    (hnodup : (txs.map fun tx => L.txid tx.transaction).Nodup)
    (huntouched : ∀ stage, stage ≠ .coinbase → Untouched L block height stage c)
    (h : txs.foldlM (applyUtxoChanges L) c = .ok c') :
    Path (TransactsNew L block height) (txs.map FilledTransaction.transaction) c c' := by
  refine path_of_ready FilledTransaction.transaction
    (fun txs c => (∀ tx ∈ txs, tx.transaction ∈ block.body.transactions) ∧
      (txs.map fun tx => L.txid tx.transaction).Nodup ∧
      (∀ tx ∈ txs, Untouched L block height (.transaction (L.txid tx.transaction)) c) ∧
      (∀ m, Untouched L block height (.consolidation m) c) ∧
      Untouched L block height .sellChange c) ?_
    ⟨hbody, hnodup, fun tx _ => huntouched _ (by simp), fun m => huntouched _ (by simp),
      huntouched _ (by simp)⟩ h
  rintro tx txs c₁ c₂ ⟨hbody, hnodup, htxs, hpayments, hchange⟩ hstep
  obtain ⟨hmem, hrest⟩ := List.nodup_cons.mp hnodup
  have htransacts := transacts_of_applyUtxoChanges hstep
  have hbrings : c₁.Brings (Makes L block height (.transaction (L.txid tx.transaction))) c₂ :=
    htransacts.brings.mono (makes_of_regularOutpoints (hbody tx List.mem_cons_self))
  have hpayments' := fun m => (hpayments m).brings hL hbrings (by simp)
  have hchange' := hchange.brings hL hbrings (by simp)
  refine ⟨⟨fun tx' htx' => hbody tx' (List.mem_cons_of_mem _ htx'), hrest, fun tx' htx' => ?_,
    hpayments', hchange'⟩, htransacts, htxs tx List.mem_cons_self, hpayments', hchange'⟩
  refine (htxs tx' (List.mem_cons_of_mem _ htx')).brings hL hbrings fun heq => ?_
  exact hmem (List.mem_map.mpr ⟨tx', htx', Stage.transaction.inj heq⟩)

omit [F64 F] [DecidableEq F] in
theorem brings_of_transactions {txs : List (FilledTransaction F)} {c c' : Coins}
    (hbody : ∀ tx ∈ txs, tx.transaction ∈ block.body.transactions)
    (h : txs.foldlM (applyUtxoChanges L) c = .ok c') :
    c.Brings (fun o => ∃ txid, Makes L block height (.transaction txid) o) c' := by
  refine foldlM_preserves (P := fun c' => c.Brings _ c') ?_ h (.refl c)
  intro tx htx c₁ c₂ hbrings hstep
  refine hbrings.trans ((transacts_of_applyUtxoChanges hstep).brings.mono fun o ho => ?_)
  exact ⟨_, makes_of_regularOutpoints (hbody tx htx) o ho⟩

omit [F64 F] [DecidableEq F] in
theorem coinbaseRows_keys (coinbaseTxid : CoinbaseTxid) (outputs : List Output) :
    (coinbaseRows coinbaseTxid outputs).map Prod.fst = coinbaseOutpoints coinbaseTxid outputs := by
  rw [coinbaseRows, coinbaseOutpoints, List.map_map, List.range_eq_range', ← List.zipIdx_map_snd,
    List.map_map]
  rfl

/-- What each part of a block uses. -/
structure Brought (L : Library F) (s : State F) (block : Block F) (t : Trace F) : Prop where
  coinbase : s.coins.Brings (Makes L block t.height .coinbase) t.applied.state.coins
  transactions : t.applied.state.coins.Brings
    (fun o => ∃ txid, Makes L block t.height (.transaction txid) o) t.spent
  consolidations : t.spent.Brings (fun o => (∃ m, Makes L block t.height (.consolidation m) o) ∨
    Makes L block t.height .sellChange o) t.funds.coins
  settlements : t.funds.coins.Brings (fun o => ∃ m, Makes L block t.height (.settlement m) o)
    t.paid.coins

theorem edits_coinbase (ht : Prepares L config archive s block t) :
    s.coins.Edits
      (coinbaseOutpoints (L.coinbaseTxid block.header) block.body.coinbase.outputs) []
      t.applied.state.coins := by
  rw [applied_eq ht.applied, ← coinbaseRows_keys]
  exact ⟨by simp, Coins.changes_insertRows _ _⟩

omit [F64 F] [DecidableEq F] in
theorem makes_of_coinbaseOutpoints (outputs : List Output) :
    ∀ o ∈ coinbaseOutpoints (L.coinbaseTxid block.header) outputs,
      Makes L block height .coinbase o := by
  intro o ho
  obtain ⟨vout, -, rfl⟩ := List.mem_map.mp ho
  exact .coinbase vout

theorem mem_body_of_txs (ht : Prepares L config archive s block t) :
    ∀ tx ∈ t.txs, tx.transaction ∈ block.body.transactions := by
  intro tx htx
  rw [← (prevalidated_of_prevalidate ht.prevalidated).map_transaction]
  exact List.mem_map_of_mem ((notSkipped_sublist _ _).subset htx)

theorem brought_of_connects (ht : Connects L config archive s block t) :
    Brought L s block t := by
  obtain ⟨hpayments, -⟩ := collected_of_prepares ht.toPrepares
  exact ⟨(edits_coinbase ht.toPrepares).changes.brings.mono (makes_of_coinbaseOutpoints _),
    brings_of_transactions (mem_body_of_txs ht.toPrepares) ht.spent,
    brings_of_consolidation hpayments.collects hpayments.changes ht.funds,
    brings_of_settlements block ht.paid⟩

omit [F64 F] [DecidableEq F] in
theorem Brought.all (h : Brought L s block t) :
    s.coins.Brings (fun o => ∃ stage, Makes L block t.height stage o) t.paid.coins := by
  refine (h.coinbase.mono fun o ho => ⟨_, ho⟩).trans ((h.transactions.mono ?_).trans
    ((h.consolidations.mono ?_).trans (h.settlements.mono ?_)))
  · rintro o ⟨tx, hmakes⟩
    exact ⟨_, hmakes⟩
  · rintro o (⟨m, hmakes⟩ | hmakes)
    · exact ⟨_, hmakes⟩
    · exact ⟨_, hmakes⟩
  · rintro o ⟨m, hmakes⟩
    exact ⟨_, hmakes⟩

/-- The stages of a block use new outpoints one after the other. -/
structure Staged (L : Library F) (s : State F) (block : Block F) (t : Trace F) : Prop where
  coinbase : Untouched L block t.height .coinbase s.coins
  transactions : Path (TransactsNew L block t.height)
    (t.txs.map FilledTransaction.transaction) t.applied.state.coins t.spent
  consolidations : ∀ m, Untouched L block t.height (.consolidation m) t.spent
  change : Untouched L block t.height .sellChange t.spent
  settlements : ∀ m, Untouched L block t.height (.settlement m) t.funds.coins

theorem staged_of_connects (hL : CollisionFree L) {chain : List (Block F)}
    (hcoins : s.coins.Within (Placed L chain)) (hblock : Unrepeated L chain block)
    (hheight : t.height = chain.length) (ht : Connects L config archive s block t) :
    Staged L s block t := by
  have hbrought := brought_of_connects ht
  have huntouched (stage : Stage) : Untouched L block t.height stage s.coins :=
    hheight ▸ hblock.untouched hL hcoins stage
  have hopened (stage : Stage) (hne : stage ≠ .coinbase) :
      Untouched L block t.height stage t.applied.state.coins :=
    (huntouched stage).brings hL hbrought.coinbase hne
  have hspent (stage : Stage) (hcoinbase : stage ≠ .coinbase)
      (htransaction : ∀ txid, stage ≠ .transaction txid) :
      Untouched L block t.height stage t.spent := by
    refine (hopened stage hcoinbase).brings_others hL hbrought.transactions ?_
    rintro o ⟨txid, hmakes⟩
    exact ⟨_, htransaction txid, hmakes⟩
  have hnodup : (t.txs.map fun tx => L.txid tx.transaction).Nodup := by
    refine List.Nodup.sublist ((notSkipped_sublist _ _).map _) ?_
    have hdistinct := hblock.distinct
    rwa [← (prevalidated_of_prevalidate ht.prevalidated).map_transaction, List.map_map]
      at hdistinct
  refine ⟨huntouched .coinbase, path_of_transactions hL (mem_body_of_txs ht.toPrepares) hnodup
    hopened ht.spent, fun m => hspent _ (by simp) (by simp), hspent _ (by simp) (by simp),
    fun m => ?_⟩
  refine (hspent (.settlement m) (by simp) (by simp)).brings_others hL hbrought.consolidations ?_
  rintro o (⟨m', hmakes⟩ | hmakes)
  · exact ⟨_, by simp, hmakes⟩
  · exact ⟨_, by simp, hmakes⟩

omit [DecidableEq F] in
theorem pointers_of_settlements (block : Block F) {entries : List (SettlementUndoEntry F)}
    (h : transitionAndPayoutResolvedMarkets L s height = .ok (s', entries)) {key : FundsKey}
    {o : OutPoint} (ho : s'.markets.marketFundsUtxos[key]? = some o) :
    s.markets.marketFundsUtxos[key]? = some o := by
  refine foldlM_preserves
    (P := fun acc' : State F × List (SettlementUndoEntry F) =>
      acc'.1.markets.marketFundsUtxos[key]? = some o →
        s.markets.marketFundsUtxos[key]? = some o) ?_ h id ho
  intro market _ acc₁ acc₂ hkept hstep ho
  unfold transitionMarket at hstep
  split at hstep
  · obtain ⟨⟨s₁, entry⟩, hsettle, hstep⟩ := bind_eq_ok_iff.mp hstep
    rw [← Except.ok.inj hstep] at ho
    obtain ⟨-, hpays⟩ := paysOut_of_settleMarket block hsettle
    by_cases hid : key.marketId = entry.preSettlementMarket.id
    · have hcleared : s₁.markets.marketFundsUtxos[key]? = none := by
        obtain ⟨marketId, isFee⟩ := key
        obtain rfl : marketId = _ := hid
        exact hpays.cleared isFee
      rw [hcleared] at ho
      cases ho
    · exact hkept ((hpays.others key hid).symm.trans ho)
  · rw [← Except.ok.inj hstep] at ho
    exact hkept ho

omit [F64 F] [DecidableEq F] in
theorem pointers_of_consolidation {sells : List PendingSellPayout}
    {buys : List PendingBuySettlement} {changes : List PendingSellInputChange}
    (hcollects : Collects L block sells buys) {f f' : Funds} {undo : Option ConsolidationUndoData}
    (h : consolidateMarketUtxos L height sells buys changes f = .ok (f', undo)) {key : FundsKey}
    (hkey : key.marketId ∉ marketsToConsolidate L sells buys) :
    f'.pointers[key]? = f.pointers[key]? := by
  unfold consolidateMarketUtxos at h
  dsimp only at h
  split at h
  · obtain ⟨rfl, -⟩ := Prod.mk.inj (Except.ok.inj h)
    rfl
  · simp only [bind_eq_ok_iff, Except.ok.injEq] at h
    obtain ⟨⟨mid, entries⟩, hmarkets, hpair⟩ := h
    obtain ⟨rfl, -⟩ := Prod.mk.inj hpair
    refine foldlM_preserves
      (P := fun acc : Funds × List ConsolidationUndoEntry =>
        acc.1.pointers[key]? = f.pointers[key]?) ?_ hmarkets rfl
    intro m hm acc₁ acc₂ hkept hstep
    obtain ⟨entry, rfl, -, hentry⟩ := consolidates_of_consolidateMarket hcollects hstep
    rw [hentry.others key fun heq => hkey (heq ▸ hm), hkept]

/-- Every pointer to funds belongs to a stored market. -/
def PointersStored (db : MarketsDatabase F) : Prop :=
  ∀ (key : FundsKey) (o : OutPoint), db.marketFundsUtxos[key]? = some o → Stored db key.marketId

theorem pointersStored_of_connects (hs : Sound s.markets) (hpointers : PointersStored s.markets)
    (ht : Connects L config archive s block t) :
    PointersStored (t.finished L block).markets := by
  obtain ⟨hpayments, hcollected⟩ := collected_of_prepares ht.toPrepares
  have hgrown := grown_counted hs ht.toPrepares
  obtain ⟨hpaid, -⟩ := grown_transitionMarkets hgrown.sound ht.paid
  have happlied : SameIndexes s.markets t.applied.state.markets := by
    rw [applied_eq ht.applied]
    exact ⟨rfl, rfl, rfl, rfl⟩
  have hwritten := grown_writes (Grown.framed hs happlied).sound ht.changes ht.written
  intro key o ho
  have hfunds : t.funds.pointers[key]? = some o := pointers_of_settlements block ht.paid ho
  refine hpaid.stored _ ?_
  by_cases hmem : key.marketId ∈ marketsToConsolidate L t.applied.update.pendingSellPayouts
      t.applied.update.pendingBuySettlements
  · exact hgrown.stored _ (hpayments.stored hmem)
  · rw [pointers_of_consolidation hpayments.collects ht.funds hmem,
      writeMarkets_funds ht.written] at hfunds
    by_cases hcreated : key.marketId ∈ t.applied.update.marketCreations.map Market.id
    · exact hwritten.stored _ (stored_addMarkets (.inl hcreated))
    · rw [hcollected key hcreated] at hfunds
      exact hgrown.stored _ (hpointers key o hfunds)

variable {lib : WithdrawalBundle.BundleLib} {ok : State F → Block F → Prop}
  {okPeg : State F → TwoWayPegData → Prop} {chain : List (Block F)}

/-- The outpoints of a chain come from its blocks, and its undo entries and pointers from its
blocks and markets. -/
structure Sited (L : Library F) (chain : List (Block F)) (s : State F) : Prop where
  height : s.height = tipHeight chain
  sound : Sound s.markets
  outpoints : (⟨s.coins, s.peg⟩ : PegState).Within (Placed L chain)
  consolidations : ∀ (h : Nat) (data : ConsolidationUndoData),
    s.consolidationUndo[h]? = some data → h < chain.length
  pointers : PointersStored s.markets

omit [F64 F] [DecidableEq F] in
theorem sited_empty : Sited L [] (State.empty F) where
  height := rfl
  sound := sound_empty
  outpoints := ⟨Coins.within_empty, fun h => by simp [State.empty, PegDbs.empty] at h⟩
  consolidations h data hrow := by simp [State.empty] at hrow
  pointers key o ho := by simp [State.empty, MarketsDatabase.empty] at ho

theorem consolidationUndo_finished (ht : Connects L config archive s block t) :
    (t.finished L block).consolidationUndo =
      t.undo.elim s.consolidationUndo fun data => s.consolidationUndo.insert t.height data := by
  have hpaid := congrArg State.consolidationUndo
    (transitionAndPayoutResolvedMarkets_framed ht.paid)
  have happlied : t.applied.state.consolidationUndo = s.consolidationUndo := by
    rw [applied_eq ht.applied]
  rw [← happlied]
  exact hpaid

theorem peg_finished (ht : Connects L config archive s block t) :
    (t.finished L block).peg = s.peg := by
  have hpaid := congrArg State.peg (transitionAndPayoutResolvedMarkets_framed ht.paid)
  have happlied : t.applied.state.peg = s.peg := by rw [applied_eq ht.applied]
  rw [← happlied]
  exact hpaid

theorem Sited.connect (hsited : Sited L chain s) (hs : Tagged T s)
    (h : applyBlock L config archive s block = .ok s') : Sited L (block :: chain) s' := by
  obtain ⟨t, ht, rfl⟩ := connects_of_applyBlock h
  have hheight := height_of_prepares hsited.height ht.toPrepares
  have hbrings := (brought_of_connects ht).all
  rw [hheight] at hbrings
  refine ⟨?_, (grown_connects hs hsited.sound ht).1.sound, ⟨?_, ?_⟩, fun h data hrow => ?_,
    pointersStored_of_connects hsited.sound hsited.pointers ht⟩
  · exact congrArg some hheight
  · refine (hsited.outpoints.coins.mono fun o ho => ho.older).brings (hbrings.mono ?_)
    rintro o ⟨stage, hmakes⟩
    exact .made hmakes
  · intro m info st hrow row hmem
    rw [peg_finished ht] at hrow
    exact (hsited.outpoints.bundles hrow row hmem).older
  · rw [consolidationUndo_finished ht] at hrow
    rw [List.length_cons]
    cases hundo : t.undo with
    | none =>
        rw [hundo] at hrow
        exact (hsited.consolidations h data hrow).trans (Nat.lt_succ_self _)
    | some undo =>
        rw [hundo, Option.elim_some, lookup_insert] at hrow
        split at hrow
        · rename_i heq
          rw [heq, hheight]
          exact Nat.lt_succ_self _
        · exact (hsited.consolidations h data hrow).trans (Nat.lt_succ_self _)

omit [F64 F] [DecidableEq F] in
theorem Sited.connectPeg (hsited : Sited L chain s) {data : TwoWayPegData}
    (h : s.connectTwoWayPegData lib data = .ok s') : Sited L chain s' := by
  obtain ⟨p, hp, h⟩ := bind_eq_ok_iff.mp h
  rw [← Except.ok.inj h]
  refine ⟨hsited.height, hsited.sound, ?_, hsited.consolidations, hsited.pointers⟩
  exact within_connect hsited.outpoints (fun d => .deposit _ _) hp

theorem sited_of_chain {T : Tags} (hT : TagsOf L T)
    (hdeposits : ∀ s data, okPeg s data → DepositsTagged T data)
    (hchain : Chain L config lib ok okPeg chain s) : Sited L chain s := by
  induction hchain with
  | start => exact sited_empty
  | connect archive hchain _ h ih =>
      exact ih.connect (tagged_of_run hT hdeposits hchain.run) h
  | connectPeg _ _ h ih => exact ih.connectPeg h

end

end Truthcoin.CoinChains
