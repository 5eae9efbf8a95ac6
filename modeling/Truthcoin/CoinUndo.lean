import Truthcoin.CoinChains
import Truthcoin.UndoTables

/-!
# Undoing the transactions of a block

The outputs of the transactions are deleted and their inputs given back, last transaction first.
The pointers to the funds of the markets that they created go.
-/

namespace Truthcoin.CoinUndo

open Truthcoin.Types Truthcoin.Table Truthcoin.Fallible Truthcoin.Arithmetic
open Truthcoin.Markets Truthcoin.Blocks Truthcoin.Trading Truthcoin.Apply
open Truthcoin.Consolidation Truthcoin.ConnectTrace Truthcoin.Disconnect Truthcoin.MarketSteps
open Truthcoin.TagConnect Truthcoin.ListedMarkets Truthcoin.ListedRuns Truthcoin.UndoTables
open Truthcoin.UndoPaths Truthcoin.CoinStages Truthcoin.CoinReverts Truthcoin.CoinChains

variable {F : Type} {L : Library F} {T : Tags} {s s' d d' : State F} {block : Block F}
  {height : Nat}

section

variable {tx : Transaction F} {acc acc' : State F × List (ShareKey × I64)}

/-- Outputs that the trade of a transaction may have been paid. -/
def paidOutpoints (L : Library F) (tx : Transaction F) : List OutPoint :=
  match tx.data with
  | some (.trade trade) => tradeOutpoints L trade (L.txid tx)
  | _ => []

theorem unused_of_paidOutpoints (htx : tx ∈ block.body.transactions) {c : Coins}
    (hpayments : ∀ m, Untouched L block height (.consolidation m) c)
    (hchange : Untouched L block height .sellChange c) :
    ∀ o ∈ paidOutpoints L tx, c.Unused o := by
  have hid : ∃ tx' ∈ block.body.transactions, L.txid tx = L.txid tx' := ⟨tx, htx, rfl⟩
  intro o ho
  unfold paidOutpoints at ho
  split at ho
  · rename_i trade _
    unfold tradeOutpoints at ho
    split at ho
    · rw [List.mem_singleton.mp ho]
      exact hpayments trade.marketId _ (.buyChange hid)
    · rcases List.mem_cons.mp ho with rfl | ho
      · exact hpayments trade.marketId _ (.sellPayout hid)
      · rw [List.mem_singleton.mp ho]
        exact hchange _ (.sellInputChange hid)
  · cases ho

variable [F64 F] [DecidableEq F]

theorem coins_of_revertTxData {filled : FilledTransaction F} {data : TxData F}
    (hdata : filled.transaction.data = some data) (h : revertTxData L acc filled data = .ok acc') :
    acc'.1.coins = deleteOutpoints acc.1.coins (paidOutpoints L filled.transaction) := by
  unfold paidOutpoints
  rw [hdata]
  cases data with
  | claimDecision payload | submitVote vote | submitBallot ballot =>
      simp only [revertTxData, bind_eq_ok_iff, Except.ok.injEq] at h
      obtain ⟨_, -, rfl⟩ := h
      rfl
  | transferReputation transfer =>
      rw [← Except.ok.inj h]
      rfl
  | createMarket creation =>
      simp only [revertTxData, revertCreateMarket, bind_eq_ok_iff, Except.ok.injEq] at h
      obtain ⟨_, ⟨creator, -, decisions, -, rfl⟩, rfl⟩ := h
      rfl
  | trade trade =>
      simp only [revertTxData, bind_eq_ok_iff, Except.ok.injEq] at h
      obtain ⟨⟨s₁, delta⟩, hrevert, rfl⟩ := h
      obtain ⟨old, new, -, -, -, -, hs₁⟩ := revertTradeMarketState_eq_ok hrevert
      rw [hs₁]
  | amplifyBeta amplify =>
      simp only [revertTxData, revertAmplifyBeta, bind_eq_ok_iff, Except.ok.injEq] at h
      obtain ⟨_, ⟨_, -, _, -, _, -, rfl⟩, rfl⟩ := h
      rfl

theorem matches_revertTransaction (htx : tx ∈ block.body.transactions) {c c' : Coins}
    (hstep : TransactsNew L block height tx c c') (hmatches : c'.Matches acc.1.coins)
    (h : revertTransaction L acc tx = .ok acc') : c.Matches acc'.1.coins := by
  obtain ⟨filled, mid, coins, hfilled, hdata, hcoins, rfl⟩ := revertTransaction_eq_ok h
  refine hstep.step.undo (fun o ho => hstep.untouched o (makes_of_regularOutpoints htx o ho))
    ?_ hcoins
  obtain rfl := transaction_of_fillTransactionFromStxos hfilled
  rcases hdata with ⟨-, rfl⟩ | ⟨data, hdata, hmid⟩
  · exact hmatches
  · have hunused := unused_of_paidOutpoints htx hstep.payments hstep.change
    have hedits : c'.Edits (paidOutpoints L filled.transaction) [] c' :=
      ⟨by simp, (Coins.Changes.refl c').mono (by simp) (by simp)⟩
    rw [coins_of_revertTxData hdata hmid]
    exact hedits.undo hunused hmatches

theorem matches_revertTransactions {txs : List (Transaction F)}
    (htxs : ∀ tx ∈ txs, tx ∈ block.body.transactions) {c c' : Coins}
    (hpath : Path (TransactsNew L block height) txs c c') (hmatches : c'.Matches acc.1.coins)
    (h : txs.reverse.foldlM (revertTransaction L) acc = .ok acc') : c.Matches acc'.1.coins := by
  have hpath' : Path (fun tx c c' => tx ∈ block.body.transactions ∧
      TransactsNew L block height tx c c') txs c c' :=
    hpath.mono fun tx htx _ _ hstep => ⟨htxs tx htx, hstep⟩
  refine hpath'.undo (fun c acc => c.Matches acc.1.coins) ?_ (path_of_foldlM h) hmatches
  rintro tx c₁ c₂ acc₁ acc₂ ⟨htx, hstep⟩ hsim hback
  exact matches_revertTransaction htx hstep hsim hback

omit [F64 F] [DecidableEq F] in
theorem deleteMarket_funds {db : MarketsDatabase F} {marketId : MarketId}
    (hstored : Stored db marketId) (key : FundsKey) :
    (db.deleteMarket marketId).marketFundsUtxos[key]? =
      if key.marketId = marketId then none else db.marketFundsUtxos[key]? := by
  obtain ⟨market, hmarket⟩ := hstored
  unfold MarketsDatabase.deleteMarket
  rw [hmarket]
  dsimp only
  rw [lookup_erase, lookup_erase]
  obtain ⟨id, isFee⟩ := key
  by_cases hid : id = marketId
  · cases isFee <;> simp [hid]
  · simp [hid]

/-- Undoing a transaction clears the pointers of the market that it created. -/
theorem pointers_revertTransaction (hs : Tagged T acc.1)
    (hstored : ∀ m ∈ createdId L T tx, Stored acc.1.markets m)
    (h : revertTransaction L acc tx = .ok acc') (key : FundsKey) :
    acc'.1.markets.marketFundsUtxos[key]? =
      if key.marketId ∈ createdId L T tx then none
      else acc.1.markets.marketFundsUtxos[key]? := by
  obtain ⟨filled, mid, coins, hfilled, hdata, -, rfl⟩ := revertTransaction_eq_ok h
  obtain ⟨rfl, hspends⟩ := spendsTagged_of_fillTransactionFromStxos hs.coins hfilled
  -- all data but the creation of a market keep the pointers
  have hkept : createdId L T filled.transaction = [] →
      mid.1.markets.marketFundsUtxos = acc.1.markets.marketFundsUtxos →
      mid.1.markets.marketFundsUtxos[key]? =
        if key.marketId ∈ createdId L T filled.transaction then none
        else acc.1.markets.marketFundsUtxos[key]? := by
    intro hnone heq
    rw [hnone, if_neg List.not_mem_nil, heq]
  rcases hdata with ⟨hnone, rfl⟩ | ⟨data, hdata, hmid⟩
  · exact hkept (by simp [createdId, hnone]) rfl
  · cases data with
    | claimDecision payload | submitVote vote | submitBallot ballot =>
        simp only [revertTxData, bind_eq_ok_iff, Except.ok.injEq] at hmid
        obtain ⟨_, -, rfl⟩ := hmid
        exact hkept (by simp [createdId, hdata]) rfl
    | transferReputation transfer =>
        obtain rfl := Except.ok.inj hmid
        exact hkept (by simp [createdId, hdata]) rfl
    | createMarket creation =>
        simp only [revertTxData, revertCreateMarket, bind_eq_ok_iff, Except.ok.injEq] at hmid
        obtain ⟨_, ⟨creator, hcreator, decisions, -, rfl⟩, rfl⟩ := hmid
        have hid := createdId_of_creator (L := L) hspends hdata hcreator
        have hcreated := hstored _ (hid ▸ List.mem_cons_self)
        simp only [hid, List.mem_singleton]
        exact deleteMarket_funds hcreated key
    | trade trade =>
        simp only [revertTxData, bind_eq_ok_iff, Except.ok.injEq] at hmid
        obtain ⟨⟨s₁, delta⟩, hrevert, rfl⟩ := hmid
        obtain ⟨old, new, -, -, hdb, -, -⟩ := revertTradeMarketState_eq_ok hrevert
        refine hkept (by simp [createdId, hdata]) ?_
        rw [(updateMarket_eq_ok_iff.mp hdb).2, writeMarketAndIndexes_funds]
    | amplifyBeta amplify =>
        simp only [revertTxData, revertAmplifyBeta, bind_eq_ok_iff, Except.ok.injEq] at hmid
        obtain ⟨_, ⟨_, -, _, -, db, hdb, rfl⟩, rfl⟩ := hmid
        refine hkept (by simp [createdId, hdata]) ?_
        show db.marketFundsUtxos = _
        rw [(updateMarket_eq_ok_iff.mp hdb).2, writeMarketAndIndexes_funds]

theorem pointers_revertTransactions {txs : List (Transaction F)} (hs : Tagged T acc.1)
    (hsound : Sound acc.1.markets) (hnodup : (txs.flatMap (createdId L T)).Nodup)
    (hstored : ∀ m ∈ txs.flatMap (createdId L T), Stored acc.1.markets m)
    (h : txs.foldlM (revertTransaction L) acc = .ok acc') (key : FundsKey) :
    acc'.1.markets.marketFundsUtxos[key]? =
      if key.marketId ∈ txs.flatMap (createdId L T) then none
      else acc.1.markets.marketFundsUtxos[key]? := by
  induction txs generalizing acc with
  | nil =>
      rw [← Except.ok.inj h]
      rfl
  | cons tx txs ih =>
      obtain ⟨mid, hfirst, hrest⟩ := bind_eq_ok_iff.mp h
      rw [List.flatMap_cons] at hnodup hstored ⊢
      obtain ⟨-, hnodup', hdisjoint⟩ := List.nodup_append.mp hnodup
      have hundone := revertTransaction_undone hs hsound hfirst
      have hpointers := pointers_revertTransaction hs
        (fun m hm => hstored m (List.mem_append_left _ hm)) hfirst key
      rw [ih hundone.tagged hundone.sound hnodup' ?_ hrest, hpointers]
      · by_cases hmem : key.marketId ∈ createdId L T tx
        · simp [hmem]
        · simp [hmem]
      · intro m hm
        refine hundone.stored m (fun hcreated => ?_) (hstored m (List.mem_append_right _ hm))
        exact hdisjoint m hcreated m hm rfl

end

end Truthcoin.CoinUndo
