import Truthcoin.ListedMarkets
import Truthcoin.SampleMarkets

/-!
# Markets of a run are listed exactly

In every state of a run the indexes list exactly the stored markets. The markets that a
disconnection restores are there to be restored: a block deletes the markets that it
has created, and those were not there when an older block was settled.
-/

namespace Truthcoin.ListedRuns

open Truthcoin.Types Truthcoin.Table Truthcoin.Fallible Truthcoin.Arithmetic
open Truthcoin.Decisions Truthcoin.Markets Truthcoin.Blocks Truthcoin.Validation
open Truthcoin.Settlement Truthcoin.Apply Truthcoin.ApplySteps Truthcoin.Connect
open Truthcoin.ConnectTrace Truthcoin.BlockChecks Truthcoin.Disconnect Truthcoin.BlockRun
open Truthcoin.MarketSteps Truthcoin.SettlementSteps Truthcoin.MarketRecords
open Truthcoin.MarketIndexes Truthcoin.TagConnect Truthcoin.AddressIndex
open Truthcoin.ListedMarkets Truthcoin.Commitments Truthcoin.TwoWayPeg

variable {F : Type} {L : Library F} {T : Tags} {s s' : State F} {height : Nat}

section

variable [F64 F] [DecidableEq F] {config : DecisionConfig} {archive : Archive} {block : Block F}
  {t : Trace F}

theorem applied_sameIndexes (ht : Connects L config archive s block t) :
    SameIndexes s.markets t.applied.state.markets := by
  rw [applied_eq ht.applied]
  exact ⟨rfl, rfl, rfl, rfl⟩

theorem grown_counted (hsound : Sound s.markets)
    (ht : Prepares L config archive s block t) : Grown s.markets t.counted.markets := by
  have hsame : SameIndexes s.markets t.applied.state.markets := by
    rw [applied_eq ht.applied]
    exact ⟨rfl, rfl, rfl, rfl⟩
  have happlied := Grown.framed hsound hsame
  have hwritten := happlied.trans (grown_writeMarkets happlied.sound ht.changes ht.written)
  exact hwritten.trans (Grown.framed hwritten.sound ⟨rfl, rfl, rfl, rfl⟩)

theorem grown_connects (hs : Tagged T s) (hsound : Sound s.markets)
    (ht : Connects L config archive s block t) :
    Grown s.markets (t.finished L block).markets ∧
      (∀ marketId ∈ createdIds L T block.body, ¬ Stored s.markets marketId) ∧
      ∀ e ∈ t.settled, Stored (t.finished L block).markets e.preSettlementMarket.id := by
  have happlied := Grown.framed hsound (applied_sameIndexes ht)
  have hcounted := grown_counted hsound ht.toPrepares
  obtain ⟨hpaid, hsettled⟩ := grown_transitionMarkets hcounted.sound ht.paid
  refine ⟨hcounted.trans hpaid, ?_, fun e he => hpaid.stored _ (hsettled e he)⟩
  rintro marketId hcreated hstored
  rw [← creations_of_connects hs ht] at hcreated
  obtain ⟨market, hmarket, rfl⟩ := List.mem_map.mp hcreated
  obtain ⟨old, hold⟩ := happlied.stored _ hstored
  have habsent := (creations_of_validateAllChanges ht.changes).2 market hmarket
  rw [habsent] at hold
  cases hold

theorem settlementUndo_finished (ht : Connects L config archive s block t) :
    (t.finished L block).settlementUndo = putUndo s.settlementUndo t.height t.settled := by
  have hpaid := congrArg State.settlementUndo (transitionAndPayoutResolvedMarkets_framed ht.paid)
  have happlied := congrArg State.settlementUndo (applied_eq ht.applied)
  have hrows : t.paid.settlementUndo = s.settlementUndo := by
    rw [hpaid]
    exact happlied
  rw [← hrows]
  rfl

end

theorem restoreMarketFunds_settlementUndo (marketId : MarketId) (isFee : Bool)
    (utxo : Option (OutPoint × FilledOutput)) (s : State F) :
    (restoreMarketFunds marketId isFee utxo s).settlementUndo = s.settlementUndo := by
  unfold restoreMarketFunds
  split
  · rfl
  · rfl

theorem revertSettlement_settlementUndo {entries : List (SettlementUndoEntry F)}
    (h : revertSettlement L s entries height = .ok s') :
    s'.settlementUndo = s.settlementUndo := by
  refine foldlM_preserves (P := fun s' : State F => s'.settlementUndo = s.settlementUndo) ?_ h rfl
  intro entry _ s₁ s₂ hs₁ hstep
  simp only [revertSettlementEntry, revertAutomaticSharePayouts_iff, bind_eq_ok_iff,
    Except.ok.injEq] at hstep
  obtain ⟨_, ⟨db, -, rfl⟩, rfl⟩ := hstep
  dsimp only
  rw [restoreMarketFunds_settlementUndo, restoreMarketFunds_settlementUndo]
  exact hs₁

theorem grown_undoSettlement (hs : Sound s.markets)
    (hstored : ∀ entries, s.settlementUndo[height]? = some entries →
      ∀ e ∈ entries, Stored s.markets e.preSettlementMarket.id)
    (h : undoSettlement L s height = .ok s') :
    Grown s.markets s'.markets ∧ s'.settlementUndo = s.settlementUndo.erase height := by
  unfold undoSettlement at h
  split at h
  · rename_i hnone
    rw [← Except.ok.inj h]
    exact ⟨hs.grown, (erase_of_absent hnone).symm⟩
  · rename_i entries hentries
    obtain ⟨s₁, hrevert, h⟩ := bind_eq_ok_iff.mp h
    have hgrown := grown_revertSettlement hs (hstored entries hentries) hrevert
    have hrows := revertSettlement_settlementUndo hrevert
    rw [← Except.ok.inj h]
    refine ⟨hgrown, ?_⟩
    dsimp only
    rw [hrows]

section

variable [F64 F] [DecidableEq F]

omit [DecidableEq F] in
theorem beforeTxs_settlementUndo (t : UndoTrace F) :
    t.beforeTxs.settlementUndo = t.unsettled.settlementUndo := by
  have hconsensus : (undoConsensus t.unsettled t.height).settlementUndo =
      t.unsettled.settlementUndo := by
    rw [undoConsensus_eq]
  unfold UndoTrace.beforeTxs undoConsolidation
  split
  · exact hconsensus
  · exact hconsensus

omit [F64 F] [DecidableEq F] in
theorem id_of_revertTradingVolume {m m' : Market F} {outcomeIndex amount : Nat}
    (h : m.revertTradingVolume outcomeIndex amount = .ok m') : m'.id = m.id := by
  simp only [Market.revertTradingVolume, Market.changeVolume, bind_eq_ok_iff,
    Except.ok.injEq] at h
  obtain ⟨_, -, rfl⟩ := h
  rfl

omit [DecidableEq F] in
theorem id_of_revertedTrade {old new : Market F} {trade : Trade}
    (h : (if trade.isBuy then revertBuy L old trade height
      else revertSell L old trade height) = .ok new) : new.id = old.id := by
  split at h
  · simp only [revertBuy, Market.updateShares, bind_eq_ok_iff, mapError_eq_ok_iff] at h
    obtain ⟨_, -, _, -, _, hvolume, hupdate⟩ := h
    exact (id_of_updateState hupdate).trans (id_of_revertTradingVolume hvolume)
  · simp only [revertSell, Market.updateShares, bind_eq_ok_iff, mapError_eq_ok_iff] at h
    obtain ⟨_, -, _, -, _, hvolume, hupdate⟩ := h
    exact (id_of_updateState hupdate).trans (id_of_revertTradingVolume hvolume)

/-- What undoing transactions keeps: the markets that none of them has created. -/
structure Undone (T : Tags) (s : State F) (ids : List MarketId) (s' : State F) : Prop where
  tagged : Tagged T s'
  sound : Sound s'.markets
  stored : ∀ marketId, marketId ∉ ids → Stored s.markets marketId → Stored s'.markets marketId
  settlementUndo : s'.settlementUndo = s.settlementUndo

omit [F64 F] [DecidableEq F] in
theorem Undone.trans {ids : List MarketId} {s s' s'' : State F} (h : Undone T s ids s')
    (h' : Undone T s' ids s'') : Undone T s ids s'' where
  tagged := h'.tagged
  sound := h'.sound
  stored marketId hnew hid := h'.stored marketId hnew (h.stored marketId hnew hid)
  settlementUndo := h'.settlementUndo.trans h.settlementUndo

theorem revertTxData_undone {acc acc' : State F × List (ShareKey × I64)}
    {tx : FilledTransaction F} {data : TxData F} (hs : Tagged T acc.1)
    (hsound : Sound acc.1.markets) (htx : SpendsTagged T tx)
    (hdata : tx.transaction.data = some data) (h : revertTxData L acc tx data = .ok acc') :
    Undone T acc.1 (createdId L T tx.transaction) acc'.1 := by
  have htagged := revertTxData_tagged hs h
  obtain ⟨s, deltas⟩ := acc
  have grown_undone : ∀ {s' : State F}, Tagged T s' → Grown s.markets s'.markets →
      s'.settlementUndo = s.settlementUndo →
        Undone T s (createdId L T tx.transaction) s' :=
    fun htagged hgrown hrows =>
      ⟨htagged, hgrown.sound, fun marketId _ hid => hgrown.stored marketId hid, hrows⟩
  cases data with
  | claimDecision payload | submitVote vote | submitBallot ballot =>
      simp only [revertTxData, bind_eq_ok_iff, Except.ok.injEq] at h
      obtain ⟨_, -, rfl⟩ := h
      exact grown_undone htagged hsound.grown rfl
  | transferReputation transfer =>
      rw [← Except.ok.inj h]
      exact grown_undone hs hsound.grown rfl
  | createMarket creation =>
      simp only [revertTxData, revertCreateMarket, bind_eq_ok_iff, Except.ok.injEq] at h
      obtain ⟨_, ⟨creator, hcreator, decisions, -, rfl⟩, rfl⟩ := h
      refine ⟨htagged, hsound.deleteMarket _, ?_, rfl⟩
      intro marketId hnew hid
      rw [createdId_of_creator htx hdata hcreator, List.mem_singleton] at hnew
      exact stored_of_deleteMarket hnew hid
  | trade trade =>
      simp only [revertTxData, bind_eq_ok_iff, Except.ok.injEq] at h
      obtain ⟨⟨s₁, delta⟩, hrevert, rfl⟩ := h
      obtain ⟨old, new, hold, hnew, hdb, -, hs₁⟩ := revertTradeMarketState_eq_ok hrevert
      have hid : new.id = old.id := id_of_revertedTrade hnew
      refine grown_undone htagged (Grown.updateMarket hsound ?_ hdb) ?_
      · exact ⟨old, by rw [hid, hsound.id_of_getMarket hold, hold]⟩
      · rw [hs₁]
  | amplifyBeta amplify =>
      simp only [revertTxData, revertAmplifyBeta, bind_eq_ok_iff, okOr_eq_ok_iff,
        Except.ok.injEq] at h
      obtain ⟨_, ⟨old, hold, base, -, db, hdb, rfl⟩, rfl⟩ := h
      refine grown_undone htagged (Grown.updateMarket hsound ?_ hdb) rfl
      exact ⟨old, by rw [hsound.id_of_getMarket hold, hold]⟩

theorem revertTransaction_undone {acc acc' : State F × List (ShareKey × I64)}
    {tx : Transaction F} (hs : Tagged T acc.1) (hsound : Sound acc.1.markets)
    (h : revertTransaction L acc tx = .ok acc') :
    Undone T acc.1 (createdId L T tx) acc'.1 := by
  have htagged := revertTransaction_tagged hs h
  obtain ⟨filledTx, mid, coins, hfilled, hdata, -, rfl⟩ := revertTransaction_eq_ok h
  rcases hdata with ⟨-, rfl⟩ | ⟨data, hdata, hmid⟩
  · exact ⟨htagged, hsound, fun _ _ hid => hid, rfl⟩
  · obtain ⟨rfl, hspends⟩ := spendsTagged_of_fillTransactionFromStxos hs.coins hfilled
    have hundone := revertTxData_undone hs hsound hspends hdata hmid
    exact ⟨htagged, hundone.sound, hundone.stored, hundone.settlementUndo⟩

theorem undoTransactions_undone {body : Body F} {deltas : List (ShareKey × I64)}
    (hs : Tagged T s) (hsound : Sound s.markets)
    (h : undoTransactions L s body height = .ok (s', deltas)) :
    Undone T s (createdIds L T body) s' := by
  have htagged := undoTransactions_tagged hs h
  simp only [undoTransactions, bind_eq_ok_iff, Except.ok.injEq, Prod.mk.injEq] at h
  obtain ⟨⟨s₁, deltas₁⟩, hfold, rfl, -⟩ := h
  have hundone : Undone T s (createdIds L T body) s₁ := by
    refine foldlM_preserves
      (P := fun acc : State F × List (ShareKey × I64) => Undone T s (createdIds L T body) acc.1)
      ?_ hfold ⟨hs, hsound, fun _ _ hid => hid, rfl⟩
    intro tx htx acc acc' hacc hstep
    have htx : tx ∈ body.transactions := by
      obtain ⟨entry, hentry, rfl⟩ := List.mem_map.mp (List.mem_reverse.mp htx)
      have hmem := List.mem_zipIdx_iff_getElem?.mp (List.mem_filter.mp hentry).1
      exact List.mem_of_getElem? hmem
    have htransaction := revertTransaction_undone hacc.tagged hacc.sound hstep
    refine hacc.trans ⟨htransaction.tagged, htransaction.sound, ?_,
      htransaction.settlementUndo⟩
    intro marketId hnew hid
    refine htransaction.stored marketId ?_ hid
    intro hcreated
    exact hnew (List.mem_flatMap.mpr ⟨tx, htx, hcreated⟩)
  exact ⟨htagged, hundone.sound, hundone.stored, hundone.settlementUndo⟩

omit [F64 F] [DecidableEq F] in
theorem height_of_checkTip {header : Header} {body : Body F} {found : Nat}
    (hheight : s.height = some height) (h : checkTip L s header body = .ok found) :
    found = height := by
  simp only [checkTip, bind_eq_ok_iff, okOr_eq_ok_iff] at h
  obtain ⟨_, -, _, -, _, -, h⟩ := h
  exact Option.some.inj (h.symm.trans hheight)

theorem disconnectTip_undone {header : Header} {body : Body F} (hs : Tagged T s)
    (hsound : Sound s.markets)
    (hstored : ∀ entries, s.settlementUndo[height]? = some entries →
      ∀ e ∈ entries, Stored s.markets e.preSettlementMarket.id)
    (hheight : s.height = some height) (h : disconnectTip L s header body = .ok s') :
    Sound s'.markets ∧
      (∀ marketId, marketId ∉ createdIds L T body → Stored s.markets marketId →
        Stored s'.markets marketId) ∧
      s'.settlementUndo = s.settlementUndo.erase height := by
  obtain ⟨t, ht⟩ := disconnectTip_eq_ok_iff.mp h
  obtain rfl : t.height = height := height_of_checkTip hheight ht.tip
  obtain ⟨hunsettled, hrows⟩ := grown_undoSettlement hsound hstored ht.unsettled
  have hbefore : Grown t.unsettled.markets t.beforeTxs.markets := by
    refine Grown.framed hunsettled.sound ?_
    rw [beforeTxs_markets]
    exact ⟨rfl, rfl, rfl, rfl⟩
  have htagged : Tagged T t.beforeTxs :=
    undoConsolidation_tagged (undoConsensus_tagged (undoSettlement_tagged hs ht.unsettled) _) _
  have hundone := undoTransactions_undone htagged hbefore.sound ht.undone
  have hmarkets : Grown t.undone.markets t.markets := by
    obtain ⟨changes, -, hchanges⟩ := bind_eq_ok_iff.mp ht.markets
    exact Grown.framed hundone.sound (sameIndexes_of_accounts (shareChanges_framed hchanges))
  have hend : s'.settlementUndo = t.undone.settlementUndo := by
    rw [setPreviousTip_eq ht.previous]
    unfold UndoTrace.reverted
    rw [undoReputationTransfers_eq]
    rfl
  rw [disconnected_markets ht]
  refine ⟨hmarkets.sound, ?_, ?_⟩
  · intro marketId hnew hid
    have hid := hbefore.stored marketId (hunsettled.stored marketId hid)
    exact hmarkets.stored marketId (hundone.stored marketId hnew hid)
  · rw [hend, hundone.settlementUndo, beforeTxs_settlementUndo, hrows]

variable {config : DecisionConfig} {lib : WithdrawalBundle.BundleLib}
  {ok : State F → Block F → Prop} {okPeg : State F → TwoWayPegData → Prop}
  {chain : List (Block F)} {block : Block F}

/-- The height of the newest block. -/
def tipHeight : List (Block F) → Option Nat
  | [] => none
  | _ :: chain => some chain.length

theorem height_of_disconnectTip {header : Header} {body : Body F}
    (hheight : s.height = some chain.length) (h : disconnectTip L s header body = .ok s') :
    s'.height = tipHeight chain := by
  obtain ⟨t, ht⟩ := disconnectTip_eq_ok_iff.mp h
  have htip : t.height = chain.length := height_of_checkTip hheight ht.tip
  have hprevious := ht.previous
  rw [htip] at hprevious
  unfold setPreviousTip at hprevious
  cases chain with
  | nil =>
      cases hprev : header.prevSideHash <;> rw [hprev] at hprevious
      · rw [← Except.ok.inj hprevious]
        rfl
      · cases hprevious
  | cons b chain =>
      cases hprev : header.prevSideHash <;> rw [hprev] at hprevious
      · cases hprevious
      · rw [← Except.ok.inj hprevious]
        rfl

theorem height_of_prepares {archive : Archive} {t : Trace F} (hheight : s.height = tipHeight chain)
    (ht : Prepares L config archive s block t) : t.height = chain.length := by
  have hnext := (prevalidated_of_prevalidate ht.prevalidated).height
  rw [hheight] at hnext
  cases chain with
  | nil => exact (Except.ok.inj hnext).symm
  | cons b chain =>
      simp only [tipHeight, Option.elim_some, addU32_eq_ok_iff] at hnext
      exact hnext.2

theorem height_of_run (hrun : Run L config lib ok okPeg chain s) : s.height = tipHeight chain := by
  induction hrun with
  | start => rfl
  | connect archive _ _ h ih =>
      obtain ⟨t, ht, rfl⟩ := connects_of_applyBlock h
      rw [tipHeight, ← height_of_prepares ih ht.toPrepares]
      rfl
  | disconnect _ h ih => exact height_of_disconnectTip ih h
  | connectPeg _ _ h ih | disconnectPeg _ h ih =>
      obtain ⟨p, -, h⟩ := bind_eq_ok_iff.mp h
      rw [← Except.ok.inj h]
      exact ih

/-- The indexes of a chain of blocks, newest first, are exact. A market that the block
at some height has settled is stored, and no block above that height has created it. -/
structure Listed (L : Library F) (T : Tags) (chain : List (Block F)) (s : State F) : Prop where
  height : s.height = tipHeight chain
  sound : Sound s.markets
  rows : ∀ (h : Nat) (entries : List (SettlementUndoEntry F)),
    s.settlementUndo[h]? = some entries → h < chain.length
  stored : ∀ (h : Nat) (entries : List (SettlementUndoEntry F)),
    s.settlementUndo[h]? = some entries →
      ∀ e ∈ entries, Stored s.markets e.preSettlementMarket.id
  above : ∀ (h : Nat) (entries : List (SettlementUndoEntry F)),
    s.settlementUndo[h]? = some entries →
      ∀ e ∈ entries, ∀ block ∈ chain.take (chain.length - 1 - h),
        e.preSettlementMarket.id ∉ createdIds L T block.body

theorem listed_connect {archive : Archive} (hs : Tagged T s) (hlisted : Listed L T chain s)
    (h : applyBlock L config archive s block = .ok s') : Listed L T (block :: chain) s' := by
  obtain ⟨t, ht, rfl⟩ := connects_of_applyBlock h
  have hheight : t.height = chain.length := height_of_prepares hlisted.height ht.toPrepares
  obtain ⟨hgrown, hnew, hsettled⟩ := grown_connects hs hlisted.sound ht
  have hrow : ∀ k entries, (t.finished L block).settlementUndo[k]? = some entries →
      s.settlementUndo[k]? = some entries ∨ k = chain.length ∧ entries = t.settled := by
    intro k entries hentries
    rw [settlementUndo_finished ht, hheight] at hentries
    exact putUndo_eq_some hentries
  refine ⟨?_, hgrown.sound, ?_, ?_, ?_⟩
  · rw [tipHeight, ← hheight]
    rfl
  · intro k entries hentries
    rw [List.length_cons]
    rcases hrow k entries hentries with hold | ⟨rfl, -⟩
    · have hlt := hlisted.rows k entries hold
      omega
    · omega
  · intro k entries hentries e he
    rcases hrow k entries hentries with hold | ⟨-, rfl⟩
    · exact hgrown.stored _ (hlisted.stored k entries hold e he)
    · exact hsettled e he
  · intro k entries hentries e he b hb
    rcases hrow k entries hentries with hold | ⟨rfl, -⟩
    · have hlt := hlisted.rows k entries hold
      have htake : (block :: chain).length - 1 - k = (chain.length - 1 - k) + 1 := by
        rw [List.length_cons]
        omega
      rw [htake, List.take_succ_cons] at hb
      rcases List.mem_cons.mp hb with rfl | hb
      · intro hcreated
        exact hnew _ hcreated (hlisted.stored k entries hold e he)
      · exact hlisted.above k entries hold e he b hb
    · simp at hb

theorem listed_disconnect (hs : Tagged T s) (hlisted : Listed L T (block :: chain) s)
    (h : disconnectTip L s block.header block.body = .ok s') : Listed L T chain s' := by
  have hheight : s.height = some chain.length := hlisted.height
  obtain ⟨hsound, hstored, hrows⟩ :=
    disconnectTip_undone hs hlisted.sound (hlisted.stored chain.length) hheight h
  have hrow : ∀ k entries, s'.settlementUndo[k]? = some entries →
      s.settlementUndo[k]? = some entries ∧ k < chain.length := by
    intro k entries hentries
    rw [hrows, Std.ExtTreeMap.getElem?_erase] at hentries
    split at hentries
    · cases hentries
    · rename_i hne
      have hlt := hlisted.rows k entries hentries
      rw [List.length_cons] at hlt
      rw [Std.LawfulEqCmp.compare_eq_iff_eq] at hne
      exact ⟨hentries, by omega⟩
  have hall : ∀ k entries, s'.settlementUndo[k]? = some entries → ∀ e ∈ entries,
      ∀ b ∈ block :: chain.take (chain.length - 1 - k),
        e.preSettlementMarket.id ∉ createdIds L T b.body := by
    intro k entries hentries e he b hb
    obtain ⟨hold, hlt⟩ := hrow k entries hentries
    have htake : (block :: chain).length - 1 - k = (chain.length - 1 - k) + 1 := by
      rw [List.length_cons]
      omega
    refine hlisted.above k entries hold e he b ?_
    rw [htake, List.take_succ_cons]
    exact hb
  refine ⟨?_, hsound, fun k entries hentries => (hrow k entries hentries).2, ?_, ?_⟩
  · exact height_of_disconnectTip hheight h
  · intro k entries hentries e he
    exact hstored _ (hall k entries hentries e he block (by simp))
      (hlisted.stored k entries (hrow k entries hentries).1 e he)
  · intro k entries hentries e he b hb
    exact hall k entries hentries e he b (by simp [hb])

theorem listed_of_run (hT : TagsOf L T)
    (hdeposits : ∀ s data, okPeg s data → DepositsTagged T data)
    (hrun : Run L config lib ok okPeg chain s) : Listed L T chain s := by
  induction hrun with
  | start =>
      exact ⟨rfl, sound_empty, fun k entries h => by simp [State.empty] at h,
        fun k entries h => by simp [State.empty] at h,
        fun k entries h => by simp [State.empty] at h⟩
  | connect archive hrun hok h ih => exact listed_connect (tagged_of_run hT hdeposits hrun) ih h
  | disconnect hrun h ih => exact listed_disconnect (tagged_of_run hT hdeposits hrun) ih h
  | connectPeg hrun hok h ih =>
      obtain ⟨p, -, h⟩ := bind_eq_ok_iff.mp h
      rw [← Except.ok.inj h]
      exact ⟨ih.height, ih.sound, ih.rows, ih.stored, ih.above⟩
  | disconnectPeg hrun h ih =>
      obtain ⟨p, -, h⟩ := bind_eq_ok_iff.mp h
      rw [← Except.ok.inj h]
      exact ⟨ih.height, ih.sound, ih.rows, ih.stored, ih.above⟩

/-- In every state that a node reaches by connecting and disconnecting blocks and peg
data, the indexes by state, by expiry and by decision list exactly the ids of the stored
markets with that state, with that expiry, and referring to that decision, each once. -/
theorem indexesExact_of_run (hL : CollisionFree L) {main : MainOutputs}
    (hrun : Run L config lib (fun _ _ => True) (fun _ data => DepositsFrom main data) chain s) :
    IndexesExact s.markets := by
  have hlisted : Listed L (tags L main) chain s :=
    listed_of_run (tagsOf_tags hL main)
      (fun _ _ hdata => depositsTagged_of_depositsFrom hL hdata) hrun
  exact hlisted.sound.exact

end

open Truthcoin.SampleMarkets Truthcoin.SampleChain

theorem indexesExact_of_run_two_markets :
    ∃ s, Run marketLibrary marketConfig sampleBundleLib (fun _ _ => True)
        (fun _ data => DepositsFrom sampleMain data)
        [marketBlock 2 createTxs, marketBlock 1 claimTxs, marketBlock 0 []] s ∧
      listed s.markets.stateIndex .trading = [marketNamed "", marketNamed "x"] ∧
      listed s.markets.decisionIndex marketDecision = [marketNamed "", marketNamed "x"] ∧
      IndexesExact s.markets := by
  have hcomputed : holds marketStart (fun s =>
      decide (listed s.markets.stateIndex .trading = [marketNamed "", marketNamed "x"] ∧
        listed s.markets.decisionIndex marketDecision =
          [marketNamed "", marketNamed "x"])) = true := by
    decide +kernel
  obtain ⟨s, hstart, htest⟩ := holds_iff.mp hcomputed
  obtain ⟨hstate, hdecision⟩ := of_decide_eq_true htest
  have hrun := (chain_of_marketStart hstart).run
  exact ⟨s, hrun, hstate, hdecision,
    indexesExact_of_run (collisionFree_knownLibrary _) hrun⟩

end Truthcoin.ListedRuns
