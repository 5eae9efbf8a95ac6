import Truthcoin.ShareSettlements
import Truthcoin.ShareWrites
import Truthcoin.UndoTables

/-!
# Shares while the tip is disconnected

Undoing the transactions of a block takes its trades off the shares of the markets and deletes
the markets that it created; the positions follow with the net changes that the trades leave.
-/

namespace Truthcoin.ShareUndo

open Truthcoin.Types Truthcoin.Table Truthcoin.Fallible Truthcoin.Arithmetic
open Truthcoin.Decisions Truthcoin.Markets Truthcoin.Blocks Truthcoin.Trading
open Truthcoin.Settlement Truthcoin.Apply Truthcoin.Connect Truthcoin.ConnectTrace
open Truthcoin.Disconnect Truthcoin.MarketSteps Truthcoin.MarketRecords
open Truthcoin.TagConnect Truthcoin.AddressIndex Truthcoin.ListedMarkets Truthcoin.ListedRuns
open Truthcoin.UndoTables
open Truthcoin.SlippageCheck Truthcoin.Ledgers Truthcoin.Ledgers.Ledger
open Truthcoin.ShareAccounts Truthcoin.ShareBooks Truthcoin.ShareWrites
open Truthcoin.ShareSettlements

variable {F : Type} {L : Library F} {T : Tags} {db db' : MarketsDatabase F} {s s' : State F}
  {height : Nat}

theorem without_nil (b : ShareBook) : b.without [] = b := by
  simp only [ShareBook.without, List.not_mem_nil, if_false]

theorem without_without (b : ShareBook) (ids ids' : List MarketId) :
    (b.without ids).without ids' = b.without (ids ++ ids') := by
  refine ShareBook.ext ?_ ?_ rfl
  · funext marketId
    show (if _ then none else if _ then none else _) = if _ then none else _
    simp only [List.mem_append]
    split
    · rename_i h
      rw [if_pos (.inr h)]
    · rename_i h
      simp only [h, or_false]
  · funext key
    show (if _ then none else if _ then none else _) = if _ then none else _
    simp only [List.mem_append]
    split
    · rename_i h
      rw [if_pos (.inr h)]
    · rename_i h
      simp only [h, or_false]

theorem without_trade (b : ShareBook) (ids : List MarketId) (amounts : PositionKey → Int) :
    (b.without ids).trade amounts = (b.trade amounts).without ids := by
  refine ShareBook.ext rfl ?_ rfl
  funext key
  show Option.map _ (if _ then none else _) = if _ then none else _
  split
  · rfl
  · rfl

def tradeIn (tx : Transaction F) : Option Trade :=
  match tx.data with
  | some (.trade trade) => some trade
  | _ => none

/-- What taking a trade back adds to its shares and to its position. -/
def backAmount (trade : Trade) : Int :=
  if trade.isBuy then -(asI64 trade.sharesAbs).val else (asI64 trade.sharesAbs).val

theorem backAmount_eq {trade : Trade} (h : i64Min < trade.shares.val) :
    backAmount trade = -trade.shares.val := by
  rw [backAmount, asI64_sharesAbs h, Trade.isBuy]
  split
  · rename_i hbuy
    rw [abs_of_pos (of_decide_eq_true hbuy)]
  · rename_i hsell
    have hle : trade.shares.val ≤ 0 := by simpa using hsell
    exact abs_of_nonpos hle

/-- Trades that are taken back as postings. -/
def backPosts (trades : List Trade) : List (Address × PositionKey × ℤ) :=
  trades.map fun trade => (trade.trader, trade.position, backAmount trade)

theorem shares_of_revertedTrade [F64 F] {old new : Market F} {trade : Trade}
    (h : (if trade.isBuy then revertBuy L old trade height
      else revertSell L old trade height) = .ok new) :
    new.marketState = old.marketState ∧ ∀ i, outcomeShares new i = (outcomeShares old i).map
      (· + if trade.outcomeIndex = i then backAmount trade else 0) := by
  have hupdated : ∀ {m m' n : Market F} {volume : Nat} {shares : List I64},
      m.revertTradingVolume trade.outcomeIndex volume = .ok m' →
        m'.updateShares shares height = .ok n →
          n.marketState = m.marketState ∧ n.shares = shares := by
    intro m m' n volume shares hvolume hupdate
    simp only [Market.revertTradingVolume, Market.changeVolume, bind_eq_ok_iff,
      Except.ok.injEq] at hvolume
    obtain ⟨_, -, rfl⟩ := hvolume
    simp only [Market.updateShares, Market.updateState, bind_eq_ok_iff, Except.ok.injEq] at hupdate
    obtain ⟨_, -, _, -, rfl⟩ := hupdate
    exact ⟨rfl, rfl⟩
  unfold backAmount
  split at h
  · rename_i hbuy
    simp only [revertBuy, bind_eq_ok_iff, mapError_eq_ok_iff] at h
    obtain ⟨shares, hshares, _, -, _, hvolume, hupdate⟩ := h
    obtain ⟨hstate, hnew⟩ := hupdated hvolume hupdate
    refine ⟨hstate, fun i => ?_⟩
    rw [outcomeShares, outcomeShares, hnew, lookup_subAt hshares, Option.map_map, if_pos hbuy]
    rfl
  · rename_i hsell
    simp only [revertSell, bind_eq_ok_iff, mapError_eq_ok_iff] at h
    obtain ⟨shares, hshares, _, -, _, hvolume, hupdate⟩ := h
    obtain ⟨hstate, hnew⟩ := hupdated hvolume hupdate
    refine ⟨hstate, fun i => ?_⟩
    rw [outcomeShares, outcomeShares, hnew, lookup_addAt hshares, Option.map_map, if_neg hsell]
    rfl

/-- What undoing transactions does to a book before the positions follow. -/
def undoTxs (L : Library F) (T : Tags) (txs : List (Transaction F)) (b : ShareBook) :
    ShareBook :=
  (b.trade (issuedBy (backPosts (txs.filterMap tradeIn)))).without (txs.flatMap (createdId L T))

theorem undoTxs_append (txs txs' : List (Transaction F)) (b : ShareBook) :
    undoTxs L T (txs ++ txs') b = undoTxs L T txs' (undoTxs L T txs b) := by
  unfold undoTxs
  rw [without_trade, ShareBook.trade_trade, without_without, List.flatMap_append]
  refine congrArg (fun amounts => (b.trade amounts).without _) ?_
  funext key
  rw [List.filterMap_append, backPosts, List.map_append, issuedBy, List.map_append,
    List.sum_append]
  rfl

theorem undoTxs_singleton (tx : Transaction F) (b : ShareBook) :
    undoTxs L T [tx] b =
      (b.trade (issuedBy (backPosts (tradeIn tx).toList))).without (createdId L T tx) := by
  rw [undoTxs, List.flatMap_singleton]
  cases htrade : tradeIn tx with
  | none => simp [htrade]
  | some trade => simp [htrade]

theorem undoTxs_of_quiet {tx : Transaction F} (htrade : tradeIn tx = none)
    (hcreated : createdId L T tx = []) (b : ShareBook) : undoTxs L T [tx] b = b := by
  rw [undoTxs_singleton, htrade, hcreated, without_nil]
  exact ShareBook.trade_zero b

theorem deleteMarket_accounts (db : MarketsDatabase F) (marketId : MarketId) :
    (db.deleteMarket marketId).shareAccounts = db.shareAccounts := by
  unfold MarketsDatabase.deleteMarket
  split
  · rfl
  · rfl

theorem bookOf_deleteMarket (db : MarketsDatabase F) (marketId : MarketId) :
    bookOf (db.deleteMarket marketId) = (bookOf db).without [marketId] := by
  have hget : ∀ other, (db.deleteMarket marketId).getMarket other =
      if other ∈ [marketId] then none else db.getMarket other := by
    intro other
    simp only [List.mem_singleton]
    unfold MarketsDatabase.deleteMarket
    split
    · rename_i hnone
      split
      · rename_i heq
        rw [heq, hnone]
      · rfl
    · exact lookup_erase
  refine ShareBook.ext ?_ ?_ ?_
  · funext other
    show Option.map _ _ = if other ∈ [marketId] then none else _
    rw [hget]
    split
    · rfl
    · rfl
  · funext key
    show Option.bind _ _ = if key.marketId ∈ [marketId] then none else _
    rw [hget]
    split
    · rfl
    · rfl
  · funext a key
    show amountAt (positionsOf (db.deleteMarket marketId) a) key = amountAt (positionsOf db a) key
    rw [positionsOf_congr (deleteMarket_accounts db marketId)]

theorem posting_of_accountDelta {trade : Trade} {delta : ShareKey × I64}
    (h : accountDelta trade = .ok delta) :
    posting delta = (trade.trader, trade.position, backAmount trade) := by
  unfold accountDelta at h
  unfold backAmount
  split at h
  · rename_i hbuy
    simp only [bind_eq_ok_iff, negI64_eq_ok_iff, Except.ok.injEq] at h
    obtain ⟨amount, hamount, rfl⟩ := h
    rw [posting, hamount, if_pos hbuy]
  · rename_i hsell
    simp only [ok_bind, Except.ok.injEq] at h
    rw [← h, posting, if_neg hsell]

theorem bookOf_updateMarket {old new : Market F} {marketId : MarketId} (hdb : Keyed db)
    (hold : db.getMarket marketId = some old) (h : db.updateMarket new = .ok db')
    (hid : new.id = old.id) (hstate : new.marketState = old.marketState)
    (hshares : new.shares = old.shares) : bookOf db' = bookOf db := by
  obtain ⟨-, rfl⟩ := updateMarket_eq_ok_iff.mp h
  have hsame : ∀ i, outcomeShares new i = (outcomeShares old i).map (· + 0) := by
    intro i
    rw [outcomeShares, outcomeShares, hshares]
    simp
  rw [bookOf_insert writeMarketAndIndexes_markets writeMarketAndIndexes_accounts, hid,
    hdb _ _ hold, put_eq_trade hold hstate hsame]
  simp only [ite_self]
  exact ShareBook.trade_zero _

theorem book_of_revertedTrade [F64 F] {old new : Market F} {trade : Trade} (hdb : Keyed db)
    (hold : db.getMarket trade.marketId = some old)
    (hnew : (if trade.isBuy then revertBuy L old trade height
      else revertSell L old trade height) = .ok new)
    (h : db.updateMarket new = .ok db') :
    bookOf db' = (bookOf db).trade (issuedBy (backPosts [trade])) := by
  obtain ⟨-, rfl⟩ := updateMarket_eq_ok_iff.mp h
  have hid : new.id = trade.marketId := (id_of_revertedTrade hnew).trans (hdb _ _ hold)
  obtain ⟨hstate, hshares⟩ := shares_of_revertedTrade hnew
  rw [bookOf_insert writeMarketAndIndexes_markets writeMarketAndIndexes_accounts, hid,
    put_eq_trade hold hstate hshares]
  refine congrArg (bookOf db).trade ?_
  funext key
  obtain ⟨marketId, outcomeIndex⟩ := key
  simp only [issuedBy, backPosts, List.map_cons, List.map_nil, List.sum_cons, List.sum_nil,
    add_zero, Trade.position, PositionKey.mk.injEq, ite_and, eq_comm]

section

variable [F64 F] [DecidableEq F]

/-- What undoing transactions does to the markets and which changes of positions it leaves. -/
structure BookUndone (L : Library F) (T : Tags) (txs : List (Transaction F))
    (acc acc' : State F × List (ShareKey × I64)) : Prop where
  tagged : Tagged T acc'.1
  keyed : Keyed acc'.1.markets
  accounts : acc'.1.markets.shareAccounts = acc.1.markets.shareAccounts
  book : bookOf acc'.1.markets = undoTxs L T txs (bookOf acc.1.markets)
  deltas : acc'.2.map posting = acc.2.map posting ++ backPosts (txs.filterMap tradeIn)

theorem bookUndone_revertTxData {acc acc' : State F × List (ShareKey × I64)}
    {tx : FilledTransaction F} {data : TxData F} (hs : Tagged T acc.1)
    (hkeyed : Keyed acc.1.markets) (htx : SpendsTagged T tx)
    (hdata : tx.transaction.data = some data)
    (h : revertTxData L acc tx data = .ok acc') :
    BookUndone L T [tx.transaction] acc acc' := by
  have htagged := revertTxData_tagged hs h
  have hquiet : tradeIn tx.transaction = none → createdId L T tx.transaction = [] →
      acc'.1.markets = acc.1.markets → acc'.2 = acc.2 →
        BookUndone L T [tx.transaction] acc acc' := by
    intro htrade hcreated hmarkets hdeltas
    refine ⟨htagged, by rwa [hmarkets], by rw [hmarkets], ?_, ?_⟩
    · rw [hmarkets, undoTxs_of_quiet htrade hcreated]
    · simp [hdeltas, htrade, backPosts]
  cases data with
  | claimDecision payload | submitVote vote | submitBallot ballot =>
      simp only [revertTxData, bind_eq_ok_iff, Except.ok.injEq] at h
      obtain ⟨_, -, rfl⟩ := h
      exact hquiet (by simp [tradeIn, hdata]) (by simp [createdId, hdata]) rfl rfl
  | transferReputation transfer =>
      rw [← Except.ok.inj h] at hquiet ⊢
      exact hquiet (by simp [tradeIn, hdata]) (by simp [createdId, hdata]) rfl rfl
  | createMarket creation =>
      simp only [revertTxData, revertCreateMarket, bind_eq_ok_iff, Except.ok.injEq] at h
      obtain ⟨_, ⟨creator, hcreator, decisions, -, rfl⟩, rfl⟩ := h
      have htrade : tradeIn tx.transaction = none := by simp [tradeIn, hdata]
      refine ⟨htagged, hkeyed.deleteMarket _, ?_, ?_, ?_⟩
      · exact deleteMarket_accounts _ _
      · rw [undoTxs_singleton, htrade, createdId_of_creator htx hdata hcreator]
        refine (bookOf_deleteMarket _ _).trans ?_
        exact congrArg (ShareBook.without · _) (ShareBook.trade_zero _).symm
      · simp [htrade, backPosts]
  | trade trade =>
      simp only [revertTxData, bind_eq_ok_iff, Except.ok.injEq] at h
      obtain ⟨⟨s₁, delta⟩, hrevert, rfl⟩ := h
      obtain ⟨old, new, hold, hnew, hdb, hdelta, hs₁⟩ := revertTradeMarketState_eq_ok hrevert
      have htrade : tradeIn tx.transaction = some trade := by simp [tradeIn, hdata]
      have hcreated : createdId L T tx.transaction = [] := by simp [createdId, hdata]
      refine ⟨htagged, hkeyed.updateMarket hdb, ?_, ?_, ?_⟩
      · obtain ⟨-, hdb⟩ := updateMarket_eq_ok_iff.mp hdb
        rw [hdb, writeMarketAndIndexes_accounts]
      · rw [undoTxs_singleton, htrade, hcreated, without_nil]
        exact book_of_revertedTrade hkeyed hold hnew hdb
      · simp [htrade, backPosts, posting_of_accountDelta hdelta]
  | amplifyBeta amplify =>
      simp only [revertTxData, revertAmplifyBeta, bind_eq_ok_iff, okOr_eq_ok_iff,
        Except.ok.injEq] at h
      obtain ⟨_, ⟨old, hold, base, -, db, hdb, rfl⟩, rfl⟩ := h
      have htrade : tradeIn tx.transaction = none := by simp [tradeIn, hdata]
      have hcreated : createdId L T tx.transaction = [] := by simp [createdId, hdata]
      refine ⟨htagged, hkeyed.updateMarket hdb, ?_, ?_, ?_⟩
      · obtain ⟨-, hdb⟩ := updateMarket_eq_ok_iff.mp hdb
        rw [hdb, writeMarketAndIndexes_accounts]
      · rw [undoTxs_of_quiet htrade hcreated]
        exact bookOf_updateMarket hkeyed hold hdb rfl rfl rfl
      · simp [htrade, backPosts]

theorem bookUndone_revertTransaction {acc acc' : State F × List (ShareKey × I64)}
    {tx : Transaction F} (hs : Tagged T acc.1) (hkeyed : Keyed acc.1.markets)
    (h : revertTransaction L acc tx = .ok acc') : BookUndone L T [tx] acc acc' := by
  have htagged := revertTransaction_tagged hs h
  obtain ⟨filledTx, mid, coins, hfilled, hdata, -, rfl⟩ := revertTransaction_eq_ok h
  obtain ⟨rfl, hspends⟩ := spendsTagged_of_fillTransactionFromStxos hs.coins hfilled
  rcases hdata with ⟨hnone, rfl⟩ | ⟨data, hdata, hmid⟩
  · have htrade : tradeIn filledTx.transaction = none := by simp [tradeIn, hnone]
    refine ⟨htagged, hkeyed, rfl, ?_, by simp [htrade, backPosts]⟩
    exact (undoTxs_of_quiet htrade (by simp [createdId, hnone]) _).symm
  · have hundone := bookUndone_revertTxData hs hkeyed hspends hdata hmid
    exact ⟨htagged, hundone.keyed, hundone.accounts, hundone.book, hundone.deltas⟩

theorem bookUndone_foldlM {txs : List (Transaction F)}
    {acc acc' : State F × List (ShareKey × I64)} (hs : Tagged T acc.1)
    (hkeyed : Keyed acc.1.markets) (h : txs.foldlM (revertTransaction L) acc = .ok acc') :
    BookUndone L T txs acc acc' := by
  induction txs generalizing acc with
  | nil =>
      rw [← Except.ok.inj h]
      refine ⟨hs, hkeyed, rfl, ?_, by simp [backPosts]⟩
      exact ((without_nil _).trans (ShareBook.trade_zero _)).symm
  | cons tx txs ih =>
      obtain ⟨acc₁, hfirst, hrest⟩ := bind_eq_ok_iff.mp h
      have hstep := bookUndone_revertTransaction hs hkeyed hfirst
      have hrun := ih hstep.tagged hstep.keyed hrest
      refine ⟨hrun.tagged, hrun.keyed, hrun.accounts.trans hstep.accounts, ?_, ?_⟩
      · rw [hrun.book, hstep.book, ← undoTxs_append]
        rfl
      · rw [hrun.deltas, hstep.deltas, List.append_assoc]
        refine congrArg (List.map posting acc.2 ++ ·) ?_
        rw [backPosts, backPosts, backPosts, ← List.map_append, ← List.filterMap_append]
        rfl

omit [F64 F] [DecidableEq F] in
theorem netChange_batchDeltas {deltas : List (ShareKey × I64)} {changes : ShareChanges}
    (h : batchDeltas deltas = .ok changes) :
    netChange changes.toList = netChange deltas := by
  funext a key
  rw [netChange_toList]
  have hfold : ∀ (deltas : List (ShareKey × I64)) (changes changes' : ShareChanges),
      deltas.foldlM (fun changes delta => addShareAccountChange changes delta.1 delta.2) changes =
        .ok changes' →
      (changes'[(⟨a, key⟩ : ShareKey)]?.getD I64.zero).val =
        (changes[(⟨a, key⟩ : ShareKey)]?.getD I64.zero).val + netChange deltas a key := by
    intro deltas
    induction deltas with
    | nil =>
        intro changes changes' hchanges
        rw [← Except.ok.inj hchanges]
        exact (add_zero _).symm
    | cons delta deltas ih =>
        intro changes changes' hchanges
        obtain ⟨changes₁, hfirst, hrest⟩ := bind_eq_ok_iff.mp hchanges
        rw [ih _ _ hrest, changes_of_addShareAccountChange hfirst, add_assoc]
        refine congrArg _ ?_
        rw [netChange, netChange, heldBy, heldBy, List.map_cons, List.map_cons, List.sum_cons]
        refine congrArg (· + _) ?_
        exact if_congr (ShareKey.mk.injEq ..).to_iff rfl rfl
  refine (hfold deltas ∅ changes h).trans ?_
  simp [I64.zero]

omit [F64 F] [DecidableEq F] in
theorem moves_of_revertShares {deltas : List (ShareKey × I64)} (hdb : Positive db)
    (h : revertShares L db deltas height = .ok db') :
    Positive db' ∧ bookOf db' = (bookOf db).move (netChange deltas) := by
  obtain ⟨changes, hchanges, h⟩ := bind_eq_ok_iff.mp h
  obtain ⟨hdb', hmoved⟩ := shareChanges_move hdb h
  refine ⟨hdb', ?_⟩
  rw [hmoved, netChange_perm (L.order_perm _), netChange_batchDeltas hchanges]

/-- The book before a block, from its settlements and its applied transactions. -/
def undoBook (L : Library F) (T : Tags) (entries : List (SettlementUndoEntry F))
    (txs : List (Transaction F)) (b : ShareBook) : ShareBook :=
  (undoTxs L T txs (unsettleAll b entries)).move (heldBy (backPosts (txs.filterMap tradeIn)))

/-- Disconnecting the tip leads its book back. -/
theorem bookOf_disconnectTip {header : Header} {body : Body F} (hs : Tagged T s)
    (hkeyed : Keyed s.markets) (hpositive : Positive s.markets)
    (hheight : s.height = some height)
    (hentries : ∀ entry ∈ s.settlementUndo[height]?.getD [],
      ∀ p ∈ entry.payoutSummary.payouts, 0 < p.sharesRedeemed.val)
    (h : disconnectTip L s header body = .ok s') :
    Positive s'.markets ∧ bookOf s'.markets =
      undoBook L T (s.settlementUndo[height]?.getD []) (undoneTxs s body height)
        (bookOf s.markets) := by
  obtain ⟨t, ht⟩ := disconnectTip_eq_ok_iff.mp h
  obtain rfl : t.height = height := height_of_checkTip hheight ht.tip
  obtain ⟨hpositive₁, hunsettled⟩ := unsettles_of_undoSettlement hentries hpositive ht.unsettled
  have hkeyed₁ := keyed_undoSettlement hkeyed ht.unsettled
  have hmarkets := beforeTxs_markets t
  have htagged : Tagged T t.beforeTxs :=
    undoConsolidation_tagged (undoConsensus_tagged (undoSettlement_tagged hs ht.unsettled) _) _
  have hkeyed₂ : Keyed t.beforeTxs.markets := by
    rw [hmarkets]
    exact keyed_of_markets hkeyed₁ rfl
  have hundone := ht.undone
  simp only [undoTransactions, bind_eq_ok_iff, Except.ok.injEq, Prod.mk.injEq] at hundone
  obtain ⟨⟨s₁, deltas⟩, hfold, hstate, rfl⟩ := hundone
  have hskipped : t.beforeTxs.skippedTxIndicesUndo = s.skippedTxIndicesUndo := by
    rw [beforeTxs_frame t ht.unsettled]
  rw [hskipped] at hfold
  have hbook := bookUndone_foldlM htagged hkeyed₂ hfold
  have haccounts : t.undone.markets.shareAccounts = t.unsettled.markets.shareAccounts := by
    rw [← hstate]
    refine hbook.accounts.trans ?_
    rw [hmarkets]
  obtain ⟨hpositive', hmoved⟩ := moves_of_revertShares (hpositive₁.congr haccounts) ht.markets
  have hstart : bookOf t.beforeTxs.markets = bookOf t.unsettled.markets := by
    rw [hmarkets]
    exact bookOf_congr rfl rfl
  rw [disconnected_markets ht]
  refine ⟨hpositive', ?_⟩
  rw [hmoved, undoBook, ← hunsettled, ← hstart, undoneTxs, netChange, hbook.deltas, ← hstate,
    ← hbook.book]
  rfl

end

end Truthcoin.ShareUndo
