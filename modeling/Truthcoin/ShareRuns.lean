import Truthcoin.ClaimRuns
import Truthcoin.ShareUndo

/-!
# Shares and positions over runs

Connecting a block posts its trades to the ledger and closes the markets that it settles;
disconnecting it leads the book back to the one that it was connected in. So in every state
of a run the positions in a trading market add up to its shares.
-/

namespace Truthcoin.ShareRuns

open Truthcoin.Types Truthcoin.Table Truthcoin.Fallible Truthcoin.Arithmetic
open Truthcoin.Decisions Truthcoin.Markets Truthcoin.Blocks Truthcoin.Settlement
open Truthcoin.Apply Truthcoin.Connect Truthcoin.ConnectTrace Truthcoin.BlockChecks
open Truthcoin.Disconnect Truthcoin.BlockRun Truthcoin.MarketRecords Truthcoin.TagConnect
open Truthcoin.AddressIndex Truthcoin.ListedMarkets Truthcoin.ListedRuns Truthcoin.UndoTables
open Truthcoin.ClaimRuns Truthcoin.Commitments Truthcoin.TwoWayPeg Truthcoin.SlippageCheck
open Truthcoin.Ledgers Truthcoin.Ledgers.Ledger Truthcoin.ShareBooks Truthcoin.ShareWrites
open Truthcoin.ShareSettlements Truthcoin.ShareUndo

variable {F : Type} {L : Library F} {T : Tags} {s s' : State F}

theorem shares_of_absent {db : MarketsDatabase F} {key : PositionKey}
    (h : (bookOf db).state key.marketId = none) : (bookOf db).shares key = none := by
  have hnone : db.getMarket key.marketId = none := Option.map_eq_none_iff.mp h
  show (db.getMarket key.marketId).bind _ = none
  rw [hnone, Option.bind_none]

theorem backPosts_eq {trades : List Trade}
    (hbounded : ∀ trade ∈ trades, i64Min < trade.shares.val) :
    backPosts trades = back (posts trades) := by
  rw [back, posts, List.map_map]
  refine List.map_congr_left fun trade htrade => ?_
  rw [backAmount_eq (hbounded trade htrade)]
  rfl

/-- Taking back what a block has written leads to the book before it. -/
theorem undo_written {db : MarketsDatabase F} {markets : List (Market F)} {trades : List Trade}
    {txs : List (Transaction F)}
    (hcreated : ∀ marketId, marketId ∈ txs.flatMap (createdId L T) ↔
      marketId ∈ markets.map Market.id)
    (habsent : ∀ market ∈ markets, (bookOf db).state market.id = none)
    (hfresh : ∀ market ∈ markets, Fresh market)
    (htrades : (txs.filterMap tradeIn).Perm trades)
    (hbounded : ∀ trade ∈ trades, i64Min < trade.shares.val) :
    (undoTxs L T txs (((create (bookOf db) markets).trade (issuedBy (posts trades))).move
      (heldBy (posts trades)))).move (heldBy (backPosts (txs.filterMap tradeIn))) =
        bookOf db := by
  have hback : backPosts (txs.filterMap tradeIn) = back (posts (txs.filterMap tradeIn)) :=
    backPosts_eq fun trade htrade => hbounded trade (htrades.mem_iff.mp htrade)
  have hposts : (posts (txs.filterMap tradeIn)).Perm (posts trades) := htrades.map _
  have hissued : issuedBy (backPosts (txs.filterMap tradeIn)) =
      fun key => -issuedBy (posts trades) key := by
    funext key
    rw [hback, issuedBy_back, issuedBy_perm hposts]
  have hheld : heldBy (backPosts (txs.filterMap tradeIn)) =
      fun a key => -heldBy (posts trades) a key := by
    funext a key
    rw [hback, heldBy_back, heldBy_perm hposts]
  rw [undoTxs, hissued, hheld]
  refine ShareBook.ext ?_ ?_ ?_
  · funext marketId
    show (if marketId ∈ txs.flatMap (createdId L T) then none
      else (create (bookOf db) markets).state marketId) = (bookOf db).state marketId
    rw [state_create hfresh]
    by_cases hmem : marketId ∈ markets.map Market.id
    · rw [if_pos ((hcreated marketId).mpr hmem)]
      obtain ⟨market, hmarket, rfl⟩ := List.mem_map.mp hmem
      exact (habsent market hmarket).symm
    · rw [if_neg fun hid => hmem ((hcreated marketId).mp hid), if_neg hmem]
  · funext key
    show (if key.marketId ∈ txs.flatMap (createdId L T) then none
      else (((create (bookOf db) markets).shares key).map _).map _) = (bookOf db).shares key
    by_cases hmem : key.marketId ∈ markets.map Market.id
    · rw [if_pos ((hcreated key.marketId).mpr hmem)]
      obtain ⟨market, hmarket, hid⟩ := List.mem_map.mp hmem
      exact (shares_of_absent (hid ▸ habsent market hmarket)).symm
    · rw [if_neg fun hid => hmem ((hcreated key.marketId).mp hid)]
      rcases shares_create markets (bookOf db) key with ⟨hsame, -⟩ | ⟨market, hmarket, hid, -⟩
      · rw [hsame]
        cases (bookOf db).shares key with
        | none => rfl
        | some n => exact congrArg some (add_neg_cancel_right _ _)
      · exact absurd (hid ▸ List.mem_map_of_mem hmarket) hmem
  · funext a key
    show (create (bookOf db) markets).held a key + heldBy (posts trades) a key +
      -heldBy (posts trades) a key = _
    rw [held_create]
    exact add_neg_cancel_right _ _

section

variable [F64 F] [DecidableEq F] {config : DecisionConfig} {archive : Archive} {block : Block F}
  {t : Trace F}

theorem undoneTxs_of_connects {height : Nat} (ht : Connects L config archive s block t)
    (hskipped : s'.skippedTxIndicesUndo[height]?.getD [] = t.applied.skipped) :
    undoneTxs s' block.body height = (t.txs.map FilledTransaction.transaction).reverse := by
  have hpre := prevalidated_of_prevalidate ht.prevalidated
  rw [undoneTxs, hskipped, Trace.txs, notSkipped, ← hpre.map_transaction, List.zipIdx_map,
    List.filter_map, List.map_map, List.map_map]
  rfl

theorem shares_of_connects (hs : Tagged T s) (hkeyed : Keyed s.markets)
    (hshares : SharesHeld s.markets) (ht : Connects L config archive s block t) :
    SharesHeld (t.finished L block).markets ∧
      (∀ entry ∈ t.settled, ∀ p ∈ entry.payoutSummary.payouts, 0 < p.sharesRedeemed.val) ∧
      undoBook L T t.settled (t.txs.map FilledTransaction.transaction).reverse
        (bookOf (t.finished L block).markets) = bookOf s.markets := by
  have hwritten := sharesHeld_written hshares hkeyed ht.toPrepares
  have hcounted : SharesHeld t.counted.markets := hwritten.congr rfl rfl
  have hkeyed' : Keyed t.counted.markets :=
    keyed_of_markets ((keyed_applied hkeyed ht.applied).writeMarkets ht.written) rfl
  have hsettled := settled_transitionMarkets hcounted hkeyed' ht.paid
  obtain ⟨hfresh, habsent⟩ := creations_fresh ht.toPrepares
  refine ⟨hsettled.shares, hsettled.positive, ?_⟩
  have hback : unsettleAll (bookOf (t.finished L block).markets) t.settled =
      bookOf t.written := hsettled.back.trans (bookOf_congr rfl rfl)
  rw [undoBook, hback, (bookOf_written hshares hkeyed ht.toPrepares).2]
  refine undo_written ?_ habsent hfresh ?_ fun trade htrade =>
    (tradable_of_connects ht.toPrepares trade htrade).bounded
  · intro marketId
    rw [creations_of_txs hs ht, List.mem_flatMap, List.mem_flatMap]
    simp only [List.mem_reverse, List.mem_map, exists_exists_and_eq_and]
  · rw [appliedTrades, List.filterMap_reverse, List.filterMap_map]
    exact List.reverse_perm _

end

/-- The undo rows of a state lead from a book back over connected blocks, newest first: to the
book of the state that each block was connected in. -/
def LeadsBack (L : Library F) (T : Tags) (s : State F) :
    List (State F × Block F) → ShareBook → Prop
  | [], _ => True
  | c :: older, b =>
      (ShareBooks.bookOf c.1.markets).ledger.Balanced ∧
      (∀ entry ∈ s.settlementUndo[older.length]?.getD [],
        ∀ p ∈ entry.payoutSummary.payouts, 0 < p.sharesRedeemed.val) ∧
      undoBook L T (s.settlementUndo[older.length]?.getD [])
        (undoneTxs s c.2.body older.length) b = bookOf c.1.markets ∧
      LeadsBack L T s older (bookOf c.1.markets)

theorem LeadsBack.congr {connected : List (State F × Block F)} {b : ShareBook}
    (h : LeadsBack L T s connected b)
    (hrows : ∀ height < connected.length, s'.settlementUndo[height]? = s.settlementUndo[height]?)
    (hskipped : ∀ height < connected.length,
      s'.skippedTxIndicesUndo[height]? = s.skippedTxIndicesUndo[height]?) :
    LeadsBack L T s' connected b := by
  induction connected generalizing b with
  | nil => trivial
  | cons c older ih =>
      obtain ⟨hbalanced, hpositive, hback, holder⟩ := h
      have hlt : older.length < (c :: older).length := Nat.lt_succ_self _
      have hundone : undoneTxs s' c.2.body older.length = undoneTxs s c.2.body older.length := by
        rw [undoneTxs, undoneTxs, hskipped _ hlt]
      refine ⟨hbalanced, ?_, ?_, ih holder ?_ ?_⟩
      · rw [hrows _ hlt]
        exact hpositive
      · rw [hrows _ hlt, hundone]
        exact hback
      · exact fun height hheight => hrows height (hheight.trans hlt)
      · exact fun height hheight => hskipped height (hheight.trans hlt)

theorem sharesHeld_empty : SharesHeld (MarketsDatabase.empty F) := by
  constructor
  · intro a key amount hamount
    simp [ShareAccounts.positionsOf, MarketsDatabase.getUserShareAccount,
      MarketsDatabase.empty] at hamount
  · have hheld : ∀ a key, (bookOf (MarketsDatabase.empty F)).held a key = 0 := by
      intro a key
      simp [bookOf, ShareAccounts.amountAt, ShareAccounts.positionsOf,
        MarketsDatabase.getUserShareAccount, MarketsDatabase.empty, I64.zero]
    refine ⟨fun key => finite_held _ key, fun key => ?_⟩
    show _ = ∑ᶠ a, (bookOf (MarketsDatabase.empty F)).held a key
    simp only [hheld, finsum_zero]
    simp [ShareBook.ledger, bookOf, MarketsDatabase.getMarket, MarketsDatabase.empty]

/-- The shares of a state are held, and its undo rows lead back over its blocks. -/
structure SharesKept (L : Library F) (T : Tags) (connected : List (State F × Block F))
    (s : State F) : Prop where
  held : SharesHeld s.markets
  back : LeadsBack L T s connected (bookOf s.markets)

section

variable [F64 F] [DecidableEq F] {config : DecisionConfig} {archive : Archive} {block : Block F}
  {connected older : List (State F × Block F)} {c : State F × Block F}

theorem SharesKept.connect (hkept : SharesKept L T connected s) (hs : Tagged T s)
    (hkeyed : Keyed s.markets) (hheight : s.height = tipHeight (connected.map Prod.snd))
    (hrow : s.settlementUndo[connected.length]?.getD [] = [])
    (hskipped : s.skippedTxIndicesUndo[connected.length]?.getD [] = [])
    (h : applyBlock L config archive s block = .ok s') :
    SharesKept L T ((s, block) :: connected) s' := by
  obtain ⟨t, ht, rfl⟩ := connects_of_applyBlock h
  have hlength : t.height = connected.length := by
    rw [height_of_prepares hheight ht.toPrepares, List.length_map]
  obtain ⟨hheld, hpositive, hback⟩ := shares_of_connects hs hkeyed hkept.held ht
  have hsettled : (t.finished L block).settlementUndo[connected.length]?.getD [] = t.settled := by
    rw [settlementUndo_finished ht, hlength, getD_putUndo hrow]
  have hundone : undoneTxs (t.finished L block) block.body connected.length =
      (t.txs.map FilledTransaction.transaction).reverse := by
    refine undoneTxs_of_connects ht ?_
    rw [finished_skippedTxIndicesUndo ht, hlength, getD_putUndo hskipped]
  refine ⟨hheld, hkept.held.balanced, ?_, ?_, hkept.back.congr ?_ ?_⟩
  · rw [hsettled]
    exact hpositive
  · rw [hsettled, hundone]
    exact hback
  · intro height hlt
    rw [settlementUndo_finished ht, lookup_putUndo_ne (by omega)]
  · intro height hlt
    rw [finished_skippedTxIndicesUndo ht, lookup_putUndo_ne (by omega)]

theorem SharesKept.disconnect {header : Header} (hkept : SharesKept L T (c :: older) s)
    (hs : Tagged T s) (hkeyed : Keyed s.markets) (hheight : s.height = some older.length)
    (hrows : s'.settlementUndo = s.settlementUndo.erase older.length)
    (hundone : TablesUndone s c.2.body older.length s')
    (h : disconnectTip L s header c.2.body = .ok s') : SharesKept L T older s' := by
  obtain ⟨hbalanced, hpositive, hback, holder⟩ := hkept.back
  obtain ⟨hpositive', hbook⟩ :=
    bookOf_disconnectTip hs hkeyed hkept.held.positive hheight hpositive h
  rw [hback] at hbook
  refine ⟨⟨hpositive', by rwa [hbook]⟩, ?_⟩
  rw [hbook]
  refine holder.congr ?_ ?_
  · intro height hlt
    rw [hrows, lookup_erase, if_neg hlt.ne]
  · intro height hlt
    rw [hundone.skipped, if_neg hlt.ne]

variable {lib : WithdrawalBundle.BundleLib} {ok : State F → Block F → Prop}
  {okPeg : State F → TwoWayPegData → Prop} {chain : List (Block F)}

omit [F64 F] [DecidableEq F] in
theorem absent_row (h : Listed L T chain s) : s.settlementUndo[chain.length]?.getD [] = [] := by
  cases hrow : s.settlementUndo[chain.length]? with
  | none => rfl
  | some entries => exact absurd (h.rows _ _ hrow) (lt_irrefl _)

theorem sharesKept_of_run (hT : TagsOf L T)
    (hdeposits : ∀ s data, okPeg s data → DepositsTagged T data)
    (hrun : Run L config lib ok okPeg chain s) :
    ∃ connected, connected.map Prod.snd = chain ∧ SharesKept L T connected s := by
  induction hrun with
  | start => exact ⟨[], rfl, sharesHeld_empty, trivial⟩
  | connect archive hrun _ h ih =>
      obtain ⟨connected, rfl, hkept⟩ := ih
      obtain ⟨claimed, hclaimed, -, hclaims⟩ := claimsKept_of_run hrun
      have hlength : claimed.length = connected.length := by
        rw [← List.length_map Prod.snd, hclaimed, List.length_map]
      refine ⟨(_, _) :: connected, rfl, hkept.connect (tagged_of_run hT hdeposits hrun)
        (keyed_of_run hrun) (height_of_run hrun) ?_ (hclaims.above _ hlength.le) h⟩
      have habsent := absent_row (listed_of_run hT hdeposits hrun)
      rwa [List.length_map] at habsent
  | disconnect hrun h ih =>
      obtain ⟨connected, hchain, hkept⟩ := ih
      obtain ⟨c, older, rfl, rfl, rfl⟩ := List.map_eq_cons_iff.mp hchain
      have hlisted := listed_of_run hT hdeposits hrun
      have htagged := tagged_of_run hT hdeposits hrun
      obtain ⟨height, hundone⟩ := tablesUndone_of_disconnectTip h
      have hheight : some height = some (older.map Prod.snd).length :=
        hundone.tip.symm.trans (height_of_run hrun)
      rw [List.length_map] at hheight
      obtain rfl := Option.some.inj hheight
      obtain ⟨-, -, hrows⟩ := disconnectTip_undone htagged hlisted.sound
        (hlisted.stored older.length) hundone.tip h
      exact ⟨older, rfl, hkept.disconnect htagged (keyed_of_run hrun) hundone.tip hrows hundone h⟩
  | connectPeg _ _ h ih | disconnectPeg _ h ih =>
      obtain ⟨connected, hchain, hkept⟩ := ih
      obtain ⟨p, -, h⟩ := bind_eq_ok_iff.mp h
      rw [← Except.ok.inj h]
      exact ⟨connected, hchain, hkept.held, hkept.back.congr (fun _ _ => rfl) fun _ _ => rfl⟩

/-- In every state that a node reaches by connecting and disconnecting blocks and peg data, the
positions of all accounts in an outcome of a trading market add up to the shares of the outcome,
and no account stores a position that is zero or negative. -/
theorem positions_of_run (hL : CollisionFree L) {main : MainOutputs}
    (hrun : Run L config lib (fun _ _ => True) (fun _ data => DepositsFrom main data) chain s) :
    (∀ marketId market, s.markets.getMarket marketId = some market →
      market.marketState = .trading →
        ∀ outcomeIndex shares, market.shares[outcomeIndex]? = some shares →
          (s.markets.shareAccounts.toList.map fun row =>
            (row.2.getPosition ⟨marketId, outcomeIndex⟩).val).sum = shares.val) ∧
      ∀ (address : Address) (account : ShareAccount),
        s.markets.shareAccounts[address]? = some account →
          ∀ (position : PositionKey) (amount : I64),
            account.positions[position]? = some amount → 0 < amount.val := by
  obtain ⟨connected, -, hkept⟩ := sharesKept_of_run (tagsOf_tags hL main)
    (fun _ _ hdata => depositsTagged_of_depositsFrom hL hdata) hrun
  constructor
  · intro marketId market hmarket htrading outcomeIndex shares hshares
    exact hkept.held.sum_positions hmarket htrading hshares
  · intro address account haccount position amount hamount
    refine hkept.held.positive address position amount ?_
    rw [ShareAccounts.positionsOf, MarketsDatabase.getUserShareAccount, haccount]
    exact hamount

end

open Truthcoin.SampleMarkets Truthcoin.SampleChain

/-- The market of a state that trades with some shares of its first outcome. -/
def tradesWith (s : State Rat) (shares : Int) : Bool :=
  (s.markets.getMarket (marketNamed "")).elim false fun market =>
    market.marketState = .trading ∧ (market.shares[0]?).map Subtype.val = some shares

theorem tradesWith_iff {s : State Rat} {shares : Int} (h : tradesWith s shares = true) :
    ∃ market amount, s.markets.getMarket (marketNamed "") = some market ∧
      market.marketState = .trading ∧ market.shares[0]? = some amount ∧ amount.val = shares := by
  unfold tradesWith at h
  cases hmarket : s.markets.getMarket (marketNamed "") with
  | none => simp [hmarket] at h
  | some market =>
      rw [hmarket, Option.elim_some, decide_eq_true_eq] at h
      obtain ⟨amount, hamount, rfl⟩ := Option.map_eq_some_iff.mp h.2
      exact ⟨market, amount, rfl, h.1, hamount, rfl⟩

/-- The owner has ten shares, and none once the block is disconnected. -/
theorem positions_of_run_reverted :
    ∃ s s' : State Rat,
      Run marketLibrary marketConfig sampleBundleLib (fun _ _ => True)
        (fun _ data => DepositsFrom sampleMain data)
        [marketBlock 3 tradeTxs, marketBlock 2 createTxs, marketBlock 1 claimTxs,
          marketBlock 0 []] s ∧
      Run marketLibrary marketConfig sampleBundleLib (fun _ _ => True)
        (fun _ data => DepositsFrom sampleMain data)
        [marketBlock 2 createTxs, marketBlock 1 claimTxs, marketBlock 0 []] s' ∧
      (s.markets.shareAccounts.toList.map fun row =>
        (row.2.getPosition ⟨marketNamed "", 0⟩).val).sum = 10 ∧
      (s'.markets.shareAccounts.toList.map fun row =>
        (row.2.getPosition ⟨marketNamed "", 0⟩).val).sum = 0 := by
  have hcomputed : holds revertedTrades (fun states =>
      tradesWith states.1 10 && tradesWith states.2 0) = true := by
    decide +kernel
  obtain ⟨⟨s, s'⟩, hrun, htest⟩ := holds_iff.mp hcomputed
  obtain ⟨htraded, hreverted⟩ := Bool.and_eq_true_iff.mp htest
  obtain ⟨hbefore, hafter⟩ := run_of_revertedTrades hrun
  obtain ⟨market, amount, hmarket, htrading, hshares, hten⟩ := tradesWith_iff htraded
  obtain ⟨market', amount', hmarket', htrading', hshares', hzero⟩ := tradesWith_iff hreverted
  have hfound := positions_of_run (collisionFree_knownLibrary _) hbefore
  have hgone := positions_of_run (collisionFree_knownLibrary _) hafter
  exact ⟨_, _, hbefore, hafter, (hfound.1 _ _ hmarket htrading _ _ hshares).trans hten,
    (hgone.1 _ _ hmarket' htrading' _ _ hshares').trans hzero⟩

end Truthcoin.ShareRuns
