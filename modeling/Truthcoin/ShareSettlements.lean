import Truthcoin.ShareBooks

/-!
# Shares while markets are settled

A settlement closes its market on the ledger of shares and positions: the positions in the
market are redeemed, and it trades no longer. The undo entries of a block give the positions
back and restore the records.
-/

namespace Truthcoin.ShareSettlements

open Truthcoin.Types Truthcoin.Table Truthcoin.Fallible Truthcoin.Arithmetic
open Truthcoin.Markets Truthcoin.Blocks Truthcoin.Settlement Truthcoin.Apply
open Truthcoin.Disconnect Truthcoin.MarketSteps Truthcoin.SettlementSteps
open Truthcoin.MarketRecords
open Truthcoin.Ledgers Truthcoin.Ledgers.Ledger Truthcoin.ShareAccounts Truthcoin.ShareBooks

variable {F : Type} {L : Library F} {db db' : MarketsDatabase F} {s s' : State F}
  {market : Market F} {height : Nat}

/-- The positions in a market as postings. -/
def positionPosts (db : MarketsDatabase F) (marketId : MarketId) :
    List (Address × PositionKey × ℤ) :=
  db.shareAccounts.toList.flatMap fun row =>
    (row.2.positions.toList.filter fun p => p.1.marketId = marketId).map fun p =>
      (row.1, p.1, p.2.val)

theorem heldBy_positionPosts (db : MarketsDatabase F) (marketId : MarketId) (a : Address)
    (key : PositionKey) :
    heldBy (positionPosts db marketId) a key =
      if key.marketId = marketId then (bookOf db).held a key else 0 := by
  have hrow : ∀ row : Address × ShareAccount,
      heldBy ((row.2.positions.toList.filter fun p => p.1.marketId = marketId).map fun p =>
        (row.1, p.1, p.2.val)) a key =
        if row.1 = a then
          if key.marketId = marketId then amountAt row.2.positions key else 0
        else 0 := by
    intro row
    rw [heldBy, List.map_map, sum_filter_map]
    by_cases ha : row.1 = a
    · rw [if_pos ha]
      by_cases hkey : key.marketId = marketId
      · rw [if_pos hkey]
        refine (congrArg List.sum (List.map_congr_left ?_)).trans
          ((sum_toList_row row.2.positions key Subtype.val).trans ?_)
        · intro p _
          by_cases hp : p.1 = key
          · simp [hp, ha, hkey]
          · simp [hp]
        · unfold amountAt
          cases row.2.positions[key]? with
          | none => rfl
          | some _ => rfl
      · rw [if_neg hkey]
        refine List.sum_eq_zero ?_
        intro n hn
        obtain ⟨p, -, rfl⟩ := List.mem_map.mp hn
        split
        · rename_i hp
          refine if_neg ?_
          rintro ⟨-, rfl⟩
          exact hkey hp
        · rfl
    · rw [if_neg ha]
      refine List.sum_eq_zero ?_
      intro n hn
      obtain ⟨p, -, rfl⟩ := List.mem_map.mp hn
      split
      · exact if_neg fun hand => ha hand.1
      · rfl
  have hheld : db.shareAccounts[a]?.elim 0 (fun account : ShareAccount =>
      if key.marketId = marketId then amountAt account.positions key else 0) =
        if key.marketId = marketId then (bookOf db).held a key else 0 := by
    show _ = if key.marketId = marketId then amountAt (positionsOf db a) key else 0
    rw [positionsOf, MarketsDatabase.getUserShareAccount]
    cases db.shareAccounts[a]? with
    | none => exact (ite_self 0).symm
    | some account => rfl
  rw [positionPosts, heldBy_flatMap, List.map_congr_left fun row _ => hrow row]
  exact (sum_toList_row _ _ _).trans hheld

theorem positive_of_positionPosts {marketId : MarketId} (hdb : Positive db)
    {p : Address × PositionKey × ℤ} (hp : p ∈ positionPosts db marketId) : 0 < p.2.2 := by
  obtain ⟨row, hrow, hp⟩ := List.mem_flatMap.mp hp
  obtain ⟨position, hposition, rfl⟩ := List.mem_map.mp hp
  refine hdb row.1 position.1 position.2 ?_
  rw [positionsOf, MarketsDatabase.getUserShareAccount, mem_toList_iff.mp hrow]
  exact mem_toList_iff.mp (List.mem_filter.mp hposition).1

def payoutPosting (p : SharePayoutRecord F) : Address × PositionKey × ℤ :=
  (p.address, ⟨p.marketId, p.outcomeIndex⟩, p.sharesRedeemed.val)

/-- The positions that a list of payouts redeems. -/
def redeemed (payouts : List (SharePayoutRecord F)) : Address → PositionKey → Int :=
  heldBy (payouts.map payoutPosting)

theorem payouts_move {payouts : List (SharePayoutRecord F)}
    {f : MarketsDatabase F → SharePayoutRecord F → Except Error (MarketsDatabase F)}
    {amount : SharePayoutRecord F → Int}
    (hstep : ∀ p ∈ payouts, ∀ d d', f d p = .ok d' →
      ∃ t, Moves (positionsOf d p.address) ⟨p.marketId, p.outcomeIndex⟩ (amount p) t ∧
        d' = withPositions d p.address t height)
    (hdb : Positive db) (h : payouts.foldlM f db = .ok db') :
    Positive db' ∧ bookOf db' = (bookOf db).move (heldBy (payouts.map fun p =>
      (p.address, (⟨p.marketId, p.outcomeIndex⟩ : PositionKey), amount p))) := by
  have hmove : ∀ p ∈ payouts, ∀ d d', Positive d → f d p = .ok d' →
      Positive d' ∧ bookOf d' = (bookOf d).move fun a key =>
        if p.address = a ∧ (⟨p.marketId, p.outcomeIndex⟩ : PositionKey) = key then amount p
        else 0 := by
    intro p hp d d' hd hrun
    obtain ⟨t, hmoves, rfl⟩ := hstep p hp d d' hrun
    exact ⟨hd.withPositions hmoves height, bookOf_withPositions hmoves height⟩
  obtain ⟨hdb', hmoves⟩ := foldlM_moves hmove hdb h
  refine ⟨hdb', hmoves.trans (congrArg (bookOf db).move ?_)⟩
  funext a key
  rw [heldBy, List.map_map]
  rfl

theorem redeem_moves {payouts : List (SharePayoutRecord F)}
    (hpos : ∀ p ∈ payouts, 0 < p.sharesRedeemed.val) (hdb : Positive db)
    (h : payouts.foldlM (redeem height) db = .ok db') :
    Positive db' ∧ bookOf db' = (bookOf db).move fun a key => -redeemed payouts a key := by
  obtain ⟨hdb', hmoved⟩ := payouts_move
    (fun p hp _ _ hstep => (removeSharesFromAccount_iff (hpos p hp)).mp hstep) hdb h
  refine ⟨hdb', hmoved.trans (congrArg (bookOf db).move ?_)⟩
  funext a key
  rw [redeemed, ← heldBy_back, back, List.map_map]
  rfl

theorem giveBack_moves {payouts : List (SharePayoutRecord F)}
    (hpos : ∀ p ∈ payouts, 0 < p.sharesRedeemed.val) (hdb : Positive db)
    (h : payouts.foldlM (giveBack height) db = .ok db') :
    Positive db' ∧ bookOf db' = (bookOf db).move (redeemed payouts) :=
  payouts_move (fun p hp _ _ hstep => (addSharesToAccount_iff (hpos p hp)).mp hstep) hdb h

theorem postings_reclaimRoundup [F64 F] (acc : List (SharePayoutRecord F) × Nat) (i : Nat) :
    (reclaimRoundup acc i).1.map payoutPosting = acc.1.map payoutPosting := by
  unfold reclaimRoundup
  split
  · rename_i p _ hp
    split
    · refine List.ext_getElem? fun j => ?_
      rw [List.getElem?_map, List.getElem?_map, List.getElem?_set]
      split
      · rename_i hij
        rw [← hij, hp]
        split
        · rfl
        · rename_i hlt
          exact absurd (List.getElem?_eq_some_iff.mp hp).1 hlt
      · rfl
    · rfl
  · rfl

theorem postings_reclaimPayoutRoundups [F64 F] (payouts : List (SharePayoutRecord F))
    (excess : Nat) :
    (reclaimPayoutRoundups payouts excess).map payoutPosting = payouts.map payoutPosting :=
  List.foldlRecOn
    (motive := fun acc : List (SharePayoutRecord F) × Nat =>
      acc.1.map payoutPosting = payouts.map payoutPosting)
    _ _ rfl fun acc hacc i _ => (postings_reclaimRoundup acc i).trans hacc

theorem flatMap_shareholders (db : MarketsDatabase F) (marketId : MarketId) :
    (db.getShareholdersForMarket marketId).flatMap (fun holder => holder.2.map fun position =>
      (holder.1, (⟨marketId, position.1⟩ : PositionKey), position.2.val)) =
      positionPosts db marketId := by
  rw [MarketsDatabase.getShareholdersForMarket, positionPosts]
  generalize db.shareAccounts.toList = rows
  induction rows with
  | nil => rfl
  | cons row rows ih =>
      have hrow : ((row.2.positions.toList.filter fun p => p.1.marketId = marketId).map fun p =>
          (p.1.outcomeIndex, p.2)).map (fun position =>
            (row.1, (⟨marketId, position.1⟩ : PositionKey), position.2.val)) =
          (row.2.positions.toList.filter fun p => p.1.marketId = marketId).map fun p =>
            (row.1, p.1, p.2.val) := by
        rw [List.map_map]
        refine List.map_congr_left fun p hp => ?_
        have hid : p.1.marketId = marketId := of_decide_eq_true (List.mem_filter.mp hp).2
        rw [Function.comp_apply, ← hid]
      rw [List.map_cons, List.filter_cons, List.flatMap_cons, ← ih]
      split
      · rw [List.flatMap_cons, hrow]
      · rename_i hempty
        have hnil : (row.2.positions.toList.filter fun p => p.1.marketId = marketId).map (fun p =>
            (p.1.outcomeIndex, p.2)) = [] := by simpa using hempty
        rw [← hrow, hnil, List.map_nil, List.nil_append]

theorem postings_of_redemptions [F64 F] {treasurySats : Nat}
    {result : List (SharePayoutRecord F) × Nat}
    (h : calculateShareRedemptions s market treasurySats = .ok result) :
    result.1.map payoutPosting = positionPosts s.markets market.id := by
  simp only [calculateShareRedemptions, bind_eq_ok_iff] at h
  obtain ⟨payouts, hpayouts, total, -, h⟩ := h
  have hresult : result.1.map payoutPosting = payouts.flatten.map payoutPosting := by
    split at h
    · obtain ⟨total', -, h⟩ := bind_eq_ok_iff.mp h
      rw [← Except.ok.inj h]
      exact postings_reclaimPayoutRoundups _ _
    · rw [← Except.ok.inj h]
  have hholders : payouts.map (List.map payoutPosting) =
      (s.markets.getShareholdersForMarket market.id).map fun holder =>
        holder.2.map fun position =>
          (holder.1, (⟨market.id, position.1⟩ : PositionKey), position.2.val) := by
    refine map_of_mapM ?_ hpayouts
    intro holder _ records hrecords
    refine map_of_mapM ?_ hrecords
    intro position _ record hrecord
    simp only [sharePayout, bind_eq_ok_iff, Except.ok.injEq] at hrecord
    obtain ⟨_, -, rfl⟩ := hrecord
    rfl
  rw [hresult, List.map_flatten, hholders, ← List.flatMap_def]
  exact flatMap_shareholders s.markets market.id

/-- The book before a settlement. -/
def unsettle (b : ShareBook) (entry : SettlementUndoEntry F) : ShareBook :=
  (b.move (redeemed entry.payoutSummary.payouts)).put entry.preSettlementMarket.id
    (some entry.preSettlementMarket.marketState) (outcomeShares entry.preSettlementMarket)

/-- The book before the settlements of a block. -/
def unsettleAll (b : ShareBook) (entries : List (SettlementUndoEntry F)) : ShareBook :=
  entries.reverse.foldl unsettle b

theorem unsettleAll_concat (b : ShareBook) (entries : List (SettlementUndoEntry F))
    (entry : SettlementUndoEntry F) :
    unsettleAll b (entries ++ [entry]) = unsettleAll (unsettle b entry) entries := by
  rw [unsettleAll, List.reverse_append, List.foldl_append]
  rfl

/-- The book once a market is settled. -/
def settle (b : ShareBook) (marketId : MarketId) (shares : Nat → Option Int)
    (positions : Address → PositionKey → Int) : ShareBook :=
  (b.move fun a key => -positions a key).put marketId (some .settled) shares

theorem ledger_settle (b : ShareBook) (marketId : MarketId) (shares : Nat → Option Int) :
    (settle b marketId shares fun a key =>
      if key.marketId = marketId then b.held a key else 0).ledger =
      b.ledger.close fun key => key.marketId = marketId := by
  refine Ledger.ext ?_ ?_
  · funext key
    show (if (if key.marketId = marketId then some MarketState.settled
        else b.state key.marketId) = some .trading then
      Option.getD (if key.marketId = marketId then _ else _) 0 else 0) =
        if key.marketId = marketId then 0 else _
    by_cases hkey : key.marketId = marketId
    · simp [hkey]
    · simp only [if_neg hkey]
      rfl
  · funext a key
    show b.held a key + -(if key.marketId = marketId then b.held a key else 0) =
      if key.marketId = marketId then 0 else b.held a key
    split
    · exact add_neg_cancel _
    · rw [neg_zero, add_zero]

/-- A settlement moves the book, and its undo entry records how. -/
structure Settles (b : ShareBook) (market : Market F) (entry : SettlementUndoEntry F)
    (b' : ShareBook) : Prop where
  market_eq : entry.preSettlementMarket = market
  positive : ∀ p ∈ entry.payoutSummary.payouts, 0 < p.sharesRedeemed.val
  positions : redeemed entry.payoutSummary.payouts =
    fun a key => if key.marketId = market.id then b.held a key else 0
  book : b' = settle b market.id (outcomeShares market) (redeemed entry.payoutSummary.payouts)

theorem settles_of_settleMarket [F64 F] {entry : SettlementUndoEntry F}
    (hs : Positive s.markets) (h : settleMarket L s market height = .ok (s', entry)) :
    Positive s'.markets ∧ Settles (bookOf s.markets) market entry (bookOf s'.markets) := by
  obtain ⟨priced, settled, db, hpriced, hsummary, hredeem, hsettled, hmarkets, hentry, -⟩ :=
    settleMarket_eq_ok h
  simp only [Market.updateState, bind_eq_ok_iff, Except.ok.injEq] at hpriced hsettled
  obtain ⟨_, -, _, -, rfl⟩ := hpriced
  obtain ⟨_, -, _, -, rfl⟩ := hsettled
  simp only [calculateSharePayouts, bind_eq_ok_iff, okOr_eq_ok_iff, Except.ok.injEq] at hsummary
  obtain ⟨treasury, -, result, hresult, _, -, _, -, _, -, _, -, hsummary⟩ := hsummary
  have hpostings : entry.payoutSummary.payouts.map payoutPosting =
      positionPosts s.markets market.id := by
    rw [← hsummary]
    exact (postings_of_redemptions hresult).trans rfl
  have hpositive : ∀ p ∈ entry.payoutSummary.payouts, 0 < p.sharesRedeemed.val := by
    intro p hp
    exact positive_of_positionPosts hs (hpostings ▸ List.mem_map_of_mem hp)
  obtain ⟨hdb, hmoved⟩ := redeem_moves hpositive hs hredeem
  obtain ⟨-, hmarkets⟩ := updateMarket_eq_ok_iff.mp hmarkets
  have haccounts : s'.markets.shareAccounts = db.shareAccounts := by
    rw [hmarkets, writeMarketAndIndexes_accounts]
    rfl
  have hrecords := congrArg MarketsDatabase.markets hmarkets
  rw [writeMarketAndIndexes_markets] at hrecords
  have hbook : bookOf s'.markets = (bookOf db).put _ _ _ := bookOf_insert hrecords haccounts
  refine ⟨hdb.congr haccounts, ?_, hpositive, ?_, ?_⟩
  · rw [hentry]
  · funext a key
    rw [redeemed, hpostings, heldBy_positionPosts]
  · rw [hbook, hmoved]
    rfl

theorem Settles.ledger_eq {b b' : ShareBook} {entry : SettlementUndoEntry F}
    (h : Settles b market entry b') :
    b'.ledger = b.ledger.close fun key => key.marketId = market.id := by
  rw [h.book, h.positions]
  exact ledger_settle b market.id (outcomeShares market)

theorem Settles.unsettle_eq {b b' : ShareBook} {entry : SettlementUndoEntry F}
    (h : Settles b market entry b') :
    unsettle b' entry = b.put market.id (some market.marketState) (outcomeShares market) := by
  rw [h.book, unsettle, h.market_eq]
  refine ShareBook.ext ?_ ?_ ?_
  · funext marketId
    show (if marketId = market.id then _ else if marketId = market.id then _ else _) = ite _ _ _
    split
    · rfl
    · rfl
  · funext key
    show (if key.marketId = market.id then _ else if key.marketId = market.id then _ else _) =
      ite _ _ _
    split
    · rfl
    · rfl
  · funext a key
    exact neg_add_cancel_right _ _

/-- Records that are put back first may as well be put back last. -/
theorem unsettleAll_put {entries : List (SettlementUndoEntry F)}
    (hsame : ∀ entry ∈ entries, entry.preSettlementMarket.id = market.id →
      entry.preSettlementMarket = market) (b : ShareBook) :
    unsettleAll (b.put market.id (some market.marketState) (outcomeShares market)) entries =
      (unsettleAll b entries).put market.id (some market.marketState) (outcomeShares market) := by
  have hentry : ∀ entry ∈ entries, ∀ b : ShareBook,
      unsettle (b.put market.id (some market.marketState) (outcomeShares market)) entry =
        (unsettle b entry).put market.id (some market.marketState) (outcomeShares market) := by
    intro entry hmem b
    by_cases hid : entry.preSettlementMarket.id = market.id
    · rw [unsettle, unsettle, hsame entry hmem hid]
      refine ShareBook.ext ?_ ?_ rfl
      · funext marketId
        show ite _ _ (ite _ _ _) = ite _ _ (ite _ _ _)
        split
        · rfl
        · rfl
      · funext key
        show ite _ _ (ite _ _ _) = ite _ _ (ite _ _ _)
        split
        · rfl
        · rfl
    · refine ShareBook.ext ?_ ?_ rfl
      · funext marketId
        show ite _ _ (ite _ _ _) = ite _ _ (ite _ _ _)
        split
        · rename_i heq
          rw [if_neg (heq ▸ hid)]
        · rfl
      · funext key
        show ite _ _ (ite _ _ _) = ite _ _ (ite _ _ _)
        split
        · rename_i heq
          rw [if_neg (heq ▸ hid)]
        · rfl
  induction entries using List.reverseRecOn generalizing b with
  | nil => rfl
  | append_singleton entries entry ih =>
      rw [unsettleAll_concat, unsettleAll_concat, hentry entry (by simp),
        ih fun e he => hsame e (by simp [he])]
      exact fun e he => hentry e (by simp [he])

theorem put_stored (h : db.getMarket market.id = some market) :
    (bookOf db).put market.id (some market.marketState) (outcomeShares market) = bookOf db := by
  have hshares : ∀ i, outcomeShares market i = (outcomeShares market i).map (· + 0) := by
    intro i
    simp
  rw [put_eq_trade h rfl hshares]
  simp only [ite_self]
  exact ShareBook.trade_zero _

/-- What the settlements of a block leave: their undo entries lead back. -/
structure Settled (db db' : MarketsDatabase F) (entries : List (SettlementUndoEntry F)) : Prop where
  shares : SharesHeld db'
  stored : ∀ entry ∈ entries,
    db.getMarket entry.preSettlementMarket.id = some entry.preSettlementMarket
  positive : ∀ entry ∈ entries, ∀ p ∈ entry.payoutSummary.payouts, 0 < p.sharesRedeemed.val
  back : unsettleAll (bookOf db') entries = bookOf db

theorem settled_transitionMarkets [F64 F] {entries : List (SettlementUndoEntry F)}
    (hs : SharesHeld s.markets) (hkeyed : Keyed s.markets)
    (h : transitionAndPayoutResolvedMarkets L s height = .ok (s', entries)) :
    Settled s.markets s'.markets entries := by
  refine foldlM_preserves
    (P := fun acc : State F × List (SettlementUndoEntry F) => Settled s.markets acc.1.markets acc.2)
    ?_ h ⟨hs, by simp, by simp, rfl⟩
  rintro record hrecord ⟨s₁, es⟩ acc' hsettled hstep
  have hstored : s.markets.getMarket record.id = some record := by
    obtain ⟨marketId, -, hlookup⟩ := List.mem_filterMap.mp hrecord
    rw [hkeyed marketId record hlookup, hlookup]
  unfold transitionMarket at hstep
  split at hstep
  · obtain ⟨⟨s₂, entry⟩, hsettle, hstep⟩ := bind_eq_ok_iff.mp hstep
    rw [← Except.ok.inj hstep]
    obtain ⟨hpositive, hsettles⟩ := settles_of_settleMarket hsettled.shares.positive hsettle
    refine ⟨⟨hpositive, ?_⟩, ?_, ?_, ?_⟩
    · rw [hsettles.ledger_eq]
      exact hsettled.shares.balanced.close _
    · intro e he
      rcases List.mem_append.mp he with hold | hnew
      · exact hsettled.stored e hold
      · rw [List.mem_singleton.mp hnew, hsettles.market_eq]
        exact hstored
    · intro e he
      rcases List.mem_append.mp he with hold | hnew
      · exact hsettled.positive e hold
      · rw [List.mem_singleton.mp hnew]
        exact hsettles.positive
    · rw [unsettleAll_concat, hsettles.unsettle_eq, unsettleAll_put ?_, hsettled.back,
        put_stored hstored]
      intro e he hid
      have hlookup := hsettled.stored e he
      rw [hid] at hlookup
      exact Option.some.inj (hlookup.symm.trans hstored)
  · rw [← Except.ok.inj hstep]
    exact hsettled

theorem restoreMarketFunds_accounts (marketId : MarketId) (isFee : Bool)
    (utxo : Option (OutPoint × FilledOutput)) (s : State F) :
    (restoreMarketFunds marketId isFee utxo s).markets.shareAccounts = s.markets.shareAccounts := by
  unfold restoreMarketFunds
  split
  · rfl
  · rfl

theorem unsettle_of_revertSettlementEntry {entry : SettlementUndoEntry F}
    (hpositive : ∀ p ∈ entry.payoutSummary.payouts, 0 < p.sharesRedeemed.val)
    (hs : Positive s.markets) (h : revertSettlementEntry L height s entry = .ok s') :
    Positive s'.markets ∧ bookOf s'.markets = unsettle (bookOf s.markets) entry := by
  simp only [revertSettlementEntry, revertAutomaticSharePayouts_iff, bind_eq_ok_iff,
    Except.ok.injEq] at h
  obtain ⟨_, ⟨db, hdb, rfl⟩, rfl⟩ := h
  obtain ⟨hback, hmoved⟩ := giveBack_moves hpositive hs hdb
  constructor
  · refine hback.congr ?_
    rw [MarketsDatabase.restoreMarket, writeMarketAndIndexes_accounts,
      restoreMarketFunds_accounts, restoreMarketFunds_accounts]
  · rw [unsettle, ← hmoved]
    refine bookOf_insert ?_ ?_
    · rw [MarketsDatabase.restoreMarket, writeMarketAndIndexes_markets,
        restoreMarketFunds_markets, restoreMarketFunds_markets]
    · rw [MarketsDatabase.restoreMarket, writeMarketAndIndexes_accounts,
        restoreMarketFunds_accounts, restoreMarketFunds_accounts]

theorem unsettles_of_foldlM {entries : List (SettlementUndoEntry F)}
    (hpositive : ∀ entry ∈ entries, ∀ p ∈ entry.payoutSummary.payouts, 0 < p.sharesRedeemed.val)
    (hs : Positive s.markets) (h : entries.foldlM (revertSettlementEntry L height) s = .ok s') :
    Positive s'.markets ∧ bookOf s'.markets = entries.foldl unsettle (bookOf s.markets) := by
  induction entries generalizing s with
  | nil =>
      obtain rfl := Except.ok.inj h
      exact ⟨hs, rfl⟩
  | cons entry entries ih =>
      obtain ⟨s₁, hfirst, hrest⟩ := bind_eq_ok_iff.mp h
      obtain ⟨hs₁, hbook⟩ :=
        unsettle_of_revertSettlementEntry (hpositive entry List.mem_cons_self) hs hfirst
      rw [List.foldl_cons, ← hbook]
      exact ih (fun e he => hpositive e (List.mem_cons_of_mem _ he)) hs₁ hrest

theorem unsettles_of_undoSettlement
    (hpositive : ∀ entry ∈ s.settlementUndo[height]?.getD [],
      ∀ p ∈ entry.payoutSummary.payouts, 0 < p.sharesRedeemed.val)
    (hs : Positive s.markets) (h : undoSettlement L s height = .ok s') :
    Positive s'.markets ∧ bookOf s'.markets =
      unsettleAll (bookOf s.markets) (s.settlementUndo[height]?.getD []) := by
  unfold undoSettlement at h
  split at h
  · rename_i hnone
    obtain rfl := Except.ok.inj h
    rw [hnone]
    exact ⟨hs, rfl⟩
  · rename_i entries hentries
    obtain ⟨s₁, hrevert, h⟩ := bind_eq_ok_iff.mp h
    rw [hentries] at hpositive ⊢
    obtain ⟨hs₁, hbook⟩ := unsettles_of_foldlM
      (fun e he => hpositive e (List.mem_reverse.mp he)) hs hrevert
    rw [← Except.ok.inj h]
    exact ⟨hs₁, hbook⟩

end Truthcoin.ShareSettlements
