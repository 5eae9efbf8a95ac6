import Truthcoin.ListedMarkets
import Truthcoin.ShareBooks
import Truthcoin.SlippageCheck

/-!
# Shares while a block is connected

The trades of a block are posted to the ledger of shares and positions: a trade moves the
shares of its market and the position of its trader by the same amount. The markets that the
block creates have no shares yet.
-/

namespace Truthcoin.ShareWrites

open Truthcoin.Types Truthcoin.Table Truthcoin.Fallible Truthcoin.Arithmetic
open Truthcoin.Decisions Truthcoin.Markets Truthcoin.Blocks Truthcoin.Trading
open Truthcoin.Validation Truthcoin.Apply Truthcoin.ApplySteps Truthcoin.Connect
open Truthcoin.ConnectTrace Truthcoin.MarketSteps Truthcoin.MarketRecords
open Truthcoin.ListedMarkets Truthcoin.Ledgers Truthcoin.Ledgers.Ledger
open Truthcoin.ShareAccounts Truthcoin.ShareBooks Truthcoin.SlippageCheck

variable {F : Type} {db db' : MarketsDatabase F} {u u' : StateUpdate F}

def posts (trades : List Trade) : List (Address × PositionKey × ℤ) :=
  trades.map fun trade => (trade.trader, trade.position, trade.shares.val)

theorem heldBy_posts (txs : List (FilledTransaction F)) (a : Address) (key : PositionKey) :
    heldBy (posts (txs.filterMap tradeOf)) a key = positionChange ⟨a, key⟩ txs := by
  rw [heldBy, posts, List.map_map, positionChange, sum_filter_map]
  refine congrArg List.sum (List.map_congr_left ?_)
  intro trade _
  simp only [Function.comp_apply, ShareKey.mk.injEq]

theorem asI64_of_le {n : Nat} (h : (n : ℤ) ≤ i64Max) : (asI64 n).val = n := by
  norm_num [i64Max] at h
  unfold asI64
  dsimp only
  rw [Int.bmod_eq_of_le]
  · norm_num
  · norm_num
    omega

theorem asI64_sharesAbs {trade : Trade} (h : i64Min < trade.shares.val) :
    (asI64 trade.sharesAbs).val = |trade.shares.val| := by
  have hmax := trade.shares.property.2
  rw [asI64_of_le, Trade.sharesAbs, Int.natCast_natAbs]
  rw [Trade.sharesAbs, Int.natCast_natAbs, abs_le]
  norm_num [i64Min, i64Max] at h hmax ⊢
  omega

/-- What trades in one market add to one of its outcomes. -/
def tradedOutcome (trades : List (Nat × I64)) (outcomeIndex : Nat) : Int :=
  (trades.map fun trade => if trade.1 = outcomeIndex then trade.2.val else 0).sum

theorem issuedBy_posts (txs : List (FilledTransaction F)) (key : PositionKey) :
    issuedBy (posts (txs.filterMap tradeOf)) key =
      tradedOutcome ((tradesIn key.marketId txs).map fun trade =>
        (trade.outcomeIndex, trade.shares)) key.outcomeIndex := by
  rw [issuedBy, posts, List.map_map, tradesIn, tradedOutcome, List.map_map, sum_filter_map]
  refine congrArg List.sum (List.map_congr_left ?_)
  intro trade _
  obtain ⟨marketId, outcomeIndex⟩ := key
  simp only [Function.comp_apply, Trade.position, PositionKey.mk.injEq, ite_and]

/-- Shares after trades in their market. -/
def moveShares (trades : List (Nat × I64)) (shares : List I64) : Except Error (List I64) :=
  trades.foldlM (fun shares trade => addAt shares trade.1 trade.2) shares

theorem lookup_moveShares {trades : List (Nat × I64)} {shares shares' : List I64}
    (h : moveShares trades shares = .ok shares') (i : Nat) :
    (shares'[i]?).map Subtype.val =
      (shares[i]?).map fun x => x.val + tradedOutcome trades i := by
  unfold moveShares at h
  induction trades generalizing shares with
  | nil =>
      obtain rfl := Except.ok.inj h
      simp [tradedOutcome]
  | cons trade trades ih =>
      obtain ⟨shares₁, hfirst, hrest⟩ := bind_eq_ok_iff.mp h
      have hstep := congrArg (Option.map (· + tradedOutcome trades i)) (lookup_addAt hfirst i)
      rw [Option.map_map, Option.map_map] at hstep
      rw [ih hrest]
      refine hstep.trans (congrArg (Option.map · (shares[i]?)) ?_)
      funext x
      show x.val + (if trade.1 = i then trade.2.val else 0) + tradedOutcome trades i = _
      rw [tradedOutcome, tradedOutcome, List.map_cons, List.sum_cons, add_assoc]

/-- The trades of an update, without their volumes. -/
def movesOf (updates : List MarketStateUpdate) : List (Nat × I64) :=
  updates.map fun update => (update.outcomeIndex, update.delta)

theorem moveShares_of_addUpdates {updates : List MarketStateUpdate}
    {acc acc' : Market F × List I64} (h : updates.foldlM addUpdate acc = .ok acc') :
    moveShares (movesOf updates) acc.2 = .ok acc'.2 := by
  unfold moveShares movesOf
  rw [List.foldlM_map]
  induction updates generalizing acc with
  | nil =>
      obtain rfl := Except.ok.inj h
      rfl
  | cons update updates ih =>
      obtain ⟨acc₁, hfirst, hrest⟩ := bind_eq_ok_iff.mp h
      simp only [addUpdate, bind_eq_ok_iff, Except.ok.injEq] at hfirst
      obtain ⟨shares, hshares, market, -, rfl⟩ := hfirst
      exact bind_eq_ok_iff.mpr ⟨shares, hshares, ih hrest⟩

/-- Put markets that are created. -/
def create (b : ShareBook) (markets : List (Market F)) : ShareBook :=
  markets.foldl
    (fun b market => b.put market.id (some market.marketState) (outcomeShares market)) b

theorem bookOf_addMarkets (markets : List (Market F)) (db : MarketsDatabase F) :
    bookOf (markets.foldl MarketsDatabase.addMarket db) = create (bookOf db) markets := by
  unfold create
  induction markets generalizing db with
  | nil => rfl
  | cons market markets ih =>
      rw [List.foldl_cons, ih, bookOf_insert addMarket_markets addMarket_accounts]
      rfl

theorem addMarkets_accounts (markets : List (Market F)) (db : MarketsDatabase F) :
    (markets.foldl MarketsDatabase.addMarket db).shareAccounts = db.shareAccounts :=
  List.foldlRecOn (motive := fun d : MarketsDatabase F => d.shareAccounts = db.shareAccounts)
    _ _ rfl fun _ hd _ _ => hd

/-- What the collected trades add to the shares of an outcome. -/
def traded (u : StateUpdate F) (key : PositionKey) : Int :=
  tradedOutcome (movesOf (u.updatesOf key.marketId)) key.outcomeIndex

theorem bookOf_applyMarketUpdates {height : Nat} {marketId : MarketId} (hdb : Keyed db)
    (h : applyMarketUpdates u height db marketId = .ok db') :
    bookOf db' = (bookOf db).trade fun key =>
      if key.marketId = marketId then traded u key else 0 := by
  obtain ⟨old, new, hold, hnew, rfl⟩ := (applyMarketUpdates_iff hdb).mp h
  have hlisting := tradedRecord_listing hnew
  have hid : new.id = marketId := hlisting.id.trans (hdb marketId old hold)
  simp only [tradedRecord, Market.updateState, bind_eq_ok_iff, mapError_eq_ok_iff,
    Except.ok.injEq] at hnew
  obtain ⟨⟨market, newShares⟩, hfold, _, -, _, -, hnew⟩ := hnew
  have hshares : ∀ i, outcomeShares new i = (outcomeShares old i).map
      (· + tradedOutcome (movesOf (u.updatesOf marketId)) i) := by
    intro i
    rw [← hnew, outcomeShares, outcomeShares, Option.map_map]
    exact lookup_moveShares (moveShares_of_addUpdates hfold) i
  calc bookOf ((putRecord db new).clearMempoolShares marketId)
      = bookOf (putRecord db new) := bookOf_congr rfl rfl
    _ = (bookOf db).put new.id (some new.marketState) (outcomeShares new) :=
        bookOf_insert rfl rfl
    _ = (bookOf db).trade fun key => if key.marketId = marketId then
          tradedOutcome (movesOf (u.updatesOf marketId)) key.outcomeIndex else 0 := by
        rw [hid, put_eq_trade hold hlisting.marketState hshares]
    _ = (bookOf db).trade fun key => if key.marketId = marketId then traded u key else 0 := by
        refine congrArg (bookOf db).trade ?_
        funext key
        split
        · rename_i heq
          rw [traded, heq]
        · rfl

theorem bookOf_marketUpdates {height : Nat} {marketIds : List MarketId} (hdb : Keyed db)
    (hnodup : marketIds.Nodup) (h : marketIds.foldlM (applyMarketUpdates u height) db = .ok db') :
    bookOf db' = (bookOf db).trade fun key =>
      if key.marketId ∈ marketIds then traded u key else 0 := by
  induction marketIds generalizing db with
  | nil =>
      obtain rfl := Except.ok.inj h
      simp only [List.not_mem_nil, if_false]
      exact (ShareBook.trade_zero _).symm
  | cons marketId marketIds ih =>
      obtain ⟨db₁, hfirst, hrest⟩ := bind_eq_ok_iff.mp h
      rw [List.nodup_cons] at hnodup
      rw [ih (hdb.applyMarketUpdates hfirst) hnodup.2 hrest, bookOf_applyMarketUpdates hdb hfirst,
        ShareBook.trade_trade]
      refine congrArg (bookOf db).trade ?_
      funext key
      by_cases heq : key.marketId = marketId
      · rw [heq, if_pos rfl, if_neg hnodup.1, if_pos List.mem_cons_self, add_zero]
      · simp [heq]

theorem bookOf_applyAmplifications {marketId : MarketId} (hdb : Keyed db)
    (h : applyAmplifications u db marketId = .ok db') : bookOf db' = bookOf db := by
  obtain ⟨old, new, hold, hnew, rfl⟩ := (applyAmplifications_iff hdb).mp h
  have hlisting := amplifiedRecord_listing hnew
  have hid : new.id = marketId := hlisting.id.trans (hdb marketId old hold)
  simp only [amplifiedRecord, bind_eq_ok_iff, Except.ok.injEq] at hnew
  obtain ⟨_, -, _, -, hnew⟩ := hnew
  have hshares : ∀ i, outcomeShares new i = (outcomeShares old i).map (· + 0) := by
    intro i
    rw [← hnew]
    simp [outcomeShares]
  rw [show bookOf (putRecord db new) = _ from bookOf_insert rfl rfl, hid,
    put_eq_trade hold hlisting.marketState hshares]
  simp only [ite_self]
  exact ShareBook.trade_zero _

theorem bookOf_amplifications {marketIds : List MarketId} (hdb : Keyed db)
    (h : marketIds.foldlM (applyAmplifications u) db = .ok db') : bookOf db' = bookOf db := by
  have hboth := foldlM_preserves (P := fun d : MarketsDatabase F => Keyed d ∧ bookOf d = bookOf db)
    (fun _ _ _ _ hd hstep => ⟨hd.1.applyAmplifications hstep,
      (bookOf_applyAmplifications hd.1 hstep).trans hd.2⟩) h ⟨hdb, rfl⟩
  exact hboth.2

theorem accounts_of_writes {height : Nat} {updated amplified : List MarketId}
    {db₁ : MarketsDatabase F} (hdb : Keyed db)
    (h₁ : updated.foldlM (applyMarketUpdates u height) db = .ok db₁)
    (h₂ : amplified.foldlM (applyAmplifications u) db₁ = .ok db') :
    db'.shareAccounts = db.shareAccounts := by
  have hupdates := foldlM_preserves
    (P := fun d : MarketsDatabase F => Keyed d ∧ d.shareAccounts = db.shareAccounts) ?_ h₁
    ⟨hdb, rfl⟩
  · refine (foldlM_preserves
      (P := fun d : MarketsDatabase F => Keyed d ∧ d.shareAccounts = db.shareAccounts) ?_ h₂
      hupdates).2
    rintro marketId - d d' ⟨hd, haccounts⟩ hstep
    refine ⟨hd.applyAmplifications hstep, ?_⟩
    obtain ⟨_, _, -, -, rfl⟩ := (applyAmplifications_iff hd).mp hstep
    exact haccounts
  · rintro marketId - d d' ⟨hd, haccounts⟩ hstep
    refine ⟨hd.applyMarketUpdates hstep, ?_⟩
    obtain ⟨_, _, -, -, rfl⟩ := (applyMarketUpdates_iff hd).mp hstep
    exact haccounts

theorem bookOf_records [F64 F] {L : Library F} {height : Nat}
    {txs : List (FilledTransaction F)} {db₁ : MarketsDatabase F} (hdb : Keyed db)
    (hcollected : Collected txs u)
    (h₁ : (L.order (updatedMarkets u)).foldlM (applyMarketUpdates u height)
      (u.marketCreations.foldl MarketsDatabase.addMarket db) = .ok db₁)
    (h₂ : (L.order (amplifiedMarkets u)).foldlM (applyAmplifications u) db₁ = .ok db') :
    db'.shareAccounts = db.shareAccounts ∧ bookOf db' =
      (create (bookOf db) u.marketCreations).trade
        (issuedBy (posts (txs.filterMap tradeOf))) := by
  have hadded : Keyed (u.marketCreations.foldl MarketsDatabase.addMarket db) := hdb.addMarkets _
  have hkeyed₁ : Keyed db₁ := foldlM_preserves (P := Keyed)
    (fun _ _ _ _ hd hstep => hd.applyMarketUpdates hstep) h₁ hadded
  have hnodup : (L.order (updatedMarkets u)).Nodup :=
    (L.order_perm _).nodup_iff.mpr (List.nodup_dedup _)
  refine ⟨by rw [accounts_of_writes hadded h₁ h₂, addMarkets_accounts], ?_⟩
  have htraded : ∀ key, (if key.marketId ∈ L.order (updatedMarkets u) then traded u key else 0) =
      issuedBy (posts (txs.filterMap tradeOf)) key := by
    intro key
    rw [issuedBy_posts, ← hcollected.updates key.marketId]
    split
    · rfl
    · rename_i hnot
      have hnone : u.updatesOf key.marketId = [] := by
        refine List.filter_eq_nil_iff.mpr ?_
        intro update hupdate hmarket
        refine hnot ((L.order_perm _).mem_iff.mpr (List.mem_dedup.mpr ?_))
        exact List.mem_map.mpr ⟨update, hupdate, of_decide_eq_true hmarket⟩
      rw [hnone]
      rfl
  rw [bookOf_amplifications hkeyed₁ h₂, bookOf_marketUpdates hadded hnodup h₁, bookOf_addMarkets]
  exact congrArg (create (bookOf db) u.marketCreations).trade (funext htraded)

theorem netChange_collected [F64 F] {L : Library F} {txs : List (FilledTransaction F)}
    (hcollected : Collected txs u) : netChange (L.order u.shareAccountChanges.toList) =
      heldBy (posts (txs.filterMap tradeOf)) := by
  rw [netChange_perm (L.order_perm _)]
  funext a key
  rw [netChange_toList, hcollected.changes, heldBy_posts]

theorem bookOf_writeMarkets [F64 F] {L : Library F} {height : Nat}
    {txs : List (FilledTransaction F)} (hdb : Keyed db) (hpositive : Positive db)
    (hcollected : Collected txs u) (h : writeMarkets L u height db = .ok db') :
    Positive db' ∧ bookOf db' =
      ((create (bookOf db) u.marketCreations).trade
        (issuedBy (posts (txs.filterMap tradeOf)))).move
          (heldBy (posts (txs.filterMap tradeOf))) := by
  simp only [writeMarkets, bind_eq_ok_iff, Except.ok.injEq] at h
  obtain ⟨db₁, h₁, db₂, h₂, db₃, h₃, _, -, rfl⟩ := h
  obtain ⟨haccounts, hbook⟩ := bookOf_records hdb hcollected h₁ h₂
  obtain ⟨hpositive', hmoved⟩ := shareChanges_move (hpositive.congr haccounts) h₃
  exact ⟨hpositive', by rw [hmoved, hbook, netChange_collected hcollected]⟩

/-- A market trades from its creation on, and nobody has shares of it. -/
structure Fresh (market : Market F) : Prop where
  trading : market.marketState = .trading
  shares : ∀ amount ∈ market.shares, amount.val = 0

theorem state_create {markets : List (Market F)} (hfresh : ∀ market ∈ markets, Fresh market)
    (b : ShareBook) (marketId : MarketId) :
    (create b markets).state marketId =
      if marketId ∈ markets.map Market.id then some .trading else b.state marketId := by
  unfold create
  induction markets generalizing b with
  | nil => rfl
  | cons market markets ih =>
      rw [List.foldl_cons, ih (fun other hother => hfresh other (List.mem_cons_of_mem _ hother)),
        (hfresh market List.mem_cons_self).trading]
      show (if _ then _ else if marketId = market.id then _ else _) = _
      by_cases hmem : marketId ∈ markets.map Market.id
      · rw [if_pos hmem, List.map_cons, if_pos (List.mem_cons_of_mem _ hmem)]
      · simp [hmem]

theorem shares_create (markets : List (Market F)) (b : ShareBook) (key : PositionKey) :
    ((create b markets).shares key = b.shares key ∧ key.marketId ∉ markets.map Market.id) ∨
      ∃ market ∈ markets, key.marketId = market.id ∧
        (create b markets).shares key = outcomeShares market key.outcomeIndex := by
  unfold create
  induction markets generalizing b with
  | nil => exact .inl ⟨rfl, List.not_mem_nil⟩
  | cons market markets ih =>
      rw [List.foldl_cons]
      rcases ih (b.put market.id (some market.marketState) (outcomeShares market)) with
        ⟨hsame, hnot⟩ | ⟨other, hother, hid, hshares⟩
      · by_cases hid : key.marketId = market.id
        · refine .inr ⟨market, List.mem_cons_self, hid, hsame.trans ?_⟩
          exact if_pos hid
        · refine .inl ⟨hsame.trans (if_neg hid), ?_⟩
          rw [List.map_cons, List.mem_cons, not_or]
          exact ⟨hid, hnot⟩
      · exact .inr ⟨other, List.mem_cons_of_mem _ hother, hid, hshares⟩

theorem held_create (markets : List (Market F)) (b : ShareBook) :
    (create b markets).held = b.held :=
  List.foldlRecOn (motive := fun b' : ShareBook => b'.held = b.held) _ _ rfl
    fun _ hb' _ _ => hb'

theorem Fresh.outcomeShares_eq_zero {market : Market F} (h : Fresh market) {outcomeIndex : Nat}
    {n : Int} (hn : outcomeShares market outcomeIndex = some n) : n = 0 := by
  obtain ⟨amount, hamount, rfl⟩ := Option.map_eq_some_iff.mp hn
  exact h.shares amount (List.mem_of_getElem? hamount)

/-- What an applied trade finds: a trading market that has its outcome. -/
structure Tradable (b : ShareBook) (trade : Trade) : Prop where
  trading : b.state trade.marketId = some .trading
  listed : (b.shares trade.position).isSome = true
  bounded : i64Min < trade.shares.val

theorem issuedBy_posts_of_absent {trades : List Trade} {key : PositionKey}
    (h : ∀ trade ∈ trades, trade.position ≠ key) : issuedBy (posts trades) key = 0 := by
  refine List.sum_eq_zero ?_
  intro n hn
  obtain ⟨p, hp, rfl⟩ := List.mem_map.mp hn
  obtain ⟨trade, htrade, rfl⟩ := List.mem_map.mp hp
  exact if_neg (h trade htrade)

/-- Creating markets and trading posts the trades, and nothing else, to the ledger. -/
theorem ledger_traded {b : ShareBook} {markets : List (Market F)} {trades : List Trade}
    (hfresh : ∀ market ∈ markets, Fresh market)
    (habsent : ∀ market ∈ markets, b.state market.id = none)
    (htrades : ∀ trade ∈ trades, Tradable b trade) :
    (((create b markets).trade (issuedBy (posts trades))).move (heldBy (posts trades))).ledger =
      b.ledger.postAll (posts trades) := by
  rw [postAll_eq]
  have hheld := congrArg (fun held : Address → PositionKey → Int =>
    fun a key => held a key + heldBy (posts trades) a key) (held_create markets b)
  refine Ledger.ext ?_ hheld
  funext key
  have hnone (hkey : b.state key.marketId ≠ some .trading ∨ b.shares key = none) :
      issuedBy (posts trades) key = 0 := by
    refine issuedBy_posts_of_absent ?_
    rintro trade htrade rfl
    rcases hkey with hstate | hshares
    · exact hstate (htrades trade htrade).trading
    · have hlisted := (htrades trade htrade).listed
      rw [hshares] at hlisted
      cases hlisted
  show (if (create b markets).state key.marketId = some .trading then
      (((create b markets).shares key).map _).getD 0 else 0) =
    (if b.state key.marketId = some .trading then (b.shares key).getD 0 else 0) + _
  rw [state_create hfresh]
  rcases shares_create markets b key with ⟨hsame, hnot⟩ | ⟨market, hmarket, hid, hshares⟩
  · rw [if_neg hnot, hsame]
    by_cases htrading : b.state key.marketId = some .trading
    · rw [if_pos htrading, if_pos htrading]
      cases hshares : b.shares key with
      | none => rw [hnone (.inr hshares)]; rfl
      | some n => rfl
    · rw [if_neg htrading, if_neg htrading, hnone (.inl htrading), add_zero]
  · have hstate : b.state key.marketId ≠ some .trading := by
      rw [hid, habsent market hmarket]
      exact (Option.some_ne_none _).symm
    have hmem : key.marketId ∈ markets.map Market.id := hid ▸ List.mem_map_of_mem hmarket
    rw [if_pos hmem, if_pos rfl, if_neg hstate, hnone (.inl hstate), hshares]
    cases hn : outcomeShares market key.outcomeIndex with
    | none => rfl
    | some n => rw [(hfresh market hmarket).outcomeShares_eq_zero hn]; rfl

section

variable [F64 F] [DecidableEq F] {L : Library F} {height : Nat} {s s' : State F}
  {tx : FilledTransaction F}

omit [DecidableEq F] in
theorem tradable_of_applyTrade {trade : Trade} (h : applyTrade L s u tx trade = .ok (some u')) :
    Tradable (bookOf s.markets) trade := by
  obtain ⟨market, effectiveShares, newShares, beta, input, hquote, -⟩ := applyTrade_eq_some h
  have hnonneg : ∃ amount : I64, newShares[trade.outcomeIndex]? = some amount ∧ 0 ≤ amount.val := by
    simp only [applyTrade, bind_eq_ok_iff, okOr_eq_ok_iff, ensure_eq_ok_iff, index_eq_ok_iff] at h
    obtain ⟨_, hmarket, _, -, _, hrunning, _, hmoved, amount, hamount, _, hle, -⟩ := h
    obtain rfl := Option.some.inj (hmarket.symm.trans hquote.market_eq)
    obtain rfl := Except.ok.inj (hrunning.symm.trans hquote.running)
    obtain rfl := Except.ok.inj (hmoved.symm.trans hquote.moved)
    exact ⟨amount, hamount, hle⟩
  obtain ⟨before, after, hbefore, hsum, hset⟩ := addAt_eq_ok_iff.mp hquote.moved
  have hrunning : moveShares (movesOf (u.updatesOf trade.marketId)) market.shares =
      .ok effectiveShares := by
    have hrunning := hquote.running
    simp only [runningMarketState, bind_eq_ok_iff, Except.ok.injEq, Prod.mk.injEq] at hrunning
    obtain ⟨_, hfold, _, -, rfl, -⟩ := hrunning
    rw [moveShares, movesOf, List.foldlM_map]
    exact hfold
  have hlisted := lookup_moveShares hrunning trade.outcomeIndex
  rw [hbefore, Option.map_some] at hlisted
  refine ⟨?_, ?_, ?_⟩
  · rw [state_of_getMarket hquote.market_eq, hquote.trading]
  · have hshares : (bookOf s.markets).shares trade.position =
        outcomeShares market trade.outcomeIndex := shares_of_getMarket hquote.market_eq
    rw [hshares, outcomeShares, Option.isSome_map]
    cases hrow : market.shares[trade.outcomeIndex]? with
    | none =>
        rw [hrow] at hlisted
        cases hlisted
    | some _ => rfl
  · obtain ⟨amount, hamount, hle⟩ := hnonneg
    have hlt : trade.outcomeIndex < effectiveShares.length :=
      (List.getElem?_eq_some_iff.mp hbefore).1
    rw [hset, List.getElem?_set_self hlt] at hamount
    obtain rfl := Option.some.inj hamount
    have hbound := before.property.2
    norm_num [i64Min, i64Max] at hbound ⊢
    omega

theorem fresh_of_effect (h : Effect L height s u tx s' u')
    (hu : ∀ market ∈ u.marketCreations, Fresh market) :
    ∀ market ∈ u'.marketCreations, Fresh market := by
  cases h with
  | plain hdata | claimDecision _ hdata _ | transferReputation _ hdata _ => exact hu
  | trade trade hdata h =>
      rw [applyTrade_marketCreations h]
      exact hu
  | submitVote vote hdata h =>
      simp only [applySubmitVote, bind_eq_ok_iff, Except.ok.injEq] at h
      obtain ⟨_, -, _, -, _, -, rfl⟩ := h
      exact hu
  | submitBallot ballot hdata h =>
      rw [applySubmitBallot_framed h]
      exact hu
  | amplifyBeta amplify hdata h =>
      simp only [applyAmplifyBeta, bind_eq_ok_iff, Except.ok.injEq] at h
      obtain ⟨_, -, rfl⟩ := h
      exact hu
  | createMarket creation hdata h =>
      obtain ⟨creator, decisions, market, liquidity, -, -, hmarket, rfl, -⟩ :=
        applyMarketCreation_eq_ok h
      intro created hcreated
      rcases List.mem_append.mp hcreated with hold | hnew
      · exact hu created hold
      · obtain rfl := List.mem_singleton.mp hnew
        simp only [buildMarket, MarketBuilder.build, bind_eq_ok_iff, mapError_eq_ok_iff,
          Except.ok.injEq] at hmarket
        obtain ⟨_, -, _, -, _, -, rfl⟩ := hmarket
        refine ⟨rfl, ?_⟩
        intro amount hamount
        rw [List.eq_of_mem_replicate hamount]
        rfl

theorem collected_of_effects {before txs : List (FilledTransaction F)}
    (hu : Collected before u)
    (h : txs.foldlM (applyEffect L height) (s, u) = .ok (s', u')) :
    Collected (before ++ txs) u' := by
  induction txs generalizing before s u with
  | nil =>
      obtain ⟨-, rfl⟩ := Prod.mk.inj (Except.ok.inj h)
      rw [List.append_nil]
      exact hu
  | cons tx txs ih =>
      obtain ⟨⟨s₁, u₁⟩, hfirst, hrest⟩ := bind_eq_ok_iff.mp h
      have hstep := ih (hu.step (effect_of_applyEffect hfirst)) hrest
      rwa [List.append_assoc] at hstep

omit [F64 F] [DecidableEq F] in
theorem bookOf_framed (h : Framed s s') : bookOf s'.markets = bookOf s.markets := by
  unfold Framed at h
  rw [h]
  exact bookOf_congr rfl rfl

theorem tradable_of_effects {txs : List (FilledTransaction F)}
    (h : txs.foldlM (applyEffect L height) (s, u) = .ok (s', u')) :
    ∀ trade ∈ txs.filterMap tradeOf, Tradable (bookOf s.markets) trade := by
  induction txs generalizing s u with
  | nil => exact fun _ hmem => absurd hmem List.not_mem_nil
  | cons tx txs ih =>
      obtain ⟨⟨s₁, u₁⟩, hfirst, hrest⟩ := bind_eq_ok_iff.mp h
      have heffect := effect_of_applyEffect hfirst
      have hrest := ih hrest
      rw [bookOf_framed heffect.framed] at hrest
      intro trade htrade
      obtain ⟨tx', htx', htrade'⟩ := List.mem_filterMap.mp htrade
      rcases List.mem_cons.mp htx' with rfl | htx'
      · cases heffect with
        | trade found hdata happly =>
            rw [tradeOf, hdata] at htrade'
            obtain rfl := Option.some.inj htrade'
            exact tradable_of_applyTrade happly
        | plain hdata | createMarket _ hdata _ | claimDecision _ hdata _ | submitVote _ hdata _
        | submitBallot _ hdata _ | transferReputation _ hdata _ | amplifyBeta _ hdata _ =>
            rw [tradeOf, hdata] at htrade'
            cases htrade'
      · exact hrest trade (List.mem_filterMap.mpr ⟨tx', htx', htrade'⟩)

variable {config : DecisionConfig} {archive : Archive} {block : Block F} {t : Trace F}

/-- The trades that a block applies. -/
def appliedTrades (t : Trace F) : List Trade :=
  t.txs.filterMap tradeOf

omit [DecidableEq F] in
theorem bookOf_opened (t : Trace F) (s : State F) (block : Block F) :
    bookOf (t.opened L s block).markets = bookOf s.markets := by
  rw [opened_eq]

theorem tradable_of_connects (ht : Prepares L config archive s block t) :
    ∀ trade ∈ appliedTrades t, Tradable (bookOf s.markets) trade := by
  have htradable := tradable_of_effects (effects_of_applyTransactions ht.applied)
  rwa [bookOf_opened] at htradable

theorem creations_fresh (ht : Prepares L config archive s block t) :
    (∀ market ∈ t.applied.update.marketCreations, Fresh market) ∧
      ∀ market ∈ t.applied.update.marketCreations,
        (bookOf s.markets).state market.id = none := by
  constructor
  · exact effects_preserve (P := fun _ u => ∀ market ∈ u.marketCreations, Fresh market)
      (fun _ _ _ _ _ _ hu heffect => fresh_of_effect heffect hu)
      (effects_of_applyTransactions ht.applied) fun _ hmem => absurd hmem List.not_mem_nil
  · intro market hmarket
    have habsent := (creations_of_validateAllChanges ht.changes).2 market hmarket
    have hbook := (bookOf_framed (framed_of_applyTransactions ht.applied)).trans
      (bookOf_opened t s block)
    rw [← hbook]
    exact congrArg (Option.map Market.marketState) habsent

theorem bookOf_written (hs : SharesHeld s.markets) (hkeyed : Keyed s.markets)
    (ht : Prepares L config archive s block t) :
    Positive t.written ∧ bookOf t.written =
      ((create (bookOf s.markets) t.applied.update.marketCreations).trade
        (issuedBy (posts (appliedTrades t)))).move (heldBy (posts (appliedTrades t))) := by
  have hframe := applied_eq ht.applied
  have haccounts : t.applied.state.markets.shareAccounts = s.markets.shareAccounts := by
    rw [hframe]
  have hcollected := collected_of_effects collected_nil (effects_of_applyTransactions ht.applied)
  have hbook := (bookOf_framed (framed_of_applyTransactions ht.applied)).trans
    (bookOf_opened t s block)
  rw [← hbook]
  exact bookOf_writeMarkets (keyed_applied hkeyed ht.applied) (hs.positive.congr haccounts)
    hcollected ht.written

theorem sharesHeld_written (hs : SharesHeld s.markets) (hkeyed : Keyed s.markets)
    (ht : Prepares L config archive s block t) : SharesHeld t.written := by
  obtain ⟨hpositive, hbook⟩ := bookOf_written hs hkeyed ht
  obtain ⟨hfresh, habsent⟩ := creations_fresh ht
  refine ⟨hpositive, ?_⟩
  rw [hbook, ledger_traded hfresh habsent (tradable_of_connects ht)]
  exact hs.balanced.postAll _

end

end Truthcoin.ShareWrites
