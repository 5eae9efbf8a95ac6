import Truthcoin.ShareRuns
import Truthcoin.TradeOverflow

/-!
# Overflows of the written changes

The collected trades are written market by market and account by account. Each sum that is
written was already taken when its trade was applied, so writing aborts only where the
amplifications of a market do not add up to a `u64`.
-/

namespace Truthcoin.WriteOverflow

open Truthcoin.Types Truthcoin.Table Truthcoin.Fallible Truthcoin.Arithmetic
open Truthcoin.Decisions Truthcoin.Markets Truthcoin.Blocks Truthcoin.Validation
open Truthcoin.Apply Truthcoin.ApplySteps Truthcoin.Connect Truthcoin.ConnectTrace
open Truthcoin.BlockChecks Truthcoin.BlockRun Truthcoin.Commitments Truthcoin.TagConnect
open Truthcoin.AddressIndex
open Truthcoin.MarketSteps Truthcoin.MarketRecords Truthcoin.ListedMarkets
open Truthcoin.SlippageCheck Truthcoin.Ledgers Truthcoin.Ledgers.Ledger
open Truthcoin.ShareAccounts Truthcoin.ShareBooks Truthcoin.ShareWrites
open Truthcoin.ShareRuns Truthcoin.TradeOverflow

variable {F : Type} {db db' : MarketsDatabase F} {u : StateUpdate F} {height : Nat}

theorem completes_updateMarket {market : Market F} : Completes (db.updateMarket market) := by
  simp [MarketsDatabase.updateMarket]

theorem completes_addUpdates {updates : List MarketStateUpdate} {acc : Market F × List I64}
    {shares : List I64} (h : moveShares (movesOf updates) acc.2 = .ok shares) :
    Completes (updates.foldlM addUpdate acc) := by
  induction updates generalizing acc with
  | nil => exact reports_ok acc
  | cons update updates ih =>
      obtain ⟨moved, hmoved, hrest⟩ := bind_eq_ok_iff.mp h
      dsimp only at hmoved
      have hstep : Completes (addUpdate acc update) := by
        simp [addUpdate, hmoved, marketFailure]
      rw [List.foldlM_cons]
      refine completes_bind.mpr ⟨hstep, fun acc' hacc' => ih ?_⟩
      simp only [addUpdate, hmoved, ok_bind, bind_eq_ok_iff, Except.ok.injEq] at hacc'
      obtain ⟨_, -, rfl⟩ := hacc'
      exact hrest

theorem completes_applyMarketUpdates {marketId : MarketId}
    (h : ∀ market, db.getMarket marketId = some market →
      ∃ shares, moveShares (movesOf (u.updatesOf marketId)) market.shares = .ok shares) :
    Completes (applyMarketUpdates u height db marketId) := by
  unfold applyMarketUpdates
  refine completes_bind.mpr ⟨by simp [notFound], fun market hmarket => ?_⟩
  obtain ⟨shares, hshares⟩ := h market (okOr_eq_ok_iff.mp hmarket)
  refine completes_bind.mpr ⟨completes_addUpdates hshares, fun acc _ => ?_⟩
  refine completes_bind.mpr ⟨by simp [marketFailure], fun new _ => ?_⟩
  exact completes_bind.mpr ⟨completes_updateMarket, fun _ _ => reports_ok _⟩

theorem getMarket_applyMarketUpdates {marketId other : MarketId} (hdb : Keyed db)
    (h : applyMarketUpdates u height db marketId = .ok db') (hne : other ≠ marketId) :
    db'.getMarket other = db.getMarket other := by
  obtain ⟨old, new, hold, hnew, rfl⟩ := (applyMarketUpdates_iff hdb).mp h
  have hid : new.id = marketId := (tradedRecord_listing hnew).id.trans (hdb marketId old hold)
  have hinsert : (db.markets.insert new.id new)[other]? = db.markets[other]? := by
    rw [lookup_insert, if_neg (hid ▸ hne)]
  exact hinsert

theorem completes_marketUpdates {marketIds : List MarketId} (hdb : Keyed db)
    (hnodup : marketIds.Nodup) (h : ∀ marketId ∈ marketIds, ∀ market,
      db.getMarket marketId = some market →
        ∃ shares, moveShares (movesOf (u.updatesOf marketId)) market.shares = .ok shares) :
    Completes (marketIds.foldlM (applyMarketUpdates u height) db) := by
  let Left (ids : List MarketId) (d : MarketsDatabase F) : Prop := Keyed d ∧ ids.Nodup ∧
    ∀ marketId ∈ ids, ∀ market, d.getMarket marketId = some market →
      ∃ shares, moveShares (movesOf (u.updatesOf marketId)) market.shares = .ok shares
  refine reports_foldlM_of (I := Left) ?_ ⟨hdb, hnodup, h⟩
  rintro marketId ids d ⟨hd, hnodup, hmoves⟩
  rw [List.nodup_cons] at hnodup
  refine ⟨completes_applyMarketUpdates (hmoves marketId List.mem_cons_self), ?_⟩
  intro d' hd'
  refine ⟨hd.applyMarketUpdates hd', hnodup.2, ?_⟩
  intro other hother market hmarket
  rw [getMarket_applyMarketUpdates hd hd' (ne_of_mem_of_not_mem hother hnodup.1)] at hmarket
  exact hmoves other (List.mem_cons_of_mem _ hother) market hmarket

theorem completes_amplifications {marketIds : List MarketId}
    (h : ∀ marketId, (u.amplifications marketId).sum ≤ amountMax) :
    Completes (marketIds.foldlM (applyAmplifications u) db) := by
  refine reports_foldlM fun d marketId _ => ?_
  unfold applyAmplifications
  refine completes_bind.mpr ⟨completes_sumU64.mpr (h marketId), fun amount _ => ?_⟩
  refine completes_bind.mpr ⟨by simp [notFound], fun market _ => ?_⟩
  exact completes_bind.mpr ⟨by simp, fun liquidity _ => completes_updateMarket⟩

/-- A change that keeps a position within `i64` completes, unless it is the smallest number. -/
theorem completes_changeShares {a : Address} {key : PositionKey} {delta : I64}
    (h : InI64 ((bookOf db).held a key + delta.val)) (hmin : i64Min < delta.val) :
    Completes (db.changeShares a key delta height) := by
  have hmax := delta.property.2
  unfold MarketsDatabase.changeShares
  split
  · simp only [MarketsDatabase.addSharesToAccount, ShareAccount.addShares, reports_bind,
      completes_addI64, reports_ok, implies_true, and_true, getPosition_getD]
    exact h
  · split
    · refine completes_bind.mpr ⟨completes_toI64.mpr ?_, fun shares hshares => ?_⟩
      · norm_num [InI64, i64Min, i64Max] at hmin hmax ⊢
        omega
      · have hneg := negI64_eq_ok_iff.mp hshares
        unfold MarketsDatabase.removeSharesFromAccount
        refine completes_bind.mpr ⟨by simp, fun account haccount => ?_⟩
        have hheld := held_of_row (okOr_eq_ok_iff.mp haccount) key
        refine completes_bind.mpr ⟨?_, fun _ _ => reports_ok _⟩
        unfold ShareAccount.removeShares
        refine completes_bind.mpr ⟨by simp, fun _ _ => ?_⟩
        refine completes_bind.mpr ⟨completes_toI64.mpr ?_, fun _ _ => reports_ok _⟩
        rw [← hheld, hneg, sub_neg_eq_add]
        exact h
    · exact reports_ok db

theorem completes_shareChanges {changes : List (ShareKey × I64)} (hdb : Positive db)
    (hnodup : (changes.map Prod.fst).Nodup)
    (h : ∀ c ∈ changes, 0 ≤ (bookOf db).held c.1.address c.1.position + c.2.val ∧
      (bookOf db).held c.1.address c.1.position + c.2.val ≤ i64Max) :
    Completes (changes.foldlM (applyShareChange height) db) := by
  let Left (changes : List (ShareKey × I64)) (d : MarketsDatabase F) : Prop := Positive d ∧
    (changes.map Prod.fst).Nodup ∧
    ∀ c ∈ changes, 0 ≤ (bookOf d).held c.1.address c.1.position + c.2.val ∧
      (bookOf d).held c.1.address c.1.position + c.2.val ≤ i64Max
  refine reports_foldlM_of (I := Left) ?_ ⟨hdb, hnodup, h⟩
  rintro c changes d ⟨hd, hnodup, hrange⟩
  rw [List.map_cons, List.nodup_cons] at hnodup
  obtain ⟨hnonneg, hle⟩ := hrange c List.mem_cons_self
  constructor
  · have hheld := (d.ownedShares c.1.address c.1.position).property.2
    rw [held_eq] at hnonneg hle
    refine completes_changeShares ?_ ?_
    · rw [held_eq]
      exact ⟨le_trans (by norm_num [i64Min]) hnonneg, hle⟩
    · norm_num [i64Min, i64Max] at hheld ⊢
      omega
  · intro d' hd'
    obtain ⟨hpositive, hmoved⟩ := changeShares_moves hd hd'
    refine ⟨hpositive, hnodup.2, fun c' hc' => ?_⟩
    have hne : ¬ (c.1.address = c'.1.address ∧ c.1.position = c'.1.position) := by
      rintro ⟨ha, hkey⟩
      refine hnodup.1 (List.mem_map.mpr ⟨c', hc', ?_⟩)
      exact (ShareKey.mk.injEq ..).mpr ⟨ha.symm, hkey.symm⟩
    rw [hmoved]
    show 0 ≤ (bookOf d).held _ _ + ite _ _ _ + _ ∧ (bookOf d).held _ _ + ite _ _ _ + _ ≤ _
    rw [if_neg hne, add_zero]
    exact hrange c' (List.mem_cons_of_mem _ hc')

theorem foldlM_addI64 {amounts : List I64} {start : I64}
    (hnonneg : ∀ amount ∈ amounts, 0 ≤ amount.val) (hstart : 0 ≤ start.val)
    (hle : start.val + (amounts.map Subtype.val).sum ≤ i64Max) :
    Completes (amounts.foldlM addI64 start) := by
  induction amounts generalizing start with
  | nil => exact reports_ok start
  | cons amount amounts ih =>
      have hamount := hnonneg amount List.mem_cons_self
      have hrest : 0 ≤ (amounts.map Subtype.val).sum :=
        List.sum_nonneg fun x hx => by
          obtain ⟨other, hother, rfl⟩ := List.mem_map.mp hx
          exact hnonneg other (List.mem_cons_of_mem _ hother)
      rw [List.map_cons, List.sum_cons] at hle
      have hrange : InI64 (start.val + amount.val) := by
        norm_num [InI64, i64Min, i64Max] at hle ⊢
        omega
      rw [List.foldlM_cons]
      refine completes_bind.mpr ⟨completes_addI64.mpr hrange, fun next hnext => ?_⟩
      have hsum := addI64_eq_ok_iff.mp hnext
      exact ih (fun other hother => hnonneg other (List.mem_cons_of_mem _ hother)) (by omega)
        (by omega)

theorem issued_le (db : MarketsDatabase F) (key : PositionKey) :
    (bookOf db).ledger.issued key ≤ i64Max := by
  have hzero : (0 : ℤ) ≤ i64Max := by norm_num [i64Max]
  show (if _ then ((bookOf db).shares key).getD 0 else 0) ≤ i64Max
  split
  · cases hshares : (bookOf db).shares key with
    | none => exact hzero
    | some n =>
        obtain ⟨market, -, hrow⟩ := Option.bind_eq_some_iff.mp hshares
        obtain ⟨amount, -, rfl⟩ := Option.map_eq_some_iff.mp hrow
        exact amount.property.2
  · exact hzero

theorem completes_verifyShareInvariant (h : SharesHeld db) (marketId : MarketId) :
    Completes (db.verifyShareInvariant marketId) := by
  unfold MarketsDatabase.verifyShareInvariant
  refine completes_bind.mpr ⟨by simp, fun market _ => ?_⟩
  refine completes_bind.mpr ⟨reports_mapM fun outcomeIndex _ => ?_, fun totals _ => ?_⟩
  · refine foldlM_addI64 ?_ le_rfl ?_
    · intro amount hamount
      obtain ⟨row, hrow, rfl⟩ := List.mem_map.mp hamount
      rw [← held_of_row (mem_toList_iff.mp hrow)]
      exact h.positive.held_nonneg _ _
    · rw [List.map_map]
      have hsum := (ShareBooks.sum_positions db ⟨marketId, outcomeIndex⟩).trans
        (h.balanced.total _).symm
      refine le_trans (le_of_eq ?_) (issued_le db ⟨marketId, outcomeIndex⟩)
      exact (zero_add _).trans hsum
  · exact reports_forM fun _ _ => by simp

section

variable [F64 F] [DecidableEq F] {L : Library F} {s s' : State F}
  {txs : List (FilledTransaction F)}

omit [F64 F] [DecidableEq F] in
theorem getMarket_addMarkets {markets : List (Market F)} {marketId : MarketId}
    (h : marketId ∉ markets.map Market.id) :
    (markets.foldl MarketsDatabase.addMarket db).getMarket marketId = db.getMarket marketId := by
  induction markets generalizing db with
  | nil => rfl
  | cons market markets ih =>
      rw [List.map_cons, List.mem_cons, not_or] at h
      rw [List.foldl_cons, ih h.2, MarketsDatabase.getMarket, addMarket_markets]
      exact lookup_insert.trans (if_neg h.1)

omit [F64 F] [DecidableEq F] in
theorem getMarket_updated (h : u.validateAllChanges s = .ok ()) {marketId : MarketId}
    (hmem : marketId ∈ updatedMarkets u) :
    (u.marketCreations.foldl MarketsDatabase.addMarket s.markets).getMarket marketId =
      s.markets.getMarket marketId := by
  refine getMarket_addMarkets ?_
  simp only [StateUpdate.validateAllChanges, StateUpdate.verifyInternalConsistency,
    bind_eq_ok_iff, forM_eq_ok_iff, ensure_eq_ok_iff] at h
  obtain ⟨_, ⟨_, -, hdisjoint⟩, -⟩ := h
  obtain ⟨update, hupdate, rfl⟩ := List.mem_map.mp (List.mem_dedup.mp hmem)
  exact hdisjoint update hupdate

omit [F64 F] [DecidableEq F] in
theorem positions_fit (hs : SharesHeld s.markets) (h : Followed s txs u)
    (hfresh : ∀ market ∈ u.marketCreations, Fresh market)
    (habsent : ∀ market ∈ u.marketCreations, (bookOf s.markets).state market.id = none)
    (htrades : ∀ trade ∈ txs.filterMap tradeOf, Tradable (bookOf s.markets) trade)
    {db₂ : MarketsDatabase F} (hbook : bookOf db₂ =
      (create (bookOf s.markets) u.marketCreations).trade
        (issuedBy (posts (txs.filterMap tradeOf)))) (a : Address) (key : PositionKey) :
    (bookOf db₂).held a key + heldBy (posts (txs.filterMap tradeOf)) a key ≤ i64Max := by
  have hbalanced :
      ((bookOf db₂).move (heldBy (posts (txs.filterMap tradeOf)))).ledger.Balanced := by
    rw [hbook, ledger_traded hfresh habsent htrades]
    exact hs.balanced.postAll _
  refine le_trans (hbalanced.held_le (k := key) ?_ a) (issued_le db₂ key)
  intro a
  show 0 ≤ (bookOf db₂).held a key + heldBy (posts (txs.filterMap tradeOf)) a key
  rw [hbook, heldBy_posts]
  show 0 ≤ (create (bookOf s.markets) u.marketCreations).held a key + _
  rw [held_create]
  exact h.nonneg a key

/-- Once its transactions are applied, a block aborts in its writing only where the
amplifications of a market do not add up. -/
theorem completes_writeMarkets {a : Applied F} (hs : SharesHeld s.markets)
    (hkeyed : Keyed s.markets) (h : applyTransactions L s txs height = .ok a)
    (hchanges : a.update.validateAllChanges a.state = .ok ())
    (hamplified : ∀ marketId, (a.update.amplifications marketId).sum ≤ amountMax) :
    Completes (writeMarkets L a.update height a.state.markets) := by
  have hframed := framed_of_applyTransactions h
  have hfollowed := followed_of_applyTransactions hs.positive h
  have hcollected := hfollowed.collected
  have heffects := effects_of_applyTransactions h
  have hfresh : ∀ market ∈ a.update.marketCreations, Fresh market :=
    effects_preserve (P := fun _ u => ∀ market ∈ u.marketCreations, Fresh market)
      (fun _ _ _ _ _ _ hu heffect => fresh_of_effect heffect hu) heffects
      fun _ hmem => absurd hmem List.not_mem_nil
  have hbook := bookOf_framed hframed
  have habsent : ∀ market ∈ a.update.marketCreations,
      (bookOf s.markets).state market.id = none := by
    intro market hmarket
    rw [← hbook]
    exact congrArg (Option.map Market.marketState)
      ((creations_of_validateAllChanges hchanges).2 market hmarket)
  have hmarkets : a.state.markets.markets = s.markets.markets := by rw [hframed]
  have haccounts : a.state.markets.shareAccounts = s.markets.shareAccounts := by rw [hframed]
  have hkeyed' : Keyed a.state.markets := keyed_of_markets hkeyed hmarkets
  unfold writeMarkets
  dsimp only
  refine completes_bind.mpr ⟨?_, fun db₁ h₁ => ?_⟩
  · refine completes_marketUpdates (hkeyed'.addMarkets _)
      ((L.order_perm _).nodup_iff.mpr (List.nodup_dedup _)) ?_
    intro marketId hmem market hmarket
    rw [getMarket_updated hchanges ((L.order_perm _).mem_iff.mp hmem)] at hmarket
    have hmarket' : s.markets.getMarket marketId = some market := by
      rw [← hmarket, MarketsDatabase.getMarket, MarketsDatabase.getMarket, hmarkets]
    obtain ⟨shares, hshares⟩ := hfollowed.shares marketId market hmarket'
    refine ⟨shares, ?_⟩
    rw [moveShares, movesOf, List.foldlM_map]
    exact runningShares_eq hcollected hshares
  refine completes_bind.mpr ⟨completes_amplifications hamplified, fun db₂ h₂ => ?_⟩
  obtain ⟨haccounts₂, hbook₂⟩ := bookOf_records hkeyed' hcollected h₁ h₂
  have hpositive₂ : Positive db₂ := hs.positive.congr (haccounts₂.trans haccounts)
  rw [hbook] at hbook₂
  have htrades := tradable_of_effects heffects
  refine completes_bind.mpr ⟨?_, fun db₃ h₃ => ?_⟩
  · refine completes_shareChanges hpositive₂ ?_ ?_
    · exact ((L.order_perm _).map _).nodup_iff.mpr (toList_keys_nodup _)
    · intro c hc
      have hrow := mem_toList_iff.mp ((L.order_perm _).mem_iff.mp hc)
      have hchange : c.2.val = positionChange c.1 (notSkipped txs a.skipped) := by
        rw [← hcollected.changes, hrow, Option.getD_some]
      have hle := positions_fit hs hfollowed hfresh habsent htrades hbook₂ c.1.address
        c.1.position
      rw [heldBy_posts] at hle
      have hheld : (bookOf db₂).held = (bookOf s.markets).held := by
        rw [hbook₂]
        exact held_create _ _
      rw [hchange]
      refine ⟨?_, hle⟩
      rw [hheld]
      exact hfollowed.nonneg c.1.address c.1.position
  · obtain ⟨hpositive₃, hmoved⟩ := shareChanges_move hpositive₂ h₃
    rw [netChange_collected hcollected, hbook₂] at hmoved
    have hheld₃ : SharesHeld db₃ := by
      refine ⟨hpositive₃, ?_⟩
      rw [hmoved, ledger_traded hfresh habsent htrades]
      exact hs.balanced.postAll _
    refine completes_bind.mpr ⟨reports_forM fun marketId _ => ?_, fun _ _ => reports_ok db₃⟩
    exact completes_verifyShareInvariant hheld₃ marketId

end

section

variable [F64 F] [DecidableEq F] (L : Library F)

/-- A block that passes validation is opened: the trace follows its connection up to its
transactions. -/
structure Opens (config : DecisionConfig) (archive : Archive) (s : State F) (block : Block F)
    (t : Trace F) : Prop where
  prevalidated : prevalidate L config archive s block.header block.body = .ok t.pre
  period : getCurrentPeriod config block.mainchainTimestamp (some t.height)
    (t.genesisTs s block) = .ok t.currentPeriod
  voting : transitionAllToVoting
    (startBlock s block.body t.height block.mainchainTimestamp).decisions t.currentPeriod
      t.height = .ok t.voting
  coinbase : validateCoinbaseOutputs block.body.coinbase.outputs = .ok ()

/-- No arithmetic of the trades and amplifications of a block overflows: none when they are
applied one after the other, none when the amplifications of each market are added up, and none
when what the block has collected is written. -/
structure TradesComplete (s : State F) (height : Nat) (txs : List (FilledTransaction F)) :
    Prop where
  applied : ∀ before tx after a, txs = before ++ tx :: after →
    (tradeOf tx).isSome = true ∨ (amplificationOf tx).isSome = true →
      applyTransactions L s before height = .ok a →
        Completes (applyTransaction L height a (tx, before.length))
  summed : ∀ a marketId, applyTransactions L s txs height = .ok a →
    a.update.validateAllChanges a.state = .ok () →
      Completes (sumU64 (a.update.amplifications marketId))
  written : ∀ a, applyTransactions L s txs height = .ok a →
    a.update.validateAllChanges a.state = .ok () →
      Completes (writeMarkets L a.update height a.state.markets)

/-- Each trade of a block fits after the transactions that are applied before it, and the
amplifications of each market add up to a `u64`. -/
structure BlockFits (s : State F) (height : Nat) (txs : List (FilledTransaction F)) : Prop where
  trades : ∀ before tx after trade a, txs = before ++ tx :: after → tradeOf tx = some trade →
    applyTransactions L s before height = .ok a →
      TradeFits L s (notSkipped before a.skipped) trade
  amplifications : ∀ a marketId, applyTransactions L s txs height = .ok a →
    a.update.validateAllChanges a.state = .ok () →
      (amplified marketId (notSkipped txs a.skipped)).sum ≤ amountMax

end

section

variable [F64 F] [DecidableEq F] {L : Library F} {s : State F} {config : DecisionConfig}
  {archive : Archive} {block : Block F} {t : Trace F}

omit [F64 F] [DecidableEq F] in
theorem data_of_tradeOf {tx : FilledTransaction F} {trade : Trade} (h : tradeOf tx = some trade) :
    tx.transaction.data = some (.trade trade) := by
  unfold tradeOf at h
  split at h
  · rename_i found hfound
    rw [hfound, Option.some.inj h]
  · cases h

theorem completes_applyTransaction_trade {a : Applied F} {tx : FilledTransaction F}
    {trade : Trade} {idx : Nat} (h : tradeOf tx = some trade) :
    Completes (applyTransaction L height a (tx, idx)) ↔
      Completes (applyTrade L a.state a.update tx trade) := by
  rw [applyTransaction, data_of_tradeOf h]
  dsimp only
  rw [applyTxData, completes_bind]
  refine and_iff_left fun result _ => ?_
  cases result with
  | none => exact reports_ok _
  | some update => exact reports_ok _

theorem completes_applyTransaction_amplify {a : Applied F} {tx : FilledTransaction F}
    {idx : Nat} (h : (amplificationOf tx).isSome = true) :
    Completes (applyTransaction L height a (tx, idx)) := by
  unfold amplificationOf at h
  split at h
  · rename_i amplify hdata
    rw [applyTransaction, hdata]
    simp [applyTxData, applyAmplifyBeta, inputValue]
  · cases h

omit [DecidableEq F] in
theorem markets_opened (t : Trace F) (s : State F) (block : Block F) :
    (t.opened L s block).markets = s.markets := by
  rw [opened_eq]

omit [DecidableEq F] in
theorem validTrade_of_opens {tx : FilledTransaction F} {trade : Trade}
    (h : Opens L config archive s block t) (htx : tx ∈ t.pre.filledTransactions)
    (htrade : tradeOf tx = some trade) :
    ∃ market, ValidTrade (t.opened L s block) tx trade market := by
  have hvalid := (prevalidated_of_prevalidate h.prevalidated).validTxData htx
    (data_of_tradeOf htrade)
  obtain ⟨market, hmarket, htrading, hlisted, hinput, hbounded⟩ :=
    validTrade_of_validateTrade (L := L) hvalid
  refine ⟨market, ?_, htrading, hlisted, hinput, hbounded⟩
  rw [markets_opened]
  exact hmarket

theorem completes_trade_iff (h : Opens L config archive s block t) (hs : SharesHeld s.markets)
    {before after : List (FilledTransaction F)} {tx : FilledTransaction F} {trade : Trade}
    {a : Applied F} (hsplit : t.pre.filledTransactions = before ++ tx :: after)
    (htrade : tradeOf tx = some trade)
    (ha : applyTransactions L (t.opened L s block) before t.height = .ok a) :
    Completes (applyTransaction L t.height a (tx, before.length)) ↔
      TradeFits L (t.opened L s block) (notSkipped before a.skipped) trade := by
  have hopened : SharesHeld (t.opened L s block).markets := by rwa [markets_opened]
  have hmem : tx ∈ t.pre.filledTransactions := by
    rw [hsplit]
    exact List.mem_append_right _ List.mem_cons_self
  obtain ⟨market, hvalid⟩ := validTrade_of_opens h hmem htrade
  rw [completes_applyTransaction_trade htrade]
  exact completes_applyTrade_iff hopened (followed_of_applyTransactions hopened.positive ha)
    (framed_of_applyTransactions ha) hvalid

theorem Opens.of_prepares (h : Prepares L config archive s block t) :
    Opens L config archive s block t :=
  ⟨h.prevalidated, h.period, h.voting, h.coinbase⟩

/-- A block that is connected has not overflowed. -/
theorem tradesComplete_of_prepares (h : Prepares L config archive s block t) :
    TradesComplete L (t.opened L s block) t.height t.pre.filledTransactions := by
  have happlied := h.applied
  constructor
  · intro before tx after a hsplit _ ha
    rw [hsplit, applyTransactions, List.zipIdx_append, List.foldlM_append, bind_eq_ok_iff]
      at happlied
    obtain ⟨a', ha', hrest⟩ := happlied
    obtain rfl := Except.ok.inj (ha'.symm.trans ha)
    rw [List.zipIdx_cons, Nat.zero_add] at hrest
    obtain ⟨_, hstep, -⟩ := bind_eq_ok_iff.mp hrest
    rw [hstep]
    exact reports_ok _
  · intro a marketId ha hchanges
    obtain rfl := Except.ok.inj (happlied.symm.trans ha)
    by_cases hmem : marketId ∈ L.order (amplifiedMarkets t.applied.update)
    · obtain ⟨first, last, hsplit⟩ := List.append_of_mem hmem
      have hwritten := h.written
      simp only [writeMarkets, bind_eq_ok_iff] at hwritten
      obtain ⟨_, -, _, hamplified, -⟩ := hwritten
      rw [hsplit, List.foldlM_append, bind_eq_ok_iff] at hamplified
      obtain ⟨_, -, hrest⟩ := hamplified
      obtain ⟨_, hstep, -⟩ := bind_eq_ok_iff.mp hrest
      obtain ⟨total, htotal, -⟩ := bind_eq_ok_iff.mp hstep
      rw [htotal]
      exact reports_ok total
    · have hnone : t.applied.update.amplifications marketId = [] := by
        refine List.map_eq_nil_iff.mpr (List.filter_eq_nil_iff.mpr ?_)
        intro settlement hsettlement hmarket
        obtain ⟨rfl, hamplify⟩ := of_decide_eq_true hmarket
        refine hmem ((L.order_perm _).mem_iff.mpr (List.mem_dedup.mpr ?_))
        exact List.mem_map.mpr ⟨settlement, List.mem_filter.mpr ⟨hsettlement, hamplify⟩, rfl⟩
      rw [hnone]
      exact reports_ok 0
  · intro a ha hchanges
    obtain rfl := Except.ok.inj (happlied.symm.trans ha)
    rw [h.written]
    exact reports_ok _

variable {lib : WithdrawalBundle.BundleLib} {chain : List (Block F)}

/-- In every state that a node reaches, the arithmetic of the trades and amplifications of a
validated block is safe exactly when they fit: when the shares that a buy leaves are within
`i64`, and its cost and the amplifications of each market within `u64`. -/
theorem tradesComplete_iff (hL : CollisionFree L) {main : MainOutputs}
    (hrun : Run L config lib (fun _ _ => True) (fun _ data => DepositsFrom main data) chain s)
    (h : Opens L config archive s block t) :
    TradesComplete L (t.opened L s block) t.height t.pre.filledTransactions ↔
      BlockFits L (t.opened L s block) t.height t.pre.filledTransactions := by
  obtain ⟨connected, -, hkept⟩ := sharesKept_of_run (tagsOf_tags hL main)
    (fun _ _ hdata => depositsTagged_of_depositsFrom hL hdata) hrun
  have hopened : SharesHeld (t.opened L s block).markets := by
    rw [markets_opened]
    exact hkept.held
  have hkeyed : Keyed (t.opened L s block).markets := by
    rw [markets_opened]
    exact keyed_of_run hrun
  have hsum : ∀ a marketId,
      applyTransactions L (t.opened L s block) t.pre.filledTransactions t.height = .ok a →
        a.update.amplifications marketId =
          amplified marketId (notSkipped t.pre.filledTransactions a.skipped) :=
    fun a marketId ha =>
      (followed_of_applyTransactions hopened.positive ha).collected.amplifications marketId
  constructor
  · intro hcomplete
    constructor
    · intro before tx after trade a hsplit htrade ha
      refine (completes_trade_iff h hkept.held hsplit htrade ha).mp ?_
      exact hcomplete.applied before tx after a hsplit (.inl (by rw [htrade]; rfl)) ha
    · intro a marketId ha hchanges
      rw [← hsum a marketId ha]
      exact completes_sumU64.mp (hcomplete.summed a marketId ha hchanges)
  · intro hfits
    have hamplified : ∀ a, applyTransactions L (t.opened L s block) t.pre.filledTransactions
        t.height = .ok a → a.update.validateAllChanges a.state = .ok () →
          ∀ marketId, (a.update.amplifications marketId).sum ≤ amountMax := by
      intro a ha hchanges marketId
      rw [hsum a marketId ha]
      exact hfits.amplifications a marketId ha hchanges
    constructor
    · rintro before tx after a hsplit (htrade | hamplify) ha
      · obtain ⟨trade, htrade⟩ := Option.isSome_iff_exists.mp htrade
        exact (completes_trade_iff h hkept.held hsplit htrade ha).mpr
          (hfits.trades before tx after trade a hsplit htrade ha)
      · exact completes_applyTransaction_amplify hamplify
    · intro a marketId ha hchanges
      exact completes_sumU64.mpr (hamplified a ha hchanges marketId)
    · intro a ha hchanges
      exact completes_writeMarkets hopened hkeyed ha hchanges (hamplified a ha hchanges)

end

section

open Truthcoin.SampleMarkets Truthcoin.SampleChain

/-- Two buys of one outcome, of which the second is of the greatest number of shares. -/
def hugeTxs : List (Transaction Rat) :=
  [trading 3 "" ten 2, trading 4 "" ⟨i64Max, by decide⟩ 2]

noncomputable def hugeLibrary : Library Rat :=
  knownLibrary (claimTxs ++ createTxs ++ hugeTxs)

/-- The trace of a block up to its transactions; the rest of it is not computed. -/
def openTrace {F : Type} [F64 F] (L : Library F) (config : DecisionConfig) (archive : Archive)
    (s : State F) (block : Block F) : Except Error (Trace F) := do
  let pre ← prevalidate L config archive s block.header block.body
  let opened := startBlock s block.body pre.nextHeight block.mainchainTimestamp
  let currentPeriod ← getCurrentPeriod config block.mainchainTimestamp (some pre.nextHeight)
    (opened.genesisTimestamp.getD 0)
  let voting ← transitionAllToVoting opened.decisions currentPeriod pre.nextHeight
  validateCoinbaseOutputs block.body.coinbase.outputs
  .ok ⟨pre, currentPeriod, voting, ⟨s, StateUpdate.new F, []⟩, s.coins, s.markets, fundsOf s, none,
    s.decisions, consensusTables s, [], s, []⟩

theorem opens_of_openTrace {F : Type} [F64 F] {L : Library F} {config : DecisionConfig}
    {archive : Archive} {s : State F} {block : Block F} {t : Trace F}
    (h : openTrace L config archive s block = .ok t) : Opens L config archive s block t := by
  simp only [openTrace, bind_eq_ok_iff, Except.ok.injEq] at h
  obtain ⟨pre, hpre, period, hperiod, voting, hvoting, _, hcoinbase, rfl⟩ := h
  exact ⟨hpre, hperiod, hvoting, hcoinbase⟩

/-- The computation aborts. -/
def aborts {α : Type} (x : Except Error α) : Bool :=
  match x with
  | .error .panic => true
  | _ => false

theorem not_completes_of_aborts {α : Type} {x : Except Error α} (h : aborts x = true) :
    ¬ Completes x := by
  unfold aborts at h
  split at h
  · exact fun hcomplete => hcomplete _ rfl rfl
  · cases h

/-- The last transaction of a block is a trade that aborts. -/
def lastAborts (L : Library Rat) (s : State Rat) (height : Nat)
    (txs : List (FilledTransaction Rat)) : Bool :=
  txs.getLast?.elim false fun tx => (tradeOf tx).isSome &&
    holds (applyTransactions L s txs.dropLast height) fun a =>
      aborts (applyTransaction L height a (tx, txs.dropLast.length))

theorem not_tradesComplete_of_lastAborts {L : Library Rat} {s : State Rat} {height : Nat}
    {txs : List (FilledTransaction Rat)} (h : lastAborts L s height txs = true) :
    ¬ TradesComplete L s height txs := by
  intro hcomplete
  unfold lastAborts at h
  cases hlast : txs.getLast? with
  | none =>
      rw [hlast] at h
      cases h
  | some tx =>
      rw [hlast, Option.elim_some, Bool.and_eq_true] at h
      obtain ⟨htrade, h⟩ := h
      obtain ⟨a, ha, habort⟩ := holds_iff.mp h
      exact not_completes_of_aborts habort (hcomplete.applied txs.dropLast tx [] a
        (List.dropLast_append_getLast? tx hlast).symm (.inl htrade) ha)

/-- A block of two buys passes validation, and the second overflows the shares of the first. -/
theorem not_tradesComplete :
    ∃ (s : State Rat) (t : Trace Rat),
      Run hugeLibrary marketConfig sampleBundleLib (fun _ _ => True)
        (fun _ data => DepositsFrom sampleMain data)
        [ownedBlock hugeLibrary 2 createTxs, ownedBlock hugeLibrary 1 claimTxs,
          ownedBlock hugeLibrary 0 []] s ∧
      Opens hugeLibrary marketConfig heightArchive s (ownedBlock hugeLibrary 3 hugeTxs) t ∧
      ¬ TradesComplete hugeLibrary (t.opened hugeLibrary s (ownedBlock hugeLibrary 3 hugeTxs))
        t.height t.pre.filledTransactions := by
  have hcomputed : holds (startWith hugeLibrary) (fun s =>
      holds (openTrace hugeLibrary marketConfig heightArchive s (ownedBlock hugeLibrary 3 hugeTxs))
        fun t => lastAborts hugeLibrary
          (t.opened hugeLibrary s (ownedBlock hugeLibrary 3 hugeTxs)) t.height
          t.pre.filledTransactions) = true := by
    decide +kernel
  obtain ⟨s, hs, htest⟩ := holds_iff.mp hcomputed
  obtain ⟨t, ht, habort⟩ := holds_iff.mp htest
  exact ⟨s, t, (chain_of_startWith hs).run, opens_of_openTrace ht,
    not_tradesComplete_of_lastAborts habort⟩

/-- Two markets are traded in a block, and the trades fit. -/
theorem tradesComplete_iff_tradeTxs :
    ∃ (s : State Rat) (t : Trace Rat), marketStart = .ok s ∧
      Opens marketLibrary marketConfig heightArchive s (marketBlock 3 tradeTxs) t ∧
      t.pre.filledTransactions.map FilledTransaction.transaction = tradeTxs ∧
      BlockFits marketLibrary (t.opened marketLibrary s (marketBlock 3 tradeTxs)) t.height
        t.pre.filledTransactions := by
  have hcomputed : holds marketStart (fun s =>
      (applyBlock marketLibrary marketConfig heightArchive s (marketBlock 3 tradeTxs)).isOk) =
        true := by
    decide +kernel
  obtain ⟨s, hs, hblock⟩ := holds_iff.mp hcomputed
  obtain ⟨_, hblock⟩ := isOk_eq_true_iff.mp hblock
  obtain ⟨t, ht, -⟩ := connects_of_applyBlock hblock
  have hopens := Opens.of_prepares ht.toPrepares
  refine ⟨s, t, hs, hopens, (prevalidated_of_prevalidate ht.prevalidated).map_transaction, ?_⟩
  exact (tradesComplete_iff (collisionFree_knownLibrary _) (chain_of_marketStart hs).run
    hopens).mp (tradesComplete_of_prepares ht.toPrepares)

end

end Truthcoin.WriteOverflow
