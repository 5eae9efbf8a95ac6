import Truthcoin.CostPotential
import Truthcoin.OutcomeSpace

/-!
# The records that a block writes

The trades and the amplifications of a block rewrite the record of each market once: its shares
are moved by the trades, and its liquidity grows by the amplifications.
-/

namespace Truthcoin.WrittenRecords

open Truthcoin.Types Truthcoin.Table Truthcoin.Fallible Truthcoin.Arithmetic
open Truthcoin.Markets Truthcoin.Blocks Truthcoin.Trading Truthcoin.Apply Truthcoin.Connect
open Truthcoin.MarketSteps Truthcoin.MarketRecords Truthcoin.ShareWrites
open Truthcoin.CostPotential

variable {F : Type} {db db' : MarketsDatabase F} {u : StateUpdate F} {height : Nat}
  {marketId : MarketId} {old new market : Market F}

/-- A step that rewrites the record of one market. -/
def Rewrites (rewrite : MarketId → Market F → Except Error (Market F))
    (step : MarketsDatabase F → MarketId → Except Error (MarketsDatabase F)) : Prop :=
  ∀ db db' marketId, Keyed db → step db marketId = .ok db' → Keyed db' ∧
    ∃ old new, db.getMarket marketId = some old ∧ rewrite marketId old = .ok new ∧
      ∀ m, db'.getMarket m = if m = marketId then some new else db.getMarket m

theorem record_of_rewrites {rewrite : MarketId → Market F → Except Error (Market F)}
    {step : MarketsDatabase F → MarketId → Except Error (MarketsDatabase F)}
    (hstep : Rewrites rewrite step) {ids : List MarketId} (hnodup : ids.Nodup) (hdb : Keyed db)
    (h : ids.foldlM step db = .ok db') (hnew : db'.getMarket marketId = some new) :
    ∃ old, db.getMarket marketId = some old ∧
      if marketId ∈ ids then rewrite marketId old = .ok new else new = old := by
  induction ids generalizing db with
  | nil =>
      obtain rfl := Except.ok.inj h
      exact ⟨new, hnew, rfl⟩
  | cons id ids ih =>
      obtain ⟨db₁, hfirst, hrest⟩ := bind_eq_ok_iff.mp h
      rw [List.nodup_cons] at hnodup
      obtain ⟨hkeyed, first, written, hfound, hwritten, hlookup⟩ := hstep _ _ _ hdb hfirst
      obtain ⟨mid, hmid, hlater⟩ := ih hnodup.2 hkeyed hrest
      rw [hlookup] at hmid
      by_cases heq : marketId = id
      · subst heq
        rw [if_pos rfl] at hmid
        obtain rfl := Option.some.inj hmid
        rw [if_neg hnodup.1] at hlater
        refine ⟨first, hfound, ?_⟩
        rw [if_pos List.mem_cons_self, hlater]
        exact hwritten
      · rw [if_neg heq] at hmid
        refine ⟨mid, hmid, ?_⟩
        simpa only [List.mem_cons, heq, false_or] using hlater

theorem getMarket_putRecord (m : MarketId) :
    (putRecord db market).getMarket m =
      if m = market.id then some market else db.getMarket m :=
  lookup_insert

theorem rewrites_applyMarketUpdates (u : StateUpdate F) (height : Nat) :
    Rewrites (tradedRecord u height) (applyMarketUpdates u height) := by
  intro db db' marketId hdb h
  refine ⟨hdb.applyMarketUpdates h, ?_⟩
  obtain ⟨old, new, hold, hnew, rfl⟩ := (applyMarketUpdates_iff hdb).mp h
  refine ⟨old, new, hold, hnew, fun m => ?_⟩
  rw [← hdb marketId old hold, ← (tradedRecord_listing hnew).id]
  exact getMarket_putRecord m

theorem rewrites_applyAmplifications (u : StateUpdate F) :
    Rewrites (amplifiedRecord u) (applyAmplifications u) := by
  intro db db' marketId hdb h
  refine ⟨hdb.applyAmplifications h, ?_⟩
  obtain ⟨old, new, hold, hnew, rfl⟩ := (applyAmplifications_iff hdb).mp h
  refine ⟨old, new, hold, hnew, fun m => ?_⟩
  rw [← hdb marketId old hold, ← (amplifiedRecord_listing hnew).id]
  exact getMarket_putRecord m

/-- What the trades and the amplifications of a block make of a record. -/
structure Written (u : StateUpdate F) (marketId : MarketId) (old new : Market F) : Prop where
  state : new.marketState = old.marketState
  outcomes : new.outcomes = old.outcomes
  shares : moveShares (movesOf (u.updatesOf marketId)) old.shares = .ok new.shares
  liquidity : new.liquidityBaseSats = old.liquidityBaseSats + (u.amplifications marketId).sum
  bounded : old.liquidityBaseSats ≤ amountMax → new.liquidityBaseSats ≤ amountMax

theorem tradedRecord_eq_ok (h : tradedRecord u height marketId old = .ok new) :
    moveShares (movesOf (u.updatesOf marketId)) old.shares = .ok new.shares ∧
      new.liquidityBaseSats = old.liquidityBaseSats ∧ new.outcomes = old.outcomes := by
  simp only [tradedRecord, Market.updateState, bind_eq_ok_iff, mapError_eq_ok_iff,
    Except.ok.injEq] at h
  obtain ⟨⟨traded, shares⟩, hfold, _, -, _, -, rfl⟩ := h
  refine ⟨moveShares_of_addUpdates hfold, ?_⟩
  refine foldlM_preserves
    (P := fun acc : Market F × List I64 => acc.1.liquidityBaseSats = old.liquidityBaseSats ∧
      acc.1.outcomes = old.outcomes) ?_ hfold ⟨rfl, rfl⟩
  rintro update - acc acc' hacc hstep
  simp only [addUpdate, Market.updateTradingVolume, Market.changeVolume, bind_eq_ok_iff,
    mapError_eq_ok_iff, Except.ok.injEq] at hstep
  obtain ⟨_, -, _, ⟨_, -, rfl⟩, rfl⟩ := hstep
  exact hacc

theorem amplifiedRecord_eq_ok (h : amplifiedRecord u marketId old = .ok new) :
    new.shares = old.shares ∧
      new.liquidityBaseSats = old.liquidityBaseSats + (u.amplifications marketId).sum ∧
      new.liquidityBaseSats ≤ amountMax ∧ new.outcomes = old.outcomes := by
  simp only [amplifiedRecord, bind_eq_ok_iff, okOr_eq_ok_iff, checkedAdd_eq_some_iff,
    Except.ok.injEq] at h
  obtain ⟨total, htotal, liquidity, ⟨hle, rfl⟩, rfl⟩ := h
  obtain ⟨-, rfl⟩ := sumU64_eq_ok_iff.mp htotal
  exact ⟨rfl, rfl, hle, rfl⟩

theorem updatesOf_eq_nil (h : marketId ∉ updatedMarkets u) : u.updatesOf marketId = [] := by
  rw [updatedMarkets, List.mem_dedup] at h
  refine List.filter_eq_nil_iff.mpr fun update hupdate => ?_
  rw [decide_eq_true_iff]
  rintro rfl
  exact h (List.mem_map_of_mem hupdate)

theorem amplifications_eq_nil (h : marketId ∉ amplifiedMarkets u) :
    u.amplifications marketId = [] := by
  rw [amplifiedMarkets, List.mem_dedup] at h
  rw [StateUpdate.amplifications, List.map_eq_nil_iff]
  refine List.filter_eq_nil_iff.mpr fun b hb => ?_
  rw [decide_eq_true_iff]
  rintro ⟨rfl, hamplify⟩
  exact h (List.mem_map_of_mem (List.mem_filter.mpr ⟨hb, hamplify⟩))

theorem length_moveShares {moves : List (Nat × I64)} {shares shares' : List I64}
    (h : moveShares moves shares = .ok shares') : shares'.length = shares.length := by
  refine foldlM_preserves (P := fun xs : List I64 => xs.length = shares.length) ?_ h rfl
  intro move _ xs ys hxs hstep
  obtain ⟨x, y, -, -, rfl⟩ := addAt_eq_ok_iff.mp hstep
  rw [List.length_set, hxs]

/-- A market has shares of each of its outcomes. -/
def Shaped (market : Market F) : Prop :=
  market.shares.length = market.outcomes.length

theorem Written.shaped (h : Written u marketId old new) (hold : Shaped old) : Shaped new := by
  rw [Shaped, length_moveShares h.shares, h.outcomes]
  exact hold

/-- Every record after a block is one of those before it or of a created market, moved by the
trades and grown by the amplifications. -/
theorem written_of_writeMarkets [F64 F] {L : Library F} (hdb : Keyed db)
    (h : writeMarkets L u height db = .ok db') (hnew : db'.getMarket marketId = some new) :
    ∃ old, (u.marketCreations.foldl MarketsDatabase.addMarket db).getMarket marketId = some old ∧
      Written u marketId old new := by
  simp only [writeMarkets, bind_eq_ok_iff, Except.ok.injEq] at h
  obtain ⟨db₁, h₁, db₂, h₂, db₃, h₃, _, -, rfl⟩ := h
  rw [shareChanges_framed h₃] at hnew
  have hadded : Keyed (u.marketCreations.foldl MarketsDatabase.addMarket db) := hdb.addMarkets _
  have hupdated : Keyed db₁ := foldlM_preserves (P := Keyed)
    (fun _ _ _ _ hd hstep => hd.applyMarketUpdates hstep) h₁ hadded
  obtain ⟨mid, hmid, hamplified⟩ := record_of_rewrites (rewrites_applyAmplifications u)
    ((L.order_perm _).nodup_iff.mpr (List.nodup_dedup _)) hupdated h₂ hnew
  obtain ⟨old, hold, htraded⟩ := record_of_rewrites (rewrites_applyMarketUpdates u height)
    ((L.order_perm _).nodup_iff.mpr (List.nodup_dedup _)) hadded h₁ hmid
  have hmid' : moveShares (movesOf (u.updatesOf marketId)) old.shares = .ok mid.shares ∧
      mid.liquidityBaseSats = old.liquidityBaseSats ∧ mid.outcomes = old.outcomes ∧
      mid.marketState = old.marketState := by
    split at htraded
    · obtain ⟨hshares, hliquidity, houtcomes⟩ := tradedRecord_eq_ok htraded
      exact ⟨hshares, hliquidity, houtcomes, (tradedRecord_listing htraded).marketState⟩
    · rename_i hmem
      rw [(L.order_perm _).mem_iff] at hmem
      rw [htraded, updatesOf_eq_nil hmem]
      exact ⟨rfl, rfl, rfl, rfl⟩
  have hnew' : new.shares = mid.shares ∧
      new.liquidityBaseSats = mid.liquidityBaseSats + (u.amplifications marketId).sum ∧
      (mid.liquidityBaseSats ≤ amountMax → new.liquidityBaseSats ≤ amountMax) ∧
      new.outcomes = mid.outcomes ∧ new.marketState = mid.marketState := by
    split at hamplified
    · obtain ⟨hshares, hliquidity, hle, houtcomes⟩ := amplifiedRecord_eq_ok hamplified
      exact ⟨hshares, hliquidity, fun _ => hle, houtcomes,
        (amplifiedRecord_listing hamplified).marketState⟩
    · rename_i hmem
      rw [(L.order_perm _).mem_iff] at hmem
      rw [hamplified, amplifications_eq_nil hmem]
      exact ⟨rfl, rfl, id, rfl, rfl⟩
  obtain ⟨hmoved, hliquidity, hsame, hstate⟩ := hmid'
  obtain ⟨hshares, hgrown, hbounded, hsame', hkept⟩ := hnew'
  refine ⟨old, hold, hkept.trans hstate, hsame'.trans hsame, ?_, ?_, ?_⟩
  · rw [hshares, hmoved]
  · rw [hgrown, hliquidity]
  · rw [hliquidity] at hbounded
    exact hbounded

theorem getMarket_addMarkets_cases {markets : List (Market F)}
    (h : (markets.foldl MarketsDatabase.addMarket db).getMarket marketId = some market) :
    (db.getMarket marketId = some market ∧ marketId ∉ markets.map Market.id) ∨
      (market ∈ markets ∧ market.id = marketId) := by
  induction markets generalizing db with
  | nil => exact .inl ⟨h, List.not_mem_nil⟩
  | cons first markets ih =>
      rcases ih h with ⟨hfound, hnot⟩ | ⟨hmem, hid⟩
      · rw [MarketsDatabase.getMarket, addMarket_markets, lookup_insert] at hfound
        split at hfound
        · rename_i heq
          obtain rfl := Option.some.inj hfound
          exact .inr ⟨List.mem_cons_self, heq.symm⟩
        · rename_i hne
          refine .inl ⟨hfound, ?_⟩
          rw [List.map_cons, List.mem_cons, not_or]
          exact ⟨hne, hnot⟩
      · exact .inr ⟨List.mem_cons_of_mem _ hmem, hid⟩

end Truthcoin.WrittenRecords
