import Truthcoin.ConnectTrace

/-!
# What the operations on markets change

Writing a market touches its record and the indexes; changing shares touches the
share accounts; neither touches the pointers to the funds.
-/

namespace Truthcoin.MarketSteps

open Truthcoin.Types Truthcoin.Table Truthcoin.Fallible Truthcoin.Arithmetic
open Truthcoin.Decisions Truthcoin.Markets Truthcoin.Blocks Truthcoin.Apply Truthcoin.Connect
open Truthcoin.Disconnect

variable {F : Type} {db db' : MarketsDatabase F} {market : Market F}

@[simp]
theorem addMarket_markets :
    (db.addMarket market).markets = db.markets.insert market.id market := rfl

@[simp]
theorem addMarket_funds : (db.addMarket market).marketFundsUtxos = db.marketFundsUtxos := rfl

@[simp]
theorem addMarket_accounts : (db.addMarket market).shareAccounts = db.shareAccounts := rfl

@[simp]
theorem writeMarketAndIndexes_markets :
    (db.writeMarketAndIndexes market).markets = db.markets.insert market.id market := by
  unfold MarketsDatabase.writeMarketAndIndexes
  split <;> rfl

@[simp]
theorem writeMarketAndIndexes_funds :
    (db.writeMarketAndIndexes market).marketFundsUtxos = db.marketFundsUtxos := by
  unfold MarketsDatabase.writeMarketAndIndexes
  split <;> rfl

@[simp]
theorem writeMarketAndIndexes_accounts :
    (db.writeMarketAndIndexes market).shareAccounts = db.shareAccounts := by
  unfold MarketsDatabase.writeMarketAndIndexes
  split <;> rfl

theorem updateMarket_eq_ok_iff :
    db.updateMarket market = .ok db' ↔
      (∀ old, db.getMarket market.id = some old →
        old.marketState.canTransitionTo market.marketState = true) ∧
      db' = db.writeMarketAndIndexes market := by
  simp only [MarketsDatabase.updateMarket, bind_eq_ok_iff, option_forM_eq_ok_iff,
    ensure_eq_ok_iff, Except.ok.injEq]
  constructor
  · rintro ⟨_, hold, rfl⟩
    exact ⟨hold, rfl⟩
  · rintro ⟨hold, rfl⟩
    exact ⟨(), hold, rfl⟩

theorem canTransitionTo_self (s : MarketState) : s.canTransitionTo s = true := by
  cases s <;> rfl

theorem addSharesToAccount_framed {address : Address} {key : PositionKey} {shares : I64}
    {height : Nat} (h : db.addSharesToAccount address key shares height = .ok db') :
    db' = { db with shareAccounts := db'.shareAccounts } := by
  simp only [MarketsDatabase.addSharesToAccount, bind_eq_ok_iff, Except.ok.injEq] at h
  obtain ⟨_, _, rfl⟩ := h
  rfl

theorem removeSharesFromAccount_framed {address : Address} {key : PositionKey} {shares : I64}
    {height : Nat} (h : db.removeSharesFromAccount address key shares height = .ok db') :
    db' = { db with shareAccounts := db'.shareAccounts } := by
  simp only [MarketsDatabase.removeSharesFromAccount, bind_eq_ok_iff, Except.ok.injEq] at h
  obtain ⟨_, _, _, _, rfl⟩ := h
  rfl

theorem changeShares_framed {address : Address} {key : PositionKey} {delta : I64}
    {height : Nat} (h : db.changeShares address key delta height = .ok db') :
    db' = { db with shareAccounts := db'.shareAccounts } := by
  unfold MarketsDatabase.changeShares at h
  split at h
  · exact addSharesToAccount_framed h
  · split at h
    · obtain ⟨_, _, h⟩ := bind_eq_ok_iff.mp h
      exact removeSharesFromAccount_framed h
    · rw [← Except.ok.inj h]

theorem shareChanges_framed {changes : List (ShareKey × I64)} {height : Nat}
    (h : changes.foldlM (applyShareChange height) db = .ok db') :
    db' = { db with shareAccounts := db'.shareAccounts } := by
  refine foldlM_preserves (P := fun d => d = { db with shareAccounts := d.shareAccounts })
    ?_ h rfl
  intro change _ d d' hd hstep
  rw [changeShares_framed hstep]
  conv_lhs => rw [hd]

theorem applyMarketUpdates_funds {u : StateUpdate F} {height : Nat}
    {marketId : MarketId} (h : applyMarketUpdates u height db marketId = .ok db') :
    db'.marketFundsUtxos = db.marketFundsUtxos := by
  simp only [applyMarketUpdates, bind_eq_ok_iff, updateMarket_eq_ok_iff, Except.ok.injEq] at h
  obtain ⟨_, _, _, _, _, _, _, ⟨-, rfl⟩, rfl⟩ := h
  simp [MarketsDatabase.clearMempoolShares]

theorem applyAmplifications_funds {u : StateUpdate F} {marketId : MarketId}
    (h : applyAmplifications u db marketId = .ok db') :
    db'.marketFundsUtxos = db.marketFundsUtxos := by
  simp only [applyAmplifications, bind_eq_ok_iff, updateMarket_eq_ok_iff] at h
  obtain ⟨_, _, _, _, _, _, -, rfl⟩ := h
  simp

theorem foldl_addMarket_funds (markets : List (Market F)) (db : MarketsDatabase F) :
    (markets.foldl MarketsDatabase.addMarket db).marketFundsUtxos = db.marketFundsUtxos := by
  induction markets generalizing db with
  | nil => rfl
  | cons m markets ih => rw [List.foldl_cons, ih, addMarket_funds]

theorem writes_funds {u : StateUpdate F} {height : Nat} {created : List (Market F)}
    {updated amplified : List MarketId} {changes : List (ShareKey × I64)}
    {db₁ db₂ : MarketsDatabase F}
    (h₁ : updated.foldlM (applyMarketUpdates u height)
      (created.foldl MarketsDatabase.addMarket db) = .ok db₁)
    (h₂ : amplified.foldlM (applyAmplifications u) db₁ = .ok db₂)
    (h₃ : changes.foldlM (applyShareChange height) db₂ = .ok db') :
    db'.marketFundsUtxos = db.marketFundsUtxos := by
  have hupdates := foldlM_preserves
    (P := fun d : MarketsDatabase F => d.marketFundsUtxos = db.marketFundsUtxos)
    (fun _ _ _ _ hd hstep => (applyMarketUpdates_funds hstep).trans hd) h₁
    (foldl_addMarket_funds _ _)
  have hamplify := foldlM_preserves
    (P := fun d : MarketsDatabase F => d.marketFundsUtxos = db.marketFundsUtxos)
    (fun _ _ _ _ hd hstep => (applyAmplifications_funds hstep).trans hd) h₂ hupdates
  rw [shareChanges_framed h₃]
  exact hamplify

theorem writeMarkets_funds {L : Library F} {u : StateUpdate F} {height : Nat}
    (h : writeMarkets L u height db = .ok db') :
    db'.marketFundsUtxos = db.marketFundsUtxos := by
  simp only [writeMarkets, bind_eq_ok_iff, Except.ok.injEq] at h
  obtain ⟨db₁, h₁, db₂, h₂, db₃, h₃, _, -, rfl⟩ := h
  exact writes_funds h₁ h₂ h₃

end Truthcoin.MarketSteps
