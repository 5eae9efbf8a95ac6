import Truthcoin.Ledgers
import Truthcoin.ShareAccounts

/-!
# Shares and positions

The shares of a market and the positions of the accounts in it are kept apart. Together they
are a ledger: a trading market has issued its shares, and the accounts hold their positions.
-/

namespace Truthcoin.ShareBooks

open Truthcoin.Types Truthcoin.Table Truthcoin.Fallible Truthcoin.Arithmetic
open Truthcoin.Markets Truthcoin.Apply Truthcoin.Connect Truthcoin.Ledgers
open Truthcoin.Ledgers.Ledger Truthcoin.ShareAccounts

variable {F : Type} {db db' : MarketsDatabase F}

/-- What trades and settlements move: the states and the shares of the markets, and the
positions of the accounts. -/
@[ext]
structure ShareBook where
  state : MarketId → Option MarketState
  shares : PositionKey → Option Int
  held : Address → PositionKey → Int

/-- Shares of one outcome of a market. -/
def outcomeShares (market : Market F) (outcomeIndex : Nat) : Option Int :=
  (market.shares[outcomeIndex]?).map Subtype.val

def bookOf (db : MarketsDatabase F) : ShareBook where
  state marketId := (db.getMarket marketId).map Market.marketState
  shares key := (db.getMarket key.marketId).bind fun market =>
    outcomeShares market key.outcomeIndex
  held a key := amountAt (positionsOf db a) key

/-- The shares of the trading markets, and who holds them. -/
def ShareBook.ledger (b : ShareBook) : Ledger Address PositionKey where
  issued key := if b.state key.marketId = some .trading then (b.shares key).getD 0 else 0
  held := b.held

/-- The stored positions are positive. -/
def Positive (db : MarketsDatabase F) : Prop :=
  ∀ (a : Address) (key : PositionKey) (amount : I64),
    (positionsOf db a)[key]? = some amount → 0 < amount.val

/-- The stored positions are positive and add up to the shares of their markets. -/
structure SharesHeld (db : MarketsDatabase F) : Prop where
  positive : Positive db
  balanced : (bookOf db).ledger.Balanced

/-- Put the state and the shares of a market. -/
def ShareBook.put (b : ShareBook) (marketId : MarketId) (state : Option MarketState)
    (shares : Nat → Option Int) : ShareBook :=
  { b with
    state := fun other => if other = marketId then state else b.state other
    shares := fun key => if key.marketId = marketId then shares key.outcomeIndex
      else b.shares key }

/-- Add amounts to the shares of the markets. -/
def ShareBook.trade (b : ShareBook) (amounts : PositionKey → Int) : ShareBook :=
  { b with shares := fun key => (b.shares key).map (· + amounts key) }

/-- Add amounts to the positions. -/
def ShareBook.move (b : ShareBook) (amounts : Address → PositionKey → Int) : ShareBook :=
  { b with held := fun a key => b.held a key + amounts a key }

/-- Take markets off a book. -/
def ShareBook.without (b : ShareBook) (ids : List MarketId) : ShareBook :=
  { b with
    state := fun marketId => if marketId ∈ ids then none else b.state marketId
    shares := fun key => if key.marketId ∈ ids then none else b.shares key }

theorem ShareBook.trade_zero (b : ShareBook) : (b.trade fun _ => 0) = b := by
  refine ShareBook.ext rfl ?_ rfl
  funext key
  show (b.shares key).map _ = b.shares key
  simp

theorem ShareBook.trade_trade (b : ShareBook) (amounts amounts' : PositionKey → Int) :
    (b.trade amounts).trade amounts' = b.trade fun key => amounts key + amounts' key := by
  refine ShareBook.ext rfl ?_ rfl
  funext key
  show ((b.shares key).map _).map _ = (b.shares key).map _
  rw [Option.map_map]
  refine congrArg (Option.map · (b.shares key)) ?_
  funext n
  exact add_assoc _ _ _

theorem ShareBook.move_zero (b : ShareBook) : (b.move fun _ _ => 0) = b := by
  refine ShareBook.ext rfl rfl ?_
  funext a key
  exact add_zero _

theorem ShareBook.move_move (b : ShareBook) (amounts amounts' : Address → PositionKey → Int) :
    (b.move amounts).move amounts' = b.move fun a key => amounts a key + amounts' a key := by
  refine ShareBook.ext rfl rfl ?_
  funext a key
  exact add_assoc _ _ _

theorem bookOf_congr (hmarkets : db'.markets = db.markets)
    (haccounts : db'.shareAccounts = db.shareAccounts) : bookOf db' = bookOf db := by
  unfold bookOf positionsOf MarketsDatabase.getMarket MarketsDatabase.getUserShareAccount
  rw [hmarkets, haccounts]

theorem positionsOf_congr (haccounts : db'.shareAccounts = db.shareAccounts) (a : Address) :
    positionsOf db' a = positionsOf db a := by
  unfold positionsOf MarketsDatabase.getUserShareAccount
  rw [haccounts]

theorem Positive.congr (h : Positive db) (haccounts : db'.shareAccounts = db.shareAccounts) :
    Positive db' := by
  intro a key amount hamount
  rw [positionsOf_congr haccounts] at hamount
  exact h a key amount hamount

theorem SharesHeld.congr (h : SharesHeld db) (hmarkets : db'.markets = db.markets)
    (haccounts : db'.shareAccounts = db.shareAccounts) : SharesHeld db' where
  positive := h.positive.congr haccounts
  balanced := by
    rw [bookOf_congr hmarkets haccounts]
    exact h.balanced

theorem held_eq (db : MarketsDatabase F) (a : Address) (key : PositionKey) :
    (bookOf db).held a key = (db.ownedShares a key).val :=
  ownedShares_eq.symm

theorem held_of_row {a : Address} {account : ShareAccount}
    (h : db.shareAccounts[a]? = some account) (key : PositionKey) :
    (bookOf db).held a key = (account.getPosition key).val := by
  rw [held_eq, MarketsDatabase.ownedShares, MarketsDatabase.getUserShareAccount, h,
    Option.elim_some]

theorem support_held_subset (db : MarketsDatabase F) (key : PositionKey) :
    (Function.support fun a => (bookOf db).held a key) ⊆
      ((db.shareAccounts.toList.map Prod.fst).toFinset : Set Address) := by
  intro a ha
  rw [Finset.mem_coe, List.mem_toFinset, List.mem_map]
  cases hrow : db.shareAccounts[a]? with
  | some account => exact ⟨(a, account), mem_toList_iff.mpr hrow, rfl⟩
  | none =>
      refine absurd ?_ ha
      dsimp only
      rw [held_eq, MarketsDatabase.ownedShares, MarketsDatabase.getUserShareAccount, hrow]
      rfl

theorem finite_held (db : MarketsDatabase F) (key : PositionKey) :
    (Function.support fun a => (bookOf db).held a key).Finite :=
  (Finset.finite_toSet _).subset (support_held_subset db key)

theorem sum_positions (db : MarketsDatabase F) (key : PositionKey) :
    (db.shareAccounts.toList.map fun row => (row.2.getPosition key).val).sum =
      ∑ᶠ a, (bookOf db).held a key := by
  rw [finsum_eq_sum_of_support_subset _ (support_held_subset db key),
    List.sum_toFinset _ (toList_keys_nodup db.shareAccounts), List.map_map]
  refine congrArg List.sum (List.map_congr_left ?_)
  intro row hrow
  exact (held_of_row (mem_toList_iff.mp hrow) key).symm

section

variable {marketId : MarketId} {market : Market F}

theorem state_of_getMarket (h : db.getMarket marketId = some market) :
    (bookOf db).state marketId = some market.marketState :=
  congrArg (Option.map Market.marketState) h

theorem shares_of_getMarket {key : PositionKey} (h : db.getMarket key.marketId = some market) :
    (bookOf db).shares key = outcomeShares market key.outcomeIndex :=
  congrArg (Option.bind · fun market => outcomeShares market key.outcomeIndex) h

theorem issued_of_trading {b : ShareBook} {key : PositionKey}
    (h : b.state key.marketId = some .trading) :
    b.ledger.issued key = (b.shares key).getD 0 :=
  if_pos h

theorem SharesHeld.sum_positions (h : SharesHeld db)
    (hmarket : db.getMarket marketId = some market) (htrading : market.marketState = .trading)
    {outcomeIndex : Nat} {shares : I64} (hshares : market.shares[outcomeIndex]? = some shares) :
    (db.shareAccounts.toList.map fun row =>
      (row.2.getPosition ⟨marketId, outcomeIndex⟩).val).sum = shares.val := by
  have hstate : (bookOf db).state marketId = some .trading := by
    rw [state_of_getMarket hmarket, htrading]
  have hissued : (bookOf db).shares ⟨marketId, outcomeIndex⟩ = some shares.val := by
    rw [shares_of_getMarket hmarket, outcomeShares, hshares, Option.map_some]
  calc (db.shareAccounts.toList.map fun row =>
        (row.2.getPosition ⟨marketId, outcomeIndex⟩).val).sum
      = ∑ᶠ a, (bookOf db).held a ⟨marketId, outcomeIndex⟩ := ShareBooks.sum_positions db _
    _ = (bookOf db).ledger.issued ⟨marketId, outcomeIndex⟩ := (h.balanced.total _).symm
    _ = shares.val := by rw [issued_of_trading hstate, hissued, Option.getD_some]

end

theorem bookOf_insert {market : Market F}
    (hmarkets : db'.markets = db.markets.insert market.id market)
    (haccounts : db'.shareAccounts = db.shareAccounts) :
    bookOf db' =
      (bookOf db).put market.id (some market.marketState) (outcomeShares market) := by
  have hget : ∀ marketId, db'.getMarket marketId =
      if marketId = market.id then some market else db.getMarket marketId := by
    intro marketId
    rw [MarketsDatabase.getMarket, hmarkets]
    exact lookup_insert
  refine ShareBook.ext ?_ ?_ ?_
  · funext marketId
    show (db'.getMarket marketId).map _ = ite _ _ _
    rw [hget]
    split
    · rfl
    · rfl
  · funext key
    show (db'.getMarket key.marketId).bind _ = ite _ _ _
    rw [hget]
    split
    · rfl
    · rfl
  · funext a key
    show amountAt (positionsOf db' a) key = amountAt (positionsOf db a) key
    rw [positionsOf_congr haccounts]

theorem put_eq_trade {old new : Market F} {marketId : MarketId}
    (hold : db.getMarket marketId = some old) (hstate : new.marketState = old.marketState)
    {amounts : Nat → Int} (hshares : ∀ i, outcomeShares new i =
      (outcomeShares old i).map (· + amounts i)) :
    (bookOf db).put marketId (some new.marketState) (outcomeShares new) =
      (bookOf db).trade fun key =>
        if key.marketId = marketId then amounts key.outcomeIndex else 0 := by
  refine ShareBook.ext ?_ ?_ rfl
  · funext other
    show (if other = marketId then some new.marketState else (bookOf db).state other) =
      (bookOf db).state other
    split
    · rename_i heq
      rw [heq, state_of_getMarket hold, hstate]
    · rfl
  · funext key
    show (if key.marketId = marketId then outcomeShares new key.outcomeIndex
        else (bookOf db).shares key) =
      ((bookOf db).shares key).map
        (· + if key.marketId = marketId then amounts key.outcomeIndex else 0)
    split
    · rename_i heq
      rw [shares_of_getMarket (heq ▸ hold), hshares]
    · simp

theorem lookup_set_add {xs : List I64} {i : Nat} {x y : I64} {delta : Int}
    (hx : xs[i]? = some x) (hy : y.val = x.val + delta) (j : Nat) :
    ((xs.set i y)[j]?).map Subtype.val =
      (xs[j]?).map fun x => x.val + if i = j then delta else 0 := by
  rw [List.getElem?_set]
  by_cases hij : i = j
  · subst hij
    have hlt : i < xs.length := (List.getElem?_eq_some_iff.mp hx).1
    rw [if_pos rfl, if_pos hlt, hx, Option.map_some, Option.map_some, hy, if_pos rfl]
  · rw [if_neg hij]
    simp only [if_neg hij, add_zero]

theorem lookup_addAt {xs ys : List I64} {i : Nat} {delta : I64} (h : addAt xs i delta = .ok ys)
    (j : Nat) :
    (ys[j]?).map Subtype.val =
      (xs[j]?).map fun x => x.val + if i = j then delta.val else 0 := by
  obtain ⟨x, y, hx, hy, rfl⟩ := addAt_eq_ok_iff.mp h
  exact lookup_set_add hx hy j

theorem lookup_subAt {xs ys : List I64} {i : Nat} {delta : I64} (h : subAt xs i delta = .ok ys)
    (j : Nat) :
    (ys[j]?).map Subtype.val =
      (xs[j]?).map fun x => x.val + if i = j then -delta.val else 0 := by
  obtain ⟨x, y, hx, hy, rfl⟩ := subAt_eq_ok_iff.mp h
  exact lookup_set_add hx (hy.trans (sub_eq_add_neg _ _)) j

def posting (c : ShareKey × I64) : Address × PositionKey × ℤ :=
  (c.1.address, c.1.position, c.2.val)

/-- What a list of changes adds to a position. -/
def netChange (changes : List (ShareKey × I64)) : Address → PositionKey → Int :=
  heldBy (changes.map posting)

theorem netChange_perm {changes changes' : List (ShareKey × I64)} (h : changes.Perm changes') :
    netChange changes = netChange changes' :=
  heldBy_perm (h.map posting)

theorem netChange_toList (changes : ShareChanges) (a : Address) (key : PositionKey) :
    netChange changes.toList a key =
      (changes[(⟨a, key⟩ : ShareKey)]?.getD I64.zero).val := by
  have hsum := sum_toList_row changes (⟨a, key⟩ : ShareKey) Subtype.val
  rw [netChange, heldBy, List.map_map]
  refine (congrArg List.sum (List.map_congr_left ?_)).trans (hsum.trans ?_)
  · rintro ⟨⟨a', key'⟩, amount⟩ -
    exact if_congr (ShareKey.mk.injEq ..).symm.to_iff rfl rfl
  · cases changes[(⟨a, key⟩ : ShareKey)]? with
    | none => rfl
    | some amount => rfl

theorem bookOf_withPositions {a : Address} {key : PositionKey} {delta : Int} {t : Positions}
    (h : Moves (positionsOf db a) key delta t) (height : Nat) :
    bookOf (withPositions db a t height) =
      (bookOf db).move fun a' key' => if a = a' ∧ key = key' then delta else 0 := by
  refine ShareBook.ext rfl rfl ?_
  funext a' key'
  show amountAt (positionsOf (withPositions db a t height) a') key' =
    amountAt (positionsOf db a') key' + if a = a' ∧ key = key' then delta else 0
  rw [positionsOf_withPositions]
  by_cases ha : a = a'
  · subst ha
    rw [if_pos rfl, h.amountAt_eq]
    by_cases hkey : key = key'
    · rw [if_pos hkey, if_pos ⟨rfl, hkey⟩, hkey]
    · rw [if_neg hkey, if_neg fun hand => hkey hand.2, add_zero]
  · rw [if_neg ha, if_neg fun hand => ha hand.1, add_zero]

theorem Positive.held_nonneg (h : Positive db) (a : Address) (key : PositionKey) :
    0 ≤ (bookOf db).held a key := by
  show 0 ≤ amountAt (positionsOf db a) key
  unfold amountAt
  cases hrow : (positionsOf db a)[key]? with
  | none => exact le_rfl
  | some amount => exact (h a key amount hrow).le

theorem Positive.withPositions (h : Positive db) {a : Address} {key : PositionKey} {delta : Int}
    {t : Positions} (hmoves : Moves (positionsOf db a) key delta t) (height : Nat) :
    Positive (withPositions db a t height) := by
  intro a' key' amount' hrow
  rw [positionsOf_withPositions] at hrow
  by_cases ha : a = a'
  · subst ha
    rw [if_pos rfl] at hrow
    have hold := h.held_nonneg a key
    obtain ⟨amount, hamount, hnonneg, rfl⟩ := hmoves
    replace hold : 0 ≤ amountAt (positionsOf db a) key := hold
    split at hrow
    · rename_i hpos
      rw [lookup_insert] at hrow
      split at hrow
      · rw [← Option.some.inj hrow]
        omega
      · exact h a key' amount' hrow
    · rw [lookup_erase] at hrow
      split at hrow
      · cases hrow
      · exact h a key' amount' hrow
  · rw [if_neg ha] at hrow
    exact h a' key' amount' hrow

theorem changeShares_moves {a : Address} {key : PositionKey} {delta : I64} {height : Nat}
    (hdb : Positive db) (h : db.changeShares a key delta height = .ok db') :
    Positive db' ∧ bookOf db' =
      (bookOf db).move fun a' key' => if a = a' ∧ key = key' then delta.val else 0 := by
  by_cases hzero : delta.val = 0
  · have hsame : db.changeShares a key delta height = .ok db := by
      simp [MarketsDatabase.changeShares, hzero]
    obtain rfl := Except.ok.inj (hsame.symm.trans h)
    refine ⟨hdb, ShareBook.ext rfl rfl ?_⟩
    funext a' key'
    show _ = _ + ite _ _ _
    rw [hzero, ite_self, add_zero]
  · obtain ⟨t, hmoves, rfl⟩ := (changeShares_iff hzero).mp h
    exact ⟨hdb.withPositions hmoves height, bookOf_withPositions hmoves height⟩

theorem foldlM_moves {α : Type} {f : MarketsDatabase F → α → Except Error (MarketsDatabase F)}
    {amount : α → Address → PositionKey → Int} {l : List α}
    (hstep : ∀ x ∈ l, ∀ d d', Positive d → f d x = .ok d' →
      Positive d' ∧ bookOf d' = (bookOf d).move (amount x))
    (hdb : Positive db) (h : l.foldlM f db = .ok db') :
    Positive db' ∧ bookOf db' = (bookOf db).move fun a key => (l.map (amount · a key)).sum := by
  induction l generalizing db with
  | nil =>
      obtain rfl := Except.ok.inj h
      exact ⟨hdb, (ShareBook.move_zero _).symm⟩
  | cons x l ih =>
      obtain ⟨db₁, hfirst, hrest⟩ := bind_eq_ok_iff.mp h
      obtain ⟨hdb₁, hmove⟩ := hstep x List.mem_cons_self db db₁ hdb hfirst
      obtain ⟨hdb', hmoves⟩ := ih (fun y hy => hstep y (List.mem_cons_of_mem x hy)) hdb₁ hrest
      refine ⟨hdb', ?_⟩
      rw [hmoves, hmove, ShareBook.move_move]
      simp only [List.map_cons, List.sum_cons]

theorem shareChanges_move {changes : List (ShareKey × I64)} {height : Nat} (hdb : Positive db)
    (h : changes.foldlM (applyShareChange height) db = .ok db') :
    Positive db' ∧ bookOf db' = (bookOf db).move (netChange changes) := by
  obtain ⟨hdb', hmoves⟩ := foldlM_moves
    (fun _ _ _ _ hd hchange => changeShares_moves hd hchange) hdb h
  refine ⟨hdb', hmoves.trans (congrArg (bookOf db).move ?_)⟩
  funext a key
  rw [netChange, heldBy, List.map_map]
  rfl

end Truthcoin.ShareBooks
