import Truthcoin.Apply

/-!
# Trades in both builds

Plain arithmetic aborts on an overflow where the build checks it, and wraps around in the
release build, which has no such checks. The transactions of a block as both builds apply them;
with the checks they are applied as everywhere else.
-/

namespace Truthcoin.Builds

open Truthcoin.Types Truthcoin.Table Truthcoin.Fallible Truthcoin.Arithmetic
open Truthcoin.Markets Truthcoin.Blocks Truthcoin.Trading Truthcoin.Validation
open Truthcoin.Settlement Truthcoin.Apply

inductive Build where
  | checked
  | release
  deriving DecidableEq, Repr

/-- The `i64` with the low bits of a number. -/
def wrapI64 (n : Int) : I64 :=
  ⟨n.bmod (2 ^ 64), by
    have hlow := Int.le_bmod (x := n) (m := 2 ^ 64) (by decide)
    have hhigh := Int.bmod_lt (x := n) (m := 2 ^ 64) (by decide)
    norm_num [i64Min, i64Max] at hlow hhigh ⊢
    omega⟩

namespace Build

/-- `a + b` on `u64`; nothing when it aborts. -/
def addU64 : Build → Nat → Nat → Option Nat
  | .checked, a, b => checkedAdd a b
  | .release, a, b => some ((a + b) % 2 ^ 64)

/-- `a + b` on `i64`. -/
def addI64 : Build → I64 → I64 → Except Error I64
  | .checked, a, b => Arithmetic.addI64 a b
  | .release, a, b => .ok (wrapI64 (a.val + b.val))

variable (build : Build)

def sumU64 (values : List Nat) : Except Error Nat :=
  values.foldlM (fun a b => okOr (build.addU64 a b) .panic) 0

/-- `xs[i] += delta` on a vector of `i64` values. -/
def addAt (xs : List I64) (i : Nat) (delta : I64) : Except Error (List I64) := do
  let x ← index xs i
  let y ← build.addI64 x delta
  .ok (xs.set i y)

def addShareAccountChange (changes : ShareChanges) (key : ShareKey) (delta : I64) :
    Except Error ShareChanges := do
  let net ← build.addI64 (changes[key]?.getD I64.zero) delta
  .ok (changes.insert key net)

variable {F : Type} [F64 F]

def calculateBuyCost (baseCost tradingFeePct : F) : Except SatoshiError BuyCost := do
  let baseCostSats ← toSats baseCost .up
  let calculatedFeeSats ← toSats (F64.mul baseCost tradingFeePct) .nearest
  let tradingFeeSats := max calculatedFeeSats minTradingFeeSats
  let totalCostSats ← okOr (build.addU64 baseCostSats tradingFeeSats) .panic
  .ok ⟨baseCostSats, tradingFeeSats, totalCostSats⟩

def buyCost (L : Library F) (texts : CostTexts) (tradingFee : F) (old new : List I64)
    (beta : F) : Except Error BuyCost := do
  let baseCost ← calculateUpdateCost L texts.updateCost old new beta
  (build.calculateBuyCost baseCost tradingFee).mapError (SatoshiError.toError texts.amount)

def runningMarketState (marketId : MarketId) (market : Market F) (u : StateUpdate F) :
    Except Error (List I64 × F) := do
  let effectiveShares ← (u.updatesOf marketId).foldlM
    (fun shares update => build.addAt shares update.outcomeIndex update.delta) market.shares
  let pendingAmplify ← build.sumU64 (u.amplifications marketId)
  let runningBase := saturatingAdd market.liquidityBaseSats pendingAmplify
  .ok (effectiveShares, deriveBetaFromLiquidity runningBase effectiveShares.length)

def addTrade (u : StateUpdate F) (trade : Trade) (volumeSats : Nat) :
    Except Error (StateUpdate F) := do
  let changes ← build.addShareAccountChange u.shareAccountChanges
    ⟨trade.trader, trade.position⟩ trade.shares
  .ok { u with
    marketUpdates := u.marketUpdates ++
      [⟨trade.marketId, trade.outcomeIndex, trade.shares, volumeSats⟩]
    shareAccountChanges := changes }

variable (L : Library F)

/-- Nothing is returned for a buy that would cost more than its limit. -/
def applyBuy (u : StateUpdate F) (tx : FilledTransaction F) (trade : Trade)
    (market : Market F) (effectiveShares newShares : List I64) (beta : F) (input : Nat) :
    Except Error (Option (StateUpdate F)) := do
  let cost ← build.buyCost L ⟨"Failed to calculate trade cost", "Buy cost calculation failed"⟩
    market.tradingFee effectiveShares newShares beta
  let required ← okOr (build.addU64 cost.totalCostSats tradeMinerFeeSats) .panic
  if trade.limitSats < required then
    .ok none
  else
    let u := { u with
      pendingBuySettlements := u.pendingBuySettlements ++
        [⟨trade.marketId, trade.trader, input, cost.baseCostSats, cost.tradingFeeSats,
          L.txid tx.transaction, false⟩] }
    let u ← build.addTrade u trade cost.totalCostSats
    .ok (some u)

/-- Nothing is returned for a sell that would pay less than its limit. -/
def applySell (s : State F) (u : StateUpdate F) (tx : FilledTransaction F) (trade : Trade)
    (market : Market F) (effectiveShares newShares : List I64) (beta : F) (input : Nat) :
    Except Error (Option (StateUpdate F)) := do
  let ownedShares := s.markets.ownedShares trade.trader trade.position
  let pendingDelta :=
    u.shareAccountChanges[(⟨trade.trader, trade.position⟩ : ShareKey)]?.getD I64.zero
  let effectiveOwned ← build.addI64 ownedShares pendingDelta
  ensure ((asI64 trade.sharesAbs).val ≤ effectiveOwned.val)
    (.invalidTransaction
      (s!"Insufficient shares: trying to sell {trade.sharesAbs} but only own " ++
        s!"{ownedShares.val} (effective: {effectiveOwned.val}) for outcome " ++
        s!"{trade.outcomeIndex}"))
  let proceeds ← sellProceeds L
    ⟨"Failed to calculate sell proceeds", "Sell proceeds calculation failed"⟩
    market.tradingFee effectiveShares newShares beta
  if proceeds.netProceedsSats < trade.limitSats then
    .ok none
  else
    let change := input - tradeMinerFeeSats
    let u := { u with
      pendingSellPayouts := u.pendingSellPayouts ++
        [⟨trade.marketId, trade.trader, proceeds.netProceedsSats, proceeds.tradingFeeSats,
          L.txid tx.transaction⟩]
      pendingSellInputChanges :=
        if change > 0 then
          u.pendingSellInputChanges ++ [⟨trade.trader, change, L.txid tx.transaction⟩]
        else u.pendingSellInputChanges }
    let u ← build.addTrade u trade proceeds.netProceedsSats
    .ok (some u)

/-- Apply a trade; nothing is returned when it is skipped. -/
def applyTrade (s : State F) (u : StateUpdate F) (tx : FilledTransaction F) (trade : Trade) :
    Except Error (Option (StateUpdate F)) := do
  let market ← okOr (s.markets.getMarket trade.marketId)
    (.invalidTransaction s!"Market {trade.marketId} does not exist")
  ensure (market.marketState.allowsTrading = true)
    (.invalidTransaction s!"Cannot trade: market is in {market.marketState.debug} state")
  let (effectiveShares, beta) ← build.runningMarketState trade.marketId market u
  let newShares ← build.addAt effectiveShares trade.outcomeIndex trade.shares
  let amount ← index newShares trade.outcomeIndex
  ensure (0 ≤ amount.val)
    (.invalidTransaction
      (s!"Trade would result in negative market shares: {amount.val} for outcome " ++
        s!"{trade.outcomeIndex}"))
  let input ← inputValue tx
  if trade.isBuy then
    build.applyBuy L u tx trade market effectiveShares newShares beta input
  else
    build.applySell L s u tx trade market effectiveShares newShares beta input

variable [DecidableEq F]

def applyTxData (height : Nat) (a : Applied F) (tx : FilledTransaction F) (idx : Nat) :
    TxData F → Except Error (Applied F)
  | .trade trade => do
      match ← build.applyTrade L a.state a.update tx trade with
      | some update => .ok { a with update }
      | none => .ok { a with skipped := a.skipped ++ [idx] }
  | data => Apply.applyTxData L height a tx idx data

def applyTransaction (height : Nat) (a : Applied F) (entry : FilledTransaction F × Nat) :
    Except Error (Applied F) :=
  match entry.1.transaction.data with
  | none => .ok a
  | some data => build.applyTxData L height a entry.1 entry.2 data

def applyTransactions (s : State F) (filledTxs : List (FilledTransaction F)) (height : Nat) :
    Except Error (Applied F) :=
  filledTxs.zipIdx.foldlM (build.applyTransaction L height) ⟨s, StateUpdate.new F, []⟩

end Build

variable {F : Type} [F64 F] [DecidableEq F] (L : Library F)

theorem applyTransactions_checked (s : State F) (filledTxs : List (FilledTransaction F))
    (height : Nat) : Build.checked.applyTransactions L s filledTxs height =
      applyTransactions L s filledTxs height := by
  have hstep : Build.checked.applyTransaction L height = applyTransaction L height := by
    funext a entry
    unfold Build.applyTransaction applyTransaction
    cases hdata : entry.1.transaction.data with
    | none => rfl
    | some data => cases data <;> rfl
  rw [Build.applyTransactions, hstep, applyTransactions]

end Truthcoin.Builds
