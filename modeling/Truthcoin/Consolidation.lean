import Truthcoin.Apply

/-!
# Consolidation of market funds

The treasury of a market is one output, and so are its author fees. A block that
trades in a market replaces both outputs by new ones, pays the sellers and gives
the buyers their change.
-/

namespace Truthcoin.Consolidation

open Truthcoin.Types Truthcoin.Table Truthcoin.Fallible Truthcoin.Arithmetic
open Truthcoin.Markets Truthcoin.Blocks Truthcoin.Trading Truthcoin.Settlement
open Truthcoin.Apply

/-- The UTXO set with the pointers of the markets to their funds. -/
structure Funds where
  coins : Coins
  pointers : Table FundsKey OutPoint

namespace Funds

/-- The output a pointer refers to, if both are there. -/
def rows (f : Funds) (key : FundsKey) : List CoinRow :=
  match f.pointers[key]? with
  | none => []
  | some outpoint => (f.coins.utxos[outpoint]?).elim [] fun output => [(outpoint, output)]

def setPointer (f : Funds) (key : FundsKey) (outpoint : OutPoint) : Funds :=
  { f with pointers := f.pointers.insert key outpoint }

def clearPointer (f : Funds) (key : FundsKey) : Funds :=
  { f with pointers := f.pointers.erase key }

/-- Set a pointer to what it was. -/
def restorePointer (f : Funds) (key : FundsKey) (outpoint : Option OutPoint) : Funds :=
  outpoint.elim (f.clearPointer key) (f.setPointer key)

end Funds

variable {F : Type}

section

variable (L : Library F)

def sellPayoutRow (p : PendingSellPayout) : CoinRow :=
  (sellPayoutOutpoint L p.marketId p.sellerAddress p.transactionId,
    bitcoinOutput p.sellerAddress p.payoutSats)

/-- What is left of the inputs of a buy. -/
def buyChange (b : PendingBuySettlement) : Except Error Nat :=
  okOr
    (do
      let v ← checkedSub b.inputValueSats tradeMinerFeeSats
      let v ← checkedSub v b.lmsrCostSats
      checkedSub v b.marketFeeSats)
    (.invalidTransaction
      (s!"Buy change underflow: input {b.inputValueSats} < fees {tradeMinerFeeSats} + " ++
        s!"cost {b.lmsrCostSats} + market_fee {b.marketFeeSats}"))

/-- The change output of a buy; without change there is none. -/
def buyChangeRow (b : PendingBuySettlement) :
    Except Error (Option CoinRow) := do
  let change ← buyChange b
  .ok (if change > 0 then
      some (buyChangeOutpoint L b.marketId b.traderAddress b.transactionId,
        bitcoinOutput b.traderAddress change)
    else none)

def sellInputChangeRow (c : PendingSellInputChange) : Option CoinRow :=
  if c.changeSats > 0 then
    some (sellInputChangeOutpoint L c.address c.transactionId,
      bitcoinOutput c.address c.changeSats)
  else none

/-- The output that holds the funds of a market after a block. -/
def fundsRow (key : FundsKey) (height amount : Nat) : CoinRow :=
  (.marketFunds key.marketId height key.isFee,
    ⟨if key.isFee then L.marketAuthorFeeAddress key.marketId
      else L.marketTreasuryAddress key.marketId,
      .marketFunds key.marketId amount key.isFee, []⟩)

/-- Insert the funds of a market and point to them. -/
def Funds.put (f : Funds) (key : FundsKey) (height amount : Nat) : Funds :=
  { f with coins := insertRow f.coins (fundsRow L key height amount) }.setPointer key
    (.marketFunds key.marketId height key.isFee)

/-- What the consolidation of one market has to do. -/
structure MarketWork where
  sells : List PendingSellPayout
  buys : List PendingBuySettlement
  treasuryRows : List CoinRow
  feeRows : List CoinRow
  treasuryTotal : Nat
  feeTotal : Nat
  totalSellPayouts : Nat
  totalSellFees : Nat

def marketWork (pendingSells : List PendingSellPayout)
    (pendingBuys : List PendingBuySettlement) (f : Funds) (marketId : MarketId) :
    Except Error MarketWork := do
  let treasuryRows := f.rows ⟨marketId, false⟩
  let feeRows := f.rows ⟨marketId, true⟩
  let buys := pendingBuys.filter fun b => b.marketId = marketId
  let sells := pendingSells.filter fun p => p.marketId = marketId
  let treasuryTotal ← sumU64 (rowValues treasuryRows ++
    buys.map PendingBuySettlement.lmsrCostSats)
  let feeTotal ← sumU64 (rowValues feeRows ++ buys.map PendingBuySettlement.marketFeeSats)
  let totalSellPayouts ← sumU64 (sells.map PendingSellPayout.payoutSats)
  let totalSellFees ← sumU64 (sells.map PendingSellPayout.feeSats)
  let feeTotal ← addU64 feeTotal totalSellFees
  let totalSellGross ← addU64 totalSellPayouts totalSellFees
  ensure (totalSellGross ≤ treasuryTotal)
    (.invalidTransaction
      (s!"Treasury underflow: sell gross {totalSellGross} (payouts {totalSellPayouts} + " ++
        s!"fees {totalSellFees}) exceed treasury {treasuryTotal} for market {marketId}"))
  .ok ⟨sells, buys, treasuryRows, feeRows, treasuryTotal, feeTotal, totalSellPayouts,
    totalSellFees⟩

/-- New outputs of a consolidation step, and the funds after it. -/
structure TreasuryStep where
  funds : Funds
  newTreasuryUtxo : Option OutPoint
  sellPayoutUtxos : List OutPoint
  buyChangeUtxos : List OutPoint

/-- Pay the sellers and the buyers' change, and renew the treasury. -/
def consolidateTreasury (height : Nat) (marketId : MarketId) (w : MarketWork) (f : Funds) :
    Except Error TreasuryStep := do
  if (w.treasuryRows ≠ [] ∨ w.sells ≠ [] ∨ w.buys ≠ []) ∧
      (w.treasuryTotal > 0 ∨ w.sells ≠ []) then
    let sellRows := w.sells.map (sellPayoutRow L)
    let changes ← w.buys.mapM (buyChangeRow L)
    let changeRows := changes.reduceOption
    let coins := insertRows (deleteOutpoints f.coins (w.treasuryRows.map Prod.fst))
      (sellRows ++ changeRows)
    let f := { f with coins }.clearPointer ⟨marketId, false⟩
    let remaining ← okOr
      (do
        let v ← checkedSub w.treasuryTotal w.totalSellPayouts
        checkedSub v w.totalSellFees)
      (.invalidTransaction
        (s!"Treasury remainder underflow: treasury {w.treasuryTotal} < payouts " ++
          s!"{w.totalSellPayouts} + fees {w.totalSellFees}"))
    .ok {
      funds := if remaining > 0 then f.put L ⟨marketId, false⟩ height remaining else f
      newTreasuryUtxo :=
        if remaining > 0 then some (.marketFunds marketId height false) else none
      sellPayoutUtxos := sellRows.map Prod.fst
      buyChangeUtxos := changeRows.map Prod.fst }
  else
    .ok ⟨f, none, [], []⟩

/-- Renew the author fees. -/
def consolidateFees (height : Nat) (marketId : MarketId) (w : MarketWork) (f : Funds) :
    Funds × Option OutPoint :=
  if (w.feeRows ≠ [] ∨ w.totalSellFees > 0 ∨ w.buys ≠ []) ∧ w.feeTotal > 0 then
    let coins := deleteOutpoints f.coins (w.feeRows.map Prod.fst)
    let f := { f with coins }.clearPointer ⟨marketId, true⟩
    (f.put L ⟨marketId, true⟩ height w.feeTotal, some (.marketFunds marketId height true))
  else
    (f, none)

def consolidateMarket (pendingSells : List PendingSellPayout)
    (pendingBuys : List PendingBuySettlement) (height : Nat)
    (acc : Funds × List ConsolidationUndoEntry) (marketId : MarketId) :
    Except Error (Funds × List ConsolidationUndoEntry) := do
  let f := acc.1
  let w ← marketWork pendingSells pendingBuys f marketId
  let t ← consolidateTreasury L height marketId w f
  let (funds, newFeeUtxo) := consolidateFees L height marketId w t.funds
  .ok (funds, acc.2 ++ [{
    marketId := marketId
    oldTreasuryUtxos := w.treasuryRows
    oldFeeUtxos := w.feeRows
    oldTreasuryPointer := f.pointers[(⟨marketId, false⟩ : FundsKey)]?
    oldFeePointer := f.pointers[(⟨marketId, true⟩ : FundsKey)]?
    newTreasuryUtxo := t.newTreasuryUtxo
    newFeeUtxo := newFeeUtxo
    sellPayoutUtxos := t.sellPayoutUtxos
    buyChangeUtxos := t.buyChangeUtxos }])

/-- The markets that a block pays into or out of. -/
def marketsToConsolidate (pendingSells : List PendingSellPayout)
    (pendingBuys : List PendingBuySettlement) : List MarketId :=
  L.order (pendingSells.map PendingSellPayout.marketId ++
    pendingBuys.map PendingBuySettlement.marketId).dedup

def consolidateMarketUtxos (height : Nat) (pendingSells : List PendingSellPayout)
    (pendingBuys : List PendingBuySettlement)
    (pendingChanges : List PendingSellInputChange) (f : Funds) :
    Except Error (Funds × Option ConsolidationUndoData) := do
  let marketIds := marketsToConsolidate L pendingSells pendingBuys
  if marketIds = [] ∧ pendingChanges = [] then
    .ok (f, none)
  else
    let (f, entries) ← marketIds.foldlM
      (consolidateMarket L pendingSells pendingBuys height) (f, [])
    let changeRows := pendingChanges.filterMap (sellInputChangeRow L)
    .ok ({ f with coins := insertRows f.coins changeRows },
      some ⟨entries, changeRows.map Prod.fst⟩)

end

def revertConsolidationEntry (f : Funds) (entry : ConsolidationUndoEntry) : Funds :=
  let c := deleteOutpoints f.coins
    (entry.newTreasuryUtxo.toList ++ entry.newFeeUtxo.toList ++ entry.sellPayoutUtxos ++
      entry.buyChangeUtxos)
  let c := insertRows c (entry.oldTreasuryUtxos ++ entry.oldFeeUtxos)
  ({ f with coins := c }.restorePointer ⟨entry.marketId, false⟩
    entry.oldTreasuryPointer).restorePointer ⟨entry.marketId, true⟩ entry.oldFeePointer

def revertConsolidation (f : Funds) (undo : ConsolidationUndoData) : Funds :=
  let f := undo.entries.reverse.foldl revertConsolidationEntry f
  { f with coins := deleteOutpoints f.coins undo.sellInputChangeUtxos }

end Truthcoin.Consolidation
