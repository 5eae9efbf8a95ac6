import Truthcoin.Voting

/-!
# Markets

Market records, share accounts, and the database that holds them with its
indexes.
-/

namespace Truthcoin.Markets

open Truthcoin.Types Truthcoin.Table Truthcoin.Fallible Truthcoin.Arithmetic
open Truthcoin.Decisions

inductive MarketState where
  | trading
  | cancelled
  | invalid
  | settled
  deriving DecidableEq, Repr

def MarketState.debug : MarketState → String
  | .trading => "Trading"
  | .cancelled => "Cancelled"
  | .invalid => "Invalid"
  | .settled => "Settled"

def MarketState.toNat : MarketState → Nat
  | .trading => 1
  | .cancelled => 3
  | .invalid => 4
  | .settled => 5

instance : TableKey MarketState where
  encode s := [s.toNat]
  encode_injective := by
    intro a b h
    cases a <;> cases b <;> simp_all [MarketState.toNat]

def MarketState.canTransitionTo : MarketState → MarketState → Bool
  | .trading, _ => true
  | .cancelled, .cancelled => true
  | .invalid, .invalid => true
  | .invalid, .settled => true
  | .settled, .settled => true
  | _, _ => false

def MarketState.allowsTrading (s : MarketState) : Bool :=
  s = .trading

inductive DimensionSpec where
  | single (decisionId : DecisionId)
  | categorical (decisionId : DecisionId)
  deriving DecidableEq, Repr

def DimensionSpec.decisionId : DimensionSpec → DecisionId
  | .single d => d
  | .categorical d => d

inductive MarketError where
  | invalidDimensions
  | tooManyStates (states : Nat)
  | invalidOutcomeIndex (index : Nat)
  | invalidStateTransition (old new : MarketState)
  | decisionNotFound (decisionId : DecisionId)
  | invalidOutcomeCombination
  | duplicateDecision (decisionId : DecisionId)
  deriving DecidableEq, Repr

def MarketError.message : MarketError → String
  | .invalidDimensions => "Invalid market dimensions"
  | .tooManyStates states => s!"Too many market states: {states} (max 256)"
  | .invalidOutcomeIndex index => s!"Invalid outcome index: {index}"
  | .invalidStateTransition old new =>
      s!"Invalid state transition from {old.debug} to {new.debug}"
  | .decisionNotFound d => s!"Decision not found: {d.toNat}"
  | .invalidOutcomeCombination => "Invalid outcome combination"
  | .duplicateDecision d => s!"Duplicate decision in market dimensions: {d.toNat}"

structure Market (F : Type) where
  id : MarketId
  title : String
  description : String
  tags : List String
  creatorAddress : Address
  dimensionSpecs : List DimensionSpec
  decisionIds : List DecisionId
  stateCombos : List (List Nat)
  createdAtHeight : Nat
  expiresAtHeight : Option Nat
  tauFromNow : Nat
  storageFeeSats : Nat
  marketState : MarketState
  tradingFee : F
  liquidityBaseSats : Nat
  shares : List I64
  finalPrices : List F
  version : Nat
  lastUpdatedHeight : Nat
  totalVolumeSats : Nat
  outcomeVolumesSats : List Nat
  txPowHashSelector : Nat
  txPowOrdering : Nat
  txPowDifficulty : Nat
  deriving DecidableEq

def maxOutcomes : Nat := 256

def cartesianProduct (dimensions : List Nat) : List (List Nat) :=
  dimensions.foldl
    (fun combos size => combos.flatMap fun combo =>
      (List.range size).map fun value => combo ++ [value])
    [[]]

/-- Product of the sizes, as long as it fits 64 bits. -/
def outcomeSpaceSize (dimensions : List Nat) : Option Nat :=
  dimensions.foldlM (fun acc size => if acc * size < 2 ^ 64 then some (acc * size) else none) 1

def marketStorageFee (tradeableOutcomes : Nat) : Nat :=
  1000 + tradeableOutcomes ^ 2

section

variable {F : Type}

/-- Decisions by id, as a hash map holds them. -/
abbrev DecisionMap (F : Type) := List (DecisionId × Decision F)

def DecisionMap.get (decisions : DecisionMap F) (d : DecisionId) : Option (Decision F) :=
  (decisions.find? fun entry => entry.1 = d).map Prod.snd

/-- Full and tradeable size of a dimension. -/
def dimensionRange (decisions : DecisionMap F) (spec : DimensionSpec) :
    Except MarketError (Nat × Nat) :=
  match spec with
  | .single d => do
      let _ ← okOr (decisions.get d) (.decisionNotFound d)
      .ok (3, 2)
  | .categorical d => do
      let decision ← okOr (decisions.get d) (.decisionNotFound d)
      let n ← okOr decision.optionCount .invalidDimensions
      ensure (2 ≤ n) .invalidDimensions
      .ok (n, n)

def checkDistinct : List DecisionId → List DecisionId → Except MarketError Unit
  | _, [] => .ok ()
  | seen, d :: ds =>
      if d ∈ seen then .error (.duplicateDecision d) else checkDistinct (d :: seen) ds

def generateStateCombos (dimensionSpecs : List DimensionSpec) (decisions : DecisionMap F) :
    Except MarketError (List (List Nat)) := do
  ensure (dimensionSpecs ≠ []) .invalidDimensions
  checkDistinct [] (dimensionSpecs.map DimensionSpec.decisionId)
  let ranges ← dimensionSpecs.mapM (dimensionRange decisions)
  let tradeableOutcomes ←
    okOr (outcomeSpaceSize (ranges.map Prod.snd)) (.tooManyStates (2 ^ 64 - 1))
  ensure (tradeableOutcomes ≤ maxOutcomes) (.tooManyStates tradeableOutcomes)
  .ok (cartesianProduct (ranges.map Prod.fst))

/-- A single dimension is tradeable in its first two states only. -/
def tradeableState (entry : Nat × DimensionSpec) : Bool :=
  match entry.2 with
  | .single _ => decide (entry.1 < 2)
  | .categorical _ => true

def getValidStateCombos (stateCombos : List (List Nat)) (specs : List DimensionSpec) :
    List (List Nat) :=
  stateCombos.filter fun combo => (combo.zip specs).all tradeableState

/-- Fields of a market that its creation transaction determines. -/
structure MarketBuilder (F : Type) where
  title : String
  description : String
  tags : List String
  creatorAddress : Address
  dimensionSpecs : List DimensionSpec
  tradingFee : F
  txPowHashSelector : Nat
  txPowOrdering : Nat
  txPowDifficulty : Nat

/-- Hash of a market's title, description, creator and dimensions. -/
abbrev ComputeMarketId := String → String → Address → List DimensionSpec → MarketId

def MarketBuilder.build (computeMarketId : ComputeMarketId) (b : MarketBuilder F)
    (createdAtHeight : Nat) (decisions : DecisionMap F) [F64 F] :
    Except MarketError (Market F) := do
  let stateCombos ← generateStateCombos b.dimensionSpecs decisions
  ensure (b.dimensionSpecs ≠ [] ∧ stateCombos ≠ []) .invalidDimensions
  let outcomes := (getValidStateCombos stateCombos b.dimensionSpecs).length
  .ok {
    id := computeMarketId b.title b.description b.creatorAddress b.dimensionSpecs
    title := b.title
    description := b.description
    tags := b.tags
    creatorAddress := b.creatorAddress
    dimensionSpecs := b.dimensionSpecs
    decisionIds := b.dimensionSpecs.map DimensionSpec.decisionId
    stateCombos := stateCombos
    createdAtHeight := createdAtHeight
    expiresAtHeight := none
    tauFromNow := 5
    storageFeeSats := marketStorageFee outcomes
    marketState := .trading
    tradingFee := b.tradingFee
    liquidityBaseSats := 0
    shares := List.replicate outcomes I64.zero
    finalPrices := List.replicate outcomes F64.zero
    version := 0
    lastUpdatedHeight := createdAtHeight
    totalVolumeSats := 0
    outcomeVolumesSats := List.replicate outcomes 0
    txPowHashSelector := b.txPowHashSelector
    txPowOrdering := b.txPowOrdering
    txPowDifficulty := b.txPowDifficulty }

end

namespace Market

variable {F : Type}

def updateState (m : Market F) (height : Nat) (newMarketState : Option MarketState)
    (newShares : Option (List I64)) (newFinalPrices : Option (List F)) :
    Except MarketError (Market F) := do
  newMarketState.forM fun s =>
    ensure (m.marketState.canTransitionTo s = true) (.invalidStateTransition m.marketState s)
  newShares.forM fun shares =>
    ensure (shares.length = m.shares.length) .invalidDimensions
  .ok { m with
    marketState := newMarketState.getD m.marketState
    shares := newShares.getD m.shares
    finalPrices := newFinalPrices.getD m.finalPrices
    version := m.version + 1
    lastUpdatedHeight := height }

def updateShares (m : Market F) (newShares : List I64) (height : Nat) :
    Except MarketError (Market F) :=
  m.updateState height none (some newShares) none

/-- Apply `change` to the total volume and to the volume of one outcome. -/
def changeVolume (change : Nat → Nat) (m : Market F) (outcomeIndex : Nat) :
    Except MarketError (Market F) := do
  ensure (outcomeIndex < m.outcomeVolumesSats.length) (.invalidOutcomeIndex outcomeIndex)
  .ok { m with
    outcomeVolumesSats := m.outcomeVolumesSats.modify outcomeIndex change
    totalVolumeSats := change m.totalVolumeSats }

def updateTradingVolume (m : Market F) (outcomeIndex tradeCostSats : Nat) :
    Except MarketError (Market F) :=
  changeVolume (saturatingAdd · tradeCostSats) m outcomeIndex

def revertTradingVolume (m : Market F) (outcomeIndex tradeCostSats : Nat) :
    Except MarketError (Market F) :=
  changeVolume (· - tradeCostSats) m outcomeIndex

section FinalPrices

variable [F64 F]

/-- Probabilities of the two states of a single dimension. -/
def singleAxis (isScaled : Bool) (outcome : F) : List F :=
  if isScaled then [F64.sub F64.one outcome, outcome]
  else if F64.lt (F64.ofRat (7 / 10)) outcome then [F64.zero, F64.one]
  else if F64.lt outcome (F64.ofRat (3 / 10)) then [F64.one, F64.zero]
  else [F64.ofRat (1 / 2), F64.ofRat (1 / 2)]

/-- The option an outcome names, unless it is inconclusive. -/
def realWinner (n : Nat) (outcome : F) : Option Nat :=
  if F64.eq outcome (F64.ofRat (1 / 2)) || !F64.isFinite outcome then none
  else
    let rounded := F64.round outcome
    if F64.lt Trading.epsilon (F64.abs (F64.sub outcome rounded)) then none
    else
      let idx := F64.toI64 rounded
      if 0 ≤ idx ∧ idx < n then some idx.toNat else none

def categoricalAxis (n : Nat) (outcome : Option F) : List F :=
  match outcome.bind (realWinner n) with
  | some winner =>
      (List.range n).map fun k => if k = winner then F64.one else F64.zero
  | none => List.replicate n (F64.div F64.one (F64.ofNat n))

def axisOf (decisionOutcomes : List (DecisionId × F)) (decisions : DecisionMap F)
    (spec : DimensionSpec) : List F :=
  let outcome := (decisionOutcomes.find? fun o => o.1 = spec.decisionId).map Prod.snd
  let decision := decisions.get spec.decisionId
  match spec with
  | .single _ =>
      singleAxis (decision.elim false Decision.isScaled) (outcome.getD (F64.ofRat (1 / 2)))
  | .categorical _ => categoricalAxis ((decision.bind Decision.optionCount).getD 2) outcome

/-- Product of the axis entries a combination selects; a state outside its axis
is ignored. -/
def jointProbability (axes : List (List F)) (combo : List Nat) : F :=
  (axes.zip combo).foldl
    (fun p entry =>
      match entry.1[entry.2]? with
      | some q => F64.mul p q
      | none => p)
    F64.one

def calculateFinalPrices (m : Market F) (decisionOutcomes : List (DecisionId × F))
    (decisions : DecisionMap F) : List F :=
  let axes := m.dimensionSpecs.map (axisOf decisionOutcomes decisions)
  let prices := (getValidStateCombos m.stateCombos m.dimensionSpecs).map
    (jointProbability axes)
  let sum := F64.sum prices
  if F64.lt F64.zero sum then prices.map (F64.div · sum) else prices

end FinalPrices

end Market

structure PositionKey where
  marketId : MarketId
  outcomeIndex : Nat
  deriving DecidableEq, Repr

instance : TableKey PositionKey where
  encode k := [k.marketId, k.outcomeIndex]
  encode_injective := by
    rintro ⟨m, i⟩ ⟨m', i'⟩ h
    simpa using h

structure ShareAccount where
  positions : Table PositionKey I64
  lastUpdatedHeight : Nat
  deriving DecidableEq

namespace ShareAccount

def new : ShareAccount := ⟨∅, 0⟩

def getPosition (a : ShareAccount) (key : PositionKey) : I64 :=
  a.positions[key]?.getD I64.zero

def addShares (a : ShareAccount) (key : PositionKey) (shares : I64) (height : Nat) :
    Except Error ShareAccount := do
  let amount ← addI64 (a.getPosition key) shares
  .ok ⟨a.positions.insert key amount, height⟩

def removeShares (a : ShareAccount) (key : PositionKey) (shares : I64) (height : Nat) :
    Except Error ShareAccount := do
  ensure (shares.val ≤ (a.getPosition key).val)
    (.invalidTransaction "Insufficient shares for sell transaction")
  let newAmount ← subI64 (a.getPosition key) shares
  .ok ⟨if newAmount.val > 0 then a.positions.insert key newAmount else a.positions.erase key,
    height⟩

end ShareAccount

/-- Key of a market's treasury or author-fee pointer. -/
structure FundsKey where
  marketId : MarketId
  isFee : Bool
  deriving DecidableEq, Repr

instance : TableKey FundsKey where
  encode k := [k.marketId, k.isFee.toNat]
  encode_injective := by
    rintro ⟨m, f⟩ ⟨m', f'⟩ h
    simp only [List.cons.injEq, and_true] at h
    cases f <;> cases f' <;> simp_all

structure MarketsDatabase (F : Type) where
  markets : Table MarketId (Market F)
  stateIndex : Table MarketState (List MarketId)
  expiryIndex : Table Nat (List MarketId)
  decisionIndex : Table DecisionId (List MarketId)
  shareAccounts : Table Address ShareAccount
  marketFundsUtxos : Table FundsKey OutPoint
  mempoolShares : Table MarketId (List I64)
  deriving DecidableEq

namespace MarketsDatabase

variable {F : Type}

def empty (F : Type) : MarketsDatabase F := ⟨∅, ∅, ∅, ∅, ∅, ∅, ∅⟩

section Index

variable {K : Type} [TableKey K]

/-- Take a market off the list of a key; an empty list loses its row. -/
def indexRemove (index : Table K (List MarketId)) (key : K) (marketId : MarketId) :
    Table K (List MarketId) :=
  let ids := (index[key]?.getD []).filter (· ≠ marketId)
  if ids.isEmpty then index.erase key else index.insert key ids

def indexAdd (index : Table K (List MarketId)) (key : K) (marketId : MarketId) :
    Table K (List MarketId) :=
  let ids := index[key]?.getD []
  if marketId ∈ ids then index else index.insert key (ids ++ [marketId])

/-- Move a market from an old key to a new one. -/
def indexMove (index : Table K (List MarketId)) (marketId : MarketId) (old new : Option K) :
    Table K (List MarketId) :=
  let index := old.elim index fun key => indexRemove index key marketId
  new.elim index fun key => indexAdd index key marketId

end Index

def getMarket (db : MarketsDatabase F) (marketId : MarketId) : Option (Market F) :=
  db.markets[marketId]?

def addMarket (db : MarketsDatabase F) (market : Market F) : MarketsDatabase F :=
  { db with
    markets := db.markets.insert market.id market
    stateIndex := indexMove db.stateIndex market.id none (some market.marketState)
    expiryIndex := indexMove db.expiryIndex market.id none market.expiresAtHeight
    decisionIndex := market.decisionIds.foldl
      (fun index d => indexAdd index d market.id) db.decisionIndex }

def deleteMarket (db : MarketsDatabase F) (marketId : MarketId) : MarketsDatabase F :=
  match db.getMarket marketId with
  | none => db
  | some market =>
      { db with
        markets := db.markets.erase marketId
        stateIndex := indexMove db.stateIndex marketId (some market.marketState) none
        expiryIndex := indexMove db.expiryIndex marketId market.expiresAtHeight none
        decisionIndex := market.decisionIds.foldl
          (fun index d => indexRemove index d marketId) db.decisionIndex
        marketFundsUtxos :=
          (db.marketFundsUtxos.erase ⟨marketId, false⟩).erase ⟨marketId, true⟩ }

def writeMarketAndIndexes (db : MarketsDatabase F) (market : Market F) :
    MarketsDatabase F :=
  match db.getMarket market.id with
  | none => { db with markets := db.markets.insert market.id market }
  | some old =>
      let removed := old.decisionIds.filter (· ∉ market.decisionIds)
      let added := market.decisionIds.filter (· ∉ old.decisionIds)
      let decisionIndex := removed.foldl
        (fun index d => indexRemove index d market.id) db.decisionIndex
      { db with
        markets := db.markets.insert market.id market
        stateIndex :=
          if old.marketState = market.marketState then db.stateIndex
          else indexMove db.stateIndex market.id (some old.marketState)
            (some market.marketState)
        expiryIndex :=
          if old.expiresAtHeight = market.expiresAtHeight then db.expiryIndex
          else indexMove db.expiryIndex market.id old.expiresAtHeight market.expiresAtHeight
        decisionIndex := added.foldl
          (fun index d => indexAdd index d market.id) decisionIndex }

def updateMarket (db : MarketsDatabase F) (market : Market F) :
    Except Error (MarketsDatabase F) := do
  (db.getMarket market.id).forM fun old =>
    ensure (old.marketState.canTransitionTo market.marketState = true)
      (.invalidTransaction
        (s!"Invalid market state transition from {old.marketState.debug} to " ++
          market.marketState.debug))
  .ok (db.writeMarketAndIndexes market)

/-- Write a market without the check of its state transition. -/
def restoreMarket (db : MarketsDatabase F) (market : Market F) : MarketsDatabase F :=
  db.writeMarketAndIndexes market

def getMarketsByState (db : MarketsDatabase F) (state : MarketState) : List (Market F) :=
  (db.stateIndex[state]?.getD []).filterMap db.getMarket

def clearMempoolShares (db : MarketsDatabase F) (marketId : MarketId) : MarketsDatabase F :=
  { db with mempoolShares := db.mempoolShares.erase marketId }

def getUserShareAccount (db : MarketsDatabase F) (address : Address) : Option ShareAccount :=
  db.shareAccounts[address]?

/-- Shares of an outcome that an address owns. -/
def ownedShares (db : MarketsDatabase F) (address : Address) (key : PositionKey) : I64 :=
  (db.getUserShareAccount address).elim I64.zero fun account => account.getPosition key

def addSharesToAccount (db : MarketsDatabase F) (address : Address) (key : PositionKey)
    (shares : I64) (height : Nat) : Except Error (MarketsDatabase F) := do
  let account := (db.getUserShareAccount address).getD ShareAccount.new
  let account ← account.addShares key shares height
  .ok { db with shareAccounts := db.shareAccounts.insert address account }

def removeSharesFromAccount (db : MarketsDatabase F) (address : Address) (key : PositionKey)
    (shares : I64) (height : Nat) : Except Error (MarketsDatabase F) := do
  let account ← okOr (db.getUserShareAccount address)
    (.invalidTransaction "No share account found for address")
  let account ← account.removeShares key shares height
  .ok { db with
    shareAccounts :=
      if account.positions.isEmpty then db.shareAccounts.erase address
      else db.shareAccounts.insert address account }

/-- Add or remove shares by the sign of the change. -/
def changeShares (db : MarketsDatabase F) (address : Address) (key : PositionKey)
    (delta : I64) (height : Nat) : Except Error (MarketsDatabase F) := do
  if delta.val > 0 then
    db.addSharesToAccount address key delta height
  else if delta.val < 0 then
    let shares ← negI64 delta
    db.removeSharesFromAccount address key shares height
  else
    .ok db

/-- Positions that the share accounts hold in a market, by address. -/
def getShareholdersForMarket (db : MarketsDatabase F) (marketId : MarketId) :
    List (Address × List (Nat × I64)) :=
  let holders := db.shareAccounts.toList.map fun row =>
    (row.1, (row.2.positions.toList.filter fun p => p.1.marketId = marketId).map
      fun p => (p.1.outcomeIndex, p.2))
  holders.filter fun holder => holder.2 ≠ []

/-- Shares of one outcome over all accounts. -/
def accountTotal (db : MarketsDatabase F) (marketId : MarketId) (outcomeIndex : Nat) :
    Except Error I64 :=
  (db.shareAccounts.toList.map fun row =>
    row.2.getPosition ⟨marketId, outcomeIndex⟩).foldlM addI64 I64.zero

def verifyShareInvariant (db : MarketsDatabase F) (marketId : MarketId) :
    Except Error Unit := do
  let market ← okOr (db.getMarket marketId)
    (.invalidTransaction s!"Market {marketId} not found for invariant check")
  let accountTotals ← (List.range market.shares.length).mapM (db.accountTotal marketId)
  (market.shares.zip accountTotals).zipIdx.forM fun entry =>
    ensure (entry.1.1 = entry.1.2)
      (.invalidTransaction
        (s!"Share invariant violation for market {marketId} outcome {entry.2}: " ++
          s!"market.shares={entry.1.1.val}, sum(accounts)={entry.1.2.val}"))

def getMarketFundsUtxo (db : MarketsDatabase F) (marketId : MarketId) (isFee : Bool) :
    Option OutPoint :=
  db.marketFundsUtxos[(⟨marketId, isFee⟩ : FundsKey)]?

def setMarketFundsUtxo (db : MarketsDatabase F) (marketId : MarketId) (isFee : Bool)
    (outpoint : OutPoint) : MarketsDatabase F :=
  { db with marketFundsUtxos := db.marketFundsUtxos.insert ⟨marketId, isFee⟩ outpoint }

def clearMarketFundsUtxo (db : MarketsDatabase F) (marketId : MarketId) (isFee : Bool) :
    MarketsDatabase F :=
  { db with marketFundsUtxos := db.marketFundsUtxos.erase ⟨marketId, isFee⟩ }

end MarketsDatabase

end Truthcoin.Markets
