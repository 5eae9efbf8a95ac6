import Truthcoin.CoinRows
import Truthcoin.Validation
import Truthcoin.Settlement

/-!
# Applying the transactions of a block

The transactions of a block are applied in order against the state, which collects
changes of markets and share accounts; then their outputs are spent and created.
-/

namespace Truthcoin.Apply

open Truthcoin.Types Truthcoin.Table Truthcoin.Fallible Truthcoin.Arithmetic
open Truthcoin.Decisions Truthcoin.Markets Truthcoin.Voting Truthcoin.Blocks
open Truthcoin.Trading Truthcoin.Validation Truthcoin.Settlement

structure MarketStateUpdate where
  marketId : MarketId
  outcomeIndex : Nat
  delta : I64
  volumeSats : Nat

structure PendingSellPayout where
  marketId : MarketId
  sellerAddress : Address
  payoutSats : Nat
  feeSats : Nat
  transactionId : Txid

/-- Payment of a buy or of an amplification. -/
structure PendingBuySettlement where
  marketId : MarketId
  traderAddress : Address
  inputValueSats : Nat
  lmsrCostSats : Nat
  marketFeeSats : Nat
  transactionId : Txid
  isAmplify : Bool

structure PendingSellInputChange where
  address : Address
  changeSats : Nat
  transactionId : Txid

/-- Position of an address in an outcome of a market. -/
structure ShareKey where
  address : Address
  position : PositionKey
  deriving DecidableEq, Repr

instance : TableKey ShareKey where
  encode k := [k.address, k.position.marketId, k.position.outcomeIndex]
  encode_injective := by
    rintro ⟨a, m, i⟩ ⟨a', m', i'⟩ h
    simpa using h

abbrev ShareChanges := Table ShareKey I64

def addShareAccountChange (changes : ShareChanges) (key : ShareKey) (delta : I64) :
    Except Error ShareChanges := do
  let net ← addI64 (changes[key]?.getD I64.zero) delta
  .ok (changes.insert key net)

structure StateUpdate (F : Type) where
  marketUpdates : List MarketStateUpdate
  marketCreations : List (Market F)
  shareAccountChanges : ShareChanges
  voteSubmissions : List (Vote F)
  pendingSellPayouts : List PendingSellPayout
  pendingBuySettlements : List PendingBuySettlement
  pendingSellInputChanges : List PendingSellInputChange

def StateUpdate.new (F : Type) : StateUpdate F := ⟨[], [], ∅, [], [], [], []⟩

variable {F : Type} [F64 F]

namespace StateUpdate

/-- The updates of one market. -/
def updatesOf (u : StateUpdate F) (marketId : MarketId) : List MarketStateUpdate :=
  u.marketUpdates.filter fun update => update.marketId = marketId

/-- What amplifications add to the liquidity of a market. -/
def amplifications (u : StateUpdate F) (marketId : MarketId) : List Nat :=
  (u.pendingBuySettlements.filter fun b => b.marketId = marketId ∧ b.isAmplify = true).map
    PendingBuySettlement.lmsrCostSats

def checkCreations : List MarketId → List (Market F) → Except Error Unit
  | _, [] => .ok ()
  | seen, market :: rest => do
      ensure (market.id ∉ seen)
        (.invalidTransaction s!"Duplicate market creation for ID: {market.id}")
      checkCreations (market.id :: seen) rest

def verifyInternalConsistency (u : StateUpdate F) : Except Error Unit := do
  checkCreations [] u.marketCreations
  u.marketUpdates.forM fun update =>
    ensure (update.marketId ∉ u.marketCreations.map Market.id)
      (.invalidTransaction
        s!"Market {update.marketId} cannot be both created and updated in same block")

def validateAllChanges (u : StateUpdate F) (s : State F) : Except Error Unit := do
  u.verifyInternalConsistency
  u.marketUpdates.forM fun update =>
    ensure ((s.markets.getMarket update.marketId).isSome = true)
      (.invalidTransaction s!"Market {update.marketId} does not exist")
  u.marketCreations.forM fun market => do
    ensure ((s.markets.getMarket market.id).isNone = true)
      (.invalidTransaction s!"Market {market.id} already exists")
    validateMarketShares market.shares

end StateUpdate

/-- Shares and beta of a market after the trades and amplifications that earlier
transactions of the block have made. -/
def runningMarketState (marketId : MarketId) (market : Market F) (u : StateUpdate F) :
    Except Error (List I64 × F) := do
  let effectiveShares ← (u.updatesOf marketId).foldlM
    (fun shares update => addAt shares update.outcomeIndex update.delta) market.shares
  let pendingAmplify ← sumU64 (u.amplifications marketId)
  let runningBase := saturatingAdd market.liquidityBaseSats pendingAmplify
  .ok (effectiveShares, deriveBetaFromLiquidity runningBase effectiveShares.length)

/-- Market maker's cost between two share vectors. -/
def calculateUpdateCost (L : Library F) (reason : String) (old new : List I64) (beta : F) :
    Except Error F :=
  okOr (L.updateCost old new beta) (.invalidTransaction reason)

/-- What the two steps of a cost calculation report when they fail. -/
structure CostTexts where
  updateCost : String
  amount : String

/-- Cost of moving a market between two share vectors, with the trading fee. -/
def buyCost (L : Library F) (texts : CostTexts) (tradingFee : F) (old new : List I64)
    (beta : F) : Except Error BuyCost := do
  let baseCost ← calculateUpdateCost L texts.updateCost old new beta
  (calculateBuyCost baseCost tradingFee).mapError (SatoshiError.toError texts.amount)

/-- Proceeds of a sell that moves a market between two share vectors. -/
def sellProceeds (L : Library F) (texts : CostTexts) (tradingFee : F) (old new : List I64)
    (beta : F) : Except Error SellProceeds := do
  let proceeds ← calculateUpdateCost L texts.updateCost new old beta
  (calculateSellProceeds proceeds tradingFee).mapError (SatoshiError.toError texts.amount)

/-- Record an applied trade. -/
def addTrade (u : StateUpdate F) (trade : Trade) (volumeSats : Nat) :
    Except Error (StateUpdate F) := do
  let changes ← addShareAccountChange u.shareAccountChanges ⟨trade.trader, trade.position⟩
    trade.shares
  .ok { u with
    marketUpdates := u.marketUpdates ++
      [⟨trade.marketId, trade.outcomeIndex, trade.shares, volumeSats⟩]
    shareAccountChanges := changes }

section

variable (L : Library F)

/-- Nothing is returned for a buy that would cost more than its limit. -/
def applyBuy (u : StateUpdate F) (tx : FilledTransaction F) (trade : Trade)
    (market : Market F) (effectiveShares newShares : List I64) (beta : F) (input : Nat) :
    Except Error (Option (StateUpdate F)) := do
  let cost ← buyCost L ⟨"Failed to calculate trade cost", "Buy cost calculation failed"⟩
    market.tradingFee effectiveShares newShares beta
  let required ← addU64 cost.totalCostSats tradeMinerFeeSats
  if trade.limitSats < required then
    .ok none
  else
    let u := { u with
      pendingBuySettlements := u.pendingBuySettlements ++
        [⟨trade.marketId, trade.trader, input, cost.baseCostSats, cost.tradingFeeSats,
          L.txid tx.transaction, false⟩] }
    let u ← addTrade u trade cost.totalCostSats
    .ok (some u)

/-- Nothing is returned for a sell that would pay less than its limit. -/
def applySell (s : State F) (u : StateUpdate F) (tx : FilledTransaction F) (trade : Trade)
    (market : Market F) (effectiveShares newShares : List I64) (beta : F) (input : Nat) :
    Except Error (Option (StateUpdate F)) := do
  let ownedShares := s.markets.ownedShares trade.trader trade.position
  let pendingDelta :=
    u.shareAccountChanges[(⟨trade.trader, trade.position⟩ : ShareKey)]?.getD I64.zero
  let effectiveOwned ← addI64 ownedShares pendingDelta
  ensure ((asI64 trade.sharesAbs).val ≤ effectiveOwned.val)
    (.invalidTransaction
      (s!"Insufficient shares: trying to sell {trade.sharesAbs} but only own " ++
        s!"{ownedShares.val} (effective: {effectiveOwned.val}) for outcome " ++
        s!"{trade.outcomeIndex}"))
  let proceeds ← sellProceeds L
    ⟨"Failed to calculate sell proceeds", "Sell proceeds calculation failed"⟩
    market.tradingFee effectiveShares newShares beta
  if proceeds.netProceedsSats < trade.limitSats then
    .ok none
  else
    let change := input - tradeMinerFeeSats
    let u := { u with
      pendingSellPayouts := u.pendingSellPayouts ++
        [⟨trade.marketId, trade.trader, proceeds.netProceedsSats, proceeds.tradingFeeSats,
          L.txid tx.transaction⟩]
      pendingSellInputChanges :=
        if change > 0 then
          u.pendingSellInputChanges ++ [⟨trade.trader, change, L.txid tx.transaction⟩]
        else u.pendingSellInputChanges }
    let u ← addTrade u trade proceeds.netProceedsSats
    .ok (some u)

/-- Apply a trade; nothing is returned when it is skipped. -/
def applyTrade (s : State F) (u : StateUpdate F) (tx : FilledTransaction F) (trade : Trade) :
    Except Error (Option (StateUpdate F)) := do
  let market ← okOr (s.markets.getMarket trade.marketId)
    (.invalidTransaction s!"Market {trade.marketId} does not exist")
  ensure (market.marketState.allowsTrading = true)
    (.invalidTransaction s!"Cannot trade: market is in {market.marketState.debug} state")
  let (effectiveShares, beta) ← runningMarketState trade.marketId market u
  let newShares ← addAt effectiveShares trade.outcomeIndex trade.shares
  let amount ← index newShares trade.outcomeIndex
  ensure (0 ≤ amount.val)
    (.invalidTransaction
      (s!"Trade would result in negative market shares: {amount.val} for outcome " ++
        s!"{trade.outcomeIndex}"))
  let input ← inputValue tx
  if trade.isBuy then
    applyBuy L u tx trade market effectiveShares newShares beta input
  else
    applySell L s u tx trade market effectiveShares newShares beta input

def applyAmplifyBeta (u : StateUpdate F) (tx : FilledTransaction F) (amplify : AmplifyBeta) :
    Except Error (StateUpdate F) := do
  let input ← inputValue tx
  .ok { u with
    pendingBuySettlements := u.pendingBuySettlements ++
      [⟨amplify.marketId, amplify.marketAuthor, input, amplify.amount, 0,
        L.txid tx.transaction, true⟩] }

variable [DecidableEq F]

/-- Claim the decisions of one payload. -/
def claimPayload (creator : Address) (txid : Txid) (height : Nat) (db : Dbs F)
    (payload : ClaimDecisionPayload F) : Except Error (Dbs F) :=
  payload.decisions.foldlM
    (fun db entry => do
      let decisionId ← DecisionId.fromBytes entry.decisionIdBytes
      let decision ← decisionOf creator payload.decisionType entry
      db.claimDecision decisionId decision txid height)
    db

/-- The owner of the first output a transaction spends. -/
def extractCreatorAddress (tx : FilledTransaction F) : Except Error Address :=
  okOr (tx.spentUtxos.head?.map FilledOutput.address)
    (.invalidTransaction "No spent UTXOs found")

def applyDecisionClaim (s : State F) (tx : FilledTransaction F)
    (payload : ClaimDecisionPayload F) (height : Nat) : Except Error (State F) := do
  let creator ← extractCreatorAddress tx
  let decisions ← claimPayload creator (L.txid tx.transaction) height s.decisions payload
  .ok { s with decisions }

/-- The decision that a dimension of a new market refers to. -/
def dimensionDecision (db : Dbs F) (spec : DimensionSpec) :
    Except Error (DecisionId × Decision F) := do
  let d := spec.decisionId
  let entry ← okOr (db.getDecisionEntry d)
    (.invalidDecisionId s!"Decision {d.toNat} does not exist")
  let decision ← okOr entry.decision
    (.invalidDecisionId s!"Decision {d.toNat} has no decision")
  .ok (d, decision)

/-- Tags of the decisions of a market, as an ordered set. -/
def computeMarketTags (decisions : DecisionMap F) : List String :=
  (decisions.flatMap fun entry => entry.2.tags).dedup.insertionSort fun a b => a ≤ b

def defaultTradingFee : F := F64.ofRat (5 / 1000)

/-- The first output that seeds the treasury of a market: its amount and index. -/
def treasuryOutput (marketId : MarketId) (outputs : List Output) : Option (Nat × Nat) :=
  outputs.zipIdx.findSome? fun entry =>
    (treasuryAmount marketId entry.1).map fun amount => (amount, entry.2)

def buildMarket (creation : MarketCreation F) (creator : Address) (db : Dbs F)
    (height : Nat) : Except Error (Market F) := do
  let decisions ← creation.dimensionSpecs.mapM (dimensionDecision db)
  let builder : MarketBuilder F :=
    { title := creation.title
      description := creation.description
      tags := computeMarketTags decisions
      creatorAddress := creator
      dimensionSpecs := creation.dimensionSpecs
      tradingFee := creation.tradingFee.getD defaultTradingFee
      txPowHashSelector := creation.txPowHashSelector.getD 0
      txPowOrdering := creation.txPowOrdering.getD 0
      txPowDifficulty := creation.txPowDifficulty.getD 0 }
  (builder.build L.computeMarketId height decisions).mapError
    fun e => .invalidTransaction s!"Market creation failed: {e.message}"

/-- Claim the new decisions, build the market and point its treasury at the output
that seeds it. -/
def applyMarketCreation (s : State F) (u : StateUpdate F) (tx : FilledTransaction F)
    (creation : MarketCreation F) (height : Nat) :
    Except Error (State F × StateUpdate F) := do
  let creator ← extractCreatorAddress tx
  let txid := L.txid tx.transaction
  let decisions ← creation.newClaims.foldlM (claimPayload creator txid height) s.decisions
  let market ← buildMarket L creation creator decisions height
  let s := { s with decisions }
  match treasuryOutput market.id tx.transaction.outputs with
  | some (amount, vout) =>
      .ok ({ s with
          markets := s.markets.setMarketFundsUtxo market.id false (.regular txid vout) },
        { u with
          marketCreations := u.marketCreations ++ [{ market with liquidityBaseSats := amount }] })
  | none => .ok (s, { u with marketCreations := u.marketCreations ++ [market] })

def addVote (s : State F) (u : StateUpdate F) (voter : Address) (decisionId : DecisionId)
    (voteValue : F) (timestamp height : Nat) (txid : Txid) : StateUpdate F :=
  let decision := (s.decisions.getDecisionEntry decisionId).bind DecisionEntry.decision
  { u with
    voteSubmissions := u.voteSubmissions ++
      [⟨voter, decisionId.votingPeriod, decisionId,
        convertVoteValueWithDecision voteValue decision, timestamp, height, txid⟩] }

def voteTimestamp (s : State F) : Except Error Nat :=
  okOr s.mainchainTimestamp (.invalidTransaction "No mainchain timestamp available")

def applySubmitVote (s : State F) (u : StateUpdate F) (tx : FilledTransaction F)
    (vote : SubmitVote F) (height : Nat) : Except Error (StateUpdate F) := do
  let decisionId ← DecisionId.fromBytes vote.decisionIdBytes
  ensure (vote.votingPeriod = decisionId.votingPeriod)
    (.invalidTransaction
      (s!"Vote period mismatch: decision {decisionId.toNat} was claimed in period " ++
        s!"{decisionId.periodIndex} and must be voted on in period {decisionId.votingPeriod}, " ++
        s!"but transaction specifies period {vote.votingPeriod}"))
  let timestamp ← voteTimestamp s
  .ok (addVote s u vote.voter decisionId vote.voteValue timestamp height
    (L.txid tx.transaction))

/-- Add one vote of a ballot; all must be for the period of the first. -/
def applyBallotItem (s : State F) (tx : FilledTransaction F) (ballot : SubmitBallot F)
    (timestamp height : Nat) (acc : StateUpdate F × Option Nat) (item : BallotItem F) :
    Except Error (StateUpdate F × Option Nat) := do
  let decisionId ← DecisionId.fromBytes item.decisionIdBytes
  let votingPeriod := decisionId.votingPeriod
  match acc.2 with
  | some expected =>
      ensure (votingPeriod = expected)
        (.invalidTransaction
          (s!"Ballot period mismatch: decision {decisionId.toNat} requires period " ++
            s!"{votingPeriod} but ballot expects period {expected}"))
  | none =>
      ensure (ballot.votingPeriod = votingPeriod)
        (.invalidTransaction
          (s!"Ballot period mismatch: decisions require period {votingPeriod} but " ++
            s!"transaction specifies period {ballot.votingPeriod}"))
  .ok (addVote s acc.1 ballot.voter decisionId item.voteValue timestamp height
    (L.txid tx.transaction), acc.2.or (some votingPeriod))

def applySubmitBallot (s : State F) (u : StateUpdate F) (tx : FilledTransaction F)
    (ballot : SubmitBallot F) (height : Nat) : Except Error (StateUpdate F) := do
  let timestamp ← voteTimestamp s
  let (u, _) ← ballot.votes.foldlM (applyBallotItem L s tx ballot timestamp height) (u, none)
  .ok u

def applyTransferReputation (s : State F) (transfer : TransferReputation F) (height : Nat) :
    Except Error (State F) := do
  let senderRep := getReputation s.reputation transfer.sender
  ensure (F64.lt senderRep transfer.amount = false)
    (.invalidTransaction
      (s!"Insufficient reputation at apply: have {F64.display senderRep}, need " ++
        F64.display transfer.amount))
  let receiverRep := getReputation s.reputation transfer.dest
  let entries := s.reputationTransferUndo[height]?.getD []
  let reputation := setReputation s.reputation transfer.sender
    (F64.sub senderRep transfer.amount)
  .ok { s with
    reputationTransferUndo := s.reputationTransferUndo.insert height
      (entries ++ [⟨transfer.sender, senderRep, transfer.dest, receiverRep⟩])
    reputation := setReputation reputation transfer.dest
      (F64.add receiverRep transfer.amount) }

/-- The state, the collected changes and the skipped transactions so far. -/
structure Applied (F : Type) where
  state : State F
  update : StateUpdate F
  skipped : List Nat

def applyTxData (height : Nat) (a : Applied F) (tx : FilledTransaction F) (idx : Nat) :
    TxData F → Except Error (Applied F)
  | .trade trade => do
      match ← applyTrade L a.state a.update tx trade with
      | some update => .ok { a with update }
      | none => .ok { a with skipped := a.skipped ++ [idx] }
  | .createMarket creation => do
      let (state, update) ← applyMarketCreation L a.state a.update tx creation height
      .ok { a with state, update }
  | .claimDecision payload => do
      let state ← applyDecisionClaim L a.state tx payload height
      .ok { a with state }
  | .submitVote vote => do
      let update ← applySubmitVote L a.state a.update tx vote height
      .ok { a with update }
  | .submitBallot ballot => do
      let update ← applySubmitBallot L a.state a.update tx ballot height
      .ok { a with update }
  | .transferReputation transfer => do
      let state ← applyTransferReputation a.state transfer height
      .ok { a with state }
  | .amplifyBeta amplify => do
      let update ← applyAmplifyBeta L a.update tx amplify
      .ok { a with update }

def applyTransaction (height : Nat) (a : Applied F) (entry : FilledTransaction F × Nat) :
    Except Error (Applied F) :=
  match entry.1.transaction.data with
  | none => .ok a
  | some data => applyTxData L height a entry.1 entry.2 data

def applyTransactions (s : State F) (filledTxs : List (FilledTransaction F)) (height : Nat) :
    Except Error (Applied F) :=
  filledTxs.zipIdx.foldlM (applyTransaction L height) ⟨s, StateUpdate.new F, []⟩

end

/-- Move a spent output to the table of spent outputs. -/
def spendInput (txid : Txid) (c : Coins) (entry : OutPoint × Nat) : Except Error Coins := do
  let output ← okOr c.utxos[entry.1]? (.noUtxo entry.1)
  .ok ((c.deleteUtxo entry.1).1.putStxo entry.1 ⟨output, .regular txid entry.2⟩)

def createOutput (txid : Txid) (c : Coins) (entry : FilledOutput × Nat) : Coins :=
  c.insertUtxo (.regular txid entry.2) entry.1

def applyUtxoChanges (L : Library F) (c : Coins) (tx : FilledTransaction F) :
    Except Error Coins := do
  let txid := L.txid tx.transaction
  let c ← tx.transaction.inputs.zipIdx.foldlM (spendInput txid) c
  let filledOutputs ← tx.filledOutputs
  let outputs ← okOr filledOutputs (.fillTxOutputContents txid)
  .ok (outputs.zipIdx.foldl (createOutput txid) c)

/-- The transactions that were not skipped, in order. -/
def notSkipped (filledTxs : List (FilledTransaction F)) (skipped : List Nat) :
    List (FilledTransaction F) :=
  (filledTxs.zipIdx.filter fun entry => entry.2 ∉ skipped).map Prod.fst

def fillCoinbaseContent : Content → FilledContent
  | .bitcoin value => .bitcoin value
  | .withdrawal w => .bitcoinWithdrawal w
  -- ruled out by the validation of the coinbase outputs
  | .marketFunds marketId amount isFee => .marketFunds marketId amount isFee

/-- The outputs of a coinbase with their outpoints. -/
def coinbaseRows (coinbaseTxid : CoinbaseTxid) (outputs : List Output) :
    List CoinRow :=
  outputs.zipIdx.map fun entry =>
    (.coinbase coinbaseTxid entry.2,
      ⟨entry.1.address, fillCoinbaseContent entry.1.content, entry.1.memo⟩)

end Truthcoin.Apply
