import Truthcoin.Connect

/-!
# Disconnecting a block

The effects of the tip are undone from the undo records that its connection wrote,
from the block itself and from the table of spent outputs.
-/

namespace Truthcoin.Disconnect

open Truthcoin.Types Truthcoin.Table Truthcoin.Fallible Truthcoin.Arithmetic
open Truthcoin.Decisions Truthcoin.Markets Truthcoin.Voting Truthcoin.Blocks
open Truthcoin.Trading Truthcoin.Validation Truthcoin.Settlement Truthcoin.Apply
open Truthcoin.Consolidation Truthcoin.Connect

variable {F : Type} [F64 F]

def revertConsensusEntry (s : State F) (entry : ConsensusUndoEntry F) : State F :=
  let voting := entry.decisionOutcomeIds.foldl VotingDatabases.deleteDecisionOutcome s.voting
  { s with
    voting := if entry.hadPeriodStats then voting else voting.deletePeriodStats entry.periodId
    reputation := clearAndRestore entry.preConsensusReputation }

def revertConsensus (s : State F) (entries : List (ConsensusUndoEntry F)) : State F :=
  entries.reverse.foldl revertConsensusEntry s

section

variable [DecidableEq F]

/-- Take back the claims of a transaction. -/
def revertClaims (db : Dbs F) (payloads : List (ClaimDecisionPayload F)) :
    Except Error (Dbs F) :=
  (payloads.flatMap ClaimDecisionPayload.decisions).foldlM
    (fun db entry => do
      let decisionId ← DecisionId.fromBytes entry.decisionIdBytes
      .ok (db.revertDecisionClaim decisionId))
    db

variable (L : Library F)

def revertCreateMarket (s : State F) (tx : FilledTransaction F)
    (creation : MarketCreation F) : Except Error (State F) := do
  let creator ← extractCreatorAddress tx
  let marketId := L.computeMarketId creation.title creation.description creator
    creation.dimensionSpecs
  let s := { s with markets := s.markets.deleteMarket marketId }
  let decisions ← revertClaims s.decisions creation.newClaims
  .ok { s with decisions }

end

/-- Beta of a market from its liquidity. -/
def marketBeta (market : Market F) : F :=
  deriveBetaFromLiquidity market.liquidityBaseSats market.shares.length

section

variable (L : Library F)

/-- The market before a buy. -/
def revertBuy (market : Market F) (trade : Trade) (height : Nat) :
    Except Error (Market F) := do
  let sharesDelta := asI64 trade.sharesAbs
  let preTradeShares ← subAt market.shares trade.outcomeIndex sharesDelta
  let cost ← buyCost L
    ⟨"LMSR calc failed during buy trade revert", "Buy cost calc failed during trade revert"⟩
    market.tradingFee preTradeShares market.shares (marketBeta market)
  let market ← (market.revertTradingVolume trade.outcomeIndex cost.totalCostSats).mapError
    (marketFailure "Volume revert failed during buy trade revert")
  (market.updateShares preTradeShares height).mapError
    (marketFailure "Failed to revert market shares")

/-- The market before a sell. The volume that is taken off is the gross one, while
connecting the sell adds the net one. -/
def revertSell (market : Market F) (trade : Trade) (height : Nat) :
    Except Error (Market F) := do
  let sharesDelta := asI64 trade.sharesAbs
  let preTradeShares ← addAt market.shares trade.outcomeIndex sharesDelta
  let proceeds ← sellProceeds L
    ⟨"LMSR calc failed during sell trade revert",
      "Sell proceeds calc failed during trade revert"⟩
    market.tradingFee preTradeShares market.shares (marketBeta market)
  let market ← (market.revertTradingVolume trade.outcomeIndex
    proceeds.grossProceedsSats).mapError
      (marketFailure "Volume revert failed during sell trade revert")
  (market.updateShares preTradeShares height).mapError
    (marketFailure "Failed to revert market shares")

/-- Outputs that a trade may have been paid. -/
def tradeOutpoints (trade : Trade) (txid : Txid) : List OutPoint :=
  if trade.isBuy then
    [buyChangeOutpoint L trade.marketId trade.trader txid]
  else
    [sellPayoutOutpoint L trade.marketId trade.trader txid,
      sellInputChangeOutpoint L trade.trader txid]

/-- Change of the trader's position that takes a trade back. -/
def accountDelta (trade : Trade) : Except Error (ShareKey × I64) := do
  let sharesDelta := asI64 trade.sharesAbs
  let delta ← if trade.isBuy then negI64 sharesDelta else .ok sharesDelta
  .ok (⟨trade.trader, trade.position⟩, delta)

def revertTradeMarketState (s : State F) (tx : FilledTransaction F) (trade : Trade) :
    Except Error (State F × (ShareKey × I64)) := do
  let height := s.height.getD 0
  let market ← okOr (s.markets.getMarket trade.marketId)
    (.invalidTransaction "Market not found during trade revert")
  let market ← if trade.isBuy then revertBuy L market trade height
    else revertSell L market trade height
  let markets ← s.markets.updateMarket market
  let coins := deleteOutpoints s.coins (tradeOutpoints L trade (L.txid tx.transaction))
  let delta ← accountDelta trade
  .ok ({ s with markets, coins }, delta)

def revertAmplifyBeta (s : State F) (amplify : AmplifyBeta) : Except Error (State F) := do
  let market ← okOr (s.markets.getMarket amplify.marketId)
    (.invalidTransaction "Market not found during amplify_beta revert")
  let liquidityBaseSats ← okOr (checkedSub market.liquidityBaseSats amplify.amount)
    (.invalidTransaction "Liquidity base underflow during amplify_beta revert")
  let markets ← s.markets.updateMarket { market with liquidityBaseSats }
  .ok { s with markets }

/-- Delete the vote of a voter on a decision. -/
def revertVote (voter : Address) (db : VotingDatabases F) (decisionIdBytes : DecisionId) :
    Except Error (VotingDatabases F) := do
  let decisionId ← DecisionId.fromBytes decisionIdBytes
  .ok (db.deleteVote decisionId.votingPeriod voter decisionId)

variable [DecidableEq F]

/-- Undo the data of a transaction; a trade leaves its change of shares for later. -/
def revertTxData (acc : State F × List (ShareKey × I64)) (tx : FilledTransaction F) :
    TxData F → Except Error (State F × List (ShareKey × I64))
  | .claimDecision payload => do
      let decisions ← revertClaims acc.1.decisions [payload]
      .ok ({ acc.1 with decisions }, acc.2)
  | .createMarket creation => do
      let s ← revertCreateMarket L acc.1 tx creation
      .ok (s, acc.2)
  | .trade trade => do
      let (s, delta) ← revertTradeMarketState L acc.1 tx trade
      .ok (s, acc.2 ++ [delta])
  | .submitVote vote => do
      let voting ← revertVote vote.voter acc.1.voting vote.decisionIdBytes
      .ok ({ acc.1 with voting }, acc.2)
  | .submitBallot ballot => do
      let voting ← (ballot.votes.map BallotItem.decisionIdBytes).foldlM
        (revertVote ballot.voter) acc.1.voting
      .ok ({ acc.1 with voting }, acc.2)
  | .transferReputation _ => .ok acc
  | .amplifyBeta amplify => do
      let s ← revertAmplifyBeta acc.1 amplify
      .ok (s, acc.2)

/-- Delete an output that must be there. -/
def removeOutput (c : Coins) (outpoint : OutPoint) : Except Error Coins := do
  let (c, deleted) := c.deleteUtxo outpoint
  ensure (deleted = true) (.noUtxo outpoint)
  .ok c

/-- Give a spent output back. -/
def unspendInput (c : Coins) (outpoint : OutPoint) : Except Error Coins := do
  let spent ← okOr c.stxos[outpoint]? (.noStxo outpoint)
  .ok ((c.deleteStxo outpoint).1.insertUtxo outpoint spent.output)

def regularOutpoints (txid : Txid) (tx : Transaction F) : List OutPoint :=
  (List.range tx.outputs.length).map fun vout => .regular txid vout

def revertUtxoChanges (c : Coins) (tx : Transaction F) : Except Error Coins := do
  let c ← (regularOutpoints (L.txid tx) tx).reverse.foldlM removeOutput c
  tx.inputs.reverse.foldlM unspendInput c

def revertTransaction (acc : State F × List (ShareKey × I64)) (tx : Transaction F) :
    Except Error (State F × List (ShareKey × I64)) := do
  let filledTx ← State.fillTransactionFromStxos L acc.1.coins tx
  let (s, deltas) ← match tx.data with
    | none => .ok acc
    | some data => revertTxData L acc filledTx data
  let coins ← revertUtxoChanges L s.coins tx
  .ok ({ s with coins }, deltas)

end

/-- Net changes of the positions that the trades of a block leave. -/
def batchDeltas (deltas : List (ShareKey × I64)) : Except Error ShareChanges :=
  deltas.foldlM (fun changes delta => addShareAccountChange changes delta.1 delta.2) ∅

def revertShares (L : Library F) (db : MarketsDatabase F) (deltas : List (ShareKey × I64))
    (height : Nat) : Except Error (MarketsDatabase F) := do
  let changes ← batchDeltas deltas
  (L.order changes.toList).foldlM (applyShareChange height) db

def revertReputationTransfer (reputation : Table Address F)
    (entry : ReputationTransferUndoEntry F) : Table Address F :=
  setReputation (setReputation reputation entry.sender entry.senderPreReputation)
    entry.receiver entry.receiverPreReputation

def revertReputationTransfers (reputation : Table Address F)
    (entries : List (ReputationTransferUndoEntry F)) : Table Address F :=
  entries.reverse.foldl revertReputationTransfer reputation

def coinbaseOutpoints (coinbaseTxid : CoinbaseTxid) (outputs : List Output) :
    List OutPoint :=
  (List.range outputs.length).map fun vout => .coinbase coinbaseTxid vout

/-- Transition histories back and drop the periods and prices of the block. -/
def revertDecisions (s : State F) (height : Nat) : State F :=
  let db := if height > 0 then s.decisions.rollbackDecisionStatesToHeight (height - 1)
    else s.decisions
  let db := s.mintingUndo[height]?.elim db db.deletePeriodsAbove
  { s with
    decisions := db.restorePeriodPricingUndo height
    mintingUndo := s.mintingUndo.erase height }

/-- The block below the tip becomes the tip. -/
def setPreviousTip (s : State F) (header : Header) (height : Nat) :
    Except Error (State F) :=
  match header.prevSideHash, height with
  | none, 0 => .ok { s with tip := none, height := none }
  | some prevSideHash, height + 1 =>
      .ok { s with tip := some prevSideHash, height := some height }
  | _, _ => .error .noTip

section

variable (L : Library F)

def undoSettlement (s : State F) (height : Nat) : Except Error (State F) :=
  match s.settlementUndo[height]? with
  | none => .ok s
  | some entries => do
      let s ← revertSettlement L s entries height
      .ok { s with settlementUndo := s.settlementUndo.erase height }

def undoConsensus (s : State F) (height : Nat) : State F :=
  match s.consensusUndo[height]? with
  | none => s
  | some entries =>
      let s := revertConsensus s entries
      { s with consensusUndo := s.consensusUndo.erase height }

def undoConsolidation (s : State F) (height : Nat) : State F :=
  match s.consolidationUndo[height]? with
  | none => s
  | some undo =>
      let s := withFunds s (revertConsolidation (fundsOf s) undo)
      { s with consolidationUndo := s.consolidationUndo.erase height }

variable [DecidableEq F]

/-- Undo the transactions that were not skipped, last first. -/
def undoTransactions (s : State F) (body : Body F) (height : Nat) :
    Except Error (State F × List (ShareKey × I64)) := do
  let skipped := s.skippedTxIndicesUndo[height]?.getD []
  let txs := (body.transactions.zipIdx.filter fun entry => entry.2 ∉ skipped).map Prod.fst
  let (s, deltas) ← txs.reverse.foldlM (revertTransaction L) (s, [])
  .ok ({ s with
    skippedTxIndicesUndo :=
      if skipped.isEmpty then s.skippedTxIndicesUndo
      else s.skippedTxIndicesUndo.erase height }, deltas)

def undoReputationTransfers (s : State F) (height : Nat) : State F :=
  match s.reputationTransferUndo[height]? with
  | none => s
  | some entries =>
      { s with
        reputation := revertReputationTransfers s.reputation entries
        reputationTransferUndo := s.reputationTransferUndo.erase height }

def checkTip (s : State F) (header : Header) (body : Body F) : Except Error Nat := do
  let tipHash ← okOr s.tip .noTip
  ensure (tipHash = L.headerHash header)
    (.invalidHeaderBlockHash tipHash (L.headerHash header))
  let merkleRoot := L.merkleRoot body.coinbase body.transactions
  ensure (merkleRoot = header.merkleRoot) (.invalidBody header.merkleRoot merkleRoot)
  okOr s.height .noTip

def disconnectTip (s : State F) (header : Header) (body : Body F) :
    Except Error (State F) := do
  let height ← checkTip L s header body
  let s ← undoSettlement L s height
  let s := undoConsolidation (undoConsensus s height) height
  let (s, deltas) ← undoTransactions L s body height
  let markets ← revertShares L s.markets deltas height
  let s := undoReputationTransfers { s with markets } height
  let coins ← (coinbaseOutpoints (L.coinbaseTxid header) body.coinbase.outputs).reverse.foldlM
    removeOutput s.coins
  let s := revertDecisions { s with coins } height
  setPreviousTip s header height

end

end Truthcoin.Disconnect
