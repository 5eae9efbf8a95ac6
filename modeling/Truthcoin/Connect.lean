import Truthcoin.Consolidation

/-!
# Connecting a block

The block is validated, its transactions are applied, the changes they collected
are written, the funds of the traded markets are consolidated, periods are minted
and priced, closed voting periods are resolved and resolved markets are settled.
-/

namespace Truthcoin.Connect

open Truthcoin.Types Truthcoin.Table Truthcoin.Fallible Truthcoin.Arithmetic
open Truthcoin.Decisions Truthcoin.Markets Truthcoin.Voting Truthcoin.Blocks
open Truthcoin.Trading Truthcoin.Validation Truthcoin.Settlement Truthcoin.Apply
open Truthcoin.Consolidation

variable {F : Type} [F64 F]

def notFound (marketId : MarketId) : Error :=
  .invalidTransaction s!"Market {marketId} not found"

def marketFailure (text : String) (e : MarketError) : Error :=
  .invalidTransaction s!"{text}: {e.message}"

/-- Add one trade to the shares and to the volumes of a market. -/
def addUpdate (acc : Market F × List I64) (update : MarketStateUpdate) :
    Except Error (Market F × List I64) := do
  let shares ← addAt acc.2 update.outcomeIndex update.delta
  let market ← (acc.1.updateTradingVolume update.outcomeIndex update.volumeSats).mapError
    (marketFailure "Failed to update volume")
  .ok (market, shares)

/-- Apply the trades in one market. -/
def applyMarketUpdates (u : StateUpdate F) (height : Nat) (db : MarketsDatabase F)
    (marketId : MarketId) : Except Error (MarketsDatabase F) := do
  let market ← okOr (db.getMarket marketId) (notFound marketId)
  let (market, newShares) ← (u.updatesOf marketId).foldlM addUpdate (market, market.shares)
  let market ← (market.updateState height none (some newShares) none).mapError
    (marketFailure "Failed to update market state")
  let db ← db.updateMarket market
  .ok (db.clearMempoolShares marketId)

/-- Add the amplifications of a market to its liquidity. -/
def applyAmplifications (u : StateUpdate F) (db : MarketsDatabase F) (marketId : MarketId) :
    Except Error (MarketsDatabase F) := do
  let amount ← sumU64 (u.amplifications marketId)
  let market ← okOr (db.getMarket marketId) (notFound marketId)
  let liquidityBaseSats ← okOr (checkedAdd market.liquidityBaseSats amount)
    (.invalidTransaction s!"Liquidity base overflow for market {marketId}")
  db.updateMarket { market with liquidityBaseSats }

def applyShareChange (height : Nat) (db : MarketsDatabase F) (change : ShareKey × I64) :
    Except Error (MarketsDatabase F) :=
  db.changeShares change.1.address change.1.position change.2 height

def updatedMarkets (u : StateUpdate F) : List MarketId :=
  (u.marketUpdates.map MarketStateUpdate.marketId).dedup

def amplifiedMarkets (u : StateUpdate F) : List MarketId :=
  ((u.pendingBuySettlements.filter PendingBuySettlement.isAmplify).map
    PendingBuySettlement.marketId).dedup

def tradedMarkets (u : StateUpdate F) : List MarketId :=
  (u.shareAccountChanges.toList.map fun change => change.1.position.marketId).dedup

/-- Write the created markets, the trades, the amplifications and the changes of
share accounts. -/
def writeMarkets (L : Library F) (u : StateUpdate F) (height : Nat)
    (db : MarketsDatabase F) : Except Error (MarketsDatabase F) := do
  let db := u.marketCreations.foldl MarketsDatabase.addMarket db
  let db ← (L.order (updatedMarkets u)).foldlM (applyMarketUpdates u height) db
  let db ← (L.order (amplifiedMarkets u)).foldlM (applyAmplifications u) db
  let db ← (L.order u.shareAccountChanges.toList).foldlM (applyShareChange height) db
  (L.order (tradedMarkets u)).forM db.verifyShareInvariant
  .ok db

/-- The funds of a state. -/
def fundsOf (s : State F) : Funds :=
  ⟨s.coins, s.markets.marketFundsUtxos⟩

def withFunds (s : State F) (f : Funds) : State F :=
  { s with
    coins := f.coins
    markets := { s.markets with marketFundsUtxos := f.pointers } }

def applyAllChanges (L : Library F) (u : StateUpdate F) (s : State F) (height : Nat) :
    Except Error (State F) := do
  let markets ← writeMarkets L u height s.markets
  let voting := u.voteSubmissions.foldl VotingDatabases.putVote s.voting
  let s := { s with markets, voting }
  let (funds, undo) ← consolidateMarketUtxos L height u.pendingSellPayouts
    u.pendingBuySettlements u.pendingSellInputChanges (fundsOf s)
  let s := withFunds s funds
  .ok { s with
    consolidationUndo := undo.elim s.consolidationUndo
      fun data => s.consolidationUndo.insert height data }

def transitionAllToVoting (db : Dbs F) (currentPeriod height : Nat) :
    Except Error (Dbs F) :=
  (db.getClaimedDecisionsNeedingVoting currentPeriod).foldlM
    (fun db decisionId => db.transitionDecisionToVoting decisionId height) db

/-- Voting periods that have closed with the decisions they resolve, in ascending
order. -/
def periodsToResolve (db : Dbs F) (currentPeriod : Nat) : List (Nat × List DecisionId) :=
  let ready := db.getVotingDecisionsNeedingResolution currentPeriod
  ((ready.map DecisionId.votingPeriod).dedup.insertionSort (· ≤ ·)).map fun period =>
    (period, ready.filter fun d => d.votingPeriod = period)

def resolvePeriod (L : Library F) (config : DecisionConfig) (genesisTs height : Nat)
    (acc : ConsensusTables F × List (ConsensusUndoEntry F))
    (period : Nat × List DecisionId) :
    Except Error (ConsensusTables F × List (ConsensusUndoEntry F)) := do
  let (first, last) ← calculatePeriodBoundaries config period.1 genesisTs
  let (tables, entry) ← calculateAndStoreConsensus L.calculateConsensus acc.1
    ⟨period.1, first, last, period.2⟩ height
  .ok (tables, acc.2 ++ entry.toList)

def consensusTables (s : State F) : ConsensusTables F :=
  ⟨s.voting, s.decisions, s.reputation⟩

/-- Insert an undo row unless there is nothing to undo. -/
def putUndo {α : Type} (rows : Table Nat (List α)) (height : Nat) (entries : List α) :
    Table Nat (List α) :=
  if entries.isEmpty then rows else rows.insert height entries

def resolvePeriods (L : Library F) (config : DecisionConfig) (s : State F)
    (currentPeriod genesisTs height : Nat) : Except Error (State F) := do
  let (tables, entries) ← (periodsToResolve s.decisions currentPeriod).foldlM
    (resolvePeriod L config genesisTs height) (consensusTables s, [])
  .ok { s with
    voting := tables.voting
    decisions := tables.decisions
    reputation := tables.reputation
    consensusUndo := putUndo s.consensusUndo height entries }

def settleMarkets (L : Library F) (s : State F) (height : Nat) : Except Error (State F) := do
  let (s, entries) ← transitionAndPayoutResolvedMarkets L s height
  .ok { s with settlementUndo := putUndo s.settlementUndo height entries }

def priceBlock (config : DecisionConfig) (db : Dbs F) (height timestamp genesisTs : Nat) :
    Except Error (Dbs F) :=
  if height = 0 then db.mintGenesis config timestamp height genesisTs
  else db.processBlockPricing config height timestamp genesisTs

/-- The genesis block fixes the genesis timestamp and gives all reputation to the
owner of its first coinbase output. -/
def startGenesis (s : State F) (body : Body F) (timestamp : Nat) : State F :=
  { s with
    genesisTimestamp := some timestamp
    reputation := (body.coinbase.outputs.head?).elim s.reputation
      fun output => setReputation s.reputation output.address F64.one }

/-- Record the prices and the highest minted period before the block. -/
def recordMinting (s : State F) (height : Nat) : State F :=
  { s with
    decisions := s.decisions.snapshotPeriodPricing height
    mintingUndo := s.mintingUndo.insert height (s.decisions.getHighestMintedPeriod.getD 0) }

def startBlock (s : State F) (body : Body F) (height timestamp : Nat) : State F :=
  recordMinting (if height = 0 then startGenesis s body timestamp else s) height

def finishBlock (L : Library F) (s : State F) (header : Header) (height timestamp : Nat)
    (skipped : List Nat) : State F :=
  { s with
    skippedTxIndicesUndo := putUndo s.skippedTxIndicesUndo height skipped
    tip := some (L.headerHash header)
    height := some height
    mainchainTimestamp := some timestamp }

section

variable [DecidableEq F] (L : Library F) (config : DecisionConfig)

/-- Apply the transactions: their data first, then their outputs, then the changes
they collected. The second component lists the skipped transactions. -/
def connectTransactions (s : State F) (pre : PrevalidatedBlock F) :
    Except Error (State F × List Nat) := do
  let applied ← applyTransactions L s pre.filledTransactions pre.nextHeight
  applied.update.validateAllChanges applied.state
  validateFees pre.coinbaseValue pre.filledTransactions applied.skipped
  let coins ← (notSkipped pre.filledTransactions applied.skipped).foldlM
    (applyUtxoChanges L) applied.state.coins
  let s ← applyAllChanges L applied.update { applied.state with coins } pre.nextHeight
  .ok (s, applied.skipped)

def connectPrevalidated (s : State F) (block : Block F) (pre : PrevalidatedBlock F) :
    Except Error (State F) := do
  let height := pre.nextHeight
  let timestamp := block.mainchainTimestamp
  let s := startBlock s block.body height timestamp
  let genesisTs := s.genesisTimestamp.getD 0
  let currentPeriod ← getCurrentPeriod config timestamp (some height) genesisTs
  let decisions ← transitionAllToVoting s.decisions currentPeriod height
  validateCoinbaseOutputs block.body.coinbase.outputs
  let coins := insertRows s.coins
    (coinbaseRows (L.coinbaseTxid block.header) block.body.coinbase.outputs)
  let (s, skipped) ← connectTransactions L { s with decisions, coins } pre
  let decisions ← priceBlock config s.decisions height timestamp genesisTs
  let s ← resolvePeriods L config { s with decisions } currentPeriod genesisTs height
  let s ← settleMarkets L s height
  .ok (finishBlock L s block.header height timestamp skipped)

def applyBlock (archive : Archive) (s : State F) (block : Block F) :
    Except Error (State F) := do
  let pre ← prevalidate L config archive s block.header block.body
  connectPrevalidated L config s block pre

end

end Truthcoin.Connect
