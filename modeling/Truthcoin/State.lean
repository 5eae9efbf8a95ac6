import Truthcoin.Blocks
import Truthcoin.TwoWayPeg

/-!
# The state of a node

All tables of the state machine, with the undo records that connecting a block
writes for its disconnection.
-/

namespace Truthcoin

open Truthcoin.Types Truthcoin.Table Truthcoin.Fallible Truthcoin.Arithmetic
open Truthcoin.Decisions Truthcoin.Markets Truthcoin.Voting Truthcoin.Blocks
open Truthcoin.TwoWayPeg

/-- Payout of one position of a settled market. -/
structure SharePayoutRecord (F : Type) where
  marketId : MarketId
  address : Address
  outcomeIndex : Nat
  sharesRedeemed : I64
  finalPrice : F
  payoutSats : Nat
  deriving DecidableEq

inductive FeeRole where
  | correctVoter
  | decisionAuthor
  | marketAuthor
  deriving DecidableEq, Repr

def FeeRole.order : FeeRole → Nat
  | .correctVoter => 0
  | .decisionAuthor => 1
  | .marketAuthor => 2

structure FeePayoutRecord where
  address : Address
  amountSats : Nat
  feeRole : FeeRole
  deriving DecidableEq, Repr

structure CreatorRefund where
  address : Address
  amountSats : Nat
  deriving DecidableEq, Repr

structure MarketPayoutSummary (F : Type) where
  marketId : MarketId
  treasuryDistributed : Nat
  totalFeesDistributed : Nat
  shareholderCount : Nat
  payouts : List (SharePayoutRecord F)
  feePayouts : List FeePayoutRecord
  creatorRefund : Option CreatorRefund
  blockHeight : Nat
  deriving DecidableEq

structure SettlementUndoEntry (F : Type) where
  preSettlementMarket : Market F
  payoutSummary : MarketPayoutSummary F
  treasuryUtxo : Option (OutPoint × FilledOutput)
  feeUtxo : Option (OutPoint × FilledOutput)
  deriving DecidableEq

structure ConsolidationUndoEntry where
  marketId : MarketId
  oldTreasuryUtxos : List (OutPoint × FilledOutput)
  oldFeeUtxos : List (OutPoint × FilledOutput)
  oldTreasuryPointer : Option OutPoint
  oldFeePointer : Option OutPoint
  newTreasuryUtxo : Option OutPoint
  newFeeUtxo : Option OutPoint
  sellPayoutUtxos : List OutPoint
  buyChangeUtxos : List OutPoint
  deriving DecidableEq

structure ConsolidationUndoData where
  entries : List ConsolidationUndoEntry
  sellInputChangeUtxos : List OutPoint
  deriving DecidableEq

structure ReputationTransferUndoEntry (F : Type) where
  sender : Address
  senderPreReputation : F
  receiver : Address
  receiverPreReputation : F
  deriving DecidableEq

structure State (F : Type) where
  tip : Option BlockHash
  height : Option Nat
  mainchainTimestamp : Option Nat
  genesisTimestamp : Option Nat
  reputation : Table Address F
  decisions : Dbs F
  markets : MarketsDatabase F
  voting : VotingDatabases F
  coins : Coins
  peg : PegDbs
  settlementUndo : Table Nat (List (SettlementUndoEntry F))
  consensusUndo : Table Nat (List (ConsensusUndoEntry F))
  consolidationUndo : Table Nat ConsolidationUndoData
  mintingUndo : Table Nat Nat
  reputationTransferUndo : Table Nat (List (ReputationTransferUndoEntry F))
  skippedTxIndicesUndo : Table Nat (List Nat)
  deriving DecidableEq

namespace State

variable {F : Type}

def empty (F : Type) : State F where
  tip := none
  height := none
  mainchainTimestamp := none
  genesisTimestamp := none
  reputation := ∅
  decisions := Dbs.empty F
  markets := MarketsDatabase.empty F
  voting := VotingDatabases.empty F
  coins := Coins.empty
  peg := PegDbs.empty
  settlementUndo := ∅
  consensusUndo := ∅
  consolidationUndo := ∅
  mintingUndo := ∅
  reputationTransferUndo := ∅
  skippedTxIndicesUndo := ∅

/-- Outputs that a transaction spends, in the order of its inputs. -/
def fillTransaction (s : State F) (tx : Transaction F) :
    Except Error (FilledTransaction F) := do
  let spentUtxos ← tx.inputs.mapM fun input => okOr s.coins.utxos[input]? (.noUtxo input)
  .ok ⟨tx, spentUtxos, none⟩

/-- Outputs that a connected transaction has spent. A row that another input left
behind trips an assertion. -/
def fillTransactionFromStxos (L : Library F) (coins : Coins) (tx : Transaction F) :
    Except Error (FilledTransaction F) := do
  let spentUtxos ← tx.inputs.zipIdx.mapM fun entry => do
    let stxo ← okOr coins.stxos[entry.1]? (.noStxo entry.1)
    ensure (stxo.inpoint = .regular (L.txid tx) entry.2) .panic
    .ok stxo.output
  .ok ⟨tx, spentUtxos, none⟩

/-- Value of the output a market's funds pointer refers to. -/
def getMarketFundsSats (s : State F) (marketId : MarketId) (isFee : Bool) :
    Except Error Nat :=
  match s.markets.getMarketFundsUtxo marketId isFee with
  | none => .ok 0
  | some outpoint => do
      let utxo ← okOr s.coins.utxos[outpoint]? (.noUtxo outpoint)
      .ok utxo.getBitcoinValue

/-- The output a market's funds pointer refers to, with its outpoint. -/
def marketFundsOutput (s : State F) (marketId : MarketId) (isFee : Bool) :
    Option (OutPoint × FilledOutput) :=
  (s.markets.getMarketFundsUtxo marketId isFee).bind fun outpoint =>
    s.coins.utxos[outpoint]?.map fun output => (outpoint, output)

def insertUtxo (s : State F) (outpoint : OutPoint) (output : FilledOutput) : State F :=
  { s with coins := s.coins.insertUtxo outpoint output }

/-- Delete an output that may be missing. -/
def deleteUtxo (s : State F) (outpoint : OutPoint) : State F :=
  { s with coins := (s.coins.deleteUtxo outpoint).1 }

def connectTwoWayPegData (lib : WithdrawalBundle.BundleLib) (s : State F)
    (data : TwoWayPegData) : Except Error (State F) := do
  let p ← TwoWayPeg.connect lib s.height ⟨s.coins, s.peg⟩ data
  .ok { s with coins := p.coins, peg := p.dbs }

def disconnectTwoWayPegData (s : State F) (data : TwoWayPegData) :
    Except Error (State F) := do
  let p ← TwoWayPeg.disconnect s.height ⟨s.coins, s.peg⟩ data
  .ok { s with coins := p.coins, peg := p.dbs }

end State

end Truthcoin
