import Truthcoin.Markets

/-!
# Transactions and blocks

Transactions with the data they carry, blocks, and what a node computes with
code outside the state machine: hashes, signatures, the market maker's cost
function and the consensus algorithm.
-/

namespace Truthcoin.Blocks

open Truthcoin.Types Truthcoin.Table Truthcoin.Fallible Truthcoin.Arithmetic
open Truthcoin.Decisions Truthcoin.Markets Truthcoin.Voting

structure DecisionClaimEntry where
  decisionIdBytes : DecisionId
  header : String
  description : String
  option0Label : Option String
  option1Label : Option String
  optionLabels : Option (List String)
  tags : Option (List String)
  deriving DecidableEq

structure ClaimDecisionPayload (F : Type) where
  decisionType : DecisionType F
  decisions : List DecisionClaimEntry
  deriving DecidableEq

structure MarketCreation (F : Type) where
  title : String
  description : String
  dimensionSpecs : List DimensionSpec
  newClaims : List (ClaimDecisionPayload F)
  tradingFee : Option F
  txPowHashSelector : Option Nat
  txPowOrdering : Option Nat
  txPowDifficulty : Option Nat
  deriving DecidableEq

/-- A trade; a positive number of shares is a buy. -/
structure Trade where
  marketId : MarketId
  outcomeIndex : Nat
  shares : I64
  trader : Address
  limitSats : Nat
  txPowNonce : Option Nat
  prevBlockHash : BlockHash
  deriving DecidableEq, Repr

def Trade.isBuy (t : Trade) : Bool :=
  decide (t.shares.val > 0)

def Trade.sharesAbs (t : Trade) : Nat :=
  t.shares.val.natAbs

def Trade.position (t : Trade) : PositionKey :=
  ⟨t.marketId, t.outcomeIndex⟩

structure SubmitVote (F : Type) where
  voter : Address
  decisionIdBytes : DecisionId
  voteValue : F
  votingPeriod : Nat
  deriving DecidableEq

structure BallotItem (F : Type) where
  decisionIdBytes : DecisionId
  voteValue : F
  deriving DecidableEq

structure SubmitBallot (F : Type) where
  voter : Address
  votes : List (BallotItem F)
  votingPeriod : Nat
  deriving DecidableEq

structure TransferReputation (F : Type) where
  sender : Address
  dest : Address
  amount : F
  deriving DecidableEq

structure AmplifyBeta where
  marketId : MarketId
  amount : Nat
  marketAuthor : Address
  deriving DecidableEq, Repr

inductive TxData (F : Type) where
  | claimDecision (payload : ClaimDecisionPayload F)
  | createMarket (creation : MarketCreation F)
  | trade (trade : Trade)
  | submitVote (vote : SubmitVote F)
  | submitBallot (ballot : SubmitBallot F)
  | transferReputation (transfer : TransferReputation F)
  | amplifyBeta (amplify : AmplifyBeta)
  deriving DecidableEq

structure Transaction (F : Type) where
  inputs : List OutPoint
  outputs : List Output
  memo : List UInt8
  data : Option (TxData F)
  deriving DecidableEq

/-- A transaction with the outputs it spends and the address its actor proof
authenticates. -/
structure FilledTransaction (F : Type) where
  transaction : Transaction F
  spentUtxos : List FilledOutput
  actorAddress : Option Address

structure Authorization where
  verifyingKey : Nat
  signature : Nat
  deriving DecidableEq, Repr

structure Coinbase where
  memo : List UInt8
  outputs : List Output
  deriving DecidableEq, Repr

structure Body (F : Type) where
  coinbase : Coinbase
  transactions : List (Transaction F)
  authorizations : List Authorization
  actorProofs : List (Option Authorization)
  deriving DecidableEq

def maxBodySize : Nat := 8 * 1024 * 1024

structure Header where
  merkleRoot : MerkleRoot
  prevSideHash : Option BlockHash
  prevMainHash : MainBlockHash
  deriving DecidableEq, Repr

/-- A block with the timestamp of the mainchain block that committed to it. -/
structure Block (F : Type) where
  header : Header
  body : Body F
  mainchainTimestamp : Nat

/-- Functions that the state machine uses and that are not modelled here. -/
structure Library (F : Type) where
  txid : Transaction F → Txid
  headerHash : Header → BlockHash
  coinbaseTxid : Header → CoinbaseTxid
  merkleRoot : Coinbase → List (Transaction F) → MerkleRoot
  bodySize : Body F → Option Nat
  getAddress : Authorization → Address
  /-- The script of a mainchain address, which does not name its network. -/
  scriptPubkey : MainAddress → List UInt8
  verifyBody : Body F → Bool
  computeMarketId : ComputeMarketId
  marketTreasuryAddress : MarketId → Address
  marketAuthorFeeAddress : MarketId → Address
  sellPayoutHash : MarketId → Address → Txid → MerkleRoot
  buyChangeHash : MarketId → Address → Txid → MerkleRoot
  sellInputChangeHash : Address → Txid → MerkleRoot
  sharePayoutHash : MarketId → Address → Nat → Nat → MerkleRoot
  /-- Market maker's cost of moving from the first shares to the second. -/
  updateCost : List I64 → List I64 → F → Option F
  calculateConsensus : CalculateConsensus F
  /-- Proof of work of a trade under a market's configuration. -/
  verifyTradePow : Market F → Trade → Nat → Bool
  /-- The order in which a hash map iterates over its entries. -/
  order : {α : Type} → List α → List α
  order_perm : ∀ {α : Type} (l : List α), (order l).Perm l

/-- What the validation of trades asks of the block archive. -/
structure Archive where
  tryGetHeight : BlockHash → Option Nat
  isDescendant : BlockHash → BlockHash → Bool

section

variable {F : Type} (L : Library F)

def sellPayoutOutpoint (marketId : MarketId) (seller : Address) (txid : Txid) : OutPoint :=
  .payout (L.sellPayoutHash marketId seller txid) 0

def buyChangeOutpoint (marketId : MarketId) (trader : Address) (txid : Txid) : OutPoint :=
  .payout (L.buyChangeHash marketId trader txid) 0

def sellInputChangeOutpoint (trader : Address) (txid : Txid) : OutPoint :=
  .payout (L.sellInputChangeHash trader txid) 0

def sharePayoutOutpoint (marketId : MarketId) (shareholder : Address)
    (blockHeight sequence : Nat) : OutPoint :=
  .payout (L.sharePayoutHash marketId shareholder blockHeight sequence) sequence

end

namespace Transaction

variable {F : Type}

def isTrade (tx : Transaction F) : Bool :=
  match tx.data with
  | some (.trade _) => true
  | _ => false

def isAmplifyBeta (tx : Transaction F) : Bool :=
  match tx.data with
  | some (.amplifyBeta _) => true
  | _ => false

/-- The claim payloads of a transaction. -/
def claimPayloads (tx : Transaction F) : List (ClaimDecisionPayload F) :=
  match tx.data with
  | some (.claimDecision payload) => [payload]
  | some (.createMarket creation) => creation.newClaims
  | _ => []

/-- The decisions a transaction claims. -/
def claimedIds (tx : Transaction F) : List DecisionId :=
  tx.claimPayloads.flatMap fun payload =>
    payload.decisions.map DecisionClaimEntry.decisionIdBytes

end Transaction

namespace FilledTransaction

variable {F : Type}

def spentBitcoinValue (tx : FilledTransaction F) : Option Nat :=
  checkedSum (tx.spentUtxos.map FilledOutput.getBitcoinValue)

def bitcoinValueOut (tx : FilledTransaction F) : Option Nat :=
  checkedSum (tx.transaction.outputs.map Output.getBitcoinValue)

/-- The value spent and not paid out; nothing when more is paid out. -/
def bitcoinFee (tx : FilledTransaction F) : Except Error (Option Nat) := do
  let spentValue ← okOr tx.spentBitcoinValue .amountOverflow
  let valueOut ← okOr tx.bitcoinValueOut .amountOverflow
  .ok (checkedSub spentValue valueOut)

/-- The fee, with an error when the outputs pay more than the inputs. -/
def requiredFee (tx : FilledTransaction F) : Except Error Nat := do
  okOr (← tx.bitcoinFee) .notEnoughValueIn

def spentInputs (tx : FilledTransaction F) : List (OutPoint × FilledOutput) :=
  tx.transaction.inputs.zip tx.spentUtxos

/-- The plain bitcoin among the spent outputs. -/
def spentAssets (tx : FilledTransaction F) : List (OutPoint × FilledOutput) :=
  tx.spentInputs.filter fun entry => entry.2.content.isBitcoin

/-- Value of the plain bitcoin inputs, the most that the outputs may hold. -/
def outputBitcoinMaxValue (tx : FilledTransaction F) : Except Error Nat :=
  sumU64 (tx.spentAssets.map fun entry => entry.2.getBitcoinValue)

/-- Fill an output from what is left of the inputs; a withdrawal takes nothing. -/
def fillOutput (left : Nat) (output : Output) : Option (FilledOutput × Nat) :=
  match output.content with
  | .bitcoin value =>
      (checkedSub left value).map fun left =>
        (⟨output.address, .bitcoin value, output.memo⟩, left)
  | .withdrawal w => some (⟨output.address, .bitcoinWithdrawal w, output.memo⟩, left)
  | .marketFunds marketId amount isFee =>
      (checkedSub left amount).map fun left =>
        (⟨output.address, .marketFunds marketId amount isFee, output.memo⟩, left)

def fillOutputs : Nat → List Output → Option (List FilledOutput)
  | _, [] => some []
  | left, output :: outputs => do
      let (filled, left) ← fillOutput left output
      let rest ← fillOutputs left outputs
      some (filled :: rest)

def filledOutputs (tx : FilledTransaction F) : Except Error (Option (List FilledOutput)) := do
  let maxValue ← tx.outputBitcoinMaxValue
  .ok (fillOutputs maxValue tx.transaction.outputs)

/-- The fee that block validation counts for a transaction. -/
def blockFee (tx : FilledTransaction F) : Except Error Nat :=
  if tx.transaction.isTrade ∨ tx.transaction.isAmplifyBeta then
    .ok Trading.tradeMinerFeeSats
  else
    tx.requiredFee

end FilledTransaction

end Truthcoin.Blocks
