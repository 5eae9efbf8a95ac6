import Truthcoin.State

/-!
# Validation of transactions and blocks

Checks against the state before a block. `prevalidate` returns what connecting
the block needs: the filled transactions, the value of the coinbase and the
height of the block.
-/

namespace Truthcoin.Validation

open Truthcoin.Types Truthcoin.Table Truthcoin.Fallible Truthcoin.Arithmetic
open Truthcoin.Decisions Truthcoin.Markets Truthcoin.Voting Truthcoin.Blocks
open Truthcoin.Trading

variable {F : Type} [F64 F]

/-- `(0.0..=1.0).contains(&x)`. -/
def inUnitInterval (x : F) : Bool :=
  F64.le F64.zero x && F64.le x F64.one

/-- The transaction spends an output of an address, or carries its proof. -/
def provesIdentity (tx : FilledTransaction F) (address : Address) : Prop :=
  (∃ utxo ∈ tx.spentUtxos, utxo.address = address) ∨ tx.actorAddress = some address

instance (tx : FilledTransaction F) (address : Address) :
    Decidable (provesIdentity tx address) :=
  inferInstanceAs (Decidable (_ ∨ _))

/-- The owner of the first input. -/
def validateMakerAuth (tx : FilledTransaction F) : Except Error Address := do
  ensure (tx.transaction.inputs ≠ [])
    (.invalidTransaction "Transaction must have at least one input")
  let utxo ← okOr tx.spentUtxos.head? (.invalidTransaction "No spent UTXOs found")
  .ok utxo.address

/-- What a claim is checked against. -/
structure ClaimContext where
  currentTs : Nat
  currentHeight : Option Nat
  genesisTs : Nat

/-- The state knows its timestamps. -/
def ClaimContext.ofState (s : State F) (overrideHeight : Option Nat) : ClaimContext :=
  ⟨s.mainchainTimestamp.getD 0, overrideHeight.or s.height, s.genesisTimestamp.getD 0⟩

/-- The decisions database knows neither timestamps nor a height. -/
def ClaimContext.ofDbs (overrideHeight : Option Nat) : ClaimContext :=
  ⟨0, overrideHeight, 0⟩

def decisionTypeName : DecisionType F → String
  | .binary => "Binary"
  | .scaled .. => "Scaled"
  | .category _ => "Category"

def validateClaimShape (payload : ClaimDecisionPayload F) : Except Error Unit :=
  match payload.decisionType, payload.decisions with
  | .category options, [entry] => do
      ensure (2 ≤ options.length)
        (.invalidTransaction "Category claim requires at least 2 options")
      let labels ← okOr entry.optionLabels
        (.invalidTransaction "Category claim entry must have option_labels")
      ensure (2 ≤ labels.length)
        (.invalidTransaction "Category claim entry must have at least 2 option_labels")
      ensure (labels = options)
        (.invalidTransaction
          (s!"option_labels ({labels.length}) must match " ++
            s!"decision_type options ({options.length})"))
  | .category _, decisions =>
      .error (.invalidTransaction
        s!"Category claim must have exactly 1 decision entry, got {decisions.length}")
  | _, [entry] =>
      ensure (entry.optionLabels = none)
        (.invalidTransaction "option_labels must not be set for binary/scaled decisions")
  | decisionType, decisions =>
      .error (.invalidTransaction
        (s!"{decisionTypeName decisionType} claim must have exactly 1 decision, " ++
          s!"got {decisions.length}"))

/-- The decision that an entry of a claim describes. -/
def decisionOf (marketMaker : Address) (decisionType : DecisionType F)
    (entry : DecisionClaimEntry) : Except Error (Decision F) :=
  Decision.new marketMaker decisionType entry.header entry.description entry.option0Label
    entry.option1Label (entry.tags.getD [])

def claimError (decisionId : DecisionId) : Error → Error
  | .decisionNotAvailable _ reason => .invalidDecisionId reason
  | .decisionAlreadyClaimed _ =>
      .invalidDecisionId s!"Decision {decisionId.toNat} already claimed"
  | e => e

def validateClaimEntry (config : DecisionConfig) (db : Dbs F) (ctx : ClaimContext)
    (marketMaker : Address) (decisionType : DecisionType F) (entry : DecisionClaimEntry) :
    Except Error Unit := do
  let decisionId ← DecisionId.fromBytes entry.decisionIdBytes
  let _ ← decisionOf marketMaker decisionType entry
  (db.validateDecisionClaim config decisionId ctx.currentTs ctx.currentHeight
    ctx.genesisTs).mapError (claimError decisionId)

def listingFee (db : Dbs F) (total : Nat) (entry : DecisionClaimEntry) :
    Except Error Nat := do
  let decisionId ← DecisionId.fromBytes entry.decisionIdBytes
  if decisionId.isStandard then
    let fee ← db.feeForDecisionId decisionId
    okOr (checkedAdd total fee) (.invalidTransaction "Listing fee overflow")
  else
    .ok total

/-- Check a claim and return the listing fee it owes. -/
def validateClaimPayload (config : DecisionConfig) (db : Dbs F) (ctx : ClaimContext)
    (marketMaker : Address) (payload : ClaimDecisionPayload F) : Except Error Nat := do
  validateClaimShape payload
  payload.decisions.forM
    (validateClaimEntry config db ctx marketMaker payload.decisionType)
  payload.decisions.foldlM (listingFee db) 0

/-- The transaction pays a listing fee, if there is one. -/
def checkListingFee (tx : FilledTransaction F) (total : Nat) (text : Nat → String) :
    Except Error Unit := do
  if total > 0 then
    let fee ← tx.bitcoinFee.mapError
      fun _ => .invalidTransaction "Failed to compute tx fee"
    let fee ← okOr fee .notEnoughValueIn
    ensure (total ≤ fee) (.invalidTransaction (text fee))

def validateCompleteDecisionClaim (config : DecisionConfig) (s : State F)
    (tx : FilledTransaction F) (payload : ClaimDecisionPayload F)
    (overrideHeight : Option Nat) : Except Error Unit := do
  let marketMaker ← validateMakerAuth tx
  let total ← validateClaimPayload config s.decisions (ClaimContext.ofState s overrideHeight)
    marketMaker payload
  checkListingFee tx total fun fee =>
    s!"Insufficient listing fee: tx fee is {fee} sats but listing fee requires {total} sats"

/-- Decision types of the claims that a market creation brings along. -/
abbrev PendingTypes (F : Type) := List (DecisionId × DecisionType F)

def PendingTypes.get (pending : PendingTypes F) (d : DecisionId) : Option (DecisionType F) :=
  (pending.find? fun entry => entry.1 = d).map Prod.snd

def addPendingClaim (db : Dbs F) (decisionType : DecisionType F) (pending : PendingTypes F)
    (entry : DecisionClaimEntry) : Except Error (PendingTypes F) := do
  let decisionId ← DecisionId.fromBytes entry.decisionIdBytes
  ensure (pending.get decisionId = none)
    (.invalidTransaction s!"Duplicate new claim for decision {decisionId.toNat}")
  ensure (((db.getDecisionEntry decisionId).bind DecisionEntry.decision).isNone = true)
    (.invalidTransaction
      s!"New claim for decision {decisionId.toNat} collides with already-claimed decision")
  .ok ((decisionId, decisionType) :: pending)

/-- Check one payload of new claims; the accumulator holds the pending types and
the listing fees so far. -/
def validateNewClaim (config : DecisionConfig) (db : Dbs F) (ctx : ClaimContext)
    (marketMaker : Address) (acc : PendingTypes F × Nat)
    (payload : ClaimDecisionPayload F) : Except Error (PendingTypes F × Nat) := do
  let fee ← validateClaimPayload config db ctx marketMaker payload
  let total ← okOr (checkedAdd acc.2 fee) (.invalidTransaction "Listing fee overflow")
  let pending ← payload.decisions.foldlM (addPendingClaim db payload.decisionType) acc.1
  .ok (pending, total)

def isCategoricalSpec : DimensionSpec → Bool
  | .single _ => false
  | .categorical _ => true

def validatePendingDimension (spec : DimensionSpec) (decisionType : DecisionType F) :
    Except Error Unit :=
  match spec, decisionType with
  | .single _, _ => .ok ()
  | .categorical _, .category options =>
      ensure (2 ≤ options.length)
        (.invalidTransaction "Categorical dimensions require at least 2 options")
  | .categorical d, _ =>
      .error (.invalidTransaction
        (s!"Categorical dimension references new decision {d.toNat} which is not " ++
          "a Category type"))

def validateDimension (db : Dbs F) (pending : PendingTypes F) (spec : DimensionSpec) :
    Except Error Unit := do
  let d := spec.decisionId
  match pending.get d with
  | some decisionType => validatePendingDimension spec decisionType
  | none =>
      let entry ← okOr (db.getDecisionEntry d)
        (.invalidTransaction s!"Referenced decision {d.toNat} does not exist")
      let decision ← okOr entry.decision
        (.invalidTransaction s!"Referenced decision {d.toNat} was never claimed")
      if isCategoricalSpec spec then
        ensure (decision.isCategorical = true)
          (.invalidTransaction
            (s!"Categorical dimension references decision {d.toNat} which is not " ++
              "a Category type"))
        ensure (2 ≤ decision.optionCount.getD 0)
          (.invalidTransaction "Categorical dimensions require at least 2 options")

def maxPowDifficulty : Nat := 32
def powBoundWindowBlocks : Nat := 10

def validateTxPowConfig (creation : MarketCreation F) : Except Error Unit :=
  match creation.txPowDifficulty with
  | none => .ok ()
  | some difficulty =>
      ensure
        (difficulty = 0 ∨
          (difficulty ≤ maxPowDifficulty ∧ creation.txPowHashSelector.getD 0 ≠ 0))
        (.invalidTransaction
          (s!"TX-PoW config invalid: difficulty must be 0..={maxPowDifficulty} and " ++
            "hash_selector must be non-zero when difficulty > 0"))

/-- Value of an output that seeds the treasury of a market. -/
def treasuryAmount (marketId : MarketId) (output : Output) : Option Nat :=
  match output.content with
  | .marketFunds m amount false => if m = marketId then some amount else none
  | _ => none

section

variable (L : Library F) (config : DecisionConfig)

def validateMarketCreation (s : State F) (tx : FilledTransaction F)
    (creation : MarketCreation F) (overrideHeight : Option Nat) : Except Error Unit := do
  let marketMaker ← validateMakerAuth tx
  let (pending, total) ← creation.newClaims.foldlM
    (validateNewClaim config s.decisions (ClaimContext.ofDbs overrideHeight) marketMaker)
    ([], 0)
  ensure (creation.dimensionSpecs ≠ [])
    (.invalidTransaction "Market must have at least one dimension")
  creation.dimensionSpecs.forM (validateDimension s.decisions pending)
  creation.tradingFee.forM fun fee =>
    ensure (inUnitInterval fee = true)
      (.invalidTransaction s!"Trading fee must be between 0.0 and 1.0, got {F64.display fee}")
  validateTxPowConfig creation
  let expectedMarketId := L.computeMarketId creation.title creation.description marketMaker
    creation.dimensionSpecs
  let amount ← okOr (tx.transaction.outputs.findSome? (treasuryAmount expectedMarketId))
    (.invalidTransaction
      ("CreateMarket tx must have MarketFunds (treasury) output " ++
        s!"with market_id {expectedMarketId}"))
  ensure (amount ≠ 0) (.invalidTransaction "CreateMarket treasury output must be positive")
  checkListingFee tx total fun fee =>
    (s!"Insufficient listing fee for new claims: tx fee is {fee} sats but listing fees " ++
      s!"require {total} sats")

/-- Value of the inputs of a trade or an amplification. -/
def inputValue (tx : FilledTransaction F) : Except Error Nat :=
  okOr tx.spentBitcoinValue (.invalidTransaction "Failed to compute input value")

def tradingMarket (s : State F) (marketId : MarketId) : Except Error (Market F) := do
  let market ← okOr (s.markets.getMarket marketId)
    (.invalidTransaction s!"Market {marketId} does not exist")
  ensure (market.marketState = .trading)
    (.invalidTransaction
      s!"Market not in trading state (current: {market.marketState.debug})")
  .ok market

/-- The block a trade refers to is on the active chain and recent. -/
def validatePrevBlock (archive : Archive) (s : State F) (trade : Trade) :
    Except Error Unit := do
  let tip ← okOr s.tip (.invalidTransaction "No chain tip when validating trade")
  let tipHeight ← okOr s.height (.invalidTransaction "No chain height when validating trade")
  let prevBlockHeight ← okOr (archive.tryGetHeight trade.prevBlockHash)
    (.invalidTransaction
      s!"Trade prev_block_hash {trade.prevBlockHash} does not reference a known block")
  ensure (trade.prevBlockHash = tip ∨ archive.isDescendant trade.prevBlockHash tip = true)
    (.invalidTransaction
      s!"Trade prev_block_hash {trade.prevBlockHash} is not on the active chain")
  ensure (tipHeight - prevBlockHeight ≤ powBoundWindowBlocks)
    (.invalidTransaction
      (s!"Trade prev_block_hash is {tipHeight - prevBlockHeight} blocks behind tip, " ++
        s!"exceeds window of {powBoundWindowBlocks}"))

def validateTradePow (market : Market F) (trade : Trade) : Except Error Unit := do
  if market.txPowDifficulty > 0 then
    let nonce ← okOr trade.txPowNonce
      (.invalidTransaction "Trade requires TX-PoW nonce for this market")
    ensure (L.verifyTradePow market trade nonce = true)
      (.invalidTransaction "TX-PoW verification failed: insufficient proof-of-work")

def validateBuy (trade : Trade) (input : Nat) : Except Error Unit := do
  ensure (trade.limitSats ≠ 0)
    (.invalidTransaction "Buy limit (max_cost) must be positive")
  ensure (trade.limitSats ≤ input)
    (.invalidTransaction
      s!"Input value {input} sats insufficient for limit_sats {trade.limitSats} sats")

def validateSell (s : State F) (tx : FilledTransaction F) (trade : Trade) (input : Nat) :
    Except Error Unit := do
  ensure (provesIdentity tx trade.trader)
    (.invalidTransaction
      s!"Sell transaction has no proof of trader {trade.trader} identity")
  let ownedShares := (s.markets.ownedShares trade.trader trade.position).val
  ensure (0 ≤ ownedShares ∧ trade.sharesAbs ≤ ownedShares.toNat)
    (.invalidTransaction
      (s!"Insufficient shares: trying to sell {trade.sharesAbs} but only own " ++
        s!"{ownedShares} for outcome {trade.outcomeIndex}"))
  ensure (tradeMinerFeeSats ≤ input)
    (.invalidTransaction
      s!"Input value {input} sats insufficient for miner fee {tradeMinerFeeSats} sats")

def validateTrade (archive : Archive) (s : State F) (tx : FilledTransaction F)
    (trade : Trade) : Except Error Unit := do
  let market ← tradingMarket s trade.marketId
  validatePrevBlock archive s trade
  validateTradePow L market trade
  ensure (trade.outcomeIndex < market.shares.length)
    (.invalidTransaction
      (s!"Outcome index {trade.outcomeIndex} out of range (market has " ++
        s!"{market.shares.length} tradeable outcomes)"))
  ensure (trade.shares.val ≠ 0) (.invalidTransaction "Shares to trade must be non-zero")
  ensure (tx.transaction.outputs = [])
    (.invalidTransaction "Trade transactions must have no outputs")
  let _ ← validateMakerAuth tx
  let input ← inputValue tx
  if trade.isBuy then validateBuy trade input else validateSell s tx trade input

def validateAmplifyBeta (s : State F) (tx : FilledTransaction F) (amplify : AmplifyBeta) :
    Except Error Unit := do
  ensure (amplify.amount ≠ 0) (.invalidTransaction "AmplifyBeta amount must be positive")
  let market ← tradingMarket s amplify.marketId
  ensure (market.creatorAddress = amplify.marketAuthor)
    (.invalidTransaction
      (s!"AmplifyBeta author {amplify.marketAuthor} does not match market creator " ++
        s!"{market.creatorAddress}"))
  ensure (provesIdentity tx amplify.marketAuthor)
    (.invalidTransaction
      s!"AmplifyBeta has no proof of market author {amplify.marketAuthor} identity")
  ensure (tx.transaction.outputs = [])
    (.invalidTransaction "AmplifyBeta transactions must have no outputs")
  let input ← inputValue tx
  let required ← okOr (checkedAdd amplify.amount tradeMinerFeeSats)
    (.invalidTransaction "AmplifyBeta amount overflow")
  ensure (required ≤ input)
    (.invalidTransaction
      (s!"Input value {input} sats insufficient for amplify amount {amplify.amount} + " ++
        s!"miner fee {tradeMinerFeeSats} sats"))

def validateMarketShares (shares : List I64) : Except Error Unit := do
  shares.zipIdx.forM fun entry =>
    ensure (0 ≤ entry.1.val)
      (.invalidTransaction
        s!"Share quantity at index {entry.2} must be non-negative, got {entry.1.val}")
  ensure (2 ≤ shares.length)
    (.invalidTransaction s!"Market must have at least 2 outcomes, got {shares.length}")

def convertVoteValueWithDecision (voteValue : F) (decision : Option (Decision F)) :
    VoteValue F :=
  if F64.isNan voteValue then
    .abstain
  else if decision.elim false Decision.isCategorical then
    .categorical (min (F64.toU64 (F64.round voteValue)) (2 ^ 16 - 1))
  else if F64.eq voteValue F64.zero || F64.eq voteValue F64.one then
    .binary (F64.eq voteValue F64.one)
  else
    .scalar voteValue

def validateVoterEligibility (s : State F) (voter : Address) : Except Error Unit :=
  ensure (F64.le (getReputation s.reputation voter) F64.zero = false)
    (.invalidTransaction "Voter has no reputation (voting rights)")

def validateDecisionEntry (s : State F) (decisionId : DecisionId) :
    Except Error (Decision F) := do
  let entry ← okOr (s.decisions.getDecisionEntry decisionId)
    (.invalidDecisionId s!"Decision {decisionId.toNat} does not exist")
  okOr entry.decision (.invalidDecisionId s!"Decision {decisionId.toNat} has no decision")

def validateVoteValue (decision : Decision F) (voteValue : F) : Except Error Unit :=
  if F64.isNan voteValue then
    .ok ()
  else if decision.isCategorical then
    ensure
      (F64.le F64.zero voteValue = true ∧
        F64.eq voteValue (F64.ofNat (F64.toU64 voteValue)) = true ∧
        F64.le voteValue (F64.ofNat (decision.optionCount.getD 0)) = true)
      (.invalidTransaction
        (s!"Categorical vote value {F64.display voteValue} must be an integer index in " ++
          s!"0..={decision.optionCount.getD 0} " ++
          s!"(where {decision.optionCount.getD 0} = Inconclusive)"))
  else
    ensure (inUnitInterval voteValue = true)
      (.invalidTransaction
        s!"Vote value {F64.display voteValue} outside valid normalized range [0.0, 1.0]")

def validateVotingPeriod (s : State F) (decisionId : DecisionId) : Except Error Unit :=
  ensure (s.decisions.isDecisionInVoting decisionId = true)
    (.invalidTransaction s!"Decision {decisionId.toNat} is not in voting period")

def validateNoDuplicateVote (s : State F) (voter : Address) (decisionId : DecisionId) :
    Except Error Unit :=
  ensure ((s.voting.getVote decisionId.votingPeriod voter decisionId).isNone = true)
    (.invalidTransaction
      "Duplicate vote: voter already voted on this decision in this period")

def validateVoter (s : State F) (tx : FilledTransaction F) (voter : Address) :
    Except Error Unit := do
  ensure (provesIdentity tx voter)
    (.invalidTransaction s!"No proof of voter {voter} identity")
  validateVoterEligibility s voter

/-- The checks of one vote; `wrap` says which item of a ballot failed. -/
def validateVote (s : State F) (voter : Address) (decisionId : DecisionId) (voteValue : F)
    (wrap : Error → Error) : Except Error Unit := do
  let decision ← (validateDecisionEntry s decisionId).mapError wrap
  (validateVoteValue decision voteValue).mapError wrap
  (validateVotingPeriod s decisionId).mapError wrap
  (validateNoDuplicateVote s voter decisionId).mapError wrap

def validateVoteSubmission (s : State F) (tx : FilledTransaction F) (vote : SubmitVote F) :
    Except Error Unit := do
  validateVoter s tx vote.voter
  let decisionId ← DecisionId.fromBytes vote.decisionIdBytes
  validateVote s vote.voter decisionId vote.voteValue id

def ballotItemError (idx : Nat) : Error → Error
  | .invalidDecisionId reason => .invalidDecisionId s!"Ballot item {idx}: {reason}"
  | .invalidTransaction reason => .invalidTransaction s!"Ballot item {idx}: {reason}"
  | e => e

def validateBallotItem (s : State F) (voter : Address) (seen : List DecisionId)
    (item : BallotItem F × Nat) : Except Error (List DecisionId) := do
  let decisionId ← DecisionId.fromBytes item.1.decisionIdBytes
  ensure (decisionId ∉ seen)
    (.invalidTransaction
      (s!"Ballot item {item.2}: duplicate vote for decision {decisionId.toNat} in period " ++
        s!"{decisionId.votingPeriod}"))
  validateVote s voter decisionId item.1.voteValue (ballotItemError item.2)
  .ok (decisionId :: seen)

def validateBallot (s : State F) (tx : FilledTransaction F) (ballot : SubmitBallot F) :
    Except Error Unit := do
  validateVoter s tx ballot.voter
  let _ ← ballot.votes.zipIdx.foldlM (validateBallotItem s ballot.voter) []
  .ok ()

def reputationPrecisionDecimals : Nat := 10

def validateReputationTransfer (s : State F) (tx : FilledTransaction F)
    (transfer : TransferReputation F) : Except Error Unit := do
  ensure (∃ utxo ∈ tx.spentUtxos, utxo.address = transfer.sender)
    (.invalidTransaction
      (s!"Reputation transfer from {transfer.sender} must spend a Bitcoin UTXO owned by " ++
        "the sender (replay protection)"))
  ensure (F64.le transfer.amount F64.zero = false)
    (.invalidTransaction "Transfer amount must be positive")
  ensure (F64.isFinite transfer.amount = true)
    (.invalidTransaction "Transfer amount must be a finite number")
  ensure
    (F64.eq transfer.amount
      (roundToPrecision transfer.amount reputationPrecisionDecimals) = true)
    (.invalidTransaction
      (s!"Transfer amount {F64.display transfer.amount} exceeds reputation precision " ++
        s!"(max {reputationPrecisionDecimals} decimal digits)"))
  ensure (transfer.sender ≠ transfer.dest)
    (.invalidTransaction "Cannot transfer reputation to self")
  ensure (F64.lt (getReputation s.reputation transfer.sender) transfer.amount = false)
    (.invalidTransaction
      ("Insufficient reputation: have " ++
        s!"{F64.display (getReputation s.reputation transfer.sender)}, need " ++
        F64.display transfer.amount))

def validateTxData (archive : Archive) (s : State F) (tx : FilledTransaction F)
    (overrideHeight : Option Nat) : TxData F → Except Error Unit
  | .claimDecision payload => validateCompleteDecisionClaim config s tx payload overrideHeight
  | .createMarket creation => validateMarketCreation L config s tx creation overrideHeight
  | .trade trade => validateTrade L archive s tx trade
  | .submitVote vote => validateVoteSubmission s tx vote
  | .submitBallot ballot => validateBallot s tx ballot
  | .transferReputation transfer => validateReputationTransfer s tx transfer
  | .amplifyBeta amplify => validateAmplifyBeta s tx amplify

/-- Check a filled transaction and return its fee. A withdrawal output can only be
spent by a bundle. -/
def validateFilledTransaction (archive : Archive) (s : State F) (tx : FilledTransaction F)
    (overrideHeight : Option Nat) : Except Error Nat := do
  (tx.transaction.inputs.zip tx.spentUtxos).forM fun entry =>
    ensure (entry.2.content.isWithdrawal = false) (.spendWithdrawalOutput entry.1)
  tx.transaction.data.forM (validateTxData L config archive s tx overrideHeight)
  tx.blockFee

def checkDuplicateDecisionClaims (transactions : List (Transaction F)) :
    Except Error Unit := do
  let step (seen : List DecisionId) (d : DecisionId) : Except Error (List DecisionId) := do
    ensure (d ∉ seen) (.duplicateDecisionClaim d.toNat)
    .ok (d :: seen)
  let _ ← (transactions.flatMap Transaction.claimedIds).foldlM step []
  .ok ()

/-- What connecting a validated block needs. -/
structure PrevalidatedBlock (F : Type) where
  filledTransactions : List (FilledTransaction F)
  computedMerkleRoot : MerkleRoot
  coinbaseValue : Nat
  nextHeight : Nat

/-- Address that the actor proof of a transaction authenticates. -/
def actorAddress (body : Body F) (i : Nat) : Option Address :=
  (body.actorProofs[i]?.bind id).map L.getAddress

def fillTransactions (s : State F) (body : Body F) :
    Except Error (List (FilledTransaction F)) := do
  let filledTxs ← body.transactions.mapM s.fillTransaction
  .ok (filledTxs.mapIdx fun i tx => { tx with actorAddress := actorAddress L body i })

def validateAuthorizations (body : Body F) (filledTxs : List (FilledTransaction F)) :
    Except Error Unit := do
  ensure (body.authorizations.length = (body.transactions.flatMap Transaction.inputs).length)
    .authorizationError
  (body.authorizations.zip (filledTxs.flatMap FilledTransaction.spentUtxos)).forM fun entry =>
    ensure (L.getAddress entry.1 = entry.2.address) .wrongPubKeyForAddress
  ensure (L.verifyBody body = true) .authorizationError

def prevalidate (archive : Archive) (s : State F) (header : Header) (body : Body F) :
    Except Error (PrevalidatedBlock F) := do
  let bodySize ← okOr (L.bodySize body) (.databaseError "Failed to serialize body")
  ensure (bodySize ≤ maxBodySize) .bodyTooLarge
  ensure (header.prevSideHash = s.tip)
    (.invalidHeaderPrevSideHash s.tip header.prevSideHash)
  let merkleRoot := L.merkleRoot body.coinbase body.transactions
  ensure (merkleRoot = header.merkleRoot) (.invalidBody header.merkleRoot merkleRoot)
  let nextHeight ← s.height.elim (.ok 0) fun height => addU32 height 1
  let coinbaseValue ← okOr (checkedSum (body.coinbase.outputs.map Output.getBitcoinValue))
    .amountOverflow
  let filledTxs ← fillTransactions L s body
  ensure (body.transactions.flatMap Transaction.inputs).Nodup .utxoDoubleSpent
  checkDuplicateDecisionClaims body.transactions
  filledTxs.forM fun tx => do
    let _ ← validateFilledTransaction L config archive s tx (some nextHeight)
    .ok ()
  validateAuthorizations L body filledTxs
  .ok ⟨filledTxs, merkleRoot, coinbaseValue, nextHeight⟩

end

/-- Coinbase outputs hold no market funds. -/
def validateCoinbaseOutputs (coinbase : List Output) : Except Error Unit :=
  coinbase.forM fun output =>
    match output.content with
    | .bitcoin _ | .withdrawal _ => .ok ()
    | .marketFunds .. => .error .badCoinbaseOutputContent

/-- The fees of the transactions that were not skipped cover the coinbase. -/
def validateFees (coinbaseValue : Nat) (filledTxs : List (FilledTransaction F))
    (skippedIndices : List Nat) : Except Error Unit := do
  let total ← (filledTxs.zipIdx.filter fun entry => entry.2 ∉ skippedIndices).foldlM
    (fun total entry => do
      let fee ← entry.1.blockFee
      okOr (checkedAdd total fee) .amountOverflow)
    0
  ensure (coinbaseValue ≤ total) .notEnoughFees

end Truthcoin.Validation
