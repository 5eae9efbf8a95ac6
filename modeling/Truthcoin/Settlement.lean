import Truthcoin.State

/-!
# Settlement of markets

When all decisions of a market are resolved, its treasury is paid out to the
holders of its shares, its fees to voters and authors, and the rest of the
treasury to its creator.
-/

namespace Truthcoin.Settlement

open Truthcoin.Types Truthcoin.Table Truthcoin.Fallible Truthcoin.Arithmetic
open Truthcoin.Decisions Truthcoin.Markets Truthcoin.Voting Truthcoin.Blocks
open Truthcoin.Trading

variable {F : Type} [F64 F]

def isVoteCorrect (vote : VoteValue F) (consensus : F) (decision : Decision F) : Bool :=
  match vote with
  | .abstain => false
  | .binary b => F64.eq (if b then F64.one else F64.zero) consensus
  | .scalar v =>
      if decision.isScaled then
        F64.le (roundToPrecision (F64.abs (F64.sub v consensus)) 6) (F64.ofRat (5 / 100))
      else
        F64.eq v consensus
  | .categorical index =>
      F64.eq (F64.ofNat index) consensus ||
        (F64.eq consensus (F64.ofRat (1 / 2)) &&
          decide (decision.inconclusiveIndex = some index))

/-- Voters who voted for the outcome of a decision, with their reputation, by
address. -/
def findCorrectVoters (s : State F) (decisionOutcomes : List (DecisionId × F))
    (decisions : DecisionMap F) (decisionId : DecisionId) : List (Address × F) :=
  match (decisionOutcomes.find? fun o => o.1 = decisionId).map Prod.snd,
      decisions.get decisionId with
  | some consensus, some decision =>
      let votes := (s.voting.getVotesForPeriod decisionId.votingPeriod).filter fun row =>
        row.1.decisionId = decisionId ∧ isVoteCorrect row.2.value consensus decision
      let voters := votes.map fun row =>
        (row.1.voterAddress, getReputation s.reputation row.1.voterAddress)
      (voters.filter fun voter => F64.lt F64.zero voter.2).insertionSort
        fun a b => a.1 ≤ b.1
  | _, _ => []

def feeRecords (feeRole : FeeRole) (allocations : List (Address × Nat)) :
    List FeePayoutRecord :=
  allocations.map fun allocation => ⟨allocation.1, allocation.2, feeRole⟩

/-- Share of one decision in the voters' pool. Without correct voters it goes to
the market author. -/
def distributeToVoters (correctVoters : DecisionId → List (Address × F))
    (acc : List FeePayoutRecord × Nat) (subPool : DecisionId × Nat) :
    Except Error (List FeePayoutRecord × Nat) := do
  let voters := correctVoters subPool.1
  if voters.isEmpty then
    let marketAuthorPool ← addU64 acc.2 subPool.2
    .ok (acc.1, marketAuthorPool)
  else
    let alloc ← (allocateProportionallyU64 voters subPool.2).mapError
      (SatoshiError.toError "Voter payout allocation failed")
    .ok (acc.1 ++ feeRecords .correctVoter alloc.allocations, acc.2)

def distributeVoterPool (decisionIds : List DecisionId)
    (correctVoters : DecisionId → List (Address × F)) (voterPool marketAuthorPool : Nat) :
    Except Error (List FeePayoutRecord × Nat) := do
  if voterPool > 0 then
    let weights : List (DecisionId × F) := decisionIds.map fun d => (d, F64.one)
    let split ← (allocateProportionallyU64 weights voterPool).mapError
      (SatoshiError.toError "Voter decision pool split failed")
    split.allocations.foldlM (distributeToVoters correctVoters) ([], marketAuthorPool)
  else
    .ok ([], marketAuthorPool)

def distributeAuthorPool (decisionIds : List DecisionId) (decisions : DecisionMap F)
    (decisionAuthorPool : Nat) : Except Error (List FeePayoutRecord) := do
  if decisionAuthorPool > 0 then
    let authors := (decisionIds.filterMap fun d =>
      (decisions.get d).map Decision.marketMakerPubkeyHash).dedup
    let weights : List (Address × F) :=
      (authors.insertionSort (· ≤ ·)).map fun author => (author, F64.one)
    let alloc ← (allocateProportionallyU64 weights decisionAuthorPool).mapError
      (SatoshiError.toError "Decision author allocation failed")
    .ok (feeRecords .decisionAuthor alloc.allocations)
  else
    .ok []

def poolOf (allocations : List (FeeRole × Nat)) (feeRole : FeeRole) : Nat :=
  (allocations.find? fun allocation => allocation.1 = feeRole).elim 0 Prod.snd

/-- By role, then by address. -/
def feeRecordLe (a b : FeePayoutRecord) : Prop :=
  a.feeRole.order < b.feeRole.order ∨
    (a.feeRole.order = b.feeRole.order ∧ a.address ≤ b.address)

instance : DecidableRel feeRecordLe :=
  fun _ _ => inferInstanceAs (Decidable (_ ∨ _))

def calculateFeeDistribution (s : State F) (market : Market F) (feeSats : Nat)
    (decisionOutcomes : List (DecisionId × F)) (decisions : DecisionMap F) :
    Except Error (List FeePayoutRecord) := do
  if feeSats = 0 then
    .ok []
  else
    let weights : List (FeeRole × F) :=
      [(.correctVoter, F64.ofRat 2), (.decisionAuthor, F64.one), (.marketAuthor, F64.one)]
    let split ← (allocateProportionallyU64 weights feeSats).mapError
      (SatoshiError.toError "Fee pool split failed")
    let (voterPayouts, marketAuthorPool) ← distributeVoterPool market.decisionIds
      (findCorrectVoters s decisionOutcomes decisions)
      (poolOf split.allocations .correctVoter) (poolOf split.allocations .marketAuthor)
    let authorPayouts ← distributeAuthorPool market.decisionIds decisions
      (poolOf split.allocations .decisionAuthor)
    let marketAuthorPayouts :=
      if marketAuthorPool > 0 then [⟨market.creatorAddress, marketAuthorPool, .marketAuthor⟩]
      else []
    .ok ((voterPayouts ++ authorPayouts ++ marketAuthorPayouts).insertionSort feeRecordLe)

/-- Value of a position at its final price. -/
def redemptionValue (p : SharePayoutRecord F) : F :=
  F64.max (F64.mul (F64.ofInt p.sharesRedeemed.val) p.finalPrice) F64.zero

def sharePayout (market : Market F) (address : Address) (position : Nat × I64) :
    Except Error (SharePayoutRecord F) := do
  let finalPrice ← index market.finalPrices position.1
  let value := F64.round (F64.mul (F64.ofInt position.2.val) finalPrice)
  .ok ⟨market.id, address, position.1, position.2, finalPrice,
    F64.toU64 (F64.max value F64.zero)⟩

def fraction (p : SharePayoutRecord F) : F :=
  F64.sub (redemptionValue p) (F64.floor (redemptionValue p))

/-- Take one satoshi off a payout that was rounded up. -/
def reclaimRoundup (acc : List (SharePayoutRecord F) × Nat) (i : Nat) :
    List (SharePayoutRecord F) × Nat :=
  match acc.2, acc.1[i]? with
  | excess + 1, some p =>
      if F64.toU64 (F64.floor (redemptionValue p)) < p.payoutSats then
        (acc.1.set i { p with payoutSats := p.payoutSats - 1 }, excess)
      else acc
  | _, _ => acc

/-- Take back rounded-up satoshis, the largest fractions first. -/
def reclaimPayoutRoundups (payouts : List (SharePayoutRecord F)) (excess : Nat) :
    List (SharePayoutRecord F) :=
  let order := payouts.zipIdx.insertionSort fun a b =>
    F64.lt (fraction a.1) (fraction b.1) = false
  ((order.map Prod.snd).foldl reclaimRoundup (payouts, excess)).1

def payoutTotal (payouts : List (SharePayoutRecord F)) : Except Error Nat :=
  sumU64 (payouts.map SharePayoutRecord.payoutSats)

def calculateShareRedemptions (s : State F) (market : Market F) (treasurySats : Nat) :
    Except Error (List (SharePayoutRecord F) × Nat) := do
  let payouts ← (s.markets.getShareholdersForMarket market.id).mapM fun holder =>
    holder.2.mapM (sharePayout market holder.1)
  let payouts := payouts.flatten
  let totalRedeemed ← payoutTotal payouts
  if treasurySats < totalRedeemed then
    let payouts := reclaimPayoutRoundups payouts (totalRedeemed - treasurySats)
    let totalRedeemed ← payoutTotal payouts
    .ok (payouts, totalRedeemed)
  else
    .ok (payouts, totalRedeemed)

def calculateSharePayouts (s : State F) (market : Market F) (blockHeight : Nat)
    (decisionOutcomes : List (DecisionId × F)) (decisions : DecisionMap F) :
    Except Error (MarketPayoutSummary F) := do
  let treasurySats ← s.getMarketFundsSats market.id false
  let (payouts, totalRedeemed) ← calculateShareRedemptions s market treasurySats
  let refund ← okOr (checkedSub treasurySats totalRedeemed)
    (.invalidTransaction
      (s!"Market payout obligation {totalRedeemed} exceeds treasury {treasurySats} " ++
        s!"for market {market.id}"))
  let feeSats ← s.getMarketFundsSats market.id true
  let feePayouts ← calculateFeeDistribution s market feeSats decisionOutcomes decisions
  let totalFeesDistributed ← sumU64 (feePayouts.map FeePayoutRecord.amountSats)
  .ok {
    marketId := market.id
    treasuryDistributed := totalRedeemed
    totalFeesDistributed := totalFeesDistributed
    shareholderCount := (payouts.filter fun p => 0 < p.payoutSats).length
    payouts := payouts
    feePayouts := feePayouts
    creatorRefund := if refund > 0 then some ⟨market.creatorAddress, refund⟩ else none
    blockHeight := blockHeight }

def bitcoinOutput (address : Address) (sats : Nat) : FilledOutput :=
  ⟨address, .bitcoin sats, []⟩

section Payouts

variable (L : Library F)

/-- Pay one position out and take its shares off the account. -/
def applySharePayout (blockHeight : Nat) (s : State F)
    (entry : SharePayoutRecord F × Nat) : Except Error (State F) := do
  let (p, sequence) := entry
  let s := if p.payoutSats > 0 then
      s.insertUtxo (sharePayoutOutpoint L p.marketId p.address blockHeight sequence)
        (bitcoinOutput p.address p.payoutSats)
    else s
  let markets ← s.markets.removeSharesFromAccount p.address ⟨p.marketId, p.outcomeIndex⟩
    p.sharesRedeemed blockHeight
  .ok { s with markets }

def applyFeePayout (marketId : MarketId) (blockHeight : Nat) (s : State F)
    (entry : FeePayoutRecord × Nat) : State F :=
  s.insertUtxo (sharePayoutOutpoint L marketId entry.1.address blockHeight entry.2)
    (bitcoinOutput entry.1.address entry.1.amountSats)

/-- Spend the output of a market's funds pointer and clear the pointer. -/
def consumeMarketFunds (marketId : MarketId) (isFee : Bool) (s : State F) : State F :=
  match s.markets.getMarketFundsUtxo marketId isFee with
  | none => s
  | some outpoint =>
      let s := s.deleteUtxo outpoint
      { s with markets := s.markets.clearMarketFundsUtxo marketId isFee }

def applyAutomaticSharePayouts (s : State F) (summary : MarketPayoutSummary F)
    (blockHeight : Nat) : Except Error (State F) := do
  let s ← summary.payouts.zipIdx.foldlM (applySharePayout L blockHeight) s
  let s := (summary.feePayouts.zipIdx summary.payouts.length).foldl
    (applyFeePayout L summary.marketId blockHeight) s
  let sequence := summary.payouts.length + summary.feePayouts.length
  let s := summary.creatorRefund.elim s fun refund =>
    s.insertUtxo (sharePayoutOutpoint L summary.marketId refund.address blockHeight sequence)
      (bitcoinOutput refund.address refund.amountSats)
  .ok (consumeMarketFunds summary.marketId true (consumeMarketFunds summary.marketId false s))

def revertSharePayout (blockHeight : Nat) (s : State F)
    (entry : SharePayoutRecord F × Nat) : Except Error (State F) := do
  let (p, sequence) := entry
  let s := if p.payoutSats > 0 then
      s.deleteUtxo (sharePayoutOutpoint L p.marketId p.address blockHeight sequence)
    else s
  let markets ← s.markets.addSharesToAccount p.address ⟨p.marketId, p.outcomeIndex⟩
    p.sharesRedeemed blockHeight
  .ok { s with markets }

def revertFeePayout (marketId : MarketId) (blockHeight : Nat) (s : State F)
    (entry : FeePayoutRecord × Nat) : State F :=
  s.deleteUtxo (sharePayoutOutpoint L marketId entry.1.address blockHeight entry.2)

def revertAutomaticSharePayouts (s : State F) (summary : MarketPayoutSummary F)
    (blockHeight : Nat) : Except Error (State F) := do
  let s ← summary.payouts.zipIdx.foldlM (revertSharePayout L blockHeight) s
  let s := (summary.feePayouts.zipIdx summary.payouts.length).foldl
    (revertFeePayout L summary.marketId blockHeight) s
  let sequence := summary.payouts.length + summary.feePayouts.length
  .ok (summary.creatorRefund.elim s fun refund =>
    s.deleteUtxo (sharePayoutOutpoint L summary.marketId refund.address blockHeight sequence))

/-- Outcomes of a market's decisions, as far as they are recorded. -/
def outcomesOf (s : State F) (market : Market F) : List (DecisionId × F) :=
  market.decisionIds.filterMap fun d =>
    (s.voting.getConsensusOutcome d).map fun outcome => (d, outcome)

def decisionsOf (s : State F) (market : Market F) : DecisionMap F :=
  market.decisionIds.filterMap fun d =>
    ((s.decisions.getDecisionEntry d).bind DecisionEntry.decision).map fun decision =>
      (d, decision)

def isResolved (s : State F) (market : Market F) : Bool :=
  !market.decisionIds.isEmpty &&
    market.decisionIds.all fun d => s.decisions.getDecisionCurrentState d = .resolved

def marketError (text : String) (e : MarketError) : Error :=
  .databaseError s!"{text}: {e.message}"

def settleMarket (s : State F) (market : Market F) (currentHeight : Nat) :
    Except Error (State F × SettlementUndoEntry F) := do
  let decisionOutcomes := outcomesOf s market
  let decisions := decisionsOf s market
  let finalPrices := market.calculateFinalPrices decisionOutcomes decisions
  let priced ← (market.updateState currentHeight none none (some finalPrices)).mapError
    (marketError "Failed to set final prices")
  let summary ← calculateSharePayouts s priced currentHeight decisionOutcomes decisions
  let s' ← applyAutomaticSharePayouts L s summary currentHeight
  let settled ← (priced.updateState currentHeight (some .settled) none none).mapError
    (marketError "Failed to settle market")
  let markets ← s'.markets.updateMarket settled
  .ok ({ s' with markets },
    { preSettlementMarket := market
      payoutSummary := summary
      treasuryUtxo := s.marketFundsOutput market.id false
      feeUtxo := s.marketFundsOutput market.id true })

/-- Settle a market if its decisions are resolved. -/
def transitionMarket (currentHeight : Nat)
    (acc : State F × List (SettlementUndoEntry F)) (market : Market F) :
    Except Error (State F × List (SettlementUndoEntry F)) := do
  if isResolved acc.1 market then
    let (s, entry) ← settleMarket L acc.1 market currentHeight
    .ok (s, acc.2 ++ [entry])
  else
    .ok acc

def transitionAndPayoutResolvedMarkets (s : State F) (currentHeight : Nat) :
    Except Error (State F × List (SettlementUndoEntry F)) :=
  (s.markets.getMarketsByState .trading).foldlM (transitionMarket L currentHeight) (s, [])

/-- Give an output back to a market's funds pointer. -/
def restoreMarketFunds (marketId : MarketId) (isFee : Bool)
    (utxo : Option (OutPoint × FilledOutput)) (s : State F) : State F :=
  match utxo with
  | none => s
  | some (outpoint, output) =>
      let s := s.insertUtxo outpoint output
      { s with markets := s.markets.setMarketFundsUtxo marketId isFee outpoint }

def revertSettlementEntry (blockHeight : Nat) (s : State F)
    (entry : SettlementUndoEntry F) : Except Error (State F) := do
  let marketId := entry.preSettlementMarket.id
  let s ← revertAutomaticSharePayouts L s entry.payoutSummary blockHeight
  let s := restoreMarketFunds marketId false entry.treasuryUtxo s
  let s := restoreMarketFunds marketId true entry.feeUtxo s
  .ok { s with markets := s.markets.restoreMarket entry.preSettlementMarket }

def revertSettlement (s : State F) (entries : List (SettlementUndoEntry F))
    (blockHeight : Nat) : Except Error (State F) :=
  entries.reverse.foldlM (revertSettlementEntry L blockHeight) s

end Payouts

end Truthcoin.Settlement
