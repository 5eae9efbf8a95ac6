import Truthcoin.Decisions

/-!
# Votes, reputation and consensus

Votes are stored by voting period. When a period closes, the consensus algorithm
turns the votes of the period into an outcome for each of its decisions and into
new reputations. The algorithm itself is a parameter.
-/

namespace Truthcoin.Voting

open Truthcoin.Types Truthcoin.Table Truthcoin.Fallible Truthcoin.Arithmetic
open Truthcoin.Decisions

abbrev VotingPeriodId := Nat

inductive VoteValue (F : Type) where
  | binary (value : Bool)
  | scalar (value : F)
  | categorical (index : Nat)
  | abstain
  deriving DecidableEq

structure Vote (F : Type) where
  voterAddress : Address
  periodId : VotingPeriodId
  decisionId : DecisionId
  value : VoteValue F
  timestamp : Nat
  blockHeight : Nat
  txHash : Txid

/-- Votes are keyed by the little-endian bytes of the period, then by voter. -/
structure VoteMatrixKey where
  periodId : UInt32
  voterAddress : Address
  decisionId : DecisionId
  deriving DecidableEq

instance : TableKey VoteMatrixKey where
  encode k := AppendLog.leBytes k.periodId.toNat ++ [k.voterAddress, k.decisionId.toNat]
  encode_injective := by
    rintro ⟨p, v, d⟩ ⟨p', v', d'⟩ h
    obtain ⟨hperiod, hrest⟩ := List.append_inj h rfl
    simp only [List.cons.injEq, and_true] at hrest
    obtain rfl : p = p' := TableKey.encode_injective hperiod
    obtain rfl : d = d' := BitVec.eq_of_toNat_eq hrest.2
    rw [hrest.1]

structure VoteMatrixEntry (F : Type) where
  value : VoteValue F
  timestamp : Nat
  blockHeight : Nat
  deriving DecidableEq

inductive DecisionResolutionStatus where
  | pending
  | awaitingResolution
  | resolved
  | defaulted
  | cancelled
  deriving DecidableEq, Repr

structure DecisionResolution where
  decisionId : DecisionId
  periodId : VotingPeriodId
  status : DecisionResolutionStatus
  statusChangedAt : Nat
  statusChangedHeight : Nat
  voteCount : Nat
  minVotesRequired : Nat
  votingDeadline : Nat
  outcomeReady : Bool
  reason : Option String
  deriving DecidableEq

structure DecisionOutcome (F : Type) where
  decisionId : DecisionId
  periodId : VotingPeriodId
  outcomeValue : F
  min : F
  max : F
  confidence : F
  totalVotes : Nat
  totalReputationWeight : F
  finalizedAt : Nat
  blockHeight : Nat
  isConsensus : Bool
  resolution : DecisionResolution
  categoricalWinner : Option (Option Nat)
  deriving DecidableEq

structure VotingPeriodStats (F : Type) where
  periodId : VotingPeriodId
  totalVoters : Nat
  totalVotes : Nat
  totalDecisions : Nat
  avgParticipationRate : F
  totalReputationWeight : F
  consensusDecisions : Nat
  calculatedAt : Nat
  firstLoading : Option (List F)
  certainty : Option F
  reputationChanges : Option (Table Address (F × F))
  deriving DecidableEq

structure VotingDatabases (F : Type) where
  votes : Table VoteMatrixKey (VoteMatrixEntry F)
  decisionOutcomes : Table DecisionId (DecisionOutcome F)
  periodStats : Table VotingPeriodId (VotingPeriodStats F)
  deriving DecidableEq

def VotingDatabases.empty (F : Type) : VotingDatabases F := ⟨∅, ∅, ∅⟩

structure VotingPeriod where
  id : VotingPeriodId
  startTimestamp : Nat
  endTimestamp : Nat
  decisionIds : List DecisionId

namespace VotingDatabases

variable {F : Type}

def voteKey (periodId : VotingPeriodId) (voter : Address) (decisionId : DecisionId) :
    VoteMatrixKey :=
  ⟨UInt32.ofNat periodId, voter, decisionId⟩

def putVote (db : VotingDatabases F) (vote : Vote F) : VotingDatabases F :=
  { db with
    votes := db.votes.insert (voteKey vote.periodId vote.voterAddress vote.decisionId)
      ⟨vote.value, vote.timestamp, vote.blockHeight⟩ }

def getVote (db : VotingDatabases F) (periodId : VotingPeriodId) (voter : Address)
    (decisionId : DecisionId) : Option (VoteMatrixEntry F) :=
  db.votes[voteKey periodId voter decisionId]?

def deleteVote (db : VotingDatabases F) (periodId : VotingPeriodId) (voter : Address)
    (decisionId : DecisionId) : VotingDatabases F :=
  { db with votes := db.votes.erase (voteKey periodId voter decisionId) }

/-- The scan stops at the first key with a greater period. -/
def getVotesForPeriod (db : VotingDatabases F) (periodId : VotingPeriodId) :
    List (VoteMatrixKey × VoteMatrixEntry F) :=
  (db.votes.toList.takeWhile fun row => row.1.periodId ≤ UInt32.ofNat periodId).filter
    fun row => row.1.periodId = UInt32.ofNat periodId

def putDecisionOutcome (db : VotingDatabases F) (outcome : DecisionOutcome F) :
    VotingDatabases F :=
  { db with decisionOutcomes := db.decisionOutcomes.insert outcome.decisionId outcome }

def deleteDecisionOutcome (db : VotingDatabases F) (decisionId : DecisionId) :
    VotingDatabases F :=
  { db with decisionOutcomes := db.decisionOutcomes.erase decisionId }

def putPeriodStats (db : VotingDatabases F) (stats : VotingPeriodStats F) :
    VotingDatabases F :=
  { db with periodStats := db.periodStats.insert stats.periodId stats }

def deletePeriodStats (db : VotingDatabases F) (periodId : VotingPeriodId) :
    VotingDatabases F :=
  { db with periodStats := db.periodStats.erase periodId }

def getConsensusOutcome (db : VotingDatabases F) (decisionId : DecisionId) : Option F :=
  db.decisionOutcomes[decisionId]?.map DecisionOutcome.outcomeValue

def getConsensusOutcomesForPeriod (db : VotingDatabases F) (periodId : VotingPeriodId) :
    List (DecisionId × F) :=
  (db.decisionOutcomes.toList.filter fun row =>
    row.1.periodIndex = periodId - 1 ∧ row.2.periodId = periodId).map
      fun row => (row.1, row.2.outcomeValue)

end VotingDatabases

section Reputation

variable {F : Type} [F64 F]

def getReputation (reputation : Table Address F) (address : Address) : F :=
  reputation[address]?.getD F64.zero

def getAllReputations (reputation : Table Address F) : Table Address F :=
  reputation.filter fun _ r => F64.lt F64.zero r

def setReputation (reputation : Table Address F) (address : Address) (r : F) :
    Table Address F :=
  if F64.le r F64.zero then reputation.erase address else reputation.insert address r

/-- The table of a snapshot. -/
def clearAndRestore (snapshot : Table Address F) : Table Address F :=
  snapshot.toList.foldl
    (fun rows row => if F64.lt F64.zero row.2 then rows.insert row.1 row.2 else rows) ∅

def computePostConsensusReputation (pre updates : Table Address F) : Table Address F :=
  updates.toList.foldl
    (fun post row =>
      if F64.lt F64.zero row.2 then post.insert row.1 row.2 else post.erase row.1)
    pre

def totalReputation (reputation : Table Address F) : F :=
  F64.sum (reputation.toList.map Prod.snd)

/-- The greater of two holders: by reputation, then by address. -/
def greaterHolder (best row : Address × F) : Address × F :=
  if F64.lt row.2 best.2 then best
  else if F64.lt best.2 row.2 then row
  else if best.1 ≤ row.1 then row
  else best

def greatestHolder (rows : List (Address × F)) : Option (Address × F) :=
  match rows with
  | [] => none
  | row :: rows => some (rows.foldl greaterHolder row)

/-- Give the difference to the initial total to the greatest holder. -/
def reanchorToInitialTotal (post : Table Address F) : Table Address F :=
  let residual := F64.sub F64.one (totalReputation post)
  if F64.eq residual F64.zero then post
  else
    match greatestHolder post.toList with
    | none => post
    | some (address, r) => post.insert address (F64.add r residual)

def verifyReputationConservation (pre post : Table Address F) : Except Error Unit := do
  let preSum := totalReputation pre
  let postSum := totalReputation post
  ensure (F64.lt (F64.ofRat (1 / 10 ^ 9)) (F64.abs (F64.sub postSum preSum)) = false)
    .consensusConservationViolation
  ensure (F64.lt (F64.ofRat (1 / 10 ^ 6)) (F64.abs (F64.sub postSum F64.one)) = false)
    .reputationAnchorViolation

end Reputation

/-- Votes of the voters with reputation on the decisions of a period. -/
structure SparseVoteMatrix (F : Type) where
  voters : List Address
  decisions : List DecisionId
  entries : List ((Address × DecisionId) × F)

structure DetailedConsensusResult (F : Type) where
  outcomes : List (DecisionId × Option F)
  firstLoading : List F
  certainty : F
  updatedReputations : Table Address F
  categoricalWinners : List (DecisionId × Option Nat)

/-- The consensus algorithm: votes, reputations, scaled decisions, and categorical
decisions with their option counts. -/
abbrev CalculateConsensus (F : Type) :=
  SparseVoteMatrix F → Table Address F → List DecisionId → List (DecisionId × Nat) →
    Option (DetailedConsensusResult F)

structure DecisionResolutionEntry (F : Type) where
  decisionId : DecisionId
  outcomeValue : F

structure ConsensusResult (F : Type) where
  periodId : VotingPeriodId
  periodStats : VotingPeriodStats F
  decisionOutcomes : List (DecisionOutcome F)
  decisionResolutions : List (DecisionResolutionEntry F)
  updatedReputations : Table Address F
  blockHeight : Nat

/-- What a commit of consensus has to remember to be undone. -/
structure ConsensusUndoEntry (F : Type) where
  periodId : VotingPeriodId
  decisionOutcomeIds : List DecisionId
  hadPeriodStats : Bool
  resolvedDecisionIds : List DecisionId
  preConsensusReputation : Table Address F
  deriving DecidableEq

section Consensus

variable {F : Type} [F64 F]

def VoteValue.toFloatOpt : VoteValue F → Option F
  | .binary false => some F64.zero
  | .binary true => some F64.one
  | .scalar value => some value
  | .categorical index => some (F64.ofNat index)
  | .abstain => none

def VotingPeriodStats.new (periodId : VotingPeriodId) (calculatedAt : Nat) :
    VotingPeriodStats F :=
  ⟨periodId, 0, 0, 0, F64.zero, F64.zero, 0, calculatedAt, none, none, none⟩

def readyResolution (decisionId : DecisionId) (periodId : VotingPeriodId)
    (minVotesRequired : Nat) : DecisionResolution :=
  ⟨decisionId, periodId, .pending, 0, 0, 0, minVotesRequired, 0, true, none⟩

/-- Outcome of a decision nobody voted on. -/
def defaultOutcome (periodId : VotingPeriodId) (decisionId : DecisionId) :
    DecisionOutcome F :=
  ⟨decisionId, periodId, F64.ofRat (1 / 2), F64.zero, F64.one, F64.zero, 0, F64.zero, 0, 0,
    true, readyResolution decisionId periodId 0, none⟩

/-- Outcome of a decision with votes; unanimous abstention counts as one half. -/
def votedOutcome (periodId : VotingPeriodId) (totalVotes : Nat) (totalWeight : F)
    (winners : List (DecisionId × Option Nat)) (outcome : DecisionId × Option F) :
    DecisionOutcome F :=
  ⟨outcome.1, periodId, outcome.2.getD (F64.ofRat (1 / 2)), F64.zero, F64.one, F64.one,
    totalVotes, totalWeight, 0, 0, true, readyResolution outcome.1 periodId 1,
    (winners.find? fun winner => winner.1 = outcome.1).map Prod.snd⟩

def resolutionOf (outcome : DecisionOutcome F) : DecisionResolutionEntry F :=
  ⟨outcome.decisionId, outcome.outcomeValue⟩

/-- The text of a vote that has no row or no column. -/
def notInMatrix (what : String) (id : Nat) : Error :=
  .invalidTransaction
    (s!"Failed to set vote in matrix: InvalidReputation \x7b reason: \"{what} {id} not found in " ++
      "matrix\" \x7d")

def setVote (matrix : SparseVoteMatrix F) (row : VoteMatrixKey × VoteMatrixEntry F) :
    Except Error (SparseVoteMatrix F) :=
  match row.2.value.toFloatOpt with
  | none => .ok matrix
  | some value => do
      ensure (row.1.voterAddress ∈ matrix.voters) (notInMatrix "Voter" row.1.voterAddress)
      ensure (row.1.decisionId ∈ matrix.decisions)
        (notInMatrix "Decision" row.1.decisionId.toNat)
      .ok { matrix with
        entries := matrix.entries ++ [((row.1.voterAddress, row.1.decisionId), value)] }

/-- Old and new reputation of every voter the algorithm rated. -/
def scoreChanges (reputations updated : Table Address F) : Table Address (F × F) :=
  updated.toList.foldl
    (fun changes row =>
      changes.insert row.1 ((reputations[row.1]?).getD F64.zero, row.2))
    ∅

def isScaledDecision (decisions : Dbs F) (decisionId : DecisionId) : Bool :=
  match (decisions.getDecisionEntry decisionId).bind DecisionEntry.decision with
  | some decision => decision.isScaled
  | none => false

def categoricalOptions (decisions : Dbs F) (decisionId : DecisionId) :
    Option (DecisionId × Nat) :=
  match (decisions.getDecisionEntry decisionId).bind DecisionEntry.decision with
  | some decision =>
      if decision.isScaled then none
      else decision.optionCount.map fun n => (decisionId, n % 2 ^ 16)
  | none => none

/-- Consensus of a period with votes. -/
def computeVotedConsensus (calculate : CalculateConsensus F) (db : VotingDatabases F)
    (decisions : Dbs F) (reputations : Table Address F) (period : VotingPeriod)
    (allVotes : List (VoteMatrixKey × VoteMatrixEntry F)) (currentHeight : Nat) :
    Except Error (ConsensusResult F) := do
  let sorted := period.decisionIds.insertionSort fun a b => a.toNat ≤ b.toNat
  let matrix ← allVotes.foldlM setVote ⟨reputations.toList.map Prod.fst, sorted, []⟩
  let result ← okOr
    (calculate matrix reputations (sorted.filter (isScaledDecision decisions))
      (sorted.filterMap (categoricalOptions decisions)))
    (.invalidTransaction "Failed to calculate consensus")
  let stats := db.periodStats[period.id]?.getD (VotingPeriodStats.new period.id 0)
  let changes := scoreChanges reputations result.updatedReputations
  let voted := result.outcomes.map
    (votedOutcome period.id allVotes.length (totalReputation reputations)
      result.categoricalWinners)
  let unvoted := period.decisionIds.filter fun d => d ∉ result.outcomes.map Prod.fst
  let outcomes := voted ++ unvoted.map (defaultOutcome period.id)
  .ok {
    periodId := period.id
    periodStats := { stats with
      firstLoading := some result.firstLoading
      certainty := some result.certainty
      reputationChanges :=
        if changes.isEmpty then stats.reputationChanges else some changes }
    decisionOutcomes := outcomes
    decisionResolutions := outcomes.map resolutionOf
    updatedReputations := result.updatedReputations
    blockHeight := currentHeight }

/-- Consensus of a period; nothing when it was computed before, or when there
are votes but no reputation. -/
def computeConsensus (calculate : CalculateConsensus F) (db : VotingDatabases F)
    (decisions : Dbs F) (reputation : Table Address F) (period : VotingPeriod)
    (currentHeight : Nat) : Except Error (Option (ConsensusResult F)) := do
  if (db.getConsensusOutcomesForPeriod period.id).isEmpty = false then
    .ok none
  else
    let allVotes := db.getVotesForPeriod period.id
    if allVotes.isEmpty then
      let outcomes := period.decisionIds.map (defaultOutcome period.id)
      .ok (some {
        periodId := period.id
        periodStats := { VotingPeriodStats.new period.id 0 with certainty := some F64.zero }
        decisionOutcomes := outcomes
        decisionResolutions := outcomes.map resolutionOf
        updatedReputations := ∅
        blockHeight := currentHeight })
    else
      let reputations := getAllReputations reputation
      if reputations.isEmpty ∨ F64.le (totalReputation reputations) F64.zero = true then
        .ok none
      else do
        let result ← computeVotedConsensus calculate db decisions reputations period
          allVotes currentHeight
        .ok (some result)

def validateConsensusCommit (decisions : Dbs F) (result : ConsensusResult F) :
    Except Error Unit :=
  result.decisionResolutions.forM fun resolution =>
    ensure ((decisions.getDecisionStateHistory resolution.decisionId).isSome = true)
      (.invalidDecisionId
        (s!"Pre-validation failed: DecisionEntry {resolution.decisionId.toNat} " ++
          "has no state history"))

/-- The tables that closing a voting period writes. -/
structure ConsensusTables (F : Type) where
  voting : VotingDatabases F
  decisions : Dbs F
  reputation : Table Address F

def commitConsensusResult (s : ConsensusTables F) (result : ConsensusResult F) :
    Except Error (ConsensusTables F × ConsensusUndoEntry F) := do
  validateConsensusCommit s.decisions result
  let pre := getAllReputations s.reputation
  let post := computePostConsensusReputation pre result.updatedReputations
  verifyReputationConservation pre post
  let voting := result.decisionOutcomes.foldl VotingDatabases.putDecisionOutcome
    (s.voting.putPeriodStats result.periodStats)
  let decisions ← result.decisionResolutions.foldlM
    (fun db resolution => db.transitionDecisionToResolved resolution.decisionId
      result.blockHeight resolution.outcomeValue)
    s.decisions
  .ok (⟨voting, decisions, clearAndRestore (reanchorToInitialTotal post)⟩,
    { periodId := result.periodId
      decisionOutcomeIds := result.decisionOutcomes.map DecisionOutcome.decisionId
      hadPeriodStats := (s.voting.periodStats[result.periodId]?).isSome
      resolvedDecisionIds :=
        result.decisionResolutions.map DecisionResolutionEntry.decisionId
      preConsensusReputation := pre })

def calculateAndStoreConsensus (calculate : CalculateConsensus F) (s : ConsensusTables F)
    (period : VotingPeriod) (currentHeight : Nat) :
    Except Error (ConsensusTables F × Option (ConsensusUndoEntry F)) := do
  match ← computeConsensus calculate s.voting s.decisions s.reputation period currentHeight with
  | none => .ok (s, none)
  | some result =>
      let (s, entry) ← commitConsensusResult s result
      .ok (s, some entry)

end Consensus

/-- Start and end of a voting period, in blocks or in seconds. -/
def calculatePeriodBoundaries (config : DecisionConfig) (periodIndex genesisTs : Nat) :
    Except Error (Nat × Nat) := do
  if periodIndex = 0 then
    .ok (0, 0)
  else if config.isBlocks then
    ensure (periodIndex * config.quantity ≤ u32Max) .panic
    .ok ((periodIndex - 1) * config.quantity, periodIndex * config.quantity)
  else
    let start ← addU64 genesisTs ((periodIndex - 1) * config.quantity)
    let last ← addU64 start config.quantity
    .ok (start, last)

end Truthcoin.Voting
