import Truthcoin.Voting
import Truthcoin.Trading

/-!
# The consensus algorithm

The algorithm that turns the votes of a period into outcomes and new reputations, in
exact rational arithmetic. A vector has its length in its type, and a vote that was not
cast is `none`, where the program has a NaN. The singular value decomposition is a
parameter: a function that returns the first score and the first loading.
-/

namespace Truthcoin.Oracle

open Truthcoin.Types Truthcoin.Table Truthcoin.Decisions Truthcoin.Voting Truthcoin.Trading

inductive VotingMathError where
  | emptyMatrix
  | invalidReputation (reason : String)
  deriving DecidableEq

abbrev DVector (n : Nat) := Fin n → Rat

abbrev VoteMatrix (n m : Nat) := Fin n → Fin m → Option Rat

abbrev FilledMatrix (n m : Nat) := Fin n → Fin m → Rat

/-- First score of the voters and first loading of the decisions. -/
abbrev PrinComp := ∀ n m : Nat, FilledMatrix n m → DVector n → DVector n × DVector m

def neutralValue : Rat := 1 / 2

def catchTolerance : Rat := 1 / 5

def smoothingAlpha : Rat := 3 / 10

def f64Epsilon : Rat := 1 / 2 ^ 52

def roundOutcome (value : Rat) : Rat := roundToPrecision value 8

def roundReputation (value : Rat) : Rat := roundToPrecision value 10

section

variable {n m : Nat}

/-- Absolute values divided by their sum, or equal weights when all of them are zero. -/
def normalizeWeights (v : DVector n) : DVector n :=
  let out : DVector n := if ∑ i, |v i| = 0 then fun _ => 1 else fun i => |v i|
  fun i => out i / ∑ j, out j

def catchTl (x tolerance : Rat) : Rat :=
  if x < neutralValue - tolerance / 2 then 0
  else if neutralValue + tolerance / 2 < x then 1
  else neutralValue

def weightedMean (votes : Fin n → Option Rat) (weights : DVector n) : Rat :=
  let weightedSum := ∑ i, (votes i).elim 0 fun vote => vote * weights i
  let totalWeight := ∑ i, (votes i).elim 0 fun _ => weights i
  if 0 < totalWeight then weightedSum / totalWeight else neutralValue

/-- Mean of every decision, and whether it has votes. -/
def computeWeightedColumnMeans (matrix : VoteMatrix n m) (weights : DVector n) :
    DVector m × (Fin m → Bool) :=
  (fun j => weightedMean (fun i => matrix i j) weights,
    fun j => decide (∃ i, (matrix i j).isSome = true))

/-- The value at which the weights reach one half, or the middle of two values when they
reach it exactly. -/
def medianLoop (halfWeight : Rat) : Rat → List (Rat × Rat) → Option Rat
  | _, [] => none
  | cumulativeWeight, (value, weight) :: rest =>
      let cumulativeWeight := cumulativeWeight + weight
      if halfWeight ≤ cumulativeWeight then
        match rest with
        | [] => some value
        | next :: _ =>
            if |cumulativeWeight - halfWeight| < 1 / 10 ^ 10 then some ((value + next.1) / 2)
            else some value
      else
        medianLoop halfWeight cumulativeWeight rest

def weightedMedian (values weights : DVector n) : Except VotingMathError Rat :=
  let sorted := (List.ofFn fun i => (values i, weights i)).insertionSort fun a b => a.1 ≤ b.1
  match sorted.getLast? with
  | none => .error .emptyMatrix
  | some last =>
      let totalWeight := ∑ i, weights i
      if totalWeight ≤ 0 then
        .error (.invalidReputation "zero total weight in weighted_median")
      else
        .ok ((medianLoop (totalWeight / 2) 0 sorted).getD last.1)

/-- Halve the distance of the scores above the median. -/
def scoreReflect (component previousReputation : DVector n) :
    Except VotingMathError (DVector n) :=
  if n ≤ 2 then
    .ok component
  else do
    let medianFactor ← weightedMedian component previousReputation
    .ok fun i =>
      let reflection := component i - medianFactor
      if 0 < reflection then component i - reflection * (1 / 2) else component i

def weightedPrinComp (prinComp : PrinComp) (x : FilledMatrix n m) (weights : DVector n) :
    Except VotingMathError (DVector n × DVector m) :=
  if ∑ i, weights i ≤ 0 then .error (.invalidReputation "Total weight is non-positive")
  else .ok (prinComp n m x weights)

def vecMin (v : DVector n) : Rat :=
  match List.ofFn v with
  | [] => 0
  | x :: xs => xs.foldl min x

def vecMax (v : DVector n) : Rat :=
  match List.ofFn v with
  | [] => 0
  | x :: xs => xs.foldl max x

/-- How far every voter is from the most distant one, where a decision counts by how
little it divides the voters. -/
def complianceScores (voteMatrix : FilledMatrix n m) (oldRep : DVector n)
    (firstLoading : DVector m) : DVector n :=
  let rawOutcomes := (computeWeightedColumnMeans (fun i j => some (voteMatrix i j)) oldRep).1
  let distance : FilledMatrix n m := fun i j =>
    |voteMatrix i j - catchTl (rawOutcomes j) catchTolerance|
  let mainstream := normalizeWeights fun j =>
    if f64Epsilon < |firstLoading j| then 1 / |firstLoading j| else 0
  let nonCompliance : DVector n := fun i => ∑ j, distance i j * mainstream j
  normalizeWeights fun i => |nonCompliance i - vecMax nonCompliance|

def squaredDistance (v w : DVector n) : Rat :=
  ∑ i, (v i - w i) ^ 2

/-- The scores, in the direction that is closer to compliance, times the reputations.
Without scores the reputations stay as they are. -/
def newReputation (voteMatrix : FilledMatrix n m) (oldRep firstScore : DVector n)
    (firstLoading : DVector m) : Except VotingMathError (DVector n) :=
  if ∑ i, |firstScore i| ≠ 0 then do
    let newScore1 ← scoreReflect (fun i => firstScore i + |vecMin firstScore|) oldRep
    let newScore2 ← scoreReflect (fun i => |firstScore i - vecMax firstScore|) oldRep
    let compliance := complianceScores voteMatrix oldRep firstLoading
    let choice1 := squaredDistance (normalizeWeights newScore1) compliance
    let choice2 := squaredDistance (normalizeWeights newScore2) compliance
    let repMean := (∑ i, oldRep i) / n
    if 0 < repMean then
      let rep1 := normalizeWeights fun i => newScore1 i * (oldRep i / repMean)
      let rep2 := normalizeWeights fun i => newScore2 i * (oldRep i / repMean)
      .ok (if choice1 - choice2 < 0 then rep1 else rep2)
    else
      .ok oldRep
  else
    .ok oldRep

/-- Mix the new reputations with the participation of the voters, and the result
with the old reputations. -/
def smoothReputation (newRep oldRep : DVector n) (alpha : Rat) (voterParticipation : DVector n)
    (participationTotal : Rat) : DVector n :=
  let participationSum := ∑ i, voterParticipation i
  let pRel : DVector n := fun i =>
    if f64Epsilon < participationSum then voterParticipation i / participationSum else 1 / n
  fun i =>
    (newRep i * participationTotal + pRel i * (1 - participationTotal)) * alpha +
      normalizeWeights oldRep i * (1 - alpha)

structure RewardWeightsResult (n m : Nat) where
  firstLoading : DVector m
  oldRep : DVector n
  smoothRep : DVector n

def getRewardWeights (prinComp : PrinComp) (voteMatrix : FilledMatrix n m) (rep : DVector n)
    (alpha : Rat) (voterParticipation : DVector n) (participationTotal : Rat) :
    Except VotingMathError (RewardWeightsResult n m) := do
  let (firstScore, firstLoading) ← weightedPrinComp prinComp voteMatrix rep
  let newRep ← newReputation voteMatrix rep firstScore firstLoading
  .ok {
    firstLoading := firstLoading
    oldRep := rep
    smoothRep := smoothReputation newRep rep alpha voterParticipation participationTotal }

structure FillNaResult (n m : Nat) where
  filled : FilledMatrix n m
  hasVotes : Fin m → Bool
  voterParticipation : DVector n
  participationTotal : Rat

def castCount (mNa : VoteMatrix n m) (i : Fin n) : Nat :=
  ((List.finRange m).filter fun j => (mNa i j).isSome).length

/-- A missing vote counts as the outcome of the votes that were cast. -/
def fillNa (mNa : VoteMatrix n m) (rep : DVector n) (catchP : Rat) : FillNaResult n m :=
  let means := computeWeightedColumnMeans mNa rep
  let hasNan := decide (∃ i j, mNa i j = none)
  { filled := fun i j => (mNa i j).getD (catchTl (means.1 j) catchP)
    hasVotes := if hasNan then means.2 else fun _ => true
    voterParticipation := fun i => if m = 0 then 0 else (castCount mNa i : Rat) / m
    participationTotal :=
      if n * m = 0 then 0 else ((∑ i, castCount mNa i : Nat) : Rat) / (n * m : Nat) }

structure FactoryResult (n m : Nat) where
  agents : RewardWeightsResult n m
  decisions : DVector m
  hasVotes : Fin m → Bool
  certainty : Rat

/-- The weighted median for a scaled decision, the weighted mean, caught, for another. -/
def decisionOutcome (filled : FilledMatrix n m) (smoothRep : DVector n) (catchP : Rat)
    (isScaled : Bool) (j : Fin m) : Rat :=
  if isScaled then
    match weightedMedian (fun i => filled i j) smoothRep with
    | .ok median => median
    | .error _ => neutralValue
  else
    catchTl (weightedMean (fun i => some (filled i j)) smoothRep) catchP

def decisionCertainty (filled : FilledMatrix n m) (smoothRep : DVector n) (outcome : Rat)
    (j : Fin m) : Rat :=
  ∑ i, if |outcome - filled i j| < 1 / 10 ^ 10 then smoothRep i else 0

def factory (prinComp : PrinComp) (m0 : VoteMatrix n m) (rep : DVector n) (catchP : Rat)
    (scaledFlags : Fin m → Bool) : Except VotingMathError (FactoryResult n m) := do
  if m = 0 ∨ n = 0 then
    .error .emptyMatrix
  else
    let fill := fillNa m0 rep catchP
    let agents ← getRewardWeights prinComp fill.filled rep smoothingAlpha
      fill.voterParticipation fill.participationTotal
    let decisions : DVector m := fun j =>
      decisionOutcome fill.filled agents.smoothRep catchP (scaledFlags j) j
    .ok {
      agents := agents
      decisions := decisions
      hasVotes := fill.hasVotes
      certainty :=
        (∑ j, decisionCertainty fill.filled agents.smoothRep (decisions j) j) / m }

/-- `val.round() as u16`. -/
def optionIndex (val : Rat) : Nat :=
  (truncRat 0 (2 ^ 16 - 1) (roundRat val)).toNat

/-- The option with the most votes, or the one past the last when there is a tie. -/
def effectiveWinner (votes : List Nat) (optionCount : Nat) : Nat :=
  let maxCount := (votes.map fun option => votes.count option).foldl max 0
  match votes.dedup.filter fun option => votes.count option = maxCount with
  | [winner] => if winner < optionCount then winner else optionCount
  | _ => optionCount

/-- Votes of a column for one of its options. -/
def optionVotes (column : Fin n → Option Rat) (optionCount : Nat) : List Nat :=
  ((List.finRange n).filterMap fun row => (column row).map optionIndex).filter
    fun option => option ≤ optionCount

def winningOption (column : Fin n → Option Rat) (optionCount : Nat) : Option Nat :=
  let votes := optionVotes column optionCount
  if votes.isEmpty then none else some (effectiveWinner votes optionCount)

/-- The votes for the winner count as one, the others as zero. -/
def rewriteColumn (column : Fin n → Option Rat) (optionCount : Nat) : Fin n → Option Rat :=
  match winningOption column optionCount with
  | none => column
  | some winner => fun row =>
      (column row).map fun val => if optionIndex val = winner then 1 else 0

/-- The matrix with its categorical columns rewritten, and the winner of each of them. -/
def resolveCategoricalPlurality (denseMatrix : VoteMatrix n m)
    (categoricalColumns : Fin m → Option Nat) :
    VoteMatrix n m × (Fin m → Option (Option Nat)) :=
  (fun i j =>
      match categoricalColumns j with
      | none => denseMatrix i j
      | some optionCount => rewriteColumn (fun row => denseMatrix row j) optionCount i,
    fun j => (categoricalColumns j).map (winningOption fun row => denseMatrix row j))

end

def getVote (matrix : SparseVoteMatrix Rat) (voter : Address) (decisionId : DecisionId) :
    Option Rat :=
  (matrix.entries.reverse.find? fun entry => entry.1 = (voter, decisionId)).map Prod.snd

def clampUnit (x : Rat) : Rat := max 0 (min 1 x)

/-- The weight vector of a reputation map. -/
def fromReputationMap (reputations : Table Address Rat) : Table Address Rat :=
  (reputations.filter fun _ rep => decide (0 < rep)).map fun _ rep => clampUnit rep

section

variable (matrix : SparseVoteMatrix Rat) (reputationVector : Table Address Rat)

def voterWeights : DVector matrix.voters.length :=
  fun i => getReputation reputationVector (matrix.voters.get i)

/-- The weights of the voters divided by their sum, or equal weights. -/
def repVector : DVector matrix.voters.length :=
  let repSum := ∑ i, voterWeights matrix reputationVector i
  if 0 < repSum then fun i => voterWeights matrix reputationVector i / repSum
  else fun _ => 1 / matrix.voters.length

def denseMatrix : VoteMatrix matrix.voters.length matrix.decisions.length :=
  fun i j => getVote matrix (matrix.voters.get i) (matrix.decisions.get j)

/-- What the algorithm computes before it writes anything back. -/
def runFactory (prinComp : PrinComp) (scaledDecisions : List DecisionId)
    (categoricalColumns : Fin matrix.decisions.length → Option Nat) :
    Except VotingMathError (FactoryResult matrix.voters.length matrix.decisions.length) :=
  factory prinComp (resolveCategoricalPlurality (denseMatrix matrix) categoricalColumns).1
    (repVector matrix reputationVector) catchTolerance
    fun j => decide (matrix.decisions.get j ∈ scaledDecisions)

/-- Total the voters had before. -/
def originalTotal : Rat :=
  (matrix.voters.map (getReputation reputationVector)).sum

def scaleFactor (smoothRep : DVector matrix.voters.length) : Rat :=
  let consensusTotal := ∑ i, smoothRep i
  if 0 < consensusTotal ∧ 0 < originalTotal matrix reputationVector then
    originalTotal matrix reputationVector / consensusTotal
  else
    matrix.voters.length * neutralValue

/-- New reputation of every voter, scaled to the total and rounded. -/
def scaledReputations (smoothRep : DVector matrix.voters.length) : List (Address × Rat) :=
  List.ofFn fun i => (matrix.voters.get i,
    roundReputation (smoothRep i * scaleFactor matrix reputationVector smoothRep))

end

/-- The first voter with the greatest reputation. -/
def maxVoter (rows : List (Address × Rat)) : Option (Address × Rat) :=
  rows.foldl
    (fun best row =>
      match best with
      | none => some row
      | some best => if best.2 < row.2 then some row else some best)
    none

/-- Give what rounding has left over to the greatest voter. -/
def adjustResidual (total : Rat) (rows : List (Address × Rat)) : Table Address Rat :=
  let updated : Table Address Rat := rows.foldl (fun t row => t.insert row.1 row.2) ∅
  let residual := total - totalReputation updated
  if 0 < |residual| then
    match maxVoter rows with
    | none => updated
    | some (address, _) =>
        match updated[address]? with
        | none => updated
        | some rep => updated.insert address (roundReputation (rep + residual))
  else
    updated

def updatedReputations (matrix : SparseVoteMatrix Rat) (reputationVector : Table Address Rat)
    (smoothRep : DVector matrix.voters.length) : Table Address Rat :=
  adjustResidual (originalTotal matrix reputationVector)
    (scaledReputations matrix reputationVector smoothRep)

def runConsensus (prinComp : PrinComp) (matrix : SparseVoteMatrix Rat)
    (reputationVector : Table Address Rat) (scaledDecisions : List DecisionId)
    (categoricalDecisions : List (DecisionId × Nat)) :
    Except VotingMathError (DetailedConsensusResult Rat) := do
  let categoricalColumns : Fin matrix.decisions.length → Option Nat := fun j =>
    (categoricalDecisions.find? fun entry => entry.1 = matrix.decisions.get j).map Prod.snd
  let winners :=
    (resolveCategoricalPlurality (denseMatrix matrix) categoricalColumns).2
  let result ← runFactory matrix reputationVector prinComp scaledDecisions categoricalColumns
  let outcome : Fin matrix.decisions.length → Option Rat := fun j =>
    match winners j with
    | some winner =>
        match winner with
        | some w =>
            some (if w < (categoricalColumns j).getD 0 then (w : Rat) else neutralValue)
        | none => some neutralValue
    | none => if result.hasVotes j then some (roundOutcome (result.decisions j)) else none
  .ok {
    outcomes := List.ofFn fun j => (matrix.decisions.get j, outcome j)
    firstLoading := List.ofFn result.agents.firstLoading
    certainty := result.certainty
    updatedReputations :=
      updatedReputations matrix reputationVector result.agents.smoothRep
    categoricalWinners := (List.finRange matrix.decisions.length).filterMap fun j =>
      (winners j).map fun winner => (matrix.decisions.get j, winner) }

def calculateConsensus (prinComp : PrinComp) : CalculateConsensus Rat :=
  fun matrix reputations scaledDecisions categoricalDecisions =>
    (runConsensus prinComp matrix (fromReputationMap reputations) scaledDecisions
      categoricalDecisions).toOption

end Truthcoin.Oracle
