import Truthcoin.ScaledVotes
import Truthcoin.UndoTables

/-!
# The votes of a period

The scan for the votes of a period stops at the first key of a later period. Keys are in the
order of their bytes, low byte of the period first, so this loses votes once there are periods
from 256 on. A vote is stored under the voting period of its decision, and that is below 256
in every state of a run.
-/

namespace Truthcoin.PeriodVotes

open Truthcoin.Types Truthcoin.Table Truthcoin.Fallible Truthcoin.Decisions Truthcoin.Voting
open Truthcoin.Blocks Truthcoin.Connect Truthcoin.Disconnect Truthcoin.BlockRun
open Truthcoin.VoteRecords Truthcoin.VoteOnce Truthcoin.ScaledVotes Truthcoin.UndoTables
open Truthcoin.Commitments
open Truthcoin.SampleChain Truthcoin.SampleMarkets

section

variable {F : Type}

/-- All stored votes whose key has the period. -/
def fullScan (voting : VotingDatabases F) (period : Nat) :
    List (VoteMatrixKey × VoteMatrixEntry F) :=
  voting.votes.toList.filter fun row => row.1.periodId = UInt32.ofNat period

theorem Timed.left {voting voting' : VotingDatabases F} (h : Timed voting)
    (hleft : VotesLeft voting voting') : Timed voting' :=
  fun key entry hentry => h key entry (hleft key entry hentry)

variable [F64 F] [DecidableEq F] {L : Library F} {config : DecisionConfig}
  {lib : WithdrawalBundle.BundleLib} {ok : State F → Block F → Prop}
  {okPeg : State F → TwoWayPegData → Prop} {chain : List (Block F)} {s : State F}

theorem timed_of_run (hrun : Run L config lib ok okPeg chain s) : Timed s.voting := by
  induction hrun with
  | start =>
      intro key entry hrow
      simp [State.empty, VotingDatabases.empty] at hrow
  | connect archive _ _ h ih => exact ih.applyBlock h
  | disconnect _ h ih =>
      obtain ⟨height, hundone⟩ := tablesUndone_of_disconnectTip h
      exact Timed.left ih hundone.votes
  | connectPeg _ _ h ih =>
      rw [voting_of_connectTwoWayPegData h]
      exact ih
  | disconnectPeg _ h ih =>
      obtain ⟨p, -, h⟩ := bind_eq_ok_iff.mp h
      rw [← Except.ok.inj h]
      exact ih

/-- In every state of a run the votes that the scan for a period returns are those of a full
scan, and these are the stored votes of the period. -/
theorem getVotesForPeriod_eq_fullScan (hrun : Run L config lib ok okPeg chain s) (period : Nat) :
    s.voting.getVotesForPeriod period = fullScan s.voting period ∧
      ∀ key entry, (key, entry) ∈ s.voting.getVotesForPeriod period ↔
        s.voting.votes[key]? = some entry ∧ key.periodId = UInt32.ofNat period := by
  have htimed := timed_of_run hrun
  exact ⟨getVotesForPeriod_eq htimed period, fun key entry => mem_getVotesForPeriod htimed⟩

end

/-- The first standard slot of period 2. -/
def nextDecision : DecisionId := marketDecision + BitVec.ofNat 24 (2 ^ 16)

/-- A vote in period 2, and a vote in period 3. -/
def votesOfTwoPeriods : List (Block Rat) :=
  [blockAt 1 [claiming 0 marketDecision, claiming 1 nextDecision], blockAt 2 [],
    blockAt 3 [votingOn 2 marketDecision 1], blockAt 4 [], blockAt 5 [votingOn 3 nextDecision 0]]

/-- The scan for period 2 stops at the vote in period 3. -/
theorem getVotesForPeriod_eq_fullScan_two_periods :
    ∃ s, Run chainLibrary marketConfig sampleBundleLib (fun _ _ => True) (fun _ _ => True)
        (votesOfTwoPeriods.reverse ++ [blockAt 0 []]) s ∧
      s.voting.votes.toList.map (fun row => row.1.periodId) = [2, 3] ∧
      s.voting.getVotesForPeriod 2 = fullScan s.voting 2 ∧
      (s.voting.getVotesForPeriod 2).length = 1 := by
  have hcomputed : holds (runBlocks marketConfig 4 votesOfTwoPeriods) (fun s =>
      decide (s.voting.votes.toList.map (fun row => row.1.periodId) = [2, 3]) &&
      decide ((s.voting.getVotesForPeriod 2).length = 1)) = true := by
    decide +kernel
  obtain ⟨s, hblocks, htests⟩ := holds_iff.mp hcomputed
  simp only [Bool.and_eq_true, decide_eq_true_eq] at htests
  have hrun := (chain_of_runBlocks hblocks).run
  exact ⟨s, hrun, htests.1, (getVotesForPeriod_eq_fullScan hrun 2).1, htests.2⟩

end Truthcoin.PeriodVotes
