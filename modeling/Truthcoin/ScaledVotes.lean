import Truthcoin.VoteOnce
import Truthcoin.RationalRounding

/-!
# Votes on scaled decisions

A vote is read back from the table of votes when the fees of a market are paid out. On a
scaled decision it is judged by its distance to the outcome, except at the ends of the
scale: there it is stored as a binary vote, which is judged by equality.
-/

namespace Truthcoin.ScaledVotes

open Truthcoin.Types Truthcoin.Table Truthcoin.Fallible Truthcoin.Decisions Truthcoin.Markets
open Truthcoin.Voting Truthcoin.Blocks Truthcoin.Trading Truthcoin.Validation
open Truthcoin.Settlement Truthcoin.Connect Truthcoin.BlockRun Truthcoin.VoteRecords
open Truthcoin.VoteOnce Truthcoin.RationalRounding Truthcoin.Commitments
open Truthcoin.SampleChain Truthcoin.SampleMarkets

theorem periodId_le_of_keyCmp {a b : VoteMatrixKey} (ha : a.periodId.toNat < 256)
    (hb : b.periodId.toNat < 256) (h : keyCmp a b = .lt) : a.periodId ≤ b.periodId := by
  rw [UInt32.le_iff_toNat_le]
  by_contra hlt
  have hgt : compare a.periodId.toNat b.periodId.toNat = .gt :=
    Nat.compare_eq_gt.mpr (not_le.mp hlt)
  simp [keyCmp, TableKey.encode, AppendLog.leBytes, List.compare_cons_cons, Nat.mod_eq_of_lt ha,
    Nat.mod_eq_of_lt hb, hgt] at h

section

variable {F : Type}

/-- Every vote is stored under the voting period of its decision. -/
def Timed (voting : VotingDatabases F) : Prop :=
  ∀ (key : VoteMatrixKey) (entry : VoteMatrixEntry F), voting.votes[key]? = some entry →
    key.periodId = UInt32.ofNat key.decisionId.votingPeriod

theorem votingPeriod_toNat_lt (d : DecisionId) : (UInt32.ofNat d.votingPeriod).toNat < 256 := by
  have hmod : d.periodIndex < 2 ^ 7 := Nat.mod_lt _ (by decide)
  rw [UInt32.toNat_ofNat_of_lt']
  · rw [DecisionId.votingPeriod]
    omega
  · rw [DecisionId.votingPeriod, UInt32.size]
    omega

theorem getVotesForPeriod_eq {voting : VotingDatabases F} (h : Timed voting) (period : Nat) :
    voting.getVotesForPeriod period =
      voting.votes.toList.filter fun row => row.1.periodId = UInt32.ofNat period := by
  have hsmall : ∀ row ∈ voting.votes.toList, row.1.periodId.toNat < 256 := by
    intro row hrow
    rw [h row.1 row.2 (mem_toList_iff.mp hrow)]
    exact votingPeriod_toNat_lt _
  have hscan : voting.votes.toList.takeWhile
        (fun row => decide (row.1.periodId ≤ UInt32.ofNat period)) =
      voting.votes.toList.filter fun row => decide (row.1.periodId ≤ UInt32.ofNat period) := by
    refine takeWhile_eq_filter ?_
    refine Std.ExtTreeMap.ordered_keys_toList.imp_of_mem ?_
    intro a b ha hb hlt hle
    rw [decide_eq_true_eq] at hle ⊢
    exact UInt32.le_trans (periodId_le_of_keyCmp (hsmall a ha) (hsmall b hb) hlt) hle
  rw [VotingDatabases.getVotesForPeriod, hscan, List.filter_filter]
  refine List.filter_congr fun row _ => ?_
  rw [Bool.and_eq_left_iff_imp, decide_eq_true_eq, decide_eq_true_eq]
  exact UInt32.le_of_eq

theorem mem_getVotesForPeriod {voting : VotingDatabases F} (h : Timed voting) {period : Nat}
    {row : VoteMatrixKey × VoteMatrixEntry F} :
    row ∈ voting.getVotesForPeriod period ↔
      voting.votes[row.1]? = some row.2 ∧ row.1.periodId = UInt32.ofNat period := by
  rw [getVotesForPeriod_eq h, List.mem_filter, mem_toList_iff, decide_eq_true_eq]

end

variable {F : Type} [F64 F]

section

variable [DecidableEq F] {L : Library F} {config : DecisionConfig} {archive : Archive}
  {lib : WithdrawalBundle.BundleLib} {ok : State F → Block F → Prop}
  {okPeg : State F → TwoWayPegData → Prop} {chain : List (Block F)} {s s' : State F}
  {block : Block F}

theorem Timed.applyBlock (hs : Timed s.voting) (h : applyBlock L config archive s block = .ok s') :
    Timed s'.voting := by
  intro key entry hentry
  rcases lookup_applyBlock h key with ⟨-, hsame⟩ | ⟨c, -, -, rfl, -⟩
  · exact hs key entry (hsame ▸ hentry)
  · rfl

theorem timed_of_chain (h : Chain L config lib ok okPeg chain s) : Timed s.voting := by
  induction h with
  | start =>
      intro key entry hrow
      simp [State.empty, VotingDatabases.empty] at hrow
  | connect archive _ _ h ih => exact ih.applyBlock h
  | connectPeg _ _ h ih =>
      rw [voting_of_connectTwoWayPegData h]
      exact ih

theorem Timed.extends (hs : Timed s.voting) (h : Extends L config lib s s') :
    Timed s'.voting := by
  induction h with
  | refl => exact hs
  | connect archive _ h ih => exact ih.applyBlock h
  | connectPeg _ h ih =>
      rw [voting_of_connectTwoWayPegData h]
      exact ih

/-- A vote of a block stays stored, unless the block has another one in its place. -/
theorem lookup_of_extends {t : State F} {cast : CastVote F}
    (h : applyBlock L config archive s block = .ok s') (hcast : cast ∈ castIn block)
    (honly : ∀ c ∈ castIn block, c.key = cast.key → c.value = cast.value)
    (hextends : Extends L config lib s' t) :
    ∃ entry, cast.lookup t.voting = some entry ∧ entry.value = storedValue s.decisions cast := by
  rcases lookup_applyBlock h
      (VotingDatabases.voteKey cast.decisionId.votingPeriod cast.voter cast.decisionId) with
    ⟨hnone, -⟩ | ⟨c, hc, -, hkey, entry, hentry, hvalue⟩
  · exact absurd rfl (hnone cast hcast)
  · have hsame := voteKey_inj hkey
    have hdecision : c.decisionId = cast.decisionId := congrArg Prod.snd hsame
    refine ⟨entry, votes_of_extends hextends hentry, ?_⟩
    rw [hvalue, storedValue, storedValue, honly c hc hsame, hdecision]

end

theorem mem_findCorrectVoters {s : State F} {outcomes : List (DecisionId × F)}
    {decisions : DecisionMap F} {d : DecisionId} {c : F} {decision : Decision F}
    (houtcome : (outcomes.find? fun o => o.1 = d).map Prod.snd = some c)
    (hdecision : decisions.get d = some decision) (htimed : Timed s.voting) {voter : Address} :
    voter ∈ (findCorrectVoters s outcomes decisions d).map Prod.fst ↔
      (∃ entry, s.voting.getVote d.votingPeriod voter d = some entry ∧
        isVoteCorrect entry.value c decision = true) ∧
      F64.lt F64.zero (getReputation s.reputation voter) = true := by
  simp only [findCorrectVoters, houtcome, hdecision, List.mem_map, List.mem_insertionSort,
    List.mem_filter, mem_getVotesForPeriod htimed, VotingDatabases.getVote]
  constructor
  · rintro ⟨_, ⟨⟨row, ⟨⟨hrow, hperiod⟩, hcorrect⟩, rfl⟩, hrep⟩, rfl⟩
    rw [decide_eq_true_eq] at hcorrect
    refine ⟨⟨row.2, ?_, hcorrect.2⟩, hrep⟩
    have hkey : VotingDatabases.voteKey d.votingPeriod row.1.voterAddress d = row.1 := by
      rw [VotingDatabases.voteKey, ← hperiod, ← hcorrect.1]
    rw [hkey, hrow]
  · rintro ⟨⟨entry, hentry, hcorrect⟩, hrep⟩
    exact ⟨(voter, getReputation s.reputation voter),
      ⟨⟨(VotingDatabases.voteKey d.votingPeriod voter d, entry),
        ⟨⟨hentry, rfl⟩, decide_eq_true ⟨rfl, hcorrect⟩⟩, rfl⟩, hrep⟩, rfl⟩

/-- The distance of a vote to an outcome, rounded to six decimals, is at most 0.05. -/
def Near (v c : Rat) : Prop :=
  roundRat (|v - c| * 10 ^ 6) / 10 ^ 6 ≤ 5 / 100

/-- The vote is not at an end of the scale, or it is the outcome, or it is too far from it. -/
def OffEnds (v c : Rat) : Prop :=
  (v ≠ 0 ∧ v ≠ 1) ∨ v = c ∨ ¬ Near v c

theorem le_iff (a b : Rat) : F64.le a b = true ↔ a ≤ b := decide_eq_true_iff

theorem eq_iff (a b : Rat) : F64.eq a b = true ↔ a = b := decide_eq_true_iff

theorem roundToPrecision_eq (x : Rat) (decimals : Nat) :
    roundToPrecision x decimals = roundRat (x * 10 ^ decimals) / 10 ^ decimals :=
  if_pos rfl

theorem near_self (c : Rat) : Near c c := by
  have hzero : roundRat 0 = 0 := roundRat_intCast 0
  rw [Near, sub_self, abs_zero, zero_mul, hzero]
  norm_num

theorem convertVoteValue_of_scaled {decision : Decision Rat} (h : decision.isScaled = true)
    (v : Rat) : convertVoteValueWithDecision v (some decision) =
      if v = 0 ∨ v = 1 then .binary (decide (v = 1)) else .scalar v := by
  have hcategorical : decision.isCategorical = false := by
    rw [Decision.isScaled] at h
    rw [Decision.isCategorical]
    split at h
    · rename_i heq
      rw [heq]
    · cases h
  rw [convertVoteValueWithDecision, if_neg (by exact Bool.false_ne_true), Option.elim_some,
    hcategorical, if_neg Bool.false_ne_true]
  show (if (decide (v = 0) || decide (v = 1)) = true then _ else _) = _
  simp only [Bool.or_eq_true, decide_eq_true_eq]
  rfl

theorem isVoteCorrect_scalar {decision : Decision Rat} (h : decision.isScaled = true)
    (v c : Rat) : isVoteCorrect (.scalar v) c decision = true ↔ Near v c := by
  rw [isVoteCorrect, if_pos h, le_iff, roundToPrecision_eq, abs_eq]
  exact Iff.rfl

theorem isVoteCorrect_binary (decision : Decision Rat) {v : Rat} (h : v = 0 ∨ v = 1) (c : Rat) :
    isVoteCorrect (.binary (decide (v = 1))) c decision = true ↔ v = c := by
  rcases h with rfl | rfl
  · exact eq_iff 0 c
  · exact eq_iff 1 c

theorem judged_iff {decision : Decision Rat} (h : decision.isScaled = true) (v c : Rat) :
    (isVoteCorrect (convertVoteValueWithDecision v (some decision)) c decision = true ↔
      Near v c) ↔ OffEnds v c := by
  rw [convertVoteValue_of_scaled h, OffEnds]
  split
  · rename_i hends
    have hoff : ¬ (v ≠ 0 ∧ v ≠ 1) := fun hne => hends.elim hne.1 hne.2
    rw [isVoteCorrect_binary decision hends, or_iff_right hoff]
    constructor
    · intro hiff
      exact (em (v = c)).imp_right fun hne hnear => hne (hiff.mpr hnear)
    · rintro (rfl | hfar)
      · exact iff_of_true rfl (near_self v)
      · exact iff_of_false (fun heq => hfar (heq ▸ near_self v)) hfar
  · rename_i hends
    rw [isVoteCorrect_scalar h]
    exact iff_of_true Iff.rfl (.inl (not_or.mp hends))

section

variable {L : Library Rat} {config : DecisionConfig} {archive : Archive}
  {lib : WithdrawalBundle.BundleLib} {ok : State Rat → Block Rat → Prop}
  {okPeg : State Rat → TwoWayPegData → Prop} {chain : List (Block Rat)} {s s' r t : State Rat}
  {block : Block Rat} {cast : CastVote Rat} {decision : Decision Rat}
  {outcomes : List (DecisionId × Rat)} {decisions : DecisionMap Rat} {c : Rat}

/-- In every chain, for every vote of a block on a scaled decision, whenever the votes are
read back in a state that holds those of a later state of the chain: a voter with reputation
is counted by the distance of the vote to the outcome exactly off the ends of the scale. -/
theorem counted_by_distance_iff (hchain : Chain L config lib ok okPeg chain s)
    (h : applyBlock L config archive s block = .ok s') (hcast : cast ∈ castIn block)
    (honly : ∀ c ∈ castIn block, c.key = cast.key → c.value = cast.value)
    (hdecision :
      (s.decisions.getDecisionEntry cast.decisionId).bind DecisionEntry.decision = some decision)
    (hscaled : decision.isScaled = true) (hextends : Extends L config lib s' r)
    (hvotes : t.voting.votes = r.voting.votes)
    (hrep : 0 < getReputation t.reputation cast.voter)
    (houtcome : (outcomes.find? fun o => o.1 = cast.decisionId).map Prod.snd = some c)
    (hget : decisions.get cast.decisionId = some decision) :
    (cast.voter ∈ (findCorrectVoters t outcomes decisions cast.decisionId).map Prod.fst ↔
      Near cast.value c) ↔ OffEnds cast.value c := by
  have htimed : Timed t.voting := by
    intro key entry hentry
    rw [hvotes] at hentry
    exact ((timed_of_chain hchain).applyBlock h).extends hextends key entry hentry
  obtain ⟨entry, hlookup, hvalue⟩ := lookup_of_extends h hcast honly hextends
  have hread : t.voting.getVote cast.decisionId.votingPeriod cast.voter cast.decisionId =
      some entry := by
    rw [VotingDatabases.getVote, hvotes]
    exact hlookup
  have hpositive : F64.lt F64.zero (getReputation t.reputation cast.voter) = true :=
    decide_eq_true hrep
  rw [mem_findCorrectVoters houtcome hget htimed, and_iff_left hpositive, hread,
    ← judged_iff hscaled]
  simp only [Option.some.injEq, exists_eq_left', hvalue, storedValue, hdecision]

end

/-- A claim of a scaled decision. -/
def claimingScaled : Transaction Rat :=
  spending 0 []
    (.claimDecision ⟨.scaled 0 100 1, [⟨marketDecision, "h", "d", none, none, none, none⟩]⟩)

def scaledDecision : Decision Rat := ⟨owner, .scaled 0 100 1, "h", "d", none, none, []⟩

/-- The scaled decision comes into voting. -/
def scaledBlocks : List (Block Rat) := [blockAt 1 [claimingScaled], blockAt 2 []]

/-- The owner votes for the low end of the scale. -/
def lowVoteBlock : Block Rat := blockAt 3 [voting 1 0]

/-- The states before and after the vote. -/
def lowVoteRun : Except Error (State Rat × State Rat) := do
  let s ← runBlocks marketConfig 2 scaledBlocks
  let s' ← applyBlock chainLibrary marketConfig emptyArchive s lowVoteBlock
  .ok (s, s')

theorem lowVoteRun_ok :
    ∃ s s', runBlocks marketConfig 2 scaledBlocks = .ok s ∧
      applyBlock chainLibrary marketConfig emptyArchive s lowVoteBlock = .ok s' ∧
      (s.decisions.getDecisionEntry marketDecision).bind DecisionEntry.decision =
        some scaledDecision ∧
      0 < getReputation s'.reputation owner ∧
      findCorrectVoters s' [(marketDecision, 3 / 100)] [(marketDecision, scaledDecision)]
        marketDecision = [] := by
  have hcomputed : holds lowVoteRun (fun p =>
      decide ((p.1.decisions.getDecisionEntry marketDecision).bind DecisionEntry.decision =
        some scaledDecision) &&
      decide (0 < getReputation p.2.reputation owner) &&
      decide (findCorrectVoters p.2 [(marketDecision, 3 / 100)]
        [(marketDecision, scaledDecision)] marketDecision = [])) = true := by
    decide +kernel
  obtain ⟨⟨s, s'⟩, hrun, htest⟩ := holds_iff.mp hcomputed
  obtain ⟨_, hbefore, hrun⟩ := bind_eq_ok_iff.mp hrun
  obtain ⟨_, hafter, hpair⟩ := bind_eq_ok_iff.mp hrun
  obtain ⟨rfl, rfl⟩ := Prod.mk.inj (Except.ok.inj hpair)
  simp only [Bool.and_eq_true, decide_eq_true_eq] at htest
  exact ⟨_, _, hbefore, hafter, htest.1.1, htest.1.2, htest.2⟩

theorem near_low : Near 0 (3 / 100) := by
  unfold Near
  decide +kernel

theorem value_of_lowVote : ∀ c ∈ castIn lowVoteBlock, c.key = (owner, marketDecision) →
    c.value = 0 := by
  intro c hc _
  rw [show castIn lowVoteBlock = [⟨owner, marketDecision, 0⟩] from rfl, List.mem_singleton] at hc
  rw [hc]

theorem low_vote_judged_by_equality :
    ∃ s s', Chain chainLibrary marketConfig sampleBundleLib (fun _ _ => True) (fun _ _ => True)
        (scaledBlocks.reverse ++ [blockAt 0 []]) s ∧
      applyBlock chainLibrary marketConfig emptyArchive s lowVoteBlock = .ok s' ∧
      ((owner ∈ (findCorrectVoters s' [(marketDecision, 3 / 100)]
          [(marketDecision, scaledDecision)] marketDecision).map Prod.fst ↔
        Near 0 (3 / 100)) ↔ OffEnds 0 (3 / 100)) := by
  obtain ⟨s, s', hbefore, hafter, hdecision, hrep, -⟩ := lowVoteRun_ok
  have hchain := chain_of_runBlocks hbefore
  have hcast : (⟨owner, marketDecision, 0⟩ : CastVote Rat) ∈ castIn lowVoteBlock :=
    List.mem_singleton.mpr rfl
  exact ⟨s, s', hchain, hafter, counted_by_distance_iff hchain hafter hcast value_of_lowVote
    hdecision rfl .refl rfl hrep rfl rfl⟩

/-- A vote for the low end is accepted and near the outcome, and the voter is not counted. -/
theorem low_vote_not_counted :
    ∃ s s', Chain chainLibrary marketConfig sampleBundleLib (fun _ _ => True) (fun _ _ => True)
        (scaledBlocks.reverse ++ [blockAt 0 []]) s ∧
      applyBlock chainLibrary marketConfig emptyArchive s lowVoteBlock = .ok s' ∧
      ⟨owner, marketDecision, 0⟩ ∈ castIn lowVoteBlock ∧
      (s.decisions.getDecisionEntry marketDecision).bind DecisionEntry.decision =
        some scaledDecision ∧
      scaledDecision.isScaled = true ∧ 0 < getReputation s'.reputation owner ∧
      ¬ (owner ∈ (findCorrectVoters s' [(marketDecision, 3 / 100)]
          [(marketDecision, scaledDecision)] marketDecision).map Prod.fst ↔
        Near 0 (3 / 100)) := by
  obtain ⟨s, s', hbefore, hafter, hdecision, hrep, hnone⟩ := lowVoteRun_ok
  refine ⟨s, s', chain_of_runBlocks hbefore, hafter, List.mem_singleton.mpr rfl, hdecision, rfl,
    hrep, ?_⟩
  rw [hnone, List.map_nil]
  exact fun hiff => List.not_mem_nil (hiff.mpr near_low)

end Truthcoin.ScaledVotes
