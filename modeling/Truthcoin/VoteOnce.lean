import Truthcoin.VoteRecords
import Truthcoin.ClaimOnce

/-!
# Recorded votes

A vote is rejected if an earlier block has recorded one of the same voter on the same
decision. Votes of one block are not compared with each other, and the last one is
recorded, so the votes of a block are recorded as they were cast exactly when those of
one voter on one decision agree.
-/

namespace Truthcoin.VoteOnce

open Truthcoin.Types Truthcoin.Table Truthcoin.Fallible Truthcoin.Decisions Truthcoin.Voting
open Truthcoin.Blocks Truthcoin.Connect Truthcoin.ConnectTrace Truthcoin.BlockRun
open Truthcoin.DecisionStates Truthcoin.VoteRecords Truthcoin.ClaimOnce Truthcoin.Commitments
open Truthcoin.SampleChain Truthcoin.SampleMarkets

variable {F : Type} [F64 F]

section

variable {L : Library F} {config : DecisionConfig} {genesisTs height : Nat}

theorem votes_of_commitConsensusResult {tables tables' : ConsensusTables F}
    {result : ConsensusResult F} {entry : ConsensusUndoEntry F}
    (h : commitConsensusResult tables result = .ok (tables', entry)) :
    tables'.voting.votes = tables.voting.votes := by
  simp only [commitConsensusResult, bind_eq_ok_iff, Except.ok.injEq, Prod.mk.injEq] at h
  obtain ⟨_, -, _, -, decisions, -, rfl, -⟩ := h
  refine List.foldlRecOn (motive := fun voting : VotingDatabases F =>
    voting.votes = tables.voting.votes) _ _ rfl ?_
  exact fun voting hvoting outcome _ => hvoting

theorem votes_of_resolvePeriods {periods : List (Nat × List DecisionId)}
    {acc acc' : ConsensusTables F × List (ConsensusUndoEntry F)}
    (h : periods.foldlM (resolvePeriod L config genesisTs height) acc = .ok acc') :
    acc'.1.voting.votes = acc.1.voting.votes := by
  refine foldlM_preserves (P := fun a : ConsensusTables F × List (ConsensusUndoEntry F) =>
    a.1.voting.votes = acc.1.voting.votes) ?_ h rfl
  rintro period - a a' hsame hstep
  simp only [resolvePeriod, calculateAndStoreConsensus, bind_eq_ok_iff, Except.ok.injEq] at hstep
  obtain ⟨_, -, ⟨tables, entry⟩, ⟨result, -, hcommit⟩, rfl⟩ := hstep
  cases result with
  | none =>
      obtain ⟨rfl, -⟩ := Prod.mk.inj (Except.ok.inj hcommit)
      exact hsame
  | some result =>
      obtain ⟨⟨tables', entry'⟩, hresult, hpair⟩ := bind_eq_ok_iff.mp hcommit
      obtain ⟨rfl, -⟩ := Prod.mk.inj (Except.ok.inj hpair)
      exact (votes_of_commitConsensusResult hresult).trans hsame

end

/-- The votes of one voter on one decision in a block agree on the value that is stored. -/
def VotesAgree (s : State F) (block : Block F) : Prop :=
  ∀ c ∈ castIn block, ∀ c' ∈ castIn block, c.key = c'.key →
    storedValue s.decisions c = storedValue s.decisions c'

section

variable [DecidableEq F] {L : Library F} {config : DecisionConfig} {archive : Archive}
  {s s' : State F} {block : Block F}

/-- A stored vote is one from before the block for which the block has none, or one of the
votes of the block, for which there was none. -/
theorem lookup_applyBlock (h : applyBlock L config archive s block = .ok s')
    (key : VoteMatrixKey) :
    ((∀ c ∈ castIn block,
          VotingDatabases.voteKey c.decisionId.votingPeriod c.voter c.decisionId ≠ key) ∧
        s'.voting.votes[key]? = s.voting.votes[key]?) ∨
      ∃ c ∈ castIn block, Votable s c ∧
        VotingDatabases.voteKey c.decisionId.votingPeriod c.voter c.decisionId = key ∧
        ∃ entry, s'.voting.votes[key]? = some entry ∧
          entry.value = storedValue s.decisions c := by
  obtain ⟨t, ht, rfl⟩ := connects_of_applyBlock h
  have hvotes : (t.finished L block).voting.votes = (t.applied.update.voteSubmissions.foldl
      VotingDatabases.putVote s.voting).votes := by
    rw [finished_voting ht, votes_of_resolvePeriods ht.tables]
    simp only [Trace.changed]
    rw [applied_eq ht.applied]
  rw [hvotes]
  rcases lookup_putVotes_cases t.applied.update.voteSubmissions s.voting key with
    ⟨hnone, hsame⟩ | ⟨vote, hvote, hkey, hlookup⟩
  · refine .inl ⟨?_, hsame⟩
    intro c hc heq
    obtain ⟨vote, hvote, hsubmitted⟩ := exists_submitted ht.toPrepares hc
    obtain ⟨c', -, -, hfor⟩ := submittedFor_of_prepares ht.toPrepares vote hvote
    have hvoter : vote.voterAddress = c.voter := congrArg Prod.fst hsubmitted
    have hdecision : vote.decisionId = c.decisionId := congrArg Prod.snd hsubmitted
    have hperiod : vote.periodId = c.decisionId.votingPeriod := by
      rw [hfor.period, ← hdecision]
      exact congrArg DecisionId.votingPeriod (congrArg Prod.snd hfor.key).symm
    refine hnone vote hvote ?_
    rw [voteKeyOf, hvoter, hdecision, hperiod, heq]
  · obtain ⟨c, hc, hvotable, hfor⟩ := submittedFor_of_prepares ht.toPrepares vote hvote
    have hvoter : vote.voterAddress = c.voter := congrArg Prod.fst hfor.key
    have hdecision : vote.decisionId = c.decisionId := congrArg Prod.snd hfor.key
    refine .inr ⟨c, hc, hvotable, ?_, entryOf vote, hlookup, hfor.value⟩
    rw [← hkey, voteKeyOf, hvoter, hdecision, hfor.period]

theorem keeps_votes (h : applyBlock L config archive s block = .ok s') {key : VoteMatrixKey}
    {entry : VoteMatrixEntry F} (hentry : s.voting.votes[key]? = some entry) :
    s'.voting.votes[key]? = some entry := by
  rcases lookup_applyBlock h key with ⟨-, hsame⟩ | ⟨c, -, hvotable, rfl, -⟩
  · rw [hsame, hentry]
  · have hnone := hvotable.unvoted
    rw [CastVote.lookup, VotingDatabases.getVote, hentry] at hnone
    cases hnone

omit [F64 F] [DecidableEq F] in
theorem voteKey_inj {c c' : CastVote F}
    (h : VotingDatabases.voteKey c.decisionId.votingPeriod c.voter c.decisionId =
      VotingDatabases.voteKey c'.decisionId.votingPeriod c'.voter c'.decisionId) :
    c.key = c'.key := by
  simp only [VotingDatabases.voteKey, VoteMatrixKey.mk.injEq] at h
  rw [CastVote.key, CastVote.key, h.2.1, h.2.2]

theorem records_votes (hagree : VotesAgree s block)
    (h : applyBlock L config archive s block = .ok s') {c : CastVote F} (hc : c ∈ castIn block) :
    (∃ entry, c.lookup s'.voting = some entry ∧ entry.value = storedValue s.decisions c) ∧
      Votable s c := by
  rcases lookup_applyBlock h
      (VotingDatabases.voteKey c.decisionId.votingPeriod c.voter c.decisionId) with
    ⟨hnone, -⟩ | ⟨c', hc', hvotable, hkey, entry, hentry, hvalue⟩
  · exact absurd rfl (hnone c hc)
  · have hsame := voteKey_inj hkey
    refine ⟨⟨entry, hentry, hvalue.trans (hagree c' hc' c hc hsame)⟩, ?_⟩
    have hdecision : c'.decisionId = c.decisionId := congrArg Prod.snd hsame
    have hvoter : c'.voter = c.voter := congrArg Prod.fst hsame
    obtain ⟨hvoting, hunvoted, hentry'⟩ := hvotable
    rw [CastVote.lookup, hdecision, hvoter] at hunvoted
    exact ⟨hdecision ▸ hvoting, hunvoted, hdecision ▸ hentry'⟩

variable {lib : WithdrawalBundle.BundleLib} {okPeg : State F → TwoWayPegData → Prop}
  {chain : List (Block F)}

/-- Every vote of a chain is stored with its own value. -/
def Stored (chain : List (Block F)) (s : State F) : Prop :=
  ∀ block ∈ chain, ∀ c ∈ castIn block,
    (∃ entry, c.lookup s.voting = some entry ∧ entry.value = storedValue s.decisions c) ∧
      ∃ entry, s.decisions.getDecisionEntry c.decisionId = some entry

theorem Stored.applyBlock (hentries : ClaimedEntries s.decisions) (hs : Stored chain s)
    (hagree : VotesAgree s block) (h : applyBlock L config archive s block = .ok s') :
    Stored (block :: chain) s' := by
  obtain ⟨hentries', hadds⟩ := addsClaims_of_applyBlock hentries h
  have hvalue : ∀ {c : CastVote F} {entry : DecisionEntry F},
      s.decisions.getDecisionEntry c.decisionId = some entry →
        storedValue s'.decisions c = storedValue s.decisions c := by
    intro c entry hentry
    rw [storedValue, hadds.keeps hentries hentries' hentry, storedValue, hentry]
  intro b hb c hc
  rcases List.mem_cons.mp hb with rfl | hb
  · obtain ⟨⟨vote, hvote, hstored⟩, hvotable⟩ := records_votes hagree h hc
    obtain ⟨entry, hentry⟩ := hvotable.entry
    refine ⟨⟨vote, hvote, hstored.trans (hvalue hentry).symm⟩, entry, ?_⟩
    exact hadds.keeps hentries hentries' hentry
  · obtain ⟨⟨vote, hvote, hstored⟩, entry, hentry⟩ := hs b hb c hc
    refine ⟨⟨vote, keeps_votes h hvote, hstored.trans (hvalue hentry).symm⟩, entry, ?_⟩
    exact hadds.keeps hentries hentries' hentry

omit [F64 F] [DecidableEq F] in
theorem voting_of_connectTwoWayPegData {data : TwoWayPegData}
    (h : s.connectTwoWayPegData lib data = .ok s') : s'.voting = s.voting := by
  obtain ⟨p, -, h⟩ := bind_eq_ok_iff.mp h
  rw [← Except.ok.inj h]

theorem stored_of_chain (h : Chain L config lib VotesAgree okPeg chain s) : Stored chain s := by
  induction h with
  | start => exact fun block hblock => absurd hblock List.not_mem_nil
  | connect archive hchain hok h ih =>
      exact ih.applyBlock (recorded_of_chain hchain).entries hok h
  | connectPeg hchain _ h ih =>
      intro block hblock c hc
      rw [CastVote.lookup, voting_of_connectTwoWayPegData h, storedValue,
        decisions_of_connectTwoWayPegData h]
      exact ih block hblock c hc

theorem votes_of_extends (h : Extends L config lib s s') {key : VoteMatrixKey}
    {entry : VoteMatrixEntry F} (hentry : s.voting.votes[key]? = some entry) :
    s'.voting.votes[key]? = some entry := by
  induction h with
  | refl => exact hentry
  | connect archive _ h ih => exact keeps_votes h ih
  | connectPeg _ h ih =>
      rw [voting_of_connectTwoWayPegData h]
      exact ih

/-- Over every chain of blocks whose votes agree, what is stored for a vote is the value that
its own transaction cast, and no further block changes what is stored. -/
theorem votes_kept_of_chain (h : Chain L config lib VotesAgree okPeg chain s) :
    (∀ block ∈ chain, ∀ tx ∈ block.body.transactions, ∀ c ∈ castVotes tx,
        ∃ entry, s.voting.getVote c.decisionId.votingPeriod c.voter c.decisionId = some entry ∧
          entry.value = storedValue s.decisions c) ∧
      ∀ s', Extends L config lib s s' → ∀ period voter d entry,
        s.voting.getVote period voter d = some entry →
          s'.voting.getVote period voter d = some entry := by
  constructor
  · intro block hblock tx htx c hc
    exact (stored_of_chain h block hblock c (List.mem_flatMap.mpr ⟨tx, htx, hc⟩)).1
  · intro s' hextends period voter d entry hentry
    exact votes_of_extends hextends hentry

end

/-- A vote of the owner on a decision. -/
def votingOn (deposit : Nat) (d : DecisionId) (value : Rat) : Transaction Rat :=
  spending deposit [] (.submitVote ⟨owner, d, value, d.votingPeriod⟩)

def voting (deposit : Nat) (value : Rat) : Transaction Rat :=
  votingOn deposit marketDecision value

/-- The decision is claimed and, once it is in voting, voted on. -/
def votingBlocks (txs : List (Transaction Rat)) : List (Block Rat) :=
  [blockAt 1 [claiming 0 marketDecision], blockAt 2 [], blockAt 3 txs]

/-- The second standard slot of period 1. -/
def secondDecision : DecisionId := marketDecision + 1

/-- Both decisions are voted on, the first one twice. -/
def agreeingBlock : Block Rat :=
  blockAt 3 [votingOn 2 marketDecision 1, votingOn 3 secondDecision 0, votingOn 4 marketDecision 1]

def agreeingBlocks : List (Block Rat) :=
  [blockAt 1 [claiming 0 marketDecision, claiming 1 secondDecision], blockAt 2 [], agreeingBlock]

theorem votesAgree_of_agreeingBlocks {block : Block Rat}
    (hblock : block ∈ blockAt 0 [] :: agreeingBlocks) (s : State Rat) : VotesAgree s block := by
  have hcast : castIn block ⊆ [⟨owner, marketDecision, 1⟩, ⟨owner, secondDecision, 0⟩] := by
    simp only [agreeingBlocks, List.mem_cons, List.not_mem_nil, or_false] at hblock
    rcases hblock with rfl | rfl | rfl | rfl
    · exact List.nil_subset _
    · exact List.nil_subset _
    · exact List.nil_subset _
    · have hblock : castIn agreeingBlock = [⟨owner, marketDecision, 1⟩,
        ⟨owner, secondDecision, 0⟩, ⟨owner, marketDecision, 1⟩] := rfl
      simp [hblock]
  intro c hc c' hc' hkey
  have hsame : c = c' := by
    have hmem := hcast hc
    have hmem' := hcast hc'
    simp only [List.mem_cons, List.not_mem_nil, or_false] at hmem hmem'
    rcases hmem with rfl | rfl <;> rcases hmem' with rfl | rfl
    · rfl
    · exact absurd hkey (by decide)
    · exact absurd hkey (by decide)
    · rfl
  rw [hsame]

theorem votes_kept_of_agreeing :
    ∃ s s', Chain chainLibrary marketConfig sampleBundleLib VotesAgree (fun _ _ => True)
        (agreeingBlocks.reverse ++ [blockAt 0 []]) s ∧
      applyBlock chainLibrary marketConfig emptyArchive s (blockAt 4 []) = .ok s' ∧
      ∃ entry, s'.voting.getVote 2 owner marketDecision = some entry ∧
        entry.value = storedValue s.decisions ⟨owner, marketDecision, 1⟩ := by
  have hcomputed : holds (runBlocks marketConfig 5 agreeingBlocks) (fun s =>
      holds (applyBlock chainLibrary marketConfig emptyArchive s (blockAt 4 []))
        fun _ => true) = true := by
    decide +kernel
  obtain ⟨s, hrun, hnext⟩ := holds_iff.mp hcomputed
  obtain ⟨s', hnext, -⟩ := holds_iff.mp hnext
  have hchain := chain_of_runBlocks_ok (fun _ hblock => votesAgree_of_agreeingBlocks hblock) hrun
  obtain ⟨hstored, hkept⟩ := votes_kept_of_chain hchain
  have hblock : agreeingBlock ∈ agreeingBlocks.reverse ++ [blockAt 0 []] := by
    simp [agreeingBlocks]
  have htx : votingOn 2 marketDecision 1 ∈ agreeingBlock.body.transactions :=
    List.mem_cons_self
  obtain ⟨entry, hentry, hvalue⟩ := hstored _ hblock _ htx _ (List.mem_singleton.mpr rfl)
  exact ⟨s, s', hchain, hnext, entry,
    hkept s' (Extends.refl.connect emptyArchive hnext) _ _ _ _ hentry, hvalue⟩

/-- A second vote in the same block replaces the first one. -/
theorem second_vote_replaces_first :
    ∃ s, Chain chainLibrary marketConfig sampleBundleLib (fun _ _ => True) (fun _ _ => True)
        ((votingBlocks [voting 1 0, voting 2 1]).reverse ++ [blockAt 0 []]) s ∧
      ⟨owner, marketDecision, 0⟩ ∈ castVotes (voting 1 0) ∧
      ¬ ∃ entry, s.voting.getVote 2 owner marketDecision = some entry ∧
        entry.value = storedValue s.decisions ⟨owner, marketDecision, 0⟩ := by
  have hcomputed : holds (runBlocks marketConfig 3 (votingBlocks [voting 1 0, voting 2 1]))
      (fun s => decide ((s.voting.getVote 2 owner marketDecision).map VoteMatrixEntry.value =
          some (.binary true)) &&
        decide (storedValue s.decisions ⟨owner, marketDecision, 0⟩ = .binary false)) = true := by
    decide +kernel
  obtain ⟨s, hrun, htest⟩ := holds_iff.mp hcomputed
  simp only [Bool.and_eq_true, decide_eq_true_eq] at htest
  obtain ⟨hsecond, hfirst⟩ := htest
  refine ⟨s, chain_of_runBlocks hrun, List.mem_singleton.mpr rfl, ?_⟩
  rintro ⟨entry, hentry, hvalue⟩
  rw [hentry, Option.map_some, hvalue, hfirst] at hsecond
  cases hsecond

end Truthcoin.VoteOnce
