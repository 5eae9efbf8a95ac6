import Truthcoin.OracleCounts
import Truthcoin.ReputationConserved
import Truthcoin.SampleChain
import Truthcoin.VoteRecords

/-!
# Closing voting periods

When a voting period closes, the votes of the period are counted with the reputations
of that moment. A voter may have voted and then given all reputation away: the matrix
of the votes has no row for such a voter, and the block that closes the period is
rejected. So is one that counts the reputations of so many holders that rounding adds more
to them than one holder can give back.
-/

namespace Truthcoin.PeriodClose

open Truthcoin.Types Truthcoin.Table Truthcoin.Fallible Truthcoin.Arithmetic
open Truthcoin.Decisions Truthcoin.Markets Truthcoin.Voting Truthcoin.Blocks
open Truthcoin.Validation Truthcoin.Apply Truthcoin.ApplySteps Truthcoin.Connect
open Truthcoin.ConnectTrace Truthcoin.BlockChecks Truthcoin.BlockRun Truthcoin.PricingRun
open Truthcoin.Reputation Truthcoin.DecisionStates Truthcoin.VoteRecords
open Truthcoin.ReputationTotal Truthcoin.Oracle Truthcoin.OracleCounts

/-- The total of all reputations is one, up to the tolerance of the code. -/
def Anchored (total : Rat) : Prop :=
  |total - 1| ≤ 1 / 10 ^ 6

/-- Two totals are the same up to the tolerance of the code. -/
def Conserved (total total' : Rat) : Prop :=
  |total' - total| ≤ 1 / 10 ^ 9

theorem conserved_self (total : Rat) : Conserved total total := by
  rw [Conserved, sub_self, abs_zero]
  norm_num

theorem anchored_of_conserved_one {total : Rat} (h : Conserved 1 total) : Anchored total :=
  h.trans (show (1 / 10 ^ 9 : Rat) ≤ 1 / 10 ^ 6 by norm_num)

/-- The condition under which a voting period can be closed: without votes the total of
the reputations must be one; with votes everybody who did not abstain must still have
reputation, one holder must be able to give back what rounding adds, and the total must be so
close to one that the tolerance for a new total does not lead away from it. Nothing is
required where nothing is counted: in a period with outcomes, and with votes but without
reputation. -/
def Closable (tables : ConsensusTables Rat) (votingPeriod : Nat) : Prop :=
  let reputations := getAllReputations tables.reputation
  let votes := tables.voting.getVotesForPeriod votingPeriod
  Unsettled tables.voting votingPeriod →
    (votes = [] → Anchored (totalReputation reputations)) ∧
    (votes ≠ [] → ¬ (reputations.isEmpty ∨ F64.le (totalReputation reputations) F64.zero = true) →
      (∀ row ∈ votes, row.2.value ≠ .abstain → row.1.voterAddress ∈ reputations) ∧
      Absorbable reputations ∧
      ∀ total, Conserved (totalReputation reputations) total → Anchored total)

section

variable {L : Library Rat} {config : DecisionConfig} {genesisTs height : Nat}

/-- Every period of a list can be closed in the tables that the periods before it
leave. -/
def EachClosable (L : Library Rat) (config : DecisionConfig) (genesisTs height : Nat) :
    List (Nat × List DecisionId) → ConsensusTables Rat × List (ConsensusUndoEntry Rat) → Prop
  | [], _ => True
  | p :: periods, acc => Closable acc.1 p.1 ∧
      ∀ acc', resolvePeriod L config genesisTs height acc p = .ok acc' →
        EachClosable L config genesisTs height periods acc'

theorem setVote_eq_ok {row : VoteMatrixKey × VoteMatrixEntry Rat}
    {matrix matrix' : SparseVoteMatrix Rat} (h : setVote matrix row = .ok matrix') :
    matrix'.voters = matrix.voters ∧ matrix'.decisions = matrix.decisions := by
  unfold setVote at h
  split at h
  · rw [← Except.ok.inj h]
    exact ⟨rfl, rfl⟩
  · simp only [bind_eq_ok_iff, Except.ok.injEq] at h
    obtain ⟨_, -, _, -, rfl⟩ := h
    exact ⟨rfl, rfl⟩

theorem foldlM_setVote_eq_ok {rows : List (VoteMatrixKey × VoteMatrixEntry Rat)}
    {matrix matrix' : SparseVoteMatrix Rat} (h : rows.foldlM setVote matrix = .ok matrix') :
    matrix'.voters = matrix.voters ∧ matrix'.decisions = matrix.decisions := by
  refine foldlM_preserves (P := fun m : SparseVoteMatrix Rat =>
    m.voters = matrix.voters ∧ m.decisions = matrix.decisions) ?_ h ⟨rfl, rfl⟩
  intro row _ m m' hm hstep
  obtain ⟨hvoters, hdecisions⟩ := setVote_eq_ok hstep
  exact ⟨hvoters.trans hm.1, hdecisions.trans hm.2⟩

theorem foldlM_setVote_ok {rows : List (VoteMatrixKey × VoteMatrixEntry Rat)}
    {matrix : SparseVoteMatrix Rat}
    (hrows : ∀ row ∈ rows, row.2.value ≠ .abstain →
      row.1.voterAddress ∈ matrix.voters ∧ row.1.decisionId ∈ matrix.decisions) :
    ∃ filled, rows.foldlM setVote matrix = .ok filled := by
  refine foldlM_succeeds (I := fun rest m => ∀ row ∈ rest, row.2.value ≠ .abstain →
    row.1.voterAddress ∈ m.voters ∧ row.1.decisionId ∈ m.decisions) ?_ hrows
  intro row rest m hm
  obtain ⟨m', hstep⟩ : ∃ m', setVote m row = .ok m' := by
    unfold setVote
    cases hvalue : row.2.value.toFloatOpt with
    | none => exact ⟨m, rfl⟩
    | some value =>
        have hcast : row.2.value ≠ .abstain := by
          intro habstain
          rw [habstain] at hvalue
          cases hvalue
        obtain ⟨hvoter, hdecision⟩ := hm row (by simp) hcast
        simp [ensure_pos hvoter, ensure_pos hdecision]
  obtain ⟨hvoters, hdecisions⟩ := setVote_eq_ok hstep
  refine ⟨m', hstep, ?_⟩
  rw [hvoters, hdecisions]
  exact fun row' hrow' => hm row' (by simp [hrow'])

/-- A stored vote that counts as a number which is not negative. -/
def Ranged (entry : VoteMatrixEntry Rat) : Prop :=
  ∀ value, entry.value.toFloatOpt = some value → 0 ≤ value

theorem entry_nonneg_of_setVotes {rows : List (VoteMatrixKey × VoteMatrixEntry Rat)}
    {matrix matrix' : SparseVoteMatrix Rat} (hranged : ∀ row ∈ rows, Ranged row.2)
    (h : rows.foldlM setVote matrix = .ok matrix')
    (hentries : ∀ entry ∈ matrix.entries, 0 ≤ entry.2) :
    ∀ entry ∈ matrix'.entries, 0 ≤ entry.2 := by
  refine foldlM_preserves (P := fun m : SparseVoteMatrix Rat =>
    ∀ entry ∈ m.entries, 0 ≤ entry.2) ?_ h hentries
  intro row hrow m m' hm hstep
  unfold setVote at hstep
  cases hvalue : row.2.value.toFloatOpt with
  | none =>
      rw [hvalue] at hstep
      rwa [← Except.ok.inj hstep]
  | some value =>
      simp only [hvalue, bind_eq_ok_iff, Except.ok.injEq] at hstep
      obtain ⟨_, -, _, -, rfl⟩ := hstep
      intro entry hentry
      rcases List.mem_append.mp hentry with hold | hnew
      · exact hm entry hold
      · rw [List.mem_singleton.mp hnew]
        exact hranged row hrow value hvalue

/-- The result of a period has one outcome for each decision of the period. -/
structure Exact (period : VotingPeriod) (result : ConsensusResult Rat) : Prop where
  decisions : (result.decisionResolutions.map DecisionResolutionEntry.decisionId).Perm
    period.decisionIds
  outcomes : result.decisionOutcomes.map DecisionOutcome.decisionId =
    result.decisionResolutions.map DecisionResolutionEntry.decisionId
  periods : ∀ outcome ∈ result.decisionOutcomes, outcome.periodId = period.id
  inRange : ∀ resolution ∈ result.decisionResolutions, 0 ≤ resolution.outcomeValue

variable {prinComp : PrinComp} {tables tables' : ConsensusTables Rat} {period : VotingPeriod}
  {result : ConsensusResult Rat}

theorem exact_of_outcomes {outcomes : List (DecisionOutcome Rat)}
    (hresult : result.decisionOutcomes = outcomes)
    (hresolutions : result.decisionResolutions = outcomes.map resolutionOf)
    (hdecisions : (outcomes.map DecisionOutcome.decisionId).Perm period.decisionIds)
    (houtcomes : ∀ outcome ∈ outcomes, outcome.periodId = period.id ∧
      0 ≤ outcome.outcomeValue) : Exact period result := by
  refine ⟨?_, ?_, ?_, ?_⟩
  · rw [hresolutions, map_resolutionOf]
    exact hdecisions
  · rw [hresult, hresolutions, map_resolutionOf]
  · rw [hresult]
    exact fun outcome houtcome => (houtcomes outcome houtcome).1
  · rw [hresolutions]
    intro resolution hresolution
    obtain ⟨outcome, houtcome, rfl⟩ := List.mem_map.mp hresolution
    exact (houtcomes outcome houtcome).2

theorem perm_voted_unvoted {ids voted : List DecisionId} (hperm : voted.Perm ids) :
    (voted ++ ids.filter fun d => d ∉ voted).Perm ids := by
  have hnone : (ids.filter fun d => d ∉ voted) = [] := by
    rw [List.filter_eq_nil_iff]
    intro d hd
    simpa using hperm.mem_iff.mpr hd
  rw [hnone, List.append_nil]
  exact hperm

section

variable {voting : VotingDatabases Rat} {db : Dbs Rat} {reputations : Table Address Rat}
  {allVotes : List (VoteMatrixKey × VoteMatrixEntry Rat)}

theorem half_nonneg : (0 : Rat) ≤ F64.ofRat (1 / 2) := by
  show (0 : Rat) ≤ 1 / 2
  norm_num

theorem exact_of_computeVotedConsensus (hranged : ∀ row ∈ allVotes, Ranged row.2)
    (h : computeVotedConsensus (calculateConsensus prinComp) voting db reputations period allVotes
      height = .ok result) : Exact period result := by
  simp only [computeVotedConsensus, bind_eq_ok_iff, okOr_eq_ok_iff, Except.ok.injEq] at h
  obtain ⟨matrix, hmatrix, detailed, hdetailed, rfl⟩ := h
  obtain ⟨-, hdecisions⟩ := foldlM_setVote_eq_ok hmatrix
  have hentries := entry_nonneg_of_setVotes hranged hmatrix (by simp)
  have houtcomes := outcomes_of_calculateConsensus hdetailed
  refine exact_of_outcomes rfl rfl ?_ ?_
  · rw [List.map_append, List.map_map, List.map_map]
    have hperm : (detailed.outcomes.map Prod.fst).Perm period.decisionIds := by
      rw [houtcomes, hdecisions]
      exact List.perm_insertionSort _ _
    have hvoted := perm_voted_unvoted hperm
    simpa [Function.comp_def, votedOutcome, defaultOutcome] using hvoted
  · intro outcome houtcome
    rcases List.mem_append.mp houtcome with hvoted | hunvoted
    · obtain ⟨entry, hentry, rfl⟩ := List.mem_map.mp hvoted
      refine ⟨rfl, ?_⟩
      cases hvalue : entry.2 with
      | none =>
          rw [votedOutcome, hvalue]
          exact half_nonneg
      | some value =>
          rw [votedOutcome, hvalue]
          exact outcome_nonneg_of_calculateConsensus hentries hdetailed hentry hvalue
    · obtain ⟨d, -, rfl⟩ := List.mem_map.mp hunvoted
      exact ⟨rfl, half_nonneg⟩

theorem conserved_of_computeVotedConsensus (hpositive : Positive reputations)
    (habsorbable : Absorbable reputations)
    (h : computeVotedConsensus (calculateConsensus prinComp) voting db reputations period allVotes
      height = .ok result) :
    Conserved (totalReputation reputations)
      (totalReputation (computePostConsensusReputation reputations
        result.updatedReputations)) := by
  simp only [computeVotedConsensus, bind_eq_ok_iff, okOr_eq_ok_iff, Except.ok.injEq] at h
  obtain ⟨matrix, hmatrix, detailed, hdetailed, rfl⟩ := h
  obtain ⟨hvoters, -⟩ := foldlM_setVote_eq_ok hmatrix
  exact total_of_calculateConsensus hvoters hpositive habsorbable hdetailed

theorem computeVotedConsensus_ok (prinComp : PrinComp) (voting : VotingDatabases Rat)
    (db : Dbs Rat) (height : Nat) (hnonempty : reputations.isEmpty = false)
    (hne : period.decisionIds ≠ [])
    (hvotes : ∀ row ∈ allVotes, row.2.value ≠ .abstain →
      row.1.voterAddress ∈ reputations ∧ row.1.decisionId ∈ period.decisionIds) :
    ∃ result, computeVotedConsensus (calculateConsensus prinComp) voting db reputations period
      allVotes height = .ok result := by
  obtain ⟨matrix, hmatrix⟩ : ∃ filled, allVotes.foldlM setVote
      ⟨reputations.toList.map Prod.fst,
        period.decisionIds.insertionSort fun a b => a.toNat ≤ b.toNat, []⟩ = .ok filled := by
    refine foldlM_setVote_ok ?_
    intro row hrow hcast
    obtain ⟨hvoter, hdecision⟩ := hvotes row hrow hcast
    refine ⟨?_, (List.perm_insertionSort _ _).mem_iff.mpr hdecision⟩
    rw [Std.ExtTreeMap.map_fst_toList_eq_keys]
    exact Std.ExtTreeMap.mem_keys.mpr hvoter
  obtain ⟨hvoters, hdecisions⟩ := foldlM_setVote_eq_ok hmatrix
  have hvotersne : matrix.voters ≠ [] := by
    rw [hvoters]
    simpa [Std.ExtTreeMap.map_fst_toList_eq_keys, ← Std.ExtTreeMap.isEmpty_keys] using hnonempty
  have hdecisionsne : matrix.decisions ≠ [] := by
    rw [hdecisions]
    intro hempty
    exact hne (List.eq_nil_of_length_eq_zero
      ((List.length_insertionSort _ _).symm.trans (congrArg List.length hempty)))
  unfold computeVotedConsensus
  simp only [hmatrix, ok_bind]
  obtain ⟨detailed, hdetailed⟩ := calculateConsensus_isSome prinComp reputations _ _ hvotersne
    hdecisionsne
  rw [hdetailed]
  exact ⟨_, rfl⟩

end

theorem exact_of_computeConsensus
    (hranged : ∀ row ∈ tables.voting.getVotesForPeriod period.id, Ranged row.2)
    {computed : Option (ConsensusResult Rat)}
    (h : computeConsensus (calculateConsensus prinComp) tables.voting tables.decisions
      tables.reputation period height = .ok computed) (hresult : computed = some result) :
    Exact period result := by
  subst hresult
  unfold computeConsensus at h
  split at h
  · cases h
  dsimp only at h
  split at h
  · obtain rfl := Option.some.inj (Except.ok.inj h)
    refine exact_of_outcomes rfl rfl ?_ ?_
    · rw [List.map_map]
      simp [Function.comp_def, defaultOutcome]
    · intro outcome houtcome
      obtain ⟨d, -, rfl⟩ := List.mem_map.mp houtcome
      exact ⟨rfl, half_nonneg⟩
  · split at h
    · cases h
    · obtain ⟨result', hresult', h⟩ := bind_eq_ok_iff.mp h
      obtain rfl := Option.some.inj (Except.ok.inj h)
      exact exact_of_computeVotedConsensus hranged hresult'

/-- The count of a period that can be closed succeeds, and a commit of its result keeps
the total of the reputations. -/
theorem computeConsensus_ok (prinComp : PrinComp) (period : VotingPeriod) (height : Nat)
    (hne : period.decisionIds ≠ []) (hclosable : Closable tables period.id)
    (hvotes : Unsettled tables.voting period.id →
      ∀ row ∈ tables.voting.getVotesForPeriod period.id, row.1.decisionId ∈ period.decisionIds) :
    ∃ computed, computeConsensus (calculateConsensus prinComp) tables.voting tables.decisions
        tables.reputation period height = .ok computed ∧
      ∀ result, computed = some result →
        verifyReputationConservation (getAllReputations tables.reputation)
          (computePostConsensusReputation (getAllReputations tables.reputation)
            result.updatedReputations) = .ok () := by
  unfold computeConsensus
  split
  · exact ⟨none, rfl, by simp⟩
  rename_i houtcomes
  have hunsettled : Unsettled tables.voting period.id := by simpa [Unsettled] using houtcomes
  obtain ⟨hempty, hvoted⟩ := hclosable hunsettled
  dsimp only
  split
  · rename_i hnone
    refine ⟨_, rfl, ?_⟩
    rintro result ⟨⟩
    exact verified_iff.mpr ⟨conserved_self _, hempty (List.isEmpty_iff.mp hnone)⟩
  · rename_i hsome
    split
    · exact ⟨none, rfl, by simp⟩
    · rename_i hreputations
      obtain ⟨hvoters, habsorbable, hstable⟩ := hvoted (by simpa using hsome) hreputations
      rw [not_or] at hreputations
      have hnonempty : (getAllReputations tables.reputation).isEmpty = false := by
        simpa using hreputations.1
      obtain ⟨result, hresult⟩ := computeVotedConsensus_ok prinComp tables.voting
        tables.decisions height hnonempty hne
        fun row hrow hcast => ⟨hvoters row hrow hcast, hvotes hunsettled row hrow⟩
      refine ⟨some result, by rw [hresult]; rfl, ?_⟩
      rintro result' ⟨⟩
      have hconserved := conserved_of_computeVotedConsensus (positive_getAllReputations _)
        habsorbable hresult
      exact verified_iff.mpr ⟨hconserved, hstable _ hconserved⟩

theorem history_of_voting {db : Dbs Rat} {d : DecisionId}
    (h : db.getDecisionCurrentState d = .voting) :
    ∃ history, db.getDecisionStateHistory d = some history ∧ history.currentState = .voting := by
  unfold Dbs.getDecisionCurrentState at h
  cases hhistory : db.getDecisionStateHistory d with
  | none => simp [hhistory] at h
  | some history => exact ⟨history, rfl, by simpa [hhistory] using h⟩

theorem transitionDecisionToResolved_ok (height : Nat) {db : Dbs Rat} {d : DecisionId} {value : Rat}
    (hvoting : db.getDecisionCurrentState d = .voting) (hvalue : 0 ≤ value) :
    ∃ db', db.transitionDecisionToResolved d height value = .ok db' := by
  obtain ⟨history, hhistory, hstate⟩ := history_of_voting hvoting
  have hcan : history.currentState.canTransitionTo .resolved = true := by
    rw [hstate]
    rfl
  have hrange : F64.lt value (F64.ofRat (-1)) = false :=
    lt_rat_false.mpr (show (-1 : Rat) ≤ value by linarith)
  simp [Dbs.transitionDecisionToResolved, DecisionStateHistory.transitionToResolved, hhistory,
    ensure_pos hcan, ensure_pos hrange]

theorem foldlM_transitionDecisionToResolved_ok (height : Nat)
    {resolutions : List (DecisionResolutionEntry Rat)} {db : Dbs Rat}
    (hnodup : (resolutions.map DecisionResolutionEntry.decisionId).Nodup)
    (hready : ∀ r ∈ resolutions,
      db.getDecisionCurrentState r.decisionId = .voting ∧ 0 ≤ r.outcomeValue) :
    ∃ db', resolutions.foldlM
      (fun db r => db.transitionDecisionToResolved r.decisionId height r.outcomeValue) db =
        .ok db' := by
  refine foldlM_succeeds (I := fun rest (db : Dbs Rat) =>
    (rest.map DecisionResolutionEntry.decisionId).Nodup ∧
      ∀ r ∈ rest, db.getDecisionCurrentState r.decisionId = .voting ∧ 0 ≤ r.outcomeValue) ?_
    ⟨hnodup, hready⟩
  rintro r rest db ⟨hnodup, hready⟩
  obtain ⟨hvoting, hvalue⟩ := hready r (by simp)
  obtain ⟨db', hstep⟩ := transitionDecisionToResolved_ok height hvoting hvalue
  rw [List.map_cons, List.nodup_cons] at hnodup
  refine ⟨db', hstep, hnodup.2, ?_⟩
  intro r' hr'
  have hne : r'.decisionId ≠ r.decisionId := by
    intro heq
    exact hnodup.1 (heq ▸ List.mem_map_of_mem hr')
  rw [currentState_of_transitionDecisionToResolved hstep, if_neg hne]
  exact hready r' (by simp [hr'])

theorem commitConsensusResult_ok (hexact : Exact period result)
    (hnodup : period.decisionIds.Nodup)
    (hvoting : ∀ d ∈ period.decisionIds, tables.decisions.getDecisionCurrentState d = .voting)
    (hverified : verifyReputationConservation (getAllReputations tables.reputation)
      (computePostConsensusReputation (getAllReputations tables.reputation)
        result.updatedReputations) = .ok ()) :
    ∃ out, commitConsensusResult tables result = .ok out := by
  have hready : ∀ r ∈ result.decisionResolutions,
      tables.decisions.getDecisionCurrentState r.decisionId = .voting := fun r hr =>
    hvoting _ (hexact.decisions.mem_iff.mp (List.mem_map_of_mem hr))
  have hhistories : validateConsensusCommit tables.decisions result = .ok () := by
    simp only [validateConsensusCommit, forM_eq_ok_iff, ensure_eq_ok_iff]
    intro r hr
    obtain ⟨history, hhistory, -⟩ := history_of_voting (hready r hr)
    simp [hhistory]
  obtain ⟨db, hdb⟩ := foldlM_transitionDecisionToResolved_ok result.blockHeight
    (hexact.decisions.nodup_iff.mpr hnodup) fun r hr => ⟨hready r hr, hexact.inRange r hr⟩
  simp only [commitConsensusResult, hhistories, hverified, hdb, ok_bind]
  exact ⟨_, rfl⟩

/-- A period that closes with decisions in voting, and with votes on them only, none of
which counts as a negative number. -/
structure Ready (p : Nat × List DecisionId) (tables : ConsensusTables Rat) : Prop where
  nonempty : p.2 ≠ []
  nodup : p.2.Nodup
  period : ∀ d ∈ p.2, d.votingPeriod = p.1
  voting : ∀ d ∈ p.2, tables.decisions.getDecisionCurrentState d = .voting
  votes : Unsettled tables.voting p.1 →
    ∀ row ∈ tables.voting.getVotesForPeriod p.1, row.1.decisionId ∈ p.2
  ranged : ∀ row ∈ tables.voting.getVotesForPeriod p.1, Ranged row.2

theorem resolvePeriod_ok (hcalculate : L.calculateConsensus = calculateConsensus prinComp)
    (height : Nat) {p : Nat × List DecisionId}
    {acc : ConsensusTables Rat × List (ConsensusUndoEntry Rat)}
    (hready : Ready p acc.1) (hclosable : Closable acc.1 p.1) {bounds : Nat × Nat}
    (hbounds : calculatePeriodBoundaries config p.1 genesisTs = .ok bounds) :
    ∃ acc', resolvePeriod L config genesisTs height acc p = .ok acc' := by
  obtain ⟨computed, hcomputed, hverified⟩ := computeConsensus_ok prinComp
    ⟨p.1, bounds.1, bounds.2, p.2⟩ height hready.nonempty hclosable hready.votes
  simp only [resolvePeriod, calculateAndStoreConsensus, hcalculate, hbounds, hcomputed, ok_bind]
  cases hresult : computed with
  | none => exact ⟨_, rfl⟩
  | some result =>
      have hexact := exact_of_computeConsensus hready.ranged hcomputed hresult
      obtain ⟨⟨tables', entry⟩, hcommit⟩ := commitConsensusResult_ok hexact hready.nodup
        hready.voting (hverified result hresult)
      simp only [hcommit, ok_bind]
      exact ⟨_, rfl⟩

/-- What a close does to the votes, the decisions and the outcomes. -/
structure ClosedBy (p : Nat × List DecisionId) (tables tables' : ConsensusTables Rat) : Prop where
  votes : tables'.voting.votes = tables.voting.votes
  others : ∀ d ∉ p.2, tables'.decisions.getDecisionCurrentState d =
    tables.decisions.getDecisionCurrentState d
  decided : ∀ d ∈ p.2, tables'.decisions.getDecisionCurrentState d =
    tables.decisions.getDecisionCurrentState d ∨ ¬ Unsettled tables'.voting d.votingPeriod
  settled : ∀ votingPeriod, 0 < votingPeriod → ¬ Unsettled tables.voting votingPeriod →
    ¬ Unsettled tables'.voting votingPeriod

theorem lookup_putDecisionOutcomes (outcomes : List (DecisionOutcome Rat))
    (voting : VotingDatabases Rat) (d : DecisionId) :
    (d ∉ outcomes.map DecisionOutcome.decisionId ∧
        (outcomes.foldl VotingDatabases.putDecisionOutcome voting).decisionOutcomes[d]? =
          voting.decisionOutcomes[d]?) ∨
      ∃ outcome ∈ outcomes, outcome.decisionId = d ∧
        (outcomes.foldl VotingDatabases.putDecisionOutcome voting).decisionOutcomes[d]? =
          some outcome := by
  induction outcomes generalizing voting with
  | nil => exact .inl ⟨by simp, rfl⟩
  | cons outcome outcomes ih =>
      rcases ih (voting.putDecisionOutcome outcome) with ⟨hnone, hlookup⟩ | ⟨o, ho, hd, hlookup⟩
      · by_cases heq : outcome.decisionId = d
        · refine .inr ⟨outcome, by simp, heq, hlookup.trans ?_⟩
          rw [← heq]
          exact Std.ExtTreeMap.getElem?_insert_self
        · refine .inl ⟨by simpa [Ne.symm heq] using hnone, hlookup.trans ?_⟩
          simp only [VotingDatabases.putDecisionOutcome, Std.ExtTreeMap.getElem?_insert,
            Std.LawfulEqCmp.compare_eq_iff_eq, if_neg heq]
      · exact .inr ⟨o, by simp [ho], hd, hlookup⟩

theorem not_unsettled_iff {voting : VotingDatabases Rat} {votingPeriod : Nat}
    (hpos : 0 < votingPeriod) :
    ¬ Unsettled voting votingPeriod ↔ ∃ (d : DecisionId) (outcome : DecisionOutcome Rat),
      voting.decisionOutcomes[d]? = some outcome ∧ d.votingPeriod = votingPeriod ∧
        outcome.periodId = votingPeriod := by
  rw [unsettled_iff]
  push Not
  refine exists_congr fun d => exists_congr fun outcome => and_congr_right fun _ =>
    and_congr_left fun _ => ?_
  rw [DecisionId.votingPeriod]
  omega

theorem closedBy_of_commitConsensusResult (hexact : Exact period result)
    (hperiod : ∀ d ∈ period.decisionIds, d.votingPeriod = period.id)
    {entry : ConsensusUndoEntry Rat}
    (h : commitConsensusResult tables result = .ok (tables', entry)) :
    ClosedBy (period.id, period.decisionIds) tables tables' := by
  simp only [commitConsensusResult, bind_eq_ok_iff, Except.ok.injEq, Prod.mk.injEq] at h
  obtain ⟨_, -, _, -, decisions, hfold, rfl, -⟩ := h
  have hstates : ∀ d, decisions.getDecisionCurrentState d =
      if d ∈ result.decisionResolutions.map DecisionResolutionEntry.decisionId then .resolved
      else tables.decisions.getDecisionCurrentState d := by
    refine foldlM_sets ?_ hfold
    exact fun _ _ _ hstep => currentState_of_transitionDecisionToResolved hstep
  have hrecorded : ∀ outcome ∈ result.decisionOutcomes,
      outcome.decisionId.votingPeriod = period.id ∧ outcome.periodId = period.id := by
    intro outcome houtcome
    refine ⟨hperiod _ (hexact.decisions.mem_iff.mp ?_), hexact.periods outcome houtcome⟩
    rw [← hexact.outcomes]
    exact List.mem_map_of_mem houtcome
  refine ⟨?_, ?_, ?_, ?_⟩
  · refine List.foldlRecOn (motive := fun voting : VotingDatabases Rat =>
      voting.votes = tables.voting.votes) _ _ rfl ?_
    exact fun voting hvoting outcome _ => hvoting
  · intro d hd
    exact (hstates d).trans (if_neg fun hmem => hd (hexact.decisions.mem_iff.mp hmem))
  · intro d hd
    right
    rw [hperiod d hd, not_unsettled_iff (by rw [← hperiod d hd]; exact Nat.succ_pos _)]
    have hmem : d ∈ result.decisionOutcomes.map DecisionOutcome.decisionId := by
      rw [hexact.outcomes]
      exact hexact.decisions.mem_iff.mpr hd
    obtain ⟨hnone, -⟩ | ⟨outcome, houtcome, -, hlookup⟩ := lookup_putDecisionOutcomes
      result.decisionOutcomes (tables.voting.putPeriodStats result.periodStats) d
    · exact absurd hmem hnone
    · exact ⟨d, outcome, hlookup, hperiod d hd, (hrecorded outcome houtcome).2⟩
  · intro votingPeriod hpos hsettled
    rw [not_unsettled_iff hpos] at hsettled ⊢
    obtain ⟨d, outcome, hrow, hd, houtcome⟩ := hsettled
    obtain ⟨-, hlookup⟩ | ⟨outcome', houtcome', hd', hlookup⟩ := lookup_putDecisionOutcomes
      result.decisionOutcomes (tables.voting.putPeriodStats result.periodStats) d
    · exact ⟨d, outcome, hlookup.trans hrow, hd, houtcome⟩
    · obtain ⟨hvoting, hrecorded'⟩ := hrecorded outcome' houtcome'
      rw [hd'] at hvoting
      exact ⟨d, outcome', hlookup, hd, hrecorded'.trans (hvoting.symm.trans hd)⟩

theorem closedBy_of_resolvePeriod
    (hcalculate : L.calculateConsensus = calculateConsensus prinComp)
    {p : Nat × List DecisionId} {acc acc' : ConsensusTables Rat × List (ConsensusUndoEntry Rat)}
    (hperiod : ∀ d ∈ p.2, d.votingPeriod = p.1)
    (hranged : ∀ row ∈ acc.1.voting.getVotesForPeriod p.1, Ranged row.2)
    (h : resolvePeriod L config genesisTs height acc p = .ok acc') :
    ClosedBy p acc.1 acc'.1 := by
  simp only [resolvePeriod, calculateAndStoreConsensus, hcalculate, bind_eq_ok_iff,
    Except.ok.injEq] at h
  obtain ⟨bounds, -, ⟨tables, entry⟩, ⟨computed, hcomputed, hcommit⟩, rfl⟩ := h
  cases hresult : computed with
  | none =>
      rw [hresult] at hcommit
      obtain ⟨rfl, -⟩ := Prod.mk.inj (Except.ok.inj hcommit)
      exact ⟨rfl, fun _ _ => rfl, fun _ _ => .inl rfl, fun _ _ h => h⟩
  | some result =>
      rw [hresult] at hcommit
      have hexact : Exact ⟨p.1, bounds.1, bounds.2, p.2⟩ result :=
        exact_of_computeConsensus hranged hcomputed hresult
      obtain ⟨⟨tables', entry'⟩, hcommitted, hpair⟩ := bind_eq_ok_iff.mp hcommit
      obtain ⟨rfl, -⟩ := Prod.mk.inj (Except.ok.inj hpair)
      exact closedBy_of_commitConsensusResult hexact hperiod hcommitted

theorem ClosedBy.ready {p q : Nat × List DecisionId} (h : ClosedBy p tables tables')
    (hp : ∀ d ∈ p.2, d.votingPeriod = p.1) (hne : q.1 ≠ p.1) (hq : Ready q tables) :
    Ready q tables' := by
  have hother : ∀ d ∈ q.2, d ∉ p.2 := by
    intro d hd hmem
    exact hne ((hq.period d hd).symm.trans (hp d hmem))
  have hsame : tables'.voting.getVotesForPeriod q.1 = tables.voting.getVotesForPeriod q.1 := by
    rw [VotingDatabases.getVotesForPeriod, VotingDatabases.getVotesForPeriod, h.votes]
  refine ⟨hq.nonempty, hq.nodup, hq.period, ?_, ?_, ?_⟩
  · intro d hd
    rw [h.others d (hother d hd)]
    exact hq.voting d hd
  · intro hunsettled row hrow
    have hpos : 0 < q.1 := by
      obtain ⟨d, hd⟩ := List.exists_mem_of_ne_nil _ hq.nonempty
      rw [← hq.period d hd]
      exact Nat.succ_pos _
    refine hq.votes ?_ row ?_
    · by_contra hsettled
      exact h.settled q.1 hpos hsettled hunsettled
    · rwa [hsame] at hrow
  · rw [hsame]
    exact hq.ranged

theorem foldlM_resolvePeriod_ok
    (hcalculate : L.calculateConsensus = calculateConsensus prinComp)
    {periods : List (Nat × List DecisionId)}
    {acc : ConsensusTables Rat × List (ConsensusUndoEntry Rat)}
    (hnodup : (periods.map Prod.fst).Nodup) (hready : ∀ p ∈ periods, Ready p acc.1)
    (hbounds : ∀ p ∈ periods, ∃ bounds,
      calculatePeriodBoundaries config p.1 genesisTs = .ok bounds)
    (hclosable : EachClosable L config genesisTs height periods acc) :
    ∃ acc', periods.foldlM (resolvePeriod L config genesisTs height) acc = .ok acc' := by
  refine foldlM_succeeds (I := fun rest acc => (rest.map Prod.fst).Nodup ∧
    (∀ p ∈ rest, Ready p acc.1) ∧
    (∀ p ∈ rest, ∃ bounds, calculatePeriodBoundaries config p.1 genesisTs = .ok bounds) ∧
    EachClosable L config genesisTs height rest acc) ?_ ⟨hnodup, hready, hbounds, hclosable⟩
  rintro p rest acc ⟨hnodup, hready, hbounds, hclosable⟩
  obtain ⟨bounds, hbound⟩ := hbounds p (by simp)
  have hfirst := hready p (by simp)
  obtain ⟨acc', hstep⟩ := resolvePeriod_ok hcalculate height hfirst hclosable.1 hbound
  have hclosed := closedBy_of_resolvePeriod hcalculate hfirst.period hfirst.ranged hstep
  rw [List.map_cons, List.nodup_cons] at hnodup
  refine ⟨acc', hstep, hnodup.2, ?_, fun q hq => hbounds q (by simp [hq]), hclosable.2 acc' hstep⟩
  intro q hq
  refine hclosed.ready hfirst.period ?_ (hready q (by simp [hq]))
  intro heq
  exact hnodup.1 (heq ▸ List.mem_map_of_mem hq)

/-- The bounds of a period that has passed are in range. -/
theorem calculatePeriodBoundaries_ok {timestamp c p : Nat}
    (hperiod : getCurrentPeriod config timestamp (some height) genesisTs = .ok c)
    (hheight : height ≤ u32Max) (htimestamp : timestamp ≤ amountMax) (hp : p < c) :
    ∃ bounds, calculatePeriodBoundaries config p genesisTs = .ok bounds := by
  unfold calculatePeriodBoundaries
  unfold getCurrentPeriod at hperiod
  split
  · exact ⟨_, rfl⟩
  rename_i hpos
  split at hperiod
  · rename_i hblocks
    rw [if_pos hblocks]
    split at hperiod
    · rw [← Except.ok.inj hperiod] at hp
      omega
    · rename_i hquantity
      rw [addU32_eq_ok_iff] at hperiod
      have hle : p ≤ height / config.quantity := by
        simp only [Option.getD_some] at hperiod
        omega
      have hmul : p * config.quantity ≤ u32Max :=
        (Nat.le_div_iff_mul_le (by omega)).mp hle |>.trans hheight
      rw [ensure_pos hmul]
      exact ⟨_, rfl⟩
  · rename_i hblocks
    rw [if_neg hblocks]
    split at hperiod
    · rw [← Except.ok.inj hperiod] at hp
      omega
    · rename_i hgenesis
      split at hperiod
      · cases hperiod
      · rename_i hquantity
        rw [not_or, not_lt] at hgenesis
        rw [addU32_eq_ok_iff] at hperiod
        have hmod := Nat.mod_le ((timestamp - genesisTs) / config.quantity) (2 ^ 32)
        have hle : p ≤ (timestamp - genesisTs) / config.quantity := by omega
        have hmul : p * config.quantity ≤ timestamp - genesisTs :=
          (Nat.le_div_iff_mul_le (by omega)).mp hle
        obtain ⟨q, rfl⟩ : ∃ q, p = q + 1 := ⟨p - 1, by omega⟩
        rw [Nat.add_mul, Nat.one_mul] at hmul
        have hstart : genesisTs + (q + 1 - 1) * config.quantity ≤ amountMax := by
          rw [Nat.add_sub_cancel]
          omega
        have hend : genesisTs + (q + 1 - 1) * config.quantity + config.quantity ≤ amountMax := by
          rw [Nat.add_sub_cancel]
          omega
        rw [addU64_eq_ok_iff.mpr ⟨hstart, rfl⟩, ok_bind, addU64_eq_ok_iff.mpr ⟨hend, rfl⟩]
        exact ⟨_, rfl⟩

end

/-- Every vote counts as no negative number and is for the voting period of its decision,
and the decision is in voting until the period has outcomes. -/
def Tracked (voting : VotingDatabases Rat) (db : Dbs Rat) : Prop :=
  ∀ (key : VoteMatrixKey) (entry : VoteMatrixEntry Rat), voting.votes[key]? = some entry →
    Ranged entry ∧ key.periodId = UInt32.ofNat key.decisionId.votingPeriod ∧
    (db.getDecisionCurrentState key.decisionId = .voting ∨
      ¬ Unsettled voting key.decisionId.votingPeriod)

theorem ClosedBy.tracked {p : Nat × List DecisionId} {tables tables' : ConsensusTables Rat}
    (h : ClosedBy p tables tables') (hs : Tracked tables.voting tables.decisions) :
    Tracked tables'.voting tables'.decisions := by
  intro key entry hrow
  rw [h.votes] at hrow
  obtain ⟨hranged, hperiod, hstate⟩ := hs key entry hrow
  refine ⟨hranged, hperiod, ?_⟩
  rcases hstate with hvoting | hsettled
  · by_cases hmem : key.decisionId ∈ p.2
    · rcases h.decided _ hmem with hsame | hsettled
      · exact .inl (hsame.trans hvoting)
      · exact .inr hsettled
    · exact .inl ((h.others _ hmem).trans hvoting)
  · exact .inr (h.settled _ (Nat.succ_pos _) hsettled)

theorem closing_of_mem {db : Dbs Rat} {c : Nat} {p : Nat × List DecisionId}
    (hp : p ∈ periodsToResolve db c) :
    p.2 ≠ [] ∧ p.2.Nodup ∧ p.1 < c ∧
      ∀ d, d ∈ p.2 ↔ db.getDecisionCurrentState d = .voting ∧ d.votingPeriod = p.1 ∧ p.1 < c := by
  have hmem : ∀ d, d ∈ db.getVotingDecisionsNeedingResolution c ↔
      db.getDecisionCurrentState d = .voting ∧ d.votingPeriod < c := fun d =>
    mem_decisionsNeedingTransition (by decide)
  have hready : (db.getVotingDecisionsNeedingResolution c).Nodup :=
    (toList_keys_nodup db.decisionStateHistories).sublist
      (List.filter_sublist.map Prod.fst)
  obtain ⟨votingPeriod, hperiod, rfl⟩ := List.mem_map.mp hp
  rw [List.mem_insertionSort, List.mem_dedup, List.mem_map] at hperiod
  obtain ⟨d, hd, rfl⟩ := hperiod
  refine ⟨List.ne_nil_of_mem (List.mem_filter.mpr ⟨hd, by simp⟩), hready.filter _,
    ((hmem d).mp hd).2, ?_⟩
  intro d'
  rw [List.mem_filter, hmem, decide_eq_true_eq]
  constructor
  · rintro ⟨⟨hstate, hlt⟩, heq⟩
    exact ⟨hstate, heq, heq ▸ hlt⟩
  · rintro ⟨hstate, heq, hlt⟩
    exact ⟨⟨hstate, heq ▸ hlt⟩, heq⟩

theorem votingPeriod_lt (d : DecisionId) : d.votingPeriod < 2 ^ 32 := by
  have hmod : d.periodIndex < 2 ^ 7 := Nat.mod_lt _ (by decide)
  rw [DecisionId.votingPeriod]
  omega

theorem Tracked.of_mem {voting : VotingDatabases Rat} {db : Dbs Rat} (h : Tracked voting db)
    {votingPeriod : Nat} {row : VoteMatrixKey × VoteMatrixEntry Rat}
    (hrow : row ∈ voting.getVotesForPeriod votingPeriod) :
    row.1.periodId = UInt32.ofNat votingPeriod ∧ Ranged row.2 ∧
      row.1.periodId = UInt32.ofNat row.1.decisionId.votingPeriod ∧
      (db.getDecisionCurrentState row.1.decisionId = .voting ∨
        ¬ Unsettled voting row.1.decisionId.votingPeriod) := by
  rw [VotingDatabases.getVotesForPeriod, List.mem_filter, decide_eq_true_eq] at hrow
  have hlookup := mem_toList_iff.mp ((List.takeWhile_sublist _).subset hrow.1)
  exact ⟨hrow.2, h row.1 row.2 hlookup⟩

theorem ready_of_tracked {voting : VotingDatabases Rat} {db : Dbs Rat}
    {reputation : Table Address Rat} {c : Nat} (htracked : Tracked voting db)
    {p : Nat × List DecisionId}
    (hp : p ∈ periodsToResolve db c) : Ready p ⟨voting, db, reputation⟩ := by
  obtain ⟨hne, hnodup, hlt, hmem⟩ := closing_of_mem hp
  refine ⟨hne, hnodup, fun d hd => ((hmem d).mp hd).2.1, fun d hd => ((hmem d).mp hd).1, ?_,
    fun row hrow => (htracked.of_mem hrow).2.1⟩
  intro hunsettled row hrow
  obtain ⟨hfound, -, hperiod, hstate⟩ := htracked.of_mem hrow
  have heq : row.1.decisionId.votingPeriod = p.1 := by
    obtain ⟨d, hd⟩ := List.exists_mem_of_ne_nil _ hne
    have hsame := congrArg UInt32.toNat (hperiod.symm.trans hfound)
    rw [UInt32.toNat_ofNat_of_lt' (votingPeriod_lt _), ← ((hmem d).mp hd).2.1,
      UInt32.toNat_ofNat_of_lt' (votingPeriod_lt _)] at hsame
    exact hsame.trans ((hmem d).mp hd).2.1
  rw [heq] at hstate
  exact (hmem _).mpr ⟨hstate.resolve_right fun h => h hunsettled, heq, hlt⟩

section

variable {L : Library Rat} {config : DecisionConfig} {archive : Archive}
  {s : State Rat} {block : Block Rat} {t : Trace Rat}

/-- A decision in voting stays so until the votes are counted: it cannot be claimed. -/
theorem voting_priced (ht : Prepares L config archive s block t) {d : DecisionId}
    (h : s.decisions.getDecisionCurrentState d = .voting) :
    t.priced.getDecisionCurrentState d = .voting := by
  obtain ⟨claims, hclaims, hpriced⟩ := currentState_priced ht
  have hnew : d ∉ claims.map Claim.decisionId := by
    intro hmem
    obtain ⟨claim, hclaim, rfl⟩ := List.mem_map.mp hmem
    obtain ⟨-, hvoting, -⟩ := hclaims claim hclaim
    simp [Dbs.isDecisionInVoting, h] at hvoting
  rw [hpriced, if_neg hnew, h]
  simp

theorem nonneg_of_valid {c : CastVote Rat} (h : c.Valid) : 0 ≤ c.value := by
  obtain ⟨decision, hvalue⟩ := h
  rw [validateVoteValue, if_neg (by exact Bool.false_ne_true)] at hvalue
  split at hvalue
  · exact of_decide_eq_true (ensure_eq_ok_iff.mp hvalue).1
  · have hunit := ensure_eq_ok_iff.mp hvalue
    simp only [inUnitInterval, Bool.and_eq_true] at hunit
    exact of_decide_eq_true hunit.1

theorem ranged_storedValue {db : Dbs Rat} {c : CastVote Rat} (h : 0 ≤ c.value)
    (timestamp height : Nat) : Ranged ⟨storedValue db c, timestamp, height⟩ := by
  intro value hvalue
  simp only [storedValue, convertVoteValueWithDecision] at hvalue
  split at hvalue
  · cases hvalue
  · split at hvalue
    · rw [← Option.some.inj hvalue]
      exact Nat.cast_nonneg _
    · split at hvalue
      · cases hone : F64.eq c.value F64.one with
        | false =>
            rw [hone] at hvalue
            rw [← Option.some.inj hvalue]
            exact le_rfl
        | true =>
            rw [hone] at hvalue
            rw [← Option.some.inj hvalue]
            exact zero_le_one
      · rwa [← Option.some.inj hvalue]

/-- A vote for the voting period of a decision that is in voting, with a value that is not
negative. -/
def OnTime (s : State Rat) (vote : Vote Rat) : Prop :=
  Ranged (entryOf vote) ∧ vote.periodId = vote.decisionId.votingPeriod ∧
    s.decisions.getDecisionCurrentState vote.decisionId = .voting

theorem onTime_of_prepares (ht : Prepares L config archive s block t) :
    ∀ vote ∈ t.applied.update.voteSubmissions, OnTime s vote := by
  intro vote hvote
  obtain ⟨c, hc, hvotable, hfor⟩ := submittedFor_of_prepares ht vote hvote
  have hdecision : vote.decisionId = c.decisionId := congrArg Prod.snd hfor.key
  rw [OnTime, hdecision, entryOf, hfor.value]
  exact ⟨ranged_storedValue (nonneg_of_valid (valid_of_prepares ht hc)) _ _, hfor.period,
    hvotable.voting⟩

theorem Tracked.changed (ht : Prepares L config archive s block t)
    (hs : Tracked s.voting s.decisions) : Tracked t.changed.voting t.priced := by
  intro key entry hrow
  rcases lookup_putVotes_cases t.applied.update.voteSubmissions t.applied.state.voting key with
    ⟨-, hold⟩ | ⟨vote, hvote, rfl, hnew⟩
  · rw [show t.applied.state.voting = s.voting by rw [applied_eq ht.applied]] at hold
    rw [Trace.changed, show t.applied.state.voting = s.voting by rw [applied_eq ht.applied],
      hold] at hrow
    obtain ⟨hranged, hperiod, hstate⟩ := hs key entry hrow
    refine ⟨hranged, hperiod, ?_⟩
    rcases hstate with hvoting | hsettled
    · exact .inl (voting_priced ht hvoting)
    · exact .inr fun hunsettled => hsettled ((unsettled_changed ht).mp hunsettled)
  · obtain ⟨hranged, hperiod, hvoting⟩ := onTime_of_prepares ht vote hvote
    obtain rfl : entryOf vote = entry := Option.some.inj (hnew.symm.trans hrow)
    exact ⟨hranged, by rw [voteKeyOf, VotingDatabases.voteKey, hperiod],
      .inl (voting_priced ht hvoting)⟩

variable {lib : WithdrawalBundle.BundleLib} {ok : State Rat → Block Rat → Prop}
  {okPeg : State Rat → TwoWayPegData → Prop} {chain : List (Block Rat)}

theorem tracked_of_chain {prinComp : PrinComp}
    (hcalculate : L.calculateConsensus = calculateConsensus prinComp)
    (h : Chain L config lib ok okPeg chain s) : Tracked s.voting s.decisions := by
  induction h with
  | start =>
      intro key entry hrow
      simp [State.empty, VotingDatabases.empty] at hrow
  | connect archive _ _ h ih =>
      obtain ⟨t, ht, rfl⟩ := connects_of_applyBlock h
      rw [finished_voting ht, finished_decisions ht]
      refine foldlM_preserves (P := fun acc : ConsensusTables Rat × List (ConsensusUndoEntry Rat) =>
        Tracked acc.1.voting acc.1.decisions) ?_ ht.tables (ih.changed ht.toPrepares)
      intro p hp acc acc' hacc hstep
      obtain ⟨-, -, -, hmem⟩ := closing_of_mem hp
      exact (closedBy_of_resolvePeriod hcalculate (fun d hd => ((hmem d).mp hd).2.1)
        (fun row hrow => (hacc.of_mem hrow).2.1) hstep).tracked hacc
  | connectPeg _ _ h ih =>
      obtain ⟨p, hp, h⟩ := bind_eq_ok_iff.mp h
      rw [← Except.ok.inj h]
      exact ih

/-- Once a block has got as far as the counting of the votes, the counting succeeds. -/
def PeriodsClose (L : Library Rat) (config : DecisionConfig) (archive : Archive) (s : State Rat)
    (block : Block Rat) : Prop :=
  ∀ p, beforeClose L config archive s block = .ok p →
    ∃ s', resolvePeriods L config p.state p.currentPeriod p.genesisTs p.height = .ok s'

/-- The voting periods that a block closes can be closed, each in the tables before it. -/
def BlockClosable (L : Library Rat) (config : DecisionConfig) (archive : Archive) (s : State Rat)
    (block : Block Rat) : Prop :=
  ∀ p, beforeClose L config archive s block = .ok p →
    EachClosable L config p.genesisTs p.height (periodsToResolve p.state.decisions p.currentPeriod)
      (consensusTables p.state, [])

/-- In every state that a chain reaches, the count of the votes does not reject a block
that closes its voting periods with all voters still in possession of reputation, and with
no more holders than rounding allows. -/
theorem periodsClose_of_chain {prinComp : PrinComp}
    (hcalculate : L.calculateConsensus = calculateConsensus prinComp)
    (h : Chain L config lib ok okPeg chain s) (htimestamp : block.mainchainTimestamp ≤ amountMax)
    (hclosable : BlockClosable L config archive s block) :
    PeriodsClose L config archive s block := by
  intro p hp
  have heach := hclosable p hp
  obtain ⟨t, ht, rfl⟩ := prepares_of_beforeClose hp
  have htracked := (tracked_of_chain hcalculate h).changed ht
  have hheight : t.height ≤ u32Max := by
    have hnext := (prevalidated_of_prevalidate ht.prevalidated).height
    cases hs : s.height with
    | none =>
        rw [hs] at hnext
        rw [Trace.height, ← Except.ok.inj hnext]
        exact Nat.zero_le _
    | some height =>
        rw [hs] at hnext
        obtain ⟨hle, heq⟩ := addU32_eq_ok_iff.mp hnext
        rw [Trace.height, heq]
        exact hle
  obtain ⟨acc, hacc⟩ := foldlM_resolvePeriod_ok hcalculate
    (nodup_periodsToResolve t.priced t.currentPeriod)
    (fun p hp => ready_of_tracked htracked hp)
    (fun p hp => calculatePeriodBoundaries_ok ht.period hheight htimestamp
      (closing_of_mem hp).2.2.1) heach
  exact ⟨_, bind_eq_ok_iff.mpr ⟨acc, hacc, rfl⟩⟩

end

open Truthcoin.Commitments Truthcoin.SampleChain Truthcoin.ReputationConserved

/-- The library of a chain that counts votes with the algorithm. -/
def oracleLibrary : Library Rat :=
  { chainLibrary with calculateConsensus := calculateConsensus equalRows }

/-- A period of two blocks. -/
def closeConfig : DecisionConfig := ⟨true, 2⟩

/-- The first standard slot of period 1. -/
def closeDecision : DecisionId := BitVec.ofNat 24 (2 ^ 23 + 2 ^ 16)

/-- A decision is claimed and voted on, and in the block of the vote the voter gives
reputation away. -/
def votedBlocks (given : Rat) : List (Block Rat) :=
  [blockAt 1 [claiming 0 closeDecision], blockAt 2 [],
    blockAt 3 [spending 1 [] (.submitVote ⟨owner, closeDecision, 1, 2⟩),
      spending 2 [] (.transferReputation ⟨owner, 9, given⟩)]]

/-- When the voter has given everything away, the next block, which closes the voting
period, is rejected. -/
theorem not_periodsClose_after_transfer :
    ∃ s, Chain oracleLibrary closeConfig sampleBundleLib (fun _ _ => True) (fun _ _ => True)
        ((votedBlocks 1).reverse ++ [blockAt 0 []]) s ∧
      ¬ PeriodsClose oracleLibrary closeConfig emptyArchive s (blockAt 4 []) ∧
      ∀ s', applyBlock oracleLibrary closeConfig emptyArchive s (blockAt 4 []) ≠ .ok s' := by
  have hcomputed : holds (runBlocksIn oracleLibrary closeConfig 3 (votedBlocks 1))
      (fun s => holds (beforeClose oracleLibrary closeConfig emptyArchive s (blockAt 4 []))
        fun p => !(holds (resolvePeriods oracleLibrary closeConfig p.state p.currentPeriod
          p.genesisTs p.height) fun _ => true)) = true := by
    decide +kernel
  obtain ⟨s, hrun, htest⟩ := holds_iff.mp hcomputed
  obtain ⟨p, hp, htest⟩ := holds_iff.mp htest
  have hfails : ∀ s', resolvePeriods oracleLibrary closeConfig p.state p.currentPeriod
      p.genesisTs p.height ≠ .ok s' := by
    intro s' hs'
    simp [hs', holds] at htest
  refine ⟨s, chain_of_runBlocksIn (fun _ _ _ => trivial) hrun, ?_, ?_⟩
  · intro hclose
    obtain ⟨s', hs'⟩ := hclose p hp
    exact hfails s' hs'
  · intro s' hs'
    rw [applyBlock_eq, hp, ok_bind] at hs'
    obtain ⟨s₁, hs₁, -⟩ := bind_eq_ok_iff.mp hs'
    exact hfails s₁ hs₁

/-- With three quarters of the reputation still in the hands of the voter, the period
closes. -/
theorem periodsClose_after_vote :
    ∃ s, Chain oracleLibrary closeConfig sampleBundleLib (fun _ _ => True) (fun _ _ => True)
        ((votedBlocks (1 / 4)).reverse ++ [blockAt 0 []]) s ∧
      PeriodsClose oracleLibrary closeConfig emptyArchive s (blockAt 4 []) ∧
      ∃ p, beforeClose oracleLibrary closeConfig emptyArchive s (blockAt 4 []) = .ok p ∧
        p.state.voting.getVotesForPeriod 2 ≠ [] ∧
        (getAllReputations p.state.reputation).toList = [(owner, 3 / 4), (9, 1 / 4)] := by
  have hcomputed : holds (runBlocksIn oracleLibrary closeConfig 3 (votedBlocks (1 / 4)))
      (fun s => holds (beforeClose oracleLibrary closeConfig emptyArchive s (blockAt 4 []))
        fun p => decide (periodsToResolve p.state.decisions p.currentPeriod =
            [(2, [closeDecision])]) &&
          !(p.state.voting.getVotesForPeriod 2).isEmpty &&
          (p.state.voting.getVotesForPeriod 2).all (fun row =>
            decide (row.1.voterAddress ∈ getAllReputations p.state.reputation)) &&
          decide (totalReputation (getAllReputations p.state.reputation) = 1) &&
          decide (Absorbable (getAllReputations p.state.reputation)) &&
          decide ((getAllReputations p.state.reputation).toList =
            [(owner, 3 / 4), (9, 1 / 4)])) = true := by
    decide +kernel
  obtain ⟨s, hrun, htest⟩ := holds_iff.mp hcomputed
  obtain ⟨p, hp, htest⟩ := holds_iff.mp htest
  simp only [Bool.and_eq_true, decide_eq_true_eq, List.all_eq_true, Bool.not_eq_true',
    List.isEmpty_eq_false_iff] at htest
  obtain ⟨⟨⟨⟨⟨hperiods, hvotes⟩, hvoters⟩, htotal⟩, habsorbable⟩, hholders⟩ := htest
  have hchain : Chain oracleLibrary closeConfig sampleBundleLib (fun _ _ => True)
      (fun _ _ => True) ((votedBlocks (1 / 4)).reverse ++ [blockAt 0 []]) s :=
    chain_of_runBlocksIn (fun _ _ _ => trivial) hrun
  refine ⟨s, hchain, ?_, p, hp, hvotes, hholders⟩
  refine periodsClose_of_chain rfl hchain (by decide) ?_
  intro p' hp'
  obtain rfl : p = p' := Except.ok.inj (hp.symm.trans hp')
  rw [hperiods]
  refine ⟨?_, fun _ _ => trivial⟩
  intro _
  refine ⟨fun hempty => absurd hempty hvotes, fun _ _ =>
    ⟨fun row hrow _ => hvoters row hrow, habsorbable, ?_⟩⟩
  intro total htotals
  change Conserved (totalReputation (getAllReputations p.state.reputation)) total at htotals
  rw [htotal] at htotals
  exact anchored_of_conserved_one htotals

/-- So many holders that what rounding adds is more than an equal share. -/
def crowd : Nat := 142105

theorem not_conserved_of_crowd (d : DecisionId) :
    ∃ result, calculateConsensus equalRows (unanimous crowd d) (equalHolders crowd (1 / crowd))
        [] [] = some result ∧
      ¬ Conserved (totalReputation (equalHolders crowd (1 / crowd)))
        (totalReputation (computePostConsensusReputation (equalHolders crowd (1 / crowd))
          result.updatedReputations)) := by
  have hshare : (0 : Rat) < 1 / crowd := by norm_num [crowd]
  have hshare' : 1 / (crowd : Rat) ≤ 1 := by norm_num [crowd]
  have hround : roundReputation (1 / crowd) = 70371 / 10 ^ 10 := by decide +kernel
  have hfirst : roundReputation (70371 / 10 ^ 10 +
      (crowd * (1 / crowd) - crowd * (70371 / 10 ^ 10))) ≤ 0 := by
    decide +kernel
  obtain ⟨result, hresult, hlookup⟩ := lookup_post_unanimous (by decide) hshare hshare' hround
    (by norm_num) (by norm_num [crowd]) hfirst d
  have hpost := total_of_consecutive 1 hlookup
  rw [postReputation, getAllReputations_equalHolders hshare] at hpost
  refine ⟨result, hresult, ?_⟩
  rw [Conserved, total_equalHolders]
  change totalReputation (computePostConsensusReputation _ result.updatedReputations) = _ at hpost
  rw [hpost]
  norm_num [crowd]

end Truthcoin.PeriodClose
