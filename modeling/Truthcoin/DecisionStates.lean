import Truthcoin.PricingRun
import Truthcoin.Reputation

/-!
# The states of the decisions in a block

A block first opens the votes of the decisions whose period has passed, then records
its claims, and last resolves the decisions whose voting period has passed.
-/

namespace Truthcoin.DecisionStates

open Truthcoin.Types Truthcoin.Table Truthcoin.Fallible Truthcoin.Arithmetic
open Truthcoin.Decisions Truthcoin.Voting Truthcoin.Blocks Truthcoin.Connect
open Truthcoin.ConnectTrace Truthcoin.BlockChecks Truthcoin.PricingRun Truthcoin.Reputation
open Truthcoin.SettlementSteps

variable {F : Type} {db db' : Dbs F} {height c : Nat}

theorem currentState_congr (h : db'.decisionStateHistories = db.decisionStateHistories)
    (d : DecisionId) : db'.getDecisionCurrentState d = db.getDecisionCurrentState d := by
  rw [Dbs.getDecisionCurrentState, Dbs.getDecisionStateHistory, h]
  rfl

theorem currentState_putHistory (db : Dbs F) (d : DecisionId) (history : DecisionStateHistory F)
    (d' : DecisionId) :
    (db.putHistory d history).getDecisionCurrentState d' =
      if d' = d then history.currentState else db.getDecisionCurrentState d' := by
  simp only [Dbs.getDecisionCurrentState, Dbs.getDecisionStateHistory, Dbs.putHistory,
    Std.ExtTreeMap.getElem?_insert, Std.LawfulEqCmp.compare_eq_iff_eq]
  by_cases hd : d' = d
  · simp [hd]
  · simp [hd, Ne.symm hd]

theorem currentState_append (entries : List (DecisionState × Nat × Option F))
    (entry : DecisionState × Nat × Option F) :
    DecisionStateHistory.currentState ⟨entries ++ [entry]⟩ = entry.1 := by
  simp [DecisionStateHistory.currentState]

theorem currentState_of_transitionDecisionToVoting {d : DecisionId}
    (h : db.transitionDecisionToVoting d height = .ok db') (d' : DecisionId) :
    db'.getDecisionCurrentState d' =
      if d' = d then .voting else db.getDecisionCurrentState d' := by
  simp only [Dbs.transitionDecisionToVoting, DecisionStateHistory.transitionToVoting,
    bind_eq_ok_iff, Except.ok.injEq] at h
  obtain ⟨history, -, _, ⟨_, -, rfl⟩, rfl⟩ := h
  rw [currentState_putHistory, currentState_append]

theorem currentState_of_transitionDecisionToResolved [F64 F] {d : DecisionId} {outcome : F}
    (h : db.transitionDecisionToResolved d height outcome = .ok db') (d' : DecisionId) :
    db'.getDecisionCurrentState d' =
      if d' = d then .resolved else db.getDecisionCurrentState d' := by
  simp only [Dbs.transitionDecisionToResolved, DecisionStateHistory.transitionToResolved,
    bind_eq_ok_iff, Except.ok.injEq] at h
  obtain ⟨history, -, _, ⟨_, -, _, -, rfl⟩, rfl⟩ := h
  rw [currentState_putHistory, currentState_append]

theorem currentState_of_claimDecision [DecidableEq F] {d : DecisionId} {decision : Decision F}
    {txid : Txid} (h : db.claimDecision d decision txid height = .ok db') (d' : DecisionId) :
    db'.getDecisionCurrentState d' =
      if d' = d then .claimed else db.getDecisionCurrentState d' := by
  have hclaimed := currentState_putHistory db d (DecisionStateHistory.new height) d'
  rw [show (DecisionStateHistory.new height : DecisionStateHistory F).currentState =
    .claimed from rfl] at hclaimed
  unfold Dbs.claimDecision at h
  dsimp only at h
  split at h
  · obtain ⟨pricing, -, h⟩ := bind_eq_ok_iff.mp h
    rw [← Except.ok.inj h]
    exact hclaimed
  · rw [← Except.ok.inj h]
    exact hclaimed

theorem mem_decisionsNeedingTransition {state : DecisionState} {threshold : DecisionId → Nat}
    (hstate : state ≠ .created) {d : DecisionId} :
    d ∈ db.decisionsNeedingTransition state threshold c ↔
      db.getDecisionCurrentState d = state ∧ threshold d < c := by
  simp only [Dbs.decisionsNeedingTransition, List.mem_map, List.mem_filter, decide_eq_true_eq,
    Dbs.getDecisionCurrentState, Dbs.getDecisionStateHistory]
  constructor
  · rintro ⟨row, ⟨hrow, hcurrent, hlt⟩, rfl⟩
    rw [mem_toList_iff.mp hrow]
    exact ⟨hcurrent, hlt⟩
  · rintro ⟨hcurrent, hlt⟩
    cases hrow : db.decisionStateHistories[d]? with
    | none =>
        rw [hrow] at hcurrent
        exact absurd hcurrent.symm hstate
    | some history =>
        rw [hrow] at hcurrent
        exact ⟨(d, history), ⟨mem_toList_iff.mpr hrow, hcurrent, hlt⟩, rfl⟩

theorem currentState_of_transitionAllToVoting
    (h : transitionAllToVoting db c height = .ok db') (d : DecisionId) :
    db'.getDecisionCurrentState d =
      if db.getDecisionCurrentState d = .claimed ∧ d.periodIndex < c then .voting
      else db.getDecisionCurrentState d := by
  have hstep : db'.getDecisionCurrentState d =
      if d ∈ (db.getClaimedDecisionsNeedingVoting c).map id then .voting
      else db.getDecisionCurrentState d := by
    refine foldlM_sets ?_ h d
    exact fun _ _ _ hstep => currentState_of_transitionDecisionToVoting hstep
  rw [hstep, List.map_id]
  simp only [Dbs.getClaimedDecisionsNeedingVoting,
    mem_decisionsNeedingTransition (show DecisionState.claimed ≠ .created by decide)]

theorem currentState_of_claims [DecidableEq F] {claims : List (Claim F)}
    (h : claims.foldlM (Claim.apply height) db = .ok db') (d : DecisionId) :
    db'.getDecisionCurrentState d =
      if d ∈ claims.map Claim.decisionId then .claimed else db.getDecisionCurrentState d := by
  refine foldlM_sets ?_ h d
  exact fun _ _ _ hstep => currentState_of_claimDecision hstep

theorem histories_of_priceBlock {config : DecisionConfig} {timestamp genesisTs : Nat}
    (h : priceBlock config db height timestamp genesisTs = .ok db') :
    db'.decisionStateHistories = db.decisionStateHistories := by
  obtain ⟨target, hsame⟩ := minted_of_priceBlock h
  rw [hsame]
  rfl

section

variable [F64 F] {tables tables' : ConsensusTables F} {period : VotingPeriod}
  {result : ConsensusResult F}

/-- The result of a period that is resolved: it covers all decisions of the period and
belongs to the period. -/
structure Covers (period : VotingPeriod) (result : ConsensusResult F) : Prop where
  decisions : ∀ d ∈ period.decisionIds,
    d ∈ result.decisionResolutions.map DecisionResolutionEntry.decisionId
  outcomes : ∀ outcome ∈ result.decisionOutcomes, outcome.periodId = period.id

omit [F64 F] in
theorem map_resolutionOf (outcomes : List (DecisionOutcome F)) :
    (outcomes.map resolutionOf).map DecisionResolutionEntry.decisionId =
      outcomes.map DecisionOutcome.decisionId := by
  rw [List.map_map]
  rfl

theorem covers_of_computeVotedConsensus {calculate : CalculateConsensus F}
    {voting : VotingDatabases F} {reputations : Table Address F}
    {allVotes : List (VoteMatrixKey × VoteMatrixEntry F)}
    (h : computeVotedConsensus calculate voting db reputations period allVotes height =
      .ok result) : Covers period result := by
  simp only [computeVotedConsensus, bind_eq_ok_iff, Except.ok.injEq] at h
  obtain ⟨matrix, -, detailed, -, rfl⟩ := h
  constructor
  · intro d hd
    rw [map_resolutionOf, List.map_append, List.map_map, List.map_map, List.mem_append]
    by_cases hvoted : d ∈ detailed.outcomes.map Prod.fst
    · exact .inl hvoted
    · refine .inr (List.mem_map.mpr ⟨d, ?_, rfl⟩)
      simpa [hd] using hvoted
  · intro outcome houtcome
    rcases List.mem_append.mp houtcome with hvoted | hdefault
    · obtain ⟨_, -, rfl⟩ := List.mem_map.mp hvoted
      rfl
    · obtain ⟨_, -, rfl⟩ := List.mem_map.mp hdefault
      rfl

/-- No outcome is recorded for a voting period. -/
def Unsettled (voting : VotingDatabases F) (votingPeriod : Nat) : Prop :=
  voting.getConsensusOutcomesForPeriod votingPeriod = []

theorem covers_of_computeConsensus (laws : SignLaws F) {calculate : CalculateConsensus F}
    {voting : VotingDatabases F} {reputation : Table Address F}
    {computed : Option (ConsensusResult F)}
    (hopen : Unsettled voting period.id)
    (hbacked : Backed voting.votes reputation)
    (h : computeConsensus calculate voting db reputation period height = .ok computed) :
    ∃ result, computed = some result ∧ Covers period result := by
  unfold computeConsensus at h
  rw [Unsettled] at hopen
  rw [if_neg (by simp [hopen])] at h
  dsimp only at h
  split at h
  · refine ⟨_, (Except.ok.inj h).symm, ?_, ?_⟩
    · intro d hd
      rw [map_resolutionOf, List.map_map]
      exact List.mem_map.mpr ⟨d, hd, rfl⟩
    · intro outcome houtcome
      obtain ⟨_, -, rfl⟩ := List.mem_map.mp houtcome
      rfl
  · rename_i hvotes
    have hheld : Held reputation := by
      refine hbacked.held.resolve_left fun hempty => hvotes ?_
      rw [VotingDatabases.getVotesForPeriod, hempty]
      rfl
    obtain ⟨hnonempty, htotal⟩ := total_pos laws hheld
    rw [if_neg (by simp [hnonempty, htotal])] at h
    obtain ⟨result, hresult, h⟩ := bind_eq_ok_iff.mp h
    exact ⟨result, (Except.ok.inj h).symm, covers_of_computeVotedConsensus hresult⟩

omit [F64 F] in
theorem unsettled_iff {voting : VotingDatabases F} {votingPeriod : Nat} :
    Unsettled voting votingPeriod ↔ ∀ (d : DecisionId) (outcome : DecisionOutcome F),
      voting.decisionOutcomes[d]? = some outcome →
      ¬ (d.periodIndex = votingPeriod - 1 ∧ outcome.periodId = votingPeriod) := by
  simp only [Unsettled, VotingDatabases.getConsensusOutcomesForPeriod, List.map_eq_nil_iff,
    List.filter_eq_nil_iff, decide_eq_true_eq, Prod.forall, mem_toList_iff]

omit [F64 F] in
theorem Unsettled.putDecisionOutcomes {outcomes : List (DecisionOutcome F)}
    {voting : VotingDatabases F} {votingPeriod : Nat} (h : Unsettled voting votingPeriod)
    (hne : ∀ outcome ∈ outcomes, outcome.periodId ≠ votingPeriod) :
    Unsettled (outcomes.foldl VotingDatabases.putDecisionOutcome voting) votingPeriod := by
  refine List.foldlRecOn (motive := fun db => Unsettled db votingPeriod) _ _ h ?_
  intro db hdb outcome houtcome
  rw [unsettled_iff] at hdb ⊢
  intro d outcome' hrow
  simp only [VotingDatabases.putDecisionOutcome, Std.ExtTreeMap.getElem?_insert] at hrow
  split at hrow
  · rw [← Option.some.inj hrow]
    exact fun hperiod => hne outcome houtcome hperiod.2
  · exact hdb d outcome' hrow

/-- What closing some voting periods does to the tables. -/
structure Closes (periods : List (Nat × List DecisionId)) (tables tables' : ConsensusTables F) :
    Prop where
  resolved : ∀ period ∈ periods, ∀ d ∈ period.2,
    tables'.decisions.getDecisionCurrentState d = .resolved
  others : ∀ d, tables'.decisions.getDecisionCurrentState d =
    tables.decisions.getDecisionCurrentState d ∨
    tables'.decisions.getDecisionCurrentState d = .resolved
  unsettled : ∀ votingPeriod ∉ periods.map Prod.fst, Unsettled tables.voting votingPeriod →
    Unsettled tables'.voting votingPeriod
  backed : Backed tables'.voting.votes tables'.reputation

theorem closes_of_commitConsensusResult (laws : SignLaws F) {entry : ConsensusUndoEntry F}
    (hcovers : Covers period result)
    (h : commitConsensusResult tables result = .ok (tables', entry)) :
    Closes [(period.id, period.decisionIds)] tables tables' := by
  have hsound := sound_of_commitConsensusResult laws h
  simp only [commitConsensusResult, bind_eq_ok_iff, Except.ok.injEq, Prod.mk.injEq] at h
  obtain ⟨_, -, _, -, decisions, hfold, rfl, -⟩ := h
  have hstates : ∀ d, decisions.getDecisionCurrentState d =
      if d ∈ result.decisionResolutions.map DecisionResolutionEntry.decisionId then .resolved
      else tables.decisions.getDecisionCurrentState d := by
    refine foldlM_sets ?_ hfold
    exact fun _ _ _ hstep => currentState_of_transitionDecisionToResolved hstep
  refine ⟨?_, ?_, ?_, hsound.1, .inr hsound.2⟩
  · intro p hp d hd
    rw [List.mem_singleton.mp hp] at hd
    exact (hstates d).trans (if_pos (hcovers.decisions d hd))
  · intro d
    dsimp only
    rw [hstates d]
    split
    · exact .inr rfl
    · exact .inl rfl
  · intro votingPeriod hne hunsettled
    refine Unsettled.putDecisionOutcomes hunsettled ?_
    intro outcome houtcome heq
    rw [hcovers.outcomes outcome houtcome] at heq
    exact hne (by simp [heq])

variable {L : Library F} {config : DecisionConfig} {genesisTs : Nat}

theorem closes_of_resolvePeriod (laws : SignLaws F) {p : Nat × List DecisionId}
    {acc acc' : ConsensusTables F × List (ConsensusUndoEntry F)}
    (hunsettled : Unsettled acc.1.voting p.1) (hbacked : Backed acc.1.voting.votes acc.1.reputation)
    (h : resolvePeriod L config genesisTs height acc p = .ok acc') :
    Closes [p] acc.1 acc'.1 := by
  simp only [resolvePeriod, calculateAndStoreConsensus, bind_eq_ok_iff, Except.ok.injEq] at h
  obtain ⟨_, -, ⟨tables, entry⟩, ⟨computed, hcomputed, hcommit⟩, rfl⟩ := h
  obtain ⟨result, rfl, hcovers⟩ := covers_of_computeConsensus laws
    (show Unsettled acc.1.voting (VotingPeriod.id ⟨p.1, _, _, p.2⟩) from hunsettled) hbacked
    hcomputed
  obtain ⟨⟨tables', entry'⟩, hresult, hpair⟩ := bind_eq_ok_iff.mp hcommit
  obtain ⟨rfl, -⟩ := Prod.mk.inj (Except.ok.inj hpair)
  exact closes_of_commitConsensusResult laws hcovers hresult

theorem closes_of_foldlM (laws : SignLaws F) {periods : List (Nat × List DecisionId)}
    {acc acc' : ConsensusTables F × List (ConsensusUndoEntry F)}
    (hnodup : (periods.map Prod.fst).Nodup)
    (hunsettled : ∀ p ∈ periods, Unsettled acc.1.voting p.1)
    (hbacked : Backed acc.1.voting.votes acc.1.reputation)
    (h : periods.foldlM (resolvePeriod L config genesisTs height) acc = .ok acc') :
    Closes periods acc.1 acc'.1 := by
  induction periods generalizing acc with
  | nil =>
      rw [← Except.ok.inj h]
      exact ⟨by simp, fun _ => .inl rfl, fun _ _ h => h, hbacked⟩
  | cons p periods ih =>
      obtain ⟨acc₁, hfirst, hrest⟩ := bind_eq_ok_iff.mp h
      rw [List.map_cons, List.nodup_cons] at hnodup
      have hclosed := closes_of_resolvePeriod laws (hunsettled p (by simp)) hbacked hfirst
      have hremaining : ∀ q ∈ periods, Unsettled acc₁.1.voting q.1 := by
        intro q hq
        refine hclosed.unsettled q.1 ?_ (hunsettled q (by simp [hq]))
        rw [List.map_singleton, List.mem_singleton]
        rintro heq
        exact hnodup.1 (heq ▸ List.mem_map_of_mem hq)
      have hlater := ih hnodup.2 hremaining hclosed.backed hrest
      refine ⟨?_, ?_, ?_, hlater.backed⟩
      · intro q hq d hd
        rcases List.mem_cons.mp hq with rfl | hq
        · rcases hlater.others d with hsame | hresolved
          · rw [hsame]
            exact hclosed.resolved q (by simp) d hd
          · exact hresolved
        · exact hlater.resolved q hq d hd
      · intro d
        rcases hlater.others d with hsame | hresolved
        · rw [hsame]
          exact hclosed.others d
        · exact .inr hresolved
      · intro votingPeriod hne hopen
        rw [List.map_cons, List.mem_cons, not_or] at hne
        exact hlater.unsettled _ hne.2 (hclosed.unsettled _ (by simpa using hne.1) hopen)

end

theorem nodup_periodsToResolve (db : Dbs F) (c : Nat) :
    ((periodsToResolve db c).map Prod.fst).Nodup := by
  simp only [periodsToResolve, List.map_map]
  change (((db.getVotingDecisionsNeedingResolution c).map
    DecisionId.votingPeriod).dedup.insertionSort (· ≤ ·)).map id |>.Nodup
  rw [List.map_id, (List.perm_insertionSort _ _).nodup_iff]
  exact List.nodup_dedup _

theorem mem_periodsToResolve_fst {votingPeriod : Nat} :
    votingPeriod ∈ (periodsToResolve db c).map Prod.fst ↔
      ∃ d, db.getDecisionCurrentState d = .voting ∧ d.votingPeriod < c ∧
        d.votingPeriod = votingPeriod := by
  simp only [periodsToResolve, List.map_map, List.mem_map, List.mem_insertionSort,
    List.mem_dedup, Function.comp_apply, Dbs.getVotingDecisionsNeedingResolution,
    mem_decisionsNeedingTransition (show DecisionState.voting ≠ .created by decide)]
  simp [and_assoc]

theorem exists_periodsToResolve {d : DecisionId}
    (hstate : db.getDecisionCurrentState d = .voting) (hclosed : d.votingPeriod < c) :
    ∃ p ∈ periodsToResolve db c, d ∈ p.2 := by
  have hready : d ∈ db.getVotingDecisionsNeedingResolution c :=
    (mem_decisionsNeedingTransition (by decide)).mpr ⟨hstate, hclosed⟩
  refine ⟨(d.votingPeriod, _), List.mem_map.mpr ⟨d.votingPeriod, ?_, rfl⟩, ?_⟩
  · rw [List.mem_insertionSort, List.mem_dedup]
    exact List.mem_map_of_mem hready
  · exact List.mem_filter.mpr ⟨hready, by simp⟩

section

variable [F64 F] [DecidableEq F] {L : Library F} {config : DecisionConfig} {archive : Archive}
  {s : State F} {block : Block F} {t : Trace F}

theorem currentState_priced (ht : Prepares L config archive s block t) :
    ∃ claims : List (Claim F), (∀ claim ∈ claims, claim.decisionId ∈ claimedIn block ∧
        ClaimPaths.Available s.decisions claim.decisionId) ∧
      ∀ d, t.priced.getDecisionCurrentState d =
        if d ∈ claims.map Claim.decisionId then .claimed
        else if s.decisions.getDecisionCurrentState d = .claimed ∧
          d.periodIndex < t.currentPeriod then .voting
        else s.decisions.getDecisionCurrentState d := by
  obtain ⟨claims, hfold, -, -, hclaims⟩ := claims_of_prepares ht
  refine ⟨claims, fun claim hclaim => ⟨(hclaims claim hclaim).1, (hclaims claim hclaim).2.1⟩, ?_⟩
  intro d
  have hstart := startBlock_eq s block.body t.height block.mainchainTimestamp
  have hvoting := currentState_of_transitionAllToVoting ht.voting d
  rw [hstart] at hvoting
  rw [currentState_congr (histories_of_priceBlock ht.priced), currentState_of_claims hfold,
    hvoting]
  rfl

theorem unsettled_changed (ht : Prepares L config archive s block t) {votingPeriod : Nat} :
    Unsettled t.changed.voting votingPeriod ↔ Unsettled s.voting votingPeriod := by
  have hvoting : t.applied.state.voting = s.voting := by
    rw [applied_eq ht.applied]
  have houtcomes : t.changed.voting.decisionOutcomes = s.voting.decisionOutcomes := by
    rw [← hvoting]
    refine List.foldlRecOn (motive := fun voting : VotingDatabases F =>
      voting.decisionOutcomes = t.applied.state.voting.decisionOutcomes) _ _ rfl ?_
    exact fun voting hvoting vote _ => hvoting
  rw [unsettled_iff, unsettled_iff, houtcomes]

theorem finished_voting (ht : Connects L config archive s block t) :
    (t.finished L block).voting = t.tables.voting := by
  have hframe := transitionAndPayoutResolvedMarkets_framed ht.paid
  change t.paid.voting = t.tables.voting
  rw [hframe]
  rfl

theorem finished_reputation (ht : Connects L config archive s block t) :
    (t.finished L block).reputation = t.tables.reputation := by
  have hframe := transitionAndPayoutResolvedMarkets_framed ht.paid
  change t.paid.reputation = t.tables.reputation
  rw [hframe]
  rfl

end

end Truthcoin.DecisionStates
