import Truthcoin.DecisionStates
import Truthcoin.SampleChain

/-!
# No decision is stranded

A decision that is claimed while its voting period is open is voted on and resolved.
A block can also claim a decision whose voting period has passed: the claim is
recorded after the votes were opened, and when the period already has outcomes the
decision stays in voting for ever.
-/

namespace Truthcoin.Stranding

open Truthcoin.Types Truthcoin.Table Truthcoin.Fallible Truthcoin.Arithmetic
open Truthcoin.Decisions Truthcoin.Markets Truthcoin.Voting Truthcoin.Blocks
open Truthcoin.Validation Truthcoin.Apply Truthcoin.ApplySteps Truthcoin.Connect
open Truthcoin.Settlement Truthcoin.SettlementSteps Truthcoin.ConnectTrace
open Truthcoin.BlockChecks Truthcoin.BlockRun Truthcoin.PricingRun Truthcoin.Reputation
open Truthcoin.DecisionStates

variable {F : Type} [F64 F] [DecidableEq F] {L : Library F} {config : DecisionConfig}
  {archive : Archive} {s s' : State F} {block : Block F} {t : Trace F}

/-- The block claims no decision after its voting period, and none whose voting period
has outcomes. -/
def ClaimsInTime (config : DecisionConfig) (s : State F) (block : Block F) : Prop :=
  ∀ c, blockPeriod config s block = .ok c → ∀ d ∈ claimedIn block,
    c ≤ d.votingPeriod ∧ s.voting.getConsensusOutcomesForPeriod d.votingPeriod = []

instance (config : DecisionConfig) (s : State F) (block : Block F) :
    Decidable (ClaimsInTime config s block) :=
  match h : blockPeriod config s block with
  | .ok c =>
      -- over the claimed decisions, not over all decisions
      decidable_of_iff
        ((claimedIn block).all fun d =>
          c ≤ d.votingPeriod ∧ s.voting.getConsensusOutcomesForPeriod d.votingPeriod = [])
        (by simp [ClaimsInTime, h])
  | .error e => isTrue (by simp [ClaimsInTime, h])

/-- The decisions that are not resolved belong to voting periods without outcomes, and
the votes are backed by reputation. -/
structure Pending (s : State F) : Prop where
  valid : ∀ d, s.decisions.getDecisionCurrentState d ≠ .invalid
  unsettled : ∀ d, s.decisions.getDecisionCurrentState d = .claimed ∨
    s.decisions.getDecisionCurrentState d = .voting → Unsettled s.voting d.votingPeriod
  backed : Backed s.voting.votes s.reputation

/-- Every decision whose voting period has passed is resolved. -/
def Timely (c : Nat) (db : Dbs F) : Prop :=
  ∀ d, db.getDecisionCurrentState d = .claimed ∨ db.getDecisionCurrentState d = .voting →
    c ≤ d.votingPeriod

omit [DecidableEq F] in
theorem pending_empty : Pending (State.empty F) := by
  have hcreated : ∀ d, (State.empty F).decisions.getDecisionCurrentState d = .created := by
    intro d
    simp [State.empty, Dbs.empty, Dbs.getDecisionCurrentState, Dbs.getDecisionStateHistory]
  refine ⟨?_, ?_, positive_empty, .inl rfl⟩
  · intro d
    simp [hcreated]
  · intro d
    simp [hcreated]

/-- Before the votes are counted, what is not resolved was so before the block or is
claimed by it. -/
theorem unsettled_priced (hs : Pending s) (hok : ClaimsInTime config s block)
    (ht : Prepares L config archive s block t) {d : DecisionId}
    (hd : t.priced.getDecisionCurrentState d = .claimed ∨
      t.priced.getDecisionCurrentState d = .voting) : Unsettled s.voting d.votingPeriod := by
  obtain ⟨claims, hclaims, hpriced⟩ := currentState_priced ht
  rw [hpriced] at hd
  split at hd
  · rename_i hnew
    obtain ⟨claim, hclaim, rfl⟩ := List.mem_map.mp hnew
    exact (hok _ (blockPeriod_of_prepares ht) _ (hclaims claim hclaim).1).2
  · split at hd
    · rename_i hopened
      exact hs.unsettled d (.inl hopened.1)
    · exact hs.unsettled d hd

theorem not_claimed_priced (hok : ClaimsInTime config s block)
    (ht : Prepares L config archive s block t) {d : DecisionId}
    (hpassed : d.votingPeriod < t.currentPeriod) :
    t.priced.getDecisionCurrentState d ≠ .claimed := by
  obtain ⟨claims, hclaims, hpriced⟩ := currentState_priced ht
  intro hclaimed
  rw [hpriced] at hclaimed
  split at hclaimed
  · rename_i hnew
    obtain ⟨claim, hclaim, rfl⟩ := List.mem_map.mp hnew
    have htimely := (hok _ (blockPeriod_of_prepares ht) _ (hclaims claim hclaim).1).1
    omega
  · split at hclaimed
    · cases hclaimed
    · rename_i hopened
      refine hopened ⟨hclaimed, ?_⟩
      rw [DecisionId.votingPeriod] at hpassed
      omega

theorem valid_priced (hs : Pending s) (ht : Prepares L config archive s block t)
    (d : DecisionId) : t.priced.getDecisionCurrentState d ≠ .invalid := by
  obtain ⟨claims, -, hpriced⟩ := currentState_priced ht
  rw [hpriced]
  split
  · simp
  · split
    · simp
    · exact hs.valid d

theorem closes_of_connects (laws : SignLaws F) (hs : Pending s)
    (hok : ClaimsInTime config s block) (ht : Connects L config archive s block t) :
    Closes (periodsToResolve t.priced t.currentPeriod)
      ⟨t.changed.voting, t.priced, t.applied.state.reputation⟩ t.tables := by
  refine closes_of_foldlM laws (nodup_periodsToResolve _ _) ?_
    (hs.backed.changed laws ht.toPrepares) ht.tables
  intro p hp
  obtain ⟨d, hstate, -, hperiod⟩ := mem_periodsToResolve_fst.mp (List.mem_map_of_mem hp)
  rw [← hperiod]
  exact (unsettled_changed ht.toPrepares).mpr (unsettled_priced hs hok ht.toPrepares (.inr hstate))

theorem timely_of_closes (hok : ClaimsInTime config s block)
    (ht : Connects L config archive s block t)
    (hclosed : Closes (periodsToResolve t.priced t.currentPeriod)
      ⟨t.changed.voting, t.priced, t.applied.state.reputation⟩ t.tables) :
    Timely t.currentPeriod t.tables.decisions := by
  intro d hd
  by_contra hpassed
  rw [not_le] at hpassed
  rcases hclosed.others d with hsame | hresolved
  · rw [hsame] at hd
    have hvoting := hd.resolve_left (not_claimed_priced hok ht.toPrepares hpassed)
    obtain ⟨p, hp, hmem⟩ := exists_periodsToResolve hvoting hpassed
    have hresolved := hclosed.resolved p hp d hmem
    rw [hsame, hvoting] at hresolved
    cases hresolved
  · simp [hresolved] at hd

theorem pending_of_block (laws : SignLaws F) (hs : Pending s)
    (hok : ClaimsInTime config s block) (ht : Connects L config archive s block t) :
    Pending (t.finished L block) ∧ Timely t.currentPeriod (t.finished L block).decisions := by
  have hclosed := closes_of_connects laws hs hok ht
  have htimely := timely_of_closes hok ht hclosed
  have hdecisions := finished_decisions ht
  refine ⟨⟨?_, ?_, ?_⟩, hdecisions ▸ htimely⟩
  · intro d
    rw [hdecisions]
    rcases hclosed.others d with hsame | hresolved
    · rw [hsame]
      exact valid_priced hs ht.toPrepares d
    · simp [hresolved]
  · intro d hd
    rw [hdecisions] at hd
    rw [finished_voting ht]
    refine hclosed.unsettled _ ?_ ((unsettled_changed ht.toPrepares).mpr ?_)
    · intro hmem
      obtain ⟨d', -, hpassed, hperiod⟩ := mem_periodsToResolve_fst.mp hmem
      have hlater := htimely d hd
      omega
    · rcases hclosed.others d with hsame | hresolved
      · rw [hsame] at hd
        exact unsettled_priced hs hok ht.toPrepares hd
      · simp [hresolved] at hd
  · rw [finished_voting ht, finished_reputation ht]
    exact hclosed.backed

/-- No decision is in voting after its voting period, none is claimed after its voting
period, and a market of claimed decisions whose voting periods have passed can be
settled. -/
def NotStranded (config : DecisionConfig) (s : State F) : Prop :=
  ∃ c, currentPeriod config s = .ok c ∧
    (∀ d, s.decisions.getDecisionCurrentState d = .voting → c ≤ d.votingPeriod) ∧
    (∀ d, s.decisions.getDecisionCurrentState d = .claimed → c ≤ d.votingPeriod) ∧
    ∀ market : Market F, market.decisionIds ≠ [] →
      (∀ d ∈ market.decisionIds,
        s.decisions.getDecisionCurrentState d ≠ .created ∧ d.votingPeriod < c) →
      isResolved s market = true

omit [DecidableEq F] in
theorem isResolved_of_timely {c : Nat} (hs : Pending s) (htimely : Timely c s.decisions)
    {market : Market F} (hne : market.decisionIds ≠ [])
    (hpassed : ∀ d ∈ market.decisionIds,
      s.decisions.getDecisionCurrentState d ≠ .created ∧ d.votingPeriod < c) :
    isResolved s market = true := by
  simp only [isResolved, Bool.and_eq_true, Bool.not_eq_true', List.isEmpty_eq_false_iff,
    List.all_eq_true, decide_eq_true_eq]
  refine ⟨hne, ?_⟩
  intro d hd
  obtain ⟨hclaimed, hlt⟩ := hpassed d hd
  have hvalid := hs.valid d
  have hopen := htimely d
  cases hstate : s.decisions.getDecisionCurrentState d with
  | created => exact absurd hstate hclaimed
  | claimed => exact absurd (hopen (.inl hstate)) (by omega)
  | voting => exact absurd (hopen (.inr hstate)) (by omega)
  | resolved => rfl
  | invalid => exact absurd hstate hvalid

variable {lib : WithdrawalBundle.BundleLib} {okPeg : State F → TwoWayPegData → Prop}
  {chain : List (Block F)}

theorem pending_of_chain (laws : SignLaws F)
    (h : Chain L config lib (ClaimsInTime config) okPeg chain s) :
    Pending s ∧ (chain ≠ [] →
      ∃ c, currentPeriod config s = .ok c ∧ Timely c s.decisions) := by
  induction h with
  | start => exact ⟨pending_empty, fun hne => absurd rfl hne⟩
  | connect archive _ hok h ih =>
      obtain ⟨t, ht, rfl⟩ := connects_of_applyBlock h
      obtain ⟨hpending, htimely⟩ := pending_of_block laws ih.1 hok ht
      exact ⟨hpending, fun _ => ⟨t.currentPeriod, currentPeriod_finished ht, htimely⟩⟩
  | connectPeg _ _ h ih =>
      obtain ⟨p, hp, h⟩ := bind_eq_ok_iff.mp h
      rw [← Except.ok.inj h]
      exact ⟨⟨ih.1.valid, ih.1.unsettled, ih.1.backed⟩, ih.2⟩

/-- In every state that a chain reaches by blocks that claim in time, no decision is
stranded. -/
theorem notStranded_of_chain (laws : SignLaws F)
    (h : Chain L config lib (ClaimsInTime config) okPeg chain s) (hblocks : chain ≠ []) :
    NotStranded config s := by
  obtain ⟨hpending, htimely⟩ := pending_of_chain laws h
  obtain ⟨c, hperiod, htimely⟩ := htimely hblocks
  exact ⟨c, hperiod, fun d hd => htimely d (.inr hd), fun d hd => htimely d (.inl hd),
    fun market hne hpassed => isResolved_of_timely hpending htimely hne hpassed⟩

open Truthcoin.Commitments Truthcoin.SampleChain

/-- A period of one block. -/
def lateConfig : DecisionConfig := ⟨true, 1⟩

/-- The first slot of period 2, standard or not. -/
def lateDecision (standard : Bool) : DecisionId :=
  BitVec.ofNat 24 (standard.toNat * 2 ^ 23 + 2 * 2 ^ 16)

/-- The standard slot of period 2 is claimed in that period, voted on in the next and
resolved in the one after. -/
def timelyBlocks : List (Block Rat) :=
  [blockAt 1 [claiming 0 (lateDecision true)], blockAt 2 [], blockAt 3 []]

theorem notStranded_of_timelyBlocks :
    ∃ s, Chain chainLibrary lateConfig sampleBundleLib (ClaimsInTime lateConfig)
        (fun _ _ => True) (timelyBlocks.reverse ++ [blockAt 0 []]) s ∧
      NotStranded lateConfig s ∧
      s.decisions.getDecisionCurrentState (lateDecision true) = .resolved := by
  have hcomputed : holds (do
      let s ← genesisWith lateConfig 2
      timelyBlocks.foldlM
        (applyChecked chainLibrary lateConfig (ClaimsInTime lateConfig) emptyArchive) s)
      (fun s => s.decisions.getDecisionCurrentState (lateDecision true) = .resolved) = true := by
    decide +kernel
  obtain ⟨s, hrun, htest⟩ := holds_iff.mp hcomputed
  obtain ⟨s₀, hgenesis, hblocks⟩ := bind_eq_ok_iff.mp hrun
  have hempty : ClaimsInTime lateConfig (State.empty Rat) (blockAt 0 []) := by
    intro c _ d hd
    cases hd
  have hchain := chain_of_checked (chain_of_genesisWith hempty hgenesis) hblocks
  exact ⟨s, hchain, notStranded_of_chain signLaws_rat hchain (by simp),
    of_decide_eq_true htest⟩

/-- A slot of period 2 that is claimed in period 5, and the block after it. -/
def lateBlocks : List (Block Rat) :=
  timelyBlocks ++ [blockAt 4 [claiming 1 (lateDecision false)], blockAt 5 []]

/-- In period 6 the decision is in voting, although its votes were for period 3. -/
theorem stranded_after_late_claim :
    ∃ s, Chain chainLibrary lateConfig sampleBundleLib (fun _ _ => True) (fun _ _ => True)
        (lateBlocks.reverse ++ [blockAt 0 []]) s ∧
      ¬ NotStranded lateConfig s := by
  have hcomputed : holds (runBlocks lateConfig 2 lateBlocks)
      (fun s => holds (currentPeriod lateConfig s) (fun c => c = 6) &&
        decide (s.decisions.getDecisionCurrentState (lateDecision false) = .voting)) = true := by
    decide +kernel
  obtain ⟨s, hrun, htests⟩ := holds_iff.mp hcomputed
  rw [Bool.and_eq_true, holds_iff, decide_eq_true_eq] at htests
  obtain ⟨⟨c, hperiod, hc⟩, hvoting⟩ := htests
  obtain rfl := of_decide_eq_true hc
  refine ⟨s, chain_of_runBlocks hrun, ?_⟩
  rintro ⟨c, hcurrent, hvotes, -⟩
  obtain rfl : 6 = c := Except.ok.inj (hperiod.symm.trans hcurrent)
  exact absurd (hvotes _ hvoting) (by decide)

end Truthcoin.Stranding
