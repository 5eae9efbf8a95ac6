import Truthcoin.DecisionStates
import Truthcoin.ScaledVotes
import Truthcoin.UndoTables

/-!
# The state histories of decisions

A history grows from claimed over voting to resolved while blocks are connected, and is cut
at a height when the tip is disconnected. No step leads out of the six shapes that this
allows for, and cutting leads to the state that the history had at that height.
-/

namespace Truthcoin.DecisionHistories

open Truthcoin.Types Truthcoin.Table Truthcoin.Fallible Truthcoin.Decisions Truthcoin.Voting
open Truthcoin.Blocks Truthcoin.Connect Truthcoin.ConnectTrace Truthcoin.BlockChecks
open Truthcoin.Disconnect Truthcoin.BlockRun Truthcoin.PricingRun Truthcoin.DecisionStates
open Truthcoin.ScaledVotes Truthcoin.ListedRuns Truthcoin.UndoTables Truthcoin.Commitments
open Truthcoin.SampleChain Truthcoin.SampleMarkets

variable {F : Type}

def stateAtHeight (history : DecisionStateHistory F) (height : Nat) : DecisionState :=
  ((history.stateHistory.reverse.find? fun entry => entry.2.1 ≤ height).map Prod.fst).getD .created

theorem currentState_rollbackToHeight (history : DecisionStateHistory F) (height : Nat) :
    (history.rollbackToHeight height).currentState = stateAtHeight history height := by
  rw [DecisionStateHistory.currentState, DecisionStateHistory.rollbackToHeight, stateAtHeight,
    ← List.head?_filter, List.filter_reverse, List.head?_reverse]

/-- The states in the order of a decision's life. -/
def lifeStates : List DecisionState := [.claimed, .voting, .resolved]

/-- A history is a part of the life of a decision from its start, in the order of the
heights, with an outcome for the resolution and for no other state. -/
structure LifeCycle (history : DecisionStateHistory F) : Prop where
  states : history.stateHistory.map Prod.fst <+: lifeStates
  heights : (history.stateHistory.map fun entry => entry.2.1).Pairwise (· ≤ ·)
  outcome : ∀ entry ∈ history.stateHistory, entry.2.2.isSome = true ↔ entry.1 = .resolved

theorem LifeCycle.nil : LifeCycle (⟨[]⟩ : DecisionStateHistory F) :=
  ⟨List.nil_prefix, List.Pairwise.nil, by simp⟩

theorem LifeCycle.new (height : Nat) :
    LifeCycle (DecisionStateHistory.new height : DecisionStateHistory F) := by
  refine ⟨⟨[.voting, .resolved], rfl⟩, List.pairwise_singleton _ _, ?_⟩
  intro entry hentry
  rw [List.mem_singleton.mp hentry]
  exact iff_of_false Bool.false_ne_true DecisionState.noConfusion

theorem LifeCycle.map_eq_take {history : DecisionStateHistory F} (h : LifeCycle history) :
    history.stateHistory.map Prod.fst = lifeStates.take history.stateHistory.length := by
  rw [List.prefix_iff_eq_take.mp h.states, List.length_map]

theorem LifeCycle.next {history : DecisionStateHistory F} (h : LifeCycle history)
    {next : DecisionState} (hvalid : next ≠ .invalid)
    (hcan : history.currentState.canTransitionTo next = true) :
    lifeStates[history.stateHistory.length]? = some next := by
  have hlength : history.stateHistory.length ≤ 3 := by
    have hle := h.states.length_le
    rwa [List.length_map] at hle
  have hsteps : ∀ n ≤ 3, ((lifeStates.take n).getLast?.getD .created).canTransitionTo next = true →
      lifeStates[n]? = some next := by
    intro n hn
    interval_cases n <;> cases next <;> first | decide | exact absurd rfl hvalid
  refine hsteps _ hlength ?_
  rw [← h.map_eq_take, List.getLast?_map]
  exact hcan

theorem LifeCycle.append {history : DecisionStateHistory F} (h : LifeCycle history)
    {state : DecisionState} {height : Nat} {outcome : Option F}
    (hstate : lifeStates[history.stateHistory.length]? = some state)
    (hheight : ∀ entry ∈ history.stateHistory, entry.2.1 ≤ height)
    (houtcome : outcome.isSome = true ↔ state = .resolved) :
    LifeCycle ⟨history.stateHistory ++ [(state, height, outcome)]⟩ := by
  refine ⟨?_, ?_, ?_⟩
  · rw [List.map_append, List.map_singleton, h.map_eq_take]
    have htake := List.take_add_one (l := lifeStates) (i := history.stateHistory.length)
    rw [hstate, Option.toList_some] at htake
    exact htake ▸ List.take_prefix _ _
  · rw [List.map_append, List.pairwise_append]
    refine ⟨h.heights, List.pairwise_singleton _ _, ?_⟩
    intro a ha b hb
    obtain ⟨entry, hentry, rfl⟩ := List.mem_map.mp ha
    rw [List.map_singleton, List.mem_singleton] at hb
    exact hb ▸ hheight entry hentry
  · intro entry hentry
    rcases List.mem_append.mp hentry with hold | hnew
    · exact h.outcome entry hold
    · rw [List.mem_singleton.mp hnew]
      exact houtcome

theorem LifeCycle.rollback {history : DecisionStateHistory F} (h : LifeCycle history)
    (height : Nat) : LifeCycle (history.rollbackToHeight height) := by
  have hstart : (history.rollbackToHeight height).stateHistory <+: history.stateHistory := by
    have hsorted : history.stateHistory.Pairwise fun a b => a.2.1 ≤ b.2.1 :=
      List.pairwise_map.mp h.heights
    have hclosed : history.stateHistory.Pairwise fun a b =>
        decide (b.2.1 ≤ height) = true → decide (a.2.1 ≤ height) = true :=
      hsorted.imp fun hab hb => decide_eq_true (hab.trans (of_decide_eq_true hb))
    rw [DecisionStateHistory.rollbackToHeight, ← takeWhile_eq_filter hclosed]
    exact List.takeWhile_prefix _
  refine ⟨(hstart.map _).trans h.states, ?_, ?_⟩
  · exact h.heights.sublist (hstart.sublist.map _)
  · exact fun entry hentry => h.outcome entry (hstart.subset hentry)

theorem LifeCycle.currentState_eq_created {history : DecisionStateHistory F}
    (h : LifeCycle history) : history.currentState = .created ↔ history.stateHistory = [] := by
  rw [DecisionStateHistory.currentState]
  cases hlast : history.stateHistory.getLast? with
  | none => exact iff_of_true rfl (List.getLast?_eq_none_iff.mp hlast)
  | some entry =>
      have hmem : entry.1 ∈ lifeStates :=
        h.states.subset (List.mem_map_of_mem (List.mem_of_getLast? hlast))
      refine iff_of_false ?_ ?_
      · intro hcreated
        rw [show entry.1 = .created from hcreated] at hmem
        simp [lifeStates] at hmem
      · intro hempty
        rw [hempty] at hlast
        cases hlast

theorem LifeCycle.consensusOutcome_isSome {history : DecisionStateHistory F}
    (h : LifeCycle history) :
    history.consensusOutcome.isSome = true ↔ history.currentState = .resolved := by
  obtain ⟨entries⟩ := history
  have hstates := h.states
  have houtcome := h.outcome
  rcases entries with _ | ⟨a, _ | ⟨b, _ | ⟨c, _ | ⟨d, entries⟩⟩⟩⟩ <;>
    simp_all [DecisionStateHistory.consensusOutcome, DecisionStateHistory.currentState, lifeStates]

/-- Every history is a part of a life, up to a height. -/
def LifeCycles (height : Nat) (db : Dbs F) : Prop :=
  ∀ (d : DecisionId) (history : DecisionStateHistory F),
    db.decisionStateHistories[d]? = some history →
      LifeCycle history ∧ ∀ entry ∈ history.stateHistory, entry.2.1 ≤ height

theorem LifeCycles.congr {height : Nat} {db db' : Dbs F} (h : LifeCycles height db)
    (hsame : db'.decisionStateHistories = db.decisionStateHistories) : LifeCycles height db' := by
  intro d history hrow
  exact h d history (hsame ▸ hrow)

theorem LifeCycles.mono {height height' : Nat} {db : Dbs F} (h : LifeCycles height db)
    (hle : height ≤ height') : LifeCycles height' db := by
  intro d history hrow
  obtain ⟨hlife, hbound⟩ := h d history hrow
  exact ⟨hlife, fun entry hentry => (hbound entry hentry).trans hle⟩

theorem LifeCycles.putHistory {height : Nat} {db : Dbs F} (h : LifeCycles height db)
    (d : DecisionId) {history : DecisionStateHistory F} (hlife : LifeCycle history)
    (hbound : ∀ entry ∈ history.stateHistory, entry.2.1 ≤ height) :
    LifeCycles height (db.putHistory d history) := by
  intro d' history' hrow
  rw [Dbs.putHistory, lookup_insert] at hrow
  split at hrow
  · rw [← Option.some.inj hrow]
    exact ⟨hlife, hbound⟩
  · exact h d' history' hrow

theorem le_of_mem_append {height : Nat} {entries : List (DecisionState × Nat × Option F)}
    {state : DecisionState} {outcome : Option F}
    (h : ∀ entry ∈ entries, entry.2.1 ≤ height) :
    ∀ entry ∈ entries ++ [(state, height, outcome)], entry.2.1 ≤ height := by
  intro entry hentry
  rcases List.mem_append.mp hentry with hold | hnew
  · exact h entry hold
  · rw [List.mem_singleton.mp hnew]

theorem LifeCycles.transitionDecisionToVoting {height : Nat} {db db' : Dbs F}
    (hdb : LifeCycles height db) {d : DecisionId}
    (h : db.transitionDecisionToVoting d height = .ok db') : LifeCycles height db' := by
  simp only [Dbs.transitionDecisionToVoting, DecisionStateHistory.transitionToVoting,
    bind_eq_ok_iff, okOr_eq_ok_iff, ensure_eq_ok_iff, Except.ok.injEq] at h
  obtain ⟨history, hrow, _, ⟨_, hcan, rfl⟩, rfl⟩ := h
  obtain ⟨hlife, hbound⟩ := hdb d history hrow
  have hnext := hlife.next DecisionState.noConfusion hcan
  exact hdb.putHistory d (hlife.append hnext hbound (by simp)) (le_of_mem_append hbound)

theorem LifeCycles.transitionDecisionToResolved [F64 F] {height : Nat} {db db' : Dbs F}
    (hdb : LifeCycles height db) {d : DecisionId} {outcome : F}
    (h : db.transitionDecisionToResolved d height outcome = .ok db') : LifeCycles height db' := by
  simp only [Dbs.transitionDecisionToResolved, DecisionStateHistory.transitionToResolved,
    bind_eq_ok_iff, okOr_eq_ok_iff, ensure_eq_ok_iff, Except.ok.injEq] at h
  obtain ⟨history, hrow, _, ⟨_, hcan, _, -, rfl⟩, rfl⟩ := h
  obtain ⟨hlife, hbound⟩ := hdb d history hrow
  have hnext := hlife.next DecisionState.noConfusion hcan
  exact hdb.putHistory d (hlife.append hnext hbound (by simp)) (le_of_mem_append hbound)

theorem LifeCycles.claimDecision [DecidableEq F] {height : Nat} {db db' : Dbs F}
    (hdb : LifeCycles height db) {d : DecisionId} {decision : Decision F} {txid : Txid}
    (h : db.claimDecision d decision txid height = .ok db') : LifeCycles height db' := by
  have hclaimed : LifeCycles height (db.putHistory d (DecisionStateHistory.new height)) := by
    refine hdb.putHistory d (.new height) ?_
    intro entry hentry
    rw [List.mem_singleton.mp hentry]
  unfold Dbs.claimDecision at h
  dsimp only at h
  split at h
  · obtain ⟨pricing, -, h⟩ := bind_eq_ok_iff.mp h
    rw [← Except.ok.inj h]
    exact hclaimed.congr rfl
  · rw [← Except.ok.inj h]
    exact hclaimed.congr rfl

theorem histories_unclaim (ids : List DecisionId) (db : Dbs F) :
    (ids.foldl Dbs.unclaim db).decisionStateHistories = db.decisionStateHistories := by
  refine List.foldlRecOn (motive := fun db' : Dbs F =>
    db'.decisionStateHistories = db.decisionStateHistories) _ _ rfl ?_
  intro db' hdb' d _
  unfold Dbs.unclaim Dbs.putOrDeleteEntries
  split
  · split
    · exact hdb'
    · exact hdb'
  · exact hdb'

theorem lookup_rollback (db : Dbs F) (height : Nat) (d : DecisionId) :
    (db.rollbackDecisionStatesToHeight height).decisionStateHistories[d]? =
      db.decisionStateHistories[d]?.map fun history => history.rollbackToHeight height := by
  have hfold : ∀ rows : List (DecisionId × DecisionStateHistory F), ∀ db : Dbs F,
      (rows.foldl (fun db row => db.putHistory row.1 (row.2.rollbackToHeight height))
        db).decisionStateHistories =
      rows.foldl (fun t row => t.insert row.1 (row.2.rollbackToHeight height))
        db.decisionStateHistories := by
    intro rows db
    exact (List.foldl_hom Dbs.decisionStateHistories fun _ _ => rfl).symm
  rw [Dbs.rollbackDecisionStatesToHeight, histories_unclaim, hfold,
    lookup_foldl_toList (g := fun history _ => some (history.rollbackToHeight height))
      (fun t row k hne => by rw [lookup_insert, if_neg hne])
      (fun t row => by rw [lookup_insert, if_pos rfl])]
  cases db.decisionStateHistories[d]? <;> rfl

theorem LifeCycles.rollback {height : Nat} {db : Dbs F} (h : LifeCycles height db)
    (below : Nat) : LifeCycles below (db.rollbackDecisionStatesToHeight below) := by
  intro d history hrow
  rw [lookup_rollback, Option.map_eq_some_iff] at hrow
  obtain ⟨old, hold, rfl⟩ := hrow
  refine ⟨(h d old hold).1.rollback below, ?_⟩
  intro entry hentry
  exact of_decide_eq_true (List.mem_filter.mp hentry).2

theorem takeBack_preserves [DecidableEq F] {P : Dbs F → Prop} {txs : List (Transaction F)}
    {db db' : Dbs F}
    (hstep : ∀ tx ∈ txs, ∀ d ∈ tx.claimedIds, ∀ db, P db → P (db.revertDecisionClaim d))
    (h : txs.foldlM takeBack db = .ok db') (hdb : P db) : P db' := by
  refine foldlM_preserves (P := P) ?_ h hdb
  intro tx htx db₁ db₂ hdb₁ htake
  refine foldlM_preserves (P := P) ?_ htake hdb₁
  intro entry hentry db₃ db₄ hdb₃ hrevert
  rw [DecisionId.fromBytes_eq, ok_bind] at hrevert
  rw [← Except.ok.inj hrevert]
  obtain ⟨payload, hpayload, hentry⟩ := List.mem_flatMap.mp hentry
  exact hstep tx htx _ (List.mem_flatMap.mpr ⟨payload, hpayload, List.mem_map_of_mem hentry⟩)
    db₃ hdb₃

theorem histories_takeBack [DecidableEq F] {txs : List (Transaction F)} {db db' : Dbs F}
    (h : txs.foldlM takeBack db = .ok db') :
    db'.decisionStateHistories = db.decisionStateHistories := by
  refine takeBack_preserves (P := fun db' : Dbs F =>
    db'.decisionStateHistories = db.decisionStateHistories) ?_ h rfl
  intro tx _ d _ db₁ hdb₁
  rw [← hdb₁]
  unfold Dbs.revertDecisionClaim Dbs.putOrDeleteEntries
  dsimp only
  split
  · split <;> rfl
  · rfl

theorem histories_restorePeriodPricingUndo (db : Dbs F) (height : Nat) :
    (db.restorePeriodPricingUndo height).decisionStateHistories = db.decisionStateHistories := by
  unfold Dbs.restorePeriodPricingUndo
  split <;> rfl

theorem LifeCycles.decisionsBelow {height : Nat} {db : Dbs F} (h : LifeCycles height db)
    (mintingUndo : Table Nat Nat) :
    LifeCycles (height - 1) (decisionsBelow mintingUndo height db) := by
  have hcut : LifeCycles (height - 1)
      (if height > 0 then db.rollbackDecisionStatesToHeight (height - 1) else db) := by
    split
    · exact h.rollback (height - 1)
    · rename_i hzero
      rwa [Nat.eq_zero_of_not_pos hzero] at h ⊢
  refine hcut.congr ?_
  unfold UndoTables.decisionsBelow
  dsimp only
  rw [histories_restorePeriodPricingUndo]
  cases mintingUndo[height]? <;> rfl

section

variable [F64 F] [DecidableEq F] {L : Library F} {config : DecisionConfig} {archive : Archive}
  {s s' : State F} {block : Block F} {t : Trace F}

theorem LifeCycles.connect {below : Nat} (hdb : LifeCycles below s.decisions)
    (hle : below ≤ t.height) (ht : Connects L config archive s block t) :
    LifeCycles t.height (t.finished L block).decisions := by
  have hstart : LifeCycles t.height
      (startBlock s block.body t.height block.mainchainTimestamp).decisions := by
    rw [startBlock_eq]
    exact (hdb.mono hle).congr rfl
  have hvoting : LifeCycles t.height t.voting :=
    foldlM_preserves (P := LifeCycles t.height)
      (fun _ _ _ _ hdb hstep => hdb.transitionDecisionToVoting hstep) ht.voting hstart
  obtain ⟨claims, hfold, -⟩ := claims_of_prepares ht.toPrepares
  have happlied : LifeCycles t.height t.applied.state.decisions :=
    foldlM_preserves (P := LifeCycles t.height)
      (fun _ _ _ _ hdb hstep => hdb.claimDecision hstep) hfold hvoting
  rw [finished_decisions ht]
  exact decisions_of_resolvePeriods
    (fun _ _ _ _ hdb hstep => hdb.transitionDecisionToResolved hstep)
    (happlied.congr (histories_of_priceBlock ht.priced)) ht.tables

variable {lib : WithdrawalBundle.BundleLib} {ok : State F → Block F → Prop}
  {okPeg : State F → TwoWayPegData → Prop} {chain : List (Block F)}

theorem lifeCycles_of_run (hrun : Run L config lib ok okPeg chain s) :
    LifeCycles (chain.length - 1) s.decisions := by
  induction hrun with
  | start =>
      intro d history hrow
      simp [State.empty, Dbs.empty] at hrow
  | connect archive hrun _ h ih =>
      obtain ⟨t, ht, rfl⟩ := connects_of_applyBlock h
      have hheight := height_of_prepares (height_of_run hrun) ht.toPrepares
      rw [List.length_cons, Nat.add_sub_cancel, ← hheight]
      exact ih.connect (by omega) ht
  | @disconnect chain s s' block hrun h ih =>
      obtain ⟨height, hundone⟩ := tablesUndone_of_disconnectTip h
      have hheight : some height = some chain.length :=
        hundone.tip.symm.trans (height_of_run hrun)
      obtain ⟨db, hdb, hdecisions⟩ := hundone.decisions
      rw [hdecisions, Option.some.inj hheight]
      exact (ih.congr (histories_takeBack hdb)).decisionsBelow _
  | connectPeg _ _ h ih | disconnectPeg _ h ih =>
      obtain ⟨p, -, h⟩ := bind_eq_ok_iff.mp h
      rw [← Except.ok.inj h]
      exact ih

/-- In every state of a run every history is a part of the life of its decision, with an
outcome exactly when it is resolved, and rolling back to a height leads to the state at that
height. -/
theorem histories_of_run (hrun : Run L config lib ok okPeg chain s) {d : DecisionId}
    {history : DecisionStateHistory F}
    (hrow : s.decisions.getDecisionStateHistory d = some history) :
    LifeCycle history ∧
      (history.consensusOutcome.isSome = true ↔ history.currentState = .resolved) ∧
      ∀ height, (history.rollbackToHeight height).currentState = stateAtHeight history height ∧
        (s.decisions.rollbackDecisionStatesToHeight height).getDecisionCurrentState d =
          stateAtHeight history height := by
  obtain ⟨hlife, -⟩ := lifeCycles_of_run hrun d history hrow
  refine ⟨hlife, hlife.consensusOutcome_isSome, fun height => ?_⟩
  have hcut := currentState_rollbackToHeight history height
  refine ⟨hcut, ?_⟩
  rw [Dbs.getDecisionStateHistory] at hrow
  rw [Dbs.getDecisionCurrentState, Dbs.getDecisionStateHistory, lookup_rollback, hrow]
  exact hcut

end

/-- A decision that is claimed in one block and comes into voting in the next. -/
theorem histories_of_run_scaled :
    ∃ s, Run chainLibrary marketConfig sampleBundleLib (fun _ _ => True) (fun _ _ => True)
        (scaledBlocks.reverse ++ [blockAt 0 []]) s ∧
      ∃ history, s.decisions.getDecisionStateHistory marketDecision = some history ∧
        history.currentState = .voting ∧ LifeCycle history ∧
        (history.rollbackToHeight 1).currentState = stateAtHeight history 1 := by
  have hcomputed : holds (runBlocks marketConfig 2 scaledBlocks) (fun s =>
      decide (s.decisions.getDecisionStateHistory marketDecision =
        some ⟨[(.claimed, 1, none), (.voting, 2, none)]⟩)) = true := by
    decide +kernel
  obtain ⟨s, hblocks, htest⟩ := holds_iff.mp hcomputed
  have hrun := (chain_of_runBlocks hblocks).run
  obtain ⟨hlife, -, hcut⟩ := histories_of_run hrun (of_decide_eq_true htest)
  exact ⟨s, hrun, _, of_decide_eq_true htest, rfl, hlife, (hcut 1).1⟩

end Truthcoin.DecisionHistories
