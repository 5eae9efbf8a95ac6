import Truthcoin.ListedRuns

/-!
# Votes and decisions while the tip is disconnected

Undoing the settlements, the counting of the votes and the consolidation of a block leaves
the stored votes and the decisions. Undoing its transactions deletes votes and takes claims
back. What is left is to roll the histories back and to drop periods and prices.
-/

namespace Truthcoin.UndoTables

open Truthcoin.Types Truthcoin.Table Truthcoin.Fallible Truthcoin.Arithmetic
open Truthcoin.Decisions Truthcoin.Markets Truthcoin.Voting Truthcoin.Blocks Truthcoin.Apply
open Truthcoin.Settlement Truthcoin.Consolidation
open Truthcoin.Connect Truthcoin.ConnectTrace Truthcoin.Disconnect Truthcoin.ListedRuns
open Truthcoin.SettlementSteps

variable {F : Type} {L : Library F} {s s' : State F} {height : Nat}

theorem restoreMarketFunds_eq (marketId : MarketId) (isFee : Bool)
    (utxo : Option (OutPoint × FilledOutput)) (s : State F) :
    restoreMarketFunds marketId isFee utxo s =
      { s with
        coins := (restoreMarketFunds marketId isFee utxo s).coins
        markets := (restoreMarketFunds marketId isFee utxo s).markets } := by
  unfold restoreMarketFunds
  split <;> rfl

theorem undoSettlement_eq (h : undoSettlement L s height = .ok s') :
    s' = { s with
      coins := s'.coins, markets := s'.markets, settlementUndo := s'.settlementUndo } := by
  unfold undoSettlement at h
  split at h
  · rw [← Except.ok.inj h]
  · obtain ⟨s₁, hrevert, h⟩ := bind_eq_ok_iff.mp h
    have hs₁ : s₁ = { s with coins := s₁.coins, markets := s₁.markets } := by
      refine foldlM_preserves
        (P := fun s₁ : State F => s₁ = { s with coins := s₁.coins, markets := s₁.markets })
        ?_ hrevert rfl
      intro entry _ a b ha hstep
      simp only [revertSettlementEntry, revertAutomaticSharePayouts_iff, bind_eq_ok_iff,
        Except.ok.injEq] at hstep
      obtain ⟨_, ⟨db, -, rfl⟩, rfl⟩ := hstep
      rw [restoreMarketFunds_eq, restoreMarketFunds_eq, ha]
    rw [← Except.ok.inj h, hs₁]

theorem undoConsolidation_eq (s : State F) (height : Nat) :
    undoConsolidation s height =
      { s with
        coins := (undoConsolidation s height).coins
        markets := (undoConsolidation s height).markets
        consolidationUndo := (undoConsolidation s height).consolidationUndo } := by
  unfold undoConsolidation
  split <;> rfl

section

variable [F64 F]

theorem votes_undoConsensus (s : State F) (height : Nat) :
    (undoConsensus s height).voting.votes = s.voting.votes := by
  unfold undoConsensus
  split
  · rfl
  · rename_i entries _
    show (revertConsensus s entries).voting.votes = s.voting.votes
    rw [revertConsensus]
    refine List.foldlRecOn (motive := fun s' : State F => s'.voting.votes = s.voting.votes)
      _ _ rfl ?_
    intro s₁ hs₁ entry _
    have houtcomes : (entry.decisionOutcomeIds.foldl VotingDatabases.deleteDecisionOutcome
        s₁.voting).votes = s₁.voting.votes :=
      List.foldlRecOn (motive := fun db : VotingDatabases F => db.votes = s₁.voting.votes)
        _ _ rfl fun _ hdb _ _ => hdb
    rw [revertConsensusEntry]
    dsimp only
    split
    · rw [houtcomes, hs₁]
    · exact houtcomes.trans hs₁

end

/-- Votes are deleted, never written. -/
def VotesLeft (voting voting' : VotingDatabases F) : Prop :=
  ∀ (key : VoteMatrixKey) (entry : VoteMatrixEntry F),
    voting'.votes[key]? = some entry → voting.votes[key]? = some entry

theorem VotesLeft.of_eq {voting voting' : VotingDatabases F}
    (h : voting'.votes = voting.votes) : VotesLeft voting voting' := by
  intro key entry hentry
  rwa [h] at hentry

theorem VotesLeft.trans {voting voting' voting'' : VotingDatabases F}
    (h : VotesLeft voting voting') (h' : VotesLeft voting' voting'') :
    VotesLeft voting voting'' :=
  fun key entry hentry => h key entry (h' key entry hentry)

theorem votesLeft_revertVote {voter : Address} {voting voting' : VotingDatabases F}
    {d : DecisionId} (h : revertVote voter voting d = .ok voting') :
    VotesLeft voting voting' := by
  obtain ⟨_, -, h⟩ := bind_eq_ok_iff.mp h
  rw [← Except.ok.inj h]
  intro key entry hentry
  rw [VotingDatabases.deleteVote, Std.ExtTreeMap.getElem?_erase] at hentry
  split at hentry
  · cases hentry
  · exact hentry

section

variable [F64 F] [DecidableEq F]

/-- Take back the claims of a transaction. -/
def takeBack (db : Dbs F) (tx : Transaction F) : Except Error (Dbs F) :=
  revertClaims db tx.claimPayloads

/-- What undoing transactions does to the state. -/
structure Undoing (s : State F) (txs : List (Transaction F)) (s' : State F) : Prop where
  frame : s' = { s with
    coins := s'.coins, markets := s'.markets, voting := s'.voting, decisions := s'.decisions }
  votes : VotesLeft s.voting s'.voting
  decisions : txs.foldlM takeBack s.decisions = .ok s'.decisions

omit [F64 F] in
theorem takeBack_of_no_claims {tx : Transaction F} (h : tx.claimPayloads = []) (db : Dbs F) :
    takeBack db tx = .ok db := by
  rw [takeBack, h]
  rfl

theorem revertTxData_undoing {acc acc' : State F × List (ShareKey × I64)}
    {tx : FilledTransaction F} {data : TxData F} (hdata : tx.transaction.data = some data)
    (h : revertTxData L acc tx data = .ok acc') :
    (acc'.1 = { acc.1 with
      coins := acc'.1.coins, markets := acc'.1.markets, voting := acc'.1.voting
      decisions := acc'.1.decisions }) ∧
      VotesLeft acc.1.voting acc'.1.voting ∧
      takeBack acc.1.decisions tx.transaction = .ok acc'.1.decisions := by
  have hnone : ∀ db : Dbs F, tx.transaction.claimPayloads = [] →
      takeBack db tx.transaction = .ok db := fun db hclaims => takeBack_of_no_claims hclaims db
  cases data with
  | claimDecision payload =>
      simp only [revertTxData, bind_eq_ok_iff, Except.ok.injEq] at h
      obtain ⟨decisions, hdecisions, rfl⟩ := h
      refine ⟨rfl, .of_eq rfl, ?_⟩
      rw [takeBack, Transaction.claimPayloads, hdata]
      exact hdecisions
  | createMarket creation =>
      simp only [revertTxData, revertCreateMarket, bind_eq_ok_iff, Except.ok.injEq] at h
      obtain ⟨_, ⟨creator, -, decisions, hdecisions, rfl⟩, rfl⟩ := h
      refine ⟨rfl, .of_eq rfl, ?_⟩
      rw [takeBack, Transaction.claimPayloads, hdata]
      exact hdecisions
  | trade trade =>
      simp only [revertTxData, bind_eq_ok_iff, Except.ok.injEq] at h
      obtain ⟨⟨s₁, delta⟩, hrevert, rfl⟩ := h
      obtain ⟨_, _, -, -, -, -, hs₁⟩ := revertTradeMarketState_eq_ok hrevert
      rw [hs₁]
      exact ⟨rfl, .of_eq rfl, hnone _ (by rw [Transaction.claimPayloads, hdata])⟩
  | submitVote vote =>
      simp only [revertTxData, bind_eq_ok_iff, Except.ok.injEq] at h
      obtain ⟨voting, hvoting, rfl⟩ := h
      exact ⟨rfl, votesLeft_revertVote hvoting,
        hnone _ (by rw [Transaction.claimPayloads, hdata])⟩
  | submitBallot ballot =>
      simp only [revertTxData, bind_eq_ok_iff, Except.ok.injEq] at h
      obtain ⟨voting, hvoting, rfl⟩ := h
      refine ⟨rfl, ?_, hnone _ (by rw [Transaction.claimPayloads, hdata])⟩
      exact foldlM_preserves (P := VotesLeft acc.1.voting)
        (fun _ _ _ _ hleft hstep => hleft.trans (votesLeft_revertVote hstep)) hvoting (.of_eq rfl)
  | transferReputation transfer =>
      rw [← Except.ok.inj h]
      exact ⟨rfl, .of_eq rfl, hnone _ (by rw [Transaction.claimPayloads, hdata])⟩
  | amplifyBeta amplify =>
      simp only [revertTxData, revertAmplifyBeta, bind_eq_ok_iff, Except.ok.injEq] at h
      obtain ⟨_, ⟨_, -, _, -, _, -, rfl⟩, rfl⟩ := h
      exact ⟨rfl, .of_eq rfl, hnone _ (by rw [Transaction.claimPayloads, hdata])⟩

omit [F64 F] [DecidableEq F] in
theorem transaction_of_fillTransactionFromStxos {coins : Coins} {tx : Transaction F}
    {filled : FilledTransaction F}
    (h : State.fillTransactionFromStxos L coins tx = .ok filled) : filled.transaction = tx := by
  simp only [State.fillTransactionFromStxos, bind_eq_ok_iff, Except.ok.injEq] at h
  obtain ⟨_, -, rfl⟩ := h
  rfl

theorem revertTransaction_undoing {acc acc' : State F × List (ShareKey × I64)}
    {tx : Transaction F} (h : revertTransaction L acc tx = .ok acc') :
    Undoing acc.1 [tx] acc'.1 := by
  obtain ⟨filledTx, mid, coins, hfilled, hdata, -, rfl⟩ := revertTransaction_eq_ok h
  obtain rfl := transaction_of_fillTransactionFromStxos hfilled
  rcases hdata with ⟨hnone, rfl⟩ | ⟨data, hdata, hmid⟩
  · refine ⟨rfl, .of_eq rfl, ?_⟩
    rw [List.foldlM_cons, takeBack_of_no_claims (by rw [Transaction.claimPayloads, hnone])]
    rfl
  · obtain ⟨hframe, hvotes, hdecisions⟩ := revertTxData_undoing hdata hmid
    refine ⟨?_, hvotes, ?_⟩
    · rw [hframe]
    · rw [List.foldlM_cons, hdecisions]
      rfl

omit [F64 F] in
theorem Undoing.append {txs txs' : List (Transaction F)} {s s' s'' : State F}
    (h : Undoing s txs s') (h' : Undoing s' txs' s'') : Undoing s (txs ++ txs') s'' := by
  refine ⟨?_, h.votes.trans h'.votes, ?_⟩
  · rw [h'.frame, h.frame]
  · rw [List.foldlM_append, h.decisions]
    exact h'.decisions

theorem undoing_foldlM {txs : List (Transaction F)} {acc acc' : State F × List (ShareKey × I64)}
    (h : txs.foldlM (revertTransaction L) acc = .ok acc') : Undoing acc.1 txs acc'.1 := by
  induction txs generalizing acc with
  | nil =>
      rw [← Except.ok.inj h]
      exact ⟨rfl, .of_eq rfl, rfl⟩
  | cons tx txs ih =>
      obtain ⟨acc₁, hfirst, hrest⟩ := bind_eq_ok_iff.mp h
      exact (revertTransaction_undoing hfirst).append (ih hrest)

/-- The transactions of a body that are undone, in the order they are undone. -/
def undoneTxs (s : State F) (body : Body F) (height : Nat) : List (Transaction F) :=
  ((body.transactions.zipIdx.filter fun entry =>
    entry.2 ∉ s.skippedTxIndicesUndo[height]?.getD []).map Prod.fst).reverse

/-- The decisions once the claims of the tip are taken back. -/
def decisionsBelow (mintingUndo : Table Nat Nat) (height : Nat) (db : Dbs F) : Dbs F :=
  let db := if height > 0 then db.rollbackDecisionStatesToHeight (height - 1) else db
  let db := mintingUndo[height]?.elim db db.deletePeriodsAbove
  db.restorePeriodPricingUndo height

/-- What disconnecting the tip does to the votes, to the decisions and to their undo rows. -/
structure TablesUndone (s : State F) (body : Body F) (height : Nat) (s' : State F) : Prop where
  tip : s.height = some height
  votes : VotesLeft s.voting s'.voting
  decisions : ∃ db, (undoneTxs s body height).foldlM takeBack s.decisions = .ok db ∧
    s'.decisions = decisionsBelow s.mintingUndo height db
  mintingUndo : s'.mintingUndo = s.mintingUndo.erase height
  skipped : ∀ below, s'.skippedTxIndicesUndo[below]? =
    if below = height then (s.skippedTxIndicesUndo[height]?).filter List.isEmpty
    else s.skippedTxIndicesUndo[below]?

omit [DecidableEq F] in
theorem beforeTxs_frame (t : UndoTrace F) (h : undoSettlement L s t.height = .ok t.unsettled) :
    t.beforeTxs = { s with
      coins := t.beforeTxs.coins, markets := t.beforeTxs.markets
      voting := t.beforeTxs.voting, reputation := t.beforeTxs.reputation
      settlementUndo := t.beforeTxs.settlementUndo, consensusUndo := t.beforeTxs.consensusUndo
      consolidationUndo := t.beforeTxs.consolidationUndo } := by
  rw [UndoTrace.beforeTxs, undoConsolidation_eq, undoConsensus_eq, undoSettlement_eq h]

omit [DecidableEq F] in
theorem votes_beforeTxs (t : UndoTrace F)
    (h : undoSettlement L s t.height = .ok t.unsettled) :
    t.beforeTxs.voting.votes = s.voting.votes := by
  rw [UndoTrace.beforeTxs, undoConsolidation_eq]
  dsimp only
  rw [votes_undoConsensus, undoSettlement_eq h]

/-- The course of a disconnection on the votes and the decisions. -/
theorem tablesUndone_of_disconnectTip {header : Header} {body : Body F}
    (h : disconnectTip L s header body = .ok s') : ∃ height, TablesUndone s body height s' := by
  obtain ⟨t, ht⟩ := disconnectTip_eq_ok_iff.mp h
  have hbefore := beforeTxs_frame t ht.unsettled
  have hundone := ht.undone
  simp only [undoTransactions, bind_eq_ok_iff, Except.ok.injEq, Prod.mk.injEq] at hundone
  obtain ⟨⟨s₁, deltas⟩, hfold, hstate, -⟩ := hundone
  have hundoing := undoing_foldlM hfold
  have hend : s' = { t.reverted with tip := s'.tip, height := s'.height } :=
    setPreviousTip_eq ht.previous
  have hreverted := undoReputationTransfers_eq { t.undone with markets := t.markets } t.height
  rw [UndoTrace.reverted, hreverted, ← hstate, hundoing.frame, hbefore] at hend
  have hskipped : t.beforeTxs.skippedTxIndicesUndo = s.skippedTxIndicesUndo := by rw [hbefore]
  refine ⟨t.height, ?_, ?_, ?_, ?_, ?_⟩
  · have htip := ht.tip
    simp only [checkTip, bind_eq_ok_iff, okOr_eq_ok_iff] at htip
    obtain ⟨_, -, _, -, _, -, htip⟩ := htip
    exact htip
  · rw [hend]
    exact (VotesLeft.of_eq (votes_beforeTxs t ht.unsettled)).trans hundoing.votes
  · refine ⟨s₁.decisions, ?_, by rw [hend]; rfl⟩
    have hdecisions : t.beforeTxs.decisions = s.decisions := by rw [hbefore]
    have hfold := hundoing.decisions
    rw [hskipped, hdecisions] at hfold
    exact hfold
  · rw [hend]
    rfl
  · intro below
    rw [hend]
    dsimp only [revertDecisions]
    cases hrow : s.skippedTxIndicesUndo[t.height]? with
    | none =>
        rw [Option.getD_none, if_pos List.isEmpty_nil, Option.filter_none]
        split
        · rename_i heq
          rw [heq, hrow]
        · rfl
    | some skipped =>
        rw [Option.getD_some]
        by_cases hempty : skipped.isEmpty = true
        · rw [if_pos hempty, Option.filter_some, if_pos hempty]
          split
          · rename_i heq
            rw [heq, hrow]
          · rfl
        · rw [if_neg hempty, Option.filter_some, if_neg hempty, lookup_erase]

end

end Truthcoin.UndoTables
