import Truthcoin.DecisionHistories
import Truthcoin.EntrySets

/-!
# The entries of a run are its claims

Connecting a block adds an entry for each of its claims. Disconnecting it takes these
entries away, one for each claim of its transactions, and then rolls back the histories and
the minted periods: neither has an entry of an older block to take away.
-/

namespace Truthcoin.ClaimRuns

open Truthcoin.Types Truthcoin.Table Truthcoin.Fallible Truthcoin.Decisions Truthcoin.Voting
open Truthcoin.Blocks Truthcoin.Apply Truthcoin.ApplySteps Truthcoin.Connect
open Truthcoin.ConnectTrace Truthcoin.BlockChecks Truthcoin.Disconnect Truthcoin.BlockRun
open Truthcoin.SlotLedger Truthcoin.PricingRun Truthcoin.ClaimOnce Truthcoin.DecisionStates
open Truthcoin.SettlementSteps Truthcoin.TagConnect Truthcoin.ListedRuns Truthcoin.UndoTables
open Truthcoin.DecisionHistories Truthcoin.EntrySets Truthcoin.SampleChain
open Truthcoin.SampleMarkets Truthcoin.Commitments

variable {F : Type} {db db' db'' : Dbs F}

/-- The entries of each period are those of its own decisions, one for each, in order. -/
structure Shelved (db : Dbs F) : Prop extends ClaimedEntries db where
  ascending : Ascending db
  placed : ∀ period, ∀ entry ∈ db.entriesOf period, entry.decisionId.periodIndex = period

theorem Shelved.congr (h : Shelved db) (hsame : SameEntries db db') : Shelved db' := by
  refine ⟨h.toClaimedEntries.congr hsame, ?_, ?_⟩
  · intro period
    rw [hsame]
    exact h.ascending period
  · intro period
    rw [hsame]
    exact h.placed period

/-- The entries of some decisions are taken away. -/
def Removes (ids : List DecisionId) (db db' : Dbs F) : Prop :=
  ∀ period, db'.entriesOf period = (db.entriesOf period).filter fun entry =>
    entry.decisionId ∉ ids

theorem Removes.of_same (h : SameEntries db db') : Removes [] db db' := by
  intro period
  rw [h, eq_comm, List.filter_eq_self]
  simp

theorem Removes.trans {ids ids' : List DecisionId} (h : Removes ids db db')
    (h' : Removes ids' db' db'') : Removes (ids ++ ids') db db'' := by
  intro period
  rw [h', h, List.filter_filter]
  congr 1
  funext entry
  rw [Bool.eq_iff_iff]
  simp only [Bool.and_eq_true, decide_eq_true_eq, List.mem_append, not_or, and_comm]

theorem Shelved.sublist (h : Shelved db)
    (hsub : ∀ period, (db'.entriesOf period).Sublist (db.entriesOf period)) : Shelved db' := by
  refine ⟨⟨?_, ?_⟩, ?_, ?_⟩
  · exact fun period => (h.nodup period).sublist ((hsub period).map _)
  · exact fun period entry hentry => h.claimed period entry ((hsub period).subset hentry)
  · exact fun period => (h.ascending period).sublist (hsub period)
  · exact fun period entry hentry => h.placed period entry ((hsub period).subset hentry)

theorem Shelved.removes {ids : List DecisionId} (h : Shelved db) (hremoves : Removes ids db db') :
    Shelved db' := by
  refine h.sublist fun period => ?_
  rw [hremoves]
  exact List.filter_sublist

theorem entriesOf_putOrDeleteEntries (db : Dbs F) (period : Nat)
    (entries : List (DecisionEntry F)) (period' : Nat) :
    (db.putOrDeleteEntries period entries).entriesOf period' =
      if period' = period then entries else db.entriesOf period' := by
  unfold Dbs.putOrDeleteEntries
  split
  · rename_i hempty
    rw [Dbs.entriesOf, lookup_erase]
    split
    · exact (List.isEmpty_iff.mp hempty).symm
    · rfl
  · rw [Dbs.entriesOf, Dbs.putEntries, lookup_insert]
    split
    · rfl
    · rfl

theorem filter_other_period (h : Shelved db) {d : DecisionId} {period : Nat}
    (hperiod : period ≠ d.periodIndex) :
    (db.entriesOf period).filter (fun entry => entry.decisionId ∉ [d]) = db.entriesOf period := by
  refine List.filter_eq_self.mpr ?_
  intro entry hentry
  have hplaced := h.placed period entry hentry
  rw [decide_eq_true_eq, List.mem_singleton]
  rintro rfl
  exact hperiod hplaced.symm

theorem removes_unclaim (h : Shelved db) (d : DecisionId) : Removes [d] db (db.unclaim d) := by
  intro period
  unfold Dbs.unclaim
  split
  · rename_i entries hrow
    have hentries : db.entriesOf d.periodIndex = entries := by
      rw [Dbs.entriesOf, hrow, Option.getD_some]
    rw [entriesOf_putOrDeleteEntries]
    split
    · rename_i hperiod
      rw [hperiod, hentries]
      simp only [List.mem_singleton, ne_eq]
    · rename_i hperiod
      exact (filter_other_period h hperiod).symm
  · rename_i hrow
    by_cases hperiod : period = d.periodIndex
    · rw [hperiod, Dbs.entriesOf, hrow]
      rfl
    · exact (filter_other_period h hperiod).symm

theorem removes_revertDecisionClaim [DecidableEq F] (h : Shelved db) (d : DecisionId) :
    Removes [d] db (db.revertDecisionClaim d) := by
  intro period
  unfold Dbs.revertDecisionClaim
  dsimp only
  by_cases hperiod : period = d.periodIndex
  · subst hperiod
    split
    · rename_i entry hfind
      rw [entriesOf_putOrDeleteEntries, if_pos rfl]
      have hid : entry.decisionId = d := by simpa using List.find?_some hfind
      have hmem := List.mem_of_find?_eq_some hfind
      rw [List.Nodup.erase_eq_filter ((h.nodup _).of_map _)]
      refine List.filter_congr fun other hother => ?_
      rw [Bool.eq_iff_iff, bne_iff_ne, decide_eq_true_eq, List.mem_singleton, not_iff_not]
      constructor
      · rintro rfl
        exact hid
      · exact fun hother' =>
          List.inj_on_of_nodup_map (h.nodup _) hother hmem (hother'.trans hid.symm)
    · rename_i hfind
      rw [eq_comm, List.filter_eq_self]
      intro entry hentry
      have hnone := List.find?_eq_none.mp hfind entry hentry
      simpa using hnone
  · rw [filter_other_period h hperiod]
    split
    · rw [entriesOf_putOrDeleteEntries, if_neg hperiod]
    · rfl

theorem removes_foldlM {α : Type} {f : Dbs F → α → Except Error (Dbs F)}
    {ids : α → List DecisionId}
    (hstep : ∀ a db db', Shelved db → f db a = .ok db' → Removes (ids a) db db')
    {l : List α} (hdb : Shelved db) (h : l.foldlM f db = .ok db') :
    Removes (l.flatMap ids) db db' := by
  induction l generalizing db with
  | nil =>
      rw [← Except.ok.inj h]
      exact .of_same fun _ => rfl
  | cons a l ih =>
      obtain ⟨db₁, hfirst, hrest⟩ := bind_eq_ok_iff.mp h
      have hremoves := hstep a db db₁ hdb hfirst
      rw [List.flatMap_cons]
      exact hremoves.trans (ih (hdb.removes hremoves) hrest)

theorem removes_takeBack [DecidableEq F] {tx : Transaction F} (hdb : Shelved db)
    (h : takeBack db tx = .ok db') : Removes tx.claimedIds db db' := by
  have hflat : tx.claimedIds = (tx.claimPayloads.flatMap ClaimDecisionPayload.decisions).flatMap
      fun entry => [entry.decisionIdBytes] := by
    rw [List.flatMap_assoc, Transaction.claimedIds]
    simp only [List.map_eq_flatMap]
  rw [hflat]
  have hstep : ∀ (entry : DecisionClaimEntry) (db₁ db₂ : Dbs F), Shelved db₁ →
      (do
        let decisionId ← DecisionId.fromBytes entry.decisionIdBytes
        .ok (db₁.revertDecisionClaim decisionId)) = .ok db₂ →
      Removes [entry.decisionIdBytes] db₁ db₂ := by
    intro entry db₁ db₂ hdb₁ hentry
    simp only [DecisionId.fromBytes_eq, ok_bind, Except.ok.injEq] at hentry
    rw [← hentry]
    exact removes_revertDecisionClaim hdb₁ _
  exact removes_foldlM hstep hdb h

/-- The decisions whose histories have no entry up to a height. -/
def unclaimedAt (db : Dbs F) (height : Nat) : List DecisionId :=
  (db.decisionStateHistories.toList.filter fun row =>
    row.2.currentState ≠ .created ∧
      (row.2.rollbackToHeight height).currentState = .created).map Prod.fst

theorem removes_rollback (h : Shelved db) (height : Nat) :
    Removes (unclaimedAt db height) db (db.rollbackDecisionStatesToHeight height) := by
  have hhistories : ∀ rows : List (DecisionId × DecisionStateHistory F),
      (rows.foldl (fun db row => db.putHistory row.1 (row.2.rollbackToHeight height))
        db).periodDecisions = db.periodDecisions := by
    intro rows
    exact List.foldlRecOn (motive := fun db' : Dbs F => db'.periodDecisions = db.periodDecisions)
      _ _ rfl fun _ hdb _ _ => hdb
  have hunclaim : ∀ ids : List DecisionId, ∀ db : Dbs F, Shelved db →
      Removes ids db (ids.foldl Dbs.unclaim db) := by
    intro ids
    induction ids with
    | nil => exact fun db _ => .of_same fun _ => rfl
    | cons d ids ih =>
        intro db hdb
        have hfirst := removes_unclaim hdb d
        exact hfirst.trans (ih _ (hdb.removes hfirst))
  have hcut := SameEntries.of_rows (hhistories db.decisionStateHistories.toList)
  exact (Removes.of_same hcut).trans (hunclaim _ _ (h.congr hcut))

theorem not_mem_unclaimedAt {height below : Nat} {d : DecisionId}
    {history : DecisionStateHistory F} (hrow : db.decisionStateHistories[d]? = some history)
    (hlife : LifeCycle history) {entry : DecisionState × Nat × Option F}
    (hentry : entry ∈ history.stateHistory) (hbelow : entry.2.1 ≤ below) (hle : below ≤ height) :
    d ∉ unclaimedAt db height := by
  intro hmem
  obtain ⟨⟨d', history'⟩, hfiltered, rfl⟩ := List.mem_map.mp hmem
  obtain ⟨hrow', hcreated⟩ := List.mem_filter.mp hfiltered
  obtain rfl := Option.some.inj (hrow.symm.trans (mem_toList_iff.mp hrow'))
  rw [decide_eq_true_eq, (hlife.rollback height).currentState_eq_created] at hcreated
  have hkept : entry ∈ (history.rollbackToHeight height).stateHistory :=
    List.mem_filter.mpr ⟨hentry, decide_eq_true (hbelow.trans hle)⟩
  rw [hcreated.2] at hkept
  exact List.not_mem_nil hkept

theorem entriesOf_deletePeriodsAbove (db : Dbs F) (highest period : Nat) :
    (db.deletePeriodsAbove highest).entriesOf period =
      if highest < period then [] else db.entriesOf period := by
  rw [Dbs.entriesOf, Dbs.deletePeriodsAbove]
  dsimp only
  simp only [lookup_foldl_erase, List.mem_filter, mem_mintedPeriods, decide_eq_true_eq]
  by_cases habove : highest < period
  · rw [if_pos habove]
    split
    · rfl
    · rename_i hnot
      have habsent : db.periodDecisions[period]? = none :=
        lookup_eq_none_iff.mpr fun hmem => hnot ⟨hmem, habove⟩
      rw [habsent]
      rfl
  · rw [if_neg habove, if_neg fun hmem => habove hmem.2]
    rfl

theorem entriesOf_restorePeriodPricingUndo (db : Dbs F) (height period : Nat) :
    (db.restorePeriodPricingUndo height).entriesOf period = db.entriesOf period := by
  unfold Dbs.restorePeriodPricingUndo
  split <;> rfl

theorem entriesOf_decisionsBelow (h : Shelved db) (mintingUndo : Table Nat Nat)
    (height period : Nat) :
    (decisionsBelow mintingUndo height db).entriesOf period =
      if ∃ highest ∈ mintingUndo[height]?, highest < period then []
      else if 0 < height then (db.entriesOf period).filter fun entry =>
        entry.decisionId ∉ unclaimedAt db (height - 1)
      else db.entriesOf period := by
  have hcut : (if height > 0 then db.rollbackDecisionStatesToHeight (height - 1)
      else db).entriesOf period =
        if 0 < height then (db.entriesOf period).filter fun entry =>
          entry.decisionId ∉ unclaimedAt db (height - 1)
        else db.entriesOf period := by
    split
    · exact removes_rollback h (height - 1) period
    · rfl
  unfold decisionsBelow
  dsimp only
  rw [entriesOf_restorePeriodPricingUndo]
  cases mintingUndo[height]? with
  | none => simpa using hcut
  | some highest =>
      rw [Option.elim_some, entriesOf_deletePeriodsAbove, hcut]
      simp only [Option.mem_some_iff, exists_eq_left']

theorem mem_decisionsBelow (h : Shelved db) {mintingUndo : Table Nat Nat}
    {height period : Nat} {entry : DecisionEntry F} :
    entry ∈ (decisionsBelow mintingUndo height db).entriesOf period ↔
      entry ∈ db.entriesOf period ∧
        (∀ highest, mintingUndo[height]? = some highest → period ≤ highest) ∧
        (0 < height → entry.decisionId ∉ unclaimedAt db (height - 1)) := by
  rw [entriesOf_decisionsBelow h]
  by_cases habove : ∃ highest ∈ mintingUndo[height]?, highest < period
  · rw [if_pos habove]
    obtain ⟨highest, hrow, hlt⟩ := habove
    refine iff_of_false List.not_mem_nil ?_
    rintro ⟨-, hle, -⟩
    exact absurd (hle highest hrow) (Nat.not_le.mpr hlt)
  · have hle : ∀ highest, mintingUndo[height]? = some highest → period ≤ highest :=
      fun highest hrow => Nat.not_lt.mp fun hlt => habove ⟨highest, hrow, hlt⟩
    rw [if_neg habove]
    split
    · rename_i hheight
      rw [List.mem_filter, decide_eq_true_eq]
      exact ⟨fun hmem => ⟨hmem.1, hle, fun _ => hmem.2⟩, fun hmem => ⟨hmem.1, hmem.2.2 hheight⟩⟩
    · rename_i hheight
      exact ⟨fun hmem => ⟨hmem, hle, fun hpos => absurd hpos hheight⟩, fun hmem => hmem.1⟩

theorem Shelved.decisionsBelow (h : Shelved db) (mintingUndo : Table Nat Nat) (height : Nat) :
    Shelved (decisionsBelow mintingUndo height db) := by
  refine h.sublist fun period => ?_
  rw [entriesOf_decisionsBelow h]
  split
  · exact List.nil_sublist _
  · split
    · exact List.filter_sublist
    · exact List.Sublist.refl _

/-- The history of a decision has an entry up to a height. -/
def ReachedBy (db : Dbs F) (d : DecisionId) (height : Nat) : Prop :=
  ∃ history, db.decisionStateHistories[d]? = some history ∧
    ∃ entry ∈ history.stateHistory, entry.2.1 ≤ height

theorem ReachedBy.congr {d : DecisionId} {height : Nat} (h : ReachedBy db d height)
    (hsame : db'.decisionStateHistories = db.decisionStateHistories) : ReachedBy db' d height := by
  rw [ReachedBy, hsame]
  exact h

theorem ReachedBy.extend {d d' : DecisionId} {height : Nat} (h : ReachedBy db d height)
    {old : DecisionStateHistory F} (hold : db.decisionStateHistories[d']? = some old)
    (entries : List (DecisionState × Nat × Option F)) :
    ReachedBy (db.putHistory d' ⟨old.stateHistory ++ entries⟩) d height := by
  obtain ⟨history, hrow, entry, hentry, hle⟩ := h
  by_cases heq : d = d'
  · subst heq
    obtain rfl := Option.some.inj (hold.symm.trans hrow)
    refine ⟨_, by rw [Dbs.putHistory, lookup_insert, if_pos rfl], entry, ?_, hle⟩
    exact List.mem_append_left _ hentry
  · exact ⟨history, by rw [Dbs.putHistory, lookup_insert, if_neg heq]; exact hrow, entry, hentry,
      hle⟩

theorem ReachedBy.transitionDecisionToVoting {d d' : DecisionId} {height below : Nat}
    (h : ReachedBy db d below) (hstep : db.transitionDecisionToVoting d' height = .ok db') :
    ReachedBy db' d below := by
  simp only [Dbs.transitionDecisionToVoting, DecisionStateHistory.transitionToVoting,
    bind_eq_ok_iff, okOr_eq_ok_iff, Except.ok.injEq] at hstep
  obtain ⟨history, hrow, _, ⟨_, -, rfl⟩, rfl⟩ := hstep
  exact h.extend hrow _

theorem ReachedBy.transitionDecisionToResolved [F64 F] {d d' : DecisionId} {height below : Nat}
    {outcome : F} (h : ReachedBy db d below)
    (hstep : db.transitionDecisionToResolved d' height outcome = .ok db') :
    ReachedBy db' d below := by
  simp only [Dbs.transitionDecisionToResolved, DecisionStateHistory.transitionToResolved,
    bind_eq_ok_iff, okOr_eq_ok_iff, Except.ok.injEq] at hstep
  obtain ⟨history, hrow, _, ⟨_, -, _, -, rfl⟩, rfl⟩ := hstep
  exact h.extend hrow _

theorem histories_claims [DecidableEq F] {claims : List (Claim F)} {height : Nat}
    (h : claims.foldlM (Claim.apply height) db = .ok db') (d : DecisionId) :
    db'.decisionStateHistories[d]? =
      if d ∈ claims.map Claim.decisionId then some (DecisionStateHistory.new height)
      else db.decisionStateHistories[d]? := by
  have hstep : ∀ (claim : Claim F) (db₁ db₂ : Dbs F), claim.apply height db₁ = .ok db₂ →
      ∀ d', db₂.decisionStateHistories[d']? =
        if d' = claim.decisionId then some (DecisionStateHistory.new height)
        else db₁.decisionStateHistories[d']? := by
    intro claim db₁ db₂ hclaim d'
    rw [(claimDecision_eq_ok hclaim).2.1, lookup_insert]
  exact foldlM_sets hstep h d

theorem ReachedBy.claims [DecidableEq F] {claims : List (Claim F)} {height below : Nat}
    {d : DecisionId} (hd : ReachedBy db d below) (hnew : d ∉ claims.map Claim.decisionId)
    (h : claims.foldlM (Claim.apply height) db = .ok db') : ReachedBy db' d below := by
  obtain ⟨history, hrow, hentry⟩ := hd
  exact ⟨history, by rw [histories_claims h, if_neg hnew, hrow], hentry⟩

theorem reachedBy_of_claims [DecidableEq F] {claims : List (Claim F)} {height : Nat}
    {d : DecisionId} (hnew : d ∈ claims.map Claim.decisionId)
    (h : claims.foldlM (Claim.apply height) db = .ok db') : ReachedBy db' d height :=
  ⟨DecisionStateHistory.new height, by rw [histories_claims h, if_pos hnew],
    (.claimed, height, none), List.mem_singleton.mpr rfl, le_rfl⟩

theorem ReachedBy.decisionsBelow {d : DecisionId} {below height : Nat}
    (h : ReachedBy db d below) (hlt : below < height) (mintingUndo : Table Nat Nat) :
    ReachedBy (decisionsBelow mintingUndo height db) d below := by
  obtain ⟨history, hrow, entry, hentry, hle⟩ := h
  have hcut : ReachedBy (db.rollbackDecisionStatesToHeight (height - 1)) d below := by
    refine ⟨_, by rw [lookup_rollback, hrow]; rfl, entry, ?_, hle⟩
    exact List.mem_filter.mpr ⟨hentry, decide_eq_true (by omega)⟩
  refine hcut.congr ?_
  unfold UndoTables.decisionsBelow
  dsimp only
  rw [histories_restorePeriodPricingUndo, if_pos (show height > 0 by omega)]
  cases mintingUndo[height]? <;> rfl

section

variable [F64 F] [DecidableEq F] {L : Library F} {config : DecisionConfig} {archive : Archive}
  {s s' : State F} {block : Block F} {t : Trace F}

/-- A block keeps since when a decision has a history, but for those that it claims. -/
theorem reachedBy_connect (ht : Connects L config archive s block t) (d : DecisionId) :
    (d ∈ (blockClaims L s block).map Claim.decisionId →
      ReachedBy (t.finished L block).decisions d t.height) ∧
      ∀ below, d ∉ (blockClaims L s block).map Claim.decisionId →
        ReachedBy s.decisions d below → ReachedBy (t.finished L block).decisions d below := by
  obtain ⟨hclaims, -⟩ := blockClaims_of_prepares ht.toPrepares
  have hend : ∀ below, ReachedBy t.applied.state.decisions d below →
      ReachedBy (t.finished L block).decisions d below := by
    intro below happlied
    rw [finished_decisions ht]
    exact decisions_of_resolvePeriods (P := fun db : Dbs F => ReachedBy db d below)
      (fun _ _ _ _ hdb hstep => hdb.transitionDecisionToResolved hstep)
      (happlied.congr (histories_of_priceBlock ht.priced)) ht.tables
  refine ⟨fun hnew => hend _ (reachedBy_of_claims hnew hclaims), fun below hold hd => ?_⟩
  have hstart : ReachedBy (startBlock s block.body t.height block.mainchainTimestamp).decisions
      d below := by
    rw [startBlock_eq]
    exact hd.congr rfl
  have hvoting : ReachedBy t.voting d below :=
    foldlM_preserves (P := fun db : Dbs F => ReachedBy db d below)
      (fun _ _ _ _ hdb hstep => hdb.transitionDecisionToVoting hstep) ht.voting hstart
  exact hend below (hvoting.claims hold hclaims)

omit [F64 F] in
theorem ascending_claimDecision {d : DecisionId} {decision : Decision F} {txid : Txid}
    {height : Nat} (hdb : Ascending db)
    (h : db.claimDecision d decision txid height = .ok db') : Ascending db' := by
  intro period
  rw [entriesOf_claimDecision h]
  split
  · unfold Dbs.insertEntry
    split
    · exact hdb d.periodIndex
    · have htotal : Std.Total fun a b : DecisionEntry F =>
          a.decisionId.toNat ≤ b.decisionId.toNat := ⟨fun a b => le_total _ _⟩
      have htrans : IsTrans (DecisionEntry F) fun a b =>
          a.decisionId.toNat ≤ b.decisionId.toNat := ⟨fun _ _ _ => le_trans⟩
      exact (hdb d.periodIndex).orderedInsert _ _
  · exact hdb period

theorem shelved_applyBlock (hs : Shelved s.decisions)
    (h : applyBlock L config archive s block = .ok s') : Shelved s'.decisions := by
  obtain ⟨hentries, hadds⟩ := addsClaims_of_applyBlock hs.toClaimedEntries h
  refine ⟨hentries, ?_, ?_⟩
  · obtain ⟨t, ht, rfl⟩ := connects_of_applyBlock h
    have hvoting : SameEntries s.decisions t.voting := .of_rows (sameSlots_voting ht.toPrepares).1
    have happlied : Ascending t.applied.state.decisions :=
      foldlM_preserves (P := Ascending)
        (fun _ _ _ _ hdb hstep => ascending_claimDecision hdb hstep)
        (blockClaims_of_prepares ht.toPrepares).1 fun period => by
          rw [hvoting]
          exact hs.ascending period
    intro period
    rw [sameEntries_finished ht]
    exact happlied period
  · intro period entry hentry
    rcases (hadds.entries period entry).mp hentry with hold | ⟨c, -, hperiod, rfl⟩
    · exact hs.placed period entry hold
    · exact hperiod

theorem finished_mintingUndo (ht : Connects L config archive s block t) :
    (t.finished L block).mintingUndo =
      s.mintingUndo.insert t.height (s.decisions.getHighestMintedPeriod.getD 0) := by
  have hframe := transitionAndPayoutResolvedMarkets_framed ht.paid
  have happlied := framed_of_applyTransactions ht.applied
  change t.paid.mintingUndo = _
  rw [hframe]
  change t.applied.state.mintingUndo = _
  rw [happlied]
  change (startBlock s block.body t.height block.mainchainTimestamp).mintingUndo = _
  rw [startBlock_eq]

theorem finished_skippedTxIndicesUndo (ht : Connects L config archive s block t) :
    (t.finished L block).skippedTxIndicesUndo =
      putUndo s.skippedTxIndicesUndo t.height t.applied.skipped := by
  have hframe := transitionAndPayoutResolvedMarkets_framed ht.paid
  have happlied := framed_of_applyTransactions ht.applied
  have hsame : t.paid.skippedTxIndicesUndo = s.skippedTxIndicesUndo := by
    rw [hframe]
    change t.applied.state.skippedTxIndicesUndo = _
    rw [happlied]
    change (startBlock s block.body t.height block.mainchainTimestamp).skippedTxIndicesUndo = _
    rw [startBlock_eq]
  change putUndo t.paid.skippedTxIndicesUndo t.height t.applied.skipped = _
  rw [hsame]

theorem no_claims_of_skipped (ht : Connects L config archive s block t) {i : Nat}
    (hi : i ∈ t.applied.skipped) {tx : Transaction F}
    (htx : block.body.transactions[i]? = some tx) :
    tx.claimedIds = [] := by
  have hpre := prevalidated_of_prevalidate ht.prevalidated
  have hindices : (t.pre.filledTransactions.zipIdx.map Prod.snd).Nodup := by
    rw [List.zipIdx_map_snd]
    exact List.nodup_range'
  rcases (effects_of_foldlM hindices (by simp) ht.applied).2.2 i hi with hold | hnew
  · simp at hold
  · obtain ⟨⟨filled, i'⟩, he, rfl, trade, hdata⟩ := hnew
    have hfilled : t.pre.filledTransactions[i']? = some filled :=
      List.mk_mem_zipIdx_iff_getElem?.mp he
    rw [← hpre.map_transaction, List.getElem?_map, hfilled, Option.map_some] at htx
    rw [← Option.some.inj htx, Transaction.claimedIds, Transaction.claimPayloads, hdata]
    rfl

end

section

variable [F64 F] {L : Library F} {s s' : State F} {c : State F × Block F}
  {connected older : List (State F × Block F)}

/-- The claims of blocks, each with the state that it is connected in. -/
def claimsOf (L : Library F) (connected : List (State F × Block F)) : List (Claim F) :=
  connected.flatMap fun c => blockClaims L c.1 c.2

/-- What a state has to take a block back, without a loss for the older blocks. -/
structure Undoable (L : Library F) (s : State F) (c : State F × Block F)
    (older : List (State F × Block F)) : Prop where
  claimed : (blockClaims L c.1 c.2).map Claim.decisionId = claimedIn c.2
  reached : ∀ claim ∈ blockClaims L c.1 c.2, ReachedBy s.decisions claim.decisionId older.length
  minted : ∀ highest, s.mintingUndo[older.length]? = some highest →
    ∀ claim ∈ claimsOf L older, claim.decisionId.periodIndex ≤ highest
  skipped : ∀ i ∈ s.skippedTxIndicesUndo[older.length]?.getD [],
    ∀ tx, c.2.body.transactions[i]? = some tx → tx.claimedIds = []

/-- The entries of a state are the claims of the connected blocks, newest first. -/
structure ClaimsKept (L : Library F) (connected : List (State F × Block F)) (s : State F) :
    Prop where
  shelved : Shelved s.decisions
  entries : ∀ period entry, entry ∈ s.decisions.entriesOf period ↔
    ∃ claim ∈ claimsOf L connected,
      claim.decisionId.periodIndex = period ∧ entry = Claim.entry claim
  nodup : ((claimsOf L connected).map Claim.decisionId).Nodup
  above : ∀ height, connected.length ≤ height → s.skippedTxIndicesUndo[height]?.getD [] = []
  undo : ∀ newer c older, connected = newer ++ c :: older → Undoable L s c older

theorem ClaimsKept.congr (h : ClaimsKept L connected s) (hdecisions : s'.decisions = s.decisions)
    (hminting : s'.mintingUndo = s.mintingUndo)
    (hskipped : s'.skippedTxIndicesUndo = s.skippedTxIndicesUndo) : ClaimsKept L connected s' := by
  refine ⟨hdecisions ▸ h.shelved, hdecisions ▸ h.entries, h.nodup, hskipped ▸ h.above, ?_⟩
  intro newer c older hconnected
  obtain ⟨hclaimed, hreached, hminted, hnone⟩ := h.undo newer c older hconnected
  exact ⟨hclaimed, hdecisions ▸ hreached, hminting ▸ hminted, hskipped ▸ hnone⟩

theorem ClaimsKept.mem_entriesOf (h : ClaimsKept L connected s) {claim : Claim F}
    (hclaim : claim ∈ claimsOf L connected) :
    Claim.entry claim ∈ s.decisions.entriesOf claim.decisionId.periodIndex :=
  (h.entries _ _).mpr ⟨claim, hclaim, rfl, rfl⟩

theorem ClaimsKept.le_highest (h : ClaimsKept L connected s) {claim : Claim F}
    (hclaim : claim ∈ claimsOf L connected) :
    claim.decisionId.periodIndex ≤ s.decisions.getHighestMintedPeriod.getD 0 := by
  have hentry := h.mem_entriesOf hclaim
  refine le_highest_of_mem ?_
  by_contra habsent
  rw [Dbs.entriesOf, lookup_eq_none_iff.mpr habsent] at hentry
  exact List.not_mem_nil hentry

variable [DecidableEq F] {config : DecisionConfig} {archive : Archive} {block : Block F}

theorem ClaimsKept.connect (hkept : ClaimsKept L connected s)
    (hheight : s.height = tipHeight (connected.map Prod.snd))
    (h : applyBlock L config archive s block = .ok s') :
    ClaimsKept L ((s, block) :: connected) s' := by
  obtain ⟨-, hadds⟩ := addsClaims_of_applyBlock hkept.shelved.toClaimedEntries h
  have hshelved := shelved_applyBlock hkept.shelved h
  obtain ⟨t, ht, rfl⟩ := connects_of_applyBlock h
  have hlength : t.height = connected.length := by
    rw [height_of_prepares hheight ht.toPrepares, List.length_map]
  -- a decision that an older block claims has an entry, which the new claims lack
  have hfresh : ∀ claim ∈ claimsOf L connected,
      claim.decisionId ∉ (blockClaims L s block).map Claim.decisionId := by
    intro claim hclaim hmem
    obtain ⟨new, hnew, hid⟩ := List.mem_map.mp hmem
    refine hadds.fresh new hnew ?_
    rw [hid]
    exact List.mem_map.mpr ⟨_, hkept.mem_entriesOf hclaim, rfl⟩
  refine ⟨hshelved, ?_, ?_, ?_, ?_⟩
  · intro period entry
    rw [hadds.entries, hkept.entries]
    simp only [claimsOf, List.flatMap_cons, List.mem_append, or_and_right, exists_or]
    exact or_comm
  · rw [claimsOf, List.flatMap_cons, List.map_append, List.nodup_append]
    refine ⟨hadds.nodup, hkept.nodup, ?_⟩
    rintro d hd _ hold rfl
    obtain ⟨claim, hclaim, rfl⟩ := List.mem_map.mp hold
    exact hfresh claim hclaim hd
  · intro height habove
    rw [List.length_cons] at habove
    rw [finished_skippedTxIndicesUndo ht, lookup_putUndo_ne (by omega)]
    exact hkept.above height (by omega)
  · intro newer c older hconnected
    cases newer with
    | nil =>
        obtain ⟨rfl, rfl⟩ := List.cons.inj hconnected
        refine ⟨hadds.claimedIn_eq.symm, ?_, ?_, ?_⟩
        · intro claim hclaim
          rw [← hlength]
          exact (reachedBy_connect ht _).1 (List.mem_map_of_mem hclaim)
        · intro highest hrow claim hclaim
          rw [finished_mintingUndo ht, ← hlength, lookup_insert, if_pos rfl] at hrow
          rw [← Option.some.inj hrow]
          exact hkept.le_highest hclaim
        · intro i hi tx htx
          rw [finished_skippedTxIndicesUndo ht] at hi
          cases hrow : (putUndo s.skippedTxIndicesUndo t.height t.applied.skipped)[
              connected.length]? with
          | none => simp [hrow] at hi
          | some skipped =>
              rw [hrow, Option.getD_some] at hi
              rcases putUndo_eq_some hrow with hold | ⟨-, rfl⟩
              · have hnone := hkept.above connected.length le_rfl
                rw [hold, Option.getD_some] at hnone
                simp [hnone] at hi
              · exact no_claims_of_skipped ht hi htx
    | cons c' newer =>
        rw [List.cons_append, List.cons.injEq] at hconnected
        obtain ⟨rfl, rfl⟩ := hconnected
        have hundo := hkept.undo newer c older rfl
        have hlt : older.length < t.height := by
          rw [hlength, List.length_append, List.length_cons]
          omega
        have hmem : ∀ claim ∈ blockClaims L c.1 c.2,
            claim ∈ claimsOf L (newer ++ c :: older) := fun claim hclaim =>
          List.mem_flatMap.mpr ⟨c, by simp, hclaim⟩
        refine ⟨hundo.claimed, ?_, ?_, ?_⟩
        · intro claim hclaim
          exact (reachedBy_connect ht _).2 _ (hfresh claim (hmem claim hclaim))
            (hundo.reached claim hclaim)
        · intro highest hrow
          rw [finished_mintingUndo ht, lookup_insert, if_neg hlt.ne] at hrow
          exact hundo.minted highest hrow
        · intro i hi
          rw [finished_skippedTxIndicesUndo ht, lookup_putUndo_ne hlt.ne] at hi
          exact hundo.skipped i hi

omit [F64 F] [DecidableEq F] in
theorem mem_undone_claims {body : Body F} {height : Nat}
    (hskipped : ∀ i ∈ s.skippedTxIndicesUndo[height]?.getD [],
      ∀ tx, body.transactions[i]? = some tx → tx.claimedIds = []) {d : DecisionId} :
    d ∈ (undoneTxs s body height).flatMap Transaction.claimedIds ↔
      d ∈ body.transactions.flatMap Transaction.claimedIds := by
  rw [List.mem_flatMap, List.mem_flatMap]
  constructor
  · rintro ⟨tx, htx, hd⟩
    obtain ⟨⟨tx', i⟩, hentry, rfl⟩ := List.mem_map.mp (List.mem_reverse.mp htx)
    have hrow := List.mk_mem_zipIdx_iff_getElem?.mp (List.mem_filter.mp hentry).1
    exact ⟨tx', List.mem_of_getElem? hrow, hd⟩
  · rintro ⟨tx, htx, hd⟩
    obtain ⟨i, hi, hrow⟩ := List.getElem_of_mem htx
    have hrow : body.transactions[i]? = some tx := hrow ▸ List.getElem?_eq_getElem hi
    refine ⟨tx, List.mem_reverse.mpr
      (List.mem_map.mpr ⟨(tx, i), List.mem_filter.mpr ⟨?_, ?_⟩, rfl⟩), hd⟩
    · exact List.mk_mem_zipIdx_iff_getElem?.mpr hrow
    · rw [decide_eq_true_eq]
      intro hmem
      rw [hskipped i hmem tx hrow] at hd
      exact List.not_mem_nil hd

theorem ClaimsKept.disconnect (hkept : ClaimsKept L (c :: older) s)
    (hlife : LifeCycles older.length s.decisions)
    (hundone : TablesUndone s c.2.body older.length s') : ClaimsKept L older s' := by
  obtain ⟨hclaimed, -, hminted, hskipped⟩ := hkept.undo [] c older rfl
  obtain ⟨db, hdb, hdecisions⟩ := hundone.decisions
  have hremoves : Removes _ s.decisions db :=
    removes_foldlM (fun _ _ _ hdb hstep => removes_takeBack hdb hstep) hkept.shelved hdb
  have hshelved : Shelved db := hkept.shelved.removes hremoves
  have hhistories := histories_takeBack hdb
  have hrest : ∀ newer c' older', older = newer ++ c' :: older' → Undoable L s c' older' :=
    fun newer c' older' holder => hkept.undo (c :: newer) c' older' (by rw [holder]; rfl)
  have hnodup := hkept.nodup
  rw [claimsOf, List.flatMap_cons, List.map_append, List.nodup_append, hclaimed] at hnodup
  have hold : ∀ claim ∈ claimsOf L older, claim.decisionId ∉ claimedIn c.2 := fun claim hclaim hd =>
    hnodup.2.2 _ hd _ (List.mem_map_of_mem hclaim) rfl
  -- the rollback leaves the claims of older blocks
  have hrolled : ∀ claim ∈ claimsOf L older, 0 < older.length →
      claim.decisionId ∉ unclaimedAt db (older.length - 1) := by
    intro claim hclaim _
    obtain ⟨c', hc', hmem⟩ := List.mem_flatMap.mp hclaim
    obtain ⟨newer, older', holder⟩ := List.append_of_mem hc'
    obtain ⟨history, hrow, entry, hentry, hle⟩ :=
      (hrest newer c' older' holder).reached claim hmem
    refine not_mem_unclaimedAt (by rw [hhistories]; exact hrow) (hlife _ _ hrow).1 hentry hle ?_
    rw [holder, List.length_append, List.length_cons]
    omega
  refine ⟨?_, ?_, hnodup.2.1, ?_, ?_⟩
  · rw [hdecisions]
    exact hshelved.decisionsBelow _ _
  · intro period entry
    rw [hdecisions, mem_decisionsBelow hshelved, hremoves, List.mem_filter, decide_eq_true_eq,
      mem_undone_claims hskipped, hkept.entries]
    constructor
    · rintro ⟨⟨⟨claim, hclaim, hperiod, rfl⟩, hnew⟩, -, -⟩
      rcases List.mem_append.mp hclaim with hmem | hmem
      · refine absurd ?_ hnew
        rw [← claimedIn, ← hclaimed]
        exact List.mem_map_of_mem hmem
      · exact ⟨claim, hmem, hperiod, rfl⟩
    · rintro ⟨claim, hclaim, rfl, rfl⟩
      have hall : claim ∈ claimsOf L (c :: older) := List.mem_append_right _ hclaim
      exact ⟨⟨⟨claim, hall, rfl, rfl⟩, hold claim hclaim⟩,
        fun highest hrow => hminted highest hrow claim hclaim, hrolled claim hclaim⟩
  · intro height habove
    rw [hundone.skipped]
    split
    · cases hrow : s.skippedTxIndicesUndo[older.length]? with
      | none => rfl
      | some skipped =>
          rw [Option.filter_some]
          split
          · rename_i hempty
            exact List.isEmpty_iff.mp hempty
          · rfl
    · refine hkept.above height ?_
      rw [List.length_cons]
      omega
  · intro newer c' older' holder
    have hundo := hrest newer c' older' holder
    have hlt : older'.length < older.length := by
      rw [holder, List.length_append, List.length_cons]
      omega
    refine ⟨hundo.claimed, ?_, ?_, ?_⟩
    · intro claim hclaim
      rw [hdecisions]
      exact ((hundo.reached claim hclaim).congr hhistories).decisionsBelow hlt _
    · intro highest hrow
      rw [hundone.mintingUndo, lookup_erase, if_neg hlt.ne] at hrow
      exact hundo.minted highest hrow
    · intro i hi
      rw [hundone.skipped, if_neg hlt.ne] at hi
      exact hundo.skipped i hi

variable {lib : WithdrawalBundle.BundleLib} {ok : State F → Block F → Prop}
  {okPeg : State F → TwoWayPegData → Prop} {chain : List (Block F)}

/-- Blocks, newest first, each with the state of a run that it is connected in. -/
inductive Connections (L : Library F) (config : DecisionConfig)
    (lib : WithdrawalBundle.BundleLib) (ok : State F → Block F → Prop)
    (okPeg : State F → TwoWayPegData → Prop) : List (State F × Block F) → Prop where
  | nil : Connections L config lib ok okPeg []
  | cons {older : List (State F × Block F)} {s s' : State F} {block : Block F}
      (archive : Archive) (hrun : Run L config lib ok okPeg (older.map Prod.snd) s)
      (h : applyBlock L config archive s block = .ok s')
      (holder : Connections L config lib ok okPeg older) :
      Connections L config lib ok okPeg ((s, block) :: older)

theorem claimsKept_of_run (hrun : Run L config lib ok okPeg chain s) :
    ∃ connected, connected.map Prod.snd = chain ∧ Connections L config lib ok okPeg connected ∧
      ClaimsKept L connected s := by
  induction hrun with
  | start =>
      refine ⟨[], rfl, .nil, ⟨claimedEntries_empty, ?_, ?_⟩, ?_, List.nodup_nil, ?_, ?_⟩
      · exact fun period => List.Pairwise.nil
      · exact fun period entry hentry => absurd hentry List.not_mem_nil
      · exact fun period entry => ⟨fun hentry => absurd hentry List.not_mem_nil, by simp [claimsOf]⟩
      · intro height _
        simp [State.empty]
      · intro newer c older hnil
        simp at hnil
  | connect archive hrun _ h ih =>
      obtain ⟨connected, rfl, hconnected, hkept⟩ := ih
      exact ⟨(_, _) :: connected, rfl, .cons archive hrun h hconnected,
        hkept.connect (height_of_run hrun) h⟩
  | disconnect hrun h ih =>
      obtain ⟨connected, hchain, hconnected, hkept⟩ := ih
      obtain ⟨c, older, rfl, rfl, rfl⟩ := List.map_eq_cons_iff.mp hchain
      obtain ⟨height, hundone⟩ := tablesUndone_of_disconnectTip h
      have hheight : some height = some (older.map Prod.snd).length :=
        hundone.tip.symm.trans (height_of_run hrun)
      rw [List.length_map] at hheight
      obtain rfl := Option.some.inj hheight
      have hlife := lifeCycles_of_run hrun
      rw [List.length_cons, List.length_map, Nat.add_sub_cancel] at hlife
      cases hconnected with
      | cons _ _ _ holder => exact ⟨older, rfl, holder, hkept.disconnect hlife hundone⟩
  | connectPeg _ _ h ih | disconnectPeg _ h ih =>
      obtain ⟨connected, hchain, hconnected, hkept⟩ := ih
      obtain ⟨p, -, h⟩ := bind_eq_ok_iff.mp h
      rw [← Except.ok.inj h]
      exact ⟨connected, hchain, hconnected, hkept.congr rfl rfl rfl⟩

omit [DecidableEq F] in
theorem ClaimsKept.claimedIn_eq (h : ClaimsKept L connected s) :
    (claimsOf L connected).map Claim.decisionId =
      (connected.map Prod.snd).flatMap claimedIn := by
  have hall : ∀ c ∈ connected, (blockClaims L c.1 c.2).map Claim.decisionId = claimedIn c.2 := by
    intro c hc
    obtain ⟨newer, older, hconnected⟩ := List.append_of_mem hc
    exact (h.undo newer c older hconnected).claimed
  rw [claimsOf, List.map_flatMap, List.flatMap_map]
  exact List.flatMap_congr hall

/-- In every state of a run the lookup of a decision finds the claim that a connected block
has of it, and nothing for a decision that no connected block claims; and the entries of a
period are a set in the order of whole entries, with one entry for a decision. -/
theorem lookupEntry_exact (totalCmp : F → F → Ordering)
    (hrun : Run L config lib ok okPeg chain s) :
    ∃ connected, connected.map Prod.snd = chain ∧ Connections L config lib ok okPeg connected ∧
      (∀ d entry, lookupEntry totalCmp s.decisions d = some entry ↔
        ∃ claim ∈ claimsOf L connected, claim.decisionId = d ∧ entry = Claim.entry claim) ∧
      (∀ d, (∃ entry, lookupEntry totalCmp s.decisions d = some entry) ↔
        d ∈ chain.flatMap claimedIn) ∧
      ∀ period, (s.decisions.entriesOf period).Pairwise (fun a b => cmpEntry totalCmp a b = .lt) ∧
        ((s.decisions.entriesOf period).map DecisionEntry.decisionId).Nodup := by
  obtain ⟨connected, rfl, hconnected, hkept⟩ := claimsKept_of_run hrun
  have hentries := hkept.shelved.toClaimedEntries
  have hexact : ∀ d entry, lookupEntry totalCmp s.decisions d = some entry ↔
      ∃ claim ∈ claimsOf L connected, claim.decisionId = d ∧ entry = Claim.entry claim := by
    intro d entry
    rw [lookupEntry_eq hentries hkept.shelved.ascending, hentries.getDecisionEntry_iff,
      hkept.entries]
    constructor
    · rintro ⟨⟨claim, hclaim, -, rfl⟩, hid⟩
      exact ⟨claim, hclaim, hid, rfl⟩
    · rintro ⟨claim, hclaim, rfl, rfl⟩
      exact ⟨⟨claim, hclaim, rfl, rfl⟩, rfl⟩
  refine ⟨connected, rfl, hconnected, hexact, ?_, ?_⟩
  · intro d
    rw [← hkept.claimedIn_eq, List.mem_map]
    simp only [hexact]
    constructor
    · rintro ⟨entry, claim, hclaim, hid, -⟩
      exact ⟨claim, hclaim, hid⟩
    · rintro ⟨claim, hclaim, hid⟩
      exact ⟨_, claim, hclaim, hid, rfl⟩
  · intro period
    refine ⟨?_, hentries.nodup period⟩
    exact (strictly_ascending hentries hkept.shelved.ascending period).imp
      (cmpEntry_of_lt totalCmp)

end

/-- A block with a claim, right after the first one. -/
def claimBlocks : List (Block Rat) := [blockAt 1 [claiming 0 marketDecision]]

/-- A block with a claim is connected and disconnected again. -/
def revertedRun : Except Error (State Rat × State Rat) := do
  let s ← runBlocks marketConfig 1 claimBlocks
  let block := blockAt 1 [claiming 0 marketDecision]
  let s' ← disconnectTip chainLibrary s block.header block.body
  .ok (s, s')

/-- The claim is found, and no longer once its block is disconnected. -/
theorem lookupEntry_exact_reverted :
    ∃ s s' : State Rat,
      Run chainLibrary marketConfig sampleBundleLib (fun _ _ => True) (fun _ _ => True)
        (claimBlocks.reverse ++ [blockAt 0 []]) s ∧
      Run chainLibrary marketConfig sampleBundleLib (fun _ _ => True) (fun _ _ => True)
        [blockAt 0 []] s' ∧
      (∃ entry, lookupEntry compare s.decisions marketDecision = some entry) ∧
      ¬ ∃ entry, lookupEntry compare s'.decisions marketDecision = some entry := by
  have hcomputed : holds revertedRun (fun _ => true) = true := by
    decide +kernel
  obtain ⟨⟨s, s'⟩, hrun, -⟩ := holds_iff.mp hcomputed
  obtain ⟨_, hblocks, hrun⟩ := bind_eq_ok_iff.mp hrun
  obtain ⟨_, hdisconnect, hpair⟩ := bind_eq_ok_iff.mp hrun
  obtain ⟨rfl, rfl⟩ := Prod.mk.inj (Except.ok.inj hpair)
  have hbefore := (chain_of_runBlocks hblocks).run
  have hafter := Run.disconnect hbefore hdisconnect
  obtain ⟨_, -, -, -, hfound, -⟩ := lookupEntry_exact compare hbefore
  obtain ⟨_, -, -, -, hgone, -⟩ := lookupEntry_exact compare hafter
  refine ⟨_, _, hbefore, hafter, (hfound marketDecision).mpr ?_, ?_⟩
  · decide
  · rw [hgone]
    decide

end Truthcoin.ClaimRuns
