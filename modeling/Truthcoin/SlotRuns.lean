import Truthcoin.AvailableSlots
import Truthcoin.ClaimRuns

/-!
# Available slots over runs

A block mints no more slots into a period than its tiers hold, because it counts the periods
it has advanced by from the highest minted one. Taking back the claims of a block can remove
that period. The listing is right in every run in which this never happens and in which every
priced period has decisions.
-/

namespace Truthcoin.SlotRuns

open Truthcoin.Types Truthcoin.Table Truthcoin.Fallible Truthcoin.Arithmetic
open Truthcoin.Decisions Truthcoin.Voting Truthcoin.Blocks Truthcoin.Apply Truthcoin.ApplySteps
open Truthcoin.Connect Truthcoin.ConnectTrace Truthcoin.BlockChecks Truthcoin.Disconnect
open Truthcoin.BlockRun Truthcoin.SlotLedger Truthcoin.PricingRun Truthcoin.DecisionStates
open Truthcoin.ClaimOnce Truthcoin.ListedRuns Truthcoin.UndoTables Truthcoin.DecisionHistories
open Truthcoin.ClaimRuns Truthcoin.AvailableSlots Truthcoin.SampleChain Truthcoin.SampleMarkets
open Truthcoin.Commitments

variable {F : Type} {db db' : Dbs F}

theorem highest_mono (h : ∀ period ∈ db.periodDecisions, period ∈ db'.periodDecisions) :
    db.getHighestMintedPeriod.getD 0 ≤ db'.getHighestMintedPeriod.getD 0 := by
  cases hhighest : db.getHighestMintedPeriod with
  | none => exact Nat.zero_le _
  | some highest =>
      have hmem := (List.max?_eq_some_iff.mp hhighest).1
      exact le_highest_of_mem (h highest (mem_mintedPeriods.mp hmem))

/-- Minting up to a target makes it the highest period, unless there is a higher one. -/
theorem highest_mintPeriodsUpTo (db : Dbs F) (target : Nat) :
    max (db.getHighestMintedPeriod.getD 0) target ≤
      (db.mintPeriodsUpTo target).getHighestMintedPeriod.getD 0 := by
  have hrows : ∀ period, (db.getHighestMintedPeriod.getD 0 < period ∧ period ≤ target) ∨
      period ∈ db.periodDecisions → period ∈ (db.mintPeriodsUpTo target).periodDecisions := by
    intro period hperiod
    rw [mem_iff_lookup, lookup_mintPeriodsUpTo]
    split
    · exact ⟨_, rfl⟩
    · rename_i hnot
      exact mem_iff_lookup.mp (hperiod.resolve_left hnot)
  refine max_le (highest_mono fun period hperiod => hrows period (.inr hperiod)) ?_
  by_cases hlt : db.getHighestMintedPeriod.getD 0 < target
  · exact le_highest_of_mem (hrows target (.inl ⟨hlt, le_rfl⟩))
  · exact (Nat.not_lt.mp hlt).trans
      (highest_mono fun period hperiod => hrows period (.inr hperiod))

theorem bounded_of_mints (h : Bounded db)
    (hprices : ∀ (period : Nat) (pricing : PeriodPricing),
      db'.periodPricing[period]? = some pricing →
        ∃ old, db.periodPricing[period]? = some old ∧ pricing.mints = old.mints)
    (hhighest : db.getHighestMintedPeriod.getD 0 ≤ db'.getHighestMintedPeriod.getD 0) :
    Bounded db' := by
  intro period pricing hpricing
  obtain ⟨old, hold, hmints⟩ := hprices period pricing hpricing
  obtain ⟨hperiod, hfits, hsum⟩ := h period old hold
  exact ⟨hperiod, hmints ▸ hfits, by omega⟩

theorem bounded_sameSlots (h : Bounded db) (hsame : SameSlots db db') : Bounded db' := by
  refine bounded_of_mints h (fun period pricing hpricing => ⟨pricing, hsame.2 ▸ hpricing, rfl⟩) ?_
  exact highest_mono fun period hperiod => hsame.1 ▸ hperiod

theorem bounded_claimDecision [DecidableEq F] (h : Bounded db) {d : DecisionId}
    {decision : Decision F} {txid : Txid} {height : Nat}
    (hstep : db.claimDecision d decision txid height = .ok db') : Bounded db' := by
  refine bounded_of_mints h (fun period pricing => mints_claimDecision hstep) ?_
  refine highest_mono fun period hperiod => ?_
  rw [(claimDecision_eq_ok hstep).1]
  exact Std.ExtTreeMap.mem_insert.mpr (.inr hperiod)

theorem mints_repricePeriod {height mints period : Nat}
    (h : db.repricePeriod height mints period = .ok db') {p : Nat} {pricing : PeriodPricing}
    (hpricing : db'.periodPricing[p]? = some pricing) :
    ∃ old, db.periodPricing[p]? = some old ∧
      pricing.mints ≤ old.mints + if p = period then mints else 0 := by
  unfold Dbs.repricePeriod at h
  split at h
  · rw [← Except.ok.inj h] at hpricing
    exact ⟨pricing, hpricing, Nat.le_add_right _ _⟩
  · rename_i old hold
    obtain ⟨new, hnew, h⟩ := bind_eq_ok_iff.mp h
    rw [← Except.ok.inj h, Dbs.putPricing, lookup_insert] at hpricing
    by_cases heq : p = period
    · rw [if_pos heq] at hpricing ⊢
      obtain rfl := Option.some.inj hpricing
      refine ⟨old, heq ▸ hold, ?_⟩
      rw [(repriced_of_applyRepriceWithFloor hnew).1]
      exact Nat.min_le_left _ _
    · rw [if_neg heq] at hpricing
      exact ⟨pricing, hpricing, Nat.le_add_right _ _⟩

theorem mints_repricePeriods {height mints : Nat} {periods : List Nat} (hnodup : periods.Nodup)
    (h : periods.foldlM (Dbs.repricePeriod height mints) db = .ok db') {p : Nat}
    {pricing : PeriodPricing} (hpricing : db'.periodPricing[p]? = some pricing) :
    ∃ old, db.periodPricing[p]? = some old ∧
      pricing.mints ≤ old.mints + if p ∈ periods then mints else 0 := by
  induction periods generalizing db with
  | nil =>
      rw [← Except.ok.inj h] at hpricing
      exact ⟨pricing, hpricing, Nat.le_add_right _ _⟩
  | cons period periods ih =>
      obtain ⟨db₁, hfirst, hrest⟩ := bind_eq_ok_iff.mp h
      rw [List.nodup_cons] at hnodup
      obtain ⟨middle, hmiddle, hle⟩ := ih hnodup.2 hrest
      obtain ⟨old, hold, hle'⟩ := mints_repricePeriod hfirst hmiddle
      refine ⟨old, hold, ?_⟩
      by_cases heq : p = period
      · subst heq
        rw [if_neg hnodup.1] at hle
        rw [if_pos rfl] at hle'
        rw [if_pos List.mem_cons_self]
        omega
      · rw [if_neg heq] at hle'
        simp only [List.mem_cons, heq, false_or]
        omega

theorem mints_seedPeriods {height c : Nat} {periods : List Nat} {p : Nat}
    {pricing : PeriodPricing}
    (h : (periods.foldl (Dbs.seedPeriod height c) db).periodPricing[p]? = some pricing) :
    p ∈ periods ∧ pricing.mints = 1 ∨ db.periodPricing[p]? = some pricing := by
  induction periods generalizing db with
  | nil => exact .inr h
  | cons period periods ih =>
      rcases ih h with ⟨hmem, hmints⟩ | hold
      · exact .inl ⟨List.mem_cons_of_mem _ hmem, hmints⟩
      · rw [Dbs.seedPeriod, Dbs.putPricing, lookup_insert] at hold
        split at hold
        · rename_i heq
          rw [← Option.some.inj hold]
          exact .inl ⟨heq ▸ List.mem_cons_self, rfl⟩
        · exact .inr hold

theorem periodDecisions_seedPeriods (height c : Nat) (periods : List Nat) (db : Dbs F) :
    (periods.foldl (Dbs.seedPeriod height c) db).periodDecisions = db.periodDecisions :=
  List.foldlRecOn (motive := fun db' : Dbs F => db'.periodDecisions = db.periodDecisions)
    _ _ rfl fun _ hdb _ _ => hdb

theorem bounded_processBlockPricing {config : DecisionConfig} {height ts genesisTs c : Nat}
    (hdb : Bounded db) (hcurrent : getCurrentPeriod config ts (some height) genesisTs = .ok c)
    (hwindow : c + (futurePeriods - 1) ≤ maxPeriodIndex)
    (h : db.processBlockPricing config height ts genesisTs = .ok db') : Bounded db' := by
  simp only [Dbs.processBlockPricing, hcurrent, ok_bind, bind_eq_ok_iff, Dbs.windowEnd,
    addU32_eq_ok_iff] at h
  obtain ⟨target, ⟨-, rfl⟩, next, ⟨-, rfl⟩, h⟩ := h
  have hminted := highest_mintPeriodsUpTo db (c + (futurePeriods - 1))
  have hrows : ∀ db₁ : Dbs F,
      db₁.periodDecisions = (db.mintPeriodsUpTo (c + (futurePeriods - 1))).periodDecisions →
      max (db.getHighestMintedPeriod.getD 0) (c + (futurePeriods - 1)) ≤
        db₁.getHighestMintedPeriod.getD 0 := by
    intro db₁ hsame
    exact hminted.trans (highest_mono fun period hperiod => hsame ▸ hperiod)
  have hfuture : futurePeriods = 20 := rfl
  split at h
  · rename_i hlater
    have hhighest := hrows db' (by
      rw [(foldlM_repricePeriod_eq_ok (nodup_periodsUpTo ..) h).1, periodDecisions_seedPeriods])
    intro period pricing hpricing
    obtain ⟨old, hold, hle⟩ := mints_repricePeriods (nodup_periodsUpTo ..) h hpricing
    simp only [mem_periodsUpTo] at hle
    rcases mints_seedPeriods hold with ⟨hnew, hone⟩ | hkept
    · rw [mem_periodsUpTo] at hnew
      rw [if_neg (by omega)] at hle
      exact ⟨by omega, by omega, by omega⟩
    · -- the window has advanced by as many periods as there are new mints
      obtain ⟨hperiod, hfits, hsum⟩ := hdb period old hkept
      split at hle
      · exact ⟨hperiod, by omega, by omega⟩
      · exact ⟨hperiod, by omega, by omega⟩
  · have hpriced : Bounded (db.mintPeriodsUpTo (c + (futurePeriods - 1))) :=
      bounded_of_mints hdb (fun period pricing hpricing => ⟨pricing, hpricing, rfl⟩)
        ((Nat.le_max_left _ _).trans hminted)
    split at h
    · intro period pricing hpricing
      have hhighest := hrows db' (foldlM_repricePeriod_eq_ok (nodup_periodsUpTo ..) h).1
      obtain ⟨old, hold, hle⟩ := mints_repricePeriods (nodup_periodsUpTo ..) h hpricing
      obtain ⟨hperiod, hfits, hsum⟩ := hdb period old hold
      rw [ite_self, Nat.add_zero] at hle
      exact ⟨hperiod, by omega, by omega⟩
    · rw [← Except.ok.inj h]
      exact hpriced

theorem bounded_mintGenesis {config : DecisionConfig} {height ts genesisTs c : Nat}
    (hdb : Bounded db) (hcurrent : getCurrentPeriod config ts (some height) genesisTs = .ok c)
    (hwindow : c + (futurePeriods - 1) ≤ maxPeriodIndex)
    (h : db.mintGenesis config ts height genesisTs = .ok db') : Bounded db' := by
  simp only [Dbs.mintGenesis, hcurrent, ok_bind, bind_eq_ok_iff, Dbs.windowEnd,
    addU32_eq_ok_iff, Except.ok.injEq] at h
  obtain ⟨target, ⟨-, rfl⟩, h⟩ := h
  have hminted := highest_mintPeriodsUpTo db (c + (futurePeriods - 1))
  have hfuture : futurePeriods = 20 := rfl
  intro period pricing hpricing
  obtain ⟨hrows, hprices⟩ := lookup_genesisPricing
    (Dbs.periodsUpTo c (c + (futurePeriods - 1))) c height period
    (db.mintPeriodsUpTo (c + (futurePeriods - 1)))
  rw [h] at hrows hprices
  have hhighest := hminted.trans (highest_mono fun period hperiod => hrows ▸ hperiod)
  rw [hprices] at hpricing
  split at hpricing
  · rename_i hnew
    have hopen := mem_periodsUpTo.mp hnew.1
    have hmints : pricing.mints = futurePeriods - (period - c) := by
      rw [← Option.some.inj hpricing]
      rfl
    exact ⟨by omega, by omega, by omega⟩
  · obtain ⟨hperiod, hfits, hsum⟩ := hdb period pricing hpricing
    exact ⟨hperiod, hfits, by omega⟩

/-- The histories go on at a height. One without entries stays so, and none is new. -/
def Extended (height : Nat) (db db' : Dbs F) : Prop :=
  ∀ (d : DecisionId) (history' : DecisionStateHistory F),
    db'.decisionStateHistories[d]? = some history' →
      ∃ history added, db.decisionStateHistories[d]? = some history ∧
        history'.stateHistory = history.stateHistory ++ added ∧
        (∀ entry ∈ added, entry.2.1 = height) ∧ (history.stateHistory = [] → added = [])

theorem Extended.of_same {height : Nat}
    (h : db'.decisionStateHistories = db.decisionStateHistories) : Extended height db db' := by
  intro d history hrow
  exact ⟨history, [], h ▸ hrow, (List.append_nil _).symm, by simp, fun _ => rfl⟩

theorem Extended.trans {height : Nat} {db'' : Dbs F} (h : Extended height db db')
    (h' : Extended height db' db'') : Extended height db db'' := by
  intro d history'' hrow''
  obtain ⟨history', added', hrow', happend', hheight', hempty'⟩ := h' d history'' hrow''
  obtain ⟨history, added, hrow, happend, hheight, hempty⟩ := h d history' hrow'
  refine ⟨history, added ++ added', hrow, ?_, ?_, ?_⟩
  · rw [happend', happend, List.append_assoc]
  · intro entry hentry
    exact (List.mem_append.mp hentry).elim (hheight entry) (hheight' entry)
  · intro hnil
    have hnil' : history'.stateHistory = [] := by rw [happend, hnil, hempty hnil]; rfl
    rw [hempty hnil, hempty' hnil']
    rfl

theorem Extended.putHistory {height : Nat} {d : DecisionId} {history : DecisionStateHistory F}
    (hrow : db.decisionStateHistories[d]? = some history) (hne : history.stateHistory ≠ [])
    {entry : DecisionState × Nat × Option F} (hentry : entry.2.1 = height) :
    Extended height db (db.putHistory d ⟨history.stateHistory ++ [entry]⟩) := by
  intro d' history' hrow'
  rw [Dbs.putHistory, lookup_insert] at hrow'
  split at hrow'
  · rename_i heq
    obtain rfl := Option.some.inj hrow'
    exact ⟨history, [entry], heq ▸ hrow, rfl, by simpa using hentry, fun hnil => absurd hnil hne⟩
  · exact ⟨history', [], hrow', (List.append_nil _).symm, by simp, fun _ => rfl⟩

theorem ne_nil_of_canTransitionTo {history : DecisionStateHistory F} {next : DecisionState}
    (hnext : next = .voting ∨ next = .resolved)
    (h : history.currentState.canTransitionTo next = true) : history.stateHistory ≠ [] := by
  intro hnil
  have hcreated : history.currentState = .created := by
    rw [DecisionStateHistory.currentState, hnil]
    rfl
  rw [hcreated] at h
  rcases hnext with rfl | rfl <;> cases h

theorem extended_transitionDecisionToVoting {d : DecisionId} {height : Nat}
    (h : db.transitionDecisionToVoting d height = .ok db') : Extended height db db' := by
  simp only [Dbs.transitionDecisionToVoting, DecisionStateHistory.transitionToVoting,
    bind_eq_ok_iff, okOr_eq_ok_iff, ensure_eq_ok_iff, Except.ok.injEq] at h
  obtain ⟨history, hrow, _, ⟨_, hcan, rfl⟩, rfl⟩ := h
  exact .putHistory hrow (ne_nil_of_canTransitionTo (.inl rfl) hcan) rfl

theorem extended_transitionDecisionToResolved [F64 F] {d : DecisionId} {height : Nat} {outcome : F}
    (h : db.transitionDecisionToResolved d height outcome = .ok db') : Extended height db db' := by
  simp only [Dbs.transitionDecisionToResolved, DecisionStateHistory.transitionToResolved,
    bind_eq_ok_iff, okOr_eq_ok_iff, ensure_eq_ok_iff, Except.ok.injEq] at h
  obtain ⟨history, hrow, _, ⟨_, hcan, _, -, rfl⟩, rfl⟩ := h
  exact .putHistory hrow (ne_nil_of_canTransitionTo (.inr rfl) hcan) rfl

section

variable [F64 F] [DecidableEq F] {L : Library F} {config : DecisionConfig} {archive : Archive}
  {s s' : State F} {block : Block F} {t : Trace F}

theorem bounded_finished (ht : Connects L config archive s block t) (hdb : Bounded s.decisions)
    (hwindow : t.currentPeriod + (futurePeriods - 1) ≤ maxPeriodIndex) :
    Bounded (t.finished L block).decisions := by
  have hvoting := bounded_sameSlots hdb (sameSlots_voting ht.toPrepares)
  have happlied : Bounded t.applied.state.decisions :=
    foldlM_preserves (P := Bounded) (fun _ _ _ _ hdb hstep => bounded_claimDecision hdb hstep)
      (blockClaims_of_prepares ht.toPrepares).1 hvoting
  have hpriced : Bounded t.priced := by
    have h := ht.priced
    rw [priceBlock] at h
    split at h
    · exact bounded_mintGenesis happlied ht.period hwindow h
    · exact bounded_processBlockPricing happlied ht.period hwindow h
  rw [finished_decisions ht]
  exact bounded_sameSlots hpriced (sameSlots_resolvePeriods ht.tables)

/-- A block starts the histories of its claims, and goes on with the others. -/
theorem history_finished (ht : Connects L config archive s block t) {d : DecisionId}
    {history' : DecisionStateHistory F}
    (hrow' : (t.finished L block).decisions.decisionStateHistories[d]? = some history') :
    (d ∈ (blockClaims L s block).map Claim.decisionId →
      ∀ entry ∈ history'.stateHistory, entry.2.1 = t.height) ∧
    (d ∉ (blockClaims L s block).map Claim.decisionId →
      ∃ history added, s.decisions.decisionStateHistories[d]? = some history ∧
        history'.stateHistory = history.stateHistory ++ added ∧
        (∀ entry ∈ added, entry.2.1 = t.height) ∧ (history.stateHistory = [] → added = [])) := by
  have hvoting : Extended t.height s.decisions t.voting := by
    have hstart : Extended t.height s.decisions
        (startBlock s block.body t.height block.mainchainTimestamp).decisions := by
      rw [startBlock_eq]
      exact .of_same rfl
    exact foldlM_preserves (P := Extended t.height s.decisions)
      (fun _ _ _ _ hdb hstep => hdb.trans (extended_transitionDecisionToVoting hstep))
      ht.voting hstart
  have hend : Extended t.height t.applied.state.decisions (t.finished L block).decisions := by
    rw [finished_decisions ht]
    exact decisions_of_resolvePeriods (P := Extended t.height t.applied.state.decisions)
      (fun _ _ _ _ hdb hstep => hdb.trans (extended_transitionDecisionToResolved hstep))
      (.of_same (histories_of_priceBlock ht.priced)) ht.tables
  obtain ⟨history, added, hrow, happend, hheight, hempty⟩ := hend d history' hrow'
  have hclaims := histories_claims (blockClaims_of_prepares ht.toPrepares).1 d
  rw [hrow] at hclaims
  constructor
  · intro hmem
    rw [if_pos hmem] at hclaims
    rw [happend, Option.some.inj hclaims]
    intro entry hentry
    rcases List.mem_append.mp hentry with hnew | hadded
    · rw [List.mem_singleton.mp hnew]
    · exact hheight entry hadded
  · intro hmem
    rw [if_neg hmem] at hclaims
    obtain ⟨old, voted, hold, happend', hheight', hempty'⟩ := hvoting d history hclaims.symm
    refine ⟨old, voted ++ added, hold, ?_, ?_, ?_⟩
    · rw [happend, happend', List.append_assoc]
    · intro entry hentry
      exact (List.mem_append.mp hentry).elim (hheight' entry) (hheight entry)
    · intro hnil
      rw [happend', hnil, hempty' hnil] at hempty
      rw [hempty' hnil, hempty rfl]
      rfl

end

/-- The prices and what is kept for restoring them are the same. -/
def SamePrices (db db' : Dbs F) : Prop :=
  db'.periodPricing = db.periodPricing ∧ db'.periodPricingUndo = db.periodPricingUndo

theorem samePrices_putOrDeleteEntries (db : Dbs F) (period : Nat)
    (entries : List (DecisionEntry F)) : SamePrices db (db.putOrDeleteEntries period entries) := by
  unfold Dbs.putOrDeleteEntries
  split <;> exact ⟨rfl, rfl⟩

theorem samePrices_unclaim (db : Dbs F) (d : DecisionId) : SamePrices db (db.unclaim d) := by
  unfold Dbs.unclaim
  split
  · exact samePrices_putOrDeleteEntries ..
  · exact ⟨rfl, rfl⟩

theorem samePrices_revertDecisionClaim [DecidableEq F] (db : Dbs F) (d : DecisionId) :
    SamePrices db (db.revertDecisionClaim d) := by
  unfold Dbs.revertDecisionClaim
  dsimp only
  split
  · exact samePrices_putOrDeleteEntries ..
  · exact ⟨rfl, rfl⟩

theorem SamePrices.trans {db'' : Dbs F} (h : SamePrices db db') (h' : SamePrices db' db'') :
    SamePrices db db'' :=
  ⟨h'.1.trans h.1, h'.2.trans h.2⟩

theorem samePrices_rollback (db : Dbs F) (height : Nat) :
    SamePrices db (db.rollbackDecisionStatesToHeight height) := by
  rw [Dbs.rollbackDecisionStatesToHeight]
  refine List.foldlRecOn (motive := SamePrices db) _ _ ?_
    fun db' hdb d _ => hdb.trans (samePrices_unclaim db' d)
  exact List.foldlRecOn (motive := SamePrices db) _ _ ⟨rfl, rfl⟩ fun _ hdb _ _ => hdb

/-- A snapshot restores the prices that it was taken of. -/
theorem pricing_restorePeriodPricingUndo {height : Nat} {old : Dbs F}
    (h : db.periodPricingUndo[height]? =
      some (old.periodPricing.toList.map fun row => (row.1, some row.2))) :
    (db.restorePeriodPricingUndo height).periodPricing = old.periodPricing ∧
      (db.restorePeriodPricingUndo height).periodPricingUndo =
        db.periodPricingUndo.erase height := by
  unfold Dbs.restorePeriodPricingUndo
  rw [h]
  refine ⟨ext_lookup fun period => ?_, rfl⟩
  dsimp only
  rw [List.foldl_map, lookup_foldl_toList (g := fun pricing _ => some pricing)
    (fun t row k hne => by rw [Option.elim_some, lookup_insert, if_neg hne])
    (fun t row => by rw [Option.elim_some, lookup_insert, if_pos rfl])]
  cases hrow : old.periodPricing[period]? with
  | some pricing => rfl
  | none =>
      -- a period without a snapshot is taken out
      have habsent : period ∉ (old.periodPricing.toList.map fun row =>
          (row.1, some row.2)).map Prod.fst := by
        rw [List.map_map, List.mem_map]
        rintro ⟨row, hmem, heq⟩
        obtain rfl : row.1 = period := heq
        rw [mem_toList_iff.mp hmem] at hrow
        cases hrow
      have hkept : ∀ (kept : List Nat) (keys : List Nat) (rows : Table Nat PeriodPricing),
          keys.foldl (fun rows p => if p ∈ kept then rows else rows.erase p) rows =
            (keys.filter fun p => p ∉ kept).foldl (fun rows p => rows.erase p) rows := by
        intro kept keys rows
        rw [List.foldl_filter]
        congr 1
        funext rows p
        by_cases hp : p ∈ kept <;> simp [hp]
      rw [hkept, lookup_foldl_erase]
      dsimp only
      split
      · rfl
      · rename_i hnot
        have hkey : period ∉ db.periodPricing.toList.map Prod.fst :=
          fun hmem => hnot (List.mem_filter.mpr ⟨hmem, decide_eq_true habsent⟩)
        rw [Option.eq_none_iff_forall_ne_some]
        intro pricing hpricing
        exact hkey (List.mem_map.mpr ⟨(period, pricing), mem_toList_iff.mpr hpricing, rfl⟩)

/-- A minted period has no claim among some decisions, or has another one too. -/
def Standing (ids : List DecisionId) (period : Nat) (db : Dbs F) : Prop :=
  period ∈ db.periodDecisions ∧
    ((∀ d ∈ ids, d.periodIndex ≠ period) ∨
      ∃ entry ∈ db.entriesOf period, entry.decisionId ∉ ids)

section

variable {ids : List DecisionId} {period : Nat}

theorem mem_putOrDeleteEntries {d : DecisionId} {entries : List (DecisionEntry F)}
    (hmem : period ∈ db.periodDecisions) (h : period = d.periodIndex → entries ≠ []) :
    period ∈ (db.putOrDeleteEntries d.periodIndex entries).periodDecisions := by
  rw [mem_iff_lookup] at hmem ⊢
  unfold Dbs.putOrDeleteEntries
  split
  · rename_i hempty
    rw [lookup_erase, if_neg fun heq => h heq (List.isEmpty_iff.mp hempty)]
    exact hmem
  · rw [Dbs.putEntries, lookup_insert]
    split
    · exact ⟨_, rfl⟩
    · exact hmem

/-- Another entry keeps its row, and so does a period that is not the one of the decision. -/
theorem Standing.putOrDeleteEntries (h : Standing ids period db) {d : DecisionId} (hd : d ∈ ids)
    {entries : List (DecisionEntry F)}
    (hentries : ∀ entry ∈ db.entriesOf d.periodIndex, entry.decisionId ≠ d → entry ∈ entries) :
    Standing ids period (db.putOrDeleteEntries d.periodIndex entries) := by
  obtain ⟨hmem, hnone | ⟨entry, hentry, hother⟩⟩ := h
  · refine ⟨mem_putOrDeleteEntries hmem fun heq => absurd heq.symm (hnone d hd), .inl hnone⟩
  · have hkept : period = d.periodIndex → entry ∈ entries := by
      rintro rfl
      exact hentries entry hentry fun heq => hother (heq ▸ hd)
    refine ⟨mem_putOrDeleteEntries hmem fun heq => List.ne_nil_of_mem (hkept heq), .inr ?_⟩
    refine ⟨entry, ?_, hother⟩
    rw [entriesOf_putOrDeleteEntries]
    split
    · rename_i heq
      exact hkept heq
    · exact hentry

theorem Standing.unclaim (h : Standing ids period db) {d : DecisionId} (hd : d ∈ ids) :
    Standing ids period (db.unclaim d) := by
  unfold Dbs.unclaim
  split
  · rename_i entries hrow
    refine h.putOrDeleteEntries hd fun entry hentry hne => ?_
    rw [Dbs.entriesOf, hrow] at hentry
    exact List.mem_filter.mpr ⟨hentry, decide_eq_true hne⟩
  · exact h

theorem Standing.revertDecisionClaim [DecidableEq F] (h : Standing ids period db)
    {d : DecisionId} (hd : d ∈ ids) : Standing ids period (db.revertDecisionClaim d) := by
  unfold Dbs.revertDecisionClaim
  dsimp only
  split
  · rename_i found hfind
    have hid : found.decisionId = d := by simpa using List.find?_some hfind
    refine h.putOrDeleteEntries hd fun entry hentry hne => ?_
    have hother : entry ≠ found := by
      rintro rfl
      exact hne hid
    exact (List.mem_erase_of_ne hother).mpr hentry
  · exact h

theorem Standing.takeBack [DecidableEq F] {txs : List (Transaction F)}
    (hids : ∀ tx ∈ txs, ∀ d ∈ tx.claimedIds, d ∈ ids) (h : txs.foldlM takeBack db = .ok db')
    (hdb : Standing ids period db) : Standing ids period db' :=
  takeBack_preserves (P := Standing ids period)
    (fun tx htx d hd _ hdb => hdb.revertDecisionClaim (hids tx htx d hd)) h hdb

theorem samePrices_takeBack [DecidableEq F] {txs : List (Transaction F)}
    (h : txs.foldlM takeBack db = .ok db') : SamePrices db db' :=
  takeBack_preserves (P := SamePrices db)
    (fun _ _ d _ db₁ hdb => hdb.trans (samePrices_revertDecisionClaim db₁ d)) h ⟨rfl, rfl⟩

theorem Standing.rollback (h : Standing ids period db) {height : Nat}
    (hunclaimed : ∀ d ∈ unclaimedAt db height, d ∈ ids) :
    Standing ids period (db.rollbackDecisionStatesToHeight height) := by
  rw [Dbs.rollbackDecisionStatesToHeight]
  refine List.foldlRecOn (motive := Standing ids period) _ _ ?_
    fun db' hdb d hd => hdb.unclaim (hunclaimed d hd)
  exact List.foldlRecOn (motive := Standing ids period) _ _ h fun _ hdb _ _ => hdb

theorem periodDecisions_restorePeriodPricingUndo (db : Dbs F) (height : Nat) :
    (db.restorePeriodPricingUndo height).periodDecisions = db.periodDecisions := by
  unfold Dbs.restorePeriodPricingUndo
  split <;> rfl

theorem Standing.decisionsBelow (h : Standing ids period db) {mintingUndo : Table Nat Nat}
    {height highest : Nat} (hrow : mintingUndo[height]? = some highest) (hle : period ≤ highest)
    (hunclaimed : 0 < height → ∀ d ∈ unclaimedAt db (height - 1), d ∈ ids) :
    period ∈ (UndoTables.decisionsBelow mintingUndo height db).periodDecisions := by
  unfold UndoTables.decisionsBelow
  dsimp only
  rw [periodDecisions_restorePeriodPricingUndo, hrow, Option.elim_some, Dbs.deletePeriodsAbove]
  dsimp only
  rw [mem_iff_lookup, lookup_foldl_erase, if_neg fun hmem => by
    have hlt := of_decide_eq_true (List.mem_filter.mp hmem).2
    omega, ← mem_iff_lookup]
  split
  · rename_i hheight
    exact (h.rollback (hunclaimed hheight)).1
  · exact h.1

theorem prices_decisionsBelow {mintingUndo : Table Nat Nat} {height : Nat} {old : Dbs F}
    (h : db.periodPricingUndo[height]? =
      some (old.periodPricing.toList.map fun row => (row.1, some row.2))) :
    (decisionsBelow mintingUndo height db).periodPricing = old.periodPricing ∧
      (decisionsBelow mintingUndo height db).periodPricingUndo =
        db.periodPricingUndo.erase height := by
  have hcut : SamePrices db (if height > 0 then db.rollbackDecisionStatesToHeight (height - 1)
      else db) := by
    split
    · exact samePrices_rollback db (height - 1)
    · exact ⟨rfl, rfl⟩
  have hdeleted : SamePrices db (mintingUndo[height]?.elim
      (if height > 0 then db.rollbackDecisionStatesToHeight (height - 1) else db)
      (if height > 0 then db.rollbackDecisionStatesToHeight (height - 1)
        else db).deletePeriodsAbove) := by
    cases mintingUndo[height]? with
    | none => exact hcut
    | some highest => exact hcut.trans ⟨rfl, rfl⟩
  obtain ⟨hprices, hundo⟩ := pricing_restorePeriodPricingUndo (hdeleted.2 ▸ h)
  exact ⟨hprices, hundo.trans (congrArg (·.erase height) hdeleted.2)⟩

end

section

variable [F64 F] {L : Library F} {s s' : State F} {c : State F × Block F}
  {connected older : List (State F × Block F)}

/-- What a state has to restore the slots from before a block. -/
structure Restorable (L : Library F) (s : State F) (c : State F × Block F)
    (older : List (State F × Block F)) : Prop where
  pricing : s.decisions.periodPricingUndo[older.length]? =
    some (c.1.decisions.periodPricing.toList.map fun row => (row.1, some row.2))
  highest : s.mintingUndo[older.length]? = some (c.1.decisions.getHighestMintedPeriod.getD 0)
  bounded : Bounded c.1.decisions
  unpriced : older = [] → c.1.decisions.periodPricing = ∅
  nonstandard : older = [] →
    ∀ claim ∈ blockClaims L c.1 c.2, claim.decisionId.isStandard = false
  since : ∀ claim ∈ blockClaims L c.1 c.2, ∀ history,
    s.decisions.decisionStateHistories[claim.decisionId]? = some history →
      ∀ entry ∈ history.stateHistory, older.length ≤ entry.2.1

/-- The mints of a state are bounded, and every history is of a claim of a connected block,
or of one that was left over from a genesis block and is not of a standard slot. -/
structure SlotsKept (L : Library F) (connected : List (State F × Block F)) (s : State F) :
    Prop where
  bounded : Bounded s.decisions
  unpriced : connected = [] → s.decisions.periodPricing = ∅
  origin : ∀ d history, s.decisions.decisionStateHistories[d]? = some history →
    history.stateHistory ≠ [] → d ∈ (claimsOf L connected).map Claim.decisionId ∨
      d.isStandard = false ∧ ∃ entry ∈ history.stateHistory, entry.2.1 = 0
  undo : ∀ newer c older, connected = newer ++ c :: older → Restorable L s c older

theorem SlotsKept.congr (h : SlotsKept L connected s) (hdecisions : s'.decisions = s.decisions)
    (hminting : s'.mintingUndo = s.mintingUndo) : SlotsKept L connected s' := by
  refine ⟨hdecisions ▸ h.bounded, hdecisions ▸ h.unpriced, hdecisions ▸ h.origin, ?_⟩
  intro newer c older hconnected
  obtain ⟨hpricing, hhighest, hbounded, hunpriced, hnonstandard, hsince⟩ :=
    h.undo newer c older hconnected
  exact ⟨hdecisions ▸ hpricing, hminting ▸ hhighest, hbounded, hunpriced, hnonstandard,
    hdecisions ▸ hsince⟩

theorem votedClaimed_of_kept (hclaims : ClaimsKept L connected s)
    (hslots : SlotsKept L connected s) : VotedClaimed s.decisions := by
  intro d hstandard hvoting
  rw [Dbs.isDecisionInVoting, decide_eq_true_eq, Dbs.getDecisionCurrentState,
    Dbs.getDecisionStateHistory] at hvoting
  cases hrow : s.decisions.decisionStateHistories[d]? with
  | none =>
      rw [hrow] at hvoting
      cases hvoting
  | some history =>
      rw [hrow, Option.map_some, Option.getD_some] at hvoting
      have hne : history.stateHistory ≠ [] := by
        intro hnil
        rw [DecisionStateHistory.currentState, hnil] at hvoting
        cases hvoting
      rcases hslots.origin d history hrow hne with hmem | ⟨hnot, -⟩
      · obtain ⟨claim, hclaim, rfl⟩ := List.mem_map.mp hmem
        refine List.mem_map.mpr ⟨Claim.entry claim, List.mem_filter.mpr ⟨?_, rfl⟩, rfl⟩
        exact hclaims.mem_entriesOf hclaim
      · rw [hstandard] at hnot
        cases hnot

variable [DecidableEq F] {config : DecisionConfig} {archive : Archive} {block : Block F}
  {t : Trace F}

theorem finished_periodPricingUndo (ht : Connects L config archive s block t) :
    (t.finished L block).decisions.periodPricingUndo =
      s.decisions.periodPricingUndo.insert t.height
        (s.decisions.periodPricing.toList.map fun row => (row.1, some row.2)) := by
  have hvoting : t.voting.periodPricingUndo =
      (startBlock s block.body t.height block.mainchainTimestamp).decisions.periodPricingUndo := by
    refine foldlM_preserves (P := fun db : Dbs F => db.periodPricingUndo = _) ?_ ht.voting rfl
    intro d _ db db' hdb hstep
    simp only [Dbs.transitionDecisionToVoting, bind_eq_ok_iff, Except.ok.injEq] at hstep
    obtain ⟨_, -, _, -, rfl⟩ := hstep
    exact hdb
  have happlied : t.applied.state.decisions.periodPricingUndo = t.voting.periodPricingUndo := by
    refine foldlM_preserves (P := fun db : Dbs F => db.periodPricingUndo = _) ?_
      (blockClaims_of_prepares ht.toPrepares).1 rfl
    intro claim _ db db' hdb hstep
    unfold Claim.apply Dbs.claimDecision at hstep
    dsimp only at hstep
    split at hstep
    · obtain ⟨pricing, -, hstep⟩ := bind_eq_ok_iff.mp hstep
      rw [← Except.ok.inj hstep]
      exact hdb
    · rw [← Except.ok.inj hstep]
      exact hdb
  obtain ⟨target, hpriced⟩ := minted_of_priceBlock ht.priced
  have htables : t.tables.decisions.periodPricingUndo = t.priced.periodPricingUndo := by
    refine decisions_of_resolvePeriods
      (P := fun db : Dbs F => db.periodPricingUndo = t.priced.periodPricingUndo) ?_ rfl ht.tables
    intro db db' d outcome hdb hstep
    simp only [Dbs.transitionDecisionToResolved, bind_eq_ok_iff, Except.ok.injEq] at hstep
    obtain ⟨_, -, _, -, rfl⟩ := hstep
    exact hdb
  rw [finished_decisions ht, htables, hpriced]
  change t.applied.state.decisions.periodPricingUndo = _
  rw [happlied, hvoting, startBlock_eq]
  rfl

theorem SlotsKept.connect (hslots : SlotsKept L connected s)
    (hnodup : ((claimsOf L ((s, block) :: connected)).map Claim.decisionId).Nodup)
    (hlength : t.height = connected.length) (ht : Connects L config archive s block t)
    (hwindow : t.currentPeriod + (futurePeriods - 1) ≤ maxPeriodIndex) :
    SlotsKept L ((s, block) :: connected) (t.finished L block) := by
  rw [claimsOf, List.flatMap_cons, List.map_append, List.nodup_append] at hnodup
  refine ⟨bounded_finished ht hslots.bounded hwindow,
    fun hnil => absurd hnil (List.cons_ne_nil _ _), ?_, ?_⟩
  · intro d history' hrow' hne
    rw [claimsOf, List.flatMap_cons, List.map_append, List.mem_append]
    by_cases hnew : d ∈ (blockClaims L s block).map Claim.decisionId
    · exact .inl (.inl hnew)
    · obtain ⟨history, added, hrow, happend, -, hempty⟩ := (history_finished ht hrow').2 hnew
      have hne' : history.stateHistory ≠ [] := by
        intro hnil
        rw [happend, hnil, hempty hnil] at hne
        exact hne rfl
      rcases hslots.origin d history hrow hne' with hold | ⟨hnot, entry, hentry, hzero⟩
      · exact .inl (.inr hold)
      · refine .inr ⟨hnot, entry, ?_, hzero⟩
        rw [happend]
        exact List.mem_append_left _ hentry
  · intro newer c older hconnected
    cases newer with
    | nil =>
        obtain ⟨rfl, rfl⟩ := List.cons.inj hconnected
        refine ⟨?_, ?_, hslots.bounded, hslots.unpriced, ?_, ?_⟩
        · rw [finished_periodPricingUndo ht, hlength, lookup_insert, if_pos rfl]
        · rw [finished_mintingUndo ht, hlength, lookup_insert, if_pos rfl]
        · intro hnil claim hclaim
          obtain ⟨-, ⟨-, -, hpriced⟩, -⟩ :=
            (available_of_blockClaims ht.toPrepares).2 claim hclaim
          cases hstandard : claim.decisionId.isStandard with
          | false => rfl
          | true =>
              obtain ⟨pricing, hpricing, -⟩ := hpriced hstandard
              rw [hslots.unpriced hnil] at hpricing
              simp at hpricing
        · intro claim hclaim history hrow entry hentry
          have hheight := (history_finished ht hrow).1 (List.mem_map_of_mem hclaim) entry hentry
          rw [hheight, hlength]
    | cons c' newer =>
        rw [List.cons_append, List.cons.injEq] at hconnected
        obtain ⟨rfl, rfl⟩ := hconnected
        have hundo := hslots.undo newer c older rfl
        have hlt : older.length < t.height := by
          rw [hlength, List.length_append, List.length_cons]
          omega
        refine ⟨?_, ?_, hundo.bounded, hundo.unpriced, hundo.nonstandard, ?_⟩
        · rw [finished_periodPricingUndo ht, lookup_insert, if_neg hlt.ne]
          exact hundo.pricing
        · rw [finished_mintingUndo ht, lookup_insert, if_neg hlt.ne]
          exact hundo.highest
        · intro claim hclaim history' hrow' entry hentry
          have hold : claim ∈ claimsOf L (newer ++ c :: older) :=
            List.mem_flatMap.mpr ⟨c, by simp, hclaim⟩
          have hnew : claim.decisionId ∉ (blockClaims L s block).map Claim.decisionId :=
            fun hmem => hnodup.2.2 _ hmem _ (List.mem_map_of_mem hold) rfl
          obtain ⟨history, added, hrow, happend, hheight, -⟩ :=
            (history_finished ht hrow').2 hnew
          rw [happend] at hentry
          rcases List.mem_append.mp hentry with hentry | hentry
          · exact hundo.since claim hclaim history hrow entry hentry
          · exact hlt.le.trans_eq (hheight entry hentry).symm

/-- The row of the highest period that was minted before the block is there, and is not
emptied by taking the claims of the block back. -/
def KeepsTop (s : State F) (block : Block F) : Prop :=
  ∀ height highest, s.height = some height → s.mintingUndo[height]? = some highest →
    0 < highest → Standing (claimedIn block) highest s.decisions

omit [F64 F] [DecidableEq F] in
theorem histories_decisionsBelow (mintingUndo : Table Nat Nat) (height : Nat) (db : Dbs F) :
    (decisionsBelow mintingUndo height db).decisionStateHistories =
      if 0 < height then (db.rollbackDecisionStatesToHeight (height - 1)).decisionStateHistories
      else db.decisionStateHistories := by
  unfold decisionsBelow
  dsimp only
  rw [histories_restorePeriodPricingUndo]
  cases mintingUndo[height]? <;> split <;> rfl

omit [F64 F] [DecidableEq F] in
theorem history_decisionsBelow {mintingUndo : Table Nat Nat} {height : Nat} {db : Dbs F}
    {d : DecisionId} {history' : DecisionStateHistory F}
    (h : (decisionsBelow mintingUndo height db).decisionStateHistories[d]? = some history') :
    ∃ history, db.decisionStateHistories[d]? = some history ∧
      ∀ entry, entry ∈ history'.stateHistory ↔
        entry ∈ history.stateHistory ∧ (0 < height → entry.2.1 < height) := by
  rw [histories_decisionsBelow] at h
  split at h
  · rename_i hheight
    rw [lookup_rollback, Option.map_eq_some_iff] at h
    obtain ⟨history, hrow, rfl⟩ := h
    refine ⟨history, hrow, fun entry => ?_⟩
    rw [DecisionStateHistory.rollbackToHeight, List.mem_filter, decide_eq_true_eq]
    refine and_congr_right fun _ => ?_
    omega
  · rename_i hheight
    exact ⟨history', h, fun entry => ⟨fun hentry => ⟨hentry, fun hpos => absurd hpos hheight⟩,
      fun hentry => hentry.1⟩⟩

omit [DecidableEq F] in
/-- Rolling back to a height unclaims what the block of the next height claims. -/
theorem SlotsKept.mem_unclaimedAt (hslots : SlotsKept L (c :: older) s)
    (hclaims : ClaimsKept L (c :: older) s) (hlife : LifeCycles older.length s.decisions)
    {db : Dbs F} (hsame : db.decisionStateHistories = s.decisions.decisionStateHistories)
    (hheight : 0 < older.length) {d : DecisionId} (hd : d ∈ unclaimedAt db (older.length - 1)) :
    d ∈ claimedIn c.2 := by
  obtain ⟨⟨d', history⟩, hfiltered, rfl⟩ := List.mem_map.mp hd
  obtain ⟨hrow, htest⟩ := List.mem_filter.mp hfiltered
  have hrow := mem_toList_iff.mp hrow
  rw [hsame] at hrow
  obtain ⟨hlife, -⟩ := hlife d' history hrow
  rw [decide_eq_true_eq, (hlife.rollback _).currentState_eq_created] at htest
  obtain ⟨hnotCreated, hnone⟩ := htest
  have hne : history.stateHistory ≠ [] := by
    intro hnil
    refine hnotCreated ?_
    rw [DecisionStateHistory.currentState, hnil]
    rfl
  have hlate : ∀ entry ∈ history.stateHistory, older.length ≤ entry.2.1 := by
    intro entry hentry
    have hcut := List.filter_eq_nil_iff.mp hnone entry hentry
    rw [decide_eq_true_eq] at hcut
    omega
  rcases hslots.origin d' history hrow hne with hmem | ⟨-, entry, hentry, hzero⟩
  · obtain ⟨claim, hclaim, rfl⟩ := List.mem_map.mp hmem
    rcases List.mem_append.mp hclaim with hnew | hold
    · rw [← (hclaims.undo [] c older rfl).claimed]
      exact List.mem_map_of_mem hnew
    · -- an older claim has an older entry
      obtain ⟨c', hc', hmem'⟩ := List.mem_flatMap.mp hold
      obtain ⟨newer, older', rfl⟩ := List.append_of_mem hc'
      obtain ⟨history', hrow', entry, hentry, hle⟩ :=
        (hclaims.undo (c :: newer) c' older' rfl).reached claim hmem'
      obtain rfl := Option.some.inj (hrow.symm.trans hrow')
      have hlower := hlate entry hentry
      rw [List.length_append, List.length_cons] at hlower
      omega
  · have hlower := hlate entry hentry
    omega

theorem SlotsKept.disconnect (hslots : SlotsKept L (c :: older) s)
    (hclaims : ClaimsKept L (c :: older) s) (hlife : LifeCycles older.length s.decisions)
    (hundone : TablesUndone s c.2.body older.length s') (htop : KeepsTop s c.2) :
    SlotsKept L older s' := by
  have hundo := hslots.undo [] c older rfl
  obtain ⟨db, hdb, hdecisions⟩ := hundone.decisions
  have hprices := samePrices_takeBack hdb
  have hhistories := histories_takeBack hdb
  have hrestored : s'.decisions.periodPricing = c.1.decisions.periodPricing ∧
      s'.decisions.periodPricingUndo = db.periodPricingUndo.erase older.length := by
    rw [hdecisions]
    exact prices_decisionsBelow (hprices.2 ▸ hundo.pricing)
  obtain ⟨hpricing, hpricingUndo⟩ := hrestored
  have hhighest : c.1.decisions.getHighestMintedPeriod.getD 0 ≤
      s'.decisions.getHighestMintedPeriod.getD 0 := by
    rcases Nat.eq_zero_or_pos (c.1.decisions.getHighestMintedPeriod.getD 0) with hzero | hpos
    · rw [hzero]
      exact Nat.zero_le _
    · have hstanding := htop _ _ hundone.tip hundo.highest hpos
      have htaken : Standing (claimedIn c.2) _ db := hstanding.takeBack (fun tx htx d hd =>
        (mem_undone_claims (hclaims.undo [] c older rfl).skipped).mp
          (List.mem_flatMap.mpr ⟨tx, htx, hd⟩)) hdb
      refine le_highest_of_mem ?_
      rw [hdecisions]
      exact htaken.decisionsBelow hundo.highest le_rfl
        fun hheight d hd => hslots.mem_unclaimedAt hclaims hlife hhistories hheight hd
  have hhistory : ∀ (d : DecisionId) (history' : DecisionStateHistory F),
      s'.decisions.decisionStateHistories[d]? = some history' →
      ∃ history, s.decisions.decisionStateHistories[d]? = some history ∧
        ∀ entry, entry ∈ history'.stateHistory ↔
          entry ∈ history.stateHistory ∧ (0 < older.length → entry.2.1 < older.length) := by
    intro d history' hrow'
    rw [hdecisions] at hrow'
    rw [← hhistories]
    exact history_decisionsBelow hrow'
  refine ⟨?_, ?_, ?_, ?_⟩
  · refine bounded_of_mints hundo.bounded (fun period pricing hrow => ?_) hhighest
    exact ⟨pricing, hpricing ▸ hrow, rfl⟩
  · intro hnil
    rw [hpricing]
    exact hundo.unpriced hnil
  · intro d history' hrow' hne
    obtain ⟨history, hrow, hmem⟩ := hhistory d history' hrow'
    obtain ⟨entry, hentry⟩ := List.exists_mem_of_ne_nil _ hne
    obtain ⟨hold, hbelow⟩ := (hmem entry).mp hentry
    rcases hslots.origin d history hrow (List.ne_nil_of_mem hold) with
      hclaimed | ⟨hnot, first, hfirst, hzero⟩
    · obtain ⟨claim, hclaim, rfl⟩ := List.mem_map.mp hclaimed
      rcases List.mem_append.mp hclaim with hnew | hkept
      · -- only the histories of a genesis block are not cut
        have hlower := hundo.since claim hnew history hrow entry hold
        have hupper := (hlife _ history hrow).2 entry hold
        have hnil : older = [] := by
          by_contra hne
          exact absurd (hbelow (List.length_pos_iff.mpr hne)) (Nat.not_lt.mpr hlower)
        refine .inr ⟨hundo.nonstandard hnil claim hnew, entry, hentry, ?_⟩
        rw [hnil] at hupper
        exact Nat.le_zero.mp hupper
      · exact .inl (List.mem_map_of_mem hkept)
    · refine .inr ⟨hnot, first, (hmem first).mpr ⟨hfirst, fun hpos => ?_⟩, hzero⟩
      rw [hzero]
      exact hpos
  · intro newer c' older' holder
    have hrest := hslots.undo (c :: newer) c' older' (by rw [holder]; rfl)
    have hlt : older'.length < older.length := by
      rw [holder, List.length_append, List.length_cons]
      omega
    refine ⟨?_, ?_, hrest.bounded, hrest.unpriced, hrest.nonstandard, ?_⟩
    · rw [hpricingUndo, lookup_erase, if_neg hlt.ne, hprices.2]
      exact hrest.pricing
    · rw [hundone.mintingUndo, lookup_erase, if_neg hlt.ne]
      exact hrest.highest
    · intro claim hclaim history' hrow' entry hentry
      obtain ⟨history, hrow, hmem⟩ := hhistory _ history' hrow'
      exact hrest.since claim hclaim history hrow entry ((hmem entry).mp hentry).1

/-- The window of the block ends with a period that has decisions. -/
def WindowHasDecisions (config : DecisionConfig) (s : State F) (block : Block F) : Prop :=
  ∀ currentPeriod, blockPeriod config s block = .ok currentPeriod →
    currentPeriod + (futurePeriods - 1) ≤ maxPeriodIndex

/-- A run in which the blocks that are disconnected are restricted as well. -/
inductive UndoRun (L : Library F) (config : DecisionConfig) (lib : WithdrawalBundle.BundleLib)
    (ok okUndo : State F → Block F → Prop) (okPeg : State F → TwoWayPegData → Prop) :
    List (Block F) → State F → Prop where
  | start : UndoRun L config lib ok okUndo okPeg [] (State.empty F)
  | connect {chain : List (Block F)} {s s' : State F} {block : Block F} (archive : Archive)
      (hrun : UndoRun L config lib ok okUndo okPeg chain s) (hok : ok s block)
      (h : applyBlock L config archive s block = .ok s') :
      UndoRun L config lib ok okUndo okPeg (block :: chain) s'
  | disconnect {chain : List (Block F)} {s s' : State F} {block : Block F}
      (hrun : UndoRun L config lib ok okUndo okPeg (block :: chain) s) (hok : okUndo s block)
      (h : disconnectTip L s block.header block.body = .ok s') :
      UndoRun L config lib ok okUndo okPeg chain s'
  | connectPeg {chain : List (Block F)} {s s' : State F} {data : TwoWayPegData}
      (hrun : UndoRun L config lib ok okUndo okPeg chain s) (hok : okPeg s data)
      (h : s.connectTwoWayPegData lib data = .ok s') :
      UndoRun L config lib ok okUndo okPeg chain s'
  | disconnectPeg {chain : List (Block F)} {s s' : State F} {data : TwoWayPegData}
      (hrun : UndoRun L config lib ok okUndo okPeg chain s)
      (h : s.disconnectTwoWayPegData data = .ok s') :
      UndoRun L config lib ok okUndo okPeg chain s'

variable {lib : WithdrawalBundle.BundleLib} {ok okUndo : State F → Block F → Prop}
  {okPeg : State F → TwoWayPegData → Prop} {chain : List (Block F)}

theorem UndoRun.run (h : UndoRun L config lib ok okUndo okPeg chain s) :
    Run L config lib ok okPeg chain s := by
  induction h with
  | start => exact .start
  | connect archive _ hok h ih => exact ih.connect archive hok h
  | disconnect _ _ h ih => exact ih.disconnect h
  | connectPeg _ hok h ih => exact ih.connectPeg hok h
  | disconnectPeg _ h ih => exact ih.disconnectPeg h

theorem slotsKept_of_run
    (hrun : UndoRun L config lib (WindowHasDecisions config) KeepsTop okPeg chain s) :
    ∃ connected, connected.map Prod.snd = chain ∧ ClaimsKept L connected s ∧
      SlotsKept L connected s := by
  induction hrun with
  | start =>
      obtain ⟨connected, hnil, -, hclaims⟩ := claimsKept_of_run
        (Run.start : Run L config lib (WindowHasDecisions config) okPeg [] (State.empty F))
      obtain rfl := List.map_eq_nil_iff.mp hnil
      refine ⟨[], rfl, hclaims, ⟨?_, fun _ => rfl, ?_, ?_⟩⟩
      · intro period pricing hpricing
        simp [State.empty, Dbs.empty] at hpricing
      · intro d history hrow
        simp [State.empty, Dbs.empty] at hrow
      · intro newer c older hconnected
        simp at hconnected
  | connect archive hrun hok h ih =>
      obtain ⟨connected, rfl, hclaims, hslots⟩ := ih
      have hheight := height_of_run hrun.run
      have hclaims' := hclaims.connect hheight h
      obtain ⟨t, ht, rfl⟩ := connects_of_applyBlock h
      have hlength := height_of_prepares hheight ht.toPrepares
      rw [List.length_map] at hlength
      refine ⟨_ :: connected, rfl, hclaims', hslots.connect hclaims'.nodup hlength ht ?_⟩
      exact hok t.currentPeriod (blockPeriod_of_prepares ht.toPrepares)
  | disconnect hrun hok h ih =>
      obtain ⟨connected, hchain, hclaims, hslots⟩ := ih
      obtain ⟨c, older, rfl, rfl, rfl⟩ := List.map_eq_cons_iff.mp hchain
      obtain ⟨height, hundone⟩ := tablesUndone_of_disconnectTip h
      have hheight : some height = some (older.map Prod.snd).length :=
        hundone.tip.symm.trans (height_of_run hrun.run)
      rw [List.length_map] at hheight
      obtain rfl := Option.some.inj hheight
      have hlife := lifeCycles_of_run hrun.run
      rw [List.length_cons, List.length_map, Nat.add_sub_cancel] at hlife
      exact ⟨older, rfl, hclaims.disconnect hlife hundone,
        hslots.disconnect hclaims hlife hundone hok⟩
  | connectPeg _ _ h ih | disconnectPeg _ h ih =>
      obtain ⟨connected, hchain, hclaims, hslots⟩ := ih
      obtain ⟨p, -, h⟩ := bind_eq_ok_iff.mp h
      rw [← Except.ok.inj h]
      exact ⟨connected, hchain, hclaims.congr rfl rfl rfl, hslots.congr rfl rfl⟩

/-- In every state of a run whose blocks leave the highest period minted when they are
disconnected, and whose windows have decisions, the listed decisions of every period are those
that may be claimed and have a price. -/
theorem listsClaimable_of_run
    (hrun : UndoRun L config lib (WindowHasDecisions config) KeepsTop okPeg chain s) :
    ListsClaimable config s.decisions := by
  obtain ⟨connected, -, hclaims, hslots⟩ := slotsKept_of_run hrun
  exact listsClaimable_of_bounded hslots.bounded (votedClaimed_of_kept hclaims hslots)

end

/-- The first standard slot of the last period that the genesis block mints. -/
def topDecision : DecisionId := BitVec.ofNat 24 (2 ^ 23 + 20 * 2 ^ 16)

/-- A claim in the highest period is connected and disconnected, and an empty block follows. -/
def toppledRun : Except Error (State Rat × State Rat × State Rat) := do
  let s ← runBlocks marketConfig 1 [blockAt 1 [claiming 0 topDecision]]
  let block := blockAt 1 [claiming 0 topDecision]
  let s' ← disconnectTip chainLibrary s block.header block.body
  let s'' ← applyBlock chainLibrary marketConfig emptyArchive s' (blockAt 1 [])
  .ok (s, s', s'')

/-- A genesis block, and a second one that comes in period 121. -/
def lateBlocks : List (Block Rat) :=
  let genesis := sampleBlock ClaimPaths.timeLibrary none ⟨[], []⟩ [] [] 1000
  [genesis, sampleBlock ClaimPaths.timeLibrary (some genesis.header) ⟨[], []⟩ [] [] 13000]

/-- The slot past the last one is listed once period 1 has one mint too many, and a period
without decisions cannot be listed. -/
theorem not_listsClaimable_of_runs :
    (∃ s, Run chainLibrary marketConfig sampleBundleLib (fun _ _ => True) (fun _ _ => True)
        [blockAt 1 [], blockAt 0 []] s ∧ ¬ ListsClaimable marketConfig s.decisions) ∧
      ∃ s, Run ClaimPaths.timeLibrary ClaimPaths.timeConfig sampleBundleLib (fun _ _ => True)
        (fun _ _ => True) lateBlocks.reverse s ∧
          ¬ ListsClaimable ClaimPaths.timeConfig s.decisions := by
  constructor
  · have hcomputed : holds toppledRun (fun run =>
        holds (getAvailableDecisionsInPeriod marketConfig run.2.2.decisions 1 0 (some 1) 0)
          (fun listed => packed true 1 500 ∈ listed) &&
        !holds (run.2.2.decisions.feeForDecisionId (packed true 1 500)) fun _ => true) = true := by
      decide +kernel
    obtain ⟨⟨s, s', s''⟩, hrun, htests⟩ := holds_iff.mp hcomputed
    rw [Bool.and_eq_true, holds_iff] at htests
    obtain ⟨⟨listed, hlisted, hmem⟩, hfee⟩ := htests
    simp only [toppledRun, bind_eq_ok_iff, Except.ok.injEq, Prod.mk.injEq] at hrun
    obtain ⟨_, hblocks, _, hdisconnect, _, hconnect, rfl, rfl, rfl⟩ := hrun
    have hbefore := (chain_of_runBlocks hblocks).run
    refine ⟨_, (Run.disconnect hbefore hdisconnect).connect emptyArchive trivial hconnect, ?_⟩
    intro hclaimable
    obtain ⟨listed', hlisted', -, hall⟩ := hclaimable 0 (some 1) 0 1 rfl 1
    obtain rfl := Except.ok.inj (hlisted.symm.trans hlisted')
    obtain ⟨-, -, -, fee, hpriced⟩ := (hall _).mp (of_decide_eq_true hmem)
    rw [holds_iff.mpr ⟨fee, hpriced, rfl⟩] at hfee
    cases hfee
  · have hcomputed : holds
        (lateBlocks.foldlM
          (applyBlock ClaimPaths.timeLibrary ClaimPaths.timeConfig emptyArchive)
          (State.empty Rat))
        (fun s => !holds (getAvailableDecisionsInPeriod ClaimPaths.timeConfig s.decisions 128
          13000 none 1000) fun _ => true) = true := by
      decide +kernel
    obtain ⟨s, hblocks, htest⟩ := holds_iff.mp hcomputed
    have hchain : Chain ClaimPaths.timeLibrary ClaimPaths.timeConfig sampleBundleLib
        (fun _ _ => True) (fun _ _ => True) (lateBlocks.reverse ++ []) s :=
      chain_of_foldlM (fun _ _ _ => trivial) Chain.start hblocks
    rw [List.append_nil] at hchain
    refine ⟨s, hchain.run, fun hclaimable => ?_⟩
    obtain ⟨listed, hlisted, -⟩ := hclaimable 13000 none 1000 121 rfl 128
    rw [holds_iff.mpr ⟨listed, hlisted, rfl⟩] at htest
    cases htest

/-- A claim in the first period is connected and disconnected. -/
theorem listsClaimable_of_run_reverted :
    ∃ s, UndoRun chainLibrary marketConfig sampleBundleLib (WindowHasDecisions marketConfig)
        KeepsTop (fun _ _ => True) [blockAt 0 []] s ∧
      ListsClaimable marketConfig s.decisions ∧
      ∃ listed, getAvailableDecisionsInPeriod marketConfig s.decisions 1 0 (some 1) 0 =
        .ok listed ∧ marketDecision ∈ listed := by
  have hcomputed : holds revertedRun (fun run =>
      decide (run.1.height = some 1) && decide (run.1.mintingUndo[1]? = some 20) &&
      decide (20 ∈ run.1.decisions.periodDecisions) &&
      holds (getAvailableDecisionsInPeriod marketConfig run.2.decisions 1 0 (some 1) 0)
        fun listed => marketDecision ∈ listed) = true := by
    decide +kernel
  obtain ⟨⟨s, s'⟩, hrun, htests⟩ := holds_iff.mp hcomputed
  simp only [Bool.and_eq_true, decide_eq_true_eq] at htests
  obtain ⟨⟨⟨hheight, hminting⟩, htop⟩, hlisted⟩ := htests
  obtain ⟨listed, hlisted, hmem⟩ := holds_iff.mp hlisted
  simp only [revertedRun, runBlocks, runBlocksIn, genesisIn, claimBlocks, bind_eq_ok_iff,
    Except.ok.injEq, Prod.mk.injEq, List.foldlM_cons, List.foldlM_nil] at hrun
  obtain ⟨_, ⟨s₁, ⟨s₀, hgenesis, hpeg⟩, s₂, hblock, hpure⟩, _, hdisconnect, rfl, rfl⟩ := hrun
  obtain rfl := Except.ok.inj hpure
  have hgenesisRun : Run chainLibrary marketConfig sampleBundleLib (fun _ _ => True)
      (fun _ _ => True) [blockAt 0 []] s₁ :=
    (Run.start.connect emptyArchive trivial hgenesis).connectPeg trivial hpeg
  have hheight₁ : s₁.height = some 0 := height_of_run hgenesisRun
  have hfirst : WindowHasDecisions marketConfig (State.empty Rat) (blockAt 0 []) := by
    intro c hc
    obtain rfl : 1 = c := Except.ok.inj hc
    decide
  have hsecond : WindowHasDecisions marketConfig s₁ (blockAt 1 [claiming 0 marketDecision]) := by
    intro c hc
    rw [blockPeriod, hheight₁] at hc
    obtain rfl : 1 = c := Except.ok.inj hc
    decide
  have hkeeps : KeepsTop s₂ (blockAt 1 [claiming 0 marketDecision]) := by
    intro height highest hheight' hminting' _
    obtain rfl := Option.some.inj (hheight.symm.trans hheight')
    obtain rfl := Option.some.inj (hminting.symm.trans hminting')
    have hclaimed : claimedIn (blockAt 1 [claiming 0 marketDecision]) = [marketDecision] := rfl
    have hperiod : DecisionId.periodIndex marketDecision ≠ 20 := by decide +kernel
    refine ⟨htop, .inl fun d hd => ?_⟩
    rw [hclaimed, List.mem_singleton] at hd
    rw [hd]
    exact hperiod
  have hbefore : UndoRun chainLibrary marketConfig sampleBundleLib
      (WindowHasDecisions marketConfig) KeepsTop (fun _ _ => True)
      [blockAt 1 [claiming 0 marketDecision], blockAt 0 []] s₂ :=
    ((UndoRun.start.connect emptyArchive hfirst hgenesis).connectPeg trivial hpeg).connect
      emptyArchive hsecond hblock
  have hafter := hbefore.disconnect hkeeps hdisconnect
  exact ⟨_, hafter, listsClaimable_of_run hafter, listed, hlisted, of_decide_eq_true hmem⟩

end Truthcoin.SlotRuns
