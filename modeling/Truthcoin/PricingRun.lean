import Truthcoin.ClaimPaths
import Truthcoin.SlotLedger

/-!
# Minting and pricing over whole chains

As long as the current period stays or advances by one from block to block, and
blocks claim in minted periods only, the window of the current period is minted and
accounted for.
-/

namespace Truthcoin.PricingRun

open Truthcoin.Types Truthcoin.Table Truthcoin.Fallible Truthcoin.Arithmetic
open Truthcoin.Decisions Truthcoin.Markets Truthcoin.Voting Truthcoin.Blocks
open Truthcoin.Validation Truthcoin.Apply Truthcoin.ApplySteps Truthcoin.Connect
open Truthcoin.ConnectTrace Truthcoin.BlockChecks Truthcoin.BlockRun Truthcoin.SlotLedger
open Truthcoin.SettlementSteps

variable {F : Type} {L : Library F} {config : DecisionConfig} {archive : Archive}

section

variable [F64 F] {s : State F} {tx : FilledTransaction F} {overrideHeight : Option Nat}

/-- A validated claim is of an available decision, and its transaction has an input. -/
theorem available_of_validateTxData {data : TxData F}
    (hdata : tx.transaction.data = some data)
    (h : validateTxData L config archive s tx overrideHeight data = .ok ())
    {d : DecisionId} (hd : d ∈ Transaction.claimedIds tx.transaction) :
    ClaimPaths.Available s.decisions d ∧ tx.transaction.inputs ≠ [] := by
  have hinputs : ∀ maker, validateMakerAuth tx = .ok maker → tx.transaction.inputs ≠ [] := by
    intro maker hmaker
    simp only [validateMakerAuth, bind_eq_ok_iff, ensure_eq_ok_iff] at hmaker
    obtain ⟨_, hne, -⟩ := hmaker
    exact hne
  have hpayload : ∀ (ctx : ClaimContext) maker (payload : ClaimDecisionPayload F) fee,
      validateClaimPayload config s.decisions ctx maker payload = .ok fee →
      d ∈ payload.decisions.map DecisionClaimEntry.decisionIdBytes →
      ClaimPaths.Available s.decisions d := by
    intro ctx maker payload fee hfee hmem
    obtain ⟨entry, hentry, rfl⟩ := List.mem_map.mp hmem
    exact (ClaimPaths.validateClaimPayload_eq_ok_iff.mp hfee).1.available entry hentry
  cases data with
  | claimDecision payload =>
      obtain ⟨fee, ⟨maker, hmaker, hfee⟩, -⟩ :=
        ClaimPaths.validateCompleteDecisionClaim_eq_ok_iff.mp h
      simp only [Transaction.claimedIds, Transaction.claimPayloads, hdata,
        List.flatMap_cons, List.flatMap_nil, List.append_nil] at hd
      exact ⟨hpayload _ maker payload fee hfee hd, hinputs maker hmaker⟩
  | createMarket creation =>
      simp only [Transaction.claimedIds, Transaction.claimPayloads, hdata,
        List.mem_flatMap] at hd
      obtain ⟨payload, hmem, hd⟩ := hd
      obtain ⟨before, after, hclaims⟩ := List.append_of_mem hmem
      obtain ⟨acc, fee, maker, pending, hmaker, hnew⟩ :=
        ClaimPaths.acceptedInMarket_of_validateMarketCreation hclaims h
      obtain ⟨fee', hfee, -⟩ := bind_eq_ok_iff.mp hnew
      exact ⟨hpayload _ maker payload fee' hfee hd, hinputs maker hmaker⟩
  | trade _ | submitVote _ | submitBallot _ | transferReputation _ | amplifyBeta _ =>
      simp [Transaction.claimedIds, Transaction.claimPayloads, hdata] at hd

end

variable [F64 F] [DecidableEq F] {s s' : State F} {block : Block F} {t : Trace F}

/-- The decisions that the transactions of a block claim. -/
def claimedIn (block : Block F) : List DecisionId :=
  block.body.transactions.flatMap Transaction.claimedIds

theorem available_of_prepares (ht : Prepares L config archive s block t)
    {tx : FilledTransaction F} (htx : tx ∈ t.pre.filledTransactions) {d : DecisionId}
    (hd : d ∈ Transaction.claimedIds tx.transaction) :
    ClaimPaths.Available s.decisions d ∧
      ∃ (o : OutPoint) (output : FilledOutput), s.coins.utxos[o]? = some output := by
  have hpre := prevalidated_of_prevalidate ht.prevalidated
  cases hdata : tx.transaction.data with
  | none => simp [Transaction.claimedIds, Transaction.claimPayloads, hdata] at hd
  | some data =>
      obtain ⟨havailable, hinputs⟩ :=
        available_of_validateTxData hdata (hpre.validTxData htx hdata) hd
      obtain ⟨o, ho⟩ := List.exists_mem_of_ne_nil _ hinputs
      exact ⟨havailable, o, (hpre.exists_filledFrom htx).mem_utxos ho⟩

/-- The claims of a block that is connected in a state. -/
def blockClaims (L : Library F) (s : State F) (block : Block F) : List (Claim F) :=
  block.body.transactions.flatMap fun tx =>
    claimsBy L (tx.inputs.head?.bind fun o => s.coins.utxos[o]?) tx

omit [DecidableEq F] in
theorem blockClaims_eq {pre : PrevalidatedBlock F}
    (h : Prevalidated L config archive s block.header block.body pre) :
    pre.filledTransactions.flatMap (txClaims L) = blockClaims L s block := by
  have hfilled := h.filled
  unfold blockClaims
  generalize block.body.transactions = txs, pre.filledTransactions = filled at hfilled
  induction hfilled with
  | nil => rfl
  | @cons tx filled txs filleds hfirst _ ih =>
      have hspent : filled.spentUtxos.head? = tx.inputs.head?.bind fun o => s.coins.utxos[o]? := by
        have hall := hfirst.spent
        generalize tx.inputs = inputs, filled.spentUtxos = outputs at hall
        cases hall with
        | nil => rfl
        | cons ho _ => exact ho.symm
      rw [List.flatMap_cons, List.flatMap_cons, ih, txClaims, hspent, hfirst.transaction]

/-- A block applies its claims. No claim is skipped. -/
theorem blockClaims_of_prepares (ht : Prepares L config archive s block t) :
    (blockClaims L s block).foldlM (Claim.apply t.height) t.voting =
      .ok t.applied.state.decisions ∧
      (blockClaims L s block).map Claim.source =
        block.body.transactions.flatMap (claimSources L) := by
  have hpre := prevalidated_of_prevalidate ht.prevalidated
  obtain ⟨hclaims, hsources⟩ := claims_of_effects (effects_of_applyTransactions ht.applied)
  have hnone : ∀ (tx : FilledTransaction F) (trade : Trade),
      tx.transaction.data = some (.trade trade) → tx.transaction.claimPayloads = [] := by
    intro tx trade hdata
    rw [Transaction.claimPayloads, hdata]
  rw [notSkipped_flatMap ht.applied (f := txClaims L) fun tx trade hdata =>
    txClaims_of_no_claims (hnone tx trade hdata)] at hclaims hsources
  rw [notSkipped_flatMap ht.applied fun tx trade hdata => by
    rw [claimSources, Transaction.claimedIds, hnone tx trade hdata]; rfl] at hsources
  rw [blockClaims_eq hpre] at hclaims hsources
  refine ⟨hclaims, ?_⟩
  rw [hsources, ← hpre.map_transaction, List.flatMap_map]

theorem available_of_blockClaims (ht : Prepares L config archive s block t) :
    ((blockClaims L s block).map Claim.decisionId).Nodup ∧
      ∀ claim ∈ blockClaims L s block, claim.decisionId ∈ claimedIn block ∧
        ClaimPaths.Available s.decisions claim.decisionId ∧
        ∃ (o : OutPoint) (output : FilledOutput), s.coins.utxos[o]? = some output := by
  have hpre := prevalidated_of_prevalidate ht.prevalidated
  have hids : (blockClaims L s block).map Claim.decisionId = claimedIn block := by
    have h := congrArg (List.map Prod.fst) (blockClaims_of_prepares ht).2
    rw [List.map_map, List.map_flatMap] at h
    simpa [claimSources, Function.comp_def, Claim.source, claimedIn] using h
  refine ⟨by rw [hids]; exact hpre.claims, ?_⟩
  intro claim hclaim
  have hmem : claim.decisionId ∈ claimedIn block := hids ▸ List.mem_map_of_mem hclaim
  obtain ⟨tx, htx, hd⟩ := List.mem_flatMap.mp hmem
  rw [← hpre.map_transaction] at htx
  obtain ⟨filled, hfilled, rfl⟩ := List.mem_map.mp htx
  exact ⟨hmem, available_of_prepares ht hfilled hd⟩

theorem claims_of_prepares (ht : Prepares L config archive s block t) :
    ∃ claims : List (Claim F),
      claims.foldlM (Claim.apply t.height) t.voting = .ok t.applied.state.decisions ∧
      claims.map Claim.source = block.body.transactions.flatMap (claimSources L) ∧
      (claims.map Claim.decisionId).Nodup ∧
      ∀ claim ∈ claims, claim.decisionId ∈ claimedIn block ∧
        ClaimPaths.Available s.decisions claim.decisionId ∧
        ∃ (o : OutPoint) (output : FilledOutput), s.coins.utxos[o]? = some output := by
  obtain ⟨hclaims, hsources⟩ := blockClaims_of_prepares ht
  exact ⟨_, hclaims, hsources, available_of_blockClaims ht⟩

/-- The two databases differ in their prices only. -/
def SameButPrices (db db' : Dbs F) : Prop :=
  db' = { db with periodPricing := db'.periodPricing }

omit [F64 F] [DecidableEq F] in
theorem SameButPrices.putPricing {db db' : Dbs F} (h : SameButPrices db db') (period : Nat)
    (pricing : PeriodPricing) : SameButPrices db (db'.putPricing period pricing) :=
  congrArg (fun rest : Dbs F => rest.putPricing period pricing) h

omit [F64 F] [DecidableEq F] in
theorem sameButPrices_repricePeriods {db db' : Dbs F} {height transitions : Nat}
    {periods : List Nat}
    (h : periods.foldlM (Dbs.repricePeriod height transitions) db = .ok db') :
    SameButPrices db db' := by
  refine foldlM_preserves (P := SameButPrices db) ?_ h rfl
  intro period _ db₁ db₂ hsame hstep
  unfold Dbs.repricePeriod at hstep
  split at hstep
  · rw [← Except.ok.inj hstep]
    exact hsame
  · obtain ⟨pricing, -, hstep⟩ := bind_eq_ok_iff.mp hstep
    rw [← Except.ok.inj hstep]
    exact hsame.putPricing period pricing

omit [F64 F] [DecidableEq F] in
theorem minted_of_priceBlock {db db' : Dbs F} {height timestamp genesisTs : Nat}
    (h : priceBlock config db height timestamp genesisTs = .ok db') :
    ∃ target, SameButPrices (db.mintPeriodsUpTo target) db' := by
  unfold priceBlock at h
  split at h
  · simp only [Dbs.mintGenesis, bind_eq_ok_iff, Except.ok.injEq] at h
    obtain ⟨_, -, target, -, rfl⟩ := h
    refine ⟨target, List.foldlRecOn (motive := SameButPrices _) _ _ rfl ?_⟩
    intro db₁ hsame period _
    split
    · exact hsame
    · exact hsame.putPricing period _
  · simp only [Dbs.processBlockPricing, bind_eq_ok_iff] at h
    obtain ⟨newCurrent, -, target, -, nextPeriod, -, h⟩ := h
    refine ⟨target, ?_⟩
    split at h
    · have hseeded : SameButPrices (db.mintPeriodsUpTo target)
          ((Dbs.periodsUpTo nextPeriod target).foldl (Dbs.seedPeriod height newCurrent)
            (db.mintPeriodsUpTo target)) :=
        List.foldlRecOn (motive := SameButPrices _) _ _ rfl
          fun db₁ hsame period _ => hsame.putPricing period _
      have hrepriced := sameButPrices_repricePeriods h
      rw [SameButPrices, hrepriced, hseeded]
    · split at h
      · exact sameButPrices_repricePeriods h
      · rw [← Except.ok.inj h]
        rfl

/-- The rows of the periods and of the prices are the same. -/
def SameSlots (db db' : Dbs F) : Prop :=
  db'.periodDecisions = db.periodDecisions ∧ db'.periodPricing = db.periodPricing

omit [F64 F] [DecidableEq F] in
theorem sameSlots_transitionAllToVoting {db db' : Dbs F} {currentPeriod height : Nat}
    (h : transitionAllToVoting db currentPeriod height = .ok db') : SameSlots db db' := by
  refine foldlM_preserves (P := SameSlots db) ?_ h ⟨rfl, rfl⟩
  intro d _ db₁ db₂ hsame hstep
  simp only [Dbs.transitionDecisionToVoting, bind_eq_ok_iff, Except.ok.injEq] at hstep
  obtain ⟨_, -, _, -, rfl⟩ := hstep
  exact hsame

omit [DecidableEq F] in
theorem blockHeight_of_computeConsensus {calculate : CalculateConsensus F}
    {voting : VotingDatabases F} {db : Dbs F} {reputation : Table Address F}
    {period : VotingPeriod} {height : Nat} {result : ConsensusResult F}
    (h : computeConsensus calculate voting db reputation period height = .ok (some result)) :
    result.blockHeight = height := by
  unfold computeConsensus at h
  dsimp only at h
  split at h
  · cases h
  · split at h
    · rw [← Option.some.inj (Except.ok.inj h)]
    · split at h
      · cases h
      · obtain ⟨result', hresult, h⟩ := bind_eq_ok_iff.mp h
        obtain rfl := Option.some.inj (Except.ok.inj h)
        simp only [computeVotedConsensus, bind_eq_ok_iff, Except.ok.injEq] at hresult
        obtain ⟨_, -, _, -, rfl⟩ := hresult
        rfl

omit [DecidableEq F] in
theorem decisions_of_resolvePeriods {P : Dbs F → Prop} {genesisTs height : Nat}
    {periods : List (Nat × List DecisionId)}
    {acc acc' : ConsensusTables F × List (ConsensusUndoEntry F)}
    (hstep : ∀ db db' d outcome, P db →
      db.transitionDecisionToResolved d height outcome = .ok db' → P db')
    (hdb : P acc.1.decisions)
    (h : periods.foldlM (resolvePeriod L config genesisTs height) acc = .ok acc') :
    P acc'.1.decisions := by
  refine foldlM_preserves (P := fun a => P a.1.decisions) ?_ h hdb
  rintro period - a a' ha hperiod
  simp only [resolvePeriod, calculateAndStoreConsensus, bind_eq_ok_iff, Except.ok.injEq] at hperiod
  obtain ⟨_, -, ⟨tables, entry⟩, ⟨computed, hcomputed, hcommit⟩, rfl⟩ := hperiod
  cases computed with
  | none =>
      obtain ⟨rfl, -⟩ := Prod.mk.inj (Except.ok.inj hcommit)
      exact ha
  | some result =>
      obtain ⟨⟨tables', entry'⟩, hresult, hpair⟩ := bind_eq_ok_iff.mp hcommit
      obtain ⟨rfl, -⟩ := Prod.mk.inj (Except.ok.inj hpair)
      obtain rfl := blockHeight_of_computeConsensus hcomputed
      simp only [commitConsensusResult, bind_eq_ok_iff, Except.ok.injEq, Prod.mk.injEq] at hresult
      obtain ⟨_, -, _, -, decisions, hfold, rfl, -⟩ := hresult
      exact foldlM_preserves (P := P) (fun _ _ db db' hdb => hstep db db' _ _ hdb) hfold ha

omit [DecidableEq F] in
theorem sameSlots_resolvePeriods {genesisTs height : Nat} {periods : List (Nat × List DecisionId)}
    {acc acc' : ConsensusTables F × List (ConsensusUndoEntry F)}
    (h : periods.foldlM (resolvePeriod L config genesisTs height) acc = .ok acc') :
    SameSlots acc.1.decisions acc'.1.decisions := by
  refine decisions_of_resolvePeriods (P := SameSlots acc.1.decisions) ?_ ⟨rfl, rfl⟩ h
  intro db₁ db₂ d outcome hsame hstep
  simp only [Dbs.transitionDecisionToResolved, bind_eq_ok_iff, Except.ok.injEq] at hstep
  obtain ⟨_, -, _, -, rfl⟩ := hstep
  exact hsame

/-- The period of the tip. -/
def currentPeriod (config : DecisionConfig) (s : State F) : Except Error Nat :=
  getCurrentPeriod config (s.mainchainTimestamp.getD 0) s.height (s.genesisTimestamp.getD 0)

theorem finished_decisions (ht : Connects L config archive s block t) :
    (t.finished L block).decisions = t.tables.decisions := by
  have hframe := transitionAndPayoutResolvedMarkets_framed ht.paid
  change t.paid.decisions = t.tables.decisions
  rw [hframe]
  rfl

theorem currentPeriod_finished (ht : Connects L config archive s block t) :
    currentPeriod config (t.finished L block) = .ok t.currentPeriod := by
  have hgenesis : (t.finished L block).genesisTimestamp =
      (startBlock s block.body t.height block.mainchainTimestamp).genesisTimestamp := by
    have hframe := transitionAndPayoutResolvedMarkets_framed ht.paid
    have happlied := framed_of_applyTransactions ht.applied
    change t.paid.genesisTimestamp = _
    rw [hframe]
    change t.applied.state.genesisTimestamp = _
    rw [happlied]
    rfl
  rw [currentPeriod, hgenesis]
  exact ht.period

theorem sameSlots_voting (ht : Prepares L config archive s block t) :
    SameSlots s.decisions t.voting := by
  have hstart := startBlock_eq s block.body t.height block.mainchainTimestamp
  have hsame := sameSlots_transitionAllToVoting ht.voting
  rw [hstart] at hsame
  exact hsame

theorem Ledger.finished {c : Nat} (ht : Connects L config archive s block t)
    (h : Ledger c t.priced) : Ledger c (t.finished L block).decisions := by
  obtain ⟨hrows, hprices⟩ := sameSlots_resolvePeriods ht.tables
  rw [finished_decisions ht]
  exact h.congr hrows hprices

theorem Ledger.applied {c : Nat} (hledger : Ledger c s.decisions)
    (ht : Connects L config archive s block t)
    (hminted : ∀ d ∈ claimedIn block, d.periodIndex ≤ c + 19) :
    Ledger c t.applied.state.decisions := by
  obtain ⟨claims, hfold, -, hnodup, hclaims⟩ := claims_of_prepares ht.toPrepares
  obtain ⟨hrows, hprices⟩ := sameSlots_voting ht.toPrepares
  refine (hledger.congr hrows hprices).claims hnodup ?_ ?_ hfold
  · intro claim hclaim
    obtain ⟨-, ⟨-, hunclaimed, hunlocked⟩, -⟩ := hclaims claim hclaim
    constructor
    · intro hmem
      rw [idsOf, Dbs.entriesOf, hrows] at hmem
      obtain ⟨entry, hentry, hid⟩ := List.mem_map.mp hmem
      refine hunclaimed (List.mem_map.mpr ⟨entry, List.mem_filter.mpr ⟨hentry, ?_⟩, hid⟩)
      exact (hledger.entries _ entry hentry).2
    · intro hstandard pricing hpricing
      obtain ⟨old, hold, hslot⟩ := hunlocked hstandard
      rw [hprices, hold] at hpricing
      rw [← Option.some.inj hpricing]
      exact hslot
  · exact fun claim hclaim => hminted _ (hclaims claim hclaim).1

/-- The block stays in the period of the tip or is in the next one, and claims in
minted periods only. -/
def StepsByOne (config : DecisionConfig) (s : State F) (block : Block F) : Prop :=
  ∀ height c c', s.height = some height → currentPeriod config s = .ok c →
    getCurrentPeriod config block.mainchainTimestamp (some (height + 1))
      (s.genesisTimestamp.getD 0) = .ok c' →
    (c' = c ∨ c' = c + 1) ∧ ∀ d ∈ claimedIn block, d.periodIndex ≤ c + 19

theorem ledger_of_genesis (ht : Connects L config archive (State.empty F) block t) :
    Ledger t.currentPeriod (t.finished L block).decisions := by
  refine Ledger.finished ht ?_
  obtain ⟨claims, hfold, -, -, hclaims⟩ := claims_of_prepares ht.toPrepares
  have hnone : claims = [] := by
    refine List.eq_nil_iff_forall_not_mem.mpr ?_
    intro claim hclaim
    obtain ⟨-, -, o, output, hutxo⟩ := hclaims claim hclaim
    simp [State.empty, Coins.empty] at hutxo
  subst hnone
  obtain ⟨hrows, hprices⟩ := sameSlots_voting ht.toPrepares
  have happlied : t.voting = t.applied.state.decisions := Except.ok.inj hfold
  have hheight : t.height = 0 :=
    (Except.ok.inj (prevalidated_of_prevalidate ht.prevalidated).height).symm
  have hpriced := ht.priced
  rw [priceBlock, if_pos hheight] at hpriced
  exact ledger_genesis (by rw [← happlied, hrows]; rfl) (by rw [← happlied, hprices]; rfl)
    ht.period hpriced

theorem ledger_of_block {height c : Nat} (hheight : s.height = some height)
    (hperiod : currentPeriod config s = .ok c) (hledger : Ledger c s.decisions)
    (hok : StepsByOne config s block) (ht : Connects L config archive s block t) :
    Ledger t.currentPeriod (t.finished L block).decisions := by
  have hnext : t.height = height + 1 := by
    have hpre := (prevalidated_of_prevalidate ht.prevalidated).height
    rw [hheight] at hpre
    exact (addU32_eq_ok_iff.mp hpre).2
  have hgenesis : t.genesisTs s block = s.genesisTimestamp.getD 0 := by
    rw [Trace.genesisTs, startBlock, if_neg (by omega)]
    rfl
  have hcurrent := ht.period
  rw [hnext, hgenesis] at hcurrent
  obtain ⟨hstep, hminted⟩ := hok height c t.currentPeriod hheight hperiod hcurrent
  have happlied := Ledger.applied hledger ht hminted
  have hpriced := ht.priced
  rw [priceBlock, if_neg (by omega), hnext, hgenesis] at hpriced
  refine Ledger.finished ht ?_
  rcases hstep with hstep | hstep
  · rw [hstep] at hcurrent ⊢
    exact happlied.pricing_same hcurrent hpriced
  · rw [hstep] at hcurrent ⊢
    exact happlied.pricing_next hcurrent hpriced

variable {lib : WithdrawalBundle.BundleLib} {okPeg : State F → TwoWayPegData → Prop}
  {chain : List (Block F)}

theorem ledger_of_chain (h : Chain L config lib (StepsByOne config) okPeg chain s) :
    s = State.empty F ∨ ∃ c, currentPeriod config s = .ok c ∧ Ledger c s.decisions := by
  induction h with
  | start => exact .inl rfl
  | connect archive hchain hok h ih =>
      obtain ⟨t, ht, rfl⟩ := connects_of_applyBlock h
      refine .inr ⟨t.currentPeriod, currentPeriod_finished ht, ?_⟩
      rcases ih with rfl | ⟨c, hperiod, hledger⟩
      · exact ledger_of_genesis ht
      · rcases hchain.empty_or_height with rfl | ⟨height, hheight⟩
        · exact ledger_of_genesis ht
        · exact ledger_of_block hheight hperiod hledger hok ht
  | connectPeg hchain hok h ih =>
      obtain ⟨p, hp, h⟩ := bind_eq_ok_iff.mp h
      rw [← Except.ok.inj h]
      rcases ih with rfl | hledger
      · simp [TwoWayPeg.connect, State.empty, bind_eq_ok_iff] at hp
      · exact .inr hledger

/-- The window of the current period is minted, priced and counted. -/
def WindowPriced (config : DecisionConfig) (s : State F) : Prop :=
  ∃ c, currentPeriod config s = .ok c ∧
    s.decisions.getHighestMintedPeriod = some (c + 19) ∧
    ∀ period, c ≤ period → period ≤ c + 19 →
      ∃ pricing, s.decisions.periodPricing[period]? = some pricing ∧
        pricing.periodCapacity = Dbs.calculateAvailableDecisions period c ∧
        pricing.claimed = s.decisions.getStandardClaimedCountInPeriod period ∧
        pricing.claimed ≤ pricing.periodCapacity

omit [F64 F] [DecidableEq F] in
theorem claimedCount_of_ledger {c : Nat} {db : Dbs F} (h : Ledger c db) (period : Nat) :
    db.getStandardClaimedCountInPeriod period =
      ((idsOf db period).filter DecisionId.isStandard).length := by
  have hall : (db.entriesOf period).filter (fun entry => entry.decision.isSome) =
      db.entriesOf period :=
    List.filter_eq_self.mpr fun entry hentry => (h.entries period entry hentry).2
  rw [Dbs.getStandardClaimedCountInPeriod, Dbs.getClaimedDecisionIdsForPeriod, hall, idsOf]

/-- In every state that a chain reaches in steps of at most one period, the highest
minted period ends the window, and every period of the window has a price record whose
capacity is the number of available decisions and whose counter is the number of its
standard claims. -/
theorem windowPriced_of_chain (h : Chain L config lib (StepsByOne config) okPeg chain s)
    (hblocks : chain ≠ []) : WindowPriced config s := by
  have hnonempty : s ≠ State.empty F := by
    rintro rfl
    obtain ⟨height, hheight⟩ := h.height_of_ne_nil hblocks
    cases hheight
  obtain ⟨c, hperiod, hledger⟩ := (ledger_of_chain h).resolve_left hnonempty
  refine ⟨c, hperiod, hledger.highest, ?_⟩
  intro period hlow hhigh
  obtain ⟨pricing, hpricing, haccounts⟩ := hledger.priced period hlow hhigh
  refine ⟨pricing, hpricing, ?_, ?_, hledger.claimed_le haccounts⟩
  · have hopen : ¬ futurePeriods ≤ period - c := by
      simp only [futurePeriods]
      omega
    rw [Dbs.calculateAvailableDecisions, if_neg (by omega), if_neg hopen,
      PeriodPricing.periodCapacity, haccounts.mints]
    simp only [futurePeriods, slotsPerTierPerMint, tierCount, initialDecisionsPerPeriod,
      decisionsDecliningRate]
    omega
  · rw [haccounts.claimed, claimedCount_of_ledger hledger]

open Truthcoin.Commitments

/-- The first period after a jump over 25 periods has the slots of one mint only. -/
theorem not_windowPriced_after_jump :
    ∃ s, Chain ClaimPaths.timeLibrary ClaimPaths.timeConfig sampleBundleLib (fun _ _ => True)
        (fun _ _ => True) ClaimPaths.timeBlocks.reverse s ∧
      ¬ WindowPriced ClaimPaths.timeConfig s := by
  have hcomputed : holds
      (ClaimPaths.timeBlocks.foldlM
        (applyBlock ClaimPaths.timeLibrary ClaimPaths.timeConfig emptyArchive)
        (State.empty Rat))
      (fun s => holds (currentPeriod ClaimPaths.timeConfig s) (fun c => c = 26) &&
        (s.decisions.periodPricing[26]?).any (fun pricing => pricing.periodCapacity = 25)) =
      true := by decide +kernel
  obtain ⟨s, hblocks, htests⟩ := holds_iff.mp hcomputed
  rw [Bool.and_eq_true, holds_iff] at htests
  obtain ⟨⟨c, hperiod, hc⟩, hcapacity⟩ := htests
  obtain rfl := of_decide_eq_true hc
  have hchain : Chain ClaimPaths.timeLibrary ClaimPaths.timeConfig sampleBundleLib
      (fun _ _ => True) (fun _ _ => True) (ClaimPaths.timeBlocks.reverse ++ []) s :=
    chain_of_foldlM (fun _ _ _ => trivial) Chain.start hblocks
  rw [List.append_nil] at hchain
  refine ⟨s, hchain, ?_⟩
  rintro ⟨c, hcurrent, -, hpriced⟩
  obtain rfl : 26 = c := Except.ok.inj (hperiod.symm.trans hcurrent)
  obtain ⟨pricing, hpricing, havailable, -⟩ := hpriced 26 (by decide) (by decide)
  rw [hpricing, Option.any_some, decide_eq_true_eq, havailable] at hcapacity
  exact absurd hcapacity (by decide)

/-- A block of each of three successive periods; the second one claims in period 5. -/
def periodBlocks : List (Block Rat) :=
  let genesis := sampleBlock ClaimPaths.timeLibrary none ⟨[], []⟩ [] [] 1000
  let claiming := sampleBlock ClaimPaths.timeLibrary (some genesis.header) ⟨[], []⟩
    [⟨[.deposit 11 0], [], [], some (.claimDecision ClaimPaths.blockClaim)⟩] [8] 1001
  [genesis, claiming,
    sampleBlock ClaimPaths.timeLibrary (some claiming.header) ⟨[], []⟩ [] [] 1002]

/-- The states after the peg data of the first block and after the other blocks. -/
def periodRun : Except Error (State Rat × State Rat × State Rat × State Rat) := do
  let apply := applyBlock ClaimPaths.timeLibrary ⟨true, 1⟩ emptyArchive
  let s ← apply (State.empty Rat) (periodBlocks.get ⟨0, by decide⟩)
  let s₀ ← s.connectTwoWayPegData sampleBundleLib ClaimPaths.timeDeposit
  let s₁ ← apply s₀ (periodBlocks.get ⟨1, by decide⟩)
  let s₂ ← apply s₁ (periodBlocks.get ⟨2, by decide⟩)
  .ok (s, s₀, s₁, s₂)

theorem windowPriced_of_claim :
    ∃ s, Chain ClaimPaths.timeLibrary ⟨true, 1⟩ sampleBundleLib (StepsByOne ⟨true, 1⟩)
        (fun _ _ => True) periodBlocks.reverse s ∧
      currentPeriod ⟨true, 1⟩ s = .ok 3 ∧
      (s.decisions.periodPricing[5]?).any (fun pricing => pricing.claimed = 1) = true ∧
      WindowPriced ⟨true, 1⟩ s := by
  have hcomputed : holds periodRun (fun p => decide (p.2.1.height = some 0) &&
      decide (p.2.2.1.height = some 1) && decide (p.2.2.2.height = some 2) &&
      (p.2.2.2.decisions.periodPricing[5]?).any (fun pricing => pricing.claimed = 1)) = true := by
    decide +kernel
  obtain ⟨⟨s, s₀, s₁, s₂⟩, hrun, htests⟩ := holds_iff.mp hcomputed
  simp only [periodRun, bind_eq_ok_iff, Except.ok.injEq, Prod.mk.injEq] at hrun
  obtain ⟨s, hgenesis, s₀, hpeg, s₁, hsecond, s₂, hthird, rfl, rfl, rfl, rfl⟩ := hrun
  simp only [Bool.and_eq_true, decide_eq_true_eq] at htests
  obtain ⟨⟨⟨hheight, hheight₁⟩, hheight₂⟩, hclaimed⟩ := htests
  have hsteps : StepsByOne ⟨true, 1⟩ s₀ (periodBlocks.get ⟨1, by decide⟩) := by
    intro height c c' hheight' hc hc'
    obtain rfl := Option.some.inj (hheight.symm.trans hheight')
    rw [currentPeriod, hheight] at hc
    obtain rfl : 1 = c := Except.ok.inj hc
    obtain rfl : 2 = c' := Except.ok.inj hc'
    refine ⟨.inr rfl, fun d hd => ?_⟩
    obtain rfl : d = BitVec.ofNat 24 (2 ^ 23 + 5 * 2 ^ 16) := List.mem_singleton.mp hd
    decide
  have hsteps₁ : StepsByOne ⟨true, 1⟩ s₁ (periodBlocks.get ⟨2, by decide⟩) := by
    intro height c c' hheight' hc hc'
    obtain rfl := Option.some.inj (hheight₁.symm.trans hheight')
    rw [currentPeriod, hheight₁] at hc
    obtain rfl : 2 = c := Except.ok.inj hc
    obtain rfl : 3 = c' := Except.ok.inj hc'
    exact ⟨.inr rfl, fun d hd => by cases hd⟩
  have hfirst : Chain ClaimPaths.timeLibrary ⟨true, 1⟩ sampleBundleLib (StepsByOne ⟨true, 1⟩)
      (fun _ _ => True) [periodBlocks.get ⟨0, by decide⟩] s₀ :=
    (Chain.start.connect emptyArchive (by rintro _ _ _ ⟨⟩) hgenesis).connectPeg trivial hpeg
  have hchain := (hfirst.connect emptyArchive hsteps hsecond).connect emptyArchive hsteps₁ hthird
  refine ⟨s₂, hchain, ?_, hclaimed, windowPriced_of_chain hchain (by decide)⟩
  rw [currentPeriod, hheight₂]
  rfl

end Truthcoin.PricingRun
