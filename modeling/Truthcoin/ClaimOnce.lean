import Truthcoin.PricingRun
import Truthcoin.SampleMarkets

/-!
# Decisions are claimed once

The entries of a period name each decision once. Blocks add entries for decisions
without one, and nothing removes or replaces an entry while blocks are connected.
-/

namespace Truthcoin.ClaimOnce

open Truthcoin.Types Truthcoin.Table Truthcoin.Fallible Truthcoin.Decisions Truthcoin.Blocks
open Truthcoin.Connect Truthcoin.ConnectTrace Truthcoin.BlockChecks Truthcoin.BlockRun
open Truthcoin.SlotLedger Truthcoin.PricingRun Truthcoin.SampleChain Truthcoin.SampleMarkets
open Truthcoin.Commitments

section

variable {F : Type} {db db' : Dbs F} {d : DecisionId} {period : Nat}

/-- Every entry is of a claimed decision, and no decision of a period has two of them. -/
structure ClaimedEntries (db : Dbs F) : Prop where
  nodup : ∀ period, (idsOf db period).Nodup
  claimed : ∀ period, ∀ entry ∈ db.entriesOf period, entry.decision.isSome = true

theorem ClaimedEntries.mem_claimed (h : ClaimedEntries db) :
    d ∈ db.getClaimedDecisionIdsForPeriod period ↔ d ∈ idsOf db period := by
  have hall : (db.entriesOf period).filter (fun entry => entry.decision.isSome) =
      db.entriesOf period := List.filter_eq_self.mpr (h.claimed period)
  rw [Dbs.getClaimedDecisionIdsForPeriod, hall, idsOf]

theorem ClaimedEntries.getDecisionEntry_iff (h : ClaimedEntries db) {entry : DecisionEntry F} :
    db.getDecisionEntry d = some entry ↔
      entry ∈ db.entriesOf d.periodIndex ∧ entry.decisionId = d := by
  unfold Dbs.getDecisionEntry
  constructor
  · intro hfind
    exact ⟨List.mem_of_find?_eq_some hfind, by simpa using List.find?_some hfind⟩
  · rintro ⟨hmem, hid⟩
    cases hfind : (db.entriesOf d.periodIndex).find? fun entry => entry.decisionId = d with
    | none =>
        have hnone := List.find?_eq_none.mp hfind entry hmem
        simp [hid] at hnone
    | some entry' =>
        have hid' : entry'.decisionId = d := by simpa using List.find?_some hfind
        have hmem' := List.mem_of_find?_eq_some hfind
        rw [List.inj_on_of_nodup_map (h.nodup d.periodIndex) hmem' hmem (hid'.trans hid.symm)]

/-- The entries of all periods are the same. -/
def SameEntries (db db' : Dbs F) : Prop :=
  ∀ period, db'.entriesOf period = db.entriesOf period

theorem ClaimedEntries.congr (h : ClaimedEntries db) (hsame : SameEntries db db') :
    ClaimedEntries db' := by
  constructor
  · intro period
    rw [idsOf, hsame]
    exact h.nodup period
  · intro period
    rw [hsame]
    exact h.claimed period

theorem SameEntries.of_rows (h : db'.periodDecisions = db.periodDecisions) :
    SameEntries db db' := by
  intro period
  rw [Dbs.entriesOf, h, Dbs.entriesOf]

variable [DecidableEq F] {txid : Txid} {height : Nat}

/-- The entry that a claim leaves. -/
def Claim.entry (c : Claim F) : DecisionEntry F := ⟨c.decisionId, some c.decision, c.txid⟩

theorem mem_entriesOf_claim {c : Claim F}
    (hfresh : c.decisionId ∉ idsOf db c.decisionId.periodIndex)
    (h : c.apply height db = .ok db') {entry : DecisionEntry F} :
    entry ∈ db'.entriesOf period ↔
      entry ∈ db.entriesOf period ∨
        c.decisionId.periodIndex = period ∧ entry = Claim.entry c := by
  rw [entriesOf_claimDecision h]
  by_cases hperiod : period = c.decisionId.periodIndex
  · subst hperiod
    rw [if_pos rfl, (insertEntry_perm hfresh).mem_iff, List.mem_cons]
    simp [Claim.entry, or_comm]
  · simp [hperiod, Ne.symm hperiod]

theorem ClaimedEntries.claim (hentries : ClaimedEntries db) {c : Claim F}
    (hfresh : c.decisionId ∉ idsOf db c.decisionId.periodIndex)
    (h : c.apply height db = .ok db') : ClaimedEntries db' := by
  constructor
  · intro period
    rw [(idsOf_claimDecision hfresh h period).nodup_iff]
    split
    · rename_i hperiod
      rw [List.nodup_cons, hperiod]
      exact ⟨hfresh, hentries.nodup _⟩
    · exact hentries.nodup period
  · intro period entry hentry
    rcases (mem_entriesOf_claim hfresh h).mp hentry with hold | ⟨-, rfl⟩
    · exact hentries.claimed period entry hold
    · rfl

theorem ClaimedEntries.claims (hentries : ClaimedEntries db) {claims : List (Claim F)}
    (hnodup : (claims.map Claim.decisionId).Nodup)
    (hfresh : ∀ c ∈ claims, c.decisionId ∉ idsOf db c.decisionId.periodIndex)
    (h : claims.foldlM (Claim.apply height) db = .ok db') :
    ClaimedEntries db' ∧ ∀ period entry, entry ∈ db'.entriesOf period ↔
      entry ∈ db.entriesOf period ∨
        ∃ c ∈ claims, c.decisionId.periodIndex = period ∧ entry = Claim.entry c := by
  induction claims generalizing db with
  | nil =>
      rw [← Except.ok.inj h]
      exact ⟨hentries, by simp⟩
  | cons c claims ih =>
      obtain ⟨db₁, hfirst, hrest⟩ := bind_eq_ok_iff.mp h
      rw [List.map_cons, List.nodup_cons] at hnodup
      have hc := hfresh c (by simp)
      have hfresh₁ : ∀ c' ∈ claims, c'.decisionId ∉ idsOf db₁ c'.decisionId.periodIndex := by
        intro c' hc' hmem
        rw [(idsOf_claimDecision hc hfirst _).mem_iff] at hmem
        have hold := hfresh c' (by simp [hc'])
        split at hmem
        · rcases List.mem_cons.mp hmem with heq | hmem
          · exact hnodup.1 (heq ▸ List.mem_map_of_mem hc')
          · exact hold hmem
        · exact hold hmem
      obtain ⟨hentries', hmem⟩ := ih (hentries.claim hc hfirst) hnodup.2 hfresh₁ hrest
      refine ⟨hentries', fun period entry => ?_⟩
      rw [hmem, mem_entriesOf_claim hc hfirst]
      simp only [List.exists_mem_cons_iff, or_assoc]

end

section

variable {F : Type} {db db' : Dbs F} {height : Nat}

theorem sameEntries_mint (db : Dbs F) (target : Nat) :
    SameEntries db (db.mintPeriodsUpTo target) := by
  intro period
  rw [Dbs.entriesOf, lookup_mintPeriodsUpTo, Dbs.entriesOf]
  split
  · rename_i hnew
    have habsent : db.periodDecisions[period]? = none := by
      rw [lookup_eq_none_iff]
      intro hmem
      have hminted : period ∈ db.mintedPeriods := mem_mintedPeriods.mpr hmem
      obtain ⟨highest, hhighest⟩ : ∃ highest, db.getHighestMintedPeriod = some highest :=
        Option.isSome_iff_exists.mp (List.isSome_max?_of_mem hminted)
      have hle := (List.max?_eq_some_iff.mp hhighest).2 period hminted
      rw [hhighest, Option.getD_some] at hnew
      omega
    rw [habsent]
    rfl
  · rfl

theorem sameEntries_priceBlock {config : DecisionConfig} {timestamp genesisTs : Nat}
    (h : priceBlock config db height timestamp genesisTs = .ok db') : SameEntries db db' := by
  obtain ⟨target, hsame⟩ := minted_of_priceBlock h
  have hrows : db'.periodDecisions = (db.mintPeriodsUpTo target).periodDecisions := by
    rw [hsame]
  intro period
  rw [Dbs.entriesOf, hrows]
  exact sameEntries_mint db target period

end

section

variable {F : Type} {L : Library F} {config : DecisionConfig} {archive : Archive}
  {s s' : State F} {block : Block F} {lib : WithdrawalBundle.BundleLib}

/-- What a block does to the entries: it adds one for each decision that its transactions
claim, none of which has one yet. -/
structure AddsClaims (L : Library F) (block : Block F) (db db' : Dbs F)
    (claims : List (Claim F)) : Prop where
  sources : claims.map Claim.source = block.body.transactions.flatMap (claimSources L)
  nodup : (claims.map Claim.decisionId).Nodup
  fresh : ∀ c ∈ claims, c.decisionId ∉ idsOf db c.decisionId.periodIndex
  entries : ∀ period entry, entry ∈ db'.entriesOf period ↔
    entry ∈ db.entriesOf period ∨
      ∃ c ∈ claims, c.decisionId.periodIndex = period ∧ entry = Claim.entry c

theorem AddsClaims.keeps (hentries : ClaimedEntries s.decisions)
    (hentries' : ClaimedEntries s'.decisions) {claims : List (Claim F)}
    (h : AddsClaims L block s.decisions s'.decisions claims) {d : DecisionId}
    {entry : DecisionEntry F} (hentry : s.decisions.getDecisionEntry d = some entry) :
    s'.decisions.getDecisionEntry d = some entry := by
  rw [hentries.getDecisionEntry_iff] at hentry
  rw [hentries'.getDecisionEntry_iff, h.entries]
  exact ⟨.inl hentry.1, hentry.2⟩

theorem AddsClaims.records (hentries' : ClaimedEntries s'.decisions) {claims : List (Claim F)}
    (h : AddsClaims L block s.decisions s'.decisions claims) {tx : Transaction F}
    (htx : tx ∈ block.body.transactions) {d : DecisionId} (hd : d ∈ tx.claimedIds) :
    ∃ decision, s'.decisions.getDecisionEntry d = some ⟨d, some decision, L.txid tx⟩ := by
  have hsource : (d, L.txid tx) ∈ claims.map Claim.source := by
    rw [h.sources]
    exact List.mem_flatMap.mpr ⟨tx, htx, List.mem_map_of_mem hd⟩
  obtain ⟨c, hc, heq⟩ := List.mem_map.mp hsource
  obtain ⟨rfl, htxid⟩ := Prod.mk.inj heq
  refine ⟨c.decision, ?_⟩
  rw [hentries'.getDecisionEntry_iff, h.entries, ← htxid]
  exact ⟨.inr ⟨c, hc, rfl, rfl⟩, rfl⟩

theorem AddsClaims.claimedIn_eq {claims : List (Claim F)}
    (h : AddsClaims L block s.decisions s'.decisions claims) :
    claimedIn block = claims.map Claim.decisionId := by
  have hfirst := congrArg (List.map Prod.fst) h.sources
  rw [List.map_map, List.map_flatMap] at hfirst
  simpa [claimSources, Function.comp_def, Claim.source, claimedIn] using hfirst.symm

theorem decisions_of_connectTwoWayPegData {data : TwoWayPegData}
    (h : s.connectTwoWayPegData lib data = .ok s') : s'.decisions = s.decisions := by
  obtain ⟨p, -, h⟩ := bind_eq_ok_iff.mp h
  rw [← Except.ok.inj h]

theorem claimedEntries_empty : ClaimedEntries (State.empty F).decisions := by
  have hempty : ∀ period, (State.empty F).decisions.entriesOf period = [] := fun _ => rfl
  constructor
  · intro period
    rw [idsOf, hempty]
    exact List.nodup_nil
  · intro period entry hentry
    rw [hempty] at hentry
    cases hentry

variable [F64 F] [DecidableEq F] {ok : State F → Block F → Prop}
  {okPeg : State F → TwoWayPegData → Prop} {chain : List (Block F)}

theorem sameEntries_finished {t : Trace F} (ht : Connects L config archive s block t) :
    SameEntries t.applied.state.decisions (t.finished L block).decisions := by
  intro period
  rw [finished_decisions ht, ← sameEntries_priceBlock ht.priced]
  exact SameEntries.of_rows (sameSlots_resolvePeriods ht.tables).1 period

theorem addsClaims_of_applyBlock (hentries : ClaimedEntries s.decisions)
    (h : applyBlock L config archive s block = .ok s') :
    ClaimedEntries s'.decisions ∧
      AddsClaims L block s.decisions s'.decisions (blockClaims L s block) := by
  obtain ⟨t, ht, rfl⟩ := connects_of_applyBlock h
  obtain ⟨hfold, hsources⟩ := blockClaims_of_prepares ht.toPrepares
  obtain ⟨hnodup, hclaims⟩ := available_of_blockClaims ht.toPrepares
  have hvoting : SameEntries s.decisions t.voting := .of_rows (sameSlots_voting ht.toPrepares).1
  have hfresh : ∀ c ∈ blockClaims L s block,
      c.decisionId ∉ idsOf s.decisions c.decisionId.periodIndex := by
    intro c hc
    obtain ⟨-, ⟨-, hunclaimed, -⟩, -⟩ := hclaims c hc
    rwa [hentries.mem_claimed] at hunclaimed
  have hfresh' : ∀ c ∈ blockClaims L s block,
      c.decisionId ∉ idsOf t.voting c.decisionId.periodIndex := by
    intro c hc
    rw [idsOf, hvoting]
    exact hfresh c hc
  obtain ⟨hentries', hmem⟩ := (hentries.congr hvoting).claims hnodup hfresh' hfold
  have hfinished := sameEntries_finished ht
  refine ⟨hentries'.congr hfinished, hsources, hnodup, hfresh, ?_⟩
  intro period entry
  rw [hfinished, hmem, hvoting]

/-- The claims of a chain have their entries, and there is one claim for each. -/
structure Recorded (L : Library F) (chain : List (Block F)) (db : Dbs F) : Prop where
  entries : ClaimedEntries db
  nodup : (chain.flatMap claimedIn).Nodup
  recorded : ∀ block ∈ chain, ∀ tx ∈ block.body.transactions, ∀ d ∈ tx.claimedIds,
    ∃ decision, db.getDecisionEntry d = some ⟨d, some decision, L.txid tx⟩

theorem Recorded.applyBlock (h : Recorded L chain s.decisions)
    (hblock : applyBlock L config archive s block = .ok s') :
    Recorded L (block :: chain) s'.decisions := by
  obtain ⟨hentries', hadds⟩ := addsClaims_of_applyBlock h.entries hblock
  refine ⟨hentries', ?_, ?_⟩
  · rw [List.flatMap_cons, List.nodup_append, hadds.claimedIn_eq]
    refine ⟨hadds.nodup, h.nodup, ?_⟩
    rintro d hd d' hd' rfl
    -- a decision that an older block claims has an entry, which the new claims lack
    obtain ⟨c, hc, rfl⟩ := List.mem_map.mp hd
    obtain ⟨older, holder, hclaimed⟩ := List.mem_flatMap.mp hd'
    obtain ⟨tx, htx, hmem⟩ := List.mem_flatMap.mp hclaimed
    obtain ⟨decision, hentry⟩ := h.recorded older holder tx htx _ hmem
    rw [h.entries.getDecisionEntry_iff] at hentry
    exact hadds.fresh c hc (List.mem_map.mpr ⟨_, hentry.1, rfl⟩)
  · intro b hb tx htx d hd
    rcases List.mem_cons.mp hb with rfl | hb
    · exact hadds.records hentries' htx hd
    · obtain ⟨decision, hentry⟩ := h.recorded b hb tx htx d hd
      exact ⟨decision, hadds.keeps h.entries hentries' hentry⟩

theorem recorded_of_chain (h : Chain L config lib ok okPeg chain s) :
    Recorded L chain s.decisions := by
  induction h with
  | start => exact ⟨claimedEntries_empty, List.nodup_nil, by simp⟩
  | connect archive _ _ h ih => exact ih.applyBlock h
  | connectPeg _ _ h ih =>
      rw [decisions_of_connectTwoWayPegData h]
      exact ih

theorem entries_of_extends (hentries : ClaimedEntries s.decisions)
    (h : Extends L config lib s s') :
    ClaimedEntries s'.decisions ∧ ∀ d entry, s.decisions.getDecisionEntry d = some entry →
      s'.decisions.getDecisionEntry d = some entry := by
  induction h with
  | refl => exact ⟨hentries, fun _ _ hentry => hentry⟩
  | connect archive _ h ih =>
      obtain ⟨hentries', hadds⟩ := addsClaims_of_applyBlock ih.1 h
      exact ⟨hentries', fun d entry hentry => hadds.keeps ih.1 hentries' (ih.2 d entry hentry)⟩
  | connectPeg _ h ih =>
      rw [decisions_of_connectTwoWayPegData h]
      exact ih

/-- Over every chain, no decision is claimed by two transactions or twice by one, every
claim is recorded for its transaction, and what is recorded for a decision stays while
further blocks are connected. -/
theorem decisions_claimed_once (h : Chain L config lib ok okPeg chain s) :
    (chain.flatMap claimedIn).Nodup ∧
      (∀ block ∈ chain, ∀ tx ∈ block.body.transactions, ∀ d ∈ tx.claimedIds,
        ∃ decision, s.decisions.getDecisionEntry d = some ⟨d, some decision, L.txid tx⟩) ∧
      ∀ s', Extends L config lib s s' → ∀ d entry,
        s.decisions.getDecisionEntry d = some entry →
          s'.decisions.getDecisionEntry d = some entry := by
  have hrecorded := recorded_of_chain h
  refine ⟨hrecorded.nodup, hrecorded.recorded, ?_⟩
  intro s' hextends
  exact (entries_of_extends hrecorded.entries hextends).2

end

/-- The second standard slot of period 1, and the first one of period 2. -/
def otherDecision : DecisionId := marketDecision + 1
def laterDecision : DecisionId := marketDecision + BitVec.ofNat 24 (2 ^ 16)

/-- Two claims in the block after the first one, and a third in the next block. -/
def threeClaims : List (Block Rat) :=
  [blockAt 1 [claiming 0 marketDecision, claiming 1 otherDecision],
    blockAt 2 [claiming 2 laterDecision]]

/-- The claims are made, and two more blocks are connected. -/
def claimedAndExtended : Except Error (State Rat × State Rat) := do
  let s ← runBlocks marketConfig 3 threeClaims
  let s₁ ← applyBlock chainLibrary marketConfig emptyArchive s (blockAt 3 [])
  let s₂ ← applyBlock chainLibrary marketConfig emptyArchive s₁ (blockAt 4 [])
  .ok (s, s₂)

theorem decisions_claimed_once_extended :
    ∃ s s', Chain chainLibrary marketConfig sampleBundleLib (fun _ _ => True) (fun _ _ => True)
        (threeClaims.reverse ++ [blockAt 0 []]) s ∧
      Extends chainLibrary marketConfig sampleBundleLib s s' ∧
      ((threeClaims.reverse ++ [blockAt 0 []]).flatMap claimedIn).Nodup ∧
      ∃ decision, s'.decisions.getDecisionEntry otherDecision = some
        ⟨otherDecision, some decision, chainLibrary.txid (claiming 1 otherDecision)⟩ := by
  have hcomputed : holds claimedAndExtended (fun _ => true) = true := by decide +kernel
  obtain ⟨⟨s, s'⟩, hrun, -⟩ := holds_iff.mp hcomputed
  simp only [claimedAndExtended, bind_eq_ok_iff, Except.ok.injEq, Prod.mk.injEq] at hrun
  obtain ⟨_, hrun, s₁, hthird, _, hfourth, rfl, rfl⟩ := hrun
  have hchain := chain_of_runBlocks hrun
  have hextends : Extends chainLibrary marketConfig sampleBundleLib _ _ :=
    (Extends.refl.connect emptyArchive hthird).connect emptyArchive hfourth
  obtain ⟨hnodup, hrecorded, hkept⟩ := decisions_claimed_once hchain
  obtain ⟨decision, hentry⟩ := hrecorded (blockAt 1 [claiming 0 marketDecision,
    claiming 1 otherDecision]) (by simp [threeClaims]) (claiming 1 otherDecision)
    (by simp [blockAt]) otherDecision (List.mem_singleton.mpr rfl)
  exact ⟨_, _, hchain, hextends, hnodup, decision, hkept _ hextends _ _ hentry⟩

end Truthcoin.ClaimOnce
