import Truthcoin.AddressIndex

/-!
# The two ways to claim a decision

A decision is claimed by a transaction of its own, or along with the creation of a
market. Both go through the same checks, but the first asks the state for the time
and the height, and the second asks the decisions database, which knows neither.
-/

namespace Truthcoin.ClaimPaths

open Truthcoin.Types Truthcoin.Table Truthcoin.Fallible Truthcoin.Arithmetic
open Truthcoin.Decisions Truthcoin.Markets Truthcoin.Voting Truthcoin.Blocks
open Truthcoin.Validation

variable {F : Type} {config : DecisionConfig} {db : Dbs F} {d : DecisionId}

/-- The period of a decision is open for claims: it is not settled, it lies in the
window, and a standard slot is not of a past period. -/
def InWindow (currentPeriod : Nat) (d : DecisionId) : Prop :=
  currentPeriod ≤ d.periodIndex + 7 ∧ d.periodIndex ≤ currentPeriod + (futurePeriods - 1) ∧
    (d.isStandard = true → currentPeriod ≤ d.periodIndex)

instance (currentPeriod : Nat) (d : DecisionId) : Decidable (InWindow currentPeriod d) :=
  inferInstanceAs (Decidable (_ ∧ _ ∧ _))

/-- The window test at the period that a context gives. -/
def OpenAt (config : DecisionConfig) (ctx : ClaimContext) (d : DecisionId) : Prop :=
  ∃ currentPeriod last,
    getCurrentPeriod config ctx.currentTs ctx.currentHeight ctx.genesisTs = .ok currentPeriod ∧
    Dbs.windowEnd currentPeriod = .ok last ∧ InWindow currentPeriod d

/-- Nobody holds the decision, it is not being voted on, and a standard slot is
priced and unlocked. -/
def Available (db : Dbs F) (d : DecisionId) : Prop :=
  db.isDecisionInVoting d = false ∧ d ∉ db.getClaimedDecisionIdsForPeriod d.periodIndex ∧
    (d.isStandard = true → ∃ pricing, db.periodPricing[d.periodIndex]? = some pricing ∧
      slotUnlocked d.decisionIndex pricing.mints = true)

theorem windowEnd_eq_ok {currentPeriod last : Nat}
    (h : Dbs.windowEnd currentPeriod = .ok last) :
    last = currentPeriod + (futurePeriods - 1) :=
  (addU32_eq_ok_iff.mp h).2

theorem validateDecisionClaim_eq_ok_iff {ctx : ClaimContext} {u : Unit} :
    db.validateDecisionClaim config d ctx.currentTs ctx.currentHeight ctx.genesisTs = .ok u ↔
      OpenAt config ctx d ∧ Available db d := by
  unfold Dbs.validateDecisionClaim
  cases hperiod : getCurrentPeriod config ctx.currentTs ctx.currentHeight ctx.genesisTs with
  | error e => simp [OpenAt, hperiod]
  | ok currentPeriod =>
      have hsettled : Dbs.isDecisionSettled config d ctx.currentTs ctx.currentHeight
          ctx.genesisTs = decide (d.periodIndex + 7 < currentPeriod) := by
        simp [Dbs.isDecisionSettled, hperiod]
      cases hend : Dbs.windowEnd currentPeriod with
      | error e =>
          simp [OpenAt, hperiod, hend, bind_eq_ok_iff]
      | ok last =>
          have hlast := windowEnd_eq_ok hend
          subst hlast
          cases hstandard : d.isStandard with
          | false =>
              simp [OpenAt, InWindow, Available, hperiod, hend, hsettled, hstandard,
                bind_eq_ok_iff]
              tauto
          | true =>
              simp [OpenAt, InWindow, Available, hperiod, hend, hsettled, hstandard,
                bind_eq_ok_iff]
              tauto

theorem openAt_blocks (hblocks : config.isBlocks = true) (s : State F) (height : Nat) :
    OpenAt config (ClaimContext.ofDbs (some height)) d ↔
      OpenAt config (ClaimContext.ofState s (some height)) d := by
  simp [OpenAt, ClaimContext.ofDbs, ClaimContext.ofState, getCurrentPeriod, hblocks]

theorem openAt_ofDbs_time (htime : config.isBlocks = false) (overrideHeight : Option Nat) :
    OpenAt config (ClaimContext.ofDbs overrideHeight) d ↔ d.periodIndex ≤ 19 := by
  have hperiod : getCurrentPeriod config 0 overrideHeight 0 = .ok 0 := by
    simp [getCurrentPeriod, htime]
  have hend : Dbs.windowEnd 0 = .ok 19 := rfl
  simp [OpenAt, ClaimContext.ofDbs, hperiod, hend, InWindow, futurePeriods]

variable [F64 F] {maker : Address} {payload : ClaimDecisionPayload F} {ctx : ClaimContext}

/-- The checks of a claim that do not ask for the current period, and its fee. -/
structure Claimable (db : Dbs F) (maker : Address) (payload : ClaimDecisionPayload F)
    (fee : Nat) : Prop where
  shape : validateClaimShape payload = .ok ()
  decision : ∀ entry ∈ payload.decisions,
    ∃ decision, decisionOf maker payload.decisionType entry = .ok decision
  available : ∀ entry ∈ payload.decisions, Available db entry.decisionIdBytes
  fee : payload.decisions.foldlM (listingFee db) 0 = .ok fee

/-- The decisions of a payload are all in open periods. -/
def PayloadOpen (config : DecisionConfig) (ctx : ClaimContext)
    (payload : ClaimDecisionPayload F) : Prop :=
  ∀ entry ∈ payload.decisions, OpenAt config ctx entry.decisionIdBytes

theorem validateClaimEntry_eq_ok_iff {decisionType : DecisionType F}
    {entry : DecisionClaimEntry} {u : Unit} :
    validateClaimEntry config db ctx maker decisionType entry = .ok u ↔
      (∃ decision, decisionOf maker decisionType entry = .ok decision) ∧
        OpenAt config ctx entry.decisionIdBytes ∧ Available db entry.decisionIdBytes := by
  simp [validateClaimEntry, bind_eq_ok_iff, mapError_eq_ok_iff,
    validateDecisionClaim_eq_ok_iff]

theorem validateClaimPayload_eq_ok_iff {fee : Nat} :
    validateClaimPayload config db ctx maker payload = .ok fee ↔
      Claimable db maker payload fee ∧ PayloadOpen config ctx payload := by
  simp only [validateClaimPayload, bind_eq_ok_iff, forM_eq_ok_iff,
    validateClaimEntry_eq_ok_iff]
  constructor
  · rintro ⟨_, hshape, _, hentries, hfee⟩
    exact ⟨⟨hshape, fun e he => (hentries e he).1, fun e he => (hentries e he).2.2, hfee⟩,
      fun e he => (hentries e he).2.1⟩
  · rintro ⟨hclaim, hopen⟩
    exact ⟨(), hclaim.shape, (),
      fun e he => ⟨hclaim.decision e he, hopen e he, hclaim.available e he⟩, hclaim.fee⟩

omit [F64 F] in
theorem single_of_validateClaimShape (h : validateClaimShape payload = .ok ()) :
    ∃ entry, payload.decisions = [entry] := by
  unfold validateClaimShape at h
  split at h
  · exact ⟨_, ‹_›⟩
  · cases h
  · exact ⟨_, ‹_›⟩
  · cases h

omit [F64 F] in
theorem getDecisionEntry_of_unclaimed
    (h : d ∉ db.getClaimedDecisionIdsForPeriod d.periodIndex) :
    (db.getDecisionEntry d).bind DecisionEntry.decision = none := by
  cases hentry : db.getDecisionEntry d with
  | none => rfl
  | some entry =>
      have hid : entry.decisionId = d := by simpa using List.find?_some hentry
      have hmem := List.mem_of_find?_eq_some hentry
      by_contra hclaimed
      refine h (List.mem_map.mpr ⟨entry, List.mem_filter.mpr ⟨hmem, ?_⟩, hid⟩)
      exact Option.isSome_iff_ne_none.mpr hclaimed

omit [F64 F] in
theorem addPendingClaim_of_available {pending : PendingTypes F} {decisionType : DecisionType F}
    {entry : DecisionClaimEntry} (hfresh : pending.get entry.decisionIdBytes = none)
    (h : Available db entry.decisionIdBytes) :
    addPendingClaim db decisionType pending entry =
      .ok ((entry.decisionIdBytes, decisionType) :: pending) := by
  have hunclaimed := getDecisionEntry_of_unclaimed h.2.1
  simp only [addPendingClaim, DecisionId.fromBytes_eq, ok_bind, ensure_pos hfresh, hunclaimed,
    Option.isNone_none, ensure_pos]

theorem validateNewClaim_eq_ok_iff {acc : PendingTypes F × Nat} {fee : Nat}
    (hfresh : ∀ entry ∈ payload.decisions, acc.1.get entry.decisionIdBytes = none)
    (hroom : acc.2 + fee ≤ amountMax) :
    (∃ pending, validateNewClaim config db ctx maker acc payload =
        .ok (pending, acc.2 + fee)) ↔
      Claimable db maker payload fee ∧ PayloadOpen config ctx payload := by
  rw [← validateClaimPayload_eq_ok_iff]
  simp only [validateNewClaim, bind_eq_ok_iff, okOr_eq_ok_iff, Except.ok.injEq,
    Prod.mk.injEq]
  constructor
  · rintro ⟨pending, fee', hfee, total, htotal, _, -, rfl, rfl⟩
    obtain ⟨-, hsum⟩ := checkedAdd_eq_some_iff.mp htotal
    obtain rfl : fee = fee' := by omega
    exact hfee
  · intro hfee
    obtain ⟨hclaim, -⟩ := validateClaimPayload_eq_ok_iff.mp hfee
    obtain ⟨entry, hentry⟩ := single_of_validateClaimShape hclaim.shape
    have hmem : entry ∈ payload.decisions := by simp [hentry]
    refine ⟨_, fee, hfee, acc.2 + fee, checkedAdd_eq_some_iff.mpr ⟨hroom, rfl⟩,
      (entry.decisionIdBytes, payload.decisionType) :: acc.1, ?_, rfl, rfl⟩
    rw [hentry, List.foldlM_cons, addPendingClaim_of_available (hfresh entry hmem)
      (hclaim.available entry hmem)]
    rfl

/-- The claim is accepted in a transaction of its own, which owes the fee. -/
def AcceptedAlone (config : DecisionConfig) (s : State F) (tx : FilledTransaction F)
    (overrideHeight : Option Nat) (payload : ClaimDecisionPayload F) (fee : Nat) : Prop :=
  ∃ maker, validateMakerAuth tx = .ok maker ∧
    validateClaimPayload config s.decisions (ClaimContext.ofState s overrideHeight) maker
      payload = .ok fee

/-- The claim is accepted among the new claims of a market, after the claims that `acc`
sums up, and adds the fee to what the transaction owes. -/
def AcceptedInMarket (config : DecisionConfig) (s : State F) (tx : FilledTransaction F)
    (overrideHeight : Option Nat) (acc : PendingTypes F × Nat)
    (payload : ClaimDecisionPayload F) (fee : Nat) : Prop :=
  ∃ maker pending, validateMakerAuth tx = .ok maker ∧
    validateNewClaim config s.decisions (ClaimContext.ofDbs overrideHeight) maker acc payload =
      .ok (pending, acc.2 + fee)

variable {s : State F} {tx tx' : FilledTransaction F} {overrideHeight : Option Nat}

/-- The fee of a transaction covers a listing fee. -/
def PaysListingFee (tx : FilledTransaction F) (fee : Nat) : Prop :=
  0 < fee → ∃ paid, tx.bitcoinFee = .ok (some paid) ∧ fee ≤ paid

omit [F64 F] in
theorem checkListingFee_eq_ok_iff {fee : Nat} {text : Nat → String} {u : Unit} :
    checkListingFee tx fee text = .ok u ↔ PaysListingFee tx fee := by
  unfold checkListingFee PaysListingFee
  split
  · rename_i hfee
    simp [bind_eq_ok_iff, mapError_eq_ok_iff, hfee]
  · rename_i hfee
    simp [hfee, pure_eq_ok]

theorem validateCompleteDecisionClaim_eq_ok_iff {u : Unit} :
    validateCompleteDecisionClaim config s tx payload overrideHeight = .ok u ↔
      ∃ fee, AcceptedAlone config s tx overrideHeight payload fee ∧ PaysListingFee tx fee := by
  simp only [validateCompleteDecisionClaim, bind_eq_ok_iff, checkListingFee_eq_ok_iff,
    AcceptedAlone]
  constructor
  · rintro ⟨maker, hmaker, fee, hfee, hpaid⟩
    exact ⟨fee, ⟨maker, hmaker, hfee⟩, hpaid⟩
  · rintro ⟨fee, ⟨maker, hmaker, hfee⟩, hpaid⟩
    exact ⟨maker, hmaker, fee, hfee, hpaid⟩

theorem acceptedInMarket_of_validateMarketCreation {L : Library F} {u : Unit}
    {creation : MarketCreation F} {before after : List (ClaimDecisionPayload F)}
    (hclaims : creation.newClaims = before ++ payload :: after)
    (h : validateMarketCreation L config s tx creation overrideHeight = .ok u) :
    ∃ acc fee, AcceptedInMarket config s tx overrideHeight acc payload fee := by
  simp only [validateMarketCreation, bind_eq_ok_iff] at h
  obtain ⟨maker, hmaker, ⟨pending, total⟩, hfold, -⟩ := h
  rw [hclaims, List.foldlM_append] at hfold
  obtain ⟨acc, -, hrest⟩ := bind_eq_ok_iff.mp hfold
  obtain ⟨⟨pending', total'⟩, hclaim, -⟩ := bind_eq_ok_iff.mp hrest
  have hclaim' := hclaim
  simp only [validateNewClaim, bind_eq_ok_iff, okOr_eq_ok_iff, Except.ok.injEq,
    Prod.mk.injEq] at hclaim'
  obtain ⟨fee, -, _, htotal, _, -, -, rfl⟩ := hclaim'
  obtain ⟨-, rfl⟩ := checkedAdd_eq_some_iff.mp htotal
  exact ⟨acc, fee, maker, pending', hmaker, hclaim⟩

omit [F64 F] in
theorem validateMakerAuth_congr (hinputs : tx.transaction.inputs = tx'.transaction.inputs)
    (hspent : tx.spentUtxos = tx'.spentUtxos) :
    validateMakerAuth tx = validateMakerAuth tx' := by
  simp [validateMakerAuth, hinputs, hspent]

/-- For a claim that brings nothing twice and overflows no sum, both paths accept it
for the same fee if and only if it fails a check that does not ask for the period, or the
period that the database sees opens the same decisions as the period of the state. -/
theorem claim_paths_agree_iff {acc : PendingTypes F × Nat}
    (hinputs : tx.transaction.inputs = tx'.transaction.inputs)
    (hspent : tx.spentUtxos = tx'.spentUtxos)
    (hfresh : ∀ entry ∈ payload.decisions, acc.1.get entry.decisionIdBytes = none)
    (hroom : ∀ fee, payload.decisions.foldlM (listingFee s.decisions) 0 = .ok fee →
      acc.2 + fee ≤ amountMax) :
    (∀ fee, AcceptedInMarket config s tx overrideHeight acc payload fee ↔
        AcceptedAlone config s tx' overrideHeight payload fee) ↔
      ((∃ maker fee, validateMakerAuth tx = .ok maker ∧
          Claimable s.decisions maker payload fee) →
        (PayloadOpen config (ClaimContext.ofDbs overrideHeight) payload ↔
          PayloadOpen config (ClaimContext.ofState s overrideHeight) payload)) := by
  have hmarket : ∀ fee, AcceptedInMarket config s tx overrideHeight acc payload fee ↔
      (∃ maker, validateMakerAuth tx = .ok maker ∧ Claimable s.decisions maker payload fee) ∧
        PayloadOpen config (ClaimContext.ofDbs overrideHeight) payload := by
    intro fee
    constructor
    · rintro ⟨maker, pending, hmaker, hclaim⟩
      have hroom' : acc.2 + fee ≤ amountMax := by
        have hclaim' := hclaim
        simp only [validateNewClaim, bind_eq_ok_iff, okOr_eq_ok_iff, Except.ok.injEq,
          Prod.mk.injEq] at hclaim'
        obtain ⟨_, -, _, htotal, _, -, -, hsum⟩ := hclaim'
        obtain ⟨hle, htotal⟩ := checkedAdd_eq_some_iff.mp htotal
        omega
      obtain ⟨hclaimable, hopen⟩ :=
        (validateNewClaim_eq_ok_iff hfresh hroom').mp ⟨pending, hclaim⟩
      exact ⟨⟨maker, hmaker, hclaimable⟩, hopen⟩
    · rintro ⟨⟨maker, hmaker, hclaimable⟩, hopen⟩
      obtain ⟨pending, hclaim⟩ := (validateNewClaim_eq_ok_iff hfresh
        (hroom fee hclaimable.fee)).mpr ⟨hclaimable, hopen⟩
      exact ⟨maker, pending, hmaker, hclaim⟩
  have halone : ∀ fee, AcceptedAlone config s tx' overrideHeight payload fee ↔
      (∃ maker, validateMakerAuth tx = .ok maker ∧ Claimable s.decisions maker payload fee) ∧
        PayloadOpen config (ClaimContext.ofState s overrideHeight) payload := by
    intro fee
    simp only [AcceptedAlone, validateClaimPayload_eq_ok_iff,
      validateMakerAuth_congr hinputs hspent]
    constructor
    · rintro ⟨maker, hmaker, hclaimable, hopen⟩
      exact ⟨⟨maker, hmaker, hclaimable⟩, hopen⟩
    · rintro ⟨⟨maker, hmaker, hclaimable⟩, hopen⟩
      exact ⟨maker, hmaker, hclaimable, hopen⟩
  simp only [hmarket, halone]
  constructor
  · rintro h ⟨maker, fee, hmaker, hclaimable⟩
    have hfee := h fee
    constructor
    · exact fun hopen => (hfee.mp ⟨⟨maker, hmaker, hclaimable⟩, hopen⟩).2
    · exact fun hopen => (hfee.mpr ⟨⟨maker, hmaker, hclaimable⟩, hopen⟩).2
  · intro h fee
    constructor
    · rintro ⟨⟨maker, hmaker, hclaimable⟩, hopen⟩
      exact ⟨⟨maker, hmaker, hclaimable⟩, (h ⟨maker, fee, hmaker, hclaimable⟩).mp hopen⟩
    · rintro ⟨⟨maker, hmaker, hclaimable⟩, hopen⟩
      exact ⟨⟨maker, hmaker, hclaimable⟩, (h ⟨maker, fee, hmaker, hclaimable⟩).mpr hopen⟩

open Truthcoin.Commitments Truthcoin.BlockRun Truthcoin.AddressIndex

def timeConfig : DecisionConfig := ⟨false, 100⟩

def timeLibrary : Library Rat := sampleLibrary fun tx => tx.memo.length

/-- A genesis block, and a second one that comes in period 26. -/
def timeBlocks : List (Block Rat) :=
  let genesis := sampleBlock timeLibrary none ⟨[], []⟩ [] [] 1000
  [genesis, sampleBlock timeLibrary (some genesis.header) ⟨[], []⟩ [] [] 3500]

def timeOutput : FilledOutput := ⟨8, .bitcoin 100000, []⟩

def timeDeposit : TwoWayPegData := ⟨[⟨1, [.deposit ⟨11, 0, timeOutput⟩]⟩]⟩

/-- The first standard slot of period 30. -/
def timeDecision : DecisionId := BitVec.ofNat 24 (2 ^ 23 + 30 * 2 ^ 16)

def timeClaim : ClaimDecisionPayload Rat :=
  ⟨.binary, [⟨timeDecision, "h", "d", none, none, none, none⟩]⟩

def timeClaimTx : FilledTransaction Rat :=
  ⟨⟨[.deposit 11 0], [], [], some (.claimDecision timeClaim)⟩, [timeOutput], none⟩

def timeMarket : MarketCreation Rat :=
  ⟨"t", "d", [.single timeDecision], [timeClaim], none, none, none, none⟩

def timeMarketTx : FilledTransaction Rat :=
  let marketId := timeLibrary.computeMarketId "t" "d" 8 timeMarket.dimensionSpecs
  ⟨⟨[.deposit 11 0],
    [⟨timeLibrary.marketTreasuryAddress marketId, .marketFunds marketId 10000 false, []⟩], [],
    some (.createMarket timeMarket)⟩, [timeOutput], none⟩

def timeRun : Except Error (State Rat) := do
  let s ← timeBlocks.foldlM
    (Connect.applyBlock timeLibrary timeConfig emptyArchive) (State.empty Rat)
  s.connectTwoWayPegData sampleBundleLib timeDeposit

theorem run_of_timeRun {s : State Rat} (h : timeRun = .ok s) :
    Run timeLibrary timeConfig sampleBundleLib (fun _ _ => True)
      (fun _ data => DepositsFrom (fun _ _ => timeOutput) data) timeBlocks.reverse s := by
  obtain ⟨s₁, hblocks, hpeg⟩ := bind_eq_ok_iff.mp h
  have hchain : Chain timeLibrary timeConfig sampleBundleLib (fun _ _ => True)
      (fun _ data => DepositsFrom (fun _ _ => timeOutput) data) (timeBlocks.reverse ++ []) s₁ :=
    chain_of_foldlM (fun _ _ _ => trivial) Chain.start hblocks
  rw [List.append_nil] at hchain
  exact hchain.run.connectPeg (by simp [DepositsFrom, timeDeposit]) hpeg

/-- In periods of time, a claim of a slot in the current window is accepted for its
price in a transaction of its own, and rejected with the creation of a market. -/
theorem claim_rejected_in_market :
    ∃ s, Run timeLibrary timeConfig sampleBundleLib (fun _ _ => True)
        (fun _ data => DepositsFrom (fun _ _ => timeOutput) data) timeBlocks.reverse s ∧
      s.coins.utxos[OutPoint.deposit 11 0]? = some timeOutput ∧
      AcceptedAlone timeConfig s timeClaimTx (some 2) timeClaim 2500 ∧
      ¬ AcceptedInMarket timeConfig s timeMarketTx (some 2) ([], 0) timeClaim 2500 ∧
      validateTxData timeLibrary timeConfig emptyArchive s timeClaimTx (some 2)
        (.claimDecision timeClaim) = .ok () ∧
      validateTxData timeLibrary timeConfig emptyArchive s timeMarketTx (some 2)
        (.createMarket timeMarket) ≠ .ok () := by
  have hcomputed : holds timeRun (fun s =>
      decide (s.coins.utxos[OutPoint.deposit 11 0]? = some timeOutput) &&
      holds (validateClaimPayload timeConfig s.decisions (ClaimContext.ofState s (some 2)) 8
        timeClaim) (fun fee => fee = 2500) &&
      holds (validateTxData timeLibrary timeConfig emptyArchive s timeClaimTx (some 2)
        (.claimDecision timeClaim)) (fun _ => true)) = true := by
    decide +kernel
  obtain ⟨s, hrun, htests⟩ := holds_iff.mp hcomputed
  simp only [Bool.and_eq_true, decide_eq_true_eq, holds_iff] at htests
  obtain ⟨⟨hutxo, fee, hfee, rfl⟩, _, hclaim, -⟩ := htests
  have hrejected : ∀ acc fee, ¬ AcceptedInMarket timeConfig s timeMarketTx (some 2) acc
      timeClaim fee := by
    rintro acc fee ⟨maker, pending, -, hnew⟩
    obtain ⟨fee', hfee', -⟩ := bind_eq_ok_iff.mp hnew
    have hopen := (validateClaimPayload_eq_ok_iff.mp hfee').2 _ (List.mem_singleton_self _)
    rw [openAt_ofDbs_time rfl] at hopen
    exact absurd hopen (by decide)
  refine ⟨s, run_of_timeRun hrun, hutxo, ⟨8, rfl, hfee⟩, hrejected _ _, hclaim, ?_⟩
  intro hmarket
  have hclaims : timeMarket.newClaims = [] ++ timeClaim :: [] := rfl
  obtain ⟨acc, fee, haccepted⟩ := acceptedInMarket_of_validateMarketCreation hclaims hmarket
  exact hrejected acc fee haccepted

/-- The first standard slot of period 5, in periods of blocks. -/
def blockClaim : ClaimDecisionPayload Rat :=
  ⟨.binary, [⟨BitVec.ofNat 24 (2 ^ 23 + 5 * 2 ^ 16), "h", "d", none, none, none, none⟩]⟩

/-- At a block height in periods of blocks, both paths accept the claim for its price. -/
theorem claim_paths_agree_blocks :
    ∃ s, Run timeLibrary ⟨true, 10⟩ sampleBundleLib (fun _ _ => True) (fun _ _ => True)
        timeBlocks.reverse s ∧
      AcceptedAlone ⟨true, 10⟩ s timeClaimTx (some 2) blockClaim 2500 ∧
      ∀ fee, AcceptedInMarket ⟨true, 10⟩ s timeMarketTx (some 2) ([], 0) blockClaim fee ↔
        AcceptedAlone ⟨true, 10⟩ s timeClaimTx (some 2) blockClaim fee := by
  have hcomputed : holds
      (timeBlocks.foldlM (Connect.applyBlock timeLibrary ⟨true, 10⟩ emptyArchive)
        (State.empty Rat))
      (fun s => holds (validateClaimPayload ⟨true, 10⟩ s.decisions
        (ClaimContext.ofState s (some 2)) 8 blockClaim) (fun fee => fee = 2500)) = true := by
    decide +kernel
  obtain ⟨s, hblocks, htest⟩ := holds_iff.mp hcomputed
  obtain ⟨fee, hfee, hprice⟩ := holds_iff.mp htest
  obtain rfl := of_decide_eq_true hprice
  have hchain : Chain timeLibrary ⟨true, 10⟩ sampleBundleLib (fun _ _ => True) (fun _ _ => True)
      (timeBlocks.reverse ++ []) s :=
    chain_of_foldlM (fun _ _ _ => trivial) Chain.start hblocks
  rw [List.append_nil] at hchain
  refine ⟨s, hchain.run, ⟨8, rfl, hfee⟩, ?_⟩
  have hinputs : timeMarketTx.transaction.inputs = timeClaimTx.transaction.inputs := rfl
  refine (claim_paths_agree_iff hinputs rfl ?_ ?_).mpr ?_
  · intro entry _
    rfl
  · intro fee hlisting
    rw [(validateClaimPayload_eq_ok_iff.mp hfee).1.fee] at hlisting
    rw [← Except.ok.inj hlisting]
    decide
  · intro _
    exact forall₂_congr fun entry _ => openAt_blocks rfl _ _

end Truthcoin.ClaimPaths
