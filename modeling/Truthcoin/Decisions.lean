import Truthcoin.Trading

/-!
# Decisions

Decision identifiers, the decisions claimed in each period, their state
histories, and the prices of the slots of a period.
-/

namespace Truthcoin.Decisions

open Truthcoin.Types Truthcoin.Table Truthcoin.Fallible Truthcoin.Arithmetic

/-- Three bytes: a standard flag, a 7-bit period and a 16-bit index. -/
abbrev DecisionId := BitVec 24

instance DecisionId.lawfulBEq : LawfulBEq DecisionId := inferInstance

instance : TableKey DecisionId where
  encode d := [d.toNat]
  encode_injective := by
    intro a b h
    exact BitVec.eq_of_toNat_eq (by simpa using h)

def maxPeriodIndex : Nat := 127
def maxDecisionIndex : Nat := 65535
def futurePeriods : Nat := 20

namespace DecisionId

def isStandard (d : DecisionId) : Bool :=
  d.toNat / 2 ^ 23 % 2 == 1

def periodIndex (d : DecisionId) : Nat :=
  d.toNat / 2 ^ 16 % 2 ^ 7

def decisionIndex (d : DecisionId) : Nat :=
  d.toNat % 2 ^ 16

def votingPeriod (d : DecisionId) : Nat :=
  periodIndex d + 1

/-- Every three bytes are in bounds, so this never fails. -/
def fromBytes (d : DecisionId) : Except Error DecisionId := do
  ensure (periodIndex d ≤ maxPeriodIndex)
    (.invalidDecisionId s!"Period {periodIndex d} exceeds maximum {maxPeriodIndex}")
  ensure (decisionIndex d ≤ maxDecisionIndex)
    (.invalidDecisionId
      s!"Decision index {decisionIndex d} exceeds maximum {maxDecisionIndex}")
  .ok d

@[simp]
theorem fromBytes_eq (d : DecisionId) : fromBytes d = .ok d := by
  have hperiod : periodIndex d ≤ maxPeriodIndex := by
    have := Nat.mod_lt (d.toNat / 2 ^ 16) (show 0 < 2 ^ 7 by decide)
    unfold periodIndex maxPeriodIndex
    omega
  have hindex : decisionIndex d ≤ maxDecisionIndex := by
    have := Nat.mod_lt d.toNat (show 0 < 2 ^ 16 by decide)
    unfold decisionIndex maxDecisionIndex
    omega
  simp [fromBytes, ensure_pos hperiod, ensure_pos hindex]

end DecisionId

inductive DecisionType (F : Type) where
  | binary
  | scaled (min max increment : F)
  | category (options : List String)
  deriving DecidableEq

structure Decision (F : Type) where
  marketMakerPubkeyHash : Address
  decisionType : DecisionType F
  header : String
  description : String
  option0Label : Option String
  option1Label : Option String
  tags : List String
  deriving DecidableEq

inductive DecisionState where
  | created
  | claimed
  | voting
  | resolved
  | invalid
  deriving DecidableEq, Repr

def DecisionState.debug : DecisionState → String
  | .created => "Created"
  | .claimed => "Claimed"
  | .voting => "Voting"
  | .resolved => "Resolved"
  | .invalid => "Invalid"

def DecisionState.canTransitionTo : DecisionState → DecisionState → Bool
  | .claimed, .voting => true
  | .voting, .resolved => true
  | _, .invalid => true
  | _, _ => false

/-- States of a decision with the height each was entered at, oldest first. -/
structure DecisionStateHistory (F : Type) where
  stateHistory : List (DecisionState × Nat × Option F)
  deriving DecidableEq

structure DecisionEntry (F : Type) where
  decisionId : DecisionId
  decision : Option (Decision F)
  claimingTxid : Txid
  deriving DecidableEq

structure DecisionConfig where
  isBlocks : Bool
  quantity : Nat
  deriving DecidableEq, Repr

structure PeriodPricing where
  pPeriod : Nat
  pFloor : Nat
  mints : Nat
  claimed : Nat
  lastRepriceBlock : Nat
  windowOpenClaimed : Nat
  windowOpenMints : Nat
  deriving DecidableEq, Repr

/-- The decisions database: the claimed entries of each minted period, the state
histories, the prices, and a snapshot of the prices for each connected block. -/
structure Dbs (F : Type) where
  periodDecisions : Table Nat (List (DecisionEntry F))
  decisionStateHistories : Table DecisionId (DecisionStateHistory F)
  periodPricing : Table Nat PeriodPricing
  periodPricingUndo : Table Nat (List (Nat × Option PeriodPricing))
  deriving DecidableEq

def Dbs.empty (F : Type) : Dbs F := ⟨∅, ∅, ∅, ∅⟩

section

variable {F : Type} [F64 F]

def isStepAligned (delta step : F) : Bool :=
  let k := F64.round (F64.div delta step)
  let tolerance :=
    F64.max (F64.mul (F64.abs step) (F64.ofRat (1 / 10 ^ 9))) (F64.ofRat (1 / 10 ^ 12))
  F64.le (F64.abs (F64.sub delta (F64.mul k step))) tolerance

def validateDecisionType : DecisionType F → Except Error Unit
  | .binary => .ok ()
  | .scaled min max increment => do
      ensure
        (F64.isFinite min ∧ F64.isFinite max ∧ F64.isFinite increment ∧
          F64.le max min = false ∧ F64.le increment F64.zero = false)
        (.invalidScaled
          (s!"invalid bounds: min={F64.display min}, max={F64.display max}, " ++
            s!"increment={F64.display increment}"))
      ensure (isStepAligned (F64.sub max min) increment = true)
        (.invalidScaled
          (s!"(max - min) = {F64.display (F64.sub max min)} is not an integer multiple of " ++
            s!"increment {F64.display increment}"))
  | .category options =>
      ensure (2 ≤ options.length)
        (.invalidDecisionId "Category decisions require at least 2 options")

def Decision.new (marketMakerPubkeyHash : Address) (decisionType : DecisionType F)
    (header description : String) (option0Label option1Label : Option String)
    (tags : List String) : Except Error (Decision F) := do
  ensure (header.utf8ByteSize ≤ 100)
    (.invalidDecisionId "Header must be 100 bytes or less")
  ensure (description.utf8ByteSize ≤ 2000)
    (.invalidDecisionId "Description must be 2000 bytes or less")
  ensure (tags.length ≤ 10) (.invalidDecisionId "Maximum 10 tags allowed")
  tags.forM fun tag =>
    ensure (tag.utf8ByteSize ≤ 50)
      (.invalidDecisionId s!"Tag '{tag}' exceeds 50 byte limit")
  validateDecisionType decisionType
  .ok ⟨marketMakerPubkeyHash, decisionType, header, description, option0Label,
    option1Label, tags⟩

end

section

variable {F : Type}

def Decision.isScaled (d : Decision F) : Bool :=
  match d.decisionType with
  | .scaled .. => true
  | _ => false

def Decision.isCategorical (d : Decision F) : Bool :=
  match d.decisionType with
  | .category _ => true
  | _ => false

def Decision.optionCount (d : Decision F) : Option Nat :=
  match d.decisionType with
  | .category options => some options.length
  | _ => none

/-- The option count as a 16-bit number. -/
def Decision.inconclusiveIndex (d : Decision F) : Option Nat :=
  d.optionCount.map (· % 2 ^ 16)

namespace DecisionStateHistory

def new (height : Nat) : DecisionStateHistory F :=
  ⟨[(.claimed, height, none)]⟩

def currentState (h : DecisionStateHistory F) : DecisionState :=
  (h.stateHistory.getLast?.map Prod.fst).getD .created

def consensusOutcome (h : DecisionStateHistory F) : Option F :=
  (h.stateHistory.find? fun entry => entry.1 = .resolved).bind fun entry => entry.2.2

def transitionToVoting (h : DecisionStateHistory F) (height : Nat) :
    Except Error (DecisionStateHistory F) := do
  ensure (h.currentState.canTransitionTo .voting = true)
    (.invalidDecisionState s!"Cannot transition to Voting from {h.currentState.debug}")
  .ok ⟨h.stateHistory ++ [(.voting, height, none)]⟩

def transitionToResolved [F64 F] (h : DecisionStateHistory F) (consensusOutcome : F)
    (height : Nat) : Except Error (DecisionStateHistory F) := do
  ensure (h.currentState.canTransitionTo .resolved = true)
    (.invalidDecisionState s!"Cannot transition to Resolved from {h.currentState.debug}")
  ensure (F64.lt consensusOutcome (F64.ofRat (-1)) = false)
    (.invalidDecisionState
      s!"Consensus outcome {F64.display consensusOutcome} is invalid (< -1.0)")
  .ok ⟨h.stateHistory ++ [(.resolved, height, some consensusOutcome)]⟩

def rollbackToHeight (h : DecisionStateHistory F) (height : Nat) :
    DecisionStateHistory F :=
  ⟨h.stateHistory.filter fun entry => entry.2.1 ≤ height⟩

end DecisionStateHistory

end

def tierCount : Nat := 5
def slotsPerTierPerMint : Nat := 5
def slotsPerTier : Nat := 100
def slotsPerPeriodMax : Nat := slotsPerTier * tierCount
def midPeriodReprices : Nat := 5
def tierMultipliersNum : List Nat := [1, 2, 4, 8, 16]
def tierMultipliersDen : Nat := 4
def genesisPPeriodSats : Nat := 10000
def initialDecisionsPerPeriod : Nat := 500
def decisionsDecliningRate : Nat := 25
def secondsPerBlock : Nat := 600

def saturatingMul (a b : Nat) : Nat :=
  min (a * b) amountMax

def blocksPerPeriod (config : DecisionConfig) : Nat :=
  if config.isBlocks then config.quantity else config.quantity / secondsPerBlock

def repriceInterval (config : DecisionConfig) : Nat :=
  max (blocksPerPeriod config / midPeriodReprices) 1

def positionInTier (decisionIndex : Nat) : Nat :=
  decisionIndex % slotsPerTier

def slotUnlocked (decisionIndex mints : Nat) : Bool :=
  decide (decisionIndex < slotsPerPeriodMax) &&
    decide (positionInTier decisionIndex < mints * slotsPerTierPerMint)

def slotPrice (pPeriod tier : Nat) : Nat :=
  saturatingMul pPeriod (tierMultipliersNum.getD tier 0) / tierMultipliersDen

def feeForIndex (pPeriod mints decisionIndex : Nat) : Except Error Nat := do
  ensure (decisionIndex < slotsPerPeriodMax)
    (.invalidTransaction s!"decision_index {decisionIndex} is out of range (max 499)")
  ensure (slotUnlocked decisionIndex mints = true)
    (.invalidTransaction
      s!"slot at decision_index {decisionIndex} is not yet minted (mints={mints})")
  .ok (slotPrice pPeriod (decisionIndex / slotsPerTier))

/-- `2^frac` in fixed point with 62 fractional bits, from a Taylor series. -/
def pow2FracQ62 (fracQ32 : Nat) : Nat :=
  let xQ62 := fracQ32 * 2 ^ 30 * 0x2C5C85FDF473DE6B / 2 ^ 62
  let step (acc : Nat × Nat) (k : Nat) : Nat × Nat :=
    let term := acc.1 * xQ62 / 2 ^ 62 / k
    (term, acc.2 + term)
  ((List.range' 1 11).foldl step (2 ^ 62, 2 ^ 62)).2

def pow2FixedQ32 (eFp : Int) : Nat :=
  let expInt := eFp / 2 ^ 32
  let frac := (eFp % 2 ^ 32).toNat
  let resultQ32 := pow2FracQ62 frac / 2 ^ 30
  if 0 ≤ expInt then
    if 64 ≤ expInt then 2 ^ 128 - 1 else resultQ32 * 2 ^ expInt.toNat % 2 ^ 128
  else
    if 64 ≤ -expInt then 0 else resultQ32 / 2 ^ (-expInt).toNat

def reprice (pOld sales availableAtOpen : Nat) : Except Error Nat := do
  if availableAtOpen = 0 then
    .ok pOld
  else if sales = 0 then
    .ok (pOld / 2)
  else if sales = availableAtOpen then
    .ok (saturatingMul pOld 2)
  else if saturatingMul sales 2 = availableAtOpen then
    .ok pOld
  else
    let eFp : Int := (sales : Int) * 2 * 2 ^ 32 / availableAtOpen - 2 ^ 32
    let product := pOld * pow2FixedQ32 eFp
    ensure (product < 2 ^ 128) .panic
    .ok (product / 2 ^ 32 % 2 ^ 64)

def PeriodPricing.newSeeded (pSeed blockHeight : Nat) : PeriodPricing :=
  ⟨pSeed, pSeed / 16, 1, 0, blockHeight, 0, 1⟩

/-- Slots minted into a period so far, over all tiers. -/
def PeriodPricing.periodCapacity (pricing : PeriodPricing) : Nat :=
  pricing.mints * slotsPerTierPerMint * tierCount

def applyRepriceWithFloor (pricing : PeriodPricing) (blockHeight : Nat) :
    Except Error PeriodPricing := do
  if pricing.lastRepriceBlock = blockHeight then
    .ok pricing
  else
    let sales := pricing.claimed - pricing.windowOpenClaimed
    let availableAtOpen :=
      saturatingMul pricing.windowOpenMints (slotsPerTierPerMint * tierCount) -
        pricing.windowOpenClaimed
    let newP ← reprice pricing.pPeriod sales availableAtOpen
    .ok { pricing with
      pPeriod := max newP pricing.pFloor
      lastRepriceBlock := blockHeight
      windowOpenClaimed := pricing.claimed
      windowOpenMints := pricing.mints }

/-- One-based number of the period of a block. -/
def getCurrentPeriod (config : DecisionConfig) (timestamp : Nat)
    (blockHeight : Option Nat) (genesisTs : Nat) : Except Error Nat :=
  if config.isBlocks then
    if config.quantity = 0 then .ok 0
    else addU32 (blockHeight.getD 0 / config.quantity) 1
  else if genesisTs = 0 ∨ timestamp < genesisTs then
    .ok 0
  else if config.quantity = 0 then
    .error .panic
  else
    addU32 ((timestamp - genesisTs) / config.quantity % 2 ^ 32) 1

namespace Dbs

variable {F : Type}

/-- The last period of the window that is open for claims. -/
def windowEnd (currentPeriod : Nat) : Except Error Nat :=
  addU32 currentPeriod (futurePeriods - 1)

/-- `first..=last`. -/
def periodsUpTo (first last : Nat) : List Nat :=
  List.range' first (last + 1 - first)

/-- Slots of a period while another one is current. -/
def calculateAvailableDecisions (period currentPeriod : Nat) : Nat :=
  if period < currentPeriod then 0
  else if futurePeriods ≤ period - currentPeriod then 0
  else initialDecisionsPerPeriod - (period - currentPeriod) * decisionsDecliningRate

def mintedPeriods (db : Dbs F) : List Nat :=
  db.periodDecisions.toList.map Prod.fst

def getHighestMintedPeriod (db : Dbs F) : Option Nat :=
  db.mintedPeriods.max?

def mintPeriodsUpTo (db : Dbs F) (targetPeriod : Nat) : Dbs F :=
  let highestExisting := db.getHighestMintedPeriod.getD 0
  { db with
    periodDecisions := (periodsUpTo (highestExisting + 1) targetPeriod).foldl
      (fun rows period => rows.insert period []) db.periodDecisions }

def putPricing (db : Dbs F) (period : Nat) (pricing : PeriodPricing) : Dbs F :=
  { db with periodPricing := db.periodPricing.insert period pricing }

def genesisPricing (currentPeriod blockHeight period : Nat) : PeriodPricing :=
  let mints := futurePeriods - (period - currentPeriod)
  ⟨genesisPPeriodSats, genesisPPeriodSats / 16, mints, 0, blockHeight, 0, mints⟩

def mintGenesis (config : DecisionConfig) (db : Dbs F) (tsSecs blockHeight genesisTs : Nat) :
    Except Error (Dbs F) := do
  let currentPeriod ← getCurrentPeriod config tsSecs (some blockHeight) genesisTs
  let target ← windowEnd currentPeriod
  let step (db : Dbs F) (period : Nat) : Dbs F :=
    if period ∈ db.periodPricing then db
    else db.putPricing period (genesisPricing currentPeriod blockHeight period)
  .ok ((periodsUpTo currentPeriod target).foldl step (db.mintPeriodsUpTo target))

def snapshotPeriodPricing (db : Dbs F) (blockHeight : Nat) : Dbs F :=
  let snapshots := db.periodPricing.toList.map fun row => (row.1, some row.2)
  { db with periodPricingUndo := db.periodPricingUndo.insert blockHeight snapshots }

def restorePeriodPricingUndo (db : Dbs F) (blockHeight : Nat) : Dbs F :=
  match db.periodPricingUndo[blockHeight]? with
  | none => db
  | some snapshots =>
      let kept := (db.periodPricing.toList.map Prod.fst).foldl
        (fun rows period =>
          if period ∈ snapshots.map Prod.fst then rows else rows.erase period)
        db.periodPricing
      let restored := snapshots.foldl
        (fun rows snapshot => snapshot.2.elim rows fun prior => rows.insert snapshot.1 prior)
        kept
      { db with
        periodPricing := restored
        periodPricingUndo := db.periodPricingUndo.erase blockHeight }

def computePAverage (db : Dbs F) (currentPeriod : Nat) : Nat :=
  let prices := (List.range' 1 (futurePeriods - 1)).filterMap fun offset =>
    db.periodPricing[currentPeriod + offset]?.map PeriodPricing.pPeriod
  if prices.length = 0 then genesisPPeriodSats
  else prices.sum / prices.length % 2 ^ 64

def anyPeriodDueForReprice (db : Dbs F) (blockHeight interval first last : Nat) : Bool :=
  (periodsUpTo first last).any fun period =>
    match db.periodPricing[period]? with
    | some p => decide (interval ≤ blockHeight - p.lastRepriceBlock)
    | none => false

/-- Reprice a period after `transitions` more mints; a period without a price
record is skipped. -/
def repricePeriod (blockHeight transitions : Nat) (db : Dbs F) (period : Nat) :
    Except Error (Dbs F) :=
  match db.periodPricing[period]? with
  | none => .ok db
  | some p => do
      let p ← applyRepriceWithFloor
        { p with mints := saturatingAdd p.mints transitions } blockHeight
      .ok (db.putPricing period p)

def seedPeriod (blockHeight newCurrent : Nat) (db : Dbs F) (period : Nat) : Dbs F :=
  db.putPricing period
    (PeriodPricing.newSeeded (db.computePAverage newCurrent) blockHeight)

def processBlockPricing (config : DecisionConfig) (db : Dbs F)
    (blockHeight tsSecs genesisTs : Nat) : Except Error (Dbs F) := do
  let newCurrent ← getCurrentPeriod config tsSecs (some blockHeight) genesisTs
  let target ← windowEnd newCurrent
  let prevHighest := db.getHighestMintedPeriod.getD 0
  let nextPeriod ← addU32 prevHighest 1
  let prevCurrent := nextPeriod - futurePeriods
  -- a debug assertion rules out `newCurrent < prevCurrent`; a release build has none
  let db := db.mintPeriodsUpTo target
  if prevCurrent < newCurrent then
    let db := (periodsUpTo nextPeriod target).foldl (seedPeriod blockHeight newCurrent) db
    (periodsUpTo newCurrent (min prevHighest target)).foldlM
      (repricePeriod blockHeight (newCurrent - prevCurrent)) db
  else if db.anyPeriodDueForReprice blockHeight (repriceInterval config) newCurrent target then
    (periodsUpTo newCurrent target).foldlM (repricePeriod blockHeight 0) db
  else
    .ok db

def deletePeriodsAbove (db : Dbs F) (maxPeriod : Nat) : Dbs F :=
  { db with
    periodDecisions := (db.mintedPeriods.filter fun period => maxPeriod < period).foldl
      (fun rows period => rows.erase period) db.periodDecisions }

def getDecisionStateHistory (db : Dbs F) (decisionId : DecisionId) :
    Option (DecisionStateHistory F) :=
  db.decisionStateHistories[decisionId]?

def getDecisionCurrentState (db : Dbs F) (decisionId : DecisionId) : DecisionState :=
  ((db.getDecisionStateHistory decisionId).map
    DecisionStateHistory.currentState).getD .created

def isDecisionInVoting (db : Dbs F) (decisionId : DecisionId) : Bool :=
  db.getDecisionCurrentState decisionId = .voting

def putHistory (db : Dbs F) (decisionId : DecisionId) (history : DecisionStateHistory F) :
    Dbs F :=
  { db with decisionStateHistories := db.decisionStateHistories.insert decisionId history }

def decisionsNeedingTransition (db : Dbs F) (fromState : DecisionState)
    (thresholdPeriod : DecisionId → Nat) (currentPeriod : Nat) : List DecisionId :=
  (db.decisionStateHistories.toList.filter fun row =>
    row.2.currentState = fromState ∧ thresholdPeriod row.1 < currentPeriod).map Prod.fst

def getClaimedDecisionsNeedingVoting (db : Dbs F) (currentPeriod : Nat) : List DecisionId :=
  db.decisionsNeedingTransition .claimed DecisionId.periodIndex currentPeriod

def getVotingDecisionsNeedingResolution (db : Dbs F) (currentPeriod : Nat) :
    List DecisionId :=
  db.decisionsNeedingTransition .voting DecisionId.votingPeriod currentPeriod

def transitionDecisionToVoting (db : Dbs F) (decisionId : DecisionId) (blockHeight : Nat) :
    Except Error (Dbs F) := do
  let history ← okOr (db.getDecisionStateHistory decisionId)
    (.invalidDecisionId s!"Decision {decisionId.toNat} has no state history")
  let history ← history.transitionToVoting blockHeight
  .ok (db.putHistory decisionId history)

def transitionDecisionToResolved [F64 F] (db : Dbs F) (decisionId : DecisionId)
    (blockHeight : Nat) (consensusOutcome : F) : Except Error (Dbs F) := do
  let history ← okOr (db.getDecisionStateHistory decisionId)
    (.invalidDecisionId s!"Decision {decisionId.toNat} has no state history")
  let history ← history.transitionToResolved consensusOutcome blockHeight
  .ok (db.putHistory decisionId history)

/-- The claimed entries of a period; an unminted period has none. -/
def entriesOf (db : Dbs F) (period : Nat) : List (DecisionEntry F) :=
  db.periodDecisions[period]?.getD []

def getClaimedDecisionIdsForPeriod (db : Dbs F) (period : Nat) : List DecisionId :=
  ((db.entriesOf period).filter fun entry => entry.decision.isSome).map
    DecisionEntry.decisionId

def getStandardClaimedCountInPeriod (db : Dbs F) (period : Nat) : Nat :=
  ((db.getClaimedDecisionIdsForPeriod period).filter DecisionId.isStandard).length

def getDecisionEntry (db : Dbs F) (decisionId : DecisionId) : Option (DecisionEntry F) :=
  (db.entriesOf decisionId.periodIndex).find? fun entry => entry.decisionId = decisionId

def feeForDecisionId (db : Dbs F) (decisionId : DecisionId) : Except Error Nat := do
  let pricing ← okOr db.periodPricing[decisionId.periodIndex]?
    (.invalidTransaction s!"no pricing record for period {decisionId.periodIndex}")
  feeForIndex pricing.pPeriod pricing.mints decisionId.decisionIndex

def isDecisionSettled (config : DecisionConfig) (decisionId : DecisionId)
    (currentTs : Nat) (currentHeight : Option Nat) (genesisTs : Nat) : Bool :=
  match getCurrentPeriod config currentTs currentHeight genesisTs with
  | .ok currentPeriod => decide (decisionId.periodIndex + 7 < currentPeriod)
  | .error _ => false

def validateDecisionClaim (config : DecisionConfig) (db : Dbs F) (decisionId : DecisionId)
    (currentTs : Nat) (currentHeight : Option Nat) (genesisTs : Nat) :
    Except Error Unit := do
  let period := decisionId.periodIndex
  let currentPeriod ← getCurrentPeriod config currentTs currentHeight genesisTs
  ensure (isDecisionSettled config decisionId currentTs currentHeight genesisTs = false)
    (.decisionNotAvailable decisionId.toNat s!"Decision period {period} is settled")
  ensure (db.isDecisionInVoting decisionId = false)
    (.decisionNotAvailable decisionId.toNat
      s!"Decision {decisionId.toNat} is in voting state - no new decisions can be claimed")
  let last ← windowEnd currentPeriod
  ensure (period ≤ last)
    (.decisionNotAvailable decisionId.toNat
      s!"Decision period {period} exceeds maximum allowed period {last} (current + 20)")
  if decisionId.isStandard then
    ensure (currentPeriod ≤ period)
      (.decisionNotAvailable decisionId.toNat
        (s!"Period {period} is not in active window for new decisions " ++
          s!"({currentPeriod}-{last})"))
    let pricing ← okOr db.periodPricing[period]?
      (.decisionNotAvailable decisionId.toNat s!"no pricing record for period {period}")
    ensure (slotUnlocked decisionId.decisionIndex pricing.mints = true)
      (.decisionNotAvailable decisionId.toNat
        (s!"decision_index {decisionId.decisionIndex} not yet unlocked in period {period} " ++
          s!"(mints={pricing.mints})"))
  ensure (decisionId ∉ db.getClaimedDecisionIdsForPeriod period)
    (.decisionAlreadyClaimed decisionId.toNat)

/-- Insertion into the ordered set of a period's entries. -/
def insertEntry [DecidableEq F] (entries : List (DecisionEntry F))
    (entry : DecisionEntry F) : List (DecisionEntry F) :=
  if entry ∈ entries then entries
  else entries.orderedInsert (fun a b => a.decisionId.toNat ≤ b.decisionId.toNat) entry

def putEntries (db : Dbs F) (period : Nat) (entries : List (DecisionEntry F)) : Dbs F :=
  { db with periodDecisions := db.periodDecisions.insert period entries }

/-- Store the entries of a period; a period without entries loses its row. -/
def putOrDeleteEntries (db : Dbs F) (period : Nat) (entries : List (DecisionEntry F)) :
    Dbs F :=
  if entries.isEmpty then
    { db with periodDecisions := db.periodDecisions.erase period }
  else
    db.putEntries period entries

def claimDecision [DecidableEq F] (db : Dbs F) (decisionId : DecisionId)
    (decision : Decision F) (claimingTxid : Txid) (blockHeight : Nat) :
    Except Error (Dbs F) := do
  let period := decisionId.periodIndex
  let entries := insertEntry (db.entriesOf period) ⟨decisionId, some decision, claimingTxid⟩
  let db := (db.putEntries period entries).putHistory decisionId
    (DecisionStateHistory.new blockHeight)
  if decisionId.isStandard then
    let pricing ← okOr db.periodPricing[period]?
      (.invalidTransaction s!"no pricing record for period {period}")
    .ok (db.putPricing period { pricing with claimed := saturatingAdd pricing.claimed 1 })
  else
    .ok db

def revertDecisionClaim [DecidableEq F] (db : Dbs F) (decisionId : DecisionId) : Dbs F :=
  let period := decisionId.periodIndex
  match (db.entriesOf period).find? fun entry => entry.decisionId = decisionId with
  | some entry => db.putOrDeleteEntries period ((db.entriesOf period).erase entry)
  | none => db

/-- Drop an entry whose claim was rolled back. -/
def unclaim (db : Dbs F) (decisionId : DecisionId) : Dbs F :=
  match db.periodDecisions[decisionId.periodIndex]? with
  | some entries =>
      db.putOrDeleteEntries decisionId.periodIndex
        (entries.filter fun entry => entry.decisionId ≠ decisionId)
  | none => db

def rollbackDecisionStatesToHeight (db : Dbs F) (height : Nat) : Dbs F :=
  let rows := db.decisionStateHistories.toList
  let rolledBack := rows.foldl
    (fun db row => db.putHistory row.1 (row.2.rollbackToHeight height)) db
  let unclaimed := rows.filter fun row =>
    row.2.currentState ≠ .created ∧ (row.2.rollbackToHeight height).currentState = .created
  (unclaimed.map Prod.fst).foldl unclaim rolledBack

end Dbs

end Truthcoin.Decisions
