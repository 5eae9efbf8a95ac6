import Truthcoin.WithdrawalBundle

/-!
# Two-way-peg data

Connection and disconnection of the mainchain events of a sidechain block.
-/

namespace Truthcoin.TwoWayPeg

open Truthcoin.Types Truthcoin.Table Truthcoin.Fallible Truthcoin.AppendLog
open Truthcoin.WithdrawalBundle

def withdrawalBundleFailureGap : Nat := 4

abbrev BundleEntry := WithdrawalBundleInfo × RollBack WithdrawalBundleStatus

/-- The tables of the state that only the peg writes. -/
structure PegDbs where
  pendingWithdrawalBundle : Option M6id
  latestFailedWithdrawalBundle : Option (RollBack M6id)
  withdrawalBundles : Table M6id BundleEntry
  blockIndexEvents : Table Nat BlockIndexEvents
  depositBlocks : Table UInt32 (MainBlockHash × Nat)
  withdrawalBundleEventBlocks : Table UInt32 (MainBlockHash × Nat)
  deriving DecidableEq

def PegDbs.empty : PegDbs := ⟨none, none, ∅, ∅, ∅, ∅⟩

structure PegState where
  coins : Coins
  dbs : PegDbs
  deriving DecidableEq

def PegState.putBundle (s : PegState) (m6id : M6id) (entry : BundleEntry) :
    PegState :=
  { s with
    dbs.withdrawalBundles := s.dbs.withdrawalBundles.insert m6id entry }

def PegState.deleteBundle (s : PegState) (m6id : M6id) : PegState :=
  { s with dbs.withdrawalBundles := s.dbs.withdrawalBundles.erase m6id }

def PegState.setPending (s : PegState) (m6id : Option M6id) : PegState :=
  { s with dbs.pendingWithdrawalBundle := m6id }

/-- Push a bundle status, reporting a height that runs backwards. -/
def pushStatus (label : String) (status : RollBack WithdrawalBundleStatus)
    (value : WithdrawalBundleStatus) (height : Nat) :
    Except Error (RollBack WithdrawalBundleStatus) :=
  match status.push value height with
  | .ok status => .ok status
  | .error e => .error (.databaseError s!"failed to push {label}: {e}")

/-- Move the outputs of a bundle from the unspent to the spent outputs. -/
def spendBundleUtxos (missing : OutPoint → Error) (m6id : M6id)
    (spends : List (OutPoint × FilledOutput)) (c : Coins) : Except Error Coins :=
  spends.foldlM (fun c row =>
    match c.deleteUtxo row.1 with
    | (_, false) => .error (missing row.1)
    | (c, true) => .ok (c.putStxo row.1 ⟨row.2, .withdrawal m6id⟩)) c

/-- Submission of the pending bundle. -/
def connectPendingSubmitted (s : PegState) (blockHeight : Nat)
    (events : BlockIndexEvents) (m6id : M6id) :
    Except Error (PegState × BlockIndexEvents) :=
  match s.dbs.withdrawalBundles[m6id]? with
  | none => .error (.databaseError
      s!"pending withdrawal bundle {m6id} unknown in withdrawal_bundles")
  | some (.known bundle, bundleStatus) => do
      let spends := bundle.spendUtxos.toList
      let coins ← spendBundleUtxos Error.noUtxo m6id spends s.coins
      let events := { events with
        bundleSpends := events.bundleSpends ++ spends.map fun row => (row.1, m6id) }
      let latest := bundleStatus.latest.value
      ensure (latest = .pending) (Error.databaseError
        s!"expected Pending status before Submitted, got {latest}")
      let bundleStatus ← pushStatus "submitted bundle status" bundleStatus
        .submitted blockHeight
      .ok ((({ s with coins := coins }).putBundle m6id
        (.known bundle, bundleStatus)).setPending none, events)
  | some _ => .error (.databaseError
      s!"pending withdrawal bundle {m6id} is not known")

/-- A recorded bundle other than the pending one may be submitted again only
after it was dropped or failed. -/
def checkResubmission (info : WithdrawalBundleInfo)
    (latest : HeightStamped WithdrawalBundleStatus) (eventBlockHash : MainBlockHash)
    (m6id : M6id) : Except Error Unit :=
  let height := latest.height
  match info, latest.value with
  | _, .confirmed => .error (.databaseError
      s!"confirmed withdrawal bundle {m6id} resubmitted in {eventBlockHash}")
  | _, .submitted | _, .submittedUnexpected => .error (.databaseError
      s!"withdrawal bundle {m6id} submitted in {height} resubmitted in {eventBlockHash}")
  | .known _, .dropped => .ok ()
  | _, .dropped => .error (.databaseError
      s!"unknown withdrawal bundle {m6id} marked as dropped in {height}")
  | .known _, .pending => .error (.databaseError
      s!"dropped withdrawal bundle {m6id} marked as pending in withdrawal_bundles")
  | _, .pending => .error (.databaseError
      s!"unknown withdrawal bundle {m6id} marked as pending in {height}")
  | .known _, .failed | .unknown, .failed => .ok ()
  | .unknownConfirmed _, .failed => .error (.databaseError
      s!"unknown confirmed withdrawal bundle {m6id} marked as failed in {height}")

def connectWithdrawalBundleSubmitted (s : PegState) (blockHeight : Nat)
    (events : BlockIndexEvents) (eventBlockHash : MainBlockHash) (m6id : M6id) :
    Except Error (PegState × BlockIndexEvents) :=
  if s.dbs.pendingWithdrawalBundle = some m6id then
    connectPendingSubmitted s blockHeight events m6id
  else
    match s.dbs.withdrawalBundles[m6id]? with
    | some (bundle, bundleStatus) => do
        checkResubmission bundle bundleStatus.latest eventBlockHash m6id
        let bundleStatus ← pushStatus "submitted-unexpected status" bundleStatus
          .submittedUnexpected blockHeight
        .ok (s.putBundle m6id (bundle, bundleStatus), events)
    | none =>
        .ok (s.putBundle m6id (.unknown, RollBack.new .submitted blockHeight), events)

/-- Mark every unspent output as spent by the bundle. -/
def spendAllUtxos (m6id : M6id) (c : Coins) : Coins :=
  (c.utxos.toList.foldl
    (fun c row => c.putStxo row.1 ⟨row.2, .withdrawal m6id⟩) c).clearUtxos

/-- Coins and bundle information once a submitted bundle is confirmed. -/
def confirmBundle (c : Coins) (blockHeight : Nat) (eventBlockHash : MainBlockHash)
    (m6id : M6id) (latest : WithdrawalBundleStatus) :
    WithdrawalBundleInfo → Except Error (Coins × WithdrawalBundleInfo)
  | .unknownConfirmed _ =>
      .error (.unknownWithdrawalBundleReconfirmed eventBlockHash m6id)
  | .unknown =>
      -- Only at height 0 can no output have been double-spent yet.
      if blockHeight = 0 then
        .ok (spendAllUtxos m6id c, .unknownConfirmed c.utxos)
      else
        .error (.unknownWithdrawalBundleConfirmed eventBlockHash m6id)
  | .known bundle =>
      if latest = .submittedUnexpected then do
        let c ← spendBundleUtxos
          (Error.unexpectedWithdrawalBundleInsolvency eventBlockHash m6id) m6id
          bundle.spendUtxos.toList c
        .ok (c, .known bundle)
      else
        .ok (c, .known bundle)

def isSubmitted (status : WithdrawalBundleStatus) : Prop :=
  status = .submitted ∨ status = .submittedUnexpected

instance (status : WithdrawalBundleStatus) : Decidable (isSubmitted status) :=
  inferInstanceAs (Decidable (_ ∨ _))

def connectWithdrawalBundleConfirmed (s : PegState) (blockHeight : Nat)
    (eventBlockHash : MainBlockHash) (m6id : M6id) : Except Error PegState :=
  match s.dbs.withdrawalBundles[m6id]? with
  | none => .error (.unknownWithdrawalBundle m6id)
  | some (bundle, bundleStatus) =>
      let latest := bundleStatus.latest.value
      if latest = .confirmed then
        .ok s
      else do
        ensure (isSubmitted latest) (Error.databaseError
          s!"expected Submitted status before Confirmed, got {latest}")
        let (coins, bundle) ←
          confirmBundle s.coins blockHeight eventBlockHash m6id latest bundle
        let bundleStatus ← pushStatus "confirmed bundle status" bundleStatus
          .confirmed blockHeight
        .ok (({ s with coins := coins }).putBundle m6id (bundle, bundleStatus))

/-- Return the outputs of a failed bundle to the UTXO set. -/
def reinstateUtxos (spends : List (OutPoint × FilledOutput)) (c : Coins) : Coins :=
  spends.foldl (fun c row => (c.deleteStxo row.1).1.insertUtxo row.1 row.2) c

def pushLatestFailed (latestFailed : Option (RollBack M6id)) (m6id : M6id)
    (blockHeight : Nat) : Except Error (RollBack M6id) :=
  match latestFailed with
  | none => .ok (RollBack.new m6id blockHeight)
  | some latestFailed =>
      match latestFailed.push m6id blockHeight with
      | .ok latestFailed => .ok latestFailed
      | .error e => .error (.databaseError s!"failed to push latest failed m6id: {e}")

def connectWithdrawalBundleFailed (s : PegState) (blockHeight : Nat)
    (m6id : M6id) : Except Error PegState :=
  match s.dbs.withdrawalBundles[m6id]? with
  | none => .error (.unknownWithdrawalBundle m6id)
  | some (bundle, bundleStatus) =>
      let latest := bundleStatus.latest.value
      if latest = .failed then
        .ok s
      else do
        ensure (isSubmitted latest) (Error.databaseError
          s!"expected Submitted status before Failed, got {latest}")
        let s ← match bundle with
          | .known b =>
              if latest = .submittedUnexpected then
                .ok s
              else do
                let latestFailed ← pushLatestFailed
                  s.dbs.latestFailedWithdrawalBundle m6id blockHeight
                .ok { s with
                  coins := reinstateUtxos b.spendUtxos.toList s.coins
                  dbs.latestFailedWithdrawalBundle := some latestFailed }
          | _ => .ok s
        let bundleStatus ← pushStatus "failed bundle status" bundleStatus
          .failed blockHeight
        .ok (s.putBundle m6id (bundle, bundleStatus))

def connectWithdrawalBundleEvent (s : PegState) (blockHeight : Nat)
    (events : BlockIndexEvents) (eventBlockHash : MainBlockHash)
    (event : WithdrawalBundleEvent) :
    Except Error (PegState × BlockIndexEvents) :=
  match event.status with
  | .submitted =>
      connectWithdrawalBundleSubmitted s blockHeight events eventBlockHash event.m6id
  | .confirmed => do
      let s ← connectWithdrawalBundleConfirmed s blockHeight eventBlockHash event.m6id
      .ok (s, events)
  | .failed => do
      let s ← connectWithdrawalBundleFailed s blockHeight event.m6id
      .ok (s, events)

/-- State, recorded movements and latest event blocks while the events of a
sidechain block are connected. -/
structure ConnectAcc where
  state : PegState
  indexEvents : BlockIndexEvents
  latestDepositBlockHash : Option MainBlockHash
  latestWithdrawalBundleEventBlockHash : Option MainBlockHash
  deriving DecidableEq

/-- An event with the mainchain block it happened in. -/
abbrev LocatedEvent := MainBlockHash × BlockEvent

def events (data : TwoWayPegData) : List LocatedEvent :=
  data.blockInfo.flatMap fun info => info.events.map fun event =>
    (info.blockHash, event)

def connectEvent (blockHeight : Nat) (acc : ConnectAcc) (event : LocatedEvent) :
    Except Error ConnectAcc :=
  match event.2 with
  | .deposit deposit =>
      .ok { acc with
        state.coins := acc.state.coins.insertUtxo deposit.outpoint deposit.output
        indexEvents.deposits :=
          acc.indexEvents.deposits ++ [(deposit.outpoint, deposit.output)]
        latestDepositBlockHash := some event.1 }
  | .withdrawalBundle bundleEvent => do
      let (state, indexEvents) ← connectWithdrawalBundleEvent acc.state blockHeight
        acc.indexEvents event.1 bundleEvent
      .ok { acc with
        state := state
        indexEvents := indexEvents
        latestWithdrawalBundleEventBlockHash := some event.1 }

def connectEvents (s : PegState) (blockHeight : Nat) (data : TwoWayPegData) :
    Except Error ConnectAcc :=
  (events data).foldlM (connectEvent blockHeight)
    ⟨s, BlockIndexEvents.default, none, none⟩

/-- Record the movements and the event blocks of the sidechain block. -/
def recordEvents (acc : ConnectAcc) (blockHeight : Nat) : PegState :=
  let dbs := acc.state.dbs
  { acc.state with
    dbs := { dbs with
      blockIndexEvents :=
        if acc.indexEvents.isEmpty then dbs.blockIndexEvents
        else dbs.blockIndexEvents.insert blockHeight acc.indexEvents
      depositBlocks :=
        match acc.latestDepositBlockHash with
        | none => dbs.depositBlocks
        | some hash => append dbs.depositBlocks (hash, blockHeight)
      withdrawalBundleEventBlocks :=
        match acc.latestWithdrawalBundleEventBlockHash with
        | none => dbs.withdrawalBundleEventBlocks
        | some hash => append dbs.withdrawalBundleEventBlocks (hash, blockHeight) } }

def getLatestFailedWithdrawalBundle (dbs : PegDbs) :
    Except Error (Option (Nat × M6id)) :=
  match dbs.latestFailedWithdrawalBundle with
  | none => .ok none
  | some latestFailed =>
      let m6id := latestFailed.latest.value
      match dbs.withdrawalBundles[m6id]? with
      | none => .error (.databaseError
          s!"latest failed m6id {m6id} not found in withdrawal_bundles")
      | some (_, bundleStatus) =>
          match bundleStatus.iterRev.find? (·.value = .failed) with
          | none => .error (.databaseError s!"missing failure status for {m6id}")
          | some status => .ok (some (status.height, m6id))

/-- Whether enough blocks have passed since the last bundle failure. -/
def failureGapPassed (dbs : PegDbs) (blockHeight : Nat) : Except Error Bool := do
  let latestFailed ← getLatestFailedWithdrawalBundle dbs
  let lastFailureHeight := (latestFailed.map (·.1)).getD 0
  ensure (lastFailureHeight ≤ blockHeight) Error.panic
  .ok (decide (withdrawalBundleFailureGap ≤ blockHeight - lastFailureHeight))

/-- Store a new bundle as the pending one. -/
def storePendingBundle (L : BundleLib) (s : PegState) (blockHeight : Nat)
    (bundle : WithdrawalBundle) : Except Error PegState := do
  let m6id := computeM6id L bundle
  let bundleStatus ← match s.dbs.withdrawalBundles[m6id]? with
    | some (_, bundleStatus) =>
        pushStatus "pending bundle status" bundleStatus .pending blockHeight
    | none => .ok (RollBack.new .pending blockHeight)
  .ok ((s.setPending (some m6id)).putBundle m6id (.known bundle, bundleStatus))

/-- Create a pending bundle when none is pending and the failure gap has passed. -/
def createPendingBundle (L : BundleLib) (s : PegState) (blockHeight : Nat) :
    Except Error PegState := do
  let gapPassed ← failureGapPassed s.dbs blockHeight
  if gapPassed ∧ s.dbs.pendingWithdrawalBundle = none then
    match ← collectWithdrawalBundle L s.coins blockHeight with
    | some bundle => storePendingBundle L s blockHeight bundle
    | none => .ok s
  else
    .ok s

def connect (L : BundleLib) (height : Option Nat) (s : PegState)
    (data : TwoWayPegData) : Except Error PegState := do
  let blockHeight ← okOr height Error.noTip
  let acc ← connectEvents s blockHeight data
  createPendingBundle L (recordEvents acc blockHeight) blockHeight

/-- Take back the outputs of a bundle whose submission or confirmation is undone. -/
def unspendBundleUtxos (spends : List (OutPoint × FilledOutput)) (c : Coins) :
    Except Error Coins :=
  spends.foldlM (fun c row =>
    match c.deleteStxo row.1 with
    | (_, false) => .error (.noStxo row.1)
    | (c, true) => .ok (c.insertUtxo row.1 row.2)) c

def disconnectWithdrawalBundleSubmitted (s : PegState) (blockHeight : Nat)
    (m6id : M6id) : Except Error PegState :=
  match s.dbs.withdrawalBundles[m6id]? with
  | none =>
      if s.dbs.pendingWithdrawalBundle = some m6id then .ok s
      else .error (.unknownWithdrawalBundle m6id)
  | some (bundle, bundleStatus) => do
      let (prev, latest) := bundleStatus.pop
      let value := latest.value
      let height := latest.height
      ensure (isSubmitted value) (Error.databaseError
        s!"expected Submitted status for disconnect, got {value}")
      ensure (height = blockHeight) (Error.databaseError
        s!"bundle height {height} != block height {blockHeight}")
      let s ← match bundle, prev with
        | .known b, some prev =>
            if prev.latest.value = .pending then do
              let coins ← unspendBundleUtxos b.spendUtxos.toList.reverse s.coins
              .ok (({ s with coins := coins }).setPending (some m6id))
            else
              .ok s
        | _, _ => .ok s
      match prev with
      | some prev => .ok (s.putBundle m6id (bundle, prev))
      | none => .ok (s.deleteBundle m6id)

/-- Put the outputs of a bundle back into the UTXO set, then drop them from the
spent outputs. -/
def unconfirmUtxos (spends : List (OutPoint × FilledOutput)) (c : Coins) :
    Except Error Coins :=
  spends.foldlM (fun c row =>
    match (c.insertUtxo row.1 row.2).deleteStxo row.1 with
    | (_, false) => .error (.noStxo row.1)
    | (c, true) => .ok c) c

def disconnectWithdrawalBundleConfirmed (s : PegState) (blockHeight : Nat)
    (m6id : M6id) : Except Error PegState :=
  match s.dbs.withdrawalBundles[m6id]? with
  | none => .error (.unknownWithdrawalBundle m6id)
  | some (bundle, bundleStatus) =>
      let (prev, latest) := bundleStatus.pop
      let value := latest.value
      let height := latest.height
      if isSubmitted value then
        .ok s
      else do
        ensure (value = .confirmed) (Error.databaseError
          s!"expected Confirmed status for disconnect, got {value}")
        ensure (height = blockHeight) (Error.databaseError
          s!"confirmed bundle height {height} != block height {blockHeight}")
        let prev ← okOr prev
          (Error.databaseError "confirmed bundle has no previous status")
        let prevValue := prev.latest.value
        ensure (isSubmitted prevValue) (Error.databaseError
          s!"expected Submitted status before Confirmed, got {prevValue}")
        let (coins, bundle) ← match bundle with
          | .known b =>
              if prevValue = .submittedUnexpected then do
                let coins ← unconfirmUtxos b.spendUtxos.toList s.coins
                .ok (coins, bundle)
              else
                .ok (s.coins, bundle)
          | .unknownConfirmed spendUtxos => do
              let coins ← unconfirmUtxos spendUtxos.toList s.coins
              .ok (coins, .unknown)
          | .unknown => .ok (s.coins, bundle)
        .ok (({ s with coins := coins }).putBundle m6id (bundle, prev))

/-- Spend the outputs of a bundle again when its failure is undone. -/
def respendUtxos (m6id : M6id) (spends : List (OutPoint × FilledOutput))
    (c : Coins) : Except Error Coins :=
  spends.foldlM (fun c row =>
    match (c.putStxo row.1 ⟨row.2, .withdrawal m6id⟩).deleteUtxo row.1 with
    | (_, false) => .error (.noUtxo row.1)
    | (c, true) => .ok c) c

/-- Remove the latest failed bundle, which must be the given one. -/
def popLatestFailed (latestFailed : Option (RollBack M6id)) (m6id : M6id)
    (blockHeight : Nat) : Except Error (Option (RollBack M6id)) := do
  let latestFailed ← okOr latestFailed
    (Error.databaseError "latest failed withdrawal bundle should exist")
  let (prev, latest) := latestFailed.pop
  let value := latest.value
  let height := latest.height
  ensure (value = m6id) (Error.databaseError
    s!"latest failed m6id {value} != expected {m6id}")
  ensure (height = blockHeight) (Error.databaseError
    s!"latest failed height {height} != block height {blockHeight}")
  .ok prev

def disconnectWithdrawalBundleFailed (s : PegState) (blockHeight : Nat)
    (m6id : M6id) : Except Error PegState :=
  match s.dbs.withdrawalBundles[m6id]? with
  | none => .error (.unknownWithdrawalBundle m6id)
  | some (bundle, bundleStatus) =>
      let (prev, latest) := bundleStatus.pop
      let value := latest.value
      let height := latest.height
      if value = .submitted then
        .ok s
      else do
        ensure (value = .failed) (Error.databaseError
          s!"expected Failed status for disconnect, got {value}")
        ensure (height = blockHeight) (Error.databaseError
          s!"failed bundle height {height} != block height {blockHeight}")
        let prev ← okOr prev
          (Error.databaseError "failed bundle has no previous status")
        let prevValue := prev.latest.value
        ensure (isSubmitted prevValue) (Error.databaseError
          s!"expected Submitted status before Failed, got {prevValue}")
        let s ← match bundle with
          | .known b =>
              if prevValue = .submittedUnexpected then
                .ok s
              else do
                let coins ← respendUtxos m6id b.spendUtxos.toList.reverse s.coins
                let latestFailed ← popLatestFailed
                  s.dbs.latestFailedWithdrawalBundle m6id blockHeight
                .ok { s with
                  coins := coins
                  dbs.latestFailedWithdrawalBundle := latestFailed }
          | _ => .ok s
        .ok (s.putBundle m6id (bundle, prev))

def disconnectWithdrawalBundleEvent (s : PegState) (blockHeight : Nat)
    (event : WithdrawalBundleEvent) : Except Error PegState :=
  match event.status with
  | .submitted => disconnectWithdrawalBundleSubmitted s blockHeight event.m6id
  | .confirmed => disconnectWithdrawalBundleConfirmed s blockHeight event.m6id
  | .failed => disconnectWithdrawalBundleFailed s blockHeight event.m6id

/-- State and latest event blocks while the events of a sidechain block are
disconnected. -/
structure DisconnectAcc where
  state : PegState
  latestDepositBlockHash : Option MainBlockHash
  latestWithdrawalBundleEventBlockHash : Option MainBlockHash
  deriving DecidableEq

def disconnectEvent (blockHeight : Nat) (acc : DisconnectAcc)
    (event : LocatedEvent) : Except Error DisconnectAcc :=
  match event.2 with
  | .deposit deposit =>
      match acc.state.coins.deleteUtxo deposit.outpoint with
      | (_, false) => .error (.noUtxo deposit.outpoint)
      | (coins, true) =>
          .ok { acc with
            state.coins := coins
            latestDepositBlockHash := acc.latestDepositBlockHash.or (some event.1) }
  | .withdrawalBundle bundleEvent => do
      let state ← disconnectWithdrawalBundleEvent acc.state blockHeight bundleEvent
      .ok { acc with
        state := state
        latestWithdrawalBundleEventBlockHash :=
          acc.latestWithdrawalBundleEventBlockHash.or (some event.1) }

/-- Events in the order in which a disconnection visits them. -/
def eventsRev (data : TwoWayPegData) : List LocatedEvent :=
  data.blockInfo.reverse.flatMap fun info => info.events.reverse.map fun event =>
    (info.blockHash, event)

def disconnectEvents (s : PegState) (blockHeight : Nat) (data : TwoWayPegData) :
    Except Error DisconnectAcc :=
  (eventsRev data).foldlM (disconnectEvent blockHeight) ⟨s, none, none⟩

/-- Remove the last row of an event block table, which must be the row of this
sidechain block. -/
def popEventBlock (name : String) (missing : Error)
    (table : Table UInt32 (MainBlockHash × Nat)) (latest : Option MainBlockHash)
    (blockHeight : Nat) : Except Error (Table UInt32 (MainBlockHash × Nat)) :=
  match latest with
  | none => .ok table
  | some hash => do
      let (seqIdx, lastHash, lastHeight) ← okOr (last table) missing
      ensure (hash = lastHash) (Error.databaseError
        s!"{name} hash mismatch: {hash} != {lastHash}")
      ensure (blockHeight = lastHeight) (Error.databaseError
        s!"{name} height mismatch: {blockHeight} != {lastHeight}")
      .ok (table.erase seqIdx)

/-- Drop the pending bundle if it was created at this height. -/
def dropPendingBundle (s : PegState) (blockHeight : Nat) :
    Except Error PegState := do
  let gapPassed ← failureGapPassed s.dbs blockHeight
  match gapPassed, s.dbs.pendingWithdrawalBundle with
  | true, some m6id => do
      let (bundle, bundleStatus) ← okOr s.dbs.withdrawalBundles[m6id]?
        (Error.databaseError
          s!"pending withdrawal bundle {m6id} unknown in withdrawal_bundles")
      if bundleStatus.latest.height = blockHeight then
        match bundleStatus.pop.1 with
        | some prev => .ok ((s.setPending none).putBundle m6id (bundle, prev))
        | none => .ok ((s.setPending none).deleteBundle m6id)
      else
        .ok s
  | _, _ => .ok s

def disconnect (height : Option Nat) (s : PegState) (data : TwoWayPegData) :
    Except Error PegState := do
  let blockHeight ← okOr height Error.noTip
  let s := { s with
    dbs.blockIndexEvents := s.dbs.blockIndexEvents.erase blockHeight }
  let acc ← disconnectEvents s blockHeight data
  let eventBlocks ← popEventBlock "withdrawal bundle event block"
    Error.noWithdrawalBundleEventBlock acc.state.dbs.withdrawalBundleEventBlocks
    acc.latestWithdrawalBundleEventBlockHash blockHeight
  let s ← dropPendingBundle
    { acc.state with dbs.withdrawalBundleEventBlocks := eventBlocks } blockHeight
  let depositBlocks ← popEventBlock "deposit block" Error.noDepositBlock
    s.dbs.depositBlocks acc.latestDepositBlockHash blockHeight
  .ok { s with dbs.depositBlocks := depositBlocks }

def getLastDepositBlockHash (dbs : PegDbs) : Option MainBlockHash :=
  (last dbs.depositBlocks).map fun row => row.2.1

def getLastWithdrawalBundleEventBlockHash (dbs : PegDbs) : Option MainBlockHash :=
  (last dbs.withdrawalBundleEventBlocks).map fun row => row.2.1

end Truthcoin.TwoWayPeg
