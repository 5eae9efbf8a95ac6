import Truthcoin.ArchiveRuns

/-!
# The sidechain tips follow the mainchain

What the mainchain task does with the events of the mainchain node: it connects and
disconnects mainchain blocks, and after a reconnection it moves from the last tip that it
knows to the current one. A failed operation aborts the write transaction around it.
-/

namespace Truthcoin.Archiving

open Truthcoin.Types Truthcoin.Table Truthcoin.Fallible Truthcoin.Blocks
open Truthcoin.Mainchain Truthcoin.Lineage

variable {B : Type}

namespace ArchiveDb

section

variable (db : ArchiveDb B)

/-- The commitment of a mainchain block, if it commits to a sidechain block that can become
a tip: the body is stored, the parent is a tip, and the commitment is verified. -/
def activeCommitment (main : MainBlockHash) (block : MainBlockInfo) :
    Except ArchiveDbError (Option BmmCommitment) :=
  match block.bmmCommitment with
  | none => .ok none
  | some sideBlockHash =>
      if sideBlockHash ∉ db.bodies then .ok none
      else do
        let sideHeader ← db.getHeader sideBlockHash
        if !parentIsTip db.sideTips sideHeader.prevSideHash then .ok none
        else
          match ← db.getBmmResult sideBlockHash main with
          | .verified => .ok (some ⟨sideBlockHash, headerData sideHeader⟩)
          | .failed => .ok none

def connectTip (headerInfo : MainHeaderInfo) (bmmCommitment : Option BmmCommitment) :
    Except ArchiveDbError (ArchiveDb B) := do
  let tips ← (db.sideTips.connectMainchainTip headerInfo bmmCommitment).mapError .sideTips
  .ok { db with sideTips := tips }

def disconnectTip (prevTipInfo : Option MainHeaderInfo) (bmmCommitment : Option BlockHash) :
    Except ArchiveDbError (ArchiveDb B) := do
  let tips ← (db.sideTips.disconnectMainchainTip prevTipInfo bmmCommitment).mapError .sideTips
  .ok { db with sideTips := tips }

def handleConnectBlock (headerInfo : MainHeaderInfo) (block : MainBlockInfo) :
    Except ArchiveDbError (ArchiveDb B) := do
  let db ← db.putMainHeaderInfo headerInfo
  let db ← db.putMainBlockInfo headerInfo.blockHash block
  let bmmCommitment ← db.activeCommitment headerInfo.blockHash block
  db.connectTip headerInfo bmmCommitment

def handleDisconnectBlock (blockHash : MainBlockHash) : Except ArchiveDbError (ArchiveDb B) := do
  let headerInfo ← db.getMainHeaderInfo blockHash
  let block ← db.getMainBlockInfo blockHash
  let parentInfo ← db.mainParentHeaderInfo headerInfo
  db.disconnectTip parentInfo block.bmmCommitment

/-- The block down to which the mainchain is disconnected. -/
def syncAncestor (mainchainTip : MainBlockHash) : Except ArchiveDbError MainBlockHash :=
  if db.sideTips.mainchainTip.blockHash = allZeros ∨ mainchainTip = allZeros then .ok allZeros
  else db.lastCommonMainAncestor mainchainTip db.sideTips.mainchainTip.blockHash

/-- The header infos of a block and of its ancestors, at most `n` of them. -/
def mainAncestorHeaderInfos : Nat → MainBlockHash → Except ArchiveDbError (List MainHeaderInfo)
  | 0, _ => .ok []
  | n + 1, blockHash =>
      if blockHash = allZeros then .ok []
      else do
        let headerInfo ← db.getMainHeaderInfo blockHash
        let rest ← mainAncestorHeaderInfos n headerInfo.prevBlockHash
        .ok (headerInfo :: rest)

/-- The next at most 32 header infos on the way up to a block, oldest first. -/
def mainAncestorBatch (endBlockHash : MainBlockHash) (startHeight : Nat) :
    Except ArchiveDbError (List MainHeaderInfo) := do
  let endInfo ← db.getMainHeaderInfo endBlockHash
  if endInfo.height < startHeight then .ok []
  else do
    let heightDiff := endInfo.height - startHeight
    let ancestorOffset := min heightDiff 31
    let ancestor ← db.getNthMainAncestor endBlockHash (heightDiff - ancestorOffset)
    let headerInfos ← db.mainAncestorHeaderInfos (ancestorOffset + 1) ancestor
    .ok headerInfos.reverse

end

/-- Disconnect until the common ancestor is reached. -/
def syncDisconnect (commonAncestor : MainBlockHash) :
    Nat → ArchiveDb B → Option MainHeaderInfo →
      Except ArchiveDbError (ArchiveDb B × Option MainHeaderInfo)
  | _, db, none => .ok (db, none)
  | rounds, db, some tipInfo =>
      if tipInfo.blockHash = commonAncestor then .ok (db, some tipInfo)
      else
        match rounds with
        | 0 => .error .panic
        | rounds + 1 => do
            let prevTipInfo ← db.mainParentHeaderInfo tipInfo
            let block ← db.getMainBlockInfo tipInfo.blockHash
            let db ← db.disconnectTip prevTipInfo block.bmmCommitment
            syncDisconnect commonAncestor rounds db prevTipInfo

def syncConnectOne (state : ArchiveDb B × Option MainHeaderInfo) (headerInfo : MainHeaderInfo) :
    Except ArchiveDbError (ArchiveDb B × Option MainHeaderInfo) := do
  let block ← state.1.getMainBlockInfo headerInfo.blockHash
  let bmmCommitment ← state.1.activeCommitment headerInfo.blockHash block
  let db ← state.1.connectTip headerInfo bmmCommitment
  .ok (db, some headerInfo)

/-- Connect batch by batch until the mainchain tip is reached. -/
def syncConnect (mainchainTip : MainBlockHash) :
    Nat → ArchiveDb B × Option MainHeaderInfo → Except ArchiveDbError (ArchiveDb B)
  | rounds, state =>
      if state.2.elim allZeros (·.blockHash) = mainchainTip then .ok state.1
      else
        match rounds with
        | 0 => .error .panic
        | rounds + 1 => do
            let headerInfos ← state.1.mainAncestorBatch mainchainTip
              (state.2.elim 0 (·.height + 1))
            let state ← headerInfos.foldlM syncConnectOne state
            syncConnect mainchainTip rounds state

/-- Move to the given mainchain tip. Each of the two loops takes at most `rounds` rounds. -/
def syncSideTipsToTip (db : ArchiveDb B) (mainchainTip : MainBlockHash) (rounds : Nat) :
    Except ArchiveDbError (ArchiveDb B) := do
  let commonAncestor ← db.syncAncestor mainchainTip
  let state ← syncDisconnect commonAncestor rounds db db.sideTips.mainchainTip.tipInfo
  syncConnect mainchainTip rounds state

end ArchiveDb

/-- The operations on the archive that the tasks of the node carry out. -/
inductive NodeOp (B : Type) where
  | putHeader (header : Header)
  | putBody (blockHash : BlockHash) (body : B)
  | deleteBody (blockHash : BlockHash)
  | invalidateBlock (blockHash : BlockHash)
  | putMainHeaderInfo (headerInfo : MainHeaderInfo)
  | putMainBlockInfo (main : MainBlockHash) (block : MainBlockInfo)
  | connectBlock (headerInfo : MainHeaderInfo) (block : MainBlockInfo)
  | disconnectBlock (blockHash : MainBlockHash)
  | syncSideTipsToTip (mainchainTip : MainBlockHash) (rounds : Nat)

namespace NodeOp

variable (hashes : Hashes)

def apply (db : ArchiveDb B) : NodeOp B → Except ArchiveDbError (ArchiveDb B)
  | putHeader header => db.putHeader hashes.headerHash header
  | putBody blockHash body => db.putBody blockHash body
  | deleteBody blockHash => db.deleteBody blockHash
  | invalidateBlock blockHash => .ok (db.invalidateBlock blockHash)
  | putMainHeaderInfo headerInfo => db.putMainHeaderInfo headerInfo
  | putMainBlockInfo main block => db.putMainBlockInfo main block
  | connectBlock headerInfo block => db.handleConnectBlock headerInfo block
  | disconnectBlock blockHash => db.handleDisconnectBlock blockHash
  | syncSideTipsToTip mainchainTip rounds => db.syncSideTipsToTip mainchainTip rounds

/-- What the mainchain node reports of a block is what its hash stands for. -/
def Authentic : NodeOp B → Prop
  | putMainHeaderInfo headerInfo => ArchiveDb.AuthenticHeader hashes headerInfo
  | putMainBlockInfo main block => block = hashes.mainBlock main
  | connectBlock headerInfo block =>
      ArchiveDb.AuthenticHeader hashes headerInfo ∧ block = hashes.mainBlock headerInfo.blockHash
  | _ => True

/-- A failed operation aborts the write transaction around it. -/
def step (db : ArchiveDb B) (op : NodeOp B) : ArchiveDb B :=
  (op.apply hashes db).toOption.getD db

/-- The archive after a sequence of operations from a new archive. -/
def run (ops : List (NodeOp B)) : ArchiveDb B :=
  ops.foldl (step hashes) .new

end NodeOp

section

variable {tips tips' : SideTips} {headerInfo : MainHeaderInfo}

theorem connectMainchainTip_eq_ok {bmmCommitment : Option BmmCommitment}
    (h : tips.connectMainchainTip headerInfo bmmCommitment = .ok tips') :
    headerInfo.prevBlockHash = tips.mainchainTip.blockHash ∧
      ∃ connected, (match bmmCommitment with
        | some commitment => tips.connectSidechainTip headerInfo.blockHash
            (tips.mainchainTip.cumulativeWork + headerInfo.work)
            commitment.sidechainBlockHash commitment.sidechainHeaderData
        | none => .ok tips) = .ok connected ∧
      tips' = { connected with
        mainchainTip := ⟨tips.mainchainTip.cumulativeWork + headerInfo.work,
          some headerInfo⟩ } := by
  obtain ⟨_, hcheck, h⟩ := bind_eq_ok_iff.mp h
  obtain ⟨_, hprev, -⟩ := bind_eq_ok_iff.mp hcheck
  refine ⟨ensure_eq_ok_iff.mp hprev, ?_⟩
  cases bmmCommitment with
  | none => exact ⟨tips, rfl, (Except.ok.inj h).symm⟩
  | some commitment =>
      obtain ⟨connected, hconnected, h⟩ := bind_eq_ok_iff.mp h
      exact ⟨connected, hconnected, (Except.ok.inj h).symm⟩

theorem disconnectMainchainTip_eq_ok {prevTipInfo : Option MainHeaderInfo}
    {bmmCommitment : Option BlockHash}
    (h : tips.disconnectMainchainTip prevTipInfo bmmCommitment = .ok tips') :
    ∃ tipInfo newTip, tips.mainchainTip.tipInfo = some tipInfo ∧
      SideTips.newTipInfo tipInfo prevTipInfo = .ok newTip ∧
        ∃ disconnected, (match bmmCommitment with
          | some sideBlockHash => tips.disconnectCommitment tipInfo.blockHash sideBlockHash
          | none => .ok tips) = .ok disconnected ∧
        tips' = { disconnected with
          mainchainTip := ⟨tips.mainchainTip.cumulativeWork - tipInfo.work, newTip⟩ } := by
  obtain ⟨tipInfo, htipInfo, h⟩ := bind_eq_ok_iff.mp h
  obtain ⟨newTip, hnewTip, h⟩ := bind_eq_ok_iff.mp h
  refine ⟨tipInfo, newTip, okOr_eq_ok_iff.mp htipInfo, hnewTip, ?_⟩
  cases bmmCommitment with
  | none => exact ⟨tips, rfl, (Except.ok.inj h).symm⟩
  | some sideBlockHash =>
      obtain ⟨disconnected, hdisconnected, h⟩ := bind_eq_ok_iff.mp h
      exact ⟨disconnected, hdisconnected, (Except.ok.inj h).symm⟩

end

namespace ArchiveDb

variable {hashes : Hashes} {db db' : ArchiveDb B}

theorem connectTip_eq_ok {headerInfo : MainHeaderInfo} {bmmCommitment : Option BmmCommitment}
    (h : db.connectTip headerInfo bmmCommitment = .ok db') :
    ∃ tips, db.sideTips.connectMainchainTip headerInfo bmmCommitment = .ok tips ∧
      db' = { db with sideTips := tips } := by
  obtain ⟨tips, htips, hdb⟩ := bind_eq_ok_iff.mp h
  exact ⟨tips, mapError_eq_ok_iff.mp htips, (Except.ok.inj hdb).symm⟩

theorem disconnectTip_eq_ok {prevTipInfo : Option MainHeaderInfo}
    {bmmCommitment : Option BlockHash} (h : db.disconnectTip prevTipInfo bmmCommitment = .ok db') :
    ∃ tips, db.sideTips.disconnectMainchainTip prevTipInfo bmmCommitment = .ok tips ∧
      db' = { db with sideTips := tips } := by
  obtain ⟨tips, htips, hdb⟩ := bind_eq_ok_iff.mp h
  exact ⟨tips, mapError_eq_ok_iff.mp htips, (Except.ok.inj hdb).symm⟩

end ArchiveDb

end Truthcoin.Archiving
