import Truthcoin.BetterTip
import Truthcoin.Ancestors
import Truthcoin.Connect
import Truthcoin.Disconnect
import Truthcoin.PegSlices
import Truthcoin.PegRebuild
import Truthcoin.PoolReturn

/-!
# The net task

A node with its archive, its state and its memory pool: how it connects a block to its tip,
how it disconnects its tip, how it re-orgs to another tip, and what makes it do so.
-/

namespace Truthcoin.Archiving

open Std Truthcoin.Types Truthcoin.Table Truthcoin.Fallible Truthcoin.Blocks
open Truthcoin.Mainchain Truthcoin.Lineage Truthcoin.PegSlices Truthcoin.Mempool
open Truthcoin.Decisions Truthcoin.TwoWayPeg Truthcoin.Authorizing

variable {B : Type}

namespace ArchiveDb

section

variable (db : ArchiveDb B)
  /- The entries of a hash map in the order of its iteration. -/
  (iter : Table MainBlockHash BmmResult → List (MainBlockHash × BmmResult))

/-- `max_by_key` of the total work: the last of the greatest blocks. -/
def greatestWork : List MainBlockHash → Except ArchiveDbError (Option MainBlockHash)
  | [] => .ok none
  | mainHash :: rest => do
      let first ← db.getTotalWork mainHash
      let best ← rest.foldlM (fun best mainHash => do
        let work ← db.getTotalWork mainHash
        .ok (if work < best.1 then best else (work, mainHash))) (first, mainHash)
      .ok (some best.2)

def tryGetBestMainVerification (blockHash : BlockHash) :
    Except ArchiveDbError (Option MainBlockHash) :=
  db.greatestWork ((iter (db.getBmmResults blockHash)).filterMap fun row =>
    if row.2 = .verified then some row.1 else none)

def getBestMainVerification (blockHash : BlockHash) : Except ArchiveDbError MainBlockHash := do
  okOr (← db.tryGetBestMainVerification iter blockHash) (.noBmmResult blockHash)

/-- The mainchain ancestors of a block before the given one, newest first. -/
def mainAncestorsUntil (stop : Option MainBlockHash) :
    Nat → MainBlockHash → Except ArchiveDbError (List MainBlockHash)
  | 0, blockHash => if blockHash = allZeros then .ok [] else .error .panic
  | fuel + 1, blockHash =>
      if blockHash = allZeros then .ok []
      else do
        let info ← db.getMainHeaderInfo blockHash
        if some info.blockHash = stop then .ok []
        else do
          let rest ← mainAncestorsUntil stop fuel info.prevBlockHash
          .ok (info.blockHash :: rest)

/-- As many rounds as a walk over the ancestors of a mainchain block takes. -/
def mainAncestorRounds (blockHash : MainBlockHash) : Nat :=
  db.mainBlockHashToHeight[blockHash]?.getD 0 + 1

/-- The mainchain ancestors before the given block with their events, newest first. -/
def mainInfosUntil (stop : Option MainBlockHash) (blockHash : MainBlockHash) :
    Except ArchiveDbError (List BlockInfo) := do
  let ancestors ← db.mainAncestorsUntil stop (db.mainAncestorRounds blockHash) blockHash
  ancestors.mapM fun ancestor => do
    let info ← db.getMainBlockInfo ancestor
    .ok ⟨ancestor, info.events⟩

/-- The ancestors of a block before the given one with their bodies, newest first. -/
def blocksUntil (stop : Option BlockHash) :
    Nat → Option BlockHash → Except ArchiveDbError (List (Header × B))
  | _, none => .ok []
  | 0, some _ => .error .panic
  | fuel + 1, some blockHash => do
      let header ← db.getHeader blockHash
      if some blockHash = stop then .ok []
      else do
        let body ← db.getBody blockHash
        let rest ← blocksUntil stop fuel header.prevSideHash
        .ok ((header, body) :: rest)

/-- What the validation of a block reads of the archive. -/
def lookups : Archive where
  tryGetHeight blockHash := db.blockHashToHeight[blockHash]?
  isDescendant ancestor descendant :=
    match db.isDescendant ancestor descendant with
    | .ok descends => descends
    | .error _ => false

/-- The one of the last mainchain blocks with a deposit and with a withdrawal bundle event that
was applied with the newer block, or the older one if both were applied with one block. -/
def startBlockHash (deposit event : Option (MainBlockHash × Nat)) :
    Except ArchiveDbError (Option MainBlockHash) :=
  match deposit, event with
  | none, none => .ok none
  | some (blockHash, _), none => .ok (some blockHash)
  | none, some (blockHash, _) => .ok (some blockHash)
  | some (depositBlock, depositHeight), some (eventBlock, eventHeight) =>
      match compare depositHeight eventHeight with
      | .lt => .ok (some eventBlock)
      | .gt => .ok (some depositBlock)
      | .eq => do
          if ← db.isMainDescendant eventBlock depositBlock then .ok (some eventBlock)
          else if ← db.isMainDescendant depositBlock eventBlock then .ok (some depositBlock)
          else .error .panic

/-- The peg data of a tip that is disconnected. -/
def rebuildPegData (dbs : PegDbs) (height : Nat) (tipHeader : Header) :
    Except ArchiveDbError TwoWayPegData := do
  let start ← db.startBlockHash (PegRebuild.lastApplied dbs.depositBlocks height)
    (PegRebuild.lastApplied dbs.withdrawalBundleEventBlocks height)
  let infos ← db.mainInfosUntil start tipHeader.prevMainHash
  .ok ⟨(infos.filter PegRebuild.hasEvents).reverse⟩

/-- A new tip is better than no tip. -/
def betterThanCurrent (tip : Option Tip) (newTip : Tip) : Except ArchiveDbError (Option Tip) :=
  match tip with
  | none => .ok (some newTip)
  | some tip => db.betterTip tip newTip

def commonAncestorOfTips (tip : Option Tip) (newTip : Tip) :
    Except ArchiveDbError (Option BlockHash) :=
  match tip with
  | none => .ok none
  | some tip => db.lastCommonAncestor tip.blockHash newTip.blockHash

/-- The mainchain block that a block names, which ends the peg data of the blocks after it. -/
def prevMainHashOf (blockHash : Option BlockHash) :
    Except ArchiveDbError (Option MainBlockHash) :=
  match blockHash with
  | none => .ok none
  | some blockHash => do
      let header ← db.getHeader blockHash
      .ok (some header.prevMainHash)

/-- The number of tips to disconnect to get to the common ancestor. -/
def disconnects (tipHeight : Option Nat) (commonAncestor : Option BlockHash) :
    Except ArchiveDbError Nat :=
  match tipHeight, commonAncestor with
  | none, _ => .ok 0
  | some tipHeight, none => .ok (tipHeight + 1)
  | some tipHeight, some commonAncestor => do
      let commonAncestorHeight ← db.getHeight commonAncestor
      if tipHeight < commonAncestorHeight then .error .panic
      else .ok (tipHeight - commonAncestorHeight)

end

end ArchiveDb

inductive ReorgInvariant where
  | afterDisconnect (tipHash commonAncestor : Option BlockHash)
  | missingTip
  | afterReorg (tip : Option BlockHash) (expected : BlockHash)
  deriving DecidableEq, Repr

inductive NetTaskError where
  | archive (e : ArchiveDbError)
  | malformedBody
  | memPool (e : MempoolError)
  | reorgInvariant (reason : ReorgInvariant)
  | state (e : Error)
  deriving DecidableEq

/-- An invalid block of a peer is not fatal. -/
def NetTaskError.isFatalReorgError : NetTaskError → Bool
  | .state _ => false
  | _ => true

structure Node (F : Type) where
  archive : ArchiveDb (Body F)
  mempool : MemPool F
  state : State F

/-- What is known before the tip is disconnected. The blocks to apply are newest first. -/
structure ReorgPlan (F : Type) where
  tip : Option Tip
  commonAncestor : Option BlockHash
  blocksToApply : List (Header × Body F)
  disconnects : Nat

/-- The blocks that were disconnected and the blocks that were connected, in this order. -/
structure ReorgTrace where
  disconnected : List BlockHash
  connected : List BlockHash
  deriving DecidableEq, Repr

namespace Node

section

variable {F : Type} [F64 F] [DecidableEq F] (L : Library F) (config : DecisionConfig)
  (lib : WithdrawalBundle.BundleLib)
  (iter : Table MainBlockHash BmmResult → List (MainBlockHash × BmmResult)) (node : Node F)

/-- `connect_tip_` -/
def connectTip (header : Header) (body : Body F) (twoWayPegData : TwoWayPegData) :
    Except NetTaskError (Node F) := do
  let pre ← (Validation.prevalidate L config node.archive.lookups node.state header
    body).mapError .state
  let bmmMainHash ← (node.archive.getBestMainVerification iter
    (L.headerHash header)).mapError .archive
  let info ← (node.archive.getMainHeaderInfo bmmMainHash).mapError .archive
  let state ← (Connect.connectPrevalidated L config node.state
    ⟨header, body, info.timestamp⟩ pre).mapError .state
  let state ← (state.connectTwoWayPegData lib twoWayPegData).mapError .state
  let archive ← (node.archive.putHeader L.headerHash header).mapError .archive
  let archive ← (archive.putBody (L.headerHash header) body).mapError .archive
  .ok ⟨archive, node.mempool.connectTip L body.transactions, state⟩

/-- `disconnect_tip_` -/
def disconnectTip : Except NetTaskError (Node F) := do
  let tipBlockHash ← okOr node.state.tip (.state .noTip)
  let tipHeader ← (node.archive.getHeader tipBlockHash).mapError .archive
  let tipBody ← (node.archive.getBody tipBlockHash).mapError .archive
  let height ← okOr node.state.height (.state .noTip)
  let twoWayPegData ←
    (node.archive.rebuildPegData node.state.peg height tipHeader).mapError .archive
  let state ← (node.state.disconnectTwoWayPegData twoWayPegData).mapError .state
  let state ← (Disconnect.disconnectTip L state tipHeader tipBody).mapError .state
  let transactions ← okOr (authorizedTransactions tipBody) .malformedBody
  let mempool ← (node.mempool.disconnectTip L transactions).mapError .memPool
  .ok ⟨node.archive, mempool, state⟩

/-- The tip of the state with its best verification. -/
def currentTip : Except ArchiveDbError (Option Tip) :=
  match node.state.tip with
  | none => .ok none
  | some tipHash => do
      let bmmVerification ← node.archive.getBestMainVerification iter tipHash
      .ok (some ⟨tipHash, bmmVerification⟩)

/-- The block of the new tip and its ancestors before the common one, newest first. -/
def blocksToApply (commonAncestor : Option BlockHash) (newTip : BlockHash) :
    Except ArchiveDbError (List (Header × Body F)) := do
  let header ← node.archive.getHeader newTip
  let body ← node.archive.getBody newTip
  let ancestors ← node.archive.blocksUntil commonAncestor
    (node.archive.blockHashToHeight[newTip]?.getD 0) header.prevSideHash
  .ok ((header, body) :: ancestors)

/-- What a re-org to the new tip does first, if that is better than the current tip. -/
def reorgPlan (newTip : Tip) : Except ArchiveDbError (Option (ReorgPlan F)) := do
  let tip ← node.currentTip iter
  let better ← node.archive.betterThanCurrent tip newTip
  if better ≠ some newTip then .ok none
  else do
    let commonAncestor ← node.archive.commonAncestorOfTips tip newTip
    let blocks ← node.blocksToApply commonAncestor newTip.blockHash
    let disconnects ← node.archive.disconnects node.state.height commonAncestor
    .ok (some ⟨tip, commonAncestor, blocks, disconnects⟩)

/-- Disconnect a number of tips, with the blocks that they are. -/
def disconnectTips : Nat → Node F → Except NetTaskError (Node F × List BlockHash)
  | 0, node => .ok (node, [])
  | n + 1, node => do
      let next ← node.disconnectTip L
      let (last, blocks) ← disconnectTips n next
      .ok (last, node.state.tip.toList ++ blocks)

/-- The comparison after a block, whose result changes nothing. -/
def compareConnected (tip : Option Tip) : Except NetTaskError Unit := do
  let newTipHash ← okOr node.state.tip (.reorgInvariant .missingTip)
  let bmmVerification ←
    (node.archive.getBestMainVerification iter newTipHash).mapError .archive
  match tip with
  | none => .ok ()
  | some tip => do
      let _ ← (node.archive.betterTip tip ⟨newTipHash, bmmVerification⟩).mapError .archive
      .ok ()

/-- Connect blocks, oldest first, each with its slice of the peg data. An error comes with the
header of the block that did not connect. -/
def connectBlocks (tip : Option Tip) : List BlockInfo → List (Header × Body F) → Node F →
    Except (NetTaskError × Option Header) (Node F × List BlockHash)
  | _, [], node => .ok (node, [])
  | batch, (header, body) :: blocks, node => do
      let (slice, rest) := fill header.prevMainHash batch
      let next ← (node.connectTip L config lib iter header body ⟨slice⟩).mapError fun e =>
        (e, some header)
      (next.compareConnected iter tip).mapError fun e => (e, none)
      let (last, connected) ← connectBlocks tip rest blocks next
      .ok (last, L.headerHash header :: connected)

/-- The peg data from the common ancestor to the block that the new tip names, oldest first. -/
def twoWayPegDataBatch (plan : ReorgPlan F) : Except ArchiveDbError (List BlockInfo) := do
  let stop ← node.archive.prevMainHashOf plan.commonAncestor
  match plan.blocksToApply with
  | [] => .ok []
  | (newTip, _) :: _ => do
      let infos ← node.archive.mainInfosUntil stop newTip.prevMainHash
      .ok infos.reverse

/-- The part of a re-org that one transaction commits. -/
def tryReorg (newTip : Tip) :
    Except (NetTaskError × Option Header) (Option (Node F × ReorgTrace)) :=
  match node.reorgPlan iter newTip with
  | .error e => .error (.archive e, none)
  | .ok none => .ok none
  | .ok (some plan) => do
      let (base, disconnected) ← (disconnectTips L plan.disconnects node).mapError fun e =>
        (e, none)
      if base.state.tip ≠ plan.commonAncestor then
        .error (.reorgInvariant (.afterDisconnect base.state.tip plan.commonAncestor), none)
      else do
        let batch ← (base.twoWayPegDataBatch plan).mapError fun e => (.archive e, none)
        let (last, connected) ←
          connectBlocks L config lib iter plan.tip batch plan.blocksToApply.reverse base
        if last.state.tip ≠ some newTip.blockHash then
          .error (.reorgInvariant (.afterReorg last.state.tip newTip.blockHash), none)
        else .ok (some (last, ⟨disconnected, connected⟩))

/-- `reorg_to_tip`: the result is whether there was a re-org. If a block of a peer does not
connect, its body is deleted and nothing else changes. -/
def reorgToTip (newTip : Tip) : Node F × Except NetTaskError Bool :=
  match node.tryReorg L config lib iter newTip with
  | .ok none => (node, .ok false)
  | .ok (some (last, _)) => (last, .ok true)
  | .error (e, none) => (node, .error e)
  | .error (e, some header) =>
      if e.isFatalReorgError then (node, .error e)
      else
        match node.archive.deleteBody (L.headerHash header) with
        | .ok archive => ({ node with archive }, .error e)
        | .error e' => (node, .error (.archive e'))

/-- A new tip is tried if it is a sidechain tip of the mainchain's tip. -/
def newTipReady (newTip : Tip) : Node F × Except NetTaskError Bool :=
  if newTip.blockHash ∈ node.archive.sideTips.sidechainTips then
    match node.archive.isMainDescendant newTip.mainBlockHash
        node.archive.sideTips.mainchainTip.blockHash with
    | .ok true => node.reorgToTip L config lib iter newTip
    | .ok false => (node, .ok false)
    | .error e => (node, .error (.archive e))
  else (node, .ok false)

/-- Disconnect tips until one is a sidechain tip. -/
def disconnectStale : Nat → Node F → Except NetTaskError (Node F)
  | 0, node => .ok node
  | rounds + 1, node =>
      match node.state.tip with
      | none => .ok node
      | some tip =>
          if tip ∈ node.archive.sideTips.sidechainTips then .ok node
          else do
            let next ← node.disconnectTip L
            disconnectStale rounds next

/-- `handle_mainchain_block_event` -/
def mainchainBlockEvent : Node F × Except NetTaskError Unit :=
  match disconnectStale L (node.state.height.elim 0 (· + 1)) node with
  | .error e => (node, .error e)
  | .ok next =>
      match next.archive.sideTips.bestSideTip with
      | none => (next, .ok ())
      | some best =>
          let (last, result) := next.reorgToTip L config lib iter
            ⟨best.blockHash, best.info.mainBlockHash⟩
          (last, result.map fun _ => ())

/-- What `handle_response` does with a block before it looks for new tips: the body is stored
if the header is that of the requested block. -/
def storeResponse (blockHash : BlockHash) (header : Header) (body : Body F) : Node F :=
  if L.headerHash header = blockHash then
    match node.archive.putBody blockHash body with
    | .ok archive => { node with archive }
    | .error _ => node
  else node

end

end Node

end Truthcoin.Archiving
