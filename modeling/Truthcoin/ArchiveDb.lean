import Truthcoin.Lineage
import Truthcoin.SideTips

/-!
# The tables of the archive

Headers, bodies and BMM results of sidechain blocks, headers and blocks of the
mainchain, and the sidechain tips, with the operations that write them. A failed
operation aborts the write transaction around it.
-/

namespace Truthcoin.Archiving

open Truthcoin.Types Truthcoin.Table Truthcoin.Fallible Truthcoin.Blocks
open Truthcoin.Mainchain Truthcoin.Lineage

inductive ArchiveDbError where
  | noBlockHash (blockHash : Option BlockHash)
  | noBmmResult (blockHash : BlockHash)
  | noBody (blockHash : BlockHash)
  | noHeader (blockHash : BlockHash)
  | noHeight (blockHash : BlockHash)
  | noAncestor (blockHash : BlockHash) (depth : Nat)
  | noExponentialAncestors (blockHash : BlockHash)
  | noMainBlockHash (blockHash : MainBlockHash)
  | noMainBlockInfo (blockHash : MainBlockHash)
  | noMainHeaderInfo (blockHash : MainBlockHash)
  | noMainHeight (blockHash : MainBlockHash)
  | noMainAncestor (blockHash : MainBlockHash) (depth : Nat)
  | noExponentialMainAncestors (blockHash : MainBlockHash)
  | invalidPrevSideHash
  | sideTips (err : SideTipsError)
  | panic
  deriving DecidableEq, Repr

instance : TableKey (Option BlockHash) where
  encode h := h.elim [0] fun h => [1, h]
  encode_injective := by
    intro a b h
    cases a <;> cases b <;> simp_all

/-- The tables of the archive, with bodies of type `B`. -/
structure ArchiveDb (B : Type) where
  blockHashToHeight : Table BlockHash Nat
  /-- BMM results for each header. A block can have commitments in several mainchain
  blocks. -/
  bmmResults : Table BlockHash (Table MainBlockHash BmmResult)
  bodies : Table BlockHash B
  exponentialAncestors : Table BlockHash (List BlockHash)
  exponentialMainAncestors : Table MainBlockHash (List MainBlockHash)
  headers : Table BlockHash Header
  invalidBlocks : Table BlockHash Unit
  mainBlockHashToHeight : Table MainBlockHash Nat
  mainBlockInfos : Table MainBlockHash MainBlockInfo
  mainHeaderInfos : Table MainBlockHash MainHeaderInfo
  /-- The elements of each hash set in the order of its iteration. -/
  mainSuccessors : Table MainBlockHash (List MainBlockHash)
  sideTips : SideTips
  /-- The elements of each hash set in the order of its iteration. -/
  successors : Table (Option BlockHash) (List BlockHash)
  totalWork : Table MainBlockHash Nat

variable {B : Type}

namespace ArchiveDb

/-- A new archive knows only the parents of the first blocks. -/
def new : ArchiveDb B where
  blockHashToHeight := ∅
  bmmResults := ∅
  bodies := ∅
  exponentialAncestors := ∅
  exponentialMainAncestors := ∅
  headers := ∅
  invalidBlocks := ∅
  mainBlockHashToHeight := ∅
  mainBlockInfos := ∅
  mainHeaderInfos := ∅
  mainSuccessors := (∅ : Table MainBlockHash (List MainBlockHash)).insert allZeros []
  sideTips := .empty
  successors := (∅ : Table (Option BlockHash) (List BlockHash)).insert none []
  totalWork := ∅

section

variable (db : ArchiveDb B)

def getHeight (h : BlockHash) : Except ArchiveDbError Nat :=
  okOr db.blockHashToHeight[h]? (.noHeight h)

def getHeader (h : BlockHash) : Except ArchiveDbError Header :=
  okOr db.headers[h]? (.noHeader h)

def getBody (h : BlockHash) : Except ArchiveDbError B :=
  okOr db.bodies[h]? (.noBody h)

def getBmmResults (h : BlockHash) : Table MainBlockHash BmmResult :=
  db.bmmResults[h]?.getD ∅

def getBmmResult (h : BlockHash) (main : MainBlockHash) : Except ArchiveDbError BmmResult :=
  okOr (db.getBmmResults h)[main]? (.noBmmResult h)

def getMainBlockInfo (h : MainBlockHash) : Except ArchiveDbError MainBlockInfo :=
  okOr db.mainBlockInfos[h]? (.noMainBlockInfo h)

def getMainHeight (h : MainBlockHash) : Except ArchiveDbError Nat :=
  okOr db.mainBlockHashToHeight[h]? (.noMainHeight h)

def getMainHeaderInfo (h : MainBlockHash) : Except ArchiveDbError MainHeaderInfo :=
  okOr db.mainHeaderInfos[h]? (.noMainHeaderInfo h)

def getTotalWork (h : MainBlockHash) : Except ArchiveDbError Nat :=
  okOr db.totalWork[h]? (.noMainHeaderInfo h)

def getMainSuccessors (h : MainBlockHash) : Except ArchiveDbError (List MainBlockHash) :=
  okOr db.mainSuccessors[h]? (.noMainBlockHash h)

def getSuccessors (h : Option BlockHash) : Except ArchiveDbError (List BlockHash) :=
  okOr db.successors[h]? (.noBlockHash h)

/-- The parent of a mainchain block, or none for a first one. -/
def mainParent (info : MainHeaderInfo) : Option MainBlockHash :=
  if info.prevBlockHash = allZeros then none else some info.prevBlockHash

/-- The sidechain headers with what is stored about their ancestors. -/
def sideIndex : Index BlockHash where
  parent h := db.headers[h]?.map Header.prevSideHash
  height h := db.blockHashToHeight[h]?
  row h := db.exponentialAncestors[h]?

/-- The mainchain headers with what is stored about their ancestors. -/
def mainIndex : Index MainBlockHash where
  parent h := db.mainHeaderInfos[h]?.map mainParent
  height h := db.mainBlockHashToHeight[h]?
  row h := db.exponentialMainAncestors[h]?

def sideFaults : Faults BlockHash ArchiveDbError where
  noHeight := .noHeight
  noHeader := .noHeader
  noRow := .noExponentialAncestors
  noAncestor := .noAncestor
  orphan := .error .panic
  panic := .panic

def mainFaults : Faults MainBlockHash ArchiveDbError where
  noHeight := .noMainHeight
  noHeader := .noMainHeaderInfo
  noRow := .noExponentialMainAncestors
  noAncestor := .noMainAncestor
  orphan := .ok allZeros
  panic := .panic

def getNthAncestor (h : BlockHash) (n : Nat) : Except ArchiveDbError BlockHash :=
  db.sideIndex.nthAncestor sideFaults h n

def getNthMainAncestor (h : MainBlockHash) (n : Nat) : Except ArchiveDbError MainBlockHash :=
  db.mainIndex.nthAncestor mainFaults h n

def isMainDescendant (ancestor descendant : MainBlockHash) : Except ArchiveDbError Bool :=
  db.mainIndex.isDescendant mainFaults ancestor descendant

def lastCommonMainAncestor (block0 block1 : MainBlockHash) :
    Except ArchiveDbError MainBlockHash :=
  db.mainIndex.lastCommonAncestor mainFaults block0 block1

def sharedMainchainLineage (block0 block1 : MainBlockHash) : Except ArchiveDbError Bool :=
  db.mainIndex.sharedLineage mainFaults block0 block1

def mainParentHeaderInfo (info : MainHeaderInfo) :
    Except ArchiveDbError (Option MainHeaderInfo) :=
  if info.prevBlockHash = allZeros then .ok none
  else do
    let parent ← db.getMainHeaderInfo info.prevBlockHash
    .ok (some parent)

/-- `any` over the BMM results of a parent: whether it is verified at an ancestor. -/
def parentVerifiedAt (main : MainBlockHash) :
    List (MainBlockHash × BmmResult) → Except ArchiveDbError Bool
  | [] => .ok false
  | (bmmBlock, .verified) :: rest => do
      if ← db.isMainDescendant bmmBlock main then .ok true else parentVerifiedAt main rest
  | (_, .failed) :: rest => parentVerifiedAt main rest

/-- Verified when there is no parent or the parent is verified at an ancestor. -/
def bmmResultAfter (parent : Option BlockHash) (main : MainBlockHash) :
    Except ArchiveDbError BmmResult :=
  match parent with
  | none => .ok .verified
  | some parent => do
      if ← db.parentVerifiedAt main (db.getBmmResults parent).toList then .ok .verified
      else .ok .failed

end

/-- Add a block to the successors of its predecessor, and store its own successors. -/
def linkSuccessor {K V : Type} [TableKey K] [DecidableEq V] (successors : Table K (List V))
    (pred own : K) (predSuccessors : List V) (block : V) : Table K (List V) :=
  let successors := successors.insert pred (predSuccessors.insert block)
  successors.insert own (successors[own]?.getD [])

section

variable (headerHash : Header → BlockHash)

/-- The height of a child of the given block. -/
def heightAfter (db : ArchiveDb B) (prevSideHash : Option BlockHash) :
    Except ArchiveDbError Nat :=
  match prevSideHash with
  | none => .ok 0
  | some parent => do
      let height ← okOr db.blockHashToHeight[parent]? .invalidPrevSideHash
      .ok (height + 1)

/-- The result of a header at a child of the mainchain block that it names. -/
def headerBmmResult (db : ArchiveDb B) (header : Header) (main : MainBlockHash) :
    Except ArchiveDbError BmmResult := do
  let block ← db.getMainBlockInfo main
  match block.bmmCommitment with
  | none => .ok .failed
  | some commitment =>
      if commitment ≠ headerHash header then .ok .failed
      else do
        let info ← db.getMainHeaderInfo main
        if header.prevMainHash ≠ info.prevBlockHash then .ok .failed
        else db.bmmResultAfter header.prevSideHash main

def populateBmm (db : ArchiveDb B) (header : Header) (results : Table MainBlockHash BmmResult)
    (main : MainBlockHash) : Except ArchiveDbError (Table MainBlockHash BmmResult) := do
  let result ← headerBmmResult headerHash db header main
  .ok (results.insert main result)

/-- The archive with a header, its height and its place among the successors. -/
def linkHeader (db : ArchiveDb B) (header : Header) (height : Nat)
    (predSuccessors : List BlockHash) : ArchiveDb B :=
  let blockHash := headerHash header
  { db with
    blockHashToHeight := db.blockHashToHeight.insert blockHash height
    headers := db.headers.insert blockHash header
    successors := linkSuccessor db.successors header.prevSideHash (some blockHash)
      predSuccessors blockHash }

def withSideRow (db : ArchiveDb B) (blockHash : BlockHash) (row : List BlockHash) :
    ArchiveDb B :=
  { db with exponentialAncestors := db.exponentialAncestors.insert blockHash row }

def withBmmResults (db : ArchiveDb B) (blockHash : BlockHash)
    (results : Table MainBlockHash BmmResult) : ArchiveDb B :=
  { db with bmmResults := db.bmmResults.insert blockHash results }

/-- Store a header. Ancestor headers must be stored, and so must the blocks that are
children of the mainchain block that the header names. -/
def putHeader (db : ArchiveDb B) (header : Header) : Except ArchiveDbError (ArchiveDb B) := do
  let height ← db.heightAfter header.prevSideHash
  let predSuccessors ← db.getSuccessors header.prevSideHash
  let db := db.linkHeader headerHash header height predSuccessors
  let row ← db.sideIndex.exponentialRow sideFaults height header.prevSideHash
  let db := db.withSideRow (headerHash header) row
  let mainBlocks ← db.getMainSuccessors header.prevMainHash
  let results ← mainBlocks.foldlM (populateBmm headerHash db header)
    (db.getBmmResults (headerHash header))
  .ok (db.withBmmResults (headerHash header) results)

end

/-- The parent of a new mainchain header is known or there is none. -/
def checkMainParent (db : ArchiveDb B) (headerInfo : MainHeaderInfo) :
    Except ArchiveDbError Unit :=
  ensure (headerInfo.prevBlockHash ∈ db.mainHeaderInfos ∨ headerInfo.prevBlockHash = allZeros)
    (.noMainHeaderInfo headerInfo.prevBlockHash)

def mainHeightAfter (db : ArchiveDb B) (headerInfo : MainHeaderInfo) :
    Except ArchiveDbError Nat :=
  if headerInfo.prevBlockHash = allZeros then .ok 0
  else do
    let prevHeight ← db.getMainHeight headerInfo.prevBlockHash
    .ok (prevHeight + 1)

def totalWorkAfter (db : ArchiveDb B) (headerInfo : MainHeaderInfo) :
    Except ArchiveDbError Nat :=
  if headerInfo.prevBlockHash ≠ allZeros then do
    let prevWork ← db.getTotalWork headerInfo.prevBlockHash
    .ok (prevWork + headerInfo.work)
  else .ok headerInfo.work

/-- The archive with a mainchain header, its height, its total work and its place among the
successors. -/
def linkMainHeader (db : ArchiveDb B) (headerInfo : MainHeaderInfo) (height totalWork : Nat)
    (predSuccessors : List MainBlockHash) : ArchiveDb B :=
  let blockHash := headerInfo.blockHash
  { db with
    mainBlockHashToHeight := db.mainBlockHashToHeight.insert blockHash height
    mainHeaderInfos := db.mainHeaderInfos.insert blockHash headerInfo
    totalWork := db.totalWork.insert blockHash totalWork
    mainSuccessors := linkSuccessor db.mainSuccessors headerInfo.prevBlockHash blockHash
      predSuccessors blockHash }

def withMainRow (db : ArchiveDb B) (blockHash : MainBlockHash) (row : List MainBlockHash) :
    ArchiveDb B :=
  { db with exponentialMainAncestors := db.exponentialMainAncestors.insert blockHash row }

def putMainHeaderInfo (db : ArchiveDb B) (headerInfo : MainHeaderInfo) :
    Except ArchiveDbError (ArchiveDb B) := do
  db.checkMainParent headerInfo
  let height ← db.mainHeightAfter headerInfo
  let totalWork ← db.totalWorkAfter headerInfo
  let predSuccessors ← db.getMainSuccessors headerInfo.prevBlockHash
  let db := db.linkMainHeader headerInfo height totalWork predSuccessors
  let row ← db.mainIndex.exponentialRow mainFaults height (some headerInfo.prevBlockHash)
  .ok (db.withMainRow headerInfo.blockHash row)

/-- The result of a known header at a mainchain block that commits to it. -/
def commitmentBmmResult (db : ArchiveDb B) (header : Header) (info : MainHeaderInfo)
    (main : MainBlockHash) : Except ArchiveDbError BmmResult :=
  if header.prevMainHash ≠ info.prevBlockHash then .ok .failed
  else db.bmmResultAfter header.prevSideHash main

def withMainBlock (db : ArchiveDb B) (main : MainBlockHash) (block : MainBlockInfo) :
    ArchiveDb B :=
  { db with mainBlockInfos := db.mainBlockInfos.insert main block }

/-- All ancestors must be present, and the header too. -/
def putMainBlockInfo (db : ArchiveDb B) (main : MainBlockHash) (block : MainBlockInfo) :
    Except ArchiveDbError (ArchiveDb B) := do
  let info ← db.getMainHeaderInfo main
  ensure (info.prevBlockHash = allZeros ∨ info.prevBlockHash ∈ db.mainBlockInfos)
    (.noMainBlockInfo info.prevBlockHash)
  let db := db.withMainBlock main block
  match block.bmmCommitment with
  | none => .ok db
  | some commitment =>
      match db.headers[commitment]? with
      | none => .ok db
      | some header => do
          let result ← db.commitmentBmmResult header info main
          .ok (db.withBmmResults commitment ((db.getBmmResults commitment).insert main result))

/-- Whether a sidechain block has no parent or one that is a tip. -/
def parentIsTip (tips : SideTips) (prevSideHash : Option BlockHash) : Bool :=
  match prevSideHash with
  | some parent => decide (parent ∈ tips.sidechainTips)
  | none => true

/-- Connect a sidechain block at one of its BMM results, if that is on the active chain. -/
def connectAtResult (db : ArchiveDb B) (mainTip : MainBlockHash) (blockHash : BlockHash)
    (header : Header) (acc : SideTips × Bool) (row : MainBlockHash × BmmResult) :
    Except ArchiveDbError (SideTips × Bool) :=
  match row.2 with
  | .failed => .ok acc
  | .verified =>
      if parentIsTip acc.1 header.prevSideHash then do
        if ← db.isMainDescendant row.1 mainTip then do
          let cumulativeWork ← db.getTotalWork row.1
          let tips ← (acc.1.connectSidechainTip row.1 cumulativeWork blockHash
            (headerData header)).mapError .sideTips
          .ok (tips, true)
        else .ok acc
      else .ok acc

/-- Update the side tips for a single sidechain block, and return the blocks to update
next. -/
def updateSideTips (db : ArchiveDb B) (mainTip : MainBlockHash) (tips : SideTips)
    (blockHash : BlockHash) (header : Header) :
    Except ArchiveDbError (SideTips × List BlockHash) := do
  let (tips, connected) ← (db.getBmmResults blockHash).toList.foldlM
    (db.connectAtResult mainTip blockHash header) (tips, false)
  if connected then do
    let successors ← db.getSuccessors (some blockHash)
    .ok (tips, successors)
  else .ok (tips, [])

/-- Update the side tips for the blocks of a queue and for the successors of those that
become tips. -/
def updateQueue (db : ArchiveDb B) (mainTip : MainBlockHash) :
    Nat → SideTips → List BlockHash → Except ArchiveDbError SideTips
  | _, tips, [] => .ok tips
  | 0, _, _ :: _ => .error .panic
  | fuel + 1, tips, blockHash :: queue =>
      if blockHash ∈ db.bodies then do
        let header ← db.getHeader blockHash
        let (tips, successors) ← db.updateSideTips mainTip tips blockHash header
        updateQueue db mainTip fuel tips (queue ++ successors)
      else updateQueue db mainTip fuel tips queue

/-- Store a block body. The header must already exist. Each block enters the queue once, so
there are at most as many rounds as headers. -/
def putBody (db : ArchiveDb B) (blockHash : BlockHash) (body : B) :
    Except ArchiveDbError (ArchiveDb B) := do
  let header ← db.getHeader blockHash
  let db := { db with bodies := db.bodies.insert blockHash body }
  let mainTip := db.sideTips.mainchainTip.blockHash
  let (tips, queue) ← db.updateSideTips mainTip db.sideTips blockHash header
  let tips ← db.updateQueue mainTip db.headers.size tips queue
  .ok { db with sideTips := tips }

theorem size_disconnectSidechainTip_lt {tips : SideTips} {h : BlockHash}
    (hmem : h ∈ tips.sidechainTips) :
    (tips.disconnectSidechainTip h).sidechainTips.size < tips.sidechainTips.size := by
  have hinfo : tips.sidechainTips[h]? = some tips.sidechainTips[h] := by grind
  rw [SideTips.disconnectSidechainTip, hinfo]
  exact size_erase_lt hmem

/-- Disconnect the tips of a queue and their successors. -/
def disconnectQueue (db : ArchiveDb B) (tips : SideTips) (queue : List BlockHash) :
    Except ArchiveDbError SideTips :=
  match queue with
  | [] => .ok tips
  | blockHash :: queue =>
      if _hmem : blockHash ∈ tips.sidechainTips then
        match db.successors[some blockHash]? with
        | none => .error (.noBlockHash (some blockHash))
        | some successors =>
            disconnectQueue db (tips.disconnectSidechainTip blockHash) (queue ++ successors)
      else disconnectQueue db tips queue
  termination_by (tips.sidechainTips.size, queue.length)
  decreasing_by
    · exact Prod.Lex.left _ _ (size_disconnectSidechainTip_lt _hmem)
    · exact Prod.Lex.right _ (by simp)

/-- Delete a stored body, reversing the effects of `putBody`. -/
def deleteBody (db : ArchiveDb B) (blockHash : BlockHash) :
    Except ArchiveDbError (ArchiveDb B) := do
  let tips ← db.disconnectQueue db.sideTips [blockHash]
  .ok { db with bodies := db.bodies.erase blockHash, sideTips := tips }

/-- Take a block out of the successors of its parent. -/
def unlinkSuccessor (successors : Table (Option BlockHash) (List BlockHash))
    (header : Option Header) (blockHash : BlockHash) :
    Table (Option BlockHash) (List BlockHash) :=
  match header with
  | none => successors
  | some header =>
      match successors[header.prevSideHash]? with
      | none => successors
      | some pred => successors.insert header.prevSideHash (pred.erase blockHash)

/-- Delete the header and body of one block, and mark it invalid. The BMM results and the
sidechain tips stay the same. -/
def invalidateOne (db : ArchiveDb B) (blockHash : BlockHash) : ArchiveDb B :=
  { db with
    blockHashToHeight := db.blockHashToHeight.erase blockHash
    bodies := db.bodies.erase blockHash
    exponentialAncestors := db.exponentialAncestors.erase blockHash
    successors :=
      (unlinkSuccessor db.successors db.headers[blockHash]? blockHash).erase (some blockHash)
    headers := db.headers.erase blockHash
    invalidBlocks := db.invalidBlocks.insert blockHash () }

theorem size_unlinkSuccessor {successors : Table (Option BlockHash) (List BlockHash)}
    {header : Option Header} {blockHash : BlockHash} :
    (unlinkSuccessor successors header blockHash).size = successors.size := by
  unfold unlinkSuccessor
  split
  · rfl
  · split
    · rfl
    · rename_i header pred hpred
      rw [Std.ExtTreeMap.size_insert, if_pos (by grind)]

/-- Invalidate the blocks of a stack and their descendants. -/
def invalidateStack (db : ArchiveDb B) (stack : List BlockHash) : ArchiveDb B :=
  match stack with
  | [] => db
  | blockHash :: stack =>
      let successors := unlinkSuccessor db.successors db.headers[blockHash]? blockHash
      match _hsome : successors[some blockHash]? with
      | none => invalidateStack (db.invalidateOne blockHash) stack
      | some children =>
          invalidateStack (db.invalidateOne blockHash) (children.reverse ++ stack)
  termination_by (db.successors.size, stack.length)
  decreasing_by
    · have herase : (db.invalidateOne blockHash).successors.size = db.successors.size := by
        rw [invalidateOne, Std.ExtTreeMap.size_erase, if_neg (by grind), size_unlinkSuccessor]
      rw [herase]
      exact Prod.Lex.right _ (by simp)
    · apply Prod.Lex.left
      have hsize : successors.size = db.successors.size := size_unlinkSuccessor
      rw [invalidateOne, ← hsize]
      exact size_erase_lt (by grind)

/-- Invalidate a block and its descendants. -/
def invalidateBlock (db : ArchiveDb B) (blockHash : BlockHash) : ArchiveDb B :=
  db.invalidateStack [blockHash]

end ArchiveDb

end Truthcoin.Archiving
