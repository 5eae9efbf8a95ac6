import Truthcoin.Mainchain

/-!
# The sidechain tips of the current mainchain

The sidechain blocks that the node can re-org to as of its mainchain tip, with the
mainchain block that commits to each of them, in a table by hash and in a table
ordered by height, then work.
-/

namespace Truthcoin.Archiving

open Truthcoin.Types Truthcoin.Table Truthcoin.Fallible Truthcoin.Blocks
open Truthcoin.Mainchain

/-- A mainchain header with the height that the mainchain node reports. -/
structure MainHeaderInfo extends BlockHeaderInfo where
  height : Nat
  deriving DecidableEq, Repr

structure MainchainTip where
  cumulativeWork : Nat
  tipInfo : Option MainHeaderInfo
  deriving DecidableEq, Repr

def MainchainTip.blockHash (tip : MainchainTip) : MainBlockHash :=
  match tip.tipInfo with
  | some info => info.blockHash
  | none => allZeros

structure SidechainTipInfo where
  sidechainHeight : Nat
  work : Nat
  mainBlockHash : MainBlockHash
  deriving DecidableEq, Repr

/-- Ordered by sidechain height, and then work. The encoding of each field is of fixed
length and most significant byte first, so it is ordered as the field is. -/
instance tipInfoKey : TableKey SidechainTipInfo where
  encode info := [info.sidechainHeight, info.work, info.mainBlockHash]
  encode_injective := by
    rintro ⟨h, w, m⟩ ⟨h', w', m'⟩ heq
    simp only [List.cons.injEq, and_true] at heq
    obtain ⟨rfl, rfl, rfl⟩ := heq
    rfl

structure SidechainTip where
  blockHash : BlockHash
  info : SidechainTipInfo
  deriving DecidableEq, Repr

structure SidechainHeaderData where
  prevSideHash : Option BlockHash
  prevMainHash : MainBlockHash
  deriving DecidableEq, Repr

def headerData (header : Header) : SidechainHeaderData :=
  ⟨header.prevSideHash, header.prevMainHash⟩

structure BmmCommitment where
  sidechainBlockHash : BlockHash
  sidechainHeaderData : SidechainHeaderData
  deriving DecidableEq, Repr

inductive SideTipsError where
  | missingSidechainParent (parent : BlockHash)
  | missingSidechainTip (blockHash : BlockHash)
  | invalidMainchainParent (expected : MainBlockHash)
  | invalidTipHeight (expected : Nat)
  | invalidMainchainParentHeight (tipHeight : Nat)
  | noMainchainTip
  deriving DecidableEq, Repr

/-- State as of the current mainchain tip, excluding sidechain state. -/
structure SideTips where
  mainchainTip : MainchainTip
  sidechainTips : Table BlockHash SidechainTipInfo
  orderedSidechainTips : Table SidechainTipInfo BlockHash

namespace SideTips

def empty : SideTips := ⟨⟨0, none⟩, ∅, ∅⟩

variable (tips : SideTips)

/-- The tip with the greatest key of the ordered table. -/
def bestSideTip : Option SidechainTip :=
  (last tips.orderedSidechainTips).map fun row => ⟨row.2, row.1⟩

/-- One more than the height of the parent, which must be a tip itself. -/
def heightAfter (prevSideHash : Option BlockHash) : Except SideTipsError Nat :=
  match prevSideHash with
  | some parentHash => do
      let parentInfo ← okOr tips.sidechainTips[parentHash]? (.missingSidechainParent parentHash)
      .ok (parentInfo.sidechainHeight + 1)
  | none => .ok 0

/-- A tip that is present stays as it is. -/
def connectSidechainTip (mainBlockHash : MainBlockHash) (cumulativeWork : Nat)
    (sidechainBlockHash : BlockHash) (data : SidechainHeaderData) :
    Except SideTipsError SideTips := do
  let sidechainHeight ← tips.heightAfter data.prevSideHash
  if sidechainBlockHash ∈ tips.sidechainTips then .ok tips
  else
    let info : SidechainTipInfo := ⟨sidechainHeight, cumulativeWork, mainBlockHash⟩
    .ok { tips with
      sidechainTips := tips.sidechainTips.insert sidechainBlockHash info
      orderedSidechainTips := tips.orderedSidechainTips.insert info sidechainBlockHash }

/-- Disconnect a sidechain tip, if it is present. -/
def disconnectSidechainTip (sideBlockHash : BlockHash) : SideTips :=
  match tips.sidechainTips[sideBlockHash]? with
  | none => tips
  | some info =>
      { tips with
        sidechainTips := tips.sidechainTips.erase sideBlockHash
        orderedSidechainTips := tips.orderedSidechainTips.erase info }

/-- The header must be a child of the tip, one higher. -/
def checkMainchainParent (headerInfo : MainHeaderInfo) : Except SideTipsError Unit := do
  ensure (headerInfo.prevBlockHash = tips.mainchainTip.blockHash)
    (.invalidMainchainParent tips.mainchainTip.blockHash)
  match tips.mainchainTip.tipInfo with
  | some tipInfo =>
      ensure (headerInfo.height = tipInfo.height + 1) (.invalidTipHeight (tipInfo.height + 1))
  | none => .ok ()

def connectMainchainTip (headerInfo : MainHeaderInfo) (bmmCommitment : Option BmmCommitment) :
    Except SideTipsError SideTips := do
  tips.checkMainchainParent headerInfo
  let cumulativeWork := tips.mainchainTip.cumulativeWork + headerInfo.work
  let tips ← match bmmCommitment with
    | some commitment =>
        tips.connectSidechainTip headerInfo.blockHash cumulativeWork
          commitment.sidechainBlockHash commitment.sidechainHeaderData
    | none => .ok tips
  .ok { tips with mainchainTip := ⟨cumulativeWork, some headerInfo⟩ }

/-- The new tip when a tip is disconnected down to the given header. -/
def newTipInfo (tipInfo : MainHeaderInfo) (prevTipInfo : Option MainHeaderInfo) :
    Except SideTipsError (Option MainHeaderInfo) :=
  match prevTipInfo with
  | some prev => do
      ensure (prev.blockHash = tipInfo.prevBlockHash)
        (.invalidMainchainParent tipInfo.prevBlockHash)
      ensure (prev.height + 1 = tipInfo.height) (.invalidMainchainParentHeight tipInfo.height)
      .ok (if tipInfo.prevBlockHash ≠ allZeros then some prev else none)
  | none => do
      ensure (tipInfo.prevBlockHash = allZeros) (.invalidMainchainParent tipInfo.prevBlockHash)
      .ok none

/-- Delete a tip from the ordered table if the disconnected block is the one recorded with
it. The table by hash keeps it. -/
def disconnectCommitment (mainBlockHash : MainBlockHash) (sideBlockHash : BlockHash) :
    Except SideTipsError SideTips := do
  let info ← okOr tips.sidechainTips[sideBlockHash]? (.missingSidechainTip sideBlockHash)
  if info.mainBlockHash = mainBlockHash then do
    ensure (info ∈ tips.orderedSidechainTips) (.missingSidechainTip sideBlockHash)
    .ok { tips with orderedSidechainTips := tips.orderedSidechainTips.erase info }
  else .ok tips

def disconnectMainchainTip (prevTipInfo : Option MainHeaderInfo)
    (bmmCommitment : Option BlockHash) : Except SideTipsError SideTips := do
  let tipInfo ← okOr tips.mainchainTip.tipInfo .noMainchainTip
  let newTip ← newTipInfo tipInfo prevTipInfo
  let cumulativeWork := tips.mainchainTip.cumulativeWork
  let tips ← match bmmCommitment with
    | some sideBlockHash => tips.disconnectCommitment tipInfo.blockHash sideBlockHash
    | none => .ok tips
  .ok { tips with mainchainTip := ⟨cumulativeWork - tipInfo.work, newTip⟩ }

end SideTips

end Truthcoin.Archiving
