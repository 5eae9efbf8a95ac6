import Truthcoin.ArchiveRuns

/-!
# The better of two tips

How the archive compares two potential tips. Heights and total works decide when they
agree; otherwise what decides is the newest ancestor of a tip that names a mainchain
block before the last common mainchain ancestor of both.
-/

namespace Truthcoin.Archiving

open Truthcoin.Types Truthcoin.Table Truthcoin.Fallible Truthcoin.Blocks
open Truthcoin.Mainchain Truthcoin.Lineage

/-- A sidechain block with a mainchain block that commits to it. -/
structure Tip where
  blockHash : BlockHash
  mainBlockHash : MainBlockHash
  deriving DecidableEq, Repr

variable {B : Type}

/-- The order of optional numbers, where none is less than all others. -/
def optionRank (n : Option Nat) : Nat :=
  n.elim 0 (· + 1)

/-- Prefer the higher record, then the one with less work, then the first tip. -/
def preferRecord (tip0 tip1 : Tip) (record0 record1 : Option (Nat × Nat)) : Tip :=
  match compare (optionRank (record0.map Prod.snd)) (optionRank (record1.map Prod.snd)),
      compare (optionRank (record0.map Prod.fst)) (optionRank (record1.map Prod.fst)) with
  | .lt, .eq | .eq, .eq | _, .gt => tip0
  | .gt, .eq | _, .lt => tip1

namespace ArchiveDb

section

variable (db : ArchiveDb B)

/-- `find_map` over the ancestors of a block, starting with the block. -/
def findAncestor {α : Type} (f : BlockHash → Except ArchiveDbError (Option α)) :
    Nat → Option BlockHash → Except ArchiveDbError (Option α)
  | _, none => .ok none
  | 0, some _ => .error .panic
  | fuel + 1, some blockHash => do
      let header ← db.getHeader blockHash
      match ← f blockHash with
      | some a => .ok (some a)
      | none => findAncestor f fuel header.prevSideHash

/-- The height of a block that names a mainchain block before the given one. -/
def heightBefore (mainAncestor : MainBlockHash) (blockHash : BlockHash) :
    Except ArchiveDbError (Option Nat) := do
  let header ← db.getHeader blockHash
  if !(← db.isMainDescendant header.prevMainHash mainAncestor) then .ok none
  else if header.prevMainHash = mainAncestor then .ok none
  else do
    let height ← db.getHeight blockHash
    .ok (some height)

/-- The height of such a block, with the total work of the mainchain block after the one
that it names. -/
def heightWorkBefore (mainAncestor : MainBlockHash) (mainAncestorHeight : Nat)
    (blockHash : BlockHash) : Except ArchiveDbError (Option (Nat × Nat)) := do
  let header ← db.getHeader blockHash
  if !(← db.isMainDescendant header.prevMainHash mainAncestor) then .ok none
  else if header.prevMainHash = mainAncestor then .ok none
  else do
    let height ← db.getHeight blockHash
    let prevHeight ← db.getMainHeight header.prevMainHash
    let mainBlock ←
      db.getNthMainAncestor mainAncestor (mainAncestorHeight - (prevHeight + 1))
    let work ← db.getTotalWork mainBlock
    .ok (some (height, work))

/-- Compare the ancestors of two tips of the same height and total work. -/
def betterAncestor (tip0 tip1 : Tip) (height : Nat) : Except ArchiveDbError Tip := do
  let mainAncestor ← db.lastCommonMainAncestor tip0.mainBlockHash tip1.mainBlockHash
  let mainAncestorHeight ← db.getMainHeight mainAncestor
  let ancestor0 ← db.findAncestor (db.heightWorkBefore mainAncestor mainAncestorHeight)
    (height + 1) (some tip0.blockHash)
  let ancestor1 ← db.findAncestor (db.heightWorkBefore mainAncestor mainAncestorHeight)
    (height + 1) (some tip1.blockHash)
  .ok (preferRecord tip0 tip1 ancestor0 ancestor1)

/-- Compare two tips by the total works and the heights given, neither of them zero. -/
def betterByWork (tip0 tip1 : Tip) (height0 height1 work0 work1 : Nat) :
    Except ArchiveDbError Tip :=
  match compare work0 work1, compare height0 height1 with
  | .lt, .lt | .eq, .lt => .ok tip1
  | .eq, .gt | .gt, .gt => .ok tip0
  | .lt, .eq => do
      -- within the same mainchain lineage, prefer lower work
      if ← db.sharedMainchainLineage tip0.mainBlockHash tip1.mainBlockHash then .ok tip0
      else .ok tip1
  | .gt, .eq => do
      if !(← db.sharedMainchainLineage tip0.mainBlockHash tip1.mainBlockHash) then .ok tip0
      else .ok tip1
  | .lt, .gt => do
      let mainAncestor ← db.lastCommonMainAncestor tip0.mainBlockHash tip1.mainBlockHash
      let ancestor ← db.findAncestor (db.heightBefore mainAncestor) (height0 + 1)
        (some tip0.blockHash)
      if optionRank (some height1) ≤ optionRank ancestor then .ok tip0 else .ok tip1
  | .gt, .lt => do
      let mainAncestor ← db.lastCommonMainAncestor tip0.mainBlockHash tip1.mainBlockHash
      let ancestor ← db.findAncestor (db.heightBefore mainAncestor) (height1 + 1)
        (some tip1.blockHash)
      if optionRank ancestor < optionRank (some height0) then .ok tip0 else .ok tip1
  | .eq, .eq =>
      if tip0.blockHash = tip1.blockHash then .ok tip0
      else db.betterAncestor tip0 tip1 height0

/-- The better of two tips, if there is one. The header of each must exist. -/
def betterTip (tip0 tip1 : Tip) : Except ArchiveDbError (Option Tip) :=
  if tip0 = tip1 then .ok none
  else do
    let height0 ← db.getHeight tip0.blockHash
    let height1 ← db.getHeight tip1.blockHash
    match height0, height1 with
    | 0, 0 => .ok none
    | 0, _ => .ok (some tip1)
    | _, 0 => .ok (some tip0)
    | _, _ => do
        let work0 ← db.getTotalWork tip0.mainBlockHash
        let work1 ← db.getTotalWork tip1.mainBlockHash
        let tip ← db.betterByWork tip0 tip1 height0 height1 work0 work1
        .ok (some tip)

end

end ArchiveDb

end Truthcoin.Archiving
