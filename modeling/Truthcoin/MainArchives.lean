import Truthcoin.FallibleErrors
import Truthcoin.NetTask
import Truthcoin.BmmTimestamp

/-!
# The archive of a node as a mainchain archive

The tables that a node reaches keep what a mainchain archive promises, and the node reads
from them what the mainchain archive says: the results about mainchain archives hold of
every node.
-/

namespace Truthcoin.Archiving.ArchiveDb

open Std Truthcoin.Types Truthcoin.Table Truthcoin.Fallible Truthcoin.Blocks
open Truthcoin.Mainchain Truthcoin.Lineage Truthcoin.TwoWayPeg

variable {B : Type} {hashes : Hashes} {db : ArchiveDb B}

/-- The error of the node for an error of the mainchain archive. -/
def errorOf : ArchiveError → ArchiveDbError
  | .noMainHeaderInfo blockHash => .noMainHeaderInfo blockHash
  | .noMainBlockInfo blockHash => .noMainBlockInfo blockHash
  | .noMainHeight blockHash => .noMainHeight blockHash
  | .noMainAncestor blockHash depth => .noMainAncestor blockHash depth
  | .noExponentialMainAncestors blockHash => .noExponentialMainAncestors blockHash
  | .noBmmResult blockHash => .noBmmResult blockHash
  | .panic => .panic

section

variable (db) (hmain : db.MainSound hashes)

def blockHeaderInfos : Table MainBlockHash BlockHeaderInfo :=
  db.mainHeaderInfos.map fun _ info => info.toBlockHeaderInfo

theorem lookup_blockHeaderInfos {h : MainBlockHash} :
    db.blockHeaderInfos[h]? = db.mainHeaderInfos[h]?.map MainHeaderInfo.toBlockHeaderInfo :=
  ExtTreeMap.getElem?_map

theorem exists_stored {h : MainBlockHash} {info : BlockHeaderInfo}
    (hinfo : db.blockHeaderInfos[h]? = some info) :
    ∃ stored, db.mainHeaderInfos[h]? = some stored ∧ stored.toBlockHeaderInfo = info := by
  rw [lookup_blockHeaderInfos] at hinfo
  exact Option.map_eq_some_iff.mp hinfo

include hmain

theorem MainSound.mainHeaders_first {h : MainBlockHash} {info : BlockHeaderInfo}
    (hinfo : db.blockHeaderInfos[h]? = some info) (hfirst : info.prevBlockHash = allZeros) :
    db.mainBlockHashToHeight[h]? = some 0 := by
  obtain ⟨stored, hstored, rfl⟩ := exists_stored db hinfo
  apply hmain.rooted.first
  rw [mainIndex_parent hstored, mainParent, if_pos hfirst]

theorem MainSound.mainHeaders_child {h : MainBlockHash} {info : BlockHeaderInfo}
    (hinfo : db.blockHeaderInfos[h]? = some info) (hne : info.prevBlockHash ≠ allZeros) :
    ∃ parent n, db.blockHeaderInfos[info.prevBlockHash]? = some parent ∧
      db.mainBlockHashToHeight[info.prevBlockHash]? = some n ∧
        db.mainBlockHashToHeight[h]? = some (n + 1) := by
  obtain ⟨stored, hstored, rfl⟩ := exists_stored db hinfo
  have hparent := mainIndex_parent hstored
  rw [mainParent, if_neg hne] at hparent
  obtain ⟨n, hn, hh⟩ := hmain.rooted.child hparent
  obtain ⟨parent, hrow⟩ := hmain.info_of_height hn
  refine ⟨parent.toBlockHeaderInfo, n, ?_, hn, hh⟩
  rw [lookup_blockHeaderInfos, hrow, Option.map_some]

end

/-- The mainchain headers of a node. -/
def mainHeaders (db : ArchiveDb B) (hmain : db.MainSound hashes) : MainHeaders where
  mainHeaderInfos := db.blockHeaderInfos
  mainBlockHashToHeight := db.mainBlockHashToHeight
  keyed := by
    intro h info hinfo
    obtain ⟨stored, hstored, rfl⟩ := exists_stored db hinfo
    exact (hmain.header hstored).2
  first := hmain.mainHeaders_first
  child := hmain.mainHeaders_child

theorem MainSound.ancestors_mainHeaders (hmain : db.MainSound hashes) {h : MainBlockHash}
    {info : MainHeaderInfo} (hinfo : db.mainHeaderInfos[h]? = some info) :
    (db.mainHeaders hmain).ancestors h = db.mainIndex.ancestors h := by
  obtain ⟨n, hn⟩ := hmain.height hinfo
  clear hinfo info
  have hlookup {h : MainBlockHash} {info : MainHeaderInfo}
      (hinfo : db.mainHeaderInfos[h]? = some info) :
      (db.mainHeaders hmain).mainHeaderInfos[h]? = some info.toBlockHeaderInfo := by
    show db.blockHeaderInfos[h]? = _
    rw [lookup_blockHeaderInfos, hinfo, Option.map_some]
  refine Index.rooted_induction hmain.rooted
    (P := fun h => (db.mainHeaders hmain).ancestors h = db.mainIndex.ancestors h) ?_ ?_ hn
  · intro h hfirst
    obtain ⟨info, hinfo, hparent⟩ := exists_info_of_parent hfirst
    rw [Index.ancestors_first hfirst, MainHeaders.ancestors_of_info (hlookup hinfo)]
    rw [mainParent] at hparent
    split at hparent
    · rename_i hzero
      rw [hzero, MainHeaders.ancestors_allZeros]
    · cases hparent
  · intro h p hchild ih
    obtain ⟨info, hinfo, hparent⟩ := exists_info_of_parent hchild
    rw [Index.ancestors_child hmain.rooted hchild, MainHeaders.ancestors_of_info (hlookup hinfo),
      ← ih]
    rw [mainParent] at hparent
    split at hparent
    · cases hparent
    · rw [Option.some.inj hparent]

/-- An order in which the rows of the hash maps are iterated. -/
def Iterates (iter : Table MainBlockHash BmmResult → List (MainBlockHash × BmmResult)) : Prop :=
  ∀ results, (iter results).Perm results.toList

variable {iter : Table MainBlockHash BmmResult → List (MainBlockHash × BmmResult)}

theorem Iterates.mem_iff (hiter : Iterates iter) {results : Table MainBlockHash BmmResult}
    {main : MainBlockHash} {result : BmmResult} :
    (main, result) ∈ iter results ↔ results[main]? = some result :=
  (hiter results).mem_iff.trans mem_toList_iff

theorem lookup_iterated {hash : BlockHash} :
    (db.bmmResults.map fun _ => iter)[hash]? = db.bmmResults[hash]?.map iter :=
  ExtTreeMap.getElem?_map

theorem result_of_mem_iterated (hiter : Iterates iter) {hash : BlockHash}
    {rows : List (MainBlockHash × BmmResult)} {main : MainBlockHash} {result : BmmResult}
    (hrows : (db.bmmResults.map fun _ => iter)[hash]? = some rows) (hmem : (main, result) ∈ rows) :
    (db.getBmmResults hash)[main]? = some result := by
  rw [lookup_iterated] at hrows
  obtain ⟨results, hresults, rfl⟩ := Option.map_eq_some_iff.mp hrows
  rw [getBmmResults, hresults, Option.getD_some]
  exact hiter.mem_iff.mp hmem

theorem exists_iterated (hiter : Iterates iter) {hash : BlockHash} {main : MainBlockHash}
    {result : BmmResult} (h : (db.getBmmResults hash)[main]? = some result) :
    ∃ rows, (db.bmmResults.map fun _ => iter)[hash]? = some rows ∧ (main, result) ∈ rows := by
  rw [getBmmResults] at h
  cases hresults : db.bmmResults[hash]? with
  | none =>
      rw [hresults, Option.getD_none] at h
      simp at h
  | some results =>
      rw [hresults, Option.getD_some] at h
      refine ⟨iter results, ?_, hiter.mem_iff.mpr h⟩
      rw [lookup_iterated, hresults, Option.map_some]

theorem BmmInvariant.exponential (hdb : db.BmmInvariant hashes) {h : MainBlockHash}
    {info : BlockHeaderInfo} (hinfo : db.blockHeaderInfos[h]? = some info) :
    ∃ row, db.exponentialMainAncestors[h]? = some row ∧
      ∀ i, 2 ^ (i + 1) < (db.mainHeaders hdb.main).rank h →
        row[i]? = ((db.mainHeaders hdb.main).ancestors h)[2 ^ (i + 1)]? := by
  obtain ⟨stored, hstored, rfl⟩ := exists_stored db hinfo
  obtain ⟨n, hn⟩ := hdb.main.height hstored
  have hknown : (db.mainHeaders hdb.main).Known h := .inr ⟨_, hinfo⟩
  rw [← MainHeaders.length_ancestors hknown, hdb.main.ancestors_mainHeaders hstored]
  exact hdb.main.rows hn

theorem BmmInvariant.closed (hdb : db.BmmInvariant hashes) {h : MainBlockHash}
    {block : MainBlockInfo} (hblock : db.mainBlockInfos[h]? = some block) :
    ∃ info, db.blockHeaderInfos[h]? = some info ∧ (info.prevBlockHash ≠ allZeros →
      ∃ parent, db.mainBlockInfos[info.prevBlockHash]? = some parent) := by
  obtain ⟨-, info, hinfo, hprev⟩ := hdb.main.block hblock
  refine ⟨info.toBlockHeaderInfo, ?_, fun hne => mem_iff_lookup.mp (hprev.resolve_left hne)⟩
  rw [lookup_blockHeaderInfos, hinfo, Option.map_some]

theorem BmmInvariant.placed (hdb : db.BmmInvariant hashes) (hiter : Iterates iter)
    {hash : BlockHash} {rows : List (MainBlockHash × BmmResult)} {main : MainBlockHash}
    (hrows : (db.bmmResults.map fun _ => iter)[hash]? = some rows)
    (hmem : (main, .verified) ∈ rows) : ∃ info, db.blockHeaderInfos[main]? = some info := by
  have hblock := hdb.bmm.known (result_of_mem_iterated hiter hrows hmem)
  obtain ⟨block, hblock⟩ := mem_iff_lookup.mp hblock
  obtain ⟨info, hinfo, -⟩ := hdb.closed hblock
  exact ⟨info, hinfo⟩

theorem BmmInvariant.verified (hdb : db.BmmInvariant hashes) (hiter : Iterates iter)
    {hash : BlockHash} {header : Header} {rows : List (MainBlockHash × BmmResult)}
    {main : MainBlockHash} (hheader : db.headers[hash]? = some header)
    (hrows : (db.bmmResults.map fun _ => iter)[hash]? = some rows)
    (hmem : (main, .verified) ∈ rows) :
    ∃ info block, db.blockHeaderInfos[main]? = some info ∧
      db.mainBlockInfos[main]? = some block ∧ block.bmmCommitment = some hash ∧
      header.prevMainHash = info.prevBlockHash ∧
      ∀ parent, header.prevSideHash = some parent → ∃ parentRows parentMain,
        (db.bmmResults.map fun _ => iter)[parent]? = some parentRows ∧
          (parentMain, .verified) ∈ parentRows ∧
          parentMain ∈ (db.mainHeaders hdb.main).ancestors main := by
  obtain rfl := (hdb.side.header hheader).1
  obtain ⟨⟨block, hblock, hcommit⟩, ⟨stored, hstored, hprev⟩, hparent⟩ :=
    hdb.bmm.sound (result_of_mem_iterated hiter hrows hmem)
  refine ⟨stored.toBlockHeaderInfo, block, ?_, hblock, hcommit, hprev.symm, ?_⟩
  · rw [lookup_blockHeaderInfos, hstored, Option.map_some]
  · intro parent hside
    obtain ⟨a, ha, hverified⟩ := hparent parent hside
    obtain ⟨parentRows, hparentRows, hmem⟩ := exists_iterated hiter hverified
    rw [hdb.main.ancestors_mainHeaders hstored]
    exact ⟨parentRows, a, hparentRows, hmem, ha⟩

/-- What a node knows of the mainchain. -/
def mainArchive (db : ArchiveDb B) (hdb : db.BmmInvariant hashes) (hiter : Iterates iter) :
    MainArchive where
  toMainHeaders := db.mainHeaders hdb.main
  exponentialMainAncestors := db.exponentialMainAncestors
  totalWork := db.totalWork
  mainBlockInfos := db.mainBlockInfos
  headers := db.headers
  bmmResults := db.bmmResults.map fun _ => iter
  exponential := hdb.exponential
  work := by
    intro h info hinfo
    obtain ⟨stored, hstored, rfl⟩ := exists_stored db hinfo
    obtain ⟨w, hw, -⟩ := hdb.main.work hstored
    exact ⟨w, hw⟩
  closed := hdb.closed
  ordered := fun hheader hside => (hdb.side.parent hheader hside).2 rfl
  placed := hdb.placed hiter
  verified := hdb.verified hiter

section

variable (hdb : db.BmmInvariant hashes) (hiter : Iterates iter)

theorem getMainHeight_mainArchive (h : MainBlockHash) :
    ((db.mainArchive hdb hiter).getMainHeight h).mapError errorOf = db.getMainHeight h :=
  mapError_okOr

theorem getMainBlockInfo_mainArchive (h : MainBlockHash) :
    ((db.mainArchive hdb hiter).getMainBlockInfo h).mapError errorOf = db.getMainBlockInfo h :=
  mapError_okOr

theorem getTotalWork_mainArchive (h : MainBlockHash) :
    ((db.mainArchive hdb hiter).getTotalWork h).mapError errorOf = db.getTotalWork h :=
  mapError_okOr

theorem getBmmResults_mainArchive (hash : BlockHash) :
    (db.mainArchive hdb hiter).getBmmResults hash = iter (db.getBmmResults hash) := by
  show (db.bmmResults.map fun _ => iter)[hash]?.getD [] = _
  rw [lookup_iterated, getBmmResults]
  cases db.bmmResults[hash]? with
  | none => exact (List.Perm.eq_nil (hiter ∅)).symm
  | some results => rfl

/-- The node decides descent as the mainchain archive does. -/
theorem isMainDescendant_mainArchive (a d : MainBlockHash) :
    ((db.mainArchive hdb hiter).isMainDescendant a d).mapError errorOf =
      db.isMainDescendant a d := by
  by_cases heq : a = d
  · rw [MainArchive.isMainDescendant, if_pos heq, isMainDescendant, Index.isDescendant,
      if_pos heq]
    rfl
  cases ha : db.mainBlockHashToHeight[a]? with
  | none =>
      rw [MainArchive.isMainDescendant, if_neg heq, isMainDescendant, Index.isDescendant,
        if_neg heq, mapError_bind, getMainHeight_mainArchive, getMainHeight, Index.getHeight]
      show okOr db.mainBlockHashToHeight[a]? _ >>= _ = okOr db.mainBlockHashToHeight[a]? _ >>= _
      rw [ha]
      rfl
  | some n =>
      cases hd : db.mainBlockHashToHeight[d]? with
      | none =>
          rw [MainArchive.isMainDescendant, if_neg heq, isMainDescendant, Index.isDescendant,
            if_neg heq, mapError_bind, getMainHeight_mainArchive, getMainHeight, Index.getHeight]
          show okOr db.mainBlockHashToHeight[a]? _ >>= _ =
            okOr db.mainBlockHashToHeight[a]? _ >>= _
          rw [ha, okOr_some, ok_bind, okOr_some, ok_bind, mapError_bind,
            getMainHeight_mainArchive, getMainHeight, Index.getHeight]
          show okOr db.mainBlockHashToHeight[d]? _ >>= _ =
            okOr db.mainBlockHashToHeight[d]? _ >>= _
          rw [hd]
          rfl
      | some m =>
          obtain ⟨ainfo, hainfo⟩ := hdb.main.info_of_height ha
          obtain ⟨dinfo, hdinfo⟩ := hdb.main.info_of_height hd
          have hstored {h : MainBlockHash} {info : MainHeaderInfo}
              (hinfo : db.mainHeaderInfos[h]? = some info) :
              (db.mainArchive hdb hiter).mainHeaderInfos[h]? = some info.toBlockHeaderInfo := by
            show db.blockHeaderInfos[h]? = _
            rw [lookup_blockHeaderInfos, hinfo, Option.map_some]
          rw [MainArchive.isMainDescendant_eq (hstored hainfo) (hstored hdinfo),
            hdb.main.isMainDescendant_eq hainfo hdinfo]
          show Except.ok (decide (a ∈ (db.mainHeaders hdb.main).ancestors d)) = _
          simp only [hdb.main.ancestors_mainHeaders hdinfo]

theorem maxByKey_getTotalWork (rows : List MainBlockHash) :
    (MainArchive.maxByKey (db.mainArchive hdb hiter).getTotalWork rows).mapError errorOf =
      db.greatestWork rows := by
  cases rows with
  | nil => rfl
  | cons main rows =>
      rw [MainArchive.maxByKey, greatestWork]
      simp only [mapError_bind, mapError_foldlM, getTotalWork_mainArchive]
      rfl

theorem getBestMainVerification_mainArchive (hash : BlockHash) :
    ((db.mainArchive hdb hiter).getBestMainVerification hash).mapError errorOf =
      db.getBestMainVerification iter hash := by
  unfold MainArchive.getBestMainVerification getBestMainVerification
    MainArchive.tryGetBestMainVerification tryGetBestMainVerification
  rw [mapError_bind, maxByKey_getTotalWork, getBmmResults_mainArchive]
  simp only [mapError_okOr]
  rfl

theorem getMainHeaderInfo_mainArchive (h : MainBlockHash) :
    ((db.mainArchive hdb hiter).getMainHeaderInfo h).mapError errorOf =
      (db.getMainHeaderInfo h).map MainHeaderInfo.toBlockHeaderInfo := by
  show (okOr db.blockHeaderInfos[h]? _).mapError errorOf = _
  rw [lookup_blockHeaderInfos, getMainHeaderInfo]
  cases db.mainHeaderInfos[h]? <;> rfl

theorem mainchainTimestamp_mainArchive (hash : BlockHash) :
    ((db.mainArchive hdb hiter).mainchainTimestamp hash).mapError errorOf =
      db.getBestMainVerification iter hash >>= fun bmmMainHash =>
        (db.getMainHeaderInfo bmmMainHash).map fun info => info.timestamp := by
  rw [MainArchive.mainchainTimestamp, mapError_bind, getBestMainVerification_mainArchive]
  congr 1
  funext main
  rw [mapError_bind, getMainHeaderInfo_mainArchive]
  cases db.getMainHeaderInfo main <;> rfl

theorem mainAncestorsUntil_of_rank {stop : Option MainBlockHash} {fuel : Nat}
    {h : MainBlockHash} (hfuel : (db.mainHeaders hdb.main).rank h ≤ fuel) :
    ((db.mainHeaders hdb.main).mainAncestorsUntil stop h).mapError errorOf =
      db.mainAncestorsUntil stop fuel h := by
  induction fuel generalizing h with
  | zero =>
      have hzero : h = allZeros := by
        by_contra hne
        rw [MainHeaders.rank, if_neg hne] at hfuel
        exact absurd hfuel (Nat.not_succ_le_zero _)
      rw [MainHeaders.mainAncestorsUntil, if_pos hzero, mainAncestorsUntil, if_pos hzero]
      rfl
  | succ fuel ih =>
      rw [MainHeaders.mainAncestorsUntil, mainAncestorsUntil]
      by_cases hzero : h = allZeros
      · rw [if_pos hzero, if_pos hzero]
        rfl
      rw [if_neg hzero, if_neg hzero, getMainHeaderInfo]
      split
      · rename_i hnone
        change db.blockHeaderInfos[h]? = none at hnone
        rw [lookup_blockHeaderInfos, Option.map_eq_none_iff] at hnone
        rw [hnone]
        rfl
      · rename_i info hinfo
        have hrank := MainHeaders.rank_prev hinfo
        obtain ⟨stored, hstored, rfl⟩ := exists_stored db hinfo
        rw [hstored, okOr_some, ok_bind]
        split
        · rfl
        · rw [mapError_bind, ih (by omega)]
          rfl

theorem mainAncestorsUntil_mainArchive (stop : Option MainBlockHash) (h : MainBlockHash) :
    ((db.mainArchive hdb hiter).mainAncestorsUntil stop h).mapError errorOf =
      db.mainAncestorsUntil stop (db.mainAncestorRounds h) h := by
  apply mainAncestorsUntil_of_rank hdb
  rw [MainHeaders.rank]
  split
  · exact Nat.zero_le _
  · exact le_rfl

theorem mainInfosUntil_mainArchive (stop : Option MainBlockHash) (h : MainBlockHash) :
    ((db.mainArchive hdb hiter).mainAncestorsUntil stop h >>= fun ancestors =>
      ancestors.mapM (PegSlices.getBlockInfo (db.mainArchive hdb hiter))).mapError errorOf =
      db.mainInfosUntil stop h := by
  rw [mapError_bind, mainAncestorsUntil_mainArchive, mainInfosUntil]
  congr 1
  funext ancestors
  rw [mapError_mapM]
  congr 1
  funext ancestor
  rw [PegSlices.getBlockInfo, mapError_bind, getMainBlockInfo_mainArchive]
  rfl

theorem startBlockHash_mainArchive (deposit event : Option (MainBlockHash × Nat)) :
    (PegRebuild.startBlockHash (db.mainArchive hdb hiter) deposit event).mapError errorOf =
      db.startBlockHash deposit event := by
  cases deposit with
  | none => cases event <;> rfl
  | some deposit =>
      cases event with
      | none => rfl
      | some event =>
          rw [PegRebuild.startBlockHash, startBlockHash]
          cases compare deposit.2 event.2 with
          | lt => rfl
          | gt => rfl
          | eq =>
              rw [mapError_bind, isMainDescendant_mainArchive]
              congr 1
              funext below
              cases below with
              | true => rfl
              | false =>
                  simp only [Bool.false_eq_true, if_false]
                  rw [mapError_bind, isMainDescendant_mainArchive]
                  congr 1
                  funext below
                  cases below <;> rfl

theorem rebuildPegData_mainArchive (dbs : PegDbs) (height : Nat) (tipHeader : Header) :
    (PegRebuild.rebuildPegData (db.mainArchive hdb hiter) dbs height tipHeader).mapError errorOf =
      db.rebuildPegData dbs height tipHeader := by
  rw [PegRebuild.rebuildPegData, rebuildPegData, mapError_bind, startBlockHash_mainArchive]
  congr 1
  funext start
  rw [← bind_assoc, mapError_bind, mainInfosUntil_mainArchive]
  rfl

theorem twoWayPegDataBatch_mainArchive (stop : Option MainBlockHash) (newTip : Header) :
    (PegSlices.twoWayPegDataBatch (db.mainArchive hdb hiter) stop newTip).mapError errorOf =
      (db.mainInfosUntil stop newTip.prevMainHash).map List.reverse := by
  rw [PegSlices.twoWayPegDataBatch, ← bind_assoc, mapError_bind, mainInfosUntil_mainArchive]
  cases db.mainInfosUntil stop newTip.prevMainHash <;> rfl

end

end Truthcoin.Archiving.ArchiveDb
