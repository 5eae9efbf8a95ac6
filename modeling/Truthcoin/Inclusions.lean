import Truthcoin.ArchiveRuns
import Truthcoin.SampleLibrary

/-!
# The inclusions of transactions

The archive maps each transaction id to the blocks whose bodies have the transaction. The
rows are kept by the operations on bodies. A body that is stored in the place of another one
leaves the rows of that behind, so the index is exact as long as no transaction id is lost.
-/

namespace Truthcoin.Archiving

open Truthcoin.Types Truthcoin.Table Truthcoin.Fallible Truthcoin.Blocks
open Truthcoin.Mainchain Truthcoin.Lineage

/-- For each transaction id the blocks with it, and an index in the body of each. -/
abbrev InclusionTable := Table Txid (Table BlockHash Nat)

namespace InclusionTable

section

variable (index : InclusionTable) (blockHash : BlockHash)

def getTxInclusions (txid : Txid) : Table BlockHash Nat :=
  index[txid]?.getD ∅

/-- The index of a transaction in the body of a block. -/
def inclusion (txid : Txid) : Option Nat :=
  (index.getTxInclusions txid)[blockHash]?

def put (entry : Txid × Nat) : InclusionTable :=
  index.insert entry.1 ((index.getTxInclusions entry.1).insert blockHash entry.2)

/-- Remove an inclusion; a transaction without inclusions loses its row. -/
def remove (txid : Txid) : InclusionTable :=
  let inclusions := (index.getTxInclusions txid).erase blockHash
  if inclusions.isEmpty then index.erase txid else index.insert txid inclusions

/-- Remove an inclusion of a transaction that has a row. -/
def removeKnown (txid : Txid) : InclusionTable :=
  match index[txid]? with
  | none => index
  | some _ => index.remove blockHash txid

end

variable {index : InclusionTable} {b b' : BlockHash} {txid txid' : Txid} {n : Nat}

theorem inclusion_put {entry : Txid × Nat} :
    (index.put b entry).inclusion b' txid =
      if txid = entry.1 ∧ b' = b then some entry.2 else index.inclusion b' txid := by
  rw [inclusion, getTxInclusions, put, lookup_insert]
  by_cases htxid : txid = entry.1
  · rw [if_pos htxid, Option.getD_some, lookup_insert]
    by_cases hb : b' = b
    · rw [if_pos hb, if_pos ⟨htxid, hb⟩]
    · rw [if_neg hb, if_neg fun h => hb h.2, htxid]
      rfl
  · rw [if_neg htxid, if_neg fun h => htxid h.1]
    rfl

theorem inclusion_remove :
    (index.remove b txid).inclusion b' txid' =
      if txid' = txid ∧ b' = b then none else index.inclusion b' txid' := by
  have herase : ((index.getTxInclusions txid).erase b)[b']? =
      if b' = b then none else index.inclusion b' txid := lookup_erase
  by_cases htxid : txid' = txid
  · subst htxid
    have hsame : (index.remove b txid').inclusion b' txid' =
        ((index.getTxInclusions txid').erase b)[b']? := by
      rw [inclusion, getTxInclusions, remove]
      split
      · rename_i hempty
        rw [lookup_erase, if_pos rfl, Option.getD_none, Std.ExtTreeMap.isEmpty_iff.mp hempty]
      · rw [lookup_insert, if_pos rfl, Option.getD_some]
    rw [hsame, herase]
    simp
  · have hother : (index.remove b txid).inclusion b' txid' = index.inclusion b' txid' := by
      rw [inclusion, getTxInclusions, remove]
      split
      · rw [lookup_erase, if_neg htxid]
        rfl
      · rw [lookup_insert, if_neg htxid]
        rfl
    rw [hother, if_neg fun h => htxid h.1]

theorem inclusion_removeKnown :
    (index.removeKnown b txid).inclusion b' txid' =
      if txid' = txid ∧ b' = b then none else index.inclusion b' txid' := by
  rw [removeKnown]
  cases hrow : index[txid]? with
  | none =>
      have hnone : index.inclusion b txid = none := by
        rw [inclusion, getTxInclusions, hrow]
        rfl
      show index.inclusion b' txid' = _
      split
      · rename_i h
        rw [h.1, h.2, hnone]
      · rfl
  | some row => exact inclusion_remove

theorem inclusion_foldl_put (index : InclusionTable) (b b' : BlockHash) (txid : Txid)
    (entries : List (Txid × Nat)) :
    (b' = b → txid ∈ entries.map Prod.fst →
        ∃ n, (txid, n) ∈ entries ∧
          (entries.foldl (fun index entry => index.put b entry) index).inclusion b' txid =
            some n) ∧
      (¬ (b' = b ∧ txid ∈ entries.map Prod.fst) →
        (entries.foldl (fun index entry => index.put b entry) index).inclusion b' txid =
          index.inclusion b' txid) := by
  induction entries generalizing index with
  | nil =>
      refine ⟨fun _ h => ?_, fun _ => rfl⟩
      cases h
  | cons entry entries ih =>
      obtain ⟨hput, hsame⟩ := ih (index.put b entry)
      rw [List.foldl_cons, List.map_cons]
      constructor
      · intro hb hmem
        by_cases hrest : txid ∈ entries.map Prod.fst
        · obtain ⟨n, hn, hlookup⟩ := hput hb hrest
          exact ⟨n, List.mem_cons_of_mem _ hn, hlookup⟩
        · obtain rfl := (List.mem_cons.mp hmem).resolve_right hrest
          refine ⟨entry.2, List.mem_cons_self, ?_⟩
          rw [hsame fun h => hrest h.2, inclusion_put, if_pos ⟨rfl, hb⟩]
      · intro hnot
        rw [hsame fun h => hnot ⟨h.1, List.mem_cons_of_mem _ h.2⟩, inclusion_put, if_neg]
        rintro ⟨rfl, hb⟩
        exact hnot ⟨hb, List.mem_cons_self⟩

theorem inclusion_foldl_of_removes {f : InclusionTable → Txid → InclusionTable}
    (hf : ∀ (index : InclusionTable) (txid txid' : Txid) (b' : BlockHash),
      (f index txid).inclusion b' txid' =
        if txid' = txid ∧ b' = b then none else index.inclusion b' txid')
    {txids : List Txid} :
    (txids.foldl f index).inclusion b' txid =
      if b' = b ∧ txid ∈ txids then none else index.inclusion b' txid := by
  induction txids generalizing index with
  | nil => simp
  | cons first txids ih =>
      rw [List.foldl_cons, ih, hf]
      by_cases hb : b' = b
      · by_cases hfirst : txid = first
        · simp [hb, hfirst]
        · simp [hb, hfirst]
      · simp [hb]

end InclusionTable

structure IndexedArchive (F : Type) where
  db : ArchiveDb (Body F)
  txidToInclusions : InclusionTable

/-- The operations on bodies. -/
inductive BodyOp (F : Type) where
  | putBody (blockHash : BlockHash) (body : Body F)
  | deleteBody (blockHash : BlockHash) (body : Body F)
  | invalidateBlock (blockHash : BlockHash)

section

variable {F : Type} (L : Library F)

def txidsOf (body : Body F) : List Txid :=
  body.transactions.map L.txid

namespace IndexedArchive

def new : IndexedArchive F := ⟨.new, ∅⟩

variable (s : IndexedArchive F)

def putBody (blockHash : BlockHash) (body : Body F) :
    Except ArchiveDbError (IndexedArchive F) := do
  let db ← s.db.putBody blockHash body
  .ok ⟨db, (txidsOf L body).zipIdx.foldl (fun index entry => index.put blockHash entry)
    s.txidToInclusions⟩

/-- Delete a stored body. The given body need not be the stored one. -/
def deleteBody (blockHash : BlockHash) (body : Body F) :
    Except ArchiveDbError (IndexedArchive F) := do
  let db ← s.db.deleteBody blockHash
  .ok ⟨db, (txidsOf L body).foldl (fun index txid => index.remove blockHash txid)
    s.txidToInclusions⟩

def invalidateOne (blockHash : BlockHash) : IndexedArchive F where
  db := s.db.invalidateOne blockHash
  txidToInclusions :=
    match s.db.bodies[blockHash]? with
    | none => s.txidToInclusions
    | some body => (txidsOf L body).foldl (fun index txid => index.removeKnown blockHash txid)
        s.txidToInclusions

/-- Invalidate the blocks of a stack and their descendants. -/
def invalidateStack (s : IndexedArchive F) (stack : List BlockHash) : IndexedArchive F :=
  match stack with
  | [] => s
  | blockHash :: stack =>
      let successors :=
        ArchiveDb.unlinkSuccessor s.db.successors s.db.headers[blockHash]? blockHash
      match _hsome : successors[some blockHash]? with
      | none => invalidateStack (s.invalidateOne L blockHash) stack
      | some children => invalidateStack (s.invalidateOne L blockHash) (children.reverse ++ stack)
  termination_by (s.db.successors.size, stack.length)
  decreasing_by
    · have herase : (s.invalidateOne L blockHash).db.successors.size = s.db.successors.size := by
        rw [invalidateOne, ArchiveDb.invalidateOne, Std.ExtTreeMap.size_erase,
          if_neg (by grind), ArchiveDb.size_unlinkSuccessor]
      rw [herase]
      exact Prod.Lex.right _ (by simp)
    · apply Prod.Lex.left
      have hsize : successors.size = s.db.successors.size := ArchiveDb.size_unlinkSuccessor
      rw [invalidateOne, ArchiveDb.invalidateOne, ← hsize]
      exact size_erase_lt (by grind)

def invalidateBlock (blockHash : BlockHash) : IndexedArchive F :=
  s.invalidateStack L [blockHash]

def apply : BodyOp F → Except ArchiveDbError (IndexedArchive F)
  | .putBody blockHash body => s.putBody L blockHash body
  | .deleteBody blockHash body => s.deleteBody L blockHash body
  | .invalidateBlock blockHash => .ok (s.invalidateBlock L blockHash)

/-- An operation loses no transaction of a stored body: the body that replaces it, or that is
passed with its block to be deleted, has all of them. -/
def KeepsTxids : BodyOp F → Prop
  | .putBody blockHash body | .deleteBody blockHash body =>
      ∀ stored, s.db.bodies[blockHash]? = some stored →
        ∀ txid ∈ txidsOf L stored, txid ∈ txidsOf L body
  | .invalidateBlock _ => True

/-- The index maps each transaction id exactly to the blocks whose stored bodies have the
transaction, with an index at which it is. -/
structure InclusionsExact : Prop where
  included : ∀ (txid : Txid) (b : BlockHash) (n : Nat),
    s.txidToInclusions.inclusion b txid = some n →
      ∃ body, s.db.bodies[b]? = some body ∧ (txidsOf L body)[n]? = some txid
  complete : ∀ (txid : Txid) (b : BlockHash) (body : Body F),
    s.db.bodies[b]? = some body → txid ∈ txidsOf L body →
      ∃ n, s.txidToInclusions.inclusion b txid = some n

/-- A run of the archive, in which the operations on bodies are as given. -/
inductive Run (hashes : Hashes) (ok : IndexedArchive F → BodyOp F → Prop) :
    IndexedArchive F → Prop
  | new : Run hashes ok .new
  | header {s : IndexedArchive F} {op : BmmOp} {db : ArchiveDb (Body F)} (hrun : Run hashes ok s)
      (h : op.apply hashes s.db = .ok db) : Run hashes ok { s with db }
  | moveTips {s : IndexedArchive F} {tips : SideTips} (hrun : Run hashes ok s) :
      Run hashes ok { s with db := { s.db with sideTips := tips } }
  | body {s s' : IndexedArchive F} {op : BodyOp F} (hrun : Run hashes ok s) (hok : ok s op)
      (h : s.apply L op = .ok s') : Run hashes ok s'

variable {L} {s s' : IndexedArchive F} {b : BlockHash} {body : Body F} {op : BodyOp F}
  {hashes : Hashes}

theorem mem_zipIdx_txidsOf {txid : Txid} {n : Nat} (h : (txid, n) ∈ (txidsOf L body).zipIdx) :
    (txidsOf L body)[n]? = some txid :=
  List.mem_zipIdx_iff_getElem?.mp h

theorem inclusionsExact_new : (new : IndexedArchive F).InclusionsExact L where
  included txid b n h := by cases h
  complete txid b body h := by cases h

theorem InclusionsExact.of_bodies (hs : s.InclusionsExact L) {db : ArchiveDb (Body F)}
    (hbodies : db.bodies = s.db.bodies) : ({ s with db } : IndexedArchive F).InclusionsExact L where
  included txid b n h := hbodies ▸ hs.included txid b n h
  complete txid b body h := hs.complete txid b body (hbodies ▸ h)

theorem InclusionsExact.of_erased (hs : s.InclusionsExact L) (txids : List Txid)
    (hbodies : s'.db.bodies = s.db.bodies.erase b)
    (hindex : ∀ (b' : BlockHash) (txid : Txid), s'.txidToInclusions.inclusion b' txid =
      if b' = b ∧ txid ∈ txids then none else s.txidToInclusions.inclusion b' txid)
    (hkeeps : ∀ stored, s.db.bodies[b]? = some stored → ∀ txid ∈ txidsOf L stored, txid ∈ txids) :
    s'.InclusionsExact L where
  included txid b' n h := by
    rw [hindex] at h
    split at h
    · cases h
    · rename_i hnot
      obtain ⟨body, hbody, hplace⟩ := hs.included txid b' n h
      refine ⟨body, ?_, hplace⟩
      have hne : b' ≠ b := by
        rintro rfl
        exact hnot ⟨rfl, hkeeps body hbody txid (List.mem_of_getElem? hplace)⟩
      rw [hbodies, lookup_erase, if_neg hne, hbody]
  complete txid b' body h htxid := by
    rw [hbodies, lookup_erase] at h
    split at h
    · cases h
    · rename_i hne
      obtain ⟨n, hn⟩ := hs.complete txid b' body h htxid
      exact ⟨n, by rw [hindex, if_neg fun h => hne h.1, hn]⟩

theorem putBody_exact_iff (hs : s.InclusionsExact L) (h : s.putBody L b body = .ok s') :
    s'.InclusionsExact L ↔ s.KeepsTxids L (.putBody b body) := by
  obtain ⟨db, hdb, h⟩ := bind_eq_ok_iff.mp h
  obtain ⟨header, -, tips, hput⟩ := ArchiveDb.putBody_eq_ok hdb
  have hbodies : db.bodies = s.db.bodies.insert b body := by rw [hput]
  obtain rfl := Except.ok.inj h
  have hindex (b' : BlockHash) (txid : Txid) :=
    InclusionTable.inclusion_foldl_put s.txidToInclusions b b' txid (txidsOf L body).zipIdx
  rw [List.zipIdx_map_fst] at hindex
  constructor
  · intro hexact stored hstored txid htxid
    by_contra hlost
    obtain ⟨n, hn⟩ := hs.complete txid b stored hstored htxid
    have hstale := (hindex b txid).2 fun h => hlost h.2
    obtain ⟨body', hbody', hplace⟩ := hexact.included txid b n (hstale.trans hn)
    rw [hbodies, lookup_insert, if_pos rfl, Option.some.injEq] at hbody'
    subst hbody'
    exact hlost (List.mem_of_getElem? hplace)
  · intro hkeeps
    constructor
    · intro txid b' n hn
      by_cases hnew : b' = b ∧ txid ∈ txidsOf L body
      · obtain ⟨rfl, hmem⟩ := hnew
        obtain ⟨n', hplace, hn'⟩ := (hindex b' txid).1 rfl hmem
        obtain rfl := Option.some.inj (hn'.symm.trans hn)
        exact ⟨body, by rw [hbodies, lookup_insert, if_pos rfl], mem_zipIdx_txidsOf hplace⟩
      · obtain ⟨body', hbody', hplace⟩ :=
          hs.included txid b' n (((hindex b' txid).2 hnew).symm.trans hn)
        refine ⟨body', ?_, hplace⟩
        have hne : b' ≠ b := by
          rintro rfl
          exact hnew ⟨rfl, hkeeps body' hbody' txid (List.mem_of_getElem? hplace)⟩
        rw [hbodies, lookup_insert, if_neg hne, hbody']
    · intro txid b' body' hbody' htxid
      rw [hbodies, lookup_insert] at hbody'
      split at hbody'
      · rename_i hb
        obtain rfl := Option.some.inj hbody'
        obtain ⟨n, -, hn⟩ := (hindex b' txid).1 hb htxid
        exact ⟨n, hn⟩
      · rename_i hne
        obtain ⟨n, hn⟩ := hs.complete txid b' body' hbody' htxid
        exact ⟨n, ((hindex b' txid).2 fun h => hne h.1).trans hn⟩

theorem deleteBody_exact_iff (hs : s.InclusionsExact L) (h : s.deleteBody L b body = .ok s') :
    s'.InclusionsExact L ↔ s.KeepsTxids L (.deleteBody b body) := by
  obtain ⟨db, hdb, h⟩ := bind_eq_ok_iff.mp h
  obtain ⟨tips, -, hdelete⟩ := ArchiveDb.deleteBody_eq_ok hdb
  have hbodies : db.bodies = s.db.bodies.erase b := by rw [hdelete]
  obtain rfl := Except.ok.inj h
  have hindex (b' : BlockHash) (txid : Txid) :
      ((txidsOf L body).foldl (fun index txid => index.remove b txid)
        s.txidToInclusions).inclusion b' txid =
      if b' = b ∧ txid ∈ txidsOf L body then none else s.txidToInclusions.inclusion b' txid :=
    InclusionTable.inclusion_foldl_of_removes fun _ _ _ _ => InclusionTable.inclusion_remove
  constructor
  · intro hexact stored hstored txid htxid
    by_contra hlost
    obtain ⟨n, hn⟩ := hs.complete txid b stored hstored htxid
    have hstale := hindex b txid
    rw [if_neg fun h => hlost h.2, hn] at hstale
    obtain ⟨body', hbody', -⟩ := hexact.included txid b n hstale
    rw [hbodies, lookup_erase, if_pos rfl] at hbody'
    cases hbody'
  · intro hkeeps
    exact hs.of_erased _ hbodies hindex hkeeps

theorem InclusionsExact.invalidateOne (hs : s.InclusionsExact L) (b : BlockHash) :
    (s.invalidateOne L b).InclusionsExact L := by
  cases hbody : s.db.bodies[b]? with
  | none =>
      apply hs.of_erased [] rfl
      · intro b' txid
        simp only [IndexedArchive.invalidateOne, hbody, List.not_mem_nil, and_false, if_false]
      · intro stored hstored
        cases hbody.symm.trans hstored
  | some body =>
      apply hs.of_erased (txidsOf L body) rfl
      · intro b' txid
        simp only [IndexedArchive.invalidateOne, hbody]
        exact InclusionTable.inclusion_foldl_of_removes
          fun _ _ _ _ => InclusionTable.inclusion_removeKnown
      · intro stored hstored txid htxid
        obtain rfl := Option.some.inj (hbody.symm.trans hstored)
        exact htxid

theorem InclusionsExact.invalidateStack (hs : s.InclusionsExact L) (stack : List BlockHash) :
    (s.invalidateStack L stack).InclusionsExact L := by
  induction s, stack using IndexedArchive.invalidateStack.induct L with
  | case1 s =>
      rw [IndexedArchive.invalidateStack]
      exact hs
  | case2 s b stack _ hnone ih =>
      rw [IndexedArchive.invalidateStack]
      split
      · exact ih (hs.invalidateOne b)
      · rename_i children hsome
        cases hnone.symm.trans hsome
  | case3 s b stack _ children hsome ih =>
      rw [IndexedArchive.invalidateStack]
      split
      · rename_i hnone
        cases hsome.symm.trans hnone
      · rename_i children' hsome'
        obtain rfl := Option.some.inj (hsome.symm.trans hsome')
        exact ih (hs.invalidateOne b)

theorem apply_exact_iff (hs : s.InclusionsExact L) (h : s.apply L op = .ok s') :
    s'.InclusionsExact L ↔ s.KeepsTxids L op := by
  cases op with
  | putBody b body => exact putBody_exact_iff hs h
  | deleteBody b body => exact deleteBody_exact_iff hs h
  | invalidateBlock b =>
      obtain rfl := Except.ok.inj h
      exact ⟨fun _ => trivial, fun _ => hs.invalidateStack [b]⟩

theorem bodies_of_bmmOp {bmmOp : BmmOp} {db db' : ArchiveDb (Body F)}
    (h : bmmOp.apply hashes db = .ok db') : db'.bodies = db.bodies := by
  cases bmmOp with
  | putHeader header =>
      obtain ⟨_, _, _, _, _, -, -, -, -, -, rfl⟩ := ArchiveDb.putHeader_eq_ok h
      rfl
  | putMainHeaderInfo info =>
      obtain ⟨-, _, _, _, _, -, -, -, -, rfl⟩ := ArchiveDb.putMainHeaderInfo_eq_ok h
      rfl
  | putMainBlockInfo main block => exact (ArchiveDb.sameSide_putMainBlockInfo h).2.1

/-- In every run in which no operation loses a transaction of a stored body, the index is
exact. And such an operation is the only kind that ever breaks it. -/
theorem inclusionsExact_of_run :
    (∀ s : IndexedArchive F, Run L hashes (fun s op => s.KeepsTxids L op) s →
      s.InclusionsExact L) ∧
    ∀ (s s' : IndexedArchive F) (op : BodyOp F), s.InclusionsExact L → s.apply L op = .ok s' →
      (s'.InclusionsExact L ↔ s.KeepsTxids L op) := by
  refine ⟨fun s hrun => ?_, fun s s' op hs h => apply_exact_iff hs h⟩
  induction hrun with
  | new => exact inclusionsExact_new
  | header hrun h ih => exact ih.of_bodies (bodies_of_bmmOp h)
  | moveTips hrun ih => exact ih.of_bodies rfl
  | body hrun hok h ih => exact (apply_exact_iff ih h).mpr hok

end IndexedArchive

end

open Truthcoin.Commitments IndexedArchive

def lonelyTx : Transaction Rat := ⟨[], [], [], none⟩

/-- A body with one transaction, and one without. -/
def fullBody : Body Rat := ⟨⟨[], []⟩, [lonelyTx], [], [none]⟩
def blankBody : Body Rat := ⟨⟨[], []⟩, [], [], []⟩

def lonelyHeader : Header := headerOn none 1
def lonelyRows : List MainRow := [⟨0, 0, 1, none⟩]

/-- An archive with the header. -/
def lonelyArchive : IndexedArchive Rat :=
  ⟨(treeOps lonelyRows [lonelyHeader]).foldl (BmmOp.step (treeHashes lonelyRows)) .new, ∅⟩

theorem run_foldl_header {L : Library Rat} {hashes : Hashes}
    {ok : IndexedArchive Rat → BodyOp Rat → Prop} {s : IndexedArchive Rat}
    (hrun : Run L hashes ok s) (ops : List BmmOp) :
    Run L hashes ok { s with db := ops.foldl (BmmOp.step hashes) s.db } := by
  induction ops generalizing s with
  | nil => exact hrun
  | cons op ops ih =>
      rw [List.foldl_cons, BmmOp.step]
      cases h : op.apply hashes s.db with
      | error e => exact ih hrun
      | ok db => exact ih (hrun.header h)

theorem run_lonelyArchive (L : Library Rat) (ok : IndexedArchive Rat → BodyOp Rat → Prop) :
    Run L (treeHashes lonelyRows) ok lonelyArchive :=
  run_foldl_header .new (treeOps lonelyRows [lonelyHeader])

/-- The second body leaves the transaction of the first one behind. -/
theorem inclusions_stale :
    ∃ s, Run (sampleLibrary fun _ => 0) (treeHashes lonelyRows) (fun _ _ => True) s ∧
      s.db.bodies[pairHash lonelyHeader]? = some blankBody ∧
      s.txidToInclusions.inclusion (pairHash lonelyHeader) 0 = some 0 ∧
      ¬ s.InclusionsExact (sampleLibrary fun _ => 0) := by
  have hruns : holds (do
      let s ← lonelyArchive.putBody (sampleLibrary fun _ => 0) (pairHash lonelyHeader) fullBody
      s.putBody (sampleLibrary fun _ => 0) (pairHash lonelyHeader) blankBody)
      (fun s => decide (s.db.bodies[pairHash lonelyHeader]? = some blankBody ∧
        s.txidToInclusions.inclusion (pairHash lonelyHeader) 0 = some 0)) = true := by
    decide +kernel
  obtain ⟨s', hs', htest⟩ := holds_iff.mp hruns
  obtain ⟨s, hs, hs'⟩ := bind_eq_ok_iff.mp hs'
  obtain ⟨hbody, hindex⟩ := of_decide_eq_true htest
  have hfirst : lonelyArchive.apply (sampleLibrary fun _ => 0)
      (.putBody (pairHash lonelyHeader) fullBody) = .ok s := hs
  have hsecond : s.apply (sampleLibrary fun _ => 0)
      (.putBody (pairHash lonelyHeader) blankBody) = .ok s' := hs'
  refine ⟨s', ((run_lonelyArchive _ _).body trivial hfirst).body trivial hsecond, hbody, hindex,
    fun hexact => ?_⟩
  obtain ⟨body, hstored, hplace⟩ := hexact.included _ _ _ hindex
  obtain rfl := Option.some.inj (hbody.symm.trans hstored)
  cases hplace

def longerTx : Transaction Rat := ⟨[], [], [0], none⟩

/-- A body with the transaction of the first one behind a new one. -/
def longerBody : Body Rat := ⟨⟨[], []⟩, [longerTx, lonelyTx], [], [none, none]⟩

def childHeader : Header := headerOn (some (pairHash lonelyHeader)) 1

/-- An archive with two headers. -/
def pairedArchive : IndexedArchive Rat :=
  ⟨(treeOps lonelyRows [lonelyHeader, childHeader]).foldl
    (BmmOp.step (treeHashes lonelyRows)) .new, ∅⟩

/-- Transactions are known by the lengths of their memos. -/
def memoLibrary : Library Rat := sampleLibrary fun tx => tx.memo.length

/-- The bodies of both blocks are replaced by one that has their transaction. -/
def bodyOps : List (BodyOp Rat) :=
  [.putBody (pairHash lonelyHeader) fullBody, .putBody (pairHash lonelyHeader) longerBody,
    .putBody (pairHash childHeader) fullBody, .putBody (pairHash childHeader) longerBody]

def keepsTxids (s : IndexedArchive Rat) : BodyOp Rat → Bool
  | .putBody blockHash body | .deleteBody blockHash body =>
      (s.db.bodies[blockHash]?).all fun stored =>
        decide (txidsOf memoLibrary stored ⊆ txidsOf memoLibrary body)
  | .invalidateBlock _ => true

/-- Whether the operations can be applied one after the other and lose no transaction. -/
def keepsAll (s : IndexedArchive Rat) : List (BodyOp Rat) → Bool
  | [] => true
  | op :: ops => keepsTxids s op && holds (s.apply memoLibrary op) fun s' => keepsAll s' ops

theorem run_of_keepsAll {hashes : Hashes} {s : IndexedArchive Rat} {ops : List (BodyOp Rat)}
    (hrun : Run memoLibrary hashes (fun s op => s.KeepsTxids memoLibrary op) s)
    (h : keepsAll s ops = true) :
    ∃ s', ops.foldlM (fun s op => s.apply memoLibrary op) s = .ok s' ∧
      Run memoLibrary hashes (fun s op => s.KeepsTxids memoLibrary op) s' := by
  induction ops generalizing s with
  | nil => exact ⟨s, rfl, hrun⟩
  | cons op ops ih =>
      rw [keepsAll, Bool.and_eq_true, holds_iff] at h
      obtain ⟨hkeeps, next, hnext, hrest⟩ := h
      have hok : s.KeepsTxids memoLibrary op := by
        cases op with
        | putBody b body | deleteBody b body =>
            intro stored hstored txid htxid
            rw [keepsTxids, hstored, Option.all_some, decide_eq_true_eq] at hkeeps
            exact hkeeps htxid
        | invalidateBlock b => trivial
      obtain ⟨s', hs', hrun'⟩ := ih (hrun.body hok hnext) hrest
      exact ⟨s', by rw [List.foldlM_cons, hnext, ok_bind, hs'], hrun'⟩

theorem inclusionsExact_of_run_bodies :
    ∃ s, bodyOps.foldlM (fun s op => s.apply memoLibrary op) pairedArchive = .ok s ∧
      s.InclusionsExact memoLibrary ∧
      (s.invalidateBlock memoLibrary (pairHash childHeader)).InclusionsExact memoLibrary := by
  have hstart := run_foldl_header (Run.new : Run memoLibrary (treeHashes lonelyRows)
    (fun s op => s.KeepsTxids memoLibrary op) _) (treeOps lonelyRows [lonelyHeader, childHeader])
  obtain ⟨s, hs, hrun⟩ := run_of_keepsAll hstart
    (show keepsAll pairedArchive bodyOps = true by decide +kernel)
  have hkeeps : s.KeepsTxids memoLibrary (.invalidateBlock (pairHash childHeader)) := trivial
  have hinvalid := hrun.body hkeeps rfl
  exact ⟨s, hs, inclusionsExact_of_run.1 s hrun, inclusionsExact_of_run.1 _ hinvalid⟩

end Truthcoin.Archiving
