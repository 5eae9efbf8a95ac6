import Truthcoin.Mainchain
import Truthcoin.Connect
import Truthcoin.SampleLibrary

/-!
# The timestamp of a block

A block is connected with the timestamp of its best verification, the last one of
greatest total work in the order of a hash map. Nodes agree on the timestamp
exactly when all verifications of greatest work that they know have the same one.
-/

namespace Truthcoin.BmmTimestamp

open Truthcoin.Types Truthcoin.Table Truthcoin.Fallible Truthcoin.Decisions Truthcoin.Blocks
open Truthcoin.Validation Truthcoin.Connect Truthcoin.Mainchain Truthcoin.Mainchain.MainArchive
open Truthcoin.Commitments

section

variable {F : Type} [F64 F] [DecidableEq F] (L : Library F) (config : DecisionConfig)
  (lib : WithdrawalBundle.BundleLib)

/-- `connect_tip_`: validate, look up the timestamp, connect the block and its peg data. -/
def connectTip (archive : Archive) (A : MainArchive) (s : State F) (header : Header)
    (body : Body F) (data : TwoWayPegData) : Except Error (State F) := do
  let pre ← prevalidate L config archive s header body
  let timestamp ← (A.mainchainTimestamp (L.headerHash header)).mapError fun _ => .archive
  let s ← connectPrevalidated L config s ⟨header, body, timestamp⟩ pre
  s.connectTwoWayPegData lib data

end

section

variable {α : Type} {key : α → Except ArchiveError Nat} {w : α → Nat}

/-- An element of greatest weight. -/
def Greatest (w : α → Nat) (l : List α) (a : α) : Prop :=
  a ∈ l ∧ ∀ b ∈ l, w b ≤ w a

theorem foldlM_greatest {l : List α} {a : α} (hkey : ∀ b ∈ l, key b = .ok (w b)) :
    ∃ b, l.foldlM (fun best b => do
        let k ← key b
        .ok (if k < best.1 then best else (k, b))) (w a, a) = .ok (w b, b) ∧
      Greatest w (a :: l) b := by
  induction l generalizing a with
  | nil => exact ⟨a, rfl, by simp [Greatest]⟩
  | cons c l ih =>
      have hrest : ∀ b ∈ l, key b = .ok (w b) := fun b hb => hkey b (by simp [hb])
      rw [List.foldlM_cons, hkey c (by simp), ok_bind, ok_bind]
      by_cases hless : w c < w a
      · obtain ⟨b, hb, hmem, hmax⟩ := ih (a := a) hrest
        rw [if_pos hless]
        refine ⟨b, hb, by grind, ?_⟩
        have := hmax a (by simp)
        grind
      · obtain ⟨b, hb, hmem, hmax⟩ := ih (a := c) hrest
        rw [if_neg hless]
        refine ⟨b, hb, by grind, ?_⟩
        have := hmax c (by simp)
        grind

theorem maxByKey_greatest {l : List α} (hkey : ∀ a ∈ l, key a = .ok (w a)) (hl : l ≠ []) :
    ∃ a, maxByKey key l = .ok (some a) ∧ Greatest w l a := by
  cases l with
  | nil => exact absurd rfl hl
  | cons a l =>
      obtain ⟨b, hb, hgreatest⟩ := foldlM_greatest (a := a) (l := l)
        fun b hb => hkey b (by simp [hb])
      refine ⟨b, ?_, hgreatest⟩
      rw [maxByKey, hkey a (by simp), ok_bind, hb, ok_bind]

theorem maxByKey_append {l : List α} {a : α} (hkey : ∀ b ∈ l ++ [a], key b = .ok (w b))
    (ha : ∀ b ∈ l, w b ≤ w a) : maxByKey key (l ++ [a]) = .ok (some a) := by
  cases l with
  | nil =>
      rw [List.nil_append, maxByKey, hkey a (by simp), ok_bind]
      rfl
  | cons c l =>
      obtain ⟨b, hb, hmem, -⟩ := foldlM_greatest (a := c) (l := l)
        fun b hb => hkey b (by simp [hb])
      have hless : ¬ w a < w b := Nat.not_lt.mpr (ha b hmem)
      rw [List.cons_append, maxByKey, hkey c (by simp), ok_bind, List.foldlM_append, hb,
        ok_bind, List.foldlM_cons, hkey a (by simp), ok_bind, ok_bind, if_neg hless]
      rfl

end

/-- The same archive up to the iteration order of the hash maps. -/
structure Reordered (A B : MainArchive) : Prop where
  headers : B.toMainHeaders = A.toMainHeaders
  work : B.totalWork = A.totalWork
  results : ∀ hash, (B.getBmmResults hash).Perm (A.getBmmResults hash)

/-- A verified commitment to a block with the greatest total work. -/
def Best (A : MainArchive) (hash : BlockHash) (main : MainBlockHash) : Prop :=
  Greatest (fun m => A.totalWork[m]?.getD 0) (verifications (A.getBmmResults hash)) main

def timestampOf (A : MainArchive) (main : MainBlockHash) : Option Nat :=
  A.mainHeaderInfos[main]?.map BlockHeaderInfo.timestamp

section

variable {A A' B : MainArchive} {hash : BlockHash}

theorem mem_verifications {rows : List (MainBlockHash × BmmResult)} {main : MainBlockHash} :
    main ∈ verifications rows ↔ (main, .verified) ∈ rows := by
  simp [verifications]

theorem known_of_verified {main : MainBlockHash}
    (h : main ∈ verifications (A.getBmmResults hash)) :
    ∃ info w, A.mainHeaderInfos[main]? = some info ∧ A.totalWork[main]? = some w := by
  rw [mem_verifications, getBmmResults] at h
  cases hrows : A.bmmResults[hash]? with
  | none => simp [hrows] at h
  | some rows =>
      rw [hrows, Option.getD_some] at h
      obtain ⟨info, hinfo⟩ := A.placed hrows h
      obtain ⟨w, hw⟩ := A.work hinfo
      exact ⟨info, w, hinfo, hw⟩

theorem getTotalWork_eq {main : MainBlockHash}
    (h : main ∈ verifications (A.getBmmResults hash)) :
    A.getTotalWork main = .ok (A.totalWork[main]?.getD 0) := by
  obtain ⟨_, w, -, hw⟩ := known_of_verified h
  rw [getTotalWork, hw]
  rfl

theorem mainchainTimestamp_eq {main : MainBlockHash}
    (hbest : A.tryGetBestMainVerification hash = .ok (some main))
    (hmain : main ∈ verifications (A.getBmmResults hash)) :
    (A.mainchainTimestamp hash).toOption = timestampOf A main := by
  obtain ⟨info, _, hinfo, -⟩ := known_of_verified hmain
  rw [mainchainTimestamp, getBestMainVerification, hbest, ok_bind, okOr_some, ok_bind,
    MainHeaders.getMainHeaderInfo, hinfo, okOr_some, ok_bind, timestampOf, hinfo]
  rfl

theorem mainchainTimestamp_of_best
    (hne : verifications (A.getBmmResults hash) ≠ []) :
    ∃ main timestamp, Best A hash main ∧ A.mainchainTimestamp hash = .ok timestamp ∧
      timestampOf A main = some timestamp := by
  have hkey : ∀ m ∈ verifications (A.getBmmResults hash),
      A.getTotalWork m = .ok (A.totalWork[m]?.getD 0) := fun m hm => getTotalWork_eq hm
  obtain ⟨main, hmain, hgreatest⟩ := maxByKey_greatest hkey hne
  have htimestamp := mainchainTimestamp_eq hmain hgreatest.1
  obtain ⟨info, _, hinfo, -⟩ := known_of_verified hgreatest.1
  have hvalue : timestampOf A main = some info.timestamp := by
    rw [timestampOf, hinfo]
    rfl
  rw [hvalue] at htimestamp
  refine ⟨main, info.timestamp, hgreatest, ?_, hvalue⟩
  cases hresult : A.mainchainTimestamp hash with
  | error e => simp [hresult, Except.toOption] at htimestamp
  | ok t =>
      rw [hresult] at htimestamp
      exact congrArg Except.ok (Option.some.inj htimestamp)

theorem Reordered.verifications_perm (h : Reordered A B) :
    (verifications (B.getBmmResults hash)).Perm (verifications (A.getBmmResults hash)) :=
  (h.results hash).filterMap _

theorem Reordered.best_iff (h : Reordered A B) {main : MainBlockHash} :
    Best B hash main ↔ Best A hash main := by
  have hperm : (verifications (B.getBmmResults hash)).Perm _ := h.verifications_perm
  unfold Best Greatest
  rw [h.work]
  simp only [hperm.mem_iff]

theorem Reordered.timestampOf_eq (h : Reordered A B) (main : MainBlockHash) :
    timestampOf B main = timestampOf A main := by
  have hinfos : B.mainHeaderInfos = A.mainHeaderInfos :=
    congrArg MainHeaders.mainHeaderInfos h.headers
  rw [timestampOf, timestampOf, hinfos]

/-- The archive that iterates over the results of one block in another order. -/
def reorder (A : MainArchive) (hash : BlockHash) (rows : List (MainBlockHash × BmmResult))
    (hrows : rows.Perm (A.getBmmResults hash)) : MainArchive :=
  have hlookup : ∀ {hash' : BlockHash} {rows' : List (MainBlockHash × BmmResult)}
      {row : MainBlockHash × BmmResult},
      (A.bmmResults.insert hash rows)[hash']? = some rows' → row ∈ rows' →
        ∃ old, A.bmmResults[hash']? = some old ∧ row ∈ old := by
    intro hash' rows' row hrows' hmem
    by_cases heq : hash' = hash
    · subst heq
      obtain rfl : rows = rows' := by simpa using hrows'
      have hold := hrows.mem_iff.mp hmem
      rw [getBmmResults] at hold
      cases hbefore : A.bmmResults[hash']? with
      | none => simp [hbefore] at hold
      | some old => exact ⟨old, rfl, by simpa [hbefore] using hold⟩
    · exact ⟨rows', by grind, hmem⟩
  { A with
    bmmResults := A.bmmResults.insert hash rows
    placed := by
      intro hash' rows' main hrows' hmem
      obtain ⟨old, hold, hmem⟩ := hlookup hrows' hmem
      exact A.placed hold hmem
    verified := by
      intro hash' header rows' main hheader hrows' hmem
      obtain ⟨old, hold, hmem⟩ := hlookup hrows' hmem
      obtain ⟨info, block, hinfo, hblock, hcommit, hprev, hparent⟩ :=
        A.verified hheader hold hmem
      refine ⟨info, block, hinfo, hblock, hcommit, hprev, ?_⟩
      intro parent hprevSide
      obtain ⟨parentRows, parentMain, hparentRows, hparentMem, hancestor⟩ :=
        hparent parent hprevSide
      by_cases heq : parent = hash
      · subst heq
        refine ⟨rows, parentMain, by simp, ?_, hancestor⟩
        rw [hrows.mem_iff, getBmmResults, hparentRows]
        exact hparentMem
      · exact ⟨parentRows, parentMain, by grind, hparentMem, hancestor⟩ }

theorem reordered_reorder (A : MainArchive) (hash : BlockHash)
    (rows : List (MainBlockHash × BmmResult)) (hrows : rows.Perm (A.getBmmResults hash)) :
    Reordered A (reorder A hash rows hrows) where
  headers := rfl
  work := rfl
  results hash' := by
    by_cases heq : hash' = hash
    · subst heq
      simpa [reorder, getBmmResults] using hrows
    · have hlookup : (A.bmmResults.insert hash rows)[hash']? = A.bmmResults[hash']? := by grind
      simp [reorder, getBmmResults, hlookup]

theorem exists_order_of_best {main : MainBlockHash} (h : Best A hash main) :
    ∃ B, Reordered A B ∧ (B.mainchainTimestamp hash).toOption = timestampOf A main := by
  obtain ⟨before, after, hsplit⟩ := List.append_of_mem (mem_verifications.mp h.1)
  have hperm : ((before ++ after) ++ [(main, BmmResult.verified)]).Perm
      (A.getBmmResults hash) := by
    rw [hsplit]
    exact (List.perm_append_singleton _ _).trans List.perm_middle.symm
  have hreordered := reordered_reorder A hash _ hperm
  refine ⟨_, hreordered, ?_⟩
  generalize hB : reorder A hash _ hperm = B at hreordered
  have hrows : verifications (B.getBmmResults hash) =
      verifications (before ++ after) ++ [main] := by
    rw [← hB]
    simp [reorder, getBmmResults, verifications]
  have hbest : Best B hash main := hreordered.best_iff.mpr h
  have hchosen : B.tryGetBestMainVerification hash = .ok (some main) := by
    rw [tryGetBestMainVerification, hrows]
    refine maxByKey_append (w := fun m => B.totalWork[m]?.getD 0) ?_ ?_
    · intro m hm
      exact getTotalWork_eq (hrows ▸ hm)
    · intro m hm
      refine hbest.2 m ?_
      rw [hrows]
      simp [hm]
  rw [mainchainTimestamp_eq hchosen hbest.1, hreordered.timestampOf_eq]

/-- Two archives that hold the same active mainchain, with a verified commitment to the
same block on it. They may differ in everything else they know. -/
structure SharedActive (A A' : MainArchive) (tip : MainBlockHash) (hash : BlockHash)
    (main : MainBlockHash) : Prop where
  active : A.ancestors tip = A'.ancestors tip
  infos : ∀ m ∈ A.ancestors tip, A.mainHeaderInfos[m]? = A'.mainHeaderInfos[m]? ∧
    A.totalWork[m]? = A'.totalWork[m]? ∧ A.mainBlockInfos[m]? = A'.mainBlockInfos[m]?
  header : A.headers[hash]? = A'.headers[hash]?
  onActive : main ∈ A.ancestors tip
  verified : main ∈ verifications (A.getBmmResults hash)
  verified' : main ∈ verifications (A'.getBmmResults hash)

variable {tip v : MainBlockHash}

theorem timestamps_agree (h : SharedActive A A' tip hash v)
    (hbest : ∀ m m', Best A hash m → Best A' hash m' → timestampOf A m = timestampOf A' m')
    {B B' : MainArchive} (hB : Reordered A B) (hB' : Reordered A' B') :
    B.mainchainTimestamp hash = B'.mainchainTimestamp hash := by
  have hne : verifications (B.getBmmResults hash) ≠ [] :=
    List.ne_nil_of_mem (hB.verifications_perm.mem_iff.mpr h.verified)
  have hne' : verifications (B'.getBmmResults hash) ≠ [] :=
    List.ne_nil_of_mem (hB'.verifications_perm.mem_iff.mpr h.verified')
  obtain ⟨m, t, hm, ht, hvalue⟩ := mainchainTimestamp_of_best hne
  obtain ⟨m', t', hm', ht', hvalue'⟩ := mainchainTimestamp_of_best hne'
  have heq := hbest m m' (hB.best_iff.mp hm) (hB'.best_iff.mp hm')
  rw [← hB.timestampOf_eq, ← hB'.timestampOf_eq, hvalue, hvalue', Option.some.injEq] at heq
  rw [ht, ht', heq]

variable {F : Type} [F64 F] [DecidableEq F] {L : Library F} {config : DecisionConfig}
  {lib : WithdrawalBundle.BundleLib} {header : Header}

/-- Whatever the orders of their hash maps, two nodes connect a block with the same
timestamp exactly when the best verifications that they know all have one timestamp;
then they connect it alike. -/
theorem same_timestamp_iff (h : SharedActive A A' tip (L.headerHash header) v) :
    ((∀ B B', Reordered A B → Reordered A' B' →
          B.mainchainTimestamp (L.headerHash header) =
            B'.mainchainTimestamp (L.headerHash header)) ↔
        ∀ m m', Best A (L.headerHash header) m → Best A' (L.headerHash header) m' →
          timestampOf A m = timestampOf A' m') ∧
      ((∀ m m', Best A (L.headerHash header) m → Best A' (L.headerHash header) m' →
          timestampOf A m = timestampOf A' m') →
        ∀ B B', Reordered A B → Reordered A' B' →
          ∀ (archive : Archive) (s : State F) (body : Body F) (data : TwoWayPegData),
            connectTip L config lib archive B s header body data =
              connectTip L config lib archive B' s header body data) := by
  refine ⟨⟨?_, fun hbest B B' hB hB' => timestamps_agree h hbest hB hB'⟩, ?_⟩
  · intro hsame m m' hm hm'
    obtain ⟨B, hB, htimestamp⟩ := exists_order_of_best hm
    obtain ⟨B', hB', htimestamp'⟩ := exists_order_of_best hm'
    rw [← htimestamp, ← htimestamp', hsame B B' hB hB']
  · intro hbest B B' hB hB' archive s body data
    unfold connectTip
    rw [timestamps_agree h hbest hB hB']

end

/-- Block 1 has the child 2 and, on a node that has seen the fork, the child 3. -/
def forkInfos (forked : Bool) : Table MainBlockHash BlockHeaderInfo :=
  let active := ((∅ : Table MainBlockHash BlockHeaderInfo).insert 1 ⟨1, 0, 1, 50⟩).insert 2
    ⟨2, 1, 1, 100⟩
  if forked then active.insert 3 ⟨3, 1, 1, 200⟩ else active

theorem forkInfos_cases {forked : Bool} {h : MainBlockHash} {info : BlockHeaderInfo}
    (hinfo : (forkInfos forked)[h]? = some info) :
    h = 1 ∧ info = ⟨1, 0, 1, 50⟩ ∨ h = 2 ∧ info = ⟨2, 1, 1, 100⟩ ∨
      h = 3 ∧ info = ⟨3, 1, 1, 200⟩ ∧ forked = true := by
  unfold forkInfos at hinfo
  split at hinfo <;> grind

def forkHeights : Table MainBlockHash Nat :=
  (((∅ : Table MainBlockHash Nat).insert 1 0).insert 2 1).insert 3 1

theorem forkInfos_first (forked : Bool) :
    (forkInfos forked)[(1 : MainBlockHash)]? = some ⟨1, 0, 1, 50⟩ := by
  cases forked <;> rfl

def forkHeaders (forked : Bool) : MainHeaders where
  mainHeaderInfos := forkInfos forked
  mainBlockHashToHeight := forkHeights
  keyed := by
    intro h info hinfo
    rcases forkInfos_cases hinfo with ⟨rfl, rfl⟩ | ⟨rfl, rfl⟩ | ⟨rfl, rfl, -⟩
    all_goals decide
  first := by
    intro h info hinfo hfirst
    rcases forkInfos_cases hinfo with ⟨rfl, rfl⟩ | ⟨rfl, rfl⟩ | ⟨rfl, rfl, -⟩
    · rfl
    · cases hfirst
    · cases hfirst
  child := by
    intro h info hinfo hchild
    rcases forkInfos_cases hinfo with ⟨rfl, rfl⟩ | ⟨rfl, rfl⟩ | ⟨rfl, rfl, -⟩
    · exact absurd rfl hchild
    · exact ⟨_, 0, forkInfos_first forked, rfl, rfl⟩
    · exact ⟨_, 0, forkInfos_first forked, rfl, rfl⟩

theorem rank_forkHeaders {forked : Bool} {h : MainBlockHash} {info : BlockHeaderInfo}
    (hinfo : (forkHeaders forked).mainHeaderInfos[h]? = some info) :
    (forkHeaders forked).rank h ≤ 2 := by
  rcases forkInfos_cases hinfo with ⟨rfl, rfl⟩ | ⟨rfl, rfl⟩ | ⟨rfl, rfl, -⟩
  all_goals exact Nat.le_of_ble_eq_true rfl

/-- Blocks 2 and 3 commit to the block 7. -/
def forkBlocks (forked : Bool) : Table MainBlockHash MainBlockInfo :=
  let active := ((∅ : Table MainBlockHash MainBlockInfo).insert 1 ⟨none, []⟩).insert 2
    ⟨some 7, []⟩
  if forked then active.insert 3 ⟨some 7, []⟩ else active

theorem forkBlocks_cases {forked : Bool} {h : MainBlockHash} {block : MainBlockInfo}
    (hblock : (forkBlocks forked)[h]? = some block) :
    h = 1 ∨ h = 2 ∨ h = 3 ∧ forked = true := by
  unfold forkBlocks at hblock
  split at hblock <;> grind

/-- A block that follows block 1. -/
def forkHeader : Header := ⟨0, none, 1⟩

def forkResults (forked : Bool) : List (MainBlockHash × BmmResult) :=
  if forked then [(2, .verified), (3, .verified)] else [(2, .verified)]

def forkArchive (forked : Bool) : MainArchive where
  toMainHeaders := forkHeaders forked
  exponentialMainAncestors :=
    (((∅ : Table MainBlockHash (List MainBlockHash)).insert 1 []).insert 2 []).insert 3 []
  totalWork := (((∅ : Table MainBlockHash Nat).insert 1 1).insert 2 2).insert 3 2
  mainBlockInfos := forkBlocks forked
  headers := (∅ : Table BlockHash Header).insert 7 forkHeader
  bmmResults := (∅ : Table BlockHash (List (MainBlockHash × BmmResult))).insert 7
    (forkResults forked)
  exponential := by
    intro h info hinfo
    have hrank := rank_forkHeaders hinfo
    refine ⟨[], ?_, ?_⟩
    · rcases forkInfos_cases hinfo with ⟨rfl, rfl⟩ | ⟨rfl, rfl⟩ | ⟨rfl, rfl, -⟩
      all_goals rfl
    · intro i hi
      have hpow : 2 ^ 1 ≤ 2 ^ (i + 1) := Nat.pow_le_pow_right (by decide) (by omega)
      omega
  work := by
    intro h info hinfo
    rcases forkInfos_cases hinfo with ⟨rfl, rfl⟩ | ⟨rfl, rfl⟩ | ⟨rfl, rfl, -⟩
    · exact ⟨1, rfl⟩
    · exact ⟨2, rfl⟩
    · exact ⟨2, rfl⟩
  closed := by
    intro h block hblock
    have hparent : ∃ parent, (forkBlocks forked)[(1 : MainBlockHash)]? = some parent := by
      cases forked
      · exact ⟨_, rfl⟩
      · exact ⟨_, rfl⟩
    rcases forkBlocks_cases hblock with rfl | rfl | ⟨rfl, rfl⟩
    · exact ⟨_, forkInfos_first forked, fun hne => absurd rfl hne⟩
    · cases forked
      · exact ⟨⟨2, 1, 1, 100⟩, rfl, fun _ => hparent⟩
      · exact ⟨⟨2, 1, 1, 100⟩, rfl, fun _ => hparent⟩
    · exact ⟨⟨3, 1, 1, 200⟩, rfl, fun _ => hparent⟩
  ordered := by
    intro hash header hheader
    have hcase : hash = 7 ∧ header = forkHeader := by grind
    rw [hcase.2]
    simp [forkHeader]
  placed := by
    intro hash rows main hrows hmem
    obtain ⟨rfl, rfl⟩ : hash = 7 ∧ rows = forkResults forked := by grind
    cases forked with
    | false =>
        obtain rfl : main = 2 := by simpa [forkResults] using hmem
        exact ⟨⟨2, 1, 1, 100⟩, rfl⟩
    | true =>
        rcases (by simpa [forkResults] using hmem : main = 2 ∨ main = 3) with rfl | rfl
        · exact ⟨⟨2, 1, 1, 100⟩, rfl⟩
        · exact ⟨⟨3, 1, 1, 200⟩, rfl⟩
  verified := by
    intro hash header rows main hheader hrows hmem
    obtain ⟨rfl, rfl⟩ : hash = 7 ∧ rows = forkResults forked := by grind
    obtain rfl : header = forkHeader := by grind
    cases forked with
    | false =>
        obtain rfl : main = 2 := by simpa [forkResults] using hmem
        exact ⟨⟨2, 1, 1, 100⟩, ⟨some 7, []⟩, rfl, rfl, rfl, rfl, nofun⟩
    | true =>
        rcases (by simpa [forkResults] using hmem : main = 2 ∨ main = 3) with rfl | rfl
        · exact ⟨⟨2, 1, 1, 100⟩, ⟨some 7, []⟩, rfl, rfl, rfl, rfl, nofun⟩
        · exact ⟨⟨3, 1, 1, 200⟩, ⟨some 7, []⟩, rfl, rfl, rfl, rfl, nofun⟩

theorem ancestors_forkHeaders (forked : Bool) : (forkArchive forked).ancestors 2 = [2, 1] := by
  have hsecond : (forkInfos forked)[(2 : MainBlockHash)]? = some ⟨2, 1, 1, 100⟩ := by
    cases forked <;> rfl
  rw [MainHeaders.ancestors_of_info (M := (forkArchive forked).toMainHeaders) hsecond,
    MainHeaders.ancestors_of_info (forkInfos_first forked)]
  show [2, 1] ++ (forkHeaders forked).ancestors allZeros = [2, 1]
  rw [MainHeaders.ancestors_allZeros]
  rfl

theorem sharedActive_forkArchive (forked : Bool) :
    SharedActive (forkArchive false) (forkArchive forked) 2 7 2 where
  active := by rw [ancestors_forkHeaders, ancestors_forkHeaders]
  infos := by
    intro m hm
    rw [ancestors_forkHeaders] at hm
    rcases (by simpa using hm : m = 2 ∨ m = 1) with rfl | rfl
    all_goals cases forked <;> exact ⟨rfl, rfl, rfl⟩
  header := rfl
  onActive := by
    rw [ancestors_forkHeaders]
    simp
  verified := by decide
  verified' := by cases forked <;> decide

/-- A library in which every header has the hash 7. -/
def forkLibrary : Library Rat := { sampleLibrary (fun _ => 0) with headerHash := fun _ => 7 }

theorem best_forkArchive {main : MainBlockHash} (h : Best (forkArchive false) 7 main) :
    main = 2 := by
  have hmain : main ∈ [(2 : MainBlockHash)] := h.1
  simpa using hmain

/-- Without the fork, the nodes share the chain to block 2 and connect the block 7 alike. -/
theorem same_timestamp_iff_without_fork :
    SharedActive (forkArchive false) (forkArchive false) 2 7 2 ∧
      ∀ B B', Reordered (forkArchive false) B → Reordered (forkArchive false) B' →
        ∀ (archive : Archive) (s : State Rat) (body : Body Rat) (data : TwoWayPegData),
          connectTip forkLibrary ⟨true, 2⟩ sampleBundleLib archive B s forkHeader body data =
            connectTip forkLibrary ⟨true, 2⟩ sampleBundleLib archive B' s forkHeader body data := by
  have hshared : SharedActive (forkArchive false) (forkArchive false) 2
      (forkLibrary.headerHash forkHeader) 2 := sharedActive_forkArchive false
  refine ⟨hshared, (same_timestamp_iff hshared).2 fun m m' hm hm' => ?_⟩
  rw [best_forkArchive hm, best_forkArchive hm']

/-- A node that has seen the fork connects the block 7 with the timestamp 200, a node that
has not with the timestamp 100. -/
theorem fork_changes_timestamp :
    ¬ ∀ (A A' : MainArchive) (tip v : MainBlockHash) (hash : BlockHash),
      SharedActive A A' tip hash v → A.mainchainTimestamp hash = A'.mainchainTimestamp hash := by
  intro hall
  have hsame := hall _ _ 2 2 7 (sharedActive_forkArchive true)
  have hactive : (forkArchive false).mainchainTimestamp 7 = .ok 100 := rfl
  have hforked : (forkArchive true).mainchainTimestamp 7 = .ok 200 := rfl
  rw [hactive, hforked] at hsame
  simp at hsame

end Truthcoin.BmmTimestamp
