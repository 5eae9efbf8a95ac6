import Truthcoin.ArchiveDb

/-!
# Sound archives

What holds of every archive that the operations can reach when the hash of a header
or of a mainchain block determines its contents: the indexes of both chains are
rooted with exact rows, and the successors are exactly the children.
-/

namespace Truthcoin.Archiving

open Truthcoin.Types Truthcoin.Table Truthcoin.Fallible Truthcoin.Blocks
open Truthcoin.Mainchain Truthcoin.Lineage

/-- The hash of a sidechain header, and what the hash of a mainchain block stands for. -/
structure Hashes where
  headerHash : Header → BlockHash
  headerHash_injective : Function.Injective headerHash
  mainHeader : MainBlockHash → MainHeaderInfo
  mainBlock : MainBlockHash → MainBlockInfo

variable {B : Type}

namespace ArchiveDb

theorem lookup_linkSuccessor {K V : Type} [TableKey K] [DecidableEq K] [DecidableEq V]
    {successors : Table K (List V)} {pred own k : K} {predSuccessors : List V} {block : V}
    (hne : own ≠ pred) :
    (linkSuccessor successors pred own predSuccessors block)[k]? =
      if k = own then some (successors[own]?.getD [])
      else if k = pred then some (predSuccessors.insert block) else successors[k]? := by
  unfold linkSuccessor
  rw [lookup_insert, lookup_insert, if_neg hne, lookup_insert]

theorem mem_linkSuccessor {K V : Type} [TableKey K] [DecidableEq K] [DecidableEq V]
    {successors : Table K (List V)} {pred own : K} {predSuccessors : List V} {block : V}
    {Child : V → K → Prop} (hne : own ≠ pred)
    (hrows : ∀ {p : K} {l : List V}, successors[p]? = some l → ∀ m, m ∈ l ↔ Child m p)
    (hpred : successors[pred]? = some predSuccessors)
    (hown : successors[own]? = none → ∀ m, ¬ Child m own) {p : K} {l : List V}
    (hl : (linkSuccessor successors pred own predSuccessors block)[p]? = some l) (m : V) :
    m ∈ l ↔ Child m p ∨ m = block ∧ p = pred := by
  rw [lookup_linkSuccessor hne] at hl
  by_cases hp : p = own
  · subst hp
    have hnot : ¬ (m = block ∧ p = pred) := fun h => hne h.2
    rw [if_pos rfl, Option.some.injEq] at hl
    rw [or_iff_left hnot, ← hl]
    cases hrow : successors[p]? with
    | some l' => rw [Option.getD_some, hrows hrow]
    | none =>
        rw [Option.getD_none]
        exact ⟨fun hmem => absurd hmem (List.not_mem_nil), fun hchild =>
          absurd hchild (hown hrow m)⟩
  · rw [if_neg hp] at hl
    by_cases heq : p = pred
    · subst heq
      rw [if_pos rfl, Option.some.injEq] at hl
      rw [← hl, List.mem_insert_iff, hrows hpred]
      simp only [and_true, or_comm]
    · rw [if_neg heq] at hl
      rw [hrows hl]
      simp only [heq, and_false, or_false]

/-- The mainchain half of a sound archive. -/
structure MainSound (hashes : Hashes) (db : ArchiveDb B) : Prop where
  rooted : db.mainIndex.Rooted
  rows : ∀ {h : MainBlockHash} {n : Nat}, db.mainIndex.height h = some n →
    db.mainIndex.RowExact h
  header : ∀ {h : MainBlockHash} {info : MainHeaderInfo}, db.mainHeaderInfos[h]? = some info →
    info = hashes.mainHeader h ∧ info.blockHash = h ∧ h ≠ allZeros
  block : ∀ {h : MainBlockHash} {block : MainBlockInfo}, db.mainBlockInfos[h]? = some block →
    block = hashes.mainBlock h ∧ ∃ info : MainHeaderInfo, db.mainHeaderInfos[h]? = some info ∧
      (info.prevBlockHash = allZeros ∨ info.prevBlockHash ∈ db.mainBlockInfos)
  work : ∀ {h : MainBlockHash} {info : MainHeaderInfo}, db.mainHeaderInfos[h]? = some info →
    ∃ w, db.totalWork[h]? = some w ∧ db.totalWorkAfter info = .ok w
  workKnown : ∀ {h : MainBlockHash}, h ∈ db.totalWork → h ∈ db.mainHeaderInfos
  successors : ∀ {p : MainBlockHash} {l : List MainBlockHash}, db.mainSuccessors[p]? = some l →
    ∀ m, m ∈ l ↔
      ∃ info : MainHeaderInfo, db.mainHeaderInfos[m]? = some info ∧ info.prevBlockHash = p
  successorsStored : ∀ {p : MainBlockHash}, p = allZeros ∨ p ∈ db.mainHeaderInfos →
    p ∈ db.mainSuccessors
  successorsKnown : ∀ {p : MainBlockHash}, p ∈ db.mainSuccessors →
    p = allZeros ∨ p ∈ db.mainHeaderInfos

/-- The sidechain half of a sound archive. -/
structure SideSound (hashes : Hashes) (db : ArchiveDb B) : Prop where
  rooted : db.sideIndex.Rooted
  rows : ∀ {h : BlockHash} {n : Nat}, db.sideIndex.height h = some n → db.sideIndex.RowExact h
  header : ∀ {h : BlockHash} {header : Header}, db.headers[h]? = some header →
    hashes.headerHash header = h ∧
    (header.prevMainHash = allZeros ∨ header.prevMainHash ∈ db.mainHeaderInfos)
  successors : ∀ {p : Option BlockHash} {l : List BlockHash}, db.successors[p]? = some l →
    l.Nodup ∧ ∀ b, b ∈ l ↔ ∃ header : Header, db.headers[b]? = some header ∧ header.prevSideHash = p
  successorsStored : ∀ {h : BlockHash}, h ∈ db.headers → some h ∈ db.successors
  genesisStored : none ∈ db.successors
  body : ∀ {h : BlockHash}, h ∈ db.bodies → h ∈ db.headers

variable {hashes : Hashes} {db db' : ArchiveDb B}

theorem mainIndex_parent {h : MainBlockHash} {info : MainHeaderInfo}
    (hinfo : db.mainHeaderInfos[h]? = some info) :
    db.mainIndex.parent h = some (mainParent info) := by
  show db.mainHeaderInfos[h]?.map mainParent = _
  rw [hinfo, Option.map_some]

theorem exists_info_of_parent {h : MainBlockHash} {q : Option MainBlockHash}
    (hparent : db.mainIndex.parent h = some q) :
    ∃ info, db.mainHeaderInfos[h]? = some info ∧ mainParent info = q :=
  Option.map_eq_some_iff.mp hparent

theorem MainSound.height (hdb : db.MainSound hashes) {h : MainBlockHash} {info : MainHeaderInfo}
    (hinfo : db.mainHeaderInfos[h]? = some info) : ∃ n, db.mainIndex.height h = some n :=
  Index.height_of_parent hdb.rooted (mainIndex_parent hinfo)

theorem MainSound.info_of_height (hdb : db.MainSound hashes) {h : MainBlockHash} {n : Nat}
    (hh : db.mainIndex.height h = some n) : ∃ info, db.mainHeaderInfos[h]? = some info := by
  obtain ⟨q, hq⟩ := hdb.rooted.stored hh
  obtain ⟨info, hinfo, -⟩ := exists_info_of_parent hq
  exact ⟨info, hinfo⟩

theorem MainSound.info_of_mem (hdb : db.MainSound hashes) {h a : MainBlockHash}
    {info : MainHeaderInfo} (hinfo : db.mainHeaderInfos[h]? = some info)
    (hmem : a ∈ db.mainIndex.ancestors h) : ∃ info, db.mainHeaderInfos[a]? = some info := by
  obtain ⟨n, hn⟩ := hdb.height hinfo
  obtain ⟨m, -, hm⟩ := Index.height_of_mem hdb.rooted hn hmem
  exact hdb.info_of_height hm

theorem MainSound.prev_known (hdb : db.MainSound hashes) {h : MainBlockHash}
    {info : MainHeaderInfo} (hinfo : db.mainHeaderInfos[h]? = some info) :
    info.prevBlockHash = allZeros ∨ info.prevBlockHash ∈ db.mainHeaderInfos := by
  by_cases hfirst : info.prevBlockHash = allZeros
  · exact .inl hfirst
  · have hparent := mainIndex_parent hinfo
    rw [mainParent, if_neg hfirst] at hparent
    obtain ⟨n, hn, -⟩ := hdb.rooted.child hparent
    exact .inr (mem_iff_lookup.mpr (hdb.info_of_height hn))

theorem MainSound.rows_of_ancestors (hdb : db.MainSound hashes) {h : MainBlockHash} {n : Nat}
    (hh : db.mainIndex.height h = some n) : ∀ a ∈ db.mainIndex.ancestors h,
      db.mainIndex.RowExact a := by
  intro a ha
  obtain ⟨m, -, hm⟩ := Index.height_of_mem hdb.rooted hh ha
  exact hdb.rows hm

theorem MainSound.isMainDescendant_eq (hdb : db.MainSound hashes) {a d : MainBlockHash}
    {ainfo dinfo : MainHeaderInfo} (ha : db.mainHeaderInfos[a]? = some ainfo)
    (hd : db.mainHeaderInfos[d]? = some dinfo) :
    db.isMainDescendant a d = .ok (decide (a ∈ db.mainIndex.ancestors d)) := by
  obtain ⟨n, hn⟩ := hdb.height ha
  obtain ⟨m, hm⟩ := hdb.height hd
  exact Index.isDescendant_eq hdb.rooted hn hm (hdb.rows_of_ancestors hm)

theorem MainSound.block_of_mem (hdb : db.MainSound hashes) {h a : MainBlockHash}
    (hblock : h ∈ db.mainBlockInfos) (hmem : a ∈ db.mainIndex.ancestors h) :
    a ∈ db.mainBlockInfos := by
  obtain ⟨block, hrow⟩ := mem_iff_lookup.mp hblock
  obtain ⟨-, info, hinfo, -⟩ := hdb.block hrow
  obtain ⟨n, hn⟩ := hdb.height hinfo
  clear hrow hinfo info block
  revert hblock hmem
  refine Index.rooted_induction hdb.rooted (P := fun h => h ∈ db.mainBlockInfos →
    a ∈ db.mainIndex.ancestors h → a ∈ db.mainBlockInfos) ?_ ?_ hn
  · intro h hfirst hblock hmem
    rw [Index.ancestors_first hfirst, List.mem_singleton] at hmem
    rwa [hmem]
  · intro h p hchild ih hblock hmem
    rw [Index.ancestors_child hdb.rooted hchild] at hmem
    rcases List.mem_cons.mp hmem with rfl | hmem
    · exact hblock
    · apply ih _ hmem
      obtain ⟨block, hrow⟩ := mem_iff_lookup.mp hblock
      obtain ⟨-, info, hinfo, hprev⟩ := hdb.block hrow
      rw [mainIndex_parent hinfo, Option.some.injEq, mainParent] at hchild
      split at hchild
      · cases hchild
      · rename_i hne
        rw [Option.some.injEq] at hchild
        exact hchild ▸ hprev.resolve_left hne

/-- The header stands for its hash, and no block has the hash of zeros. -/
def AuthenticHeader (hashes : Hashes) (info : MainHeaderInfo) : Prop :=
  info = hashes.mainHeader info.blockHash ∧ info.blockHash ≠ allZeros

theorem putMainHeaderInfo_eq_ok {info : MainHeaderInfo}
    (h : db.putMainHeaderInfo info = .ok db') :
    (info.prevBlockHash ∈ db.mainHeaderInfos ∨ info.prevBlockHash = allZeros) ∧
      ∃ height work pred row, db.mainHeightAfter info = .ok height ∧
        db.totalWorkAfter info = .ok work ∧ db.mainSuccessors[info.prevBlockHash]? = some pred ∧
        (db.linkMainHeader info height work pred).mainIndex.exponentialRow mainFaults height
          (some info.prevBlockHash) = .ok row ∧
        db' = (db.linkMainHeader info height work pred).withMainRow info.blockHash row := by
  unfold putMainHeaderInfo at h
  simp only [bind_eq_ok_iff, checkMainParent, ensure_eq_ok_iff, getMainSuccessors,
    okOr_eq_ok_iff] at h
  obtain ⟨_, hprev, height, hheight, work, hwork, pred, hpred, row, hrow, hdb⟩ := h
  exact ⟨hprev, height, work, pred, row, hheight, hwork, hpred, hrow, (Except.ok.inj hdb).symm⟩

theorem mainIndex_linkMainHeader {info : MainHeaderInfo} {height work : Nat}
    {pred : List MainBlockHash} : (db.linkMainHeader info height work pred).mainIndex =
      db.mainIndex.link info.blockHash (mainParent info) height := by
  unfold mainIndex linkMainHeader Index.link
  congr 1
  · funext h
    rw [lookup_insert, apply_ite (Option.map mainParent), Option.map_some]
  · funext h
    rw [lookup_insert]

theorem mainIndex_withRow {row : List MainBlockHash} {h : MainBlockHash} :
    (db.withMainRow h row).mainIndex = db.mainIndex.withRow h row := by
  unfold mainIndex withMainRow Index.withRow
  congr 1
  funext h'
  rw [lookup_insert]

theorem MainSound.linkable (hdb : db.MainSound hashes) {info : MainHeaderInfo} {height : Nat}
    (hauth : AuthenticHeader hashes info) (hheight : db.mainHeightAfter info = .ok height) :
    db.mainIndex.Linkable info.blockHash (mainParent info) height := by
  constructor
  · cases hstored : db.mainHeaderInfos[info.blockHash]? with
    | none =>
        left
        show db.mainHeaderInfos[info.blockHash]?.map mainParent = none
        rw [hstored, Option.map_none]
    | some stored =>
        right
        rw [mainIndex_parent hstored, (hdb.header hstored).1, ← hauth.1]
  · unfold mainHeightAfter at hheight
    unfold mainParent
    by_cases hfirst : info.prevBlockHash = allZeros
    · rw [if_pos hfirst] at hheight ⊢
      exact (Except.ok.inj hheight).symm
    · rw [if_neg hfirst] at hheight ⊢
      obtain ⟨n, hn, heq⟩ := bind_eq_ok_iff.mp hheight
      exact ⟨n, okOr_eq_ok_iff.mp hn, (Except.ok.inj heq).symm⟩

theorem MainSound.stored_again (hdb : db.MainSound hashes) {info stored : MainHeaderInfo}
    (hauth : AuthenticHeader hashes info)
    (hstored : db.mainHeaderInfos[info.blockHash]? = some stored) : stored = info := by
  rw [(hdb.header hstored).1, ← hauth.1]

theorem MainSound.prev_ne (hdb : db.MainSound hashes) {info : MainHeaderInfo} {height : Nat}
    (hauth : AuthenticHeader hashes info) (hheight : db.mainHeightAfter info = .ok height) :
    info.prevBlockHash ≠ info.blockHash := by
  intro heq
  have hne : info.prevBlockHash ≠ allZeros := heq ▸ hauth.2
  have hlink := hdb.linkable hauth hheight
  have hparent : mainParent info = some info.blockHash := by
    rw [mainParent, if_neg hne, heq]
  obtain ⟨m, hm, rfl⟩ : ∃ m, db.mainIndex.height info.blockHash = some m ∧ height = m + 1 := by
    have := hlink.2
    rwa [hparent] at this
  obtain ⟨q, hq⟩ := hdb.rooted.stored hm
  have hsome := hlink.1.resolve_left (by rw [hq]; simp)
  have hagain := Index.height_of_stored_again hdb.rooted hlink hsome
  rw [hm, Option.some.injEq] at hagain
  omega

theorem MainSound.mainHeaderInfos_insert (hdb : db.MainSound hashes) {info : MainHeaderInfo}
    (hauth : AuthenticHeader hashes info) {h : MainBlockHash} {stored : MainHeaderInfo}
    (hstored : db.mainHeaderInfos[h]? = some stored) :
    (db.mainHeaderInfos.insert info.blockHash info)[h]? = some stored := by
  show (db.mainHeaderInfos.insert info.blockHash info)[h]? = some stored
  rw [lookup_insert]
  split
  · rename_i heq
    rw [heq] at hstored
    rw [hdb.stored_again hauth hstored]
  · exact hstored

section

variable {info : MainHeaderInfo} {height work : Nat} {pred row : List MainBlockHash}

theorem mainHeaderInfos_stored (h : MainBlockHash) :
    ((db.linkMainHeader info height work pred).withMainRow info.blockHash row).mainHeaderInfos[h]? =
      if h = info.blockHash then some info else db.mainHeaderInfos[h]? :=
  lookup_insert

theorem MainSound.header_kept (hdb : db.MainSound hashes) (hauth : AuthenticHeader hashes info)
    {h : MainBlockHash} {stored : MainHeaderInfo} (hstored : db.mainHeaderInfos[h]? = some stored) :
    (if h = info.blockHash then some info else db.mainHeaderInfos[h]?) = some stored :=
  lookup_insert.symm.trans (hdb.mainHeaderInfos_insert hauth hstored)

theorem MainSound.totalWork_kept (hdb : db.MainSound hashes) (hauth : AuthenticHeader hashes info)
    (hwork : db.totalWorkAfter info = .ok work) {h : MainBlockHash} {w : Nat}
    (hw : db.totalWork[h]? = some w) : (db.totalWork.insert info.blockHash work)[h]? = some w := by
  rw [lookup_insert]
  split
  · -- a header that is stored again gets the total work that it has
    rename_i heq
    obtain ⟨stored, hstored⟩ := mem_iff_lookup.mp (hdb.workKnown (mem_iff_lookup.mpr ⟨w, hw⟩))
    rw [heq] at hstored hw
    obtain ⟨w', hw', hwork'⟩ := hdb.work hstored
    rw [hdb.stored_again hauth hstored, hwork, Except.ok.injEq] at hwork'
    rw [hwork', ← hw', hw]
  · exact hw

theorem MainSound.totalWorkAfter_kept (hdb : db.MainSound hashes)
    (hauth : AuthenticHeader hashes info) (hwork : db.totalWorkAfter info = .ok work)
    {stored : MainHeaderInfo} {w : Nat} (hw : db.totalWorkAfter stored = .ok w) :
    ((db.linkMainHeader info height work pred).withMainRow info.blockHash row).totalWorkAfter
      stored = .ok w := by
  unfold totalWorkAfter at hw ⊢
  split
  · rename_i hfirst
    rw [if_pos hfirst] at hw
    obtain ⟨w', hw', heq⟩ := bind_eq_ok_iff.mp hw
    have hkept := hdb.totalWork_kept hauth hwork (okOr_eq_ok_iff.mp hw')
    exact bind_eq_ok_iff.mpr ⟨w', okOr_eq_ok_iff.mpr hkept, heq⟩
  · rename_i hfirst
    rwa [if_neg hfirst] at hw

theorem MainSound.work_stored (hdb : db.MainSound hashes) (hauth : AuthenticHeader hashes info)
    (hwork : db.totalWorkAfter info = .ok work) {h : MainBlockHash} {stored : MainHeaderInfo}
    (hstored : (if h = info.blockHash then some info else db.mainHeaderInfos[h]?) = some stored) :
    ∃ w, (db.totalWork.insert info.blockHash work)[h]? = some w ∧
      ((db.linkMainHeader info height work pred).withMainRow info.blockHash row).totalWorkAfter
        stored = .ok w := by
  split at hstored
  · rename_i heq
    obtain rfl := Option.some.inj hstored
    exact ⟨work, lookup_insert.trans (if_pos heq), hdb.totalWorkAfter_kept hauth hwork hwork⟩
  · obtain ⟨w, hw, hafter⟩ := hdb.work hstored
    exact ⟨w, hdb.totalWork_kept hauth hwork hw, hdb.totalWorkAfter_kept hauth hwork hafter⟩

theorem MainSound.workKnown_stored (hdb : db.MainSound hashes) {h : MainBlockHash} {w : Nat}
    (hw : (db.totalWork.insert info.blockHash work)[h]? = some w) :
    ∃ stored, (if h = info.blockHash then some info else db.mainHeaderInfos[h]?) =
      some stored := by
  rw [lookup_insert] at hw
  split at hw
  · exact ⟨info, if_pos ‹_›⟩
  · rename_i hne
    rw [if_neg hne]
    exact mem_iff_lookup.mp (hdb.workKnown (mem_iff_lookup.mpr ⟨w, hw⟩))

theorem MainSound.no_child (hdb : db.MainSound hashes) {h : MainBlockHash}
    (hnone : db.mainSuccessors[h]? = none) (m : MainBlockHash) :
    ¬ ∃ stored : MainHeaderInfo,
      db.mainHeaderInfos[m]? = some stored ∧ stored.prevBlockHash = h := by
  rintro ⟨stored, hstored, heq⟩
  have hmem := hdb.successorsStored (hdb.prev_known hstored)
  rw [heq, mem_iff_lookup, hnone] at hmem
  obtain ⟨l', hl'⟩ := hmem
  cases hl'

theorem MainSound.successors_stored (hdb : db.MainSound hashes)
    (hauth : AuthenticHeader hashes info) (hne : info.blockHash ≠ info.prevBlockHash)
    (hpred : db.mainSuccessors[info.prevBlockHash]? = some pred) {p : MainBlockHash}
    {l : List MainBlockHash}
    (hl : (linkSuccessor db.mainSuccessors info.prevBlockHash info.blockHash pred
      info.blockHash)[p]? = some l) (m : MainBlockHash) :
    m ∈ l ↔ ∃ stored : MainHeaderInfo,
      (if m = info.blockHash then some info else db.mainHeaderInfos[m]?) = some stored ∧
        stored.prevBlockHash = p := by
  rw [mem_linkSuccessor hne hdb.successors hpred (fun hnone => hdb.no_child hnone) hl]
  constructor
  · rintro (⟨stored, hstored, hprev⟩ | ⟨hm, hp⟩)
    · exact ⟨stored, hdb.header_kept hauth hstored, hprev⟩
    · exact ⟨info, if_pos hm, hp.symm⟩
  · rintro ⟨stored, hstored, hprev⟩
    split at hstored
    · rename_i heq
      obtain rfl := Option.some.inj hstored
      exact .inr ⟨heq, hprev.symm⟩
    · exact .inl ⟨stored, hstored, hprev⟩

end

theorem MainSound.putMainHeaderInfo (hdb : db.MainSound hashes) {info : MainHeaderInfo}
    (hauth : AuthenticHeader hashes info) (h : db.putMainHeaderInfo info = .ok db') :
    db'.MainSound hashes := by
  obtain ⟨hprev, height, work, pred, row, hheight, hwork, hpred, hrow, rfl⟩ :=
    putMainHeaderInfo_eq_ok h
  have hlink := hdb.linkable hauth hheight
  have hne := (hdb.prev_ne hauth hheight).symm
  rw [mainIndex_linkMainHeader] at hrow
  constructor
  · rw [mainIndex_withRow, mainIndex_linkMainHeader]
    exact Index.rooted_withRow (Index.rooted_link hdb.rooted hlink)
  · rw [mainIndex_withRow, mainIndex_linkMainHeader]
    intro h n hn
    apply Index.rows_link hdb.rooted hlink hdb.rows _ hrow hn
    intro p hp
    rw [mainParent] at hp
    split at hp
    · cases hp
    · exact hp
  · intro h stored hstored
    rw [mainHeaderInfos_stored] at hstored
    split at hstored
    · rename_i heq
      obtain rfl := Option.some.inj hstored
      exact ⟨heq ▸ hauth.1, heq.symm, heq ▸ hauth.2⟩
    · exact hdb.header hstored
  · intro h block hblock
    obtain ⟨heq, stored, hstored, hclosed⟩ := hdb.block hblock
    exact ⟨heq, stored, (mainHeaderInfos_stored _).trans (hdb.header_kept hauth hstored), hclosed⟩
  · intro h stored hstored
    rw [mainHeaderInfos_stored] at hstored
    exact hdb.work_stored hauth hwork hstored
  · intro h hmem
    obtain ⟨w, hw⟩ := mem_iff_lookup.mp hmem
    rw [mem_iff_lookup]
    simp only [mainHeaderInfos_stored]
    exact hdb.workKnown_stored hw
  · intro p l hl m
    simp only [mainHeaderInfos_stored]
    exact hdb.successors_stored hauth hne hpred hl m
  · intro p hp
    rw [mem_iff_lookup]
    show ∃ l, (linkSuccessor db.mainSuccessors _ _ _ _)[p]? = some l
    rw [lookup_linkSuccessor hne]
    split
    · exact ⟨_, rfl⟩
    · rename_i hpb
      split
      · exact ⟨_, rfl⟩
      · apply mem_iff_lookup.mp
        apply hdb.successorsStored
        rcases hp with hp | hp
        · exact .inl hp
        · obtain ⟨stored, hstored⟩ := mem_iff_lookup.mp hp
          rw [mainHeaderInfos_stored, if_neg hpb] at hstored
          exact .inr (mem_iff_lookup.mpr ⟨stored, hstored⟩)
  · intro p hp
    obtain ⟨l, hl⟩ := mem_iff_lookup.mp hp
    have hrows := (lookup_linkSuccessor hne).symm.trans hl
    have hgrow {h : MainBlockHash} (hmem : h ∈ db.mainHeaderInfos) :
        h ∈ ((db.linkMainHeader info height work pred).withMainRow info.blockHash
          row).mainHeaderInfos := by
      obtain ⟨stored, hstored⟩ := mem_iff_lookup.mp hmem
      exact mem_iff_lookup.mpr ⟨stored, (mainHeaderInfos_stored h).trans
        (hdb.header_kept hauth hstored)⟩
    split at hrows
    · rename_i heq
      exact .inr (mem_iff_lookup.mpr ⟨info, (mainHeaderInfos_stored p).trans (if_pos heq)⟩)
    · split at hrows
      · rename_i heq
        rw [heq]
        rcases hprev with hprev | hprev
        · exact .inr (hgrow hprev)
        · exact .inl hprev
      · exact (hdb.successorsKnown (mem_iff_lookup.mpr ⟨l, hrows⟩)).imp_right hgrow

theorem getBmmResults_withBmmResults {c b : BlockHash} {rows : Table MainBlockHash BmmResult} :
    (db.withBmmResults c rows).getBmmResults b = if b = c then rows else db.getBmmResults b := by
  unfold getBmmResults withBmmResults
  rw [lookup_insert]
  split <;> rfl

/-- A block is stored, and the header that it commits to gets a result if it is known. -/
theorem putMainBlockInfo_eq_ok {main : MainBlockHash} {block : MainBlockInfo}
    (h : db.putMainBlockInfo main block = .ok db') :
    ∃ info, db.mainHeaderInfos[main]? = some info ∧
      (info.prevBlockHash = allZeros ∨ info.prevBlockHash ∈ db.mainBlockInfos) ∧
        ((∀ commitment header, block.bmmCommitment = some commitment →
            db.headers[commitment]? ≠ some header) ∧ db' = db.withMainBlock main block ∨
          ∃ commitment header result, block.bmmCommitment = some commitment ∧
            db.headers[commitment]? = some header ∧
            (db.withMainBlock main block).commitmentBmmResult header info main = .ok result ∧
            db' = (db.withMainBlock main block).withBmmResults commitment
              ((db.getBmmResults commitment).insert main result)) := by
  unfold putMainBlockInfo at h
  simp only [bind_eq_ok_iff, getMainHeaderInfo, ensure_eq_ok_iff, okOr_eq_ok_iff] at h
  obtain ⟨info, hinfo, _, hprev, h⟩ := h
  refine ⟨info, hinfo, hprev, ?_⟩
  cases hcommitment : block.bmmCommitment with
  | none =>
      rw [hcommitment] at h
      refine .inl ⟨?_, (Except.ok.inj h).symm⟩
      intro c header hc
      cases hc
  | some commitment =>
      rw [hcommitment] at h
      cases hheader : (db.withMainBlock main block).headers[commitment]? with
      | none =>
          simp only [hheader] at h
          refine .inl ⟨?_, (Except.ok.inj h).symm⟩
          intro c header hc hsome
          rw [← Option.some.inj hc] at hsome
          cases hheader.symm.trans hsome
      | some header =>
          simp only [hheader, bind_eq_ok_iff] at h
          obtain ⟨result, hresult, hdb⟩ := h
          exact .inr ⟨commitment, header, result, rfl, hheader, hresult, (Except.ok.inj hdb).symm⟩

theorem exists_results_of_putMainBlockInfo {main : MainBlockHash} {block : MainBlockInfo}
    (h : db.putMainBlockInfo main block = .ok db') :
    ∃ results, db' = { db.withMainBlock main block with bmmResults := results } := by
  obtain ⟨info, -, -, h⟩ := putMainBlockInfo_eq_ok h
  rcases h with ⟨-, rfl⟩ | ⟨c, header, result, -, -, -, rfl⟩
  · exact ⟨db.bmmResults, rfl⟩
  · exact ⟨_, rfl⟩

theorem MainSound.putMainBlockInfo (hdb : db.MainSound hashes) {main : MainBlockHash}
    {block : MainBlockInfo} (hauth : block = hashes.mainBlock main)
    (h : db.putMainBlockInfo main block = .ok db') : db'.MainSound hashes := by
  obtain ⟨info, hinfo, hprev, -⟩ := putMainBlockInfo_eq_ok h
  obtain ⟨results, rfl⟩ := exists_results_of_putMainBlockInfo h
  have hgrow {h : MainBlockHash} (hmem : h ∈ db.mainBlockInfos) :
      h ∈ db.mainBlockInfos.insert main block := by
    rw [mem_iff_lookup] at hmem ⊢
    obtain ⟨b, hb⟩ := hmem
    rw [lookup_insert]
    split
    · exact ⟨block, rfl⟩
    · exact ⟨b, hb⟩
  refine ⟨hdb.rooted, hdb.rows, hdb.header, ?_, hdb.work, hdb.workKnown, hdb.successors,
    hdb.successorsStored, hdb.successorsKnown⟩
  intro h b hb
  change (db.mainBlockInfos.insert main block)[h]? = some b at hb
  rw [lookup_insert] at hb
  split at hb
  · rename_i heq
    obtain rfl := Option.some.inj hb
    exact ⟨heq ▸ hauth, info, heq ▸ hinfo, hprev.imp_right hgrow⟩
  · obtain ⟨hcontents, stored, hstored, hclosed⟩ := hdb.block hb
    exact ⟨hcontents, stored, hstored, hclosed.imp_right hgrow⟩

/-- The mainchain tables are the same. -/
structure SameMain (db db' : ArchiveDb B) : Prop where
  headerInfos : db'.mainHeaderInfos = db.mainHeaderInfos
  heights : db'.mainBlockHashToHeight = db.mainBlockHashToHeight
  rows : db'.exponentialMainAncestors = db.exponentialMainAncestors
  blockInfos : db'.mainBlockInfos = db.mainBlockInfos
  work : db'.totalWork = db.totalWork
  successors : db'.mainSuccessors = db.mainSuccessors

theorem SameMain.mainIndex (h : SameMain db db') : db'.mainIndex = db.mainIndex := by
  unfold ArchiveDb.mainIndex
  rw [h.headerInfos, h.heights, h.rows]

theorem SameMain.mainSound (h : SameMain db db') (hdb : db.MainSound hashes) :
    db'.MainSound hashes := by
  constructor
  · rw [h.mainIndex]; exact hdb.rooted
  · rw [h.mainIndex]; exact hdb.rows
  · rw [h.headerInfos]; exact hdb.header
  · rw [h.headerInfos, h.blockInfos]; exact hdb.block
  · have hafter (info : MainHeaderInfo) : db'.totalWorkAfter info = db.totalWorkAfter info := by
      unfold totalWorkAfter getTotalWork
      rw [h.work]
    intro b info hinfo
    rw [h.headerInfos] at hinfo
    rw [h.work, hafter]
    exact hdb.work hinfo
  · rw [h.headerInfos, h.work]; exact hdb.workKnown
  · rw [h.headerInfos, h.successors]; exact hdb.successors
  · rw [h.headerInfos, h.successors]; exact hdb.successorsStored
  · rw [h.headerInfos, h.successors]; exact hdb.successorsKnown

theorem sideIndex_parent {h : BlockHash} {header : Header}
    (hheader : db.headers[h]? = some header) :
    db.sideIndex.parent h = some header.prevSideHash := by
  show db.headers[h]?.map Header.prevSideHash = _
  rw [hheader, Option.map_some]

theorem exists_header_of_parent {h : BlockHash} {q : Option BlockHash}
    (hparent : db.sideIndex.parent h = some q) :
    ∃ header, db.headers[h]? = some header ∧ header.prevSideHash = q :=
  Option.map_eq_some_iff.mp hparent

theorem SideSound.height (hdb : db.SideSound hashes) {h : BlockHash} {header : Header}
    (hheader : db.headers[h]? = some header) : ∃ n, db.sideIndex.height h = some n :=
  Index.height_of_parent hdb.rooted (sideIndex_parent hheader)

theorem SideSound.header_of_height (hdb : db.SideSound hashes) {h : BlockHash} {n : Nat}
    (hh : db.sideIndex.height h = some n) : ∃ header, db.headers[h]? = some header := by
  obtain ⟨q, hq⟩ := hdb.rooted.stored hh
  obtain ⟨header, hheader, -⟩ := exists_header_of_parent hq
  exact ⟨header, hheader⟩

theorem SideSound.parent (hdb : db.SideSound hashes) {h p : BlockHash} {header : Header}
    (hheader : db.headers[h]? = some header) (hp : header.prevSideHash = some p) :
    p ∈ db.headers ∧ p ≠ h := by
  have hparent := sideIndex_parent hheader
  rw [hp] at hparent
  obtain ⟨n, hn, hh⟩ := hdb.rooted.child hparent
  refine ⟨mem_iff_lookup.mpr (hdb.header_of_height hn), ?_⟩
  rintro rfl
  rw [hn, Option.some.injEq] at hh
  omega

theorem putHeader_eq_ok {hash : Header → BlockHash} {header : Header}
    (h : db.putHeader hash header = .ok db') :
    ∃ height pred row mains results, db.heightAfter header.prevSideHash = .ok height ∧
      db.successors[header.prevSideHash]? = some pred ∧
      (db.linkHeader hash header height pred).sideIndex.exponentialRow sideFaults height
        header.prevSideHash = .ok row ∧
      db.mainSuccessors[header.prevMainHash]? = some mains ∧
      mains.foldlM (populateBmm hash ((db.linkHeader hash header height pred).withSideRow
        (hash header) row) header) (db.getBmmResults (hash header)) = .ok results ∧
      db' = ((db.linkHeader hash header height pred).withSideRow (hash header) row).withBmmResults
        (hash header) results := by
  unfold putHeader at h
  simp only [bind_eq_ok_iff, getSuccessors, getMainSuccessors, okOr_eq_ok_iff] at h
  obtain ⟨height, hheight, pred, hpred, row, hrow, mains, hmains, results, hresults, hdb⟩ := h
  exact ⟨height, pred, row, mains, results, hheight, hpred, hrow, hmains, hresults,
    (Except.ok.inj hdb).symm⟩

theorem sideIndex_linkHeader {hash : Header → BlockHash} {header : Header} {height : Nat}
    {pred : List BlockHash} : (db.linkHeader hash header height pred).sideIndex =
      db.sideIndex.link (hash header) header.prevSideHash height := by
  unfold sideIndex linkHeader Index.link
  congr 1
  · funext h
    rw [lookup_insert, apply_ite (Option.map Header.prevSideHash), Option.map_some]
  · funext h
    rw [lookup_insert]

theorem sideIndex_withRow {row : List BlockHash} {h : BlockHash} :
    (db.withSideRow h row).sideIndex = db.sideIndex.withRow h row := by
  unfold sideIndex withSideRow Index.withRow
  congr 1
  funext h'
  rw [lookup_insert]

theorem SideSound.linkable (hdb : db.SideSound hashes) {header : Header} {height : Nat}
    (hheight : db.heightAfter header.prevSideHash = .ok height) :
    db.sideIndex.Linkable (hashes.headerHash header) header.prevSideHash height := by
  constructor
  · cases hstored : db.headers[hashes.headerHash header]? with
    | none =>
        left
        show db.headers[hashes.headerHash header]?.map Header.prevSideHash = none
        rw [hstored, Option.map_none]
    | some stored =>
        right
        obtain rfl := hashes.headerHash_injective (hdb.header hstored).1
        exact sideIndex_parent hstored
  · cases hprev : header.prevSideHash with
    | none =>
        rw [hprev] at hheight
        exact (Except.ok.inj hheight).symm
    | some p =>
        rw [hprev] at hheight
        obtain ⟨n, hn, heq⟩ := bind_eq_ok_iff.mp hheight
        exact ⟨n, okOr_eq_ok_iff.mp hn, (Except.ok.inj heq).symm⟩

theorem SideSound.prev_ne (hdb : db.SideSound hashes) {header : Header} {height : Nat}
    (hheight : db.heightAfter header.prevSideHash = .ok height) :
    header.prevSideHash ≠ some (hashes.headerHash header) := by
  intro heq
  have hlink := hdb.linkable hheight
  obtain ⟨m, hm, rfl⟩ : ∃ m, db.sideIndex.height (hashes.headerHash header) = some m ∧
      height = m + 1 := by
    have := hlink.2
    rwa [heq] at this
  obtain ⟨q, hq⟩ := hdb.rooted.stored hm
  have hsome := hlink.1.resolve_left (by rw [hq]; simp)
  have hagain := Index.height_of_stored_again hdb.rooted hlink hsome
  rw [hm, Option.some.injEq] at hagain
  omega

theorem SideSound.headers_insert (hdb : db.SideSound hashes) {header : Header} {h : BlockHash}
    {stored : Header} (hstored : db.headers[h]? = some stored) :
    (db.headers.insert (hashes.headerHash header) header)[h]? = some stored := by
  rw [lookup_insert]
  split
  · rename_i heq
    have hsame := (hdb.header hstored).1.trans heq
    rw [hashes.headerHash_injective hsame]
  · exact hstored

theorem nodup_linkSuccessor {K V : Type} [TableKey K] [DecidableEq K] [DecidableEq V]
    {successors : Table K (List V)} {pred own : K} {predSuccessors : List V} {block : V}
    (hne : own ≠ pred) (hrows : ∀ {p : K} {l : List V}, successors[p]? = some l → l.Nodup)
    (hpred : successors[pred]? = some predSuccessors) {p : K} {l : List V}
    (hl : (linkSuccessor successors pred own predSuccessors block)[p]? = some l) : l.Nodup := by
  rw [lookup_linkSuccessor hne] at hl
  split at hl
  · rw [← Option.some.inj hl]
    cases hrow : successors[own]? with
    | some l' => exact hrows hrow
    | none => exact List.nodup_nil
  · split at hl
    · rw [← Option.some.inj hl]
      exact (hrows hpred).insert
    · exact hrows hl

theorem SideSound.putHeader (hdb : db.SideSound hashes) (hmain : db.MainSound hashes)
    {header : Header} (h : db.putHeader hashes.headerHash header = .ok db') :
    db'.SideSound hashes := by
  obtain ⟨height, pred, row, mains, results, hheight, hpred, hrow, hmains, -, rfl⟩ :=
    putHeader_eq_ok h
  have hlink := hdb.linkable hheight
  have hne := hdb.prev_ne hheight
  rw [sideIndex_linkHeader] at hrow
  have hindex : (((db.linkHeader hashes.headerHash header height pred).withSideRow
      (hashes.headerHash header) row).withBmmResults (hashes.headerHash header)
        results).sideIndex =
      (db.sideIndex.link (hashes.headerHash header) header.prevSideHash height).withRow
        (hashes.headerHash header) row := by
    rw [← sideIndex_linkHeader, ← sideIndex_withRow]
    rfl
  have hheaders {h : BlockHash} {stored : Header}
      (hstored : (db.headers.insert (hashes.headerHash header) header)[h]? = some stored) :
      h = hashes.headerHash header ∧ stored = header ∨ db.headers[h]? = some stored := by
    rw [lookup_insert] at hstored
    split at hstored
    · rename_i heq
      exact .inl ⟨heq, (Option.some.inj hstored).symm⟩
    · exact .inr hstored
  constructor
  · rw [hindex]
    exact Index.rooted_withRow (Index.rooted_link hdb.rooted hlink)
  · rw [hindex]
    intro h n hn
    exact Index.rows_link hdb.rooted hlink hdb.rows (fun p hp => hp) hrow hn
  · intro h stored hstored
    rcases hheaders hstored with ⟨rfl, rfl⟩ | hstored
    · exact ⟨rfl, hmain.successorsKnown (mem_iff_lookup.mpr ⟨mains, hmains⟩)⟩
    · exact hdb.header hstored
  · intro p l hl
    refine ⟨nodup_linkSuccessor hne.symm (fun hrow => (hdb.successors hrow).1) hpred hl,
      fun m => ?_⟩
    have hown : db.successors[some (hashes.headerHash header)]? = none → ∀ m : BlockHash,
        ¬ ∃ stored : Header, db.headers[m]? = some stored ∧
          stored.prevSideHash = some (hashes.headerHash header) := by
      -- a block without a row is not stored, so it has no children
      rintro hnone m ⟨stored, hstored, heq⟩
      have hmem := hdb.successorsStored (hdb.parent hstored heq).1
      rw [mem_iff_lookup, hnone] at hmem
      obtain ⟨l', hl'⟩ := hmem
      cases hl'
    rw [mem_linkSuccessor hne.symm (fun hrow => (hdb.successors hrow).2) hpred hown hl]
    constructor
    · rintro (⟨stored, hstored, hprev⟩ | ⟨rfl, rfl⟩)
      · exact ⟨stored, hdb.headers_insert hstored, hprev⟩
      · exact ⟨header, lookup_insert.trans (if_pos rfl), rfl⟩
    · rintro ⟨stored, hstored, hprev⟩
      rcases hheaders hstored with ⟨rfl, rfl⟩ | hstored
      · exact .inr ⟨rfl, hprev.symm⟩
      · exact .inl ⟨stored, hstored, hprev⟩
  · intro h hmem
    rw [mem_iff_lookup]
    show ∃ l, (linkSuccessor db.successors _ _ _ _)[some h]? = some l
    rw [lookup_linkSuccessor hne.symm]
    split
    · exact ⟨_, rfl⟩
    · rename_i hneq
      split
      · exact ⟨_, rfl⟩
      · obtain ⟨stored, hstored⟩ := mem_iff_lookup.mp hmem
        rcases hheaders hstored with ⟨rfl, -⟩ | hstored
        · exact absurd rfl hneq
        · exact mem_iff_lookup.mp (hdb.successorsStored (mem_iff_lookup.mpr ⟨stored, hstored⟩))
  · rw [mem_iff_lookup]
    show ∃ l, (linkSuccessor db.successors _ _ _ _)[none]? = some l
    rw [lookup_linkSuccessor hne.symm, if_neg (by simp)]
    split
    · exact ⟨_, rfl⟩
    · exact mem_iff_lookup.mp hdb.genesisStored
  · intro h hmem
    obtain ⟨stored, hstored⟩ := mem_iff_lookup.mp (hdb.body hmem)
    exact mem_iff_lookup.mpr ⟨stored, hdb.headers_insert hstored⟩

theorem sameMain_putHeader {hash : Header → BlockHash} {header : Header}
    (h : db.putHeader hash header = .ok db') : SameMain db db' := by
  obtain ⟨height, pred, row, mains, results, -, -, -, -, -, rfl⟩ := putHeader_eq_ok h
  exact ⟨rfl, rfl, rfl, rfl, rfl, rfl⟩

/-- The tables of the sidechain headers are the same, and mainchain headers stay. -/
structure SameSide (db db' : ArchiveDb B) : Prop where
  headers : db'.headers = db.headers
  heights : db'.blockHashToHeight = db.blockHashToHeight
  rows : db'.exponentialAncestors = db.exponentialAncestors
  successors : db'.successors = db.successors
  mainHeaders : ∀ {h}, h ∈ db.mainHeaderInfos → h ∈ db'.mainHeaderInfos

theorem SameSide.sideIndex (h : SameSide db db') : db'.sideIndex = db.sideIndex := by
  unfold ArchiveDb.sideIndex
  rw [h.headers, h.heights, h.rows]

theorem SameSide.sideSound (h : SameSide db db') (hdb : db.SideSound hashes)
    (hbody : ∀ {b}, b ∈ db'.bodies → b ∈ db'.headers) : db'.SideSound hashes := by
  constructor
  · rw [h.sideIndex]; exact hdb.rooted
  · rw [h.sideIndex]; exact hdb.rows
  · rw [h.headers]
    intro b header hheader
    exact ⟨(hdb.header hheader).1, (hdb.header hheader).2.imp_right h.mainHeaders⟩
  · rw [h.headers, h.successors]; exact hdb.successors
  · rw [h.headers, h.successors]; exact hdb.successorsStored
  · rw [h.successors]; exact hdb.genesisStored
  · exact hbody

theorem MainSound.sameSide_putMainHeaderInfo (hdb : db.MainSound hashes) {info : MainHeaderInfo}
    (hauth : AuthenticHeader hashes info) (h : db.putMainHeaderInfo info = .ok db') :
    SameSide db db' ∧ db'.bodies = db.bodies ∧ db'.sideTips = db.sideTips := by
  obtain ⟨-, height, work, pred, row, -, -, -, -, rfl⟩ := putMainHeaderInfo_eq_ok h
  refine ⟨⟨rfl, rfl, rfl, rfl, fun hmem => ?_⟩, rfl, rfl⟩
  obtain ⟨stored, hstored⟩ := mem_iff_lookup.mp hmem
  exact mem_iff_lookup.mpr ⟨stored, hdb.mainHeaderInfos_insert hauth hstored⟩

theorem sameSide_putMainBlockInfo {main : MainBlockHash} {block : MainBlockInfo}
    (h : db.putMainBlockInfo main block = .ok db') :
    SameSide db db' ∧ db'.bodies = db.bodies ∧ db'.sideTips = db.sideTips := by
  obtain ⟨results, rfl⟩ := exists_results_of_putMainBlockInfo h
  exact ⟨⟨rfl, rfl, rfl, rfl, id⟩, rfl, rfl⟩

end ArchiveDb

end Truthcoin.Archiving
