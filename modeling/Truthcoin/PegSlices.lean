import Truthcoin.Mainchain

/-!
# Peg data of connected blocks

A reorganisation slices the mainchain by the mainchain blocks that consecutive
headers name, and connects each sidechain block with its slice. The slices of a
chain partition the mainchain below the block that the tip names.
-/

namespace Truthcoin.PegSlices

open Std Truthcoin.Types Truthcoin.Table Truthcoin.Fallible Truthcoin.Blocks
open Truthcoin.Mainchain Truthcoin.Mainchain.MainArchive

/-- A mainchain block with its events. -/
def getBlockInfo (A : MainArchive) (h : MainBlockHash) : Except ArchiveError BlockInfo := do
  let info ← A.getMainBlockInfo h
  .ok ⟨h, info.events⟩

/-- `two_way_peg_data_batch`: the mainchain blocks since the common ancestor, oldest
first, which is the order in which they are popped. -/
def twoWayPegDataBatch (A : MainArchive) (commonAncestorPrevMainHash : Option MainBlockHash)
    (newTip : Header) : Except ArchiveError (List BlockInfo) := do
  let ancestors ← A.mainAncestorsUntil commonAncestorPrevMainHash newTip.prevMainHash
  let infos ← ancestors.mapM (getBlockInfo A)
  .ok infos.reverse

/-- `'fill_2wpd`: the peg data of one block and what is left of the batch. -/
def fill (prevMainHash : MainBlockHash) : List BlockInfo → List BlockInfo × List BlockInfo
  | [] => ([], [])
  | info :: batch =>
      if info.blockHash = prevMainHash then ([info], batch)
      else
        let (data, rest) := fill prevMainHash batch
        (info :: data, rest)

/-- A connected sidechain block with the peg data that was passed to connect it. -/
structure SideBlock where
  hash : BlockHash
  header : Header
  height : Nat
  data : TwoWayPegData

/-- A sidechain block as the peg sees it. -/
def SideBlock.peg (b : SideBlock) : Nat × TwoWayPegData := (b.height, b.data)

/-- Apply blocks, oldest first, on a chain whose newest block comes first. -/
def applyBlocks : List SideBlock → List BlockInfo → List (BlockHash × Header) → List SideBlock
  | chain, _, [] => chain
  | chain, batch, (hash, header) :: blocks =>
      let (data, rest) := fill header.prevMainHash batch
      applyBlocks (⟨hash, header, chain.length, ⟨data⟩⟩ :: chain) rest blocks

def tipHash (chain : List SideBlock) : Option BlockHash :=
  chain.head?.map SideBlock.hash

def tipPrevMainHash (chain : List SideBlock) : Option MainBlockHash :=
  chain.head?.map fun b => b.header.prevMainHash

/-- Stored headers, each on the one before and with a verified commitment. -/
def Linked (A : MainArchive) : Option BlockHash → List (BlockHash × Header) → Prop
  | _, [] => True
  | tip, (hash, header) :: blocks =>
      A.headers[hash]? = some header ∧ header.prevSideHash = tip ∧
        (∃ main, main ∈ verifications (A.getBmmResults hash)) ∧ Linked A (some hash) blocks

/-- `reorg_to_tip`: blocks are dropped down to the common ancestor, and the blocks up to
the new tip are applied. -/
inductive Connected (A : MainArchive) : List SideBlock → Prop where
  | start : Connected A []
  | reorg {dropped kept : List SideBlock} {blocks : List (BlockHash × Header)}
      {newTip : BlockHash × Header} {batch : List BlockInfo}
      (hchain : Connected A (dropped ++ kept))
      (hlinked : Linked A (tipHash kept) (blocks ++ [newTip]))
      (hbatch : twoWayPegDataBatch A (tipPrevMainHash kept) newTip.2 = .ok batch) :
      Connected A (applyBlocks kept batch (blocks ++ [newTip]))

/-- The genesis block of the mainchain commits to no sidechain block. -/
def GenesisUncommitted (A : MainArchive) : Prop :=
  ∀ (h : MainBlockHash) (info : BlockHeaderInfo) (block : MainBlockInfo),
    A.mainHeaderInfos[h]? = some info → A.mainBlockInfos[h]? = some block →
      block.bmmCommitment ≠ none → info.prevBlockHash ≠ allZeros

/-- The events of a mainchain block, if the archive has them. -/
def infoAt (A : MainArchive) (h : MainBlockHash) : BlockInfo :=
  ⟨h, (A.mainBlockInfos[h]?.map MainBlockInfo.events).getD []⟩

/-- The block that a header names, with its header, its ancestors and their events. -/
structure Rooted (A : MainArchive) (h : MainBlockHash) : Prop where
  info : ∃ info, A.mainHeaderInfos[h]? = some info
  blocks : ∀ a ∈ A.ancestors h, ∃ block, A.mainBlockInfos[a]? = some block

/-- The mainchain blocks from a block on down, none without a block. -/
def below (A : MainArchive) (base : Option MainBlockHash) : List MainBlockHash :=
  base.elim [] A.ancestors

section

variable {A : MainArchive} {hash : BlockHash} {header : Header}

theorem Rooted.known {h : MainBlockHash} (hroot : Rooted A h) : A.Known h := .inr hroot.info

theorem Rooted.ancestors {h : MainBlockHash} (hroot : Rooted A h) :
    ∃ older, A.ancestors h = h :: older := by
  obtain ⟨info, hinfo⟩ := hroot.info
  exact ⟨_, MainHeaders.ancestors_of_info hinfo⟩

theorem blocks_of_block {h : MainBlockHash} {block : MainBlockInfo}
    (hblock : A.mainBlockInfos[h]? = some block) :
    ∀ a ∈ A.ancestors h, ∃ block, A.mainBlockInfos[a]? = some block := by
  obtain ⟨info, hinfo, -⟩ := A.closed hblock
  have hstep : (∃ block, A.mainBlockInfos[h]? = some block) →
      ∀ a ∈ A.ancestors h, ∃ block, A.mainBlockInfos[a]? = some block := by
    refine MainHeaders.known_induction (P := fun h => (∃ block, A.mainBlockInfos[h]? = some block) →
      ∀ a ∈ A.ancestors h, ∃ block, A.mainBlockInfos[a]? = some block) ?_ ?_ (.inr ⟨info, hinfo⟩)
    · intro _ a ha
      simp [MainHeaders.ancestors_allZeros] at ha
    · rintro h info hinfo ih ⟨block, hblock⟩ a ha
      rw [MainHeaders.ancestors_of_info hinfo] at ha
      rcases List.mem_cons.mp ha with rfl | ha
      · exact ⟨block, hblock⟩
      · obtain ⟨info', hinfo', hprev⟩ := A.closed hblock
        rw [hinfo, Option.some.injEq] at hinfo'
        subst hinfo'
        by_cases hfirst : info.prevBlockHash = allZeros
        · simp [hfirst, MainHeaders.ancestors_allZeros] at ha
        · exact ih (hprev hfirst) a ha
  exact hstep ⟨block, hblock⟩

theorem verification_cases {main : MainBlockHash} (hheader : A.headers[hash]? = some header)
    (hmain : main ∈ verifications (A.getBmmResults hash)) :
    ∃ info block, A.mainHeaderInfos[main]? = some info ∧ A.mainBlockInfos[main]? = some block ∧
      block.bmmCommitment = some hash ∧ header.prevMainHash = info.prevBlockHash ∧
      ∀ parent, header.prevSideHash = some parent → ∃ parentMain,
        parentMain ∈ verifications (A.getBmmResults parent) ∧ parentMain ∈ A.ancestors main := by
  have hrow : (main, BmmResult.verified) ∈ A.getBmmResults hash := by
    simpa [verifications] using hmain
  rw [getBmmResults] at hrow
  cases hrows : A.bmmResults[hash]? with
  | none => simp [hrows] at hrow
  | some rows =>
      rw [hrows, Option.getD_some] at hrow
      obtain ⟨info, block, hinfo, hblock, hcommit, hprev, hparent⟩ :=
        A.verified hheader hrows hrow
      refine ⟨info, block, hinfo, hblock, hcommit, hprev, ?_⟩
      intro parent hside
      obtain ⟨parentRows, parentMain, hparentRows, hmem, hancestor⟩ := hparent parent hside
      refine ⟨parentMain, ?_, hancestor⟩
      simp [verifications, getBmmResults, hparentRows, hmem]

theorem rooted_of_verified (hgenesis : GenesisUncommitted A)
    (hheader : A.headers[hash]? = some header) {main : MainBlockHash}
    (hmain : main ∈ verifications (A.getBmmResults hash)) : Rooted A header.prevMainHash := by
  obtain ⟨info, block, hinfo, hblock, hcommit, hprev, -⟩ := verification_cases hheader hmain
  have hne : info.prevBlockHash ≠ allZeros :=
    hgenesis main info block hinfo hblock (by simp [hcommit])
  obtain ⟨parent, _, hparent, -, -⟩ := A.child hinfo hne
  rw [hprev]
  refine ⟨⟨parent, hparent⟩, ?_⟩
  intro a ha
  refine blocks_of_block hblock a ?_
  rw [MainHeaders.ancestors_of_info hinfo]
  exact List.mem_cons_of_mem _ ha

theorem ancestors_of_parent (hheader : A.headers[hash]? = some header) {main : MainBlockHash}
    (hmain : main ∈ verifications (A.getBmmResults hash)) {parent : BlockHash}
    {parentHeader : Header} (hside : header.prevSideHash = some parent)
    (hparent : A.headers[parent]? = some parentHeader) :
    ∃ newer, newer ≠ [] ∧
      A.ancestors header.prevMainHash = newer ++ A.ancestors parentHeader.prevMainHash := by
  obtain ⟨info, block, hinfo, hblock, hcommit, hprev, hbelow⟩ :=
    verification_cases hheader hmain
  obtain ⟨parentMain, hverified, hancestor⟩ := hbelow parent hside
  obtain ⟨pinfo, pblock, hpinfo, hpblock, hpcommit, hpprev, -⟩ :=
    verification_cases hparent hverified
  rw [MainHeaders.ancestors_of_info hinfo, List.mem_cons] at hancestor
  rcases hancestor with rfl | hancestor
  · -- one mainchain block commits to one sidechain block
    rw [hblock, Option.some.injEq] at hpblock
    subst hpblock
    rw [hcommit, Option.some.injEq] at hpcommit
    exact absurd (hpcommit ▸ hside) (A.ordered hheader)
  · obtain ⟨newer, hnewer⟩ := MainHeaders.ancestors_of_mem hancestor
      (MainHeaders.known_prev hinfo)
    refine ⟨newer ++ [parentMain], by simp, ?_⟩
    rw [hprev, hnewer, MainHeaders.ancestors_of_info hpinfo, hpprev]
    simp

theorem ancestors_of_linked (hgenesis : GenesisUncommitted A)
    {tip : Option (BlockHash × Header)} {blocks : List (BlockHash × Header)}
    (htip : ∀ b, tip = some b → A.headers[b.1]? = some b.2)
    (hlinked : Linked A (tip.map Prod.fst) ((hash, header) :: blocks)) :
    Rooted A header.prevMainHash ∧ ∃ newer, newer ≠ [] ∧ A.ancestors header.prevMainHash =
      newer ++ below A (tip.map fun b => b.2.prevMainHash) := by
  obtain ⟨hheader, hside, ⟨main, hmain⟩, -⟩ := hlinked
  have hroot := rooted_of_verified hgenesis hheader hmain
  refine ⟨hroot, ?_⟩
  cases tip with
  | none =>
      obtain ⟨older, holder⟩ := hroot.ancestors
      exact ⟨header.prevMainHash :: older, by simp, by simpa [below] using holder⟩
  | some b => exact ancestors_of_parent hheader hmain hside (htip b rfl)

theorem ancestors_of_newTip (hgenesis : GenesisUncommitted A)
    {tip : Option (BlockHash × Header)} {blocks : List (BlockHash × Header)}
    {newTip : BlockHash × Header} (htip : ∀ b, tip = some b → A.headers[b.1]? = some b.2)
    (hlinked : Linked A (tip.map Prod.fst) (blocks ++ [newTip])) :
    Rooted A newTip.2.prevMainHash ∧ ∃ newer, A.ancestors newTip.2.prevMainHash =
      newer ++ below A (tip.map fun b => b.2.prevMainHash) := by
  induction blocks generalizing tip with
  | nil =>
      obtain ⟨hroot, newer, -, hnewer⟩ := ancestors_of_linked hgenesis htip hlinked
      exact ⟨hroot, newer, hnewer⟩
  | cons b blocks ih =>
      obtain ⟨-, newer, -, hnewer⟩ := ancestors_of_linked hgenesis htip hlinked
      obtain ⟨hheader, -, -, hrest⟩ := hlinked
      have hb : ∀ b', some b = some b' → A.headers[b'.1]? = some b'.2 := by
        rintro _ ⟨⟩
        exact hheader
      obtain ⟨hroot, newer', hnewer'⟩ := ih hb hrest
      refine ⟨hroot, newer' ++ newer, ?_⟩
      rw [hnewer', List.append_assoc, ← hnewer]
      rfl

end

/-- The mainchain blocks of all slices, newest first. -/
def located (chain : List SideBlock) : List BlockInfo :=
  chain.flatMap fun b => b.data.blockInfo.reverse

/-- A block on top of a chain continues the partition of the mainchain. -/
structure Slice (A : MainArchive) (b : SideBlock) (rest : List SideBlock) : Prop where
  stored : A.headers[b.hash]? = some b.header
  height : b.height = rest.length
  rooted : Rooted A b.header.prevMainHash
  located : (A.ancestors b.header.prevMainHash).map (infoAt A) = located (b :: rest)

def Sliced (A : MainArchive) : List SideBlock → Prop
  | [] => True
  | b :: rest => Slice A b rest ∧ Sliced A rest

def tipBlock (chain : List SideBlock) : Option (BlockHash × Header) :=
  chain.head?.map fun b => (b.hash, b.header)

section

variable {A : MainArchive} {chain : List SideBlock}

theorem tipHash_eq : tipHash chain = (tipBlock chain).map Prod.fst := by
  cases chain <;> rfl

theorem tipPrevMainHash_eq :
    tipPrevMainHash chain = (tipBlock chain).map fun b => b.2.prevMainHash := by
  cases chain <;> rfl

theorem Sliced.stored (h : Sliced A chain) :
    ∀ b, tipBlock chain = some b → A.headers[b.1]? = some b.2 := by
  cases chain with
  | nil => exact nofun
  | cons b rest =>
      rintro _ ⟨⟩
      exact h.1.stored

theorem Sliced.located (h : Sliced A chain) :
    (below A (tipPrevMainHash chain)).map (infoAt A) = located chain := by
  cases chain with
  | nil => rfl
  | cons b rest => exact h.1.located

theorem Sliced.of_append {dropped : List SideBlock} (h : Sliced A (dropped ++ chain)) :
    Sliced A chain := by
  induction dropped with
  | nil => exact h
  | cons b dropped ih => exact ih h.2

theorem Sliced.height_lt (h : Sliced A chain) : ∀ b ∈ chain, b.height < chain.length := by
  induction chain with
  | nil => simp
  | cons b chain ih =>
      intro b' hb'
      rw [List.length_cons]
      rcases List.mem_cons.mp hb' with rfl | hb'
      · rw [h.1.height]
        exact Nat.lt_succ_self _
      · exact Nat.lt_succ_of_lt (ih h.2 b' hb')

theorem fill_append {p : MainBlockHash} {older rest : List BlockInfo} {info : BlockInfo}
    (holder : ∀ i ∈ older, i.blockHash ≠ p) (hinfo : info.blockHash = p) :
    fill p (older ++ info :: rest) = (older ++ [info], rest) := by
  induction older with
  | nil => simp [fill, hinfo]
  | cons i older ih =>
      have hi : i.blockHash ≠ p := holder i (by simp)
      rw [List.cons_append, fill, if_neg hi, ih fun i hi => holder i (by simp [hi])]
      rfl

theorem fill_slice {p : MainBlockHash} (hroot : Rooted A p) {newer older base : List MainBlockHash}
    (hnewer : newer ≠ []) (hancestors : A.ancestors p = newer ++ base) :
    fill p ((older ++ newer).reverse.map (infoAt A)) =
      (newer.reverse.map (infoAt A), older.reverse.map (infoAt A)) := by
  obtain ⟨below, hbelow⟩ := hroot.ancestors
  have hnodup := MainHeaders.nodup_ancestors hroot.known
  cases newer with
  | nil => exact absurd rfl hnewer
  | cons q newer =>
      obtain ⟨rfl, hrest⟩ : q = p ∧ newer ++ base = below := by
        rw [hbelow] at hancestors
        simpa using hancestors.symm
      rw [hbelow, ← hrest, List.nodup_cons] at hnodup
      have hother : ∀ i ∈ newer.reverse.map (infoAt A), i.blockHash ≠ q := by
        intro i hi heq
        obtain ⟨a, ha, rfl⟩ := List.mem_map.mp hi
        have hmem : a ∈ newer ++ base :=
          List.mem_append_left _ (List.mem_reverse.mp ha)
        exact hnodup.1 ((show a = q from heq) ▸ hmem)
      have hsplit : (older ++ q :: newer).reverse.map (infoAt A) =
          newer.reverse.map (infoAt A) ++ infoAt A q :: older.reverse.map (infoAt A) := by
        simp
      rw [hsplit, fill_append hother rfl]
      simp

/-- Applying one linked block with the mainchain blocks since the tip. -/
theorem slice_of_linked (hgenesis : GenesisUncommitted A) (hchain : Sliced A chain)
    {b : BlockHash × Header} {blocks : List (BlockHash × Header)}
    (hlinked : Linked A (tipHash chain) (b :: blocks)) :
    ∃ newer, A.ancestors b.2.prevMainHash = newer ++ below A (tipPrevMainHash chain) ∧
      (∀ older, fill b.2.prevMainHash ((older ++ newer).reverse.map (infoAt A)) =
        (newer.reverse.map (infoAt A), older.reverse.map (infoAt A))) ∧
      Sliced A (⟨b.1, b.2, chain.length, ⟨newer.reverse.map (infoAt A)⟩⟩ :: chain) := by
  rw [tipHash_eq] at hlinked
  obtain ⟨hroot, newer, hne, hnewer⟩ := ancestors_of_linked hgenesis hchain.stored hlinked
  rw [← tipPrevMainHash_eq] at hnewer
  refine ⟨newer, hnewer, fun older => fill_slice hroot hne hnewer, ?_, hchain⟩
  refine ⟨hlinked.1, rfl, hroot, ?_⟩
  rw [hnewer, List.map_append, hchain.located]
  simp [PegSlices.located]

/-- Applying linked blocks with the mainchain blocks since the tip slices these. -/
theorem sliced_applyBlocks (hgenesis : GenesisUncommitted A) (hchain : Sliced A chain)
    {blocks : List (BlockHash × Header)} {newTip : BlockHash × Header}
    (hlinked : Linked A (tipHash chain) (blocks ++ [newTip])) {newer : List MainBlockHash}
    (hnewer : A.ancestors newTip.2.prevMainHash = newer ++ below A (tipPrevMainHash chain)) :
    Sliced A (applyBlocks chain (newer.reverse.map (infoAt A)) (blocks ++ [newTip])) := by
  induction blocks generalizing chain newer with
  | nil =>
      obtain ⟨slice, hslice, hfill, hsliced⟩ := slice_of_linked hgenesis hchain hlinked
      obtain rfl : newer = slice := List.append_cancel_right (hnewer.symm.trans hslice)
      have hdata := hfill []
      rw [List.nil_append] at hdata
      rw [List.nil_append, applyBlocks, hdata]
      exact hsliced
  | cons b blocks ih =>
      obtain ⟨slice, hslice, hfill, hsliced⟩ := slice_of_linked hgenesis hchain hlinked
      have hrest : Linked A (some b.1) (blocks ++ [newTip]) := hlinked.2.2.2
      have htip : ∀ b', some b = some b' → A.headers[b'.1]? = some b'.2 := hsliced.stored
      obtain ⟨-, rest, hancestors⟩ := ancestors_of_newTip hgenesis htip hrest
      obtain rfl : newer = rest ++ slice := by
        refine List.append_cancel_right (hnewer.symm.trans (hancestors.trans ?_))
        rw [List.append_assoc, ← hslice]
        rfl
      rw [List.cons_append, applyBlocks, hfill]
      exact ih hsliced hrest hancestors

theorem takeWhile_newer {p : MainBlockHash} (hroot : Rooted A p) (hchain : Sliced A chain)
    {newer : List MainBlockHash}
    (hnewer : A.ancestors p = newer ++ below A (tipPrevMainHash chain)) :
    ((A.ancestors p).takeWhile fun a => some a ≠ tipPrevMainHash chain) = newer := by
  cases chain with
  | nil =>
      rw [hnewer]
      simp [tipPrevMainHash, below]
  | cons b rest =>
      obtain ⟨older, holder⟩ := hchain.1.rooted.ancestors
      have hnodup := MainHeaders.nodup_ancestors hroot.known
      have hbase : below A (tipPrevMainHash (b :: rest)) = b.header.prevMainHash :: older := holder
      rw [hbase] at hnewer
      rw [hnewer] at hnodup ⊢
      have hother : ∀ a ∈ newer, a ≠ b.header.prevMainHash := by
        rintro a ha rfl
        exact (List.nodup_append.mp hnodup).2.2 _ ha _ (by simp) rfl
      rw [List.takeWhile_append_of_pos]
      · simp [tipPrevMainHash]
      · intro a ha
        simpa [tipPrevMainHash] using hother a ha

theorem mapM_getBlockInfo {l : List MainBlockHash}
    (h : ∀ a ∈ l, ∃ block, A.mainBlockInfos[a]? = some block) :
    l.mapM (getBlockInfo A) = .ok (l.map (infoAt A)) := by
  induction l with
  | nil => rfl
  | cons a l ih =>
      obtain ⟨block, hblock⟩ := h a (by simp)
      have ha : getBlockInfo A a = .ok (infoAt A a) := by
        simp [getBlockInfo, getMainBlockInfo, infoAt, hblock]
      rw [List.mapM_cons, ha, ok_bind, ih fun a ha => h a (by simp [ha])]
      rfl

theorem sliced_of_connected (hgenesis : GenesisUncommitted A) (h : Connected A chain) :
    Sliced A chain := by
  induction h with
  | start => trivial
  | @reorg dropped kept blocks newTip batch _ hlinked hbatch ih =>
      have hkept := ih.of_append
      have hlinked' := hlinked
      rw [tipHash_eq] at hlinked'
      obtain ⟨hroot, newer, hnewer⟩ := ancestors_of_newTip hgenesis hkept.stored hlinked'
      rw [← tipPrevMainHash_eq] at hnewer
      have hwalk := takeWhile_newer hroot hkept hnewer
      have hinfos : newer.mapM (getBlockInfo A) = .ok (newer.map (infoAt A)) := by
        refine mapM_getBlockInfo fun a ha => hroot.blocks a ?_
        rw [hnewer]
        exact List.mem_append_left _ ha
      have hbatch' : batch = newer.reverse.map (infoAt A) := by
        rw [twoWayPegDataBatch, MainHeaders.mainAncestorsUntil_eq hroot.known, ok_bind, hwalk,
          hinfos, ok_bind, Except.ok.injEq] at hbatch
        rw [← hbatch, List.map_reverse]
      rw [hbatch']
      exact sliced_applyBlocks hgenesis hkept hlinked hnewer

end

end Truthcoin.PegSlices
