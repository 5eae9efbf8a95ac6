import Truthcoin.Ancestors
import Truthcoin.BatchedIteration
import Truthcoin.SideTipsSync

/-!
# Ancestors by batches

The iterators over the ancestors of a block from a start height up to the block, on the
sidechain and on the mainchain. They look up a batch at a time and hand it out oldest
first.
-/

namespace Truthcoin.Archiving

open Truthcoin.Types Truthcoin.Table Truthcoin.Fallible Truthcoin.Blocks
open Truthcoin.Mainchain Truthcoin.Lineage Truthcoin.BatchedIteration

variable {B : Type}

namespace ArchiveDb

section

variable (db : ArchiveDb B)

/-- The headers of a block and of its ancestors, at most `n` of them. -/
def ancestorHeaders :
    Nat → Option BlockHash → Except ArchiveDbError (List (BlockHash × Header))
  | 0, _ => .ok []
  | _ + 1, none => .ok []
  | n + 1, some blockHash => do
      let header ← db.getHeader blockHash
      let rest ← ancestorHeaders n header.prevSideHash
      .ok ((blockHash, header) :: rest)

/-- A call of the iterator over ancestor headers that ends with the given block. -/
def ancestorsRevNext (blockHash : BlockHash) (it : Batches (BlockHash × Header)) :
    Except ArchiveDbError (Option (BlockHash × Header) × Batches (BlockHash × Header)) :=
  it.next (db.getHeight blockHash) fun nthAncestor batchSize => do
    let ancestor ← db.getNthAncestor blockHash nthAncestor
    db.ancestorHeaders batchSize (some ancestor)

/-- A call of the iterator over mainchain header infos that ends with the given block. The
height of the end is the one that the mainchain node reports. -/
def mainchainAncestorsRevNext (endBlockHash : MainBlockHash) (it : Batches MainHeaderInfo) :
    Except ArchiveDbError (Option MainHeaderInfo × Batches MainHeaderInfo) :=
  it.next ((·.height) <$> db.getMainHeaderInfo endBlockHash) fun nthAncestor batchSize => do
    let ancestor ← db.getNthMainAncestor endBlockHash nthAncestor
    db.mainAncestorHeaderInfos batchSize ancestor

/-- A stored block with its header. -/
def headerRow (h : BlockHash) : Option (BlockHash × Header) :=
  db.headers[h]?.map fun header => (h, header)

/-- Each mainchain block of the parent chain of `h` reports a height one above that of its
parent. -/
def HeightsRise (h : MainBlockHash) : Prop :=
  ∀ (a p : MainBlockHash) (info parentInfo : MainHeaderInfo), db.mainIndex.OnChain a h →
    db.mainHeaderInfos[a]? = some info → mainParent info = some p →
      db.mainHeaderInfos[p]? = some parentInfo → info.height = parentInfo.height + 1

end

variable {hashes : Hashes} {db : ArchiveDb B}

theorem exists_map_some {α β : Type} {f : α → Option β} {l : List α}
    (h : ∀ a ∈ l, ∃ b, f a = some b) : ∃ rows : List β, l.map f = rows.map some := by
  induction l with
  | nil => exact ⟨[], rfl⟩
  | cons a l ih =>
      obtain ⟨b, hb⟩ := h a List.mem_cons_self
      obtain ⟨rows, hrows⟩ := ih fun a' ha' => h a' (List.mem_cons_of_mem _ ha')
      exact ⟨b :: rows, by rw [List.map_cons, hb, hrows, List.map_cons]⟩

theorem exists_rest {α : Type} {a : α} {l : List (Option α)} {rows : List α}
    (h : some a :: l = rows.map some) : ∃ rest, rows = a :: rest ∧ l = rest.map some := by
  cases rows with
  | nil => cases h
  | cons row rest =>
      rw [List.map_cons, List.cons.injEq, Option.some.injEq] at h
      exact ⟨rest, by rw [h.1], h.2⟩

theorem ancestorHeaders_none {k : Nat} : db.ancestorHeaders k none = .ok [] := by
  cases k with
  | zero => rfl
  | succ k => rfl

theorem SideSound.ancestorHeaders_eq (hdb : db.SideSound hashes) {a : BlockHash} {n k : Nat}
    {rows : List (BlockHash × Header)} (ha : db.sideIndex.height a = some n)
    (hrows : (db.sideIndex.ancestors a).map db.headerRow = rows.map some) :
    db.ancestorHeaders k (some a) = .ok (rows.take k) := by
  induction k generalizing a n rows with
  | zero => rw [List.take_zero]; rfl
  | succ k ih =>
      obtain ⟨header, hheader⟩ := hdb.header_of_height ha
      have hparent := sideIndex_parent hheader
      have hrow : db.headerRow a = some (a, header) := by
        rw [headerRow, hheader, Option.map_some]
      rw [ancestorHeaders, getHeader, hheader, okOr_some, ok_bind]
      cases hprev : header.prevSideHash with
      | none =>
          rw [hprev] at hparent
          rw [Index.ancestors_first hparent, List.map_singleton, hrow] at hrows
          obtain ⟨rest, rfl, hrest⟩ := exists_rest hrows
          obtain rfl := List.map_eq_nil_iff.mp hrest.symm
          rw [ancestorHeaders_none, ok_bind, List.take_succ_cons, List.take_nil]
      | some p =>
          rw [hprev] at hparent
          obtain ⟨m, hp, -⟩ := hdb.rooted.child hparent
          rw [Index.ancestors_child hdb.rooted hparent, List.map_cons, hrow] at hrows
          obtain ⟨rest, rfl, hrest⟩ := exists_rest hrows
          rw [ih hp hrest, ok_bind, List.take_succ_cons]

theorem MainSound.mainAncestorHeaderInfos_eq (hdb : db.MainSound hashes) {a : MainBlockHash}
    {n k : Nat} {rows : List MainHeaderInfo} (ha : db.mainIndex.height a = some n)
    (hrows : (db.mainIndex.ancestors a).map (db.mainHeaderInfos[·]?) = rows.map some) :
    db.mainAncestorHeaderInfos k a = .ok (rows.take k) := by
  induction k generalizing a n rows with
  | zero => rw [List.take_zero]; rfl
  | succ k ih =>
      obtain ⟨info, hinfo⟩ := hdb.info_of_height ha
      have hparent := mainIndex_parent hinfo
      rw [mainAncestorHeaderInfos, if_neg (hdb.header hinfo).2.2, getMainHeaderInfo, hinfo,
        okOr_some, ok_bind]
      by_cases hfirst : info.prevBlockHash = allZeros
      · rw [mainParent, if_pos hfirst] at hparent
        rw [Index.ancestors_first hparent, List.map_singleton, hinfo] at hrows
        obtain ⟨rest, rfl, hnil⟩ := exists_rest hrows
        obtain rfl := List.map_eq_nil_iff.mp hnil.symm
        have hrest : db.mainAncestorHeaderInfos k info.prevBlockHash = .ok [] := by
          cases k with
          | zero => rfl
          | succ k => rw [mainAncestorHeaderInfos, if_pos hfirst]
        rw [hrest, ok_bind, List.take_succ_cons, List.take_nil]
      · rw [mainParent, if_neg hfirst] at hparent
        obtain ⟨m, hp, -⟩ := hdb.rooted.child hparent
        rw [Index.ancestors_child hdb.rooted hparent, List.map_cons, hinfo] at hrows
        obtain ⟨rest, rfl, hrest⟩ := exists_rest hrows
        rw [ih hp hrest, ok_bind, List.take_succ_cons]

theorem getElem?_reverse_take {α : Type} {l : List α} {i height start : Nat}
    (hfits : height + 1 - start ≤ l.length) (hi : i < height + 1 - start) :
    (l.take (height + 1 - start)).reverse[i]? = l[height - start - i]? := by
  have hlength : (l.take (height + 1 - start)).length = height + 1 - start := by
    rw [List.length_take]
    omega
  rw [List.getElem?_reverse (by omega), hlength, List.getElem?_take_of_lt (by omega)]
  congr 1
  omega

theorem SideSound.yields_ancestorsRev (hdb : db.SideSound hashes) {b : BlockHash}
    {height start : Nat} (hheight : db.getHeight b = .ok height) (hlt : height < 2 ^ 32) :
    ∃ items, Yields (db.ancestorsRevNext b) (.new start) items ∧
      items.length = height + 1 - start ∧
      ∀ i < items.length, ∃ a header, items[i]? = some (a, header) ∧
        db.headers[a]? = some header ∧ db.getHeight a = .ok (start + i) ∧
          db.sideIndex.OnChain a b := by
  have hb : db.sideIndex.height b = some height := okOr_eq_ok_iff.mp hheight
  have hlength := Index.length_ancestors hdb.rooted hb
  obtain ⟨rows, hrows⟩ : ∃ rows : List (BlockHash × Header),
      (db.sideIndex.ancestors b).map db.headerRow = rows.map some := by
    apply exists_map_some
    intro a ha
    obtain ⟨m, -, hm⟩ := Index.height_of_mem hdb.rooted hb ha
    obtain ⟨header, hheader⟩ := hdb.header_of_height hm
    exact ⟨(a, header), by rw [headerRow, hheader, Option.map_some]⟩
  have hsize : rows.length = height + 1 := by
    have := congrArg List.length hrows
    rw [List.length_map, List.length_map] at this
    omega
  have hfetch (n k : Nat) (hn : n < rows.length) :
      (do
        let ancestor ← db.getNthAncestor b n
        db.ancestorHeaders k (some ancestor)) = .ok ((rows.drop n).take k) := by
    obtain ⟨a, ha, hplace⟩ := Index.nthAncestor_eq sideFaults hdb.rooted hb
      (hdb.rows_of_ancestors hb) (show n ≤ height by omega)
    rw [getNthAncestor, ha, ok_bind]
    apply hdb.ancestorHeaders_eq (Index.height_of_place hdb.rooted hb hplace).2
    rw [Index.ancestors_of_place hdb.rooted hb hplace, List.map_drop, hrows, List.map_drop]
  have hcount : height + 1 - start ≤ rows.length := by omega
  refine ⟨_, Batches.yields_new hlt hheight hfetch hcount, ?_, ?_⟩
  · rw [List.length_reverse, List.length_take]
    omega
  · intro i hi
    rw [List.length_reverse, List.length_take] at hi
    rw [getElem?_reverse_take (by omega) (by omega)]
    obtain ⟨a, ha⟩ : ∃ a, (db.sideIndex.ancestors b)[height - start - i]? = some a :=
      ⟨_, List.getElem?_eq_getElem (by omega)⟩
    obtain ⟨-, haheight⟩ := Index.height_of_place hdb.rooted hb ha
    obtain ⟨header, hheader⟩ := hdb.header_of_height haheight
    have hrow := congrArg (·[height - start - i]?) hrows
    simp only [List.getElem?_map, ha, Option.map_some, headerRow, hheader] at hrow
    obtain ⟨row, hrow, heq⟩ := Option.map_eq_some_iff.mp hrow.symm
    refine ⟨a, header, by rw [hrow, heq], hheader, ?_, ?_⟩
    · rw [show height - (height - start - i) = start + i by omega] at haheight
      exact okOr_eq_ok_iff.mpr haheight
    · exact (Index.onChain_iff hdb.rooted hb).mpr (List.mem_of_getElem? ha)

/-- With heights that rise along the chain, the block `k` before the end reports `k` less. -/
theorem MainSound.height_of_place (hdb : db.MainSound hashes) {m a : MainBlockHash}
    {endInfo info : MainHeaderInfo} (hrise : db.HeightsRise m) {k : Nat}
    (hend : db.mainHeaderInfos[m]? = some endInfo)
    (hplace : (db.mainIndex.ancestors m)[k]? = some a)
    (hinfo : db.mainHeaderInfos[a]? = some info) : info.height + k = endInfo.height := by
  obtain ⟨n, hn⟩ := hdb.height hend
  induction k generalizing a info with
  | zero =>
      rw [Index.getElem?_ancestors_zero hdb.rooted hn, Option.some.injEq] at hplace
      subst hplace
      rw [hend, Option.some.injEq] at hinfo
      rw [hinfo, Nat.add_zero]
  | succ k ih =>
      obtain ⟨hle, ha⟩ := Index.height_of_place hdb.rooted hn hplace
      obtain ⟨c, hc⟩ : ∃ c, (db.mainIndex.ancestors m)[k]? = some c := by
        have hlength := Index.length_ancestors hdb.rooted hn
        exact ⟨_, List.getElem?_eq_getElem (by omega)⟩
      obtain ⟨cinfo, hcinfo⟩ := hdb.info_of_mem hend (List.mem_of_getElem? hc)
      have hparent := mainIndex_parent hcinfo
      -- the parent of the block at place `k` is the block at place `k + 1`
      have hdrop := Index.ancestors_of_place hdb.rooted hn hc
      have hnext : (db.mainIndex.ancestors c)[1]? = some a := by
        rw [hdrop, List.getElem?_drop, hplace]
      cases hq : mainParent cinfo with
      | none =>
          rw [hq] at hparent
          rw [Index.ancestors_first hparent] at hnext
          cases hnext
      | some p =>
          rw [hq] at hparent
          obtain ⟨l, hp, -⟩ := hdb.rooted.child hparent
          rw [Index.ancestors_child hdb.rooted hparent, List.getElem?_cons_succ,
            Index.getElem?_ancestors_zero hdb.rooted hp, Option.some.injEq] at hnext
          subst hnext
          have hchain := (Index.onChain_iff hdb.rooted hn).mpr (List.mem_of_getElem? hc)
          have hstep := hrise c p cinfo info hchain hcinfo hq hinfo
          have hk := ih hc hcinfo
          omega

theorem MainSound.yields_mainchainAncestorsRev (hdb : db.MainSound hashes) {m : MainBlockHash}
    {endInfo : MainHeaderInfo} {start : Nat} (hend : db.mainHeaderInfos[m]? = some endInfo)
    (hlt : endInfo.height < 2 ^ 32) (hrise : db.HeightsRise m)
    (hstart : endInfo.height < start ∨ ∃ a info, db.mainIndex.OnChain a m ∧
      db.mainHeaderInfos[a]? = some info ∧ info.height = start) :
    ∃ items, Yields (db.mainchainAncestorsRevNext m) (.new start) items ∧
      items.length = endInfo.height + 1 - start ∧
      ∀ i < items.length, ∃ info, items[i]? = some info ∧
        db.mainHeaderInfos[info.blockHash]? = some info ∧ info.height = start + i ∧
          db.mainIndex.OnChain info.blockHash m := by
  obtain ⟨n, hn⟩ := hdb.height hend
  have hlength := Index.length_ancestors hdb.rooted hn
  obtain ⟨rows, hrows⟩ : ∃ rows : List MainHeaderInfo,
      (db.mainIndex.ancestors m).map (db.mainHeaderInfos[·]?) = rows.map some :=
    exists_map_some fun a ha => hdb.info_of_mem hend ha
  have hsize : rows.length = n + 1 := by
    have := congrArg List.length hrows
    rw [List.length_map, List.length_map] at this
    omega
  have hfits : endInfo.height + 1 - start ≤ rows.length := by
    rcases hstart with hlow | ⟨a, info, ha, hinfo, rfl⟩
    · omega
    · obtain ⟨k, hk⟩ := List.getElem?_of_mem ((Index.onChain_iff hdb.rooted hn).mp ha)
      have hsum := hdb.height_of_place hrise hend hk hinfo
      have hle := (Index.height_of_place hdb.rooted hn hk).1
      omega
  have hfetch (l k : Nat) (hl : l < rows.length) :
      (do
        let ancestor ← db.getNthMainAncestor m l
        db.mainAncestorHeaderInfos k ancestor) = .ok ((rows.drop l).take k) := by
    obtain ⟨a, ha, hplace⟩ := Index.nthAncestor_eq mainFaults hdb.rooted hn
      (hdb.rows_of_ancestors hn) (show l ≤ n by omega)
    rw [getNthMainAncestor, ha, ok_bind]
    apply hdb.mainAncestorHeaderInfos_eq (Index.height_of_place hdb.rooted hn hplace).2
    rw [Index.ancestors_of_place hdb.rooted hn hplace, List.map_drop, hrows, List.map_drop]
  have hget : (·.height) <$> db.getMainHeaderInfo m = .ok endInfo.height := by
    rw [getMainHeaderInfo, hend]
    rfl
  refine ⟨_, Batches.yields_new hlt hget hfetch hfits, ?_, ?_⟩
  · rw [List.length_reverse, List.length_take]
    omega
  · intro i hi
    rw [List.length_reverse, List.length_take] at hi
    rw [getElem?_reverse_take hfits (by omega)]
    obtain ⟨a, ha⟩ : ∃ a, (db.mainIndex.ancestors m)[endInfo.height - start - i]? = some a :=
      ⟨_, List.getElem?_eq_getElem (by omega)⟩
    obtain ⟨info, hinfo⟩ := hdb.info_of_mem hend (List.mem_of_getElem? ha)
    have hrow := congrArg (·[endInfo.height - start - i]?) hrows
    simp only [List.getElem?_map, ha, Option.map_some, hinfo] at hrow
    obtain ⟨row, hrow, heq⟩ := Option.map_eq_some_iff.mp hrow.symm
    have hhash := (hdb.header hinfo).2.1
    have hsum := hdb.height_of_place hrise hend ha hinfo
    refine ⟨info, by rw [hrow, heq], by rw [hhash, hinfo], by omega, ?_⟩
    rw [hhash]
    exact (Index.onChain_iff hdb.rooted hn).mpr (List.mem_of_getElem? ha)

/-- The iterators hand out the ancestors at the start height and above up to the end, one at
each height, and nothing when the start is above the end. On the mainchain this holds of
heights that rise along the chain, from any height that is reported there. -/
theorem ancestorsRev_exact (hdb : Reachable hashes db) :
    (∀ (b : BlockHash) (height start : Nat), db.getHeight b = .ok height → height < 2 ^ 32 →
      ∃ items, Yields (db.ancestorsRevNext b) (.new start) items ∧
        items.length = height + 1 - start ∧
        ∀ i < items.length, ∃ a header, items[i]? = some (a, header) ∧
          db.headers[a]? = some header ∧ db.getHeight a = .ok (start + i) ∧
            db.sideIndex.OnChain a b) ∧
    ∀ (m : MainBlockHash) (endInfo : MainHeaderInfo) (start : Nat),
      db.mainHeaderInfos[m]? = some endInfo → endInfo.height < 2 ^ 32 → db.HeightsRise m →
      (endInfo.height < start ∨ ∃ a info, db.mainIndex.OnChain a m ∧
        db.mainHeaderInfos[a]? = some info ∧ info.height = start) →
      ∃ items, Yields (db.mainchainAncestorsRevNext m) (.new start) items ∧
        items.length = endInfo.height + 1 - start ∧
        ∀ i < items.length, ∃ info, items[i]? = some info ∧
          db.mainHeaderInfos[info.blockHash]? = some info ∧ info.height = start + i ∧
            db.mainIndex.OnChain info.blockHash m :=
  ⟨fun _ _ _ hheight hlt => hdb.invariant.side.yields_ancestorsRev hheight hlt,
    fun _ _ _ hend hlt hrise hstart =>
      hdb.invariant.main.yields_mainchainAncestorsRev hend hlt hrise hstart⟩

end ArchiveDb

def longHeader : Header := headerOn (some (pairHash treeLeft)) 3

/-- The mainchain `1, …, 40` under three sidechain blocks. -/
def longTree : ArchiveDb Unit :=
  treeArchive ((List.range 40).map fun h => ⟨h, h, 1, none⟩) [treeFirst, treeLeft, longHeader]

theorem heightsRise_longTree (m : MainBlockHash) : longTree.HeightsRise m := by
  have hsound := (reachable_treeArchive _ _ : ArchiveDb.Reachable _ longTree).invariant.main
  intro a p info parentInfo _ hinfo hp hparent
  have hprev : info.prevBlockHash ≠ 0 ∧ info.prevBlockHash = p := by
    unfold ArchiveDb.mainParent at hp
    split at hp
    · cases hp
    · exact ⟨‹_›, Option.some.inj hp⟩
  obtain rfl := (hsound.header hinfo).1
  obtain rfl := (hsound.header hparent).1
  by_cases hrow : a - 1 < 40
  · obtain rfl : a - 1 = p := by simpa [treeHashes, mainHeaderOn, hrow] using hprev.2
    have hpos : a - 1 ≠ 0 := by simpa [treeHashes, mainHeaderOn, hrow] using hprev.1
    have hbefore : a - 1 - 1 < 40 := (Nat.sub_le _ _).trans_lt hrow
    simp only [treeHashes, mainHeaderOn, List.getElem?_map, List.getElem?_range hrow,
      List.getElem?_range hbefore, Option.map_some, Option.getD_some]
    exact (Nat.sub_add_cancel (Nat.one_le_iff_ne_zero.mpr hpos)).symm
  · simp [treeHashes, mainHeaderOn, hrow] at hprev

theorem ancestorsRev_exact_long :
    (∃ items, Yields (longTree.ancestorsRevNext (pairHash longHeader)) (.new 0) items ∧
      items.length = 3 ∧
      ∀ i < items.length, ∃ a header, items[i]? = some (a, header) ∧
        longTree.headers[a]? = some header ∧ longTree.getHeight a = .ok (0 + i) ∧
          longTree.sideIndex.OnChain a (pairHash longHeader)) ∧
    ∃ items, Yields (longTree.mainchainAncestorsRevNext 40) (.new 3) items ∧
      items.length = 37 ∧
      ∀ i < items.length, ∃ info, items[i]? = some info ∧
        longTree.mainHeaderInfos[info.blockHash]? = some info ∧ info.height = 3 + i ∧
          longTree.mainIndex.OnChain info.blockHash 40 := by
  have hexact := ArchiveDb.ancestorsRev_exact (reachable_treeArchive _ _ :
    ArchiveDb.Reachable _ longTree)
  refine ⟨hexact.1 (pairHash longHeader) 2 0 (by decide +kernel) (by decide), ?_⟩
  refine hexact.2 40 (mainHeaderOn 40 39 39 1) 3 (by decide +kernel) (by decide)
    (heightsRise_longTree 40) (.inr ⟨4, mainHeaderOn 4 3 3 1, ⟨36, ?_⟩, ?_, rfl⟩)
  · decide +kernel
  · decide +kernel

end Truthcoin.Archiving
