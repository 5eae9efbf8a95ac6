import Truthcoin.ArchiveRuns
import Truthcoin.LineageChains

/-!
# Ancestors in the archive

The lookups by height difference, the tests for descendants and the searches for the last
common ancestor, on both chains of every archive that the operations lead to.
-/

namespace Truthcoin.Archiving

open Truthcoin.Types Truthcoin.Table Truthcoin.Fallible Truthcoin.Blocks
open Truthcoin.Mainchain Truthcoin.Lineage

variable {B : Type}

namespace ArchiveDb

section

variable (db : ArchiveDb B)

def isDescendant (ancestor descendant : BlockHash) : Except ArchiveDbError Bool :=
  db.sideIndex.isDescendant sideFaults ancestor descendant

/-- The last common ancestor of two blocks, if headers for both exist. -/
def lastCommonAncestor (block0 block1 : BlockHash) :
    Except ArchiveDbError (Option BlockHash) :=
  db.sideIndex.findCommonAncestor sideFaults block0 block1

end

variable {hashes : Hashes} {db : ArchiveDb B}

theorem SideSound.rows_of_ancestors (hdb : db.SideSound hashes) {h : BlockHash} {n : Nat}
    (hh : db.sideIndex.height h = some n) : ∀ a ∈ db.sideIndex.ancestors h,
      db.sideIndex.RowExact a := by
  intro a ha
  obtain ⟨m, -, hm⟩ := Index.height_of_mem hdb.rooted hh ha
  exact hdb.rows hm

theorem SideSound.height_of_stored (hdb : db.SideSound hashes) {h : BlockHash}
    (hmem : h ∈ db.headers) : ∃ n, db.sideIndex.height h = some n := by
  obtain ⟨header, hheader⟩ := mem_iff_lookup.mp hmem
  exact hdb.height hheader

theorem MainSound.height_of_stored (hdb : db.MainSound hashes) {h : MainBlockHash}
    (hmem : h ∈ db.mainHeaderInfos) : ∃ n, db.mainIndex.height h = some n := by
  obtain ⟨info, hinfo⟩ := mem_iff_lookup.mp hmem
  exact hdb.height hinfo

theorem SideSound.getNthAncestor_spec (hdb : db.SideSound hashes) {b : BlockHash}
    (hb : b ∈ db.headers) : ∃ height, db.getHeight b = .ok height ∧
      (∀ n ≤ height, ∃ a, db.sideIndex.nthParent n b = some a ∧
        db.getNthAncestor b n = .ok a) ∧
      ∀ n > height, db.getNthAncestor b n = .error (.noAncestor b n) := by
  obtain ⟨height, hheight⟩ := hdb.height_of_stored hb
  refine ⟨height, okOr_eq_ok_iff.mpr hheight, fun n hn => ?_, fun n hn => ?_⟩
  · exact Index.nthAncestor_spec hdb.rooted sideFaults hheight (hdb.rows_of_ancestors hheight) hn
  · exact Index.nthAncestor_of_lt sideFaults hheight hn

theorem MainSound.getNthMainAncestor_spec (hdb : db.MainSound hashes) {m : MainBlockHash}
    (hm : m ∈ db.mainHeaderInfos) : ∃ height, db.getMainHeight m = .ok height ∧
      (∀ n ≤ height, ∃ a, db.mainIndex.nthParent n m = some a ∧
        db.getNthMainAncestor m n = .ok a) ∧
      ∀ n > height, db.getNthMainAncestor m n = .error (.noMainAncestor m n) := by
  obtain ⟨height, hheight⟩ := hdb.height_of_stored hm
  refine ⟨height, okOr_eq_ok_iff.mpr hheight, fun n hn => ?_, fun n hn => ?_⟩
  · exact Index.nthAncestor_spec hdb.rooted mainFaults hheight (hdb.rows_of_ancestors hheight) hn
  · exact Index.nthAncestor_of_lt mainFaults hheight hn

/-- On both chains a lookup answers with the `n`-fold parent, or that the block is not so
high, and a block is a descendant of those on its parent chain. -/
theorem getNthAncestor_exact (hdb : Reachable hashes db) :
    (∀ b ∈ db.headers, ∃ height, db.getHeight b = .ok height ∧
      (∀ n ≤ height, ∃ a, db.sideIndex.nthParent n b = some a ∧
        db.getNthAncestor b n = .ok a) ∧
      ∀ n > height, db.getNthAncestor b n = .error (.noAncestor b n)) ∧
    (∀ m ∈ db.mainHeaderInfos, ∃ height, db.getMainHeight m = .ok height ∧
      (∀ n ≤ height, ∃ a, db.mainIndex.nthParent n m = some a ∧
        db.getNthMainAncestor m n = .ok a) ∧
      ∀ n > height, db.getNthMainAncestor m n = .error (.noMainAncestor m n)) ∧
    (∀ a ∈ db.headers, ∀ d ∈ db.headers, ∃ r, db.isDescendant a d = .ok r ∧
      (r = true ↔ db.sideIndex.OnChain a d)) ∧
    ∀ a ∈ db.mainHeaderInfos, ∀ d ∈ db.mainHeaderInfos, ∃ r,
      db.isMainDescendant a d = .ok r ∧ (r = true ↔ db.mainIndex.OnChain a d) := by
  have hside := hdb.invariant.side
  have hmain := hdb.invariant.main
  refine ⟨fun b hb => hside.getNthAncestor_spec hb, fun m hm => hmain.getNthMainAncestor_spec hm,
    fun a ha d hd => ?_, fun a ha d hd => ?_⟩
  · obtain ⟨n, hn⟩ := hside.height_of_stored ha
    obtain ⟨m, hm⟩ := hside.height_of_stored hd
    exact Index.isDescendant_spec hside.rooted sideFaults hn hm (hside.rows_of_ancestors hm)
  · obtain ⟨n, hn⟩ := hmain.height_of_stored ha
    obtain ⟨m, hm⟩ := hmain.height_of_stored hd
    exact Index.isDescendant_spec hmain.rooted mainFaults hn hm (hmain.rows_of_ancestors hm)

theorem SideSound.lastCommonAncestor_eq (hdb : db.SideSound hashes) {b0 b1 : BlockHash}
    (h0 : b0 ∈ db.headers) (h1 : b1 ∈ db.headers) :
    (∃ c, db.lastCommonAncestor b0 b1 = .ok (some c) ∧
        Index.LastCommon db.sideIndex b0 b1 c) ∨
      db.lastCommonAncestor b0 b1 = .ok none ∧
        ∃ g0 g1, db.sideIndex.Genesis g0 b0 ∧ db.sideIndex.Genesis g1 b1 ∧ g0 ≠ g1 := by
  obtain ⟨n, hn⟩ := hdb.height_of_stored h0
  obtain ⟨m, hm⟩ := hdb.height_of_stored h1
  exact Index.findCommonAncestor_eq sideFaults hdb.rooted hn hm (hdb.rows_of_ancestors hn)
    (hdb.rows_of_ancestors hm)

theorem SideSound.lastCommonAncestor_spec (hdb : db.SideSound hashes) {b0 b1 : BlockHash}
    (h0 : b0 ∈ db.headers) (h1 : b1 ∈ db.headers) :
    ∃ result, db.lastCommonAncestor b0 b1 = .ok result ∧
      (∀ c, result = some c ↔ db.sideIndex.HighestCommon b0 b1 c) ∧
      (result = none ↔
        ∃ g0 g1, db.sideIndex.Genesis g0 b0 ∧ db.sideIndex.Genesis g1 b1 ∧ g0 ≠ g1) := by
  obtain ⟨n, hn⟩ := hdb.height_of_stored h0
  obtain ⟨m, hm⟩ := hdb.height_of_stored h1
  rcases hdb.lastCommonAncestor_eq h0 h1 with ⟨c, hc, hlast⟩ | ⟨hnone, g0, g1, hg0, hg1, hne⟩
  · have hhighest := Index.highestCommon_of_lastCommon hdb.rooted hn hm hlast
    refine ⟨some c, hc, fun d => ?_, ?_⟩
    · rw [Option.some.injEq]
      constructor
      · rintro rfl
        exact hhighest
      · exact Index.highestCommon_unique hdb.rooted hn hhighest
    · refine ⟨fun h => (by cases h), ?_⟩
      rintro ⟨g0, g1, hg0, hg1, hne⟩
      exact absurd (Index.genesis_of_common hdb.rooted hn hm hlast.1 hlast.2.1 hg0 hg1) hne
  · refine ⟨none, hnone, fun d => ⟨fun h => (by cases h), fun hd => ?_⟩,
      fun _ => ⟨g0, g1, hg0, hg1, hne⟩, fun _ => rfl⟩
    have hd0 := (Index.onChain_iff hdb.rooted hn).mp hd.1
    have hd1 := (Index.onChain_iff hdb.rooted hm).mp hd.2.1
    exact absurd (Index.genesis_of_common hdb.rooted hn hm hd0 hd1 hg0 hg1) hne

theorem MainSound.lastCommonMainAncestor_spec (hdb : db.MainSound hashes)
    {m0 m1 g : MainBlockHash} (h0 : m0 ∈ db.mainHeaderInfos) (h1 : m1 ∈ db.mainHeaderInfos)
    (hg0 : db.mainIndex.Genesis g m0) (hg1 : db.mainIndex.Genesis g m1) :
    ∃ c, db.lastCommonMainAncestor m0 m1 = .ok c ∧ db.mainIndex.HighestCommon m0 m1 c := by
  obtain ⟨n, hn⟩ := hdb.height_of_stored h0
  obtain ⟨m, hm⟩ := hdb.height_of_stored h1
  obtain ⟨c, hc, hlast⟩ := Index.lastCommonAncestor_spec mainFaults hdb.rooted hn hm
    (hdb.rows_of_ancestors hn) (hdb.rows_of_ancestors hm) hg0 hg1
  exact ⟨c, hc, Index.highestCommon_of_lastCommon hdb.rooted hn hm hlast⟩

/-- On the sidechain the search finds the highest common block of two blocks, or none when
they have different first blocks; on the mainchain it finds that of two blocks with the same
first block. Both searches end by themselves in the rounds that they are given. -/
theorem lastCommonAncestor_exact (hdb : Reachable hashes db) :
    (∀ b0 ∈ db.headers, ∀ b1 ∈ db.headers, ∃ result,
      db.lastCommonAncestor b0 b1 = .ok result ∧
      (∀ c, result = some c ↔ db.sideIndex.HighestCommon b0 b1 c) ∧
      (result = none ↔
        ∃ g0 g1, db.sideIndex.Genesis g0 b0 ∧ db.sideIndex.Genesis g1 b1 ∧ g0 ≠ g1)) ∧
    (∀ m0 ∈ db.mainHeaderInfos, ∀ m1 ∈ db.mainHeaderInfos, ∀ g,
      db.mainIndex.Genesis g m0 → db.mainIndex.Genesis g m1 →
        ∃ c, db.lastCommonMainAncestor m0 m1 = .ok c ∧ db.mainIndex.HighestCommon m0 m1 c) ∧
    (∀ (b0 b1 : BlockHash) (height : Nat), ∀ rounds ≥ height,
      db.sideIndex.commonDepth sideFaults b0 b1 rounds 1 height =
        db.sideIndex.searchDepth sideFaults b0 b1 1 height) ∧
    ∀ (m0 m1 : MainBlockHash) (height : Nat), ∀ rounds ≥ height,
      db.mainIndex.commonDepth mainFaults m0 m1 rounds 1 height =
        db.mainIndex.searchDepth mainFaults m0 m1 1 height := by
  refine ⟨fun b0 h0 b1 h1 => hdb.invariant.side.lastCommonAncestor_spec h0 h1,
    fun m0 h0 m1 h1 g hg0 hg1 => hdb.invariant.main.lastCommonMainAncestor_spec h0 h1 hg0 hg1,
    fun b0 b1 height rounds hrounds => ?_, fun m0 m1 height rounds hrounds => ?_⟩
  · exact Index.commonDepth_eq_searchDepth (by omega)
  · exact Index.commonDepth_eq_searchDepth (by omega)

end ArchiveDb

def treeFirst : Header := headerOn none 1
def treeLeft : Header := headerOn (some (pairHash treeFirst)) 2
def treeRight : Header := headerOn (some (pairHash treeFirst)) 3

/-- The mainchain `1, 2, 3, 4`, without commitments. -/
def treeRows : List MainRow :=
  [⟨0, 0, 1, none⟩, ⟨1, 1, 1, none⟩, ⟨2, 2, 1, none⟩, ⟨3, 3, 1, none⟩]

def smallTree : ArchiveDb Unit :=
  treeArchive treeRows [treeFirst, treeLeft, treeRight]

theorem getNthAncestor_exact_tree :
    ∃ height, smallTree.getMainHeight 4 = .ok height ∧
      (∀ n ≤ height, ∃ a, smallTree.mainIndex.nthParent n 4 = some a ∧
        smallTree.getNthMainAncestor 4 n = .ok a) ∧
      ∀ n > height, smallTree.getNthMainAncestor 4 n = .error (.noMainAncestor 4 n) :=
  (ArchiveDb.getNthAncestor_exact (reachable_treeArchive _ _)).2.1 4 (by decide +kernel)

theorem lastCommonAncestor_exact_tree :
    ∃ result, smallTree.lastCommonAncestor (pairHash treeLeft) (pairHash treeRight) = .ok result ∧
      ∀ c, result = some c ↔
        smallTree.sideIndex.HighestCommon (pairHash treeLeft) (pairHash treeRight) c := by
  obtain ⟨result, hresult, hhighest, -⟩ :=
    (ArchiveDb.lastCommonAncestor_exact
      (reachable_treeArchive treeRows [treeFirst, treeLeft, treeRight])).1 (pairHash treeLeft)
      (by decide +kernel) (pairHash treeRight) (by decide +kernel)
  exact ⟨result, hresult, hhighest⟩

example : smallTree.lastCommonAncestor (pairHash treeLeft) (pairHash treeRight) =
    .ok (some (pairHash treeFirst)) := by
  decide +kernel

end Truthcoin.Archiving
