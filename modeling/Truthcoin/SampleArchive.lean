import Truthcoin.ArchiveSound

/-!
# A small archive

Hashes with small values, for the examples of the modules about the archive.
-/

namespace Truthcoin.Archiving

open Truthcoin.Types Truthcoin.Blocks Truthcoin.Mainchain

/-- An injective numbering of headers. -/
def pairHash (header : Header) : BlockHash :=
  Nat.pair header.merkleRoot (Nat.pair (header.prevSideHash.elim 0 (· + 1)) header.prevMainHash)

theorem pairHash_injective : Function.Injective pairHash := by
  rintro ⟨r, p, m⟩ ⟨r', p', m'⟩ h
  obtain ⟨rfl, h⟩ := Nat.pair_eq_pair.mp h
  obtain ⟨hp, rfl⟩ := Nat.pair_eq_pair.mp h
  cases p with
  | none => cases p' with
    | none => rfl
    | some q => cases hp
  | some q => cases p' with
    | none => cases hp
    | some q' => rw [Nat.succ.inj hp]

/-- A header without transactions on a sidechain block and a mainchain block. -/
def headerOn (prevSideHash : Option BlockHash) (prevMainHash : MainBlockHash) : Header :=
  ⟨0, prevSideHash, prevMainHash⟩

/-- A mainchain header of the given height and work. -/
def mainHeaderOn (blockHash prevBlockHash : MainBlockHash) (height work : Nat) : MainHeaderInfo :=
  ⟨⟨blockHash, prevBlockHash, work, 0⟩, height⟩

/-- The mainchain `1, 2, 3, …`, whose blocks commit as given. -/
def lineHashes (commitment : MainBlockHash → Option BlockHash) : Hashes where
  headerHash := pairHash
  headerHash_injective := pairHash_injective
  mainHeader h := mainHeaderOn h (h - 1) (h - 1) 1
  mainBlock h := ⟨commitment h, []⟩

end Truthcoin.Archiving
