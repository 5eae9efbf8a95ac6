import Truthcoin.SampleLibrary
import Truthcoin.BlockRun

/-!
# Short chains

Chains that can be evaluated: one address owns everything, headers and coinbases are
known by their height, and a transaction is known by the length of its memo.
-/

namespace Truthcoin.SampleChain

open Truthcoin.Types Truthcoin.Fallible Truthcoin.Decisions Truthcoin.Blocks
open Truthcoin.Connect Truthcoin.BlockRun Truthcoin.Commitments

def chainLibrary : Library Rat :=
  { sampleLibrary fun tx => tx.memo.length with
    headerHash := Header.prevMainHash
    coinbaseTxid := Header.prevMainHash }

/-- The owner of everything. -/
def owner : Address := 8

/-- The block of a height with transactions of the owner. -/
def blockAt (height : Nat) (txs : List (Transaction Rat)) : Block Rat :=
  let coinbase : Coinbase := ⟨[], [⟨owner, .bitcoin 0, []⟩]⟩
  ⟨⟨chainLibrary.merkleRoot coinbase txs, if height = 0 then none else some (height - 1), height⟩,
    ⟨coinbase, txs, txs.flatMap fun tx => tx.inputs.map fun _ => ⟨owner, 0⟩,
      txs.map fun _ => none⟩, height⟩

/-- Deposits with their numbers as outpoints. -/
def deposits (n : Nat) : TwoWayPegData :=
  ⟨[⟨1, (List.range n).map fun i => .deposit ⟨i, i, ⟨owner, .bitcoin 100000, []⟩⟩⟩]⟩

/-- A transaction that spends a deposit. -/
def spending {F : Type} (deposit : Nat) (outputs : List Output) (data : TxData F) :
    Transaction F :=
  ⟨[.deposit deposit deposit], outputs, List.replicate deposit 0, some data⟩

/-- A claim of one decision. -/
def claiming {F : Type} (deposit : Nat) (d : DecisionId) : Transaction F :=
  spending deposit []
    (.claimDecision ⟨.binary, [⟨d, "h", "d", none, none, none, none⟩]⟩)

/-- The genesis block and some deposits. -/
def genesisIn (L : Library Rat) (config : DecisionConfig) (n : Nat) :
    Except Error (State Rat) := do
  let s ← applyBlock L config emptyArchive (State.empty Rat) (blockAt 0 [])
  s.connectTwoWayPegData sampleBundleLib (deposits n)

/-- Connect blocks to the genesis block. -/
def runBlocksIn (L : Library Rat) (config : DecisionConfig) (n : Nat)
    (blocks : List (Block Rat)) : Except Error (State Rat) := do
  let s ← genesisIn L config n
  blocks.foldlM (applyBlock L config emptyArchive) s

def genesisWith (config : DecisionConfig) (n : Nat) : Except Error (State Rat) :=
  genesisIn chainLibrary config n

def runBlocks (config : DecisionConfig) (n : Nat) (blocks : List (Block Rat)) :
    Except Error (State Rat) :=
  runBlocksIn chainLibrary config n blocks

section

variable {L : Library Rat} {config : DecisionConfig} {n : Nat} {blocks : List (Block Rat)}
  {ok : State Rat → Block Rat → Prop} {s : State Rat}

theorem chain_of_genesisIn (hok : ok (State.empty Rat) (blockAt 0 []))
    (h : genesisIn L config n = .ok s) :
    Chain L config sampleBundleLib ok (fun _ _ => True) [blockAt 0 []] s := by
  obtain ⟨s₁, hblock, hpeg⟩ := bind_eq_ok_iff.mp h
  exact (Chain.start.connect emptyArchive hok hblock).connectPeg trivial hpeg

theorem chain_of_runBlocksIn (hok : ∀ block ∈ blockAt 0 [] :: blocks, ∀ s, ok s block)
    (h : runBlocksIn L config n blocks = .ok s) :
    Chain L config sampleBundleLib ok (fun _ _ => True)
      (blocks.reverse ++ [blockAt 0 []]) s := by
  obtain ⟨s₀, hgenesis, hblocks⟩ := bind_eq_ok_iff.mp h
  exact chain_of_foldlM (fun block hblock => hok block (by simp [hblock]))
    (chain_of_genesisIn (hok _ (by simp) _) hgenesis) hblocks

theorem chain_of_genesisWith (hok : ok (State.empty Rat) (blockAt 0 []))
    (h : genesisWith config n = .ok s) :
    Chain chainLibrary config sampleBundleLib ok (fun _ _ => True) [blockAt 0 []] s :=
  chain_of_genesisIn hok h

theorem chain_of_runBlocks_ok (hok : ∀ block ∈ blockAt 0 [] :: blocks, ∀ s, ok s block)
    (h : runBlocks config n blocks = .ok s) :
    Chain chainLibrary config sampleBundleLib ok (fun _ _ => True)
      (blocks.reverse ++ [blockAt 0 []]) s :=
  chain_of_runBlocksIn hok h

theorem chain_of_runBlocks (h : runBlocks config n blocks = .ok s) :
    Chain chainLibrary config sampleBundleLib (fun _ _ => True) (fun _ _ => True)
      (blocks.reverse ++ [blockAt 0 []]) s :=
  chain_of_runBlocks_ok (fun _ _ _ => trivial) h

end

end Truthcoin.SampleChain
