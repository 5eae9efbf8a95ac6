import Truthcoin.SampleChain

/-!
# Short chains with markets

A library without collisions that can be evaluated on a list of known transactions,
and a chain on which two markets are created and traded.
-/

namespace Truthcoin.SampleMarkets

open Truthcoin.Types Truthcoin.Fallible Truthcoin.Arithmetic Truthcoin.Decisions
open Truthcoin.Markets Truthcoin.Blocks Truthcoin.Connect Truthcoin.BlockRun
open Truthcoin.Disconnect Truthcoin.Commitments Truthcoin.SampleChain

section

variable {F : Type} [DecidableEq F] [Countable F]

/-- Known transactions have their places in the list as ids. -/
noncomputable def knownTxid (known : List (Transaction F)) (tx : Transaction F) : Txid :=
  if tx ∈ known then known.idxOf tx else known.length + numbering tx

theorem knownTxid_injective (known : List (Transaction F)) :
    Function.Injective (knownTxid known) := by
  have hnew : ∀ {x y : Transaction F}, x ∈ known →
      known.idxOf x ≠ known.length + (numbering y : Nat) := by
    intro x y hx
    have hlt := List.idxOf_lt_length_iff.mpr hx
    omega
  intro a b h
  unfold knownTxid at h
  split at h <;> split at h
  · rename_i ha hb
    exact (List.idxOf_inj ha).mp h
  · rename_i ha _
    exact absurd h (hnew ha)
  · rename_i _ hb
    exact absurd h.symm (hnew hb)
  · exact numbering_injective (Nat.add_left_cancel h)

/-- Headers are known by their heights, transactions by their places. -/
noncomputable def knownLibrary [F64 F] (known : List (Transaction F)) : Library F :=
  { sampleLibrary (knownTxid known) with headerHash := Header.prevMainHash }

theorem collisionFree_knownLibrary [F64 F] (known : List (Transaction F)) :
    CollisionFree (knownLibrary known) := by
  have h := collisionFree_sampleLibrary (knownTxid_injective known)
  exact ⟨h.txid, h.coinbaseTxid, h.merkleRoot, h.payoutHash⟩

end

/-- The block of a height with transactions of the owner. -/
def ownedBlock {F : Type} (L : Library F) (height : Nat) (txs : List (Transaction F)) :
    Block F :=
  let coinbase : Coinbase := ⟨[], [⟨owner, .bitcoin 0, []⟩]⟩
  ⟨⟨L.merkleRoot coinbase txs, if height = 0 then none else some (height - 1), height⟩,
    ⟨coinbase, txs, txs.flatMap fun tx => tx.inputs.map fun _ => ⟨owner, 0⟩,
      txs.map fun _ => none⟩, height⟩

/-- The archive of a chain whose blocks are known by their heights. -/
def heightArchive : Archive := ⟨some, fun _ _ => true⟩

/-- A period of two blocks. -/
def marketConfig : DecisionConfig := ⟨true, 2⟩

/-- The first standard slot of period 1. -/
def marketDecision : DecisionId := BitVec.ofNat 24 (2 ^ 23 + 2 ^ 16)

/-- The id of a market of the owner with one dimension. -/
def marketNamed (title : String) : MarketId :=
  chainLibrary.computeMarketId title "" owner [.single marketDecision]

/-- Create a market whose treasury output belongs to an address. -/
def creating {F : Type} (deposit : Nat) (title : String) (treasury : Address) :
    Transaction F :=
  spending deposit [⟨treasury, .marketFunds (marketNamed title) 10000 false, []⟩]
    (.createMarket ⟨title, "", [.single marketDecision], [], none, none, none, none⟩)

/-- Trade in the first outcome of a market. -/
def trading {F : Type} (deposit : Nat) (title : String) (shares : I64) (prevBlock : Nat) :
    Transaction F :=
  spending deposit []
    (.trade ⟨marketNamed title, 0, shares, owner, if shares.val > 0 then 50000 else 0, none,
      prevBlock⟩)

def ten : I64 := ⟨10, by decide⟩

def claimTxs : List (Transaction Rat) := [claiming 0 marketDecision]

def createTxs : List (Transaction Rat) := [creating 1 "" 1, creating 2 "x" 1]

def tradeTxs : List (Transaction Rat) := [trading 3 "" ten 2, trading 4 "x" ten 2]

noncomputable def marketLibrary : Library Rat :=
  knownLibrary (claimTxs ++ createTxs ++ tradeTxs)

noncomputable def marketBlock (height : Nat) (txs : List (Transaction Rat)) : Block Rat :=
  ownedBlock marketLibrary height txs

/-- The genesis block, deposits, and the blocks that create two markets. -/
noncomputable def marketStart : Except Error (State Rat) := do
  let apply := applyBlock marketLibrary marketConfig heightArchive
  let s ← apply (State.empty Rat) (marketBlock 0 [])
  let s ← s.connectTwoWayPegData sampleBundleLib (deposits 5)
  let s ← apply s (marketBlock 1 claimTxs)
  apply s (marketBlock 2 createTxs)

/-- The same start with a library of its own. -/
noncomputable def startWith (L : Library Rat) : Except Error (State Rat) := do
  let apply := applyBlock L marketConfig heightArchive
  let s ← apply (State.empty Rat) (ownedBlock L 0 [])
  let s ← s.connectTwoWayPegData sampleBundleLib (deposits 5)
  let s ← apply s (ownedBlock L 1 claimTxs)
  apply s (ownedBlock L 2 createTxs)

def sampleMain : MainOutputs := fun _ _ => ⟨owner, .bitcoin 100000, []⟩

theorem depositsFrom_deposits (n : Nat) : DepositsFrom sampleMain (deposits n) := by
  intro info hinfo d hd
  obtain rfl := List.mem_singleton.mp hinfo
  obtain ⟨i, -, heq⟩ := List.mem_map.mp hd
  cases heq
  rfl

theorem chain_of_startWith {L : Library Rat} {s : State Rat} (h : startWith L = .ok s) :
    Chain L marketConfig sampleBundleLib (fun _ _ => True)
      (fun _ data => DepositsFrom sampleMain data)
      [ownedBlock L 2 createTxs, ownedBlock L 1 claimTxs, ownedBlock L 0 []] s := by
  simp only [startWith, bind_eq_ok_iff] at h
  obtain ⟨s₀, h₀, s₁, h₁, s₂, h₂, h₃⟩ := h
  exact (((Chain.start.connect heightArchive trivial h₀).connectPeg (depositsFrom_deposits 5)
    h₁).connect heightArchive trivial h₂).connect heightArchive trivial h₃

theorem chain_of_marketStart {s : State Rat} (h : marketStart = .ok s) :
    Chain marketLibrary marketConfig sampleBundleLib (fun _ _ => True)
      (fun _ data => DepositsFrom sampleMain data)
      [marketBlock 2 createTxs, marketBlock 1 claimTxs, marketBlock 0 []] s :=
  chain_of_startWith h

/-- Two markets are traded in a block, which is then disconnected. -/
noncomputable def revertedTrades : Except Error (State Rat × State Rat) := do
  let s ← marketStart
  let s ← applyBlock marketLibrary marketConfig heightArchive s (marketBlock 3 tradeTxs)
  let block := marketBlock 3 tradeTxs
  let s' ← disconnectTip marketLibrary s block.header block.body
  .ok (s, s')

theorem run_of_revertedTrades {s s' : State Rat} (h : revertedTrades = .ok (s, s')) :
    Run marketLibrary marketConfig sampleBundleLib (fun _ _ => True)
        (fun _ data => DepositsFrom sampleMain data)
        [marketBlock 3 tradeTxs, marketBlock 2 createTxs, marketBlock 1 claimTxs,
          marketBlock 0 []] s ∧
      Run marketLibrary marketConfig sampleBundleLib (fun _ _ => True)
        (fun _ data => DepositsFrom sampleMain data)
        [marketBlock 2 createTxs, marketBlock 1 claimTxs, marketBlock 0 []] s' := by
  obtain ⟨s₀, hstart, h⟩ := bind_eq_ok_iff.mp h
  obtain ⟨_, hblock, h⟩ := bind_eq_ok_iff.mp h
  obtain ⟨_, hdisconnect, hpair⟩ := bind_eq_ok_iff.mp h
  obtain ⟨rfl, rfl⟩ := Prod.mk.inj (Except.ok.inj hpair)
  have hbefore := (chain_of_marketStart hstart).run.connect heightArchive trivial hblock
  exact ⟨hbefore, Run.disconnect hbefore hdisconnect⟩

end Truthcoin.SampleMarkets
