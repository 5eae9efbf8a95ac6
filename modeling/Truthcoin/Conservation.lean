import Truthcoin.SampleMarkets
import Truthcoin.SettlementValue

/-!
# Conservation of value

A block creates no value: what its coinbase pays is covered by fees, what the consolidation
pays out was taken in by the trades of the block, and a settlement spends the funds that it
pays from.
-/

namespace Truthcoin.Conservation

open Truthcoin.Types Truthcoin.Fallible Truthcoin.Blocks Truthcoin.Connect Truthcoin.Commitments
open Truthcoin.ConnectTrace Truthcoin.MarketSteps Truthcoin.BlockRun Truthcoin.TagConnect
open Truthcoin.AddressIndex Truthcoin.TransactionValue Truthcoin.FundsValue
open Truthcoin.SettlementValue Truthcoin.SampleChain Truthcoin.SampleMarkets

variable {F : Type} {L : Library F} {T : Tags} [F64 F] [DecidableEq F]
  {config : Decisions.DecisionConfig} {archive : Archive} {s s' : State F} {block : Block F}

theorem value_applyBlock_le (hT : TagsOf L T) (hs : Tagged T s)
    (h : applyBlock L config archive s block = .ok s') : s'.coins.value ≤ s.coins.value := by
  obtain ⟨t, ht, rfl⟩ := connects_of_applyBlock h
  obtain ⟨hspent, hpaid⟩ := value_spent ht.toPrepares
  have hwritten : FundsTagged T ⟨t.spent, t.written.marketFundsUtxos⟩ := by
    rw [writeMarkets_funds ht.written]
    exact spent_tagged hT (merkleRoot_of_prevalidate ht.prevalidated) ht.applied ht.spent hs
  have hfunds := (consolidateMarketUtxos_tagged hT hwritten ht.funds).1
  calc t.paid.coins.value
    _ ≤ t.funds.coins.value := value_transitionMarkets_le hT hfunds.coins hfunds.pointers ht.paid
    _ ≤ t.spent.value + owed t.applied.update :=
        value_consolidateMarketUtxos_le hT hwritten hpaid ht.funds
    _ ≤ s.coins.value := hspent

variable {lib : WithdrawalBundle.BundleLib} {chain : List (Block F)}

/-- In no state that a node reaches does a block that connects create value. -/
theorem value_le_of_connect (hL : CollisionFree L) {main : MainOutputs}
    (hrun : Run L config lib (fun _ _ => True) (fun _ data => DepositsFrom main data) chain s)
    (h : applyBlock L config archive s block = .ok s') : s'.coins.value ≤ s.coins.value := by
  have htagged : Tagged (tags L main) s :=
    tagged_of_run (tagsOf_tags hL main)
      (fun _ _ hdata => depositsTagged_of_depositsFrom hL hdata) hrun
  exact value_applyBlock_le (tagsOf_tags hL main) htagged h

/-- Two trades leave their fees behind, which the coinbase of their block does not claim. -/
theorem value_le_of_connect_trades :
    ∃ s s', Run marketLibrary marketConfig sampleBundleLib (fun _ _ => True)
        (fun _ data => DepositsFrom sampleMain data)
        [marketBlock 2 createTxs, marketBlock 1 claimTxs, marketBlock 0 []] s ∧
      applyBlock marketLibrary marketConfig heightArchive s (marketBlock 3 tradeTxs) = .ok s' ∧
      s'.coins.value ≠ s.coins.value ∧ s'.coins.value ≤ s.coins.value := by
  have hcomputed : holds marketStart (fun s =>
      holds (applyBlock marketLibrary marketConfig heightArchive s (marketBlock 3 tradeTxs))
        fun s' => decide (s'.coins.value ≠ s.coins.value)) = true := by
    decide +kernel
  obtain ⟨s, hstart, htest⟩ := holds_iff.mp hcomputed
  obtain ⟨s', hblock, hdiffers⟩ := holds_iff.mp htest
  have hrun := (chain_of_marketStart hstart).run
  exact ⟨s, s', hrun, hblock, of_decide_eq_true hdiffers,
    value_le_of_connect (collisionFree_knownLibrary _) hrun hblock⟩

end Truthcoin.Conservation
