import Truthcoin.SampleMarkets
import Truthcoin.TagDisconnect

/-!
# The address index over whole runs

The hashes of the library bind what they are taken of, and a mainchain outpoint
names one output. So every outpoint has one tag for all time, and in every state
that a node reaches the address index lists the unspent outputs by owner.
-/

namespace Truthcoin.AddressIndex

open Truthcoin.Types Truthcoin.Table Truthcoin.Fallible Truthcoin.Markets
open Truthcoin.Blocks Truthcoin.Commitments Truthcoin.BlockRun Truthcoin.TagConnect
open Truthcoin.TwoWayPeg

variable {F : Type} {L : Library F}

/-- An output that can be created at an outpoint has the tag. -/
inductive Names (L : Library F) (main : MainOutputs) (o : OutPoint) (tag : Tag) : Prop where
  | regular (tx : Transaction F) (vout : Nat) (output : Output)
      (ho : o = .regular (L.txid tx) vout) (houtput : tx.outputs[vout]? = some output)
      (htag : tag = Output.tag output)
  | coinbase (header : Header) (body : Body F) (vout : Nat) (output : Output)
      (ho : o = .coinbase (L.coinbaseTxid header) vout)
      (hroot : L.merkleRoot body.coinbase body.transactions = header.merkleRoot)
      (houtput : body.coinbase.outputs[vout]? = some output)
      (htag : tag = Output.tag output)
  | deposit (txid vout : Nat) (ho : o = .deposit txid vout)
      (htag : tag = FilledOutput.tag (main txid vout))
  | marketFunds (key : FundsKey) (height : Nat)
      (ho : o = .marketFunds key.marketId height key.isFee)
      (htag : tag = ⟨fundsAddress L key, some key⟩)
  | payout (source : PayoutSource) (vout : Nat) (ho : o = .payout (payoutHash L source) vout)
      (htag : tag = ⟨source.owner, none⟩)

theorem tag_of_written {scriptPubkey : MainAddress → List UInt8} {output output' : Output}
    (h : writtenOutput scriptPubkey output = writtenOutput scriptPubkey output') :
    Output.tag output = Output.tag output' := by
  obtain ⟨address, content, memo⟩ := output
  obtain ⟨address', content', memo'⟩ := output'
  obtain ⟨rfl, hcontent, -⟩ := WrittenOutput.mk.inj h
  cases content <;> cases content' <;> simp_all [writtenContent, Output.tag, Content.fundsKey]

theorem Names.unique (hL : CollisionFree L) {main : MainOutputs} {o : OutPoint}
    {tag tag' : Tag} (h : Names L main o tag) (h' : Names L main o tag') : tag = tag' := by
  cases h with
  | regular tx vout output ho houtput htag =>
      subst ho
      cases h' with
      | regular tx' vout' output' ho' houtput' htag' =>
          obtain ⟨htxid, rfl⟩ := OutPoint.regular.inj ho'
          rw [htag, htag']
          exact tag_of_written
            (written_of_getElem? (outputs_of_written (hL.txid htxid)) houtput houtput')
      | coinbase _ _ _ _ ho' | deposit _ _ ho' | marketFunds _ _ ho' | payout _ _ ho' => cases ho'
  | coinbase header body vout output ho hroot houtput htag =>
      subst ho
      cases h' with
      | coinbase header' body' vout' output' ho' hroot' houtput' htag' =>
          obtain ⟨htxid, rfl⟩ := OutPoint.coinbase.inj ho'
          rw [← hL.coinbaseTxid htxid] at hroot'
          have hwritten := hL.merkleRoot (hroot.trans hroot'.symm)
          rw [htag, htag']
          exact tag_of_written
            (written_of_getElem? (WrittenCoinbase.mk.inj hwritten).2 houtput houtput')
      | regular _ _ _ ho' | deposit _ _ ho' | marketFunds _ _ ho' | payout _ _ ho' => cases ho'
  | deposit txid vout ho htag =>
      subst ho
      cases h' with
      | deposit txid' vout' ho' htag' =>
          obtain ⟨rfl, rfl⟩ := OutPoint.deposit.inj ho'
          rw [htag, htag']
      | regular _ _ _ ho' | coinbase _ _ _ _ ho' | marketFunds _ _ ho' | payout _ _ ho' =>
          cases ho'
  | marketFunds key height ho htag =>
      subst ho
      cases h' with
      | marketFunds key' height' ho' htag' =>
          obtain ⟨marketId, isFee⟩ := key
          obtain ⟨marketId', isFee'⟩ := key'
          obtain ⟨rfl, -, rfl⟩ := OutPoint.marketFunds.inj ho'
          rw [htag, htag']
      | regular _ _ _ ho' | coinbase _ _ _ _ ho' | deposit _ _ ho' | payout _ _ ho' => cases ho'
  | payout source vout ho htag =>
      subst ho
      cases h' with
      | payout source' vout' ho' htag' =>
          obtain ⟨hhash, -⟩ := OutPoint.payout.inj ho'
          rw [htag, htag', hL.payoutHash hhash]
      | regular _ _ _ ho' | coinbase _ _ _ _ ho' | deposit _ _ ho' | marketFunds _ _ ho' =>
          cases ho'

instance : Nonempty Tag := ⟨⟨0, none⟩⟩

/-- The tag of each outpoint. -/
noncomputable def tags (L : Library F) (main : MainOutputs) : Tags :=
  fun o => Classical.epsilon (Names L main o)

theorem tags_eq (hL : CollisionFree L) {main : MainOutputs} {o : OutPoint} {tag : Tag}
    (h : Names L main o tag) : tags L main o = tag :=
  (Classical.epsilon_spec (p := Names L main o) ⟨tag, h⟩).unique hL h

theorem tagsOf_tags (hL : CollisionFree L) (main : MainOutputs) : TagsOf L (tags L main) where
  regular tx vout output houtput := tags_eq hL (.regular tx vout output rfl houtput rfl)
  coinbase header body vout output hroot houtput :=
    tags_eq hL (.coinbase header body vout output rfl hroot houtput rfl)
  marketFunds key height := tags_eq hL (.marketFunds key height rfl rfl)
  sellPayout marketId seller txid :=
    tags_eq hL (.payout (.sellPayout marketId seller txid) 0 rfl rfl)
  buyChange marketId trader txid :=
    tags_eq hL (.payout (.buyChange marketId trader txid) 0 rfl rfl)
  sellInputChange trader txid := tags_eq hL (.payout (.sellInputChange trader txid) 0 rfl rfl)
  sharePayout marketId shareholder height sequence :=
    tags_eq hL (.payout (.sharePayout marketId shareholder height sequence) sequence rfl rfl)

theorem depositsTagged_of_depositsFrom (hL : CollisionFree L) {main : MainOutputs}
    {data : TwoWayPegData} (h : DepositsFrom main data) : DepositsTagged (tags L main) data := by
  intro info hinfo d hd
  rw [RowTagged, Deposit.outpoint, tags_eq hL (.deposit d.txid d.vout rfl rfl),
    h info hinfo d hd]

variable [F64 F] [DecidableEq F] {config : Decisions.DecisionConfig}
  {lib : WithdrawalBundle.BundleLib} {ok : State F → Block F → Prop}
  {okPeg : State F → TwoWayPegData → Prop} {chain : List (Block F)} {s : State F}

theorem tagged_of_run {T : Tags} (hT : TagsOf L T)
    (hdeposits : ∀ s data, okPeg s data → DepositsTagged T data)
    (hrun : Run L config lib ok okPeg chain s) : Tagged T s := by
  induction hrun with
  | start => exact tagged_empty T
  | connect archive hrun hok h ih => exact tagged_applyBlock hT ih h
  | disconnect hrun h ih => exact tagged_disconnectTip ih h
  | connectPeg hrun hok h ih =>
      obtain ⟨p, hp, h⟩ := bind_eq_ok_iff.mp h
      rw [← Except.ok.inj h]
      have htagged : p.Tagged T :=
        tagged_connect ⟨ih.coins, ih.bundles⟩ (hdeposits _ _ hok) hp
      exact ⟨htagged.coins, htagged.bundles, ih.pointers, ih.settlement, ih.consolidation⟩
  | disconnectPeg hrun h ih =>
      obtain ⟨p, hp, h⟩ := bind_eq_ok_iff.mp h
      rw [← Except.ok.inj h]
      have htagged : p.Tagged T := tagged_disconnect ⟨ih.coins, ih.bundles⟩ hp
      exact ⟨htagged.coins, htagged.bundles, ih.pointers, ih.settlement, ih.consolidation⟩

/-- In every state that a node reaches by connecting and disconnecting blocks and peg
data, an address and an outpoint are a row of the index if and only if the outpoint
is unspent and its output is owned by the address. -/
theorem utxosByAddress_iff (hL : CollisionFree L) {main : MainOutputs}
    (hrun : Run L config lib (fun _ _ => True) (fun _ data => DepositsFrom main data) chain s)
    (address : Address) (o : OutPoint) :
    (⟨address, o⟩ : AddressKey) ∈ s.coins.utxosByAddress ↔
      ∃ output, s.coins.utxos[o]? = some output ∧ output.address = address := by
  have htagged : Tagged (tags L main) s :=
    tagged_of_run (tagsOf_tags hL main)
      (fun _ _ hdata => depositsTagged_of_depositsFrom hL hdata) hrun
  exact htagged.coins.indexed ⟨address, o⟩

open Truthcoin.SampleMarkets Truthcoin.SampleChain in
/-- Trades replace the funds of two markets, and are disconnected again. -/
theorem utxosByAddress_iff_reverted :
    ∃ s s' : State Rat,
      Run marketLibrary marketConfig sampleBundleLib (fun _ _ => True)
        (fun _ data => DepositsFrom sampleMain data)
        [marketBlock 3 tradeTxs, marketBlock 2 createTxs, marketBlock 1 claimTxs,
          marketBlock 0 []] s ∧
      Run marketLibrary marketConfig sampleBundleLib (fun _ _ => True)
        (fun _ data => DepositsFrom sampleMain data)
        [marketBlock 2 createTxs, marketBlock 1 claimTxs, marketBlock 0 []] s' ∧
      s.coins.utxosByAddress ≠ s'.coins.utxosByAddress ∧
      (∀ address o, (⟨address, o⟩ : AddressKey) ∈ s.coins.utxosByAddress ↔
        ∃ output, s.coins.utxos[o]? = some output ∧ output.address = address) ∧
      ∀ address o, (⟨address, o⟩ : AddressKey) ∈ s'.coins.utxosByAddress ↔
        ∃ output, s'.coins.utxos[o]? = some output ∧ output.address = address := by
  have hcomputed : holds revertedTrades (fun states =>
      decide (states.1.coins.utxosByAddress ≠ states.2.coins.utxosByAddress)) = true := by
    decide +kernel
  obtain ⟨⟨s, s'⟩, hrun, htest⟩ := holds_iff.mp hcomputed
  obtain ⟨hbefore, hafter⟩ := run_of_revertedTrades hrun
  exact ⟨s, s', hbefore, hafter, of_decide_eq_true htest,
    utxosByAddress_iff (collisionFree_knownLibrary _) hbefore,
    utxosByAddress_iff (collisionFree_knownLibrary _) hafter⟩

end Truthcoin.AddressIndex
