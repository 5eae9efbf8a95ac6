import Truthcoin.BundlePayouts
import Truthcoin.SettlementValue
import Truthcoin.TreasuryOutputs
import Truthcoin.WrittenRecords

/-!
# What leaves the treasuries alone

Transactions that spend no treasury, the coinbase, the settlement of other markets and the peg
leave the treasury of a market as it is. The transaction that creates a market gives it its
first treasury.
-/

namespace Truthcoin

namespace Coins

variable {c : Coins} {rows : List CoinRow}

theorem insertRows_utxos_of_mem (hnodup : (rows.map Prod.fst).Nodup) {row : CoinRow}
    (h : row ∈ rows) : (insertRows c rows).utxos[row.1]? = some row.2 := by
  induction rows generalizing c with
  | nil => cases h
  | cons first rows ih =>
      rw [List.map_cons, List.nodup_cons] at hnodup
      rw [insertRows_cons]
      rcases List.mem_cons.mp h with rfl | h
      · rw [insertRows_utxos_of_not_mem hnodup.1, insertUtxo_utxos, if_pos rfl]
      · exact ih hnodup.2 h

end Coins

namespace TreasuryFrames

open Truthcoin.Types Truthcoin.Table Truthcoin.Fallible Truthcoin.Arithmetic
open Truthcoin.Markets Truthcoin.Blocks Truthcoin.Trading Truthcoin.Validation
open Truthcoin.Settlement Truthcoin.Apply Truthcoin.Consolidation Truthcoin.Connect
open Truthcoin.Commitments Truthcoin.TransactionValue Truthcoin.TagConnect
open Truthcoin.TwoWayPeg Truthcoin.PegSteps Truthcoin.WithdrawalBundle
open Truthcoin.MarketSteps Truthcoin.SettlementSteps Truthcoin.MarketRecords
open Truthcoin.TreasuryOutputs

variable {F : Type} {L : Library F} {T : Tags} {marketId : MarketId} {amount : Nat}

def createdRows (L : Library F) (tx : Transaction F) : List CoinRow :=
  tx.outputs.zipIdx.map fun entry =>
    (.regular (L.txid tx) entry.2, filledOutput entry.1)

theorem nodup_createdRows (tx : Transaction F) :
    ((createdRows L tx).map Prod.fst).Nodup := by
  have hkeys : (createdRows L tx).map Prod.fst =
      (tx.outputs.zipIdx.map Prod.snd).map fun vout => OutPoint.regular (L.txid tx) vout := by
    rw [createdRows, List.map_map, List.map_map]
    rfl
  rw [hkeys, List.zipIdx_map_snd]
  refine List.Nodup.map (fun a b h => ?_) List.nodup_range'
  exact (OutPoint.regular.inj h).2

theorem applyUtxoChanges_eq_ok {c c' : Coins} {tx : FilledTransaction F}
    (h : applyUtxoChanges L c tx = .ok c') :
    ∃ spent, spent.utxos = (deleteOutpoints c tx.transaction.inputs).utxos ∧
      c' = insertRows spent (createdRows L tx.transaction) := by
  simp only [applyUtxoChanges, FilledTransaction.filledOutputs, bind_eq_ok_iff, okOr_eq_ok_iff,
    Except.ok.injEq] at h
  obtain ⟨spent, hspent, _, ⟨left, -, rfl⟩, outputs, hfilled, rfl⟩ := h
  refine ⟨spent, ?_, ?_⟩
  · have hutxos := utxos_of_spendInputs hspent
    rwa [List.zipIdx_map_fst] at hutxos
  · rw [fillOutputs_eq] at hfilled
    obtain ⟨-, heq⟩ := Option.ite_none_right_eq_some.mp hfilled
    rw [createOutputs_eq, ← Option.some.inj heq, List.zipIdx_map, List.map_map]
    rfl

theorem utxos_created {c c' : Coins} {tx : FilledTransaction F}
    (h : applyUtxoChanges L c tx = .ok c') {vout : Nat} {output : Output}
    (houtput : tx.transaction.outputs[vout]? = some output) :
    c'.utxos[OutPoint.regular (L.txid tx.transaction) vout]? = some (filledOutput output) := by
  obtain ⟨spent, -, rfl⟩ := applyUtxoChanges_eq_ok h
  have hmem : (OutPoint.regular (L.txid tx.transaction) vout, filledOutput output) ∈
      createdRows L tx.transaction :=
    List.mem_map.mpr ⟨(output, vout), List.mem_zipIdx_iff_getElem?.mpr houtput, rfl⟩
  exact Coins.insertRows_utxos_of_mem (nodup_createdRows _) hmem

theorem utxos_kept {c c' : Coins} {tx : FilledTransaction F}
    (h : applyUtxoChanges L c tx = .ok c') {o : OutPoint} (hspent : o ∉ tx.transaction.inputs)
    (hcreated : ∀ vout output, tx.transaction.outputs[vout]? = some output →
      o ≠ .regular (L.txid tx.transaction) vout) : c'.utxos[o]? = c.utxos[o]? := by
  obtain ⟨spent, hutxos, rfl⟩ := applyUtxoChanges_eq_ok h
  rw [Coins.insertRows_utxos_of_not_mem, hutxos, Coins.deleteOutpoints_utxos, if_neg hspent]
  intro hmem
  simp only [createdRows, List.map_map, List.mem_map, Function.comp_apply] at hmem
  obtain ⟨entry, hentry, rfl⟩ := hmem
  exact hcreated _ _ (List.mem_zipIdx_iff_getElem?.mp hentry) rfl

theorem getBitcoinValue_of_treasuryAmount {output : Output} {amount : Nat}
    (h : treasuryAmount marketId output = some amount) : output.getBitcoinValue = amount := by
  obtain ⟨address, content, memo⟩ := output
  unfold treasuryAmount at h
  split at h
  · rename_i heq
    split at h
    · obtain rfl := Option.some.inj h
      obtain rfl : content = _ := heq
      rfl
    · cases h
  · cases h

theorem treasuryAmount_of_written {scriptPubkey : MainAddress → List UInt8}
    {output output' : Output}
    (h : writtenOutput scriptPubkey output = writtenOutput scriptPubkey output') :
    treasuryAmount marketId output = treasuryAmount marketId output' := by
  obtain ⟨address, content, memo⟩ := output
  obtain ⟨address', content', memo'⟩ := output'
  have hcontent := (WrittenOutput.mk.inj h).2.1
  cases content <;> cases content' <;> simp_all [writtenContent, treasuryAmount]

/-- A transaction that does not spend a treasury keeps it: if it creates the output again, it is
the transaction that created it before. -/
theorem holds_applyUtxoChanges (hL : CollisionFree L) {c c' : Coins}
    {pointers : Table FundsKey OutPoint} {tx : FilledTransaction F}
    (h : applyUtxoChanges L c tx = .ok c')
    (hinputs : ∀ o, pointers[(⟨marketId, false⟩ : FundsKey)]? = some o →
      o ∉ tx.transaction.inputs)
    (hholds : Holds L ⟨c, pointers⟩ marketId amount) : Holds L ⟨c', pointers⟩ marketId amount := by
  cases hholds with
  | nothing hpointer => exact .nothing hpointer
  | @output o filled hpointer hunspent horigin =>
      have hspent : o ∉ tx.transaction.inputs := hinputs o hpointer
      by_cases hcreated : ∃ vout output, tx.transaction.outputs[vout]? = some output ∧
          o = .regular (L.txid tx.transaction) vout
      · obtain ⟨vout, output, houtput, rfl⟩ := hcreated
        have hagain := utxos_created h houtput
        generalize hvalue : filled.getBitcoinValue = value at horigin ⊢
        generalize hpoint : OutPoint.regular (L.txid tx.transaction) vout = o
          at horigin hagain hpointer
        cases horigin with
        | consolidated height _ => cases hpoint
        | @created tx' vout' _ output' houtput' hamount =>
            obtain ⟨htxid, rfl⟩ := OutPoint.regular.inj hpoint
            have hwritten :=
              written_of_getElem? (outputs_of_written (hL.txid htxid)) houtput houtput'
            rw [← treasuryAmount_of_written hwritten] at hamount
            obtain rfl := (value_filledOutput _).trans (getBitcoinValue_of_treasuryAmount hamount)
            have horigin := Origin.created (L := L) houtput hamount
            rw [htxid] at horigin
            exact .output hpointer hagain horigin
      · refine .output hpointer ((utxos_kept h hspent ?_).trans hunspent) horigin
        intro vout output houtput heq
        exact hcreated ⟨vout, output, houtput, heq⟩

theorem holds_applyAll (hL : CollisionFree L) {c c' : Coins}
    {pointers : Table FundsKey OutPoint} {txs : List (FilledTransaction F)}
    (h : txs.foldlM (applyUtxoChanges L) c = .ok c')
    (hinputs : ∀ o, pointers[(⟨marketId, false⟩ : FundsKey)]? = some o →
      ∀ tx ∈ txs, o ∉ tx.transaction.inputs)
    (hholds : Holds L ⟨c, pointers⟩ marketId amount) : Holds L ⟨c', pointers⟩ marketId amount :=
  foldlM_preserves (P := fun c => Holds L ⟨c, pointers⟩ marketId amount)
    (fun tx htx _ _ hc hstep =>
      holds_applyUtxoChanges hL hstep (fun o ho => hinputs o ho tx htx) hc) h hholds

theorem holds_created (hL : CollisionFree L) {c c' : Coins}
    {pointers : Table FundsKey OutPoint} {txs : List (FilledTransaction F)}
    (h : txs.foldlM (applyUtxoChanges L) c = .ok c')
    (hinputs : ∀ o, pointers[(⟨marketId, false⟩ : FundsKey)]? = some o →
      ∀ tx ∈ txs, o ∉ tx.transaction.inputs)
    {tx : FilledTransaction F} (htx : tx ∈ txs) {vout : Nat} {output : Output}
    (houtput : tx.transaction.outputs[vout]? = some output)
    (hamount : treasuryAmount marketId output = some amount)
    (hpointer : pointers[(⟨marketId, false⟩ : FundsKey)]? =
      some (.regular (L.txid tx.transaction) vout)) : Holds L ⟨c', pointers⟩ marketId amount := by
  obtain ⟨before, after, rfl⟩ := List.append_of_mem htx
  rw [List.foldlM_append] at h
  obtain ⟨c₁, -, h⟩ := bind_eq_ok_iff.mp h
  obtain ⟨c₂, hstep, hrest⟩ := bind_eq_ok_iff.mp h
  refine holds_applyAll hL hrest (fun o ho tx' htx' => hinputs o ho tx' (by simp [htx'])) ?_
  have hunspent := utxos_created hstep houtput
  obtain rfl := (value_filledOutput _).trans (getBitcoinValue_of_treasuryAmount hamount)
  exact .output hpointer hunspent (.created houtput hamount)

theorem coinbaseRows_funds (hT : TagsOf L T) {block : Block F}
    (hroot : L.merkleRoot block.body.coinbase block.body.transactions = block.header.merkleRoot)
    (hvalid : validateCoinbaseOutputs block.body.coinbase.outputs = .ok ()) :
    ∀ row ∈ coinbaseRows (L.coinbaseTxid block.header) block.body.coinbase.outputs,
      (T row.1).funds = none := by
  intro row hrow
  obtain ⟨entry, hentry, rfl⟩ := List.mem_map.mp hrow
  have houtput := List.mem_zipIdx_iff_getElem?.mp hentry
  rw [hT.coinbase block.header block.body entry.2 entry.1 hroot houtput]
  have hcontent := forM_eq_ok_iff.mp hvalid entry.1 (List.mem_of_getElem? houtput)
  obtain ⟨⟨address, content, memo⟩, vout⟩ := entry
  cases content with
  | bitcoin value | withdrawal w => rfl
  | marketFunds marketId amount isFee => cases hcontent

/-- The bundles that are known spend withdrawals. -/
def SpendsWithdrawals (T : Tags) (s : PegState) : Prop :=
  ∀ (m : M6id) (b : WithdrawalBundle) (st : Status),
    s.dbs.withdrawalBundles[m]? = some (.known b, st) →
      ∀ row ∈ b.spendUtxos.toList, (T row.1).funds = none

theorem utxos_spendBundleUtxos {missing : OutPoint → Error} {m : M6id} {rows : List CoinRow}
    {c c' : Coins} {o : OutPoint} (ho : o ∉ rows.map Prod.fst)
    (h : spendBundleUtxos missing m rows c = .ok c') : c'.utxos[o]? = c.utxos[o]? := by
  refine foldlM_preserves (P := fun c' : Coins => c'.utxos[o]? = c.utxos[o]?) ?_ h rfl
  intro row hrow c₁ c₂ hc₁ hstep
  have hne : o ≠ row.1 := fun heq => ho (List.mem_map.mpr ⟨row, hrow, heq.symm⟩)
  split at hstep
  · cases hstep
  · rename_i c₃ hdelete
    obtain rfl := Except.ok.inj hstep
    have hutxos : c₃.utxos[o]? = c₁.utxos[o]? := by
      have hdeleted := congrArg (fun p : Coins × Bool => p.1.utxos[o]?) hdelete
      dsimp only at hdeleted
      rw [← hdeleted, Coins.deleteUtxo_utxos, if_neg (Ne.symm hne)]
    rw [Coins.putStxo_utxos, hutxos, hc₁]

theorem utxos_reinstateUtxos {rows : List CoinRow} {c : Coins} {o : OutPoint}
    (ho : o ∉ rows.map Prod.fst) : (reinstateUtxos rows c).utxos[o]? = c.utxos[o]? := by
  induction rows generalizing c with
  | nil => rfl
  | cons row rows ih =>
      rw [List.map_cons, List.mem_cons, not_or] at ho
      refine (ih ho.2).trans ?_
      rw [Coins.insertUtxo_utxos, if_neg (Ne.symm ho.1), Coins.deleteStxo_utxos]

/-- A step of the peg that spends withdrawals only. A bundle that nobody knew of is confirmed by
spending everything, which happens at the genesis block alone. -/
structure PegKeeps (T : Tags) (h : Nat) (s s' : PegState) : Prop where
  spends : SpendsWithdrawals T s'
  coins : h ≠ 0 → ∀ o, (T o).funds ≠ none → (∀ txid vout, o ≠ .deposit txid vout) →
    s'.coins.utxos[o]? = s.coins.utxos[o]?

theorem SpendsWithdrawals.putBundle {s : PegState} (hs : SpendsWithdrawals T s) {m : M6id}
    {info : WithdrawalBundleInfo} {st : Status}
    (hinfo : ∀ b, info = .known b → ∀ row ∈ b.spendUtxos.toList, (T row.1).funds = none) :
    SpendsWithdrawals T (s.putBundle m (info, st)) := by
  intro m' b st' h
  have hlookup : (s.putBundle m (info, st)).dbs.withdrawalBundles[m']? =
      if m' = m then some (info, st) else s.dbs.withdrawalBundles[m']? := lookup_insert
  rw [hlookup] at h
  split at h
  · exact hinfo b (Prod.mk.inj (Option.some.inj h)).1
  · exact hs m' b st' h

theorem not_mem_of_funds {rows : List CoinRow} (hrows : ∀ row ∈ rows, (T row.1).funds = none)
    {o : OutPoint} (ho : (T o).funds ≠ none) : o ∉ rows.map Prod.fst := by
  intro hmem
  obtain ⟨row, hrow, rfl⟩ := List.mem_map.mp hmem
  exact ho (hrows row hrow)

/-- An event of the peg leaves the outputs that hold funds alone. -/
theorem pegKeeps_of_event {h : Nat} {s s' : PegState} {event : BlockEvent}
    (hs : SpendsWithdrawals T s) (hcase : EventCase h s event s') : PegKeeps T h s s' := by
  cases hcase with
  | deposit d =>
      refine ⟨hs, fun _ o _ hdeposit => ?_⟩
      rw [Coins.insertUtxo_utxos, if_neg (Ne.symm (hdeposit d.txid d.vout) : d.outpoint ≠ o)]
  | submitted hcase =>
      cases hcase with
      | pending hpending hentry hlatest hspend hpush =>
          have hrows := hs _ _ _ hentry
          refine ⟨?_, fun _ o ho _ => utxos_spendBundleUtxos (not_mem_of_funds hrows ho) hspend⟩
          refine SpendsWithdrawals.putBundle (s := { s with coins := _ }) hs fun b heq => ?_
          obtain rfl := WithdrawalBundleInfo.known.inj heq
          exact hrows
      | resubmitted hpending hentry hlatest hinfo hpush =>
          refine ⟨hs.putBundle fun b heq => ?_, fun _ _ _ _ => rfl⟩
          subst heq
          exact hs _ _ _ hentry
      | unknown hpending hentry =>
          exact ⟨hs.putBundle fun b heq => (by cases heq), fun _ _ _ _ => rfl⟩
  | confirmed hcase =>
      cases hcase with
      | again => exact ⟨hs, fun _ _ _ _ => rfl⟩
      | submitted hentry hlatest hpush =>
          refine ⟨hs.putBundle fun b heq => ?_, fun _ _ _ _ => rfl⟩
          obtain rfl := WithdrawalBundleInfo.known.inj heq
          exact hs _ _ _ hentry
      | unexpected hentry hlatest hspend hpush =>
          have hrows := hs _ _ _ hentry
          refine ⟨?_, fun _ o ho _ => utxos_spendBundleUtxos (not_mem_of_funds hrows ho) hspend⟩
          refine SpendsWithdrawals.putBundle (s := { s with coins := _ }) hs fun b heq => ?_
          obtain rfl := WithdrawalBundleInfo.known.inj heq
          exact hrows
      | unknown hheight hentry hlatest hpush =>
          refine ⟨?_, fun hh => absurd hheight hh⟩
          exact SpendsWithdrawals.putBundle (s := { s with coins := _ }) hs
            fun b heq => (by cases heq)
  | failed hcase =>
      cases hcase with
      | again => exact ⟨hs, fun _ _ _ _ => rfl⟩
      | submitted hentry hlatest hfailed hpush =>
          have hrows := hs _ _ _ hentry
          refine ⟨?_, fun _ o ho _ => utxos_reinstateUtxos (not_mem_of_funds hrows ho)⟩
          refine SpendsWithdrawals.putBundle (s := { s with coins := _, dbs := _ }) ?_
            fun b heq => ?_
          · exact fun m' b st => hs m' b st
          · obtain rfl := WithdrawalBundleInfo.known.inj heq
            exact hrows
      | unspent hentry hlatest hunspent hpush =>
          refine ⟨hs.putBundle fun b heq => ?_, fun _ _ _ _ => rfl⟩
          subst heq
          exact hs _ _ _ hentry

theorem PegKeeps.trans {height : Nat} {s s' s'' : PegState} (h : PegKeeps T height s s')
    (h' : PegKeeps T height s' s'') : PegKeeps T height s s'' :=
  ⟨h'.spends, fun hh o ho hd => (h'.coins hh o ho hd).trans (h.coins hh o ho hd)⟩

theorem tagged_of_event {h : Nat} {s s' : PegState} {event : BlockEvent} (hs : s.Tagged T)
    (hdeposit : ∀ d, event = .deposit d → RowTagged T (d.outpoint, d.output))
    (hcase : EventCase h s event s') : s'.Tagged T := by
  cases hcase with
  | deposit d => exact hs.withCoins (hs.coins.insertUtxo (hdeposit d rfl))
  | submitted hcase => exact tagged_submitted hs hcase
  | confirmed hcase => exact tagged_confirmed hs hcase
  | failed hcase => exact tagged_failed hs hcase

theorem spends_of_collected {B : BundleLib} {c : Coins} {h : Nat} {b : WithdrawalBundle}
    (hc : c.Tagged T) (hb : collectWithdrawalBundle B c h = .ok (some b)) :
    ∀ row ∈ b.spendUtxos.toList, (T row.1).funds = none := by
  intro row hrow
  obtain ⟨acc, sorted, sel, hfold, hsorted, hsel, hspend, hfee, houtputs⟩ :=
    collectWithdrawalBundle_eq_some hb
  obtain ⟨chosen, hsub, hselects⟩ := selects_of_selectWithdrawals fits_empty hsel
  have hpays := pays_of_selects hfold hsorted hsub hselects hspend hfee houtputs
  obtain ⟨hunspent, k, -, hpayee⟩ := (hpays.spent row.1 row.2).mp (mem_toList_iff.mp hrow)
  obtain ⟨w, hw, -⟩ := Option.map_eq_some_iff.mp hpayee
  have hcontent : row.2.content = .bitcoinWithdrawal w := withdrawalOf_eq_some_iff.mp hw
  rw [← hc.utxos hunspent]
  simp only [FilledOutput.tag, hcontent, FilledContent.fundsKey]

/-- The peg data of a block leave the outputs that hold funds alone. -/
theorem pegKeeps_connect {B : BundleLib} {height : Option Nat} {s s' : PegState}
    {data : TwoWayPegData} (htagged : s.Tagged T) (hdeposits : DepositsTagged T data)
    (hs : SpendsWithdrawals T s) (hconnect : connect B height s data = .ok s') :
    ∃ h, height = some h ∧ PegKeeps T h s s' := by
  simp only [connect, connectEvents, bind_eq_ok_iff, okOr_eq_ok_iff] at hconnect
  obtain ⟨h, hheight, acc, hevents, hcreate⟩ := hconnect
  refine ⟨h, hheight, ?_⟩
  have hacc : acc.state.Tagged T ∧ PegKeeps T h s acc.state := by
    refine foldlM_preserves
      (P := fun acc : ConnectAcc => acc.state.Tagged T ∧ PegKeeps T h s acc.state) ?_ hevents
      ⟨htagged, hs, fun _ _ _ _ => rfl⟩
    rintro ⟨hash, event⟩ hmem a a' ⟨ha, hkept⟩ hstep
    have hcase := connectEvent_cases hstep
    have hkeeps := pegKeeps_of_event hkept.spends hcase
    refine ⟨tagged_of_event ha (fun d hd => ?_) hcase, hkept.trans hkeeps⟩
    subst hd
    simp only [events, List.mem_flatMap, List.mem_map] at hmem
    obtain ⟨info, hinfo, _, hd, heq⟩ := hmem
    obtain ⟨rfl, rfl⟩ := Prod.mk.inj heq
    exact hdeposits info hinfo d hd
  obtain ⟨htagged', hkept⟩ := hacc
  have hcase := createPendingBundle_cases hcreate
  generalize hstate : recordEvents acc h = recorded at hcase
  have hcoins : recorded.coins = acc.state.coins := by rw [← hstate]; rfl
  have hspends : SpendsWithdrawals T recorded := by rw [← hstate]; exact hkept.spends
  cases hcase with
  | nothing => exact ⟨hspends, fun hh o ho hd => (congrArg (fun c => c.utxos[o]?) hcoins).trans
      (hkept.coins hh o ho hd)⟩
  | created hgap hpending hcollect hstatus =>
      refine ⟨?_, fun hh o ho hd => (congrArg (fun c => c.utxos[o]?) hcoins).trans
        (hkept.coins hh o ho hd)⟩
      refine SpendsWithdrawals.putBundle (s := recorded.setPending _) hspends fun b heq => ?_
      obtain rfl := WithdrawalBundleInfo.known.inj heq
      rw [hcoins] at hcollect
      exact spends_of_collected htagged'.coins hcollect

theorem payoutRows_funds (hT : TagsOf L T) (summary : MarketPayoutSummary F) (height : Nat) :
    ∀ row ∈ payoutRows L summary height, (T row.1).funds = none := by
  intro row hrow
  simp only [payoutRows, sharePayoutRows, List.mem_append, List.mem_map] at hrow
  rcases hrow with (⟨_, -, rfl⟩ | ⟨_, -, rfl⟩) | ⟨_, -, rfl⟩ <;>
    simp only [sharePayoutRow, feePayoutRow, refundRow, hT.sharePayout]

variable [F64 F]

/-- A settlement closes its market, and leaves the others and their treasuries alone. -/
theorem settleMarket_others (hT : TagsOf L T) {s s' : State F} {market : Market F} {height : Nat}
    {entry : SettlementUndoEntry F} (hpointers : PointersTagged T s.markets.marketFundsUtxos)
    (h : settleMarket L s market height = .ok (s', entry)) :
    (∃ settled, settled.marketState = .settled ∧
      ∀ m, s'.markets.getMarket m =
        if m = market.id then some settled else s.markets.getMarket m) ∧
      ∀ key : FundsKey, key.marketId ≠ market.id → Keeps T key (fundsOf s) (fundsOf s') := by
  obtain ⟨priced, settled, db, hpriced, hsummary, hdb, hsettled, hmarkets, -, hs'⟩ :=
    settleMarket_eq_ok h
  simp only [Market.updateState, bind_eq_ok_iff, Except.ok.injEq] at hpriced hsettled
  obtain ⟨_, -, _, -, rfl⟩ := hpriced
  obtain ⟨_, -, _, -, hsettled⟩ := hsettled
  have hid : settled.id = market.id := by rw [← hsettled]
  have hstate : settled.marketState = .settled := by rw [← hsettled]; rfl
  obtain ⟨hsummaryId, -⟩ :=
    SettlementValue.calculateSharePayouts_le (L := L) hsummary
  obtain ⟨-, hwrite⟩ := updateMarket_eq_ok_iff.mp hmarkets
  have hframe := redeem_framed hdb
  refine ⟨⟨settled, hstate, fun m => ?_⟩, fun key hne => ?_⟩
  · rw [hwrite, MarketsDatabase.getMarket, writeMarketAndIndexes_markets, lookup_insert, hid,
      hframe]
    rfl
  · have hother (isFee : Bool) : key ≠ ⟨market.id, isFee⟩ := fun heq => hne (by rw [heq])
    let paid : Funds :=
      { fundsOf s with coins := insertRows s.coins (payoutRows L entry.payoutSummary height) }
    let spent : Funds := { paid with
      coins := deleteOutpoints paid.coins (fundsOutpoints s.markets market.id) }
    have hpaid : Keeps T key (fundsOf s) paid := keeps_insertRows fun row hrow => by
      rw [payoutRows_funds hT entry.payoutSummary height row hrow]
      exact (Option.some_ne_none key).symm
    have hspent : Keeps T key paid spent := keeps_deleteOutpoints fun o ho htag => by
      rw [fundsOutpoints, List.mem_append, Option.mem_toList, Option.mem_toList] at ho
      rcases ho with ho | ho
      · exact hother false (Option.some.inj (htag.symm.trans (hpointers _ _ ho)))
      · exact hother true (Option.some.inj (htag.symm.trans (hpointers _ _ ho)))
    have hcleared : Keeps T key spent
        ((spent.clearPointer ⟨market.id, false⟩).clearPointer ⟨market.id, true⟩) :=
      (keeps_clearPointer (hother false)).trans (keeps_clearPointer (hother true))
    have hfunds : fundsOf s' =
        (spent.clearPointer ⟨market.id, false⟩).clearPointer ⟨market.id, true⟩ := by
      have hcoins := congrArg State.coins hs'
      rw [fundsOf, hcoins, hwrite, writeMarketAndIndexes_funds, hsummaryId, hframe]
      rfl
    rw [hfunds]
    exact (hpaid.trans hspent).trans hcleared

theorem settlements_others (hT : TagsOf L T) {s s' : State F} {height : Nat}
    {entries : List (SettlementUndoEntry F)} (hcoins : s.coins.Tagged T)
    (hpointers : PointersTagged T s.markets.marketFundsUtxos)
    (h : transitionAndPayoutResolvedMarkets L s height = .ok (s', entries)) {market : Market F}
    (hmarket : s'.markets.getMarket marketId = some market)
    (htrading : market.marketState = .trading) :
    s.markets.getMarket marketId = some market ∧
      Keeps T ⟨marketId, false⟩ (fundsOf s) (fundsOf s') := by
  have hall := foldlM_preserves
    (P := fun acc : State F × List (SettlementUndoEntry F) =>
      acc.1.coins.Tagged T ∧ PointersTagged T acc.1.markets.marketFundsUtxos ∧
        ∀ m market, acc.1.markets.getMarket m = some market → market.marketState = .trading →
          s.markets.getMarket m = some market ∧ Keeps T ⟨m, false⟩ (fundsOf s) (fundsOf acc.1))
    ?_ h ⟨hcoins, hpointers, fun m market hm _ => ⟨hm, Keeps.refl _ _⟩⟩
  · exact hall.2.2 marketId market hmarket htrading
  rintro record - ⟨s₁, es⟩ acc' ⟨hc, hp, hkept⟩ hstep
  unfold transitionMarket at hstep
  split at hstep
  · obtain ⟨⟨s₂, entry⟩, hsettle, hstep⟩ := bind_eq_ok_iff.mp hstep
    rw [← Except.ok.inj hstep]
    obtain ⟨hc₂, hp₂, -⟩ := settleMarket_tagged hT hc hp hsettle
    obtain ⟨⟨settled, hsettled, hlookup⟩, hkeeps⟩ := settleMarket_others hT hp hsettle
    refine ⟨hc₂, hp₂, fun m market hm hmtrading => ?_⟩
    rw [hlookup] at hm
    split at hm
    · obtain rfl := Option.some.inj hm
      rw [hsettled] at hmtrading
      cases hmtrading
    · rename_i hne
      obtain ⟨hbefore, hkeptBefore⟩ := hkept m market hm hmtrading
      exact ⟨hbefore, hkeptBefore.trans (hkeeps ⟨m, false⟩ hne)⟩
  · rw [← Except.ok.inj hstep]
    exact ⟨hc, hp, hkept⟩

end TreasuryFrames

end Truthcoin
