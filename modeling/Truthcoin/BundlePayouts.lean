import Truthcoin.FallibleErrors
import Truthcoin.FundsValue

/-!
# What a withdrawal bundle pays

The withdrawals of the UTXO set are added up by mainchain address, sorted, and taken in
order while their predicted weight allows it. The prediction covers the real weight, every
address is paid for all its withdrawals or for none, and the sorted addresses do not depend
on the order in which the aggregation hands them out.
-/

namespace Truthcoin.WithdrawalBundle

open Truthcoin.Types Truthcoin.Table Truthcoin.Fallible

/-- The withdrawal that an output holds. -/
def withdrawalOf (o : FilledOutput) : Option WithdrawalContent :=
  match o.content with
  | .bitcoinWithdrawal w => some w
  | _ => none

/-- The mainchain address that an output withdraws to. -/
def payee (row : OutPoint × FilledOutput) : Option MainAddress :=
  (withdrawalOf row.2).map WithdrawalContent.mainAddress

def payout (row : OutPoint × FilledOutput) : Nat :=
  (withdrawalOf row.2).elim 0 WithdrawalContent.value

def mainFee (row : OutPoint × FilledOutput) : Nat :=
  (withdrawalOf row.2).elim 0 WithdrawalContent.mainFee

/-- The rows of the UTXO set that withdraw to an address. -/
def rowsTo (k : MainAddress) (rows : List (OutPoint × FilledOutput)) :
    List (OutPoint × FilledOutput) :=
  rows.filter fun row => payee row = some k

/-- The aggregate of the withdrawals to an address. -/
def aggregated (k : MainAddress) (own : List (OutPoint × FilledOutput)) : AggregatedWithdrawal :=
  ⟨(∅ : Table OutPoint FilledOutput).insertMany own, k, (own.map payout).sum,
    (own.map mainFee).sum⟩

section

variable {row : OutPoint × FilledOutput} {rows own : List (OutPoint × FilledOutput)}
  {acc acc' : Table MainAddress AggregatedWithdrawal} {k : MainAddress}

theorem withdrawalOf_eq_some_iff {o : FilledOutput} {w : WithdrawalContent} :
    withdrawalOf o = some w ↔ o.content = .bitcoinWithdrawal w := by
  unfold withdrawalOf
  split
  · rename_i w' heq
    rw [heq, Option.some.injEq, FilledContent.bitcoinWithdrawal.injEq]
  · rename_i hother
    constructor
    · exact nofun
    · exact fun heq => absurd heq (hother w)

theorem aggregated_append (w : WithdrawalContent) (hw : withdrawalOf row.2 = some w) :
    aggregated k (own ++ [row]) =
      { aggregated k own with
        value := (aggregated k own).value + w.value
        mainFee := (aggregated k own).mainFee + w.mainFee
        spendUtxos := (aggregated k own).spendUtxos.insert row.1 row.2 } := by
  obtain ⟨o, output⟩ := row
  have hpayout : payout (o, output) = w.value := by rw [payout, hw, Option.elim_some]
  have hfee : mainFee (o, output) = w.mainFee := by rw [mainFee, hw, Option.elim_some]
  simp only [aggregated, List.map_append, List.map_cons, List.map_nil, List.sum_append,
    List.sum_singleton, hpayout, hfee, Std.ExtTreeMap.insertMany_append,
    Std.ExtTreeMap.insertMany_list_singleton]

theorem rowsTo_append_of_eq (h : payee row = some k) :
    rowsTo k (rows ++ [row]) = rowsTo k rows ++ [row] := by
  rw [rowsTo, List.filter_append, ← rowsTo, List.filter_singleton]
  simp [h]

theorem rowsTo_append_of_ne (h : payee row ≠ some k) :
    rowsTo k (rows ++ [row]) = rowsTo k rows := by
  rw [rowsTo, List.filter_append, ← rowsTo, List.filter_singleton]
  simp [h]

theorem aggregate_eq_ok (h : aggregate acc row = .ok acc') :
    (payee row = none ∧ acc' = acc) ∨
      ∃ w, withdrawalOf row.2 = some w ∧
        acc' = acc.insert w.mainAddress
          { (acc[w.mainAddress]?).getD ⟨∅, w.mainAddress, 0, 0⟩ with
            value := ((acc[w.mainAddress]?).getD ⟨∅, w.mainAddress, 0, 0⟩).value + w.value
            mainFee :=
              ((acc[w.mainAddress]?).getD ⟨∅, w.mainAddress, 0, 0⟩).mainFee + w.mainFee
            spendUtxos := ((acc[w.mainAddress]?).getD
              ⟨∅, w.mainAddress, 0, 0⟩).spendUtxos.insert row.1 row.2 } := by
  unfold aggregate at h
  split at h
  · rename_i w hcontent
    simp only [bind_eq_ok_iff, okOr_eq_ok_iff, Except.ok.injEq] at h
    obtain ⟨value, hvalue, fee, hfee, rfl⟩ := h
    obtain ⟨-, rfl⟩ := Arithmetic.checkedAdd_eq_some_iff.mp hvalue
    obtain ⟨-, rfl⟩ := Arithmetic.checkedAdd_eq_some_iff.mp hfee
    exact .inr ⟨w, withdrawalOf_eq_some_iff.mpr hcontent, rfl⟩
  · rename_i hother
    refine .inl ⟨?_, (Except.ok.inj h).symm⟩
    rw [payee, Option.map_eq_none_iff, Option.eq_none_iff_forall_ne_some]
    intro w hw
    exact hother w (withdrawalOf_eq_some_iff.mp hw)

theorem lookup_of_aggregate (h : rows.foldlM aggregate ∅ = .ok acc) (k : MainAddress) :
    acc[k]? = if rowsTo k rows = [] then none else some (aggregated k (rowsTo k rows)) := by
  induction rows using List.reverseRecOn generalizing acc k with
  | nil =>
      rw [← Except.ok.inj h]
      simp [rowsTo]
  | append_singleton rows row ih =>
      rw [List.foldlM_append, bind_eq_ok_iff] at h
      obtain ⟨before, hbefore, h⟩ := h
      rw [List.foldlM_cons, bind_eq_ok_iff] at h
      obtain ⟨after, hstep, hlast⟩ := h
      obtain rfl := Except.ok.inj hlast
      rcases aggregate_eq_ok hstep with ⟨hnone, rfl⟩ | ⟨w, hw, rfl⟩
      · rw [rowsTo_append_of_ne (by simp [hnone])]
        exact ih hbefore k
      · have hpayee : payee row = some w.mainAddress := by rw [payee, hw, Option.map_some]
        have hold : (before[w.mainAddress]?).getD ⟨∅, w.mainAddress, 0, 0⟩ =
            aggregated w.mainAddress (rowsTo w.mainAddress rows) := by
          rw [ih hbefore w.mainAddress]
          split
          · rename_i hnil
            rw [hnil]
            rfl
          · rfl
        rw [hold, lookup_insert]
        by_cases hk : k = w.mainAddress
        · obtain rfl := hk
          rw [if_pos rfl, rowsTo_append_of_eq hpayee, if_neg (by simp), aggregated_append w hw]
        · rw [if_neg hk, rowsTo_append_of_ne (by simpa [hpayee] using Ne.symm hk)]
          exact ih hbefore k

theorem mem_aggregates (h : rows.foldlM aggregate ∅ = .ok acc) {a : AggregatedWithdrawal}
    (ha : a ∈ acc.toList.map Prod.snd) :
    a = aggregated a.mainAddress (rowsTo a.mainAddress rows) := by
  obtain ⟨⟨k, a⟩, hrow, rfl⟩ := List.mem_map.mp ha
  have hlookup := mem_toList_iff.mp hrow
  rw [lookup_of_aggregate h k] at hlookup
  split at hlookup
  · cases hlookup
  · obtain rfl := Option.some.inj hlookup
    rfl

theorem nodup_addresses (h : rows.foldlM aggregate ∅ = .ok acc) :
    ((acc.toList.map Prod.snd).map AggregatedWithdrawal.mainAddress).Nodup := by
  have hkeys : (acc.toList.map Prod.snd).map AggregatedWithdrawal.mainAddress =
      acc.toList.map Prod.fst := by
    rw [List.map_map]
    refine List.map_congr_left ?_
    rintro ⟨k, a⟩ hrow
    have hlookup := mem_toList_iff.mp hrow
    rw [lookup_of_aggregate h k] at hlookup
    split at hlookup
    · cases hlookup
    · obtain rfl := Option.some.inj hlookup
      rfl
  rw [hkeys]
  exact toList_keys_nodup acc

end

/-- Size of a payout in the serialized transaction. -/
def payoutSize (o : TxOut) : Nat :=
  8 + varIntSize o.scriptPubkey.length + o.scriptPubkey.length

/-- Predicted weight of a number of payouts with the given sizes. -/
def predicted (nOutputs sumTxoutSizes : Nat) : Nat :=
  (4 + (1 + 41) + (varIntSize (nOutputs + 2) + (62 + sumTxoutSizes)) + 4) * 4

/-- The weight of a transaction counts its serialization without a witness four times, and
one without inputs carries the two bytes that mark a witness. -/
def SerializedWeight (L : BundleLib) : Prop :=
  ∀ tx : BundleTx, L.txWeight tx =
    (4 + 1 + (varIntSize (tx.outputs.length + 2) + (62 + (tx.outputs.map payoutSize).sum)) + 4)
      * 4 + 2

theorem checkedAddU32_eq_some_iff {a b c : Nat} :
    checkedAddU32 a b = some c ↔ a + b ≤ u32Max ∧ c = a + b := by
  unfold checkedAddU32
  split <;> simp_all [eq_comm]

theorem predicted_of_predictWeight {nOutputs sumTxoutSizes : Nat}
    (h : (predictWeight nOutputs sumTxoutSizes).isNone ≠ true) :
    predicted nOutputs sumTxoutSizes ≤ maxStandardTxWeight := by
  obtain ⟨weight, hweight⟩ := Option.ne_none_iff_exists'.mp (by simpa using h)
  simp only [predictWeight, txBaseSize, Option.bind_eq_bind, Option.bind_eq_some_iff,
    checkedAddU32_eq_some_iff] at hweight
  obtain ⟨_, ⟨-, rfl⟩, _, ⟨-, rfl⟩, size, ⟨_, ⟨-, rfl⟩, _, ⟨-, rfl⟩, _, ⟨-, rfl⟩, _, ⟨-, rfl⟩,
    -, rfl⟩, hweight⟩ := hweight
  split at hweight
  · rename_i hle
    exact hle
  · cases hweight

/-- The payouts selected so far are counted, and a bundle of them is not too heavy. -/
structure Fits (sel : Selection) : Prop where
  size : sel.bundleTxoutsSize = (sel.bundleOutputs.map payoutSize).sum
  weight : predicted sel.bundleOutputs.length sel.bundleTxoutsSize ≤ maxStandardTxWeight

theorem fits_empty : Fits Selection.empty := ⟨rfl, by decide⟩

/-- The payouts of a selection after the withdrawals chosen for it. -/
structure Selects (L : BundleLib) (sel : Selection) (chosen : List AggregatedWithdrawal)
    (sel' : Selection) : Prop where
  fits : Fits sel'
  fee : sel'.fee = sel.fee + (chosen.map AggregatedWithdrawal.mainFee).sum
  outputs : sel'.bundleOutputs = sel.bundleOutputs ++
    chosen.map fun a => ⟨a.value, L.scriptPubkey a.mainAddress⟩
  spent : sel'.spendUtxos =
    sel.spendUtxos.insertMany (chosen.flatMap fun a => a.spendUtxos.toList)

theorem Selects.refl {L : BundleLib} {sel : Selection} (h : Fits sel) : Selects L sel [] sel where
  fits := h
  fee := rfl
  outputs := (List.append_nil _).symm
  spent := by simp

theorem selects_of_selectWithdrawals {L : BundleLib} {l : List AggregatedWithdrawal}
    {sel sel' : Selection} (hfits : Fits sel) (h : selectWithdrawals L l sel = .ok sel') :
    ∃ chosen, chosen.Sublist l ∧ Selects L sel chosen sel' := by
  induction l generalizing sel with
  | nil =>
      obtain rfl := Except.ok.inj h
      exact ⟨[], .slnil, .refl hfits⟩
  | cons a l ih =>
      have hstop (heq : (.ok sel : Except Error Selection) = .ok sel') :
          ∃ chosen, chosen.Sublist (a :: l) ∧ Selects L sel chosen sel' := by
        obtain rfl := Except.ok.inj heq
        exact ⟨[], List.nil_sublist _, .refl hfits⟩
      have hpass (hrest : selectWithdrawals L l sel = .ok sel') :
          ∃ chosen, chosen.Sublist (a :: l) ∧ Selects L sel chosen sel' := by
        obtain ⟨chosen, hsub, hselects⟩ := ih hfits hrest
        exact ⟨chosen, hsub.cons a, hselects⟩
      simp only [selectWithdrawals] at h
      split at h
      · exact hstop h
      · split at h
        · exact hpass h
        · split at h
          · exact hpass h
          · rename_i size hsize
            split at h
            · exact hstop h
            · rename_i sum hsum
              split at h
              · exact hstop h
              · rename_i hpredicted
                split at h
                · cases h
                · -- the payout is taken
                  obtain ⟨-, rfl⟩ := checkedAddU32_eq_some_iff.mp hsum
                  simp only [txoutSize, Option.bind_eq_some_iff, checkedAddU32_eq_some_iff]
                    at hsize
                  obtain ⟨_, ⟨-, rfl⟩, -, rfl⟩ := hsize
                  have hfits' := predicted_of_predictWeight hpredicted
                  obtain ⟨chosen, hsub, hselects⟩ := ih ⟨by
                    rw [List.map_append, List.sum_append, ← hfits.size]
                    rfl, by rw [List.length_append]; exact hfits'⟩ h
                  refine ⟨a :: chosen, hsub.cons_cons a, hselects.fits, ?_, ?_, ?_⟩
                  · rw [hselects.fee, List.map_cons, List.sum_cons, Nat.add_assoc]
                  · rw [hselects.outputs, List.append_assoc]
                    rfl
                  · rw [hselects.spent, List.flatMap_cons, Std.ExtTreeMap.insertMany_append]

theorem reports_selectWithdrawals {L : BundleLib} {l : List AggregatedWithdrawal}
    {sel : Selection} : Reports (· = Error.panic) (selectWithdrawals L l sel) := by
  induction l generalizing sel with
  | nil => exact reports_ok _
  | cons a l ih =>
      simp only [selectWithdrawals]
      split
      · exact reports_ok _
      · split
        · exact ih
        · split
          · exact ih
          · split
            · exact reports_ok _
            · split
              · exact reports_ok _
              · split
                · exact reports_error.mpr rfl
                · exact ih

theorem reports_aggregate {acc : Table MainAddress AggregatedWithdrawal}
    {row : OutPoint × FilledOutput} :
    Reports (· = Error.amountOverflow) (aggregate acc row) := by
  unfold aggregate
  split <;> simp

theorem txWeight_le {L : BundleLib} (hweight : SerializedWeight L) {sel : Selection}
    (hfits : Fits sel) {tx : BundleTx} (htx : tx.outputs = sel.bundleOutputs) :
    L.txWeight tx ≤ maxStandardTxWeight := by
  refine le_trans ?_ hfits.weight
  rw [hweight tx, htx, predicted, hfits.size]
  omega

theorem lookup_insertMany_iff {f : OutPoint → Option FilledOutput}
    {l : List (OutPoint × FilledOutput)} {t : Table OutPoint FilledOutput}
    (hl : ∀ row ∈ l, f row.1 = some row.2)
    (ht : ∀ (o : OutPoint) (output : FilledOutput), t[o]? = some output → f o = some output)
    {o : OutPoint} {output : FilledOutput} :
    (t.insertMany l)[o]? = some output ↔ t[o]? = some output ∨ (o, output) ∈ l := by
  induction l generalizing t with
  | nil => simp
  | cons row l ih =>
      obtain ⟨o', output'⟩ := row
      have hnew : f o' = some output' := hl (o', output') List.mem_cons_self
      have ht' : ∀ (o : OutPoint) (output : FilledOutput),
          (t.insert o' output')[o]? = some output → f o = some output := by
        intro o output hrow
        rw [lookup_insert] at hrow
        split at hrow
        · rename_i heq
          rw [heq, hnew, hrow]
        · exact ht o output hrow
      rw [Std.ExtTreeMap.insertMany_cons,
        ih (fun row hrow => hl row (List.mem_cons_of_mem _ hrow)) ht', lookup_insert,
        List.mem_cons, Prod.mk.injEq]
      by_cases ho : o = o'
      · rw [if_pos ho, Option.some.injEq]
        constructor
        · rintro (rfl | hrest)
          · exact .inr (.inl ⟨ho, rfl⟩)
          · exact .inr (.inr hrest)
        · rintro (hold | ⟨-, rfl⟩ | hrest)
          · rw [← Option.some.injEq, ← hnew, ← ho, ht o output hold]
            exact .inl rfl
          · exact .inl rfl
          · exact .inr hrest
      · rw [if_neg ho]
        simp [ho]

/-- What a bundle pays, and to whom. -/
structure Pays (L : BundleLib) (c : Coins) (b : WithdrawalBundle)
    (addresses : List MainAddress) : Prop where
  nodup : addresses.Nodup
  outputs : b.tx.outputs = addresses.map fun k =>
    ⟨((rowsTo k c.utxos.toList).map payout).sum, L.scriptPubkey k⟩
  spent : ∀ (o : OutPoint) (output : FilledOutput), b.spendUtxos[o]? = some output ↔
    c.utxos[o]? = some output ∧ ∃ k ∈ addresses, payee (o, output) = some k
  total : (b.tx.outputs.map TxOut.value).sum + b.tx.fee =
    (b.spendUtxos.toList.map fun row => payout row + mainFee row).sum

theorem getBitcoinValue_eq {row : OutPoint × FilledOutput} {k : MainAddress}
    (hpayee : payee row = some k) (hfits : payout row + mainFee row ≤ amountMax) :
    row.2.getBitcoinValue = payout row + mainFee row := by
  obtain ⟨w, hw, -⟩ := Option.map_eq_some_iff.mp hpayee
  have hcontent := withdrawalOf_eq_some_iff.mp hw
  rw [payout, mainFee, hw, Option.elim_some, Option.elim_some] at hfits ⊢
  rw [FilledOutput.getBitcoinValue, FilledContent.getBitcoinValue, hcontent]
  show w.getBitcoinValue = _
  rw [WithdrawalContent.getBitcoinValue, checkedAdd, if_pos hfits, Option.getD_some]

section

variable {L : BundleLib} {c : Coins} {acc : Table MainAddress AggregatedWithdrawal}
  {chosen : List AggregatedWithdrawal} {sel : Selection}

theorem spendUtxos_aggregated {k : MainAddress} {o : OutPoint} {output : FilledOutput} :
    (aggregated k (rowsTo k c.utxos.toList)).spendUtxos[o]? = some output ↔
      c.utxos[o]? = some output ∧ payee (o, output) = some k := by
  have hrows : ∀ row ∈ rowsTo k c.utxos.toList, c.utxos[row.1]? = some row.2 :=
    fun row hrow => mem_toList_iff.mp (List.mem_of_mem_filter hrow)
  rw [aggregated, lookup_insertMany_iff hrows (by simp), rowsTo, List.mem_filter,
    mem_toList_iff, decide_eq_true_eq]
  simp

theorem spendUtxos_of_selects (hchosen : ∀ a ∈ chosen,
      a = aggregated a.mainAddress (rowsTo a.mainAddress c.utxos.toList))
    (h : Selects L Selection.empty chosen sel) {o : OutPoint} {output : FilledOutput} :
    sel.spendUtxos[o]? = some output ↔ c.utxos[o]? = some output ∧
      ∃ k ∈ chosen.map AggregatedWithdrawal.mainAddress, payee (o, output) = some k := by
  have hrow : ∀ a ∈ chosen, ∀ (o : OutPoint) (output : FilledOutput),
      a.spendUtxos[o]? = some output ↔
        c.utxos[o]? = some output ∧ payee (o, output) = some a.mainAddress := by
    intro a ha o output
    rw [hchosen a ha]
    exact spendUtxos_aggregated
  have hrows : ∀ row ∈ chosen.flatMap fun a => a.spendUtxos.toList,
      c.utxos[row.1]? = some row.2 := by
    intro row hmem
    obtain ⟨a, ha, hmem⟩ := List.mem_flatMap.mp hmem
    exact ((hrow a ha row.1 row.2).mp (mem_toList_iff.mp hmem)).1
  rw [h.spent, lookup_insertMany_iff hrows (by simp [Selection.empty])]
  constructor
  · rintro (hold | hmem)
    · simp [Selection.empty] at hold
    · obtain ⟨a, ha, hmem⟩ := List.mem_flatMap.mp hmem
      obtain ⟨hutxo, hpayee⟩ := (hrow a ha o output).mp (mem_toList_iff.mp hmem)
      exact ⟨hutxo, a.mainAddress, List.mem_map.mpr ⟨a, ha, rfl⟩, hpayee⟩
  · rintro ⟨hutxo, k, hk, hpayee⟩
    obtain ⟨a, ha, rfl⟩ := List.mem_map.mp hk
    refine .inr (List.mem_flatMap.mpr ⟨a, ha, mem_toList_iff.mpr ?_⟩)
    exact (hrow a ha o output).mpr ⟨hutxo, hpayee⟩

theorem sum_aggregated {addresses : List MainAddress} (hnodup : addresses.Nodup)
    (t : Table OutPoint FilledOutput)
    (ht : ∀ (o : OutPoint) (output : FilledOutput), t[o]? = some output ↔
      c.utxos[o]? = some output ∧ ∃ k ∈ addresses, payee (o, output) = some k)
    (w : OutPoint × FilledOutput → Nat) :
    (addresses.map fun k => ((rowsTo k c.utxos.toList).map w).sum).sum =
      (t.toList.map w).sum := by
  have hkeys := sum_filter_keys payee w
    ((List.nodup_map_iff (Option.some_injective MainAddress)).mpr hnodup) c.utxos.toList
  rw [List.map_map] at hkeys
  refine hkeys.trans (List.Perm.sum_eq (List.Perm.map w ?_))
  refine (List.perm_ext_iff_of_nodup ((toList_nodup _).filter _) (toList_nodup _)).mpr ?_
  rintro ⟨o, output⟩
  rw [List.mem_filter, mem_toList_iff, mem_toList_iff, ht o output]
  refine and_congr_right fun _ => ?_
  simp [eq_comm]

theorem pays_of_selects (h : c.utxos.toList.foldlM aggregate ∅ = .ok acc)
    {sorted : List AggregatedWithdrawal} (hsorted : sorted.Perm (acc.toList.map Prod.snd))
    (hsub : chosen.Sublist sorted) (hselects : Selects L Selection.empty chosen sel)
    {b : WithdrawalBundle} (hspend : b.spendUtxos = sel.spendUtxos) (hfee : b.tx.fee = sel.fee)
    (houtputs : b.tx.outputs = sel.bundleOutputs) :
    Pays L c b (chosen.map AggregatedWithdrawal.mainAddress) := by
  have hchosen : ∀ a ∈ chosen,
      a = aggregated a.mainAddress (rowsTo a.mainAddress c.utxos.toList) :=
    fun a ha => mem_aggregates h (hsorted.subset (hsub.subset ha))
  have hnodup : (chosen.map AggregatedWithdrawal.mainAddress).Nodup :=
    (hsub.map _).nodup ((hsorted.map _).nodup_iff.mpr (nodup_addresses h))
  have hvalue : chosen.map AggregatedWithdrawal.value =
      (chosen.map AggregatedWithdrawal.mainAddress).map fun k =>
        ((rowsTo k c.utxos.toList).map payout).sum := by
    rw [List.map_map]
    exact List.map_congr_left fun a ha => congrArg AggregatedWithdrawal.value (hchosen a ha)
  have hmainFee : chosen.map AggregatedWithdrawal.mainFee =
      (chosen.map AggregatedWithdrawal.mainAddress).map fun k =>
        ((rowsTo k c.utxos.toList).map mainFee).sum := by
    rw [List.map_map]
    exact List.map_congr_left fun a ha => congrArg AggregatedWithdrawal.mainFee (hchosen a ha)
  have hpaid : b.tx.outputs = chosen.map fun a => ⟨a.value, L.scriptPubkey a.mainAddress⟩ :=
    houtputs.trans hselects.outputs
  have hspent : ∀ (o : OutPoint) (output : FilledOutput), b.spendUtxos[o]? = some output ↔
      c.utxos[o]? = some output ∧ ∃ k ∈ chosen.map AggregatedWithdrawal.mainAddress,
        payee (o, output) = some k := by
    intro o output
    rw [hspend]
    exact spendUtxos_of_selects hchosen hselects
  refine ⟨hnodup, ?_, hspent, ?_⟩
  · rw [hpaid, List.map_map]
    refine List.map_congr_left fun a ha => ?_
    exact congrArg (fun value => (⟨value, L.scriptPubkey a.mainAddress⟩ : TxOut))
      (congrArg AggregatedWithdrawal.value (hchosen a ha))
  · have hpayouts : b.tx.outputs.map TxOut.value = chosen.map AggregatedWithdrawal.value := by
      rw [hpaid, List.map_map]
      rfl
    have hfees : b.tx.fee = (chosen.map AggregatedWithdrawal.mainFee).sum := by
      rw [hfee, hselects.fee]
      exact Nat.zero_add _
    rw [hpayouts, hfees, hvalue, hmainFee, sum_aggregated hnodup _ hspent,
      sum_aggregated hnodup _ hspent, ← List.sum_map_add]

end

/-- The withdrawals are sorted by fee, value and address, from the largest. -/
def Before (a b : AggregatedWithdrawal) : Prop :=
  (compare b.key a.key).isLE = true

instance : DecidableRel Before := fun _ _ => inferInstanceAs (Decidable (_ = true))

instance : Std.Total Before where
  total a b := by
    by_cases h : (compare b.key a.key).isLE = true
    · exact .inl h
    · refine .inr ?_
      rw [Before, Std.OrientedCmp.lt_of_not_isLE h]
      rfl

instance : IsTrans AggregatedWithdrawal Before where
  trans _ _ _ h h' := Std.TransCmp.isLE_trans h' h

/-- Collect the withdrawals when the aggregation hands them out in the given order. -/
def collectWithdrawalBundleIn (L : BundleLib)
    (order : List AggregatedWithdrawal → List AggregatedWithdrawal) (c : Coins)
    (blockHeight : Nat) : Except Error (Option WithdrawalBundle) := do
  let byAddress ← c.utxos.toList.foldlM aggregate ∅
  if byAddress.isEmpty then
    .ok none
  else do
    let sorted := (order (byAddress.toList.map Prod.snd)).insertionSort
      fun a b => (compare b.key a.key).isLE
    let sel ← selectWithdrawals L sorted Selection.empty
    let bundle ← new L blockHeight sel.fee sel.spendUtxos sel.bundleOutputs
    if L.txWeight bundle.tx > maxStandardTxWeight then
      .error (.bundleTooHeavy (L.txWeight bundle.tx) maxStandardTxWeight)
    else
      .ok (some bundle)

theorem mainAddress_of_before {a b : AggregatedWithdrawal} (h : Before a b) (h' : Before b a) :
    a.mainAddress = b.mainAddress := by
  have hkey : b.key = a.key :=
    Std.LawfulEqCmp.eq_of_compare (Std.OrientedCmp.isLE_antisymm h h')
  simp only [AggregatedWithdrawal.key, List.cons.injEq] at hkey
  exact hkey.2.2.1.symm

theorem insertionSort_order {l l' : List AggregatedWithdrawal} (hperm : l'.Perm l)
    (hnodup : (l.map AggregatedWithdrawal.mainAddress).Nodup) :
    l'.insertionSort Before = l.insertionSort Before := by
  refine List.Perm.eq_of_pairwise ?_ (List.pairwise_insertionSort _ _)
    (List.pairwise_insertionSort _ _) ?_
  · intro a b ha hb hle hge
    have hmem : a ∈ l := hperm.subset ((List.mem_insertionSort _).mp ha)
    exact List.inj_on_of_nodup_map hnodup hmem ((List.mem_insertionSort _).mp hb)
      (mainAddress_of_before hle hge)
  · exact ((List.perm_insertionSort _ _).trans hperm).trans (List.perm_insertionSort _ _).symm

theorem collectWithdrawalBundleIn_eq {L : BundleLib}
    {order : List AggregatedWithdrawal → List AggregatedWithdrawal}
    (horder : ∀ l, (order l).Perm l) (c : Coins) (blockHeight : Nat) :
    collectWithdrawalBundleIn L order c blockHeight =
      collectWithdrawalBundle L c blockHeight := by
  unfold collectWithdrawalBundleIn collectWithdrawalBundle
  cases hfold : c.utxos.toList.foldlM aggregate ∅ with
  | error e => rfl
  | ok acc =>
      have hsorted := insertionSort_order (horder (acc.toList.map Prod.snd))
        (nodup_addresses hfold)
      simp only [ok_bind]
      split
      · rfl
      · exact congrArg (fun sorted => (do
          let sel ← selectWithdrawals L sorted Selection.empty
          let bundle ← new L blockHeight sel.fee sel.spendUtxos sel.bundleOutputs
          if L.txWeight bundle.tx > maxStandardTxWeight then
            .error (.bundleTooHeavy (L.txWeight bundle.tx) maxStandardTxWeight)
          else
            .ok (some bundle) : Except Error (Option WithdrawalBundle))) hsorted

theorem collectWithdrawalBundle_eq_some {L : BundleLib} {c : Coins} {blockHeight : Nat}
    {b : WithdrawalBundle} (h : collectWithdrawalBundle L c blockHeight = .ok (some b)) :
    ∃ acc sorted sel, c.utxos.toList.foldlM aggregate ∅ = .ok acc ∧
      sorted.Perm (acc.toList.map Prod.snd) ∧
      selectWithdrawals L sorted Selection.empty = .ok sel ∧ b.spendUtxos = sel.spendUtxos ∧
      b.tx.fee = sel.fee ∧ b.tx.outputs = sel.bundleOutputs := by
  unfold collectWithdrawalBundle at h
  obtain ⟨acc, hfold, h⟩ := bind_eq_ok_iff.mp h
  split at h
  · cases h
  · obtain ⟨sel, hsel, h⟩ := bind_eq_ok_iff.mp h
    obtain ⟨bundle, hnew, h⟩ := bind_eq_ok_iff.mp h
    split at h
    · cases h
    · obtain rfl := Option.some.inj (Except.ok.inj h)
      refine ⟨acc, _, sel, hfold, List.perm_insertionSort _ _, hsel, ?_⟩
      unfold new at hnew
      dsimp only at hnew
      split at hnew
      · cases hnew
      · obtain rfl := Except.ok.inj hnew
        exact ⟨rfl, rfl, rfl⟩

theorem reports_collectWithdrawalBundle {L : BundleLib} (hweight : SerializedWeight L)
    (c : Coins) (blockHeight : Nat) :
    Reports (fun e => e = .amountOverflow ∨ e = .panic)
      (collectWithdrawalBundle L c blockHeight) := by
  unfold collectWithdrawalBundle
  rw [reports_bind]
  refine ⟨reports_foldlM fun row _ acc e he => .inl (reports_aggregate e he), ?_⟩
  intro acc _
  rw [reports_ite]
  refine ⟨fun _ => reports_ok _, fun _ => ?_⟩
  rw [reports_bind]
  refine ⟨fun e he => .inr (reports_selectWithdrawals e he), ?_⟩
  intro sel hsel
  obtain ⟨chosen, -, hselects⟩ := selects_of_selectWithdrawals fits_empty hsel
  have hnew : ∀ tx : BundleTx, tx.outputs = sel.bundleOutputs →
      ¬ L.txWeight tx > maxStandardTxWeight :=
    fun tx htx => Nat.not_lt.mpr (txWeight_le hweight hselects.fits htx)
  unfold new
  dsimp only
  rw [if_neg (hnew _ rfl), ok_bind, if_neg (hnew _ rfl)]
  exact reports_ok _

/-- Collecting a bundle never finds it too heavy; what it pays, with the fees, is the total of
the outputs it spends, which are all withdrawals to the addresses it pays; and the
order in which the aggregation hands out the addresses does not matter. -/
theorem collectWithdrawalBundle_pays {L : BundleLib} (hweight : SerializedWeight L) (c : Coins)
    (blockHeight : Nat) :
    (∀ weight max, collectWithdrawalBundle L c blockHeight ≠ .error (.bundleTooHeavy weight max) ∧
        collectWithdrawalBundle L c blockHeight ≠ .error (.withdrawalBundle weight max)) ∧
      (∀ b, collectWithdrawalBundle L c blockHeight = .ok (some b) →
        (∃ addresses, Pays L c b addresses) ∧
          ((∀ row ∈ b.spendUtxos.toList, payout row + mainFee row ≤ amountMax) →
            (b.tx.outputs.map TxOut.value).sum + b.tx.fee =
              (b.spendUtxos.toList.map fun row => row.2.getBitcoinValue).sum)) ∧
      ∀ order : List AggregatedWithdrawal → List AggregatedWithdrawal,
        (∀ l, (order l).Perm l) →
          collectWithdrawalBundleIn L order c blockHeight =
            collectWithdrawalBundle L c blockHeight := by
  refine ⟨?_, ?_, fun order horder => collectWithdrawalBundleIn_eq horder c blockHeight⟩
  · intro weight max
    have hreports := reports_collectWithdrawalBundle hweight c blockHeight
    refine ⟨fun herr => ?_, fun herr => ?_⟩
    · rcases hreports _ herr with heq | heq <;> cases heq
    · rcases hreports _ herr with heq | heq <;> cases heq
  · intro b hb
    obtain ⟨acc, sorted, sel, hfold, hsorted, hsel, hspend, hfee, houtputs⟩ :=
      collectWithdrawalBundle_eq_some hb
    obtain ⟨chosen, hsub, hselects⟩ := selects_of_selectWithdrawals fits_empty hsel
    have hpays := pays_of_selects hfold hsorted hsub hselects hspend hfee houtputs
    refine ⟨⟨_, hpays⟩, fun hfits => ?_⟩
    rw [hpays.total]
    refine congrArg List.sum (List.map_congr_left fun row hrow => ?_)
    obtain ⟨-, k, -, hpayee⟩ := (hpays.spent row.1 row.2).mp (mem_toList_iff.mp hrow)
    exact (getBitcoinValue_eq hpayee (hfits row hrow)).symm

/-- Scripts of 22 bytes, with the weight of the serialized transaction. -/
def weighedLib : BundleLib where
  scriptPubkey address := List.replicate 22 (UInt8.ofNat address)
  hashOutPoints _ := 0
  txWeight tx := (4 + 1 + (varIntSize (tx.outputs.length + 2) +
    (62 + (tx.outputs.map payoutSize).sum)) + 4) * 4 + 2
  computeTxid tx := tx.fee

/-- Two withdrawals to one mainchain address and one to another. -/
def pendingCoins : Coins :=
  [(0, 7, 500), (1, 8, 300), (2, 7, 200)].foldl
    (fun c entry => c.insertUtxo (.regular entry.1 0)
      ⟨1, .bitcoinWithdrawal ⟨entry.2.2, 10, entry.2.1⟩, []⟩) Coins.empty

theorem collectWithdrawalBundle_pays_pending :
    ∃ b, collectWithdrawalBundle weighedLib pendingCoins 5 = .ok (some b) ∧
      b.tx.outputs.map TxOut.value = [700, 300] ∧ b.tx.fee = 30 ∧
      ∃ addresses, Pays weighedLib pendingCoins b addresses := by
  have hcomputed : holds (collectWithdrawalBundle weighedLib pendingCoins 5) (fun bundle =>
      bundle.any fun b => decide (b.tx.outputs.map TxOut.value = [700, 300] ∧ b.tx.fee = 30)) =
        true := by
    decide +kernel
  obtain ⟨bundle, hbundle, htest⟩ := holds_iff.mp hcomputed
  cases bundle with
  | none => cases htest
  | some b =>
      obtain ⟨hvalues, hfee⟩ := of_decide_eq_true htest
      have hpays := collectWithdrawalBundle_pays (L := weighedLib) (fun _ => rfl) pendingCoins 5
      exact ⟨b, hbundle, hvalues, hfee, (hpays.2.1 b hbundle).1⟩

end Truthcoin.WithdrawalBundle
