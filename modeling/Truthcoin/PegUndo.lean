import Truthcoin.PegSafety

/-!
# Undoing single peg events

Every event handler of a disconnection takes back what the handler of the
connection did, unless the latter found the event repeated.
-/

namespace Truthcoin.PegUndo

open Truthcoin.Types Truthcoin.Table Truthcoin.Fallible Truthcoin.TwoWayPeg
open Truthcoin.CoinMoves Truthcoin.PegSteps Truthcoin.PegSafety

/-- Outputs that a bundle is known to spend. -/
def infoRows : WithdrawalBundleInfo → List CoinRow
  | .known b => b.spendUtxos.toList
  | .unknown => []
  | .unknownConfirmed spends => spends.toList

/-- The output that each outpoint carries whenever it is in use. -/
abbrev OutputOf := OutPoint → FilledOutput

def Agrees (f : OutputOf) (c : Coins) : Prop :=
  ∀ (o : OutPoint) (output : FilledOutput), c.utxos[o]? = some output → output = f o

def RowsAgree (f : OutputOf) (info : WithdrawalBundleInfo) : Prop :=
  ∀ row ∈ infoRows info, row.2 = f row.1

/-- What undoing an event of one bundle relies on. -/
structure Ready (f : OutputOf) (m : M6id) (s : PegState) : Prop where
  disjoint : s.coins.Disjoint
  indexed : s.coins.Indexed
  agrees : Agrees f s.coins
  entry : ∀ (info : WithdrawalBundleInfo) (st : Status),
    s.dbs.withdrawalBundles[m]? = some (info, st) →
      EntryOk s.coins m info st ∧ RowsAgree f info

section Restored

variable {m : M6id} {rows : List CoinRow} {c c' c'' : Coins}

theorem restore_spent (hc : c.Indexed) (hdisjoint : c.Disjoint)
    (hutxos : ∀ row ∈ rows, c.utxos[row.1]? = some row.2)
    (hspent : Spent m rows c c') (hunspent : Unspent rows c' c'') : c'' = c := by
  refine hspent.restored hunspent hc hutxos ?_ (by simp)
  intro row hrow
  exact (hdisjoint row.1).resolve_left (by simp [hutxos row hrow])

theorem restore_unspent (hc : c.Indexed) (hdisjoint : c.Disjoint)
    (hstxos : ∀ row ∈ rows, c.stxos[row.1]? = some ⟨row.2, .withdrawal m⟩)
    (hunspent : Unspent rows c c') (hspent : Spent m rows c' c'') : c'' = c := by
  refine hunspent.restored hspent hc ?_ hstxos (by simp)
  intro row hrow
  exact (hdisjoint row.1).resolve_right (by simp [hstxos row hrow])

theorem nodup_reverse_keys (t : Table OutPoint FilledOutput) :
    (t.toList.reverse.map Prod.fst).Nodup := by
  rw [List.map_reverse, List.nodup_reverse]
  exact toList_keys_nodup t

theorem unspendBundleUtxos_of_spent {t : Table OutPoint FilledOutput}
    (hc : c.Indexed) (hdisjoint : c.Disjoint)
    (hutxos : ∀ row ∈ t.toList, c.utxos[row.1]? = some row.2)
    (hspent : Spent m t.toList c c') :
    unspendBundleUtxos t.toList.reverse c' = .ok c := by
  have hmem (row : CoinRow) : row ∈ t.toList.reverse ↔ row ∈ t.toList :=
    List.mem_reverse
  obtain ⟨c'', hrun⟩ := unspendBundleUtxos_succeeds (c := c') (nodup_reverse_keys t)
    fun row hrow => by simp [HasStxo, hspent.stxos_mem row ((hmem row).mp hrow)]
  have hunspent := (unspendBundleUtxos_unspent (nodup_reverse_keys t) hrun).perm hmem
  rw [hrun, restore_spent hc hdisjoint hutxos hspent hunspent]

theorem unconfirmUtxos_of_spent {t : Table OutPoint FilledOutput}
    (hc : c.Indexed) (hdisjoint : c.Disjoint)
    (hutxos : ∀ row ∈ t.toList, c.utxos[row.1]? = some row.2)
    (hspent : Spent m t.toList c c') : unconfirmUtxos t.toList c' = .ok c := by
  obtain ⟨c'', hrun⟩ := unconfirmUtxos_succeeds (c := c') (toList_keys_nodup t)
    fun row hrow => by simp [HasStxo, hspent.stxos_mem row hrow]
  have hunspent := unconfirmUtxos_unspent (toList_keys_nodup t) hrun
  rw [hrun, restore_spent hc hdisjoint hutxos hspent hunspent]

theorem respendUtxos_of_unspent {t : Table OutPoint FilledOutput}
    (hc : c.Indexed) (hdisjoint : c.Disjoint)
    (hstxos : ∀ row ∈ t.toList, c.stxos[row.1]? = some ⟨row.2, .withdrawal m⟩)
    (hunspent : Unspent t.toList c c') :
    respendUtxos m t.toList.reverse c' = .ok c := by
  have hmem (row : CoinRow) : row ∈ t.toList.reverse ↔ row ∈ t.toList :=
    List.mem_reverse
  obtain ⟨c'', hrun⟩ : ∃ c'', respendUtxos m t.toList.reverse c' = .ok c'' :=
    respendUtxos_succeeds (nodup_reverse_keys t)
      fun row hrow => by simp [HasUtxo, hunspent.utxos_mem row ((hmem row).mp hrow)]
  have hspent := (respendUtxos_spent (nodup_reverse_keys t) hrun).perm hmem
  rw [hrun, restore_unspent hc hdisjoint hstxos hunspent hspent]

end Restored

theorem insert_insert_of_lookup {K V : Type} [TableKey K] {t : Table K V} {k : K}
    {v : V} (v' : V) (h : t[k]? = some v) : (t.insert k v').insert k v = t := by
  apply ext_lookup
  intro k'
  grind

theorem putBundle_putBundle {s : PegState} {m : M6id} {entry : BundleEntry}
    (entry' : BundleEntry) (h : s.dbs.withdrawalBundles[m]? = some entry) :
    (s.putBundle m entry').putBundle m entry = s := by
  simp only [PegState.putBundle, insert_insert_of_lookup entry' h]

theorem deleteBundle_putBundle {s : PegState} {m : M6id} (entry : BundleEntry)
    (h : s.dbs.withdrawalBundles[m]? = none) :
    (s.putBundle m entry).deleteBundle m = s := by
  simp only [PegState.putBundle, PegState.deleteBundle, erase_insert_of_absent entry h]

@[simp]
theorem lookup_putBundle (s : PegState) (m : M6id) (entry : BundleEntry) :
    (s.putBundle m entry).dbs.withdrawalBundles[m]? = some entry := by
  simp [PegState.putBundle]

theorem Ready.utxos_of_spent {f : OutputOf} {m : M6id} {s : PegState}
    (hs : Ready f m s) {info : WithdrawalBundleInfo} {st : Status}
    (hentry : s.dbs.withdrawalBundles[m]? = some (info, st))
    (hall : ∀ row ∈ infoRows info, HasUtxo s.coins row.1) :
    ∀ row ∈ infoRows info, s.coins.utxos[row.1]? = some row.2 := by
  intro row hrow
  obtain ⟨output, houtput⟩ := Option.ne_none_iff_exists'.mp (hall row hrow)
  rw [houtput, hs.agrees row.1 output houtput, (hs.entry info st hentry).2 row hrow]

theorem isSubmitted_submitted : isSubmitted .submitted := .inl rfl

theorem isSubmitted_submittedUnexpected : isSubmitted .submittedUnexpected := .inr rfl

theorem undo_submitted {f : OutputOf} {h : Nat} {m : M6id} {s s' : PegState}
    {spends : List CoinRow} (hs : Ready f m s)
    (hcase : SubmittedCase h m s s' spends) :
    disconnectWithdrawalBundleSubmitted s' h m = .ok s := by
  unfold disconnectWithdrawalBundleSubmitted
  cases hcase with
  | @pending b st st' coins hpending hentry hlatest hspend hpush =>
      have hnodup := toList_keys_nodup b.spendUtxos
      have hunspend := unspendBundleUtxos_of_spent hs.indexed hs.disjoint
        (hs.utxos_of_spent hentry (hasUtxo_of_spendBundleUtxos hnodup hspend))
        (spendBundleUtxos_spent hnodup hspend)
      have hlookup : ((({ s with coins := coins }).putBundle m
          (.known b, st')).setPending none).dbs.withdrawalBundles[m]? =
            some (.known b, st') := by
        simp [PegState.setPending, PegState.putBundle]
      have htable := insert_insert_of_lookup (.known b, st') hentry
      rw [hlookup]
      simp only [RollBack.pop_of_push hpush, hlatest, if_true]
      rw [ensure_pos isSubmitted_submitted, ensure_pos trivial]
      simp only [ok_bind, PegState.setPending, PegState.putBundle, hunspend, htable,
        ← hpending]
  | @resubmitted info st st' hpending hentry hlatest hinfo hpush =>
      have hrestored := putBundle_putBundle (info, st') hentry
      have hnot : st.latest.value ≠ .pending := by
        rcases hlatest with hlatest | hlatest <;> simp [hlatest]
      rw [lookup_putBundle]
      simp only [RollBack.pop_of_push hpush]
      rw [ensure_pos isSubmitted_submittedUnexpected, ensure_pos trivial]
      cases info with
      | known b => simp only [if_neg hnot, ok_bind, hrestored]
      | unknown => simp only [ok_bind, hrestored]
      | unknownConfirmed spends => exact absurd rfl (hinfo spends)
  | unknown hpending hentry =>
      rw [lookup_putBundle]
      simp only [ensure, RollBack.pop_new, isSubmitted_submitted, if_true, ok_bind,
        deleteBundle_putBundle _ hentry]

/-- A confirmation is undone unless the bundle was confirmed already. -/
theorem undo_confirmed {f : OutputOf} {h : Nat} {m : M6id} {s s' : PegState}
    (hs : Ready f m s) (hcase : ConfirmedCase h m s s')
    (hnew : ∀ info st, s.dbs.withdrawalBundles[m]? = some (info, st) →
      st.latest.value ≠ .confirmed) :
    disconnectWithdrawalBundleConfirmed s' h m = .ok s := by
  have hnot : ¬ isSubmitted .confirmed := by simp [isSubmitted]
  unfold disconnectWithdrawalBundleConfirmed
  cases hcase with
  | @again info st hentry hlatest => exact absurd hlatest (hnew info st hentry)
  | @submitted b st st' hentry hlatest hpush =>
      have hrestored := putBundle_putBundle (.known b, st') hentry
      have hexpected : ¬ st.latest.value = .submittedUnexpected := by simp [hlatest]
      rw [lookup_putBundle]
      simp only [RollBack.pop_of_push hpush, if_neg hnot]
      rw [ensure_pos trivial, ensure_pos trivial, okOr_some, ok_bind, ok_bind, ok_bind,
        ensure_pos (p := isSubmitted _) (Or.inl hlatest)]
      simp only [ok_bind, if_neg hexpected]
      exact congrArg Except.ok hrestored
  | @unexpected b st st' coins missing hentry hlatest hspend hpush =>
      have hnodup := toList_keys_nodup b.spendUtxos
      have hunspend := unconfirmUtxos_of_spent hs.indexed hs.disjoint
        (hs.utxos_of_spent hentry (hasUtxo_of_spendBundleUtxos hnodup hspend))
        (spendBundleUtxos_spent hnodup hspend)
      have hrestored := putBundle_putBundle (.known b, st') hentry
      rw [lookup_putBundle]
      simp only [RollBack.pop_of_push hpush, if_neg hnot]
      rw [ensure_pos trivial, ensure_pos trivial, okOr_some, ok_bind, ok_bind, ok_bind,
        ensure_pos (p := isSubmitted _) (Or.inr hlatest)]
      simp only [ok_bind, hlatest, if_true, PegState.putBundle, hunspend]
      exact congrArg Except.ok hrestored
  | @unknown st st' hheight hentry hlatest hpush =>
      have hunspend := unconfirmUtxos_of_spent hs.indexed hs.disjoint
        (fun row hrow => mem_toList_iff.mp hrow) (spendAllUtxos_spent m s.coins)
      have hrestored := putBundle_putBundle
        (.unknownConfirmed s.coins.utxos, st') hentry
      rw [lookup_putBundle]
      simp only [RollBack.pop_of_push hpush, if_neg hnot]
      rw [ensure_pos trivial, ensure_pos trivial, okOr_some, ok_bind, ok_bind, ok_bind,
        ensure_pos hlatest]
      simp only [ok_bind, PegState.putBundle, hunspend]
      exact congrArg Except.ok hrestored

theorem popLatestFailed_of_push {failed : Option (RollBack M6id)} {m : M6id} {h : Nat}
    {failed' : RollBack M6id} (hpush : pushLatestFailed failed m h = .ok failed') :
    popLatestFailed (some failed') m h = .ok failed := by
  unfold popLatestFailed
  cases failed with
  | none =>
      obtain rfl := Except.ok.inj hpush
      simp [ensure_pos]
  | some r =>
      simp only [pushLatestFailed] at hpush
      split at hpush
      · rename_i r' hr
        obtain rfl := Except.ok.inj hpush
        simp [RollBack.pop_of_push hr, ensure_pos]
      · simp at hpush

/-- A failure is undone unless the bundle had failed already. -/
theorem undo_failed {f : OutputOf} {h : Nat} {m : M6id} {s s' : PegState}
    (hs : Ready f m s) (hcase : FailedCase h m s s')
    (hnew : ∀ info st, s.dbs.withdrawalBundles[m]? = some (info, st) →
      st.latest.value ≠ .failed) :
    disconnectWithdrawalBundleFailed s' h m = .ok s := by
  unfold disconnectWithdrawalBundleFailed
  cases hcase with
  | @again info st hentry hlatest => exact absurd hlatest (hnew info st hentry)
  | @submitted b st st' failed hentry hlatest hfailed hpush =>
      have hspent := (hs.entry _ _ hentry).1.spent
      rw [hlatest] at hspent
      have hrespend := respendUtxos_of_unspent hs.indexed hs.disjoint hspent
        (reinstateUtxos_unspent (toList_keys_nodup b.spendUtxos))
      have hrestored := putBundle_putBundle (.known b, st') hentry
      have hexpected : ¬ st.latest.value = .submittedUnexpected := by simp [hlatest]
      rw [lookup_putBundle]
      simp only [RollBack.pop_of_push hpush, reduceCtorEq, if_false]
      rw [ensure_pos trivial, ensure_pos trivial, okOr_some, ok_bind, ok_bind, ok_bind,
        ensure_pos (p := isSubmitted _) (Or.inl hlatest)]
      simp only [ok_bind, if_neg hexpected, PegState.putBundle, hrespend,
        popLatestFailed_of_push hfailed]
      exact congrArg Except.ok hrestored
  | @unspent info st st' hentry hlatest hunspent hpush =>
      have hrestored := putBundle_putBundle (info, st') hentry
      rw [lookup_putBundle]
      simp only [RollBack.pop_of_push hpush, reduceCtorEq, if_false]
      rw [ensure_pos trivial, ensure_pos trivial, okOr_some, ok_bind, ok_bind, ok_bind,
        ensure_pos hlatest]
      cases info with
      | known b => simp only [ok_bind, if_pos (hunspent ⟨b, rfl⟩), hrestored]
      | unknown => simp only [ok_bind, hrestored]
      | unknownConfirmed spends => simp only [ok_bind, hrestored]

end Truthcoin.PegUndo
