import Truthcoin.PegIndex

/-!
# Safety of withdrawal bundles

An invariant of the bundle tables that every event keeps, in both directions.
-/

namespace Truthcoin.PegSafety

open Truthcoin.Types Truthcoin.Table Truthcoin.Fallible Truthcoin.TwoWayPeg
open Truthcoin.CoinMoves Truthcoin.PegSteps Truthcoin.PegRun
open Truthcoin.WithdrawalBundle Truthcoin.PegIndex

/-- Outputs that have left the UTXO set for a bundle of the given status. -/
def spentRows : WithdrawalBundleInfo → WithdrawalBundleStatus → List CoinRow
  | .known b, .submitted | .known b, .confirmed => b.spendUtxos.toList
  | .unknownConfirmed spends, .submitted | .unknownConfirmed spends, .confirmed =>
      spends.toList
  | _, _ => []

structure Safe (s : PegState) : Prop where
  disjoint : s.coins.Disjoint
  spent_absent : ∀ (m : M6id) (info : WithdrawalBundleInfo) (st : Status),
    s.dbs.withdrawalBundles[m]? = some (info, st) →
    ∀ row ∈ spentRows info st.latest.value, s.coins.utxos[row.1]? = none
  pending_known : ∀ m : M6id, s.dbs.pendingWithdrawalBundle = some m →
    ∃ b st, s.dbs.withdrawalBundles[m]? = some (WithdrawalBundleInfo.known b, st) ∧
      st.latest.value = .pending

/-- Statuses that may follow each other in the history of a bundle. -/
def Follows (info : WithdrawalBundleInfo) (new old : WithdrawalBundleStatus) : Prop :=
  match new with
  | .pending => ∃ b, info = .known b ∧ spentRows info old = []
  | .submitted => old = .pending
  | .submittedUnexpected => old = .dropped ∨ old = .failed
  | .confirmed | .failed => isSubmitted old
  | .dropped => False

def values (st : Status) : List WithdrawalBundleStatus :=
  st.iterRev.map (·.value)

/-- An entry of the bundle table: its spent outputs are recorded as spent by it,
and its history is one that the peg can produce. -/
structure EntryOk (c : Coins) (m : M6id) (info : WithdrawalBundleInfo) (st : Status) :
    Prop where
  spent : ∀ row ∈ spentRows info st.latest.value,
    c.stxos[row.1]? = some ⟨row.2, .withdrawal m⟩
  history : (values st).IsChain (Follows info)
  confirmed : ∀ spends, info = .unknownConfirmed spends → st.latest.value = .confirmed

structure Inv (s : PegState) : Prop where
  disjoint : s.coins.Disjoint
  entries : ∀ (m : M6id) (info : WithdrawalBundleInfo) (st : Status),
    s.dbs.withdrawalBundles[m]? = some (info, st) →
    EntryOk s.coins m info st
  pending_known : ∀ m : M6id, s.dbs.pendingWithdrawalBundle = some m →
    ∃ b st, s.dbs.withdrawalBundles[m]? = some (WithdrawalBundleInfo.known b, st) ∧
      st.latest.value = .pending

theorem Inv.safe {s : PegState} (h : Inv s) : Safe s := by
  refine ⟨h.disjoint, ?_, h.pending_known⟩
  intro m info st hentry row hrow
  have hspent := (h.entries m info st hentry).spent row hrow
  exact (h.disjoint row.1).resolve_right (by simp [hspent])

/-- Outputs spent by the bundle stay so. -/
def Keeps (m : M6id) (c c' : Coins) : Prop :=
  ∀ (o : OutPoint) (output : FilledOutput),
    c.stxos[o]? = some ⟨output, .withdrawal m⟩ →
      c'.stxos[o]? = some ⟨output, .withdrawal m⟩

theorem Keeps.refl (m : M6id) (c : Coins) : Keeps m c c := fun _ _ h => h

theorem keeps_of_spent {m m' : M6id} {rows : List CoinRow} {c c' : Coins}
    (hdisjoint : c.Disjoint) (hall : ∀ row ∈ rows, HasUtxo c row.1)
    (hspent : Spent m' rows c c') : Keeps m c c' := by
  intro o output ho
  rw [hspent.stxos_other o, ho]
  rintro row hrow rfl
  exact hall row hrow ((hdisjoint row.1).resolve_right (by simp [ho]))

theorem keeps_of_unspent {m m' : M6id} {rows : List CoinRow} {c c' : Coins}
    (hne : m ≠ m')
    (hall : ∀ row ∈ rows, c.stxos[row.1]? = some ⟨row.2, .withdrawal m'⟩)
    (hunspent : Unspent rows c c') : Keeps m c c' := by
  intro o output ho
  rw [hunspent.stxos_other o, ho]
  rintro row hrow rfl
  rw [hall row hrow] at ho
  simp only [Option.some.injEq, SpentOutput.mk.injEq, InPoint.withdrawal.injEq] at ho
  exact hne ho.2.symm

theorem EntryOk.of_keeps {c c' : Coins} {m : M6id} {info : WithdrawalBundleInfo}
    {st : Status} (h : EntryOk c m info st) (hkeeps : Keeps m c c') :
    EntryOk c' m info st :=
  ⟨fun row hrow => hkeeps row.1 row.2 (h.spent row hrow), h.history, h.confirmed⟩

theorem Inv.put {s s' : PegState} {m : M6id} {info : WithdrawalBundleInfo}
    {st : Status} (h : Inv s)
    (htable : s'.dbs.withdrawalBundles = s.dbs.withdrawalBundles.insert m (info, st))
    (hdisjoint : s'.coins.Disjoint)
    (hkeeps : ∀ m', m' ≠ m → Keeps m' s.coins s'.coins)
    (hentry : EntryOk s'.coins m info st)
    (hpending : ∀ p, s'.dbs.pendingWithdrawalBundle = some p →
      (p ≠ m ∧ s.dbs.pendingWithdrawalBundle = some p) ∨
      (p = m ∧ ∃ b, info = .known b ∧ st.latest.value = .pending)) : Inv s' := by
  refine ⟨hdisjoint, ?_, ?_⟩
  · intro m' info' st' hlookup
    rw [htable, Std.ExtTreeMap.getElem?_insert] at hlookup
    split at hlookup
    · rename_i heq
      obtain rfl := Std.LawfulEqCmp.eq_of_compare heq
      simp only [Option.some.injEq, Prod.mk.injEq] at hlookup
      obtain ⟨rfl, rfl⟩ := hlookup
      exact hentry
    · rename_i hne
      have hne : m' ≠ m := fun heq => hne (by rw [heq]; exact Std.ReflCmp.compare_self)
      exact (h.entries m' info' st' hlookup).of_keeps (hkeeps m' hne)
  · intro p hp
    rw [htable]
    rcases hpending p hp with ⟨hne, hold⟩ | ⟨rfl, b, rfl, hlatest⟩
    · obtain ⟨b, st', hlookup, hlatest⟩ := h.pending_known p hold
      refine ⟨b, st', ?_, hlatest⟩
      simp [Std.ExtTreeMap.getElem?_insert, Ne.symm hne, hlookup]
    · exact ⟨b, st, by simp, hlatest⟩

theorem Inv.delete {s s' : PegState} {m : M6id} (h : Inv s)
    (htable : s'.dbs.withdrawalBundles = s.dbs.withdrawalBundles.erase m)
    (hcoins : s'.coins = s.coins)
    (hpending : ∀ p, s'.dbs.pendingWithdrawalBundle = some p →
      p ≠ m ∧ s.dbs.pendingWithdrawalBundle = some p) : Inv s' := by
  refine ⟨hcoins ▸ h.disjoint, ?_, ?_⟩
  · intro m' info st hlookup
    rw [htable, Std.ExtTreeMap.getElem?_erase] at hlookup
    split at hlookup
    · simp at hlookup
    · rw [hcoins]
      exact h.entries m' info st hlookup
  · intro p hp
    obtain ⟨hne, hold⟩ := hpending p hp
    obtain ⟨b, st, hlookup, hlatest⟩ := h.pending_known p hold
    refine ⟨b, st, ?_, hlatest⟩
    simp [htable, Std.ExtTreeMap.getElem?_erase, Ne.symm hne, hlookup]

theorem values_of_push {st st' : Status} {value : WithdrawalBundleStatus} {h : Nat}
    (hpush : st.push value h = .ok st') :
    values st' = value :: st.latest.value :: st.earlier.map (·.value) := by
  rw [values, RollBack.iterRev_of_push hpush]
  rfl

theorem chain_of_push {info : WithdrawalBundleInfo} {st st' : Status}
    {value : WithdrawalBundleStatus} {h : Nat}
    (hchain : (values st).IsChain (Follows info))
    (hpush : st.push value h = .ok st')
    (hfollows : Follows info value st.latest.value) :
    (values st').IsChain (Follows info) := by
  rw [values_of_push hpush, List.isChain_cons_cons]
  exact ⟨hfollows, hchain⟩

theorem chain_of_pop {info : WithdrawalBundleInfo} {st prev : Status}
    {latest : HeightStamped WithdrawalBundleStatus}
    (hchain : (values st).IsChain (Follows info)) (hpop : st.pop = (some prev, latest)) :
    Follows info latest.value prev.latest.value ∧
      (values prev).IsChain (Follows info) := by
  rw [values, RollBack.iterRev_of_pop hpop, RollBack.iterRev, List.map_cons,
    List.map_cons, List.isChain_cons_cons] at hchain
  exact hchain

theorem inv_submitted {h : Nat} {m : M6id} {s s' : PegState} {spends : List CoinRow}
    (hs : Inv s) (hcase : SubmittedCase h m s s' spends) : Inv s' := by
  cases hcase with
  | @pending b st st' coins hpending hentry hlatest hspend hpush =>
      have hnodup := toList_keys_nodup b.spendUtxos
      have hspent := spendBundleUtxos_spent hnodup hspend
      have hall := hasUtxo_of_spendBundleUtxos hnodup hspend
      refine hs.put rfl (hspent.disjoint hs.disjoint (by simp)) ?_ ?_ ?_
      · exact fun m' _ => keeps_of_spent hs.disjoint hall hspent
      · refine ⟨?_, ?_, by simp⟩
        · rw [RollBack.latest_of_push hpush]
          exact hspent.stxos_mem
        · exact chain_of_push (hs.entries m _ st hentry).history hpush hlatest
      · simp [PegState.setPending]
  | @resubmitted info st st' hpending hentry hlatest hinfo hpush =>
      have hold := hs.entries m info st hentry
      refine hs.put rfl hs.disjoint (fun m' _ => Keeps.refl m' _) ?_ ?_
      · refine ⟨?_, chain_of_push hold.history hpush hlatest, ?_⟩
        · rw [RollBack.latest_of_push hpush]
          cases info <;> simp [spentRows]
        · exact fun spends hspends => absurd hspends (hinfo spends)
      · intro p hp
        exact .inl ⟨fun heq => hpending (heq ▸ hp), hp⟩
  | unknown hpending hentry =>
      refine hs.put rfl hs.disjoint (fun m' _ => Keeps.refl m' _) ?_ ?_
      · exact ⟨by simp [spentRows], by simp [values, RollBack.iterRev, RollBack.new],
          by simp⟩
      · intro p hp
        exact .inl ⟨fun heq => hpending (heq ▸ hp), hp⟩

theorem Inv.not_pending {s : PegState} (hs : Inv s) {m : M6id}
    {info : WithdrawalBundleInfo} {st : Status}
    (hentry : s.dbs.withdrawalBundles[m]? = some (info, st))
    (hlatest : st.latest.value ≠ .pending) {p : M6id}
    (hp : s.dbs.pendingWithdrawalBundle = some p) : p ≠ m := by
  rintro rfl
  obtain ⟨b, st', hlookup, hpending⟩ := hs.pending_known p hp
  rw [hentry, Option.some.injEq, Prod.mk.injEq] at hlookup
  obtain ⟨-, rfl⟩ := hlookup
  exact hlatest hpending

theorem not_pending_of_isSubmitted {value : WithdrawalBundleStatus}
    (h : isSubmitted value) : value ≠ .pending := by
  rintro rfl
  rcases h with h | h <;> cases h

theorem inv_confirmed {h : Nat} {m : M6id} {s s' : PegState} (hs : Inv s)
    (hcase : ConfirmedCase h m s s') : Inv s' := by
  cases hcase with
  | again => exact hs
  | @submitted b st st' hentry hlatest hpush =>
      have hold := hs.entries m _ st hentry
      refine hs.put rfl hs.disjoint (fun m' _ => Keeps.refl m' _) ?_ ?_
      · refine ⟨?_, chain_of_push hold.history hpush (Or.inl hlatest), by simp⟩
        rw [RollBack.latest_of_push hpush]
        have hspent := hold.spent
        rw [hlatest] at hspent
        exact hspent
      · intro p hp
        exact .inl ⟨hs.not_pending hentry (by simp [hlatest]) hp, hp⟩
  | @unexpected b st st' coins missing hentry hlatest hspend hpush =>
      have hold := hs.entries m _ st hentry
      have hnodup := toList_keys_nodup b.spendUtxos
      have hspent := spendBundleUtxos_spent hnodup hspend
      have hall := hasUtxo_of_spendBundleUtxos hnodup hspend
      refine hs.put rfl (hspent.disjoint hs.disjoint (by simp)) ?_ ?_ ?_
      · exact fun m' _ => keeps_of_spent hs.disjoint hall hspent
      · refine ⟨?_, chain_of_push hold.history hpush (Or.inr hlatest), by simp⟩
        rw [RollBack.latest_of_push hpush]
        exact hspent.stxos_mem
      · intro p hp
        exact .inl ⟨hs.not_pending hentry (by simp [hlatest]) hp, hp⟩
  | @unknown st st' hheight hentry hlatest hpush =>
      have hold := hs.entries m _ st hentry
      have hspent := spendAllUtxos_spent m s.coins
      have hall : ∀ row ∈ s.coins.utxos.toList, HasUtxo s.coins row.1 :=
        fun row hrow => by simp [HasUtxo, mem_toList_iff.mp hrow]
      refine hs.put rfl (hspent.disjoint hs.disjoint (by simp)) ?_ ?_ ?_
      · exact fun m' _ => keeps_of_spent hs.disjoint hall hspent
      · refine ⟨?_, ?_, ?_⟩
        · rw [RollBack.latest_of_push hpush]
          exact hspent.stxos_mem
        · refine chain_of_push (hold.history.imp ?_) hpush hlatest
          intro new old hfollows
          cases new <;> simp_all [Follows]
        · intro _ _
          rw [RollBack.latest_of_push hpush]
      · intro p hp
        exact .inl ⟨hs.not_pending hentry (not_pending_of_isSubmitted hlatest) hp, hp⟩

theorem inv_failed {h : Nat} {m : M6id} {s s' : PegState} (hs : Inv s)
    (hcase : FailedCase h m s s') : Inv s' := by
  cases hcase with
  | again => exact hs
  | @submitted b st st' failed hentry hlatest hfailed hpush =>
      have hold := hs.entries m _ st hentry
      have hspent := hold.spent
      rw [hlatest] at hspent
      have hunspent := reinstateUtxos_unspent (c := s.coins)
        (toList_keys_nodup b.spendUtxos)
      refine hs.put rfl (hunspent.disjoint hs.disjoint (by simp)) ?_ ?_ ?_
      · exact fun m' hne => keeps_of_unspent hne hspent hunspent
      · refine ⟨?_, chain_of_push hold.history hpush (Or.inl hlatest), by simp⟩
        rw [RollBack.latest_of_push hpush]
        simp [spentRows]
      · intro p hp
        exact .inl ⟨hs.not_pending hentry (by simp [hlatest]) hp, hp⟩
  | @unspent info st st' hentry hlatest hunspent hpush =>
      have hold := hs.entries m _ st hentry
      refine hs.put rfl hs.disjoint (fun m' _ => Keeps.refl m' _) ?_ ?_
      · refine ⟨?_, chain_of_push hold.history hpush hlatest, ?_⟩
        · rw [RollBack.latest_of_push hpush]
          cases info <;> simp [spentRows]
        · intro spends hspends
          have hconfirmed := hold.confirmed spends hspends
          rw [hconfirmed] at hlatest
          rcases hlatest with h | h <;> cases h
      · intro p hp
        exact .inl ⟨hs.not_pending hentry (not_pending_of_isSubmitted hlatest) hp, hp⟩

theorem latest_of_pop {st : Status} {prev : Option Status}
    {latest : HeightStamped WithdrawalBundleStatus} (hpop : st.pop = (prev, latest)) :
    st.latest = latest := by
  rw [← RollBack.pop_latest, hpop]

theorem inv_unsubmitted {h : Nat} {m : M6id} {s s' : PegState} (hs : Inv s)
    (hcase : UnsubmittedCase h m s s') : Inv s' := by
  cases hcase with
  | absent => exact hs
  | @pending b st prev coins latest hentry hpop hlatest hheight hprev hunspend =>
      have hold := hs.entries m _ st hentry
      obtain ⟨hfollows, hchain⟩ := chain_of_pop hold.history hpop
      have hsubmitted : latest.value = .submitted := by
        refine hlatest.resolve_right fun hunexpected => ?_
        simp [hunexpected, Follows, hprev] at hfollows
      have hspent := hold.spent
      rw [latest_of_pop hpop, hsubmitted] at hspent
      have hmem (row : CoinRow) :
          row ∈ b.spendUtxos.toList.reverse ↔ row ∈ b.spendUtxos.toList :=
        List.mem_reverse
      have hnodup : (b.spendUtxos.toList.reverse.map Prod.fst).Nodup := by
        rw [List.map_reverse, List.nodup_reverse]
        exact toList_keys_nodup b.spendUtxos
      have hunspent := (unspendBundleUtxos_unspent hnodup hunspend).perm hmem
      refine hs.put rfl (hunspent.disjoint hs.disjoint (by simp)) ?_ ?_ ?_
      · exact fun m' hne => keeps_of_unspent hne hspent hunspent
      · exact ⟨by simp [hprev, spentRows], hchain, by simp⟩
      · intro p hp
        obtain rfl : m = p := by simpa [PegState.setPending, PegState.putBundle] using hp
        exact .inr ⟨rfl, b, rfl, hprev⟩
  | @recorded info st prev latest hentry hpop hlatest hheight hprev =>
      have hold := hs.entries m _ st hentry
      obtain ⟨hfollows, hchain⟩ := chain_of_pop hold.history hpop
      have hlatest' := latest_of_pop hpop
      refine hs.put rfl hs.disjoint (fun m' _ => Keeps.refl m' _) ⟨?_, hchain, ?_⟩ ?_
      · cases info with
        | known b =>
            rcases hlatest with hsubmitted | hunexpected
            · simp only [hsubmitted, Follows] at hfollows
              exact absurd hfollows (hprev ⟨b, rfl⟩)
            · simp only [hunexpected, Follows] at hfollows
              rcases hfollows with hdropped | hfailed
              · simp [hdropped, spentRows]
              · simp [hfailed, spentRows]
        | unknown => simp [spentRows]
        | unknownConfirmed spends =>
            have hconfirmed := hold.confirmed spends rfl
            rw [hlatest'] at hconfirmed
            simp [hconfirmed, isSubmitted] at hlatest
      · intro spends hspends
        have hconfirmed := hold.confirmed spends hspends
        rw [hlatest'] at hconfirmed
        simp [hconfirmed, isSubmitted] at hlatest
      · intro p hp
        refine .inl ⟨hs.not_pending hentry ?_ hp, hp⟩
        rw [hlatest']
        exact not_pending_of_isSubmitted hlatest
  | @first info st latest hentry hpop hlatest hheight =>
      refine hs.delete rfl rfl ?_
      intro p hp
      refine ⟨hs.not_pending hentry ?_ hp, hp⟩
      rw [latest_of_pop hpop]
      exact not_pending_of_isSubmitted hlatest

theorem inv_unconfirmed {h : Nat} {m : M6id} {s s' : PegState} (hs : Inv s)
    (hcase : UnconfirmedCase h m s s') : Inv s' := by
  cases hcase with
  | kept => exact hs
  | @unexpected b st prev coins hentry hpop hprev hunspend =>
      have hold := hs.entries m _ st hentry
      obtain ⟨-, hchain⟩ := chain_of_pop hold.history hpop
      have hspent := hold.spent
      rw [latest_of_pop hpop] at hspent
      have hunspent := unconfirmUtxos_unspent (toList_keys_nodup b.spendUtxos) hunspend
      refine hs.put rfl (hunspent.disjoint hs.disjoint (by simp)) ?_ ?_ ?_
      · exact fun m' hne => keeps_of_unspent hne hspent hunspent
      · exact ⟨by simp [hprev, spentRows], hchain, by simp⟩
      · intro p hp
        exact .inl ⟨hs.not_pending hentry (by simp [latest_of_pop hpop]) hp, hp⟩
  | @unknownConfirmed spends st prev coins hentry hpop hprev hunspend =>
      have hold := hs.entries m _ st hentry
      obtain ⟨-, hchain⟩ := chain_of_pop hold.history hpop
      have hspent := hold.spent
      rw [latest_of_pop hpop] at hspent
      have hunspent := unconfirmUtxos_unspent (toList_keys_nodup spends) hunspend
      refine hs.put rfl (hunspent.disjoint hs.disjoint (by simp)) ?_ ?_ ?_
      · exact fun m' hne => keeps_of_unspent hne hspent hunspent
      · refine ⟨by simp [spentRows], hchain.imp ?_, by simp⟩
        intro new old hfollows
        cases new <;> simp_all [Follows]
      · intro p hp
        exact .inl ⟨hs.not_pending hentry (by simp [latest_of_pop hpop]) hp, hp⟩
  | @recorded info st prev hentry hpop hprev hsubmitted hinfo =>
      have hold := hs.entries m _ st hentry
      obtain ⟨-, hchain⟩ := chain_of_pop hold.history hpop
      have hspent := hold.spent
      rw [latest_of_pop hpop] at hspent
      refine hs.put rfl hs.disjoint (fun m' _ => Keeps.refl m' _) ⟨?_, hchain, ?_⟩ ?_
      · cases info with
        | known b =>
            rw [hsubmitted ⟨b, rfl⟩]
            exact hspent
        | unknown => simp [spentRows]
        | unknownConfirmed spends => exact absurd rfl (hinfo spends)
      · exact fun spends hspends => absurd hspends (hinfo spends)
      · intro p hp
        exact .inl ⟨hs.not_pending hentry (by simp [latest_of_pop hpop]) hp, hp⟩

theorem inv_unfailed {h : Nat} {m : M6id} {s s' : PegState} (hs : Inv s)
    (hcase : UnfailedCase h m s s') : Inv s' := by
  cases hcase with
  | kept => exact hs
  | @submitted b st prev coins failed hentry hpop hprev hspend hfailed =>
      have hold := hs.entries m _ st hentry
      obtain ⟨-, hchain⟩ := chain_of_pop hold.history hpop
      have hmem (row : CoinRow) :
          row ∈ b.spendUtxos.toList.reverse ↔ row ∈ b.spendUtxos.toList :=
        List.mem_reverse
      have hnodup : (b.spendUtxos.toList.reverse.map Prod.fst).Nodup := by
        rw [List.map_reverse, List.nodup_reverse]
        exact toList_keys_nodup b.spendUtxos
      have hspent := (respendUtxos_spent hnodup hspend).perm hmem
      have hall := hasUtxo_of_respendUtxos hnodup hspend
      refine hs.put rfl (hspent.disjoint hs.disjoint (by simp)) ?_ ?_ ?_
      · exact fun m' _ => keeps_of_spent hs.disjoint
          (fun row hrow => hall row ((hmem row).mpr hrow)) hspent
      · refine ⟨?_, hchain, by simp⟩
        rw [hprev]
        exact hspent.stxos_mem
      · intro p hp
        exact .inl ⟨hs.not_pending hentry (by simp [latest_of_pop hpop]) hp, hp⟩
  | @recorded info st prev hentry hpop hprev hunexpected =>
      have hold := hs.entries m _ st hentry
      obtain ⟨-, hchain⟩ := chain_of_pop hold.history hpop
      have hnotConfirmed : ∀ spends, info ≠ .unknownConfirmed spends := by
        intro spends hspends
        have hconfirmed := hold.confirmed spends hspends
        simp [latest_of_pop hpop] at hconfirmed
      refine hs.put rfl hs.disjoint (fun m' _ => Keeps.refl m' _) ⟨?_, hchain, ?_⟩ ?_
      · cases info with
        | known b => simp [hunexpected ⟨b, rfl⟩, spentRows]
        | unknown => simp [spentRows]
        | unknownConfirmed spends => exact absurd rfl (hnotConfirmed spends)
      · exact fun spends hspends => absurd hspends (hnotConfirmed spends)
      · intro p hp
        exact .inl ⟨hs.not_pending hentry (by simp [latest_of_pop hpop]) hp, hp⟩

/-- A bundle that is about to become the pending one replaces no other entry of the
bundle table. -/
def CreatesNewBundle (L : BundleLib) (h : Nat) (s : PegState) : Prop :=
  ∀ b, failureGapPassed s.dbs h = .ok true → s.dbs.pendingWithdrawalBundle = none →
    collectWithdrawalBundle L s.coins h = .ok (some b) →
      ∀ info st, s.dbs.withdrawalBundles[computeM6id L b]? = some (info, st) →
        ∃ b', info = .known b' ∧ b'.spendUtxos = b.spendUtxos

theorem spentRows_known_congr {b b' : WithdrawalBundle}
    (h : b'.spendUtxos = b.spendUtxos) (value : WithdrawalBundleStatus) :
    spentRows (.known b) value = spentRows (.known b') value := by
  cases value <;> simp [spentRows, h]

theorem mem_of_mem_spentRows {b : WithdrawalBundle} {value : WithdrawalBundleStatus}
    {row : CoinRow} (h : row ∈ spentRows (.known b) value) :
    row ∈ b.spendUtxos.toList := by
  cases value <;> simp_all [spentRows]

theorem inv_create {L : BundleLib} {h : Nat} {s s' : PegState} (hs : Inv s)
    (hnew : CreatesNewBundle L h s) (hcase : CreateCase L h s s') : Inv s' := by
  cases hcase with
  | nothing => exact hs
  | @created b st hgap hpending hcollect hstatus =>
      refine hs.put rfl hs.disjoint (fun m' _ => Keeps.refl m' _) ?_ ?_
      · rcases hstatus with ⟨hentry, rfl⟩ | ⟨info, st₀, hentry, hpush⟩
        · exact ⟨by simp [spentRows], by simp [values, RollBack.iterRev, RollBack.new],
            by simp⟩
        · obtain ⟨b', rfl, hsame⟩ := hnew b hgap hpending hcollect info st₀ hentry
          have hold := hs.entries _ _ st₀ hentry
          -- What the old bundle spent is not in the UTXO set, all of the new one is.
          have hnone : spentRows (.known b) st₀.latest.value = [] := by
            apply List.eq_nil_iff_forall_not_mem.mpr
            intro row hrow
            have hutxo := utxos_of_collectWithdrawalBundle hcollect row
              (mem_of_mem_spentRows hrow)
            rw [spentRows_known_congr hsame] at hrow
            have hspent := hold.spent row hrow
            rcases hs.disjoint row.1 with hutxos | hstxos
            · simp [hutxos] at hutxo
            · simp [hstxos] at hspent
          refine ⟨?_, chain_of_push (hold.history.imp ?_) hpush ⟨b, rfl, hnone⟩, by simp⟩
          · rw [RollBack.latest_of_push hpush]
            simp [spentRows]
          · intro new old hfollows
            cases new with
            | pending =>
                obtain ⟨_, _, hold⟩ := hfollows
                exact ⟨b, rfl, (spentRows_known_congr hsame old).trans hold⟩
            | _ => exact hfollows
      · intro p hp
        obtain rfl : computeM6id L b = p := by
          simpa [PegState.setPending, PegState.putBundle] using hp
        refine .inr ⟨rfl, b, rfl, ?_⟩
        rcases hstatus with ⟨-, rfl⟩ | ⟨_, _, -, hpush⟩
        · rfl
        · rw [RollBack.latest_of_push hpush]

theorem inv_drop {h : Nat} {s s' : PegState} (hs : Inv s) (hcase : DropCase h s s') :
    Inv s' := by
  cases hcase with
  | kept => exact hs
  | @dropped m info st prev latest hgap hpending hentry hheight hpop =>
      obtain ⟨b, st', hlookup, hlatest⟩ := hs.pending_known m hpending
      rw [hentry, Option.some.injEq, Prod.mk.injEq] at hlookup
      obtain ⟨rfl, rfl⟩ := hlookup
      have hold := hs.entries m _ st hentry
      obtain ⟨hfollows, hchain⟩ := chain_of_pop hold.history hpop
      rw [← latest_of_pop hpop, hlatest] at hfollows
      obtain ⟨-, -, hnone⟩ := hfollows
      refine hs.put rfl hs.disjoint (fun m' _ => Keeps.refl m' _) ?_ ?_
      · exact ⟨by simp [hnone], hchain, by simp⟩
      · simp [PegState.setPending, PegState.putBundle]
  | @deleted m info st latest hgap hpending hentry hheight hpop =>
      exact hs.delete rfl rfl (by simp [PegState.setPending, PegState.deleteBundle])

/-- Every deposited outpoint is absent from the spent outputs when it is
deposited. -/
def DepositsUnspent (h : Nat) : ConnectAcc → List LocatedEvent → Prop
  | _, [] => True
  | acc, event :: evs =>
      (∀ deposit, event.2 = .deposit deposit →
        acc.state.coins.stxos[deposit.outpoint]? = none) ∧
      ∀ acc', connectEvent h acc event = .ok acc' → DepositsUnspent h acc' evs

theorem Inv.of_coins {s : PegState} (hs : Inv s) {c : Coins} (hdisjoint : c.Disjoint)
    (hkeeps : ∀ m, Keeps m s.coins c) : Inv { s with coins := c } :=
  ⟨hdisjoint, fun m info st h => (hs.entries m info st h).of_keeps (hkeeps m),
    hs.pending_known⟩

theorem disjoint_insertUtxo {c : Coins} (hc : c.Disjoint) {o : OutPoint}
    (ho : c.stxos[o]? = none) (output : FilledOutput) :
    (c.insertUtxo o output).Disjoint := by
  intro o'
  rw [Coins.insertUtxo_utxos, Coins.insertUtxo_stxos]
  split
  · rename_i heq
    exact .inr (heq ▸ ho)
  · exact hc o'

theorem disjoint_deleteUtxo {c : Coins} (hc : c.Disjoint) (o : OutPoint) :
    (c.deleteUtxo o).1.Disjoint := by
  intro o'
  rw [Coins.deleteUtxo_utxos, Coins.deleteUtxo_stxos]
  split
  · exact .inl rfl
  · exact hc o'

theorem inv_event {h : Nat} {s s' : PegState} {event : BlockEvent} (hs : Inv s)
    (hdeposit : ∀ deposit, event = .deposit deposit →
      s.coins.stxos[deposit.outpoint]? = none)
    (hcase : EventCase h s event s') : Inv s' := by
  cases hcase with
  | deposit deposit =>
      exact hs.of_coins (disjoint_insertUtxo hs.disjoint (hdeposit deposit rfl) _)
        fun m o output ho => ho
  | submitted hcase => exact inv_submitted hs hcase
  | confirmed hcase => exact inv_confirmed hs hcase
  | failed hcase => exact inv_failed hs hcase

theorem inv_connectEvents {h : Nat} {evs : List LocatedEvent} {acc acc' : ConnectAcc}
    (hs : Inv acc.state) (hdeposits : DepositsUnspent h acc evs)
    (hrun : evs.foldlM (connectEvent h) acc = .ok acc') : Inv acc'.state := by
  induction evs generalizing acc with
  | nil =>
      simp only [List.foldlM_nil, pure_eq_ok, Except.ok.injEq] at hrun
      exact hrun ▸ hs
  | cons event evs ih =>
      rw [List.foldlM_cons, bind_eq_ok_iff] at hrun
      obtain ⟨acc₁, hevent, hrest⟩ := hrun
      exact ih (inv_event hs hdeposits.1 (connectEvent_cases hevent))
        (hdeposits.2 acc₁ hevent) hrest

theorem inv_disconnectEvent {h : Nat} {acc acc' : DisconnectAcc} {event : LocatedEvent}
    (hs : Inv acc.state) (hrun : disconnectEvent h acc event = .ok acc') :
    Inv acc'.state := by
  obtain ⟨hash, event⟩ := event
  cases event with
  | deposit deposit =>
      have hdisjoint := disjoint_deleteUtxo hs.disjoint deposit.outpoint
      have hstxos := Coins.deleteUtxo_stxos acc.state.coins deposit.outpoint
      simp only [disconnectEvent] at hrun
      rcases hd : acc.state.coins.deleteUtxo deposit.outpoint with ⟨c, flag⟩
      rw [hd] at hrun hdisjoint hstxos
      cases flag with
      | false => simp at hrun
      | true =>
          obtain rfl := Except.ok.inj hrun
          exact hs.of_coins hdisjoint fun m o output ho => by rw [hstxos]; exact ho
  | withdrawalBundle bundleEvent =>
      obtain ⟨m, status⟩ := bundleEvent
      simp only [disconnectEvent, bind_eq_ok_iff, Except.ok.injEq] at hrun
      obtain ⟨s', hevent, rfl⟩ := hrun
      cases status with
      | submitted =>
          exact inv_unsubmitted hs (disconnectWithdrawalBundleSubmitted_cases hevent)
      | confirmed =>
          exact inv_unconfirmed hs (disconnectWithdrawalBundleConfirmed_cases hevent)
      | failed => exact inv_unfailed hs (disconnectWithdrawalBundleFailed_cases hevent)

theorem inv_connect {L : BundleLib} {h : Nat} {s s' : PegState} {data : TwoWayPegData}
    (hs : Inv s) (hdeposits : DepositsUnspent h (connectStart s) (events data))
    (hnew : ∀ acc, connectEvents s h data = .ok acc → CreatesNewBundle L h acc.state)
    (hrun : connect L (some h) s data = .ok s') : Inv s' := by
  simp only [connect, okOr_some, ok_bind, bind_eq_ok_iff] at hrun
  obtain ⟨acc, hevents, hcreate⟩ := hrun
  have hstart : (events data).foldlM (connectEvent h) (connectStart s) = .ok acc :=
    hevents
  have hacc := inv_connectEvents hs hdeposits hstart
  exact inv_create (s := recordEvents acc h)
    ⟨hacc.disjoint, hacc.entries, hacc.pending_known⟩ (hnew acc hevents)
    (createPendingBundle_cases hcreate)

theorem inv_disconnect {h : Nat} {s s' : PegState} {data : TwoWayPegData} (hs : Inv s)
    (hrun : disconnect (some h) s data = .ok s') : Inv s' := by
  simp only [disconnect, okOr_some, ok_bind, bind_eq_ok_iff, Except.ok.injEq] at hrun
  obtain ⟨acc, hevents, eventBlocks, -, s₁, hdrop, depositBlocks, -, rfl⟩ := hrun
  have hacc : Inv acc.state :=
    foldlM_preserves (P := fun acc : DisconnectAcc => Inv acc.state)
      (fun event _ acc acc' hs hstep => inv_disconnectEvent hs hstep) hevents
      ⟨hs.disjoint, hs.entries, hs.pending_known⟩
  have hdropped : Inv s₁ := by
    refine inv_drop ?_ (dropPendingBundle_cases hdrop)
    exact ⟨hacc.disjoint, hacc.entries, hacc.pending_known⟩
  exact ⟨hdropped.disjoint, hdropped.entries, hdropped.pending_known⟩

/-- What a block does to the coins, one output at a time: transactions spend and
create outputs, and both are undone when the block is disconnected. Only the peg
spends outputs for a bundle. -/
inductive BlockMove : Coins → Coins → Prop where
  | create {c : Coins} {o : OutPoint} (output : FilledOutput)
      (hunspent : c.stxos[o]? = none) : BlockMove c (c.insertUtxo o output)
  | spend {c : Coins} {o : OutPoint} {output : FilledOutput} {inpoint : InPoint}
      (hutxo : c.utxos[o]? = some output) (hinpoint : ∀ m, inpoint ≠ .withdrawal m) :
      BlockMove c ((c.deleteUtxo o).1.putStxo o ⟨output, inpoint⟩)
  | unspend {c : Coins} {o : OutPoint} {spent : SpentOutput}
      (hstxo : c.stxos[o]? = some spent) (hinpoint : ∀ m, spent.inpoint ≠ .withdrawal m) :
      BlockMove c ((c.deleteStxo o).1.insertUtxo o spent.output)
  | remove {c : Coins} (o : OutPoint) : BlockMove c (c.deleteUtxo o).1

def BlockMoves (s s' : Node) : Prop :=
  Relation.ReflTransGen BlockMove s.peg.coins s'.peg.coins

theorem BlockMove.disjoint_keeps {c c' : Coins} (hc : c.Disjoint)
    (hmove : BlockMove c c') : c'.Disjoint ∧ ∀ m, Keeps m c c' := by
  cases hmove with
  | create output hunspent =>
      exact ⟨disjoint_insertUtxo hc hunspent output, fun m o output ho => ho⟩
  | @spend o output inpoint hutxo hinpoint =>
      have hstxo : c.stxos[o]? = none := (hc o).resolve_left (by simp [hutxo])
      constructor
      · intro o'
        have := hc o'
        simp only [Coins.putStxo_utxos, Coins.deleteUtxo_utxos, Coins.putStxo_stxos,
          Coins.deleteUtxo_stxos]
        split
        · exact .inl rfl
        · exact this
      · intro m o' output' ho'
        have hne : o ≠ o' := by
          rintro rfl
          simp [hstxo] at ho'
        simpa [hne] using ho'
  | @unspend o spent hstxo hinpoint =>
      constructor
      · intro o'
        have := hc o'
        simp only [Coins.insertUtxo_utxos, Coins.deleteStxo_utxos,
          Coins.insertUtxo_stxos, Coins.deleteStxo_stxos]
        split
        · exact .inr rfl
        · exact this
      · intro m o' output' ho'
        have hne : o ≠ o' := by
          rintro rfl
          rw [hstxo, Option.some.injEq] at ho'
          exact hinpoint m (by rw [ho'])
        simpa [hne] using ho'
  | remove o =>
      refine ⟨disjoint_deleteUtxo hc o, fun m o' output ho' => ?_⟩
      simpa using ho'

theorem blockMoves_disjoint_keeps {c c' : Coins} (hc : c.Disjoint)
    (hmoves : Relation.ReflTransGen BlockMove c c') :
    c'.Disjoint ∧ ∀ m, Keeps m c c' := by
  induction hmoves with
  | refl => exact ⟨hc, fun m => Keeps.refl m c⟩
  | tail _ hmove ih =>
      obtain ⟨hdisjoint, hkeeps⟩ := hmove.disjoint_keeps ih.1
      exact ⟨hdisjoint, fun m o output ho => hkeeps m o output (ih.2 m o output ho)⟩

theorem BlockMoves.inv {s s' : Node} (hs : Inv s.peg) (hmoves : BlockMoves s s')
    (hdbs : s'.peg.dbs = s.peg.dbs) : Inv s'.peg := by
  obtain ⟨hdisjoint, hkeeps⟩ := blockMoves_disjoint_keeps hs.disjoint hmoves
  have hpeg : s'.peg = ⟨s'.peg.coins, s.peg.dbs⟩ := by rw [← hdbs]
  rw [hpeg]
  exact hs.of_coins hdisjoint hkeeps

/-- No connection deposits a spent outpoint or replaces what is recorded about a
bundle. -/
structure KeepsRecords (L : BundleLib) (s : Node) (data : TwoWayPegData) : Prop where
  deposits : ∀ h, s.height = some h →
    DepositsUnspent h (connectStart s.peg) (events data)
  newBundle : ∀ h acc, s.height = some h → connectEvents s.peg h data = .ok acc →
    CreatesNewBundle L h acc.state

theorem inv_of_run {L : BundleLib} {chain : List (Nat × TwoWayPegData)} {s : Node}
    (hrun : Run L BlockMoves (KeepsRecords L) chain s) : Inv s.peg := by
  induction hrun with
  | start => exact ⟨Coins.disjoint_empty, by simp [Node.empty, PegDbs.empty],
      by simp [Node.empty, PegDbs.empty]⟩
  | block _ hblock hdbs ih => exact hblock.inv ih hdbs
  | @connect chain s data h p _ hheight hok hconnect ih =>
      rw [hheight] at hconnect
      exact inv_connect ih (hok.deposits h hheight)
        (fun acc hevents => hok.newBundle h acc hheight hevents) hconnect
  | @disconnect chain s data h p _ hheight hdisconnect ih =>
      rw [hheight] at hdisconnect
      exact inv_disconnect ih hdisconnect

/-- Bundles are safe in every state that connections with fresh deposits and new
bundles reach, whatever is disconnected in between. -/
theorem safe_of_run {L : BundleLib} {chain : List (Nat × TwoWayPegData)} {s : Node}
    (hrun : Run L BlockMoves (KeepsRecords L) chain s) : Safe s.peg :=
  (inv_of_run hrun).safe

def withdrawalOutput : FilledOutput := ⟨0, .bitcoinWithdrawal ⟨5000, 0, 1⟩, []⟩

/-- One withdrawal waits in the UTXO set. -/
def withdrawalCoins : Coins := Coins.empty.insertUtxo (.regular 1 0) withdrawalOutput

/-- The bundle 0 is submitted. -/
def submissionData : TwoWayPegData := ⟨[⟨0, [.withdrawalBundle ⟨0, .submitted⟩]⟩]⟩

def noData : TwoWayPegData := ⟨[]⟩

/-- The chain of five blocks, the first of which carries the submission. -/
def submissionChain : List (Nat × TwoWayPegData) :=
  [(3, noData), (2, noData), (1, noData), (0, submissionData)]

def submittedPeg : PegState :=
  (PegState.putBundle ⟨withdrawalCoins, { PegDbs.empty with
    withdrawalBundleEventBlocks := AppendLog.append ∅ (0, 0) }⟩ 0
      (.unknown, RollBack.new .submitted 0))

def collectedBundle : WithdrawalBundle :=
  ⟨(∅ : Table OutPoint FilledOutput).insert (.regular 1 0) withdrawalOutput,
    ⟨0, 0, [⟨5000, []⟩]⟩⟩

theorem run_submissionChain :
    Run PegLog.constLib BlockMoves (fun _ _ => True) submissionChain
      ⟨some 3, submittedPeg⟩ := by
  have hstart : Run PegLog.constLib BlockMoves (fun _ _ => True) []
      ⟨some 0, ⟨withdrawalCoins, PegDbs.empty⟩⟩ :=
    .block .start (.single (.create withdrawalOutput (by simp [Coins.empty, Node.empty]))) rfl
  have hempty {chain : List (Nat × TwoWayPegData)} {h : Nat} (h' : Nat)
      (hrun : Run PegLog.constLib BlockMoves (fun _ _ => True) chain
        ⟨some h, submittedPeg⟩)
      (hconnect : connect PegLog.constLib (some h') submittedPeg noData =
        .ok submittedPeg) :
      Run PegLog.constLib BlockMoves (fun _ _ => True) ((h', noData) :: chain)
        ⟨some h', submittedPeg⟩ := by
    have hblock : Run PegLog.constLib BlockMoves (fun _ _ => True) chain
        ⟨some h', submittedPeg⟩ := .block hrun .refl rfl
    exact .connect hblock rfl trivial hconnect
  have hfirst : Run PegLog.constLib BlockMoves (fun _ _ => True)
      [(0, submissionData)] ⟨some 0, submittedPeg⟩ :=
    .connect hstart rfl trivial rfl
  exact hempty 3 (hempty 2 (hempty 1 hfirst rfl) rfl) rfl

/-- The bundle is created at height 4, over the entry of the submission. -/
def createdPeg : PegState :=
  (submittedPeg.setPending (some 0)).putBundle 0
    (.known collectedBundle, ⟨⟨.pending, 4⟩, [⟨.submitted, 0⟩]⟩)

def droppedPeg : PegState :=
  submittedPeg.putBundle 0 (.known collectedBundle, RollBack.new .submitted 0)

/-- Block 4 creates the bundle that block 0 submitted; once block 4 is
disconnected, the bundle counts as submitted and its output is unspent. -/
theorem submitted_before_creation_unsafe :
    Run PegLog.constLib BlockMoves (fun _ _ => True) submissionChain
        ⟨some 4, droppedPeg⟩ ∧
      droppedPeg.dbs.withdrawalBundles[0]? =
        some (.known collectedBundle, RollBack.new .submitted 0) ∧
      droppedPeg.coins.utxos[OutPoint.regular 1 0]? = some withdrawalOutput ∧
      ¬ Safe droppedPeg := by
  have hentry : droppedPeg.dbs.withdrawalBundles[0]? =
      some (.known collectedBundle, RollBack.new .submitted 0) := by
    simp [droppedPeg, PegState.putBundle]
  have hutxo : droppedPeg.coins.utxos[OutPoint.regular 1 0]? = some withdrawalOutput := by
    simp [droppedPeg, submittedPeg, PegState.putBundle, withdrawalCoins]
  refine ⟨?_, hentry, hutxo, ?_⟩
  · have hblock : Run PegLog.constLib BlockMoves (fun _ _ => True) submissionChain
        ⟨some 4, submittedPeg⟩ := .block run_submissionChain .refl rfl
    have hcreated : Run PegLog.constLib BlockMoves (fun _ _ => True)
        ((4, noData) :: submissionChain) ⟨some 4, createdPeg⟩ :=
      .connect hblock rfl trivial rfl
    exact .disconnect hcreated rfl rfl
  · intro hsafe
    have habsent := hsafe.spent_absent 0 _ _ hentry (.regular 1 0, withdrawalOutput)
      (mem_toList_iff.mpr (by simp [collectedBundle]))
    simp [hutxo] at habsent

/-- Bundles are safe once the first one is pending. -/
theorem safe_of_run_first_bundle :
    ∃ s, Run PegLog.constLib BlockMoves (KeepsRecords PegLog.constLib) [(4, noData)] s ∧
      s.peg.dbs.pendingWithdrawalBundle = some 0 ∧ Safe s.peg := by
  have hstart : Run PegLog.constLib BlockMoves (KeepsRecords PegLog.constLib) []
      ⟨some 4, ⟨withdrawalCoins, PegDbs.empty⟩⟩ :=
    .block .start
      (.single (.create withdrawalOutput (by simp [Coins.empty, Node.empty]))) rfl
  have hkeeps : KeepsRecords PegLog.constLib
      ⟨some 4, ⟨withdrawalCoins, PegDbs.empty⟩⟩ noData := by
    refine ⟨fun _ _ => trivial, ?_⟩
    intro h acc _ hevents
    obtain rfl := Except.ok.inj hevents
    intro b _ _ _ info st hentry
    simp [PegDbs.empty] at hentry
  have hrun := Run.connect hstart rfl hkeeps rfl
  exact ⟨_, hrun, rfl, safe_of_run hrun⟩

end Truthcoin.PegSafety
