import Truthcoin.CoinRows
import Truthcoin.PegUndo
import Truthcoin.Markets

/-!
# Tags of outputs

The outpoint of an output fixes its owner and the market whose funds it holds. A
UTXO set in which this is so keeps its address index in step with its outputs,
whatever is inserted over an old output.
-/

namespace Truthcoin

open Truthcoin.Types Truthcoin.Table Truthcoin.Markets

/-- What the outpoint of an output fixes: the owner, and the funds the output holds. -/
structure Tag where
  address : Address
  funds : Option FundsKey
  deriving DecidableEq, Repr

abbrev Tags := OutPoint → Tag

def Content.fundsKey : Content → Option FundsKey
  | .marketFunds marketId _ isFee => some ⟨marketId, isFee⟩
  | _ => none

def FilledContent.fundsKey : FilledContent → Option FundsKey
  | .marketFunds marketId _ isFee => some ⟨marketId, isFee⟩
  | _ => none

def Output.tag (output : Output) : Tag :=
  ⟨output.address, Content.fundsKey output.content⟩

def FilledOutput.tag (output : FilledOutput) : Tag :=
  ⟨output.address, FilledContent.fundsKey output.content⟩

/-- A row whose output has the tag of its outpoint. -/
def RowTagged (T : Tags) (row : CoinRow) : Prop :=
  FilledOutput.tag row.2 = T row.1

/-- All outputs have the tags of their outpoints, and the address index lists the
unspent ones. -/
structure Coins.Tagged (T : Tags) (c : Coins) : Prop where
  utxos : ∀ {o output}, c.utxos[o]? = some output → RowTagged T (o, output)
  stxos : ∀ {o spent}, c.stxos[o]? = some spent → RowTagged T (o, spent.output)
  indexed : c.Indexed

namespace Coins

variable {T : Tags} {c c' : Coins} {o : OutPoint} {output : FilledOutput}
variable {rows : List CoinRow} {os : List OutPoint}

theorem tagged_empty (T : Tags) : empty.Tagged T where
  utxos h := by simp [empty] at h
  stxos h := by simp [empty] at h
  indexed := indexed_empty

theorem Indexed.insertUtxo_over (hc : c.Indexed)
    (hsame : ∀ old, c.utxos[o]? = some old → old.address = output.address) :
    (c.insertUtxo o output).Indexed := by
  rintro ⟨address, o'⟩
  have hold := hc ⟨address, o'⟩
  simp only [mem_insertUtxo_index, insertUtxo_utxos, AddressKey.mk.injEq] at hold ⊢
  by_cases ho : o = o'
  · subst ho
    simp only [if_true, Option.some.injEq, exists_eq_left', and_true]
    constructor
    · rintro (h | h)
      · exact h
      · obtain ⟨old, hlookup, hrow⟩ := hold.mp h
        rw [← hsame old hlookup, hrow]
    · exact Or.inl
  · simp [ho, hold]

theorem Tagged.insertUtxo (hc : c.Tagged T) (hrow : RowTagged T (o, output)) :
    (c.insertUtxo o output).Tagged T where
  utxos {o' output'} h := by
    rw [insertUtxo_utxos] at h
    split at h
    · rename_i heq
      subst heq
      rw [← Option.some.inj h]
      exact hrow
    · exact hc.utxos h
  stxos h := hc.stxos h
  indexed := by
    refine hc.indexed.insertUtxo_over ?_
    intro old hold
    exact congrArg Tag.address ((hc.utxos hold).trans hrow.symm)

theorem Tagged.deleteUtxo (hc : c.Tagged T) (o : OutPoint) :
    (c.deleteUtxo o).1.Tagged T where
  utxos h := by
    rw [deleteUtxo_utxos] at h
    split at h
    · cases h
    · exact hc.utxos h
  stxos h := hc.stxos (by simpa using h)
  indexed := hc.indexed.deleteUtxo o

theorem Tagged.putStxo (hc : c.Tagged T) {spent : SpentOutput}
    (hrow : RowTagged T (o, spent.output)) : (c.putStxo o spent).Tagged T where
  utxos h := hc.utxos h
  stxos h := by
    rw [putStxo_stxos] at h
    split at h
    · rename_i heq
      subst heq
      rw [← Option.some.inj h]
      exact hrow
    · exact hc.stxos h
  indexed := hc.indexed.putStxo o spent

theorem Tagged.deleteStxo (hc : c.Tagged T) (o : OutPoint) :
    (c.deleteStxo o).1.Tagged T where
  utxos h := hc.utxos h
  stxos h := by
    rw [deleteStxo_stxos] at h
    split at h
    · cases h
    · exact hc.stxos h
  indexed := hc.indexed.deleteStxo o

theorem Tagged.clearUtxos (hc : c.Tagged T) : c.clearUtxos.Tagged T where
  utxos h := by simp [Coins.clearUtxos] at h
  stxos h := hc.stxos h
  indexed := Indexed.clearUtxos c

theorem Tagged.insertRows (hc : c.Tagged T) (hrows : ∀ row ∈ rows, RowTagged T row) :
    (insertRows c rows).Tagged T := by
  induction rows generalizing c with
  | nil => exact hc
  | cons row rows ih =>
      exact ih (hc.insertUtxo (hrows row (by simp))) fun r hr => hrows r (by simp [hr])

theorem Tagged.deleteOutpoints (hc : c.Tagged T) (os : List OutPoint) :
    (deleteOutpoints c os).Tagged T := by
  induction os generalizing c with
  | nil => exact hc
  | cons o os ih => exact ih (hc.deleteUtxo o)

end Coins

namespace TwoWayPeg

open Truthcoin.Fallible Truthcoin.PegSteps Truthcoin.WithdrawalBundle
open Truthcoin.PegUndo (infoRows)

variable {T : Tags}

/-- All outputs of the UTXO set and of the recorded bundles are tagged. -/
structure PegState.Tagged (T : Tags) (s : PegState) : Prop where
  coins : s.coins.Tagged T
  bundles : ∀ {m : M6id} {info : WithdrawalBundleInfo} {st : Status},
    s.dbs.withdrawalBundles[m]? = some (info, st) → ∀ row ∈ infoRows info, RowTagged T row

variable {s s' : PegState} {c c' : Coins} {rows : List CoinRow} {m : M6id}

theorem spendBundleUtxos_tagged {missing : OutPoint → Error} (hc : c.Tagged T)
    (hrows : ∀ row ∈ rows, RowTagged T row)
    (h : spendBundleUtxos missing m rows c = .ok c') : c'.Tagged T := by
  refine foldlM_preserves (P := Coins.Tagged T) ?_ h hc
  intro row hrow c₁ c₂ hc₁ hstep
  have hdelete := hc₁.deleteUtxo row.1
  split at hstep
  · cases hstep
  · rename_i heq
    rw [heq] at hdelete
    rw [← Except.ok.inj hstep]
    exact hdelete.putStxo (hrows row hrow)

theorem spendAllUtxos_tagged (hc : c.Tagged T) (m : M6id) : (spendAllUtxos m c).Tagged T := by
  have hfold : ∀ rows : List CoinRow, (∀ row ∈ rows, RowTagged T row) → ∀ c : Coins,
      c.Tagged T →
      (rows.foldl (fun c row => c.putStxo row.1 ⟨row.2, .withdrawal m⟩) c).Tagged T := by
    intro rows hrows
    induction rows with
    | nil => exact fun c hc => hc
    | cons row rows ih =>
        intro c hc
        exact ih (fun r hr => hrows r (by simp [hr])) _ (hc.putStxo (hrows row (by simp)))
  exact (hfold _ (fun row hrow => hc.utxos (mem_toList_iff.mp hrow)) c hc).clearUtxos

theorem reinstateUtxos_tagged (hc : c.Tagged T) (hrows : ∀ row ∈ rows, RowTagged T row) :
    (reinstateUtxos rows c).Tagged T := by
  induction rows generalizing c with
  | nil => exact hc
  | cons row rows ih =>
      exact ih ((hc.deleteStxo row.1).insertUtxo (hrows row (by simp)))
        fun r hr => hrows r (by simp [hr])

theorem unspendBundleUtxos_tagged (hc : c.Tagged T) (hrows : ∀ row ∈ rows, RowTagged T row)
    (h : unspendBundleUtxos rows c = .ok c') : c'.Tagged T := by
  refine foldlM_preserves (P := Coins.Tagged T) ?_ h hc
  intro row hrow c₁ c₂ hc₁ hstep
  have hdelete := hc₁.deleteStxo row.1
  split at hstep
  · cases hstep
  · rename_i heq
    rw [heq] at hdelete
    rw [← Except.ok.inj hstep]
    exact hdelete.insertUtxo (hrows row hrow)

theorem unconfirmUtxos_tagged (hc : c.Tagged T) (hrows : ∀ row ∈ rows, RowTagged T row)
    (h : unconfirmUtxos rows c = .ok c') : c'.Tagged T := by
  refine foldlM_preserves (P := Coins.Tagged T) ?_ h hc
  intro row hrow c₁ c₂ hc₁ hstep
  have hinsert := (hc₁.insertUtxo (hrows row hrow)).deleteStxo row.1
  split at hstep
  · cases hstep
  · rename_i heq
    rw [heq] at hinsert
    rw [← Except.ok.inj hstep]
    exact hinsert

theorem respendUtxos_tagged (hc : c.Tagged T) (hrows : ∀ row ∈ rows, RowTagged T row)
    (h : respendUtxos m rows c = .ok c') : c'.Tagged T := by
  refine foldlM_preserves (P := Coins.Tagged T) ?_ h hc
  intro row hrow c₁ c₂ hc₁ hstep
  have hput : (c₁.putStxo row.1 ⟨row.2, .withdrawal m⟩).Tagged T := hc₁.putStxo (hrows row hrow)
  have hdelete := hput.deleteUtxo row.1
  split at hstep
  · cases hstep
  · rename_i heq
    rw [heq] at hdelete
    rw [← Except.ok.inj hstep]
    exact hdelete

namespace PegState

theorem Tagged.putBundle (hs : s.Tagged T) {info : WithdrawalBundleInfo} {st : Status}
    (hinfo : ∀ row ∈ infoRows info, RowTagged T row) :
    (s.putBundle m (info, st)).Tagged T where
  coins := hs.coins
  bundles {m' info' st'} h := by
    simp only [PegState.putBundle, Std.ExtTreeMap.getElem?_insert,
      Std.LawfulEqCmp.compare_eq_iff_eq] at h
    split at h
    · obtain ⟨rfl, -⟩ := Prod.mk.inj (Option.some.inj h)
      exact hinfo
    · exact hs.bundles h

theorem Tagged.deleteBundle (hs : s.Tagged T) (m : M6id) : (s.deleteBundle m).Tagged T where
  coins := hs.coins
  bundles {m' info' st'} h := by
    simp only [PegState.deleteBundle, Std.ExtTreeMap.getElem?_erase] at h
    split at h
    · cases h
    · exact hs.bundles h

theorem Tagged.setPending (hs : s.Tagged T) (m : Option M6id) : (s.setPending m).Tagged T :=
  ⟨hs.coins, hs.bundles⟩

theorem Tagged.withCoins (hs : s.Tagged T) (hc : c.Tagged T) :
    ({ s with coins := c } : PegState).Tagged T :=
  ⟨hc, hs.bundles⟩

end PegState

theorem tagged_submitted {h : Nat} {spends : List CoinRow} (hs : s.Tagged T)
    (hcase : SubmittedCase h m s s' spends) : s'.Tagged T := by
  cases hcase with
  | pending hpending hentry hlatest hspend hpush =>
      have hrows := hs.bundles hentry
      exact ((hs.withCoins (spendBundleUtxos_tagged hs.coins hrows hspend)).putBundle
        hrows).setPending none
  | resubmitted hpending hentry hlatest hinfo hpush => exact hs.putBundle (hs.bundles hentry)
  | unknown hpending hentry => exact hs.putBundle (by simp [infoRows])

theorem tagged_confirmed {h : Nat} (hs : s.Tagged T) (hcase : ConfirmedCase h m s s') :
    s'.Tagged T := by
  cases hcase with
  | again => exact hs
  | submitted hentry hlatest hpush => exact hs.putBundle (hs.bundles hentry)
  | unexpected hentry hlatest hspend hpush =>
      have hrows := hs.bundles hentry
      exact (hs.withCoins (spendBundleUtxos_tagged hs.coins hrows hspend)).putBundle hrows
  | unknown hheight hentry hlatest hpush =>
      refine (hs.withCoins (spendAllUtxos_tagged hs.coins m)).putBundle ?_
      exact fun row hrow => hs.coins.utxos (mem_toList_iff.mp hrow)

theorem tagged_failed {h : Nat} (hs : s.Tagged T) (hcase : FailedCase h m s s') :
    s'.Tagged T := by
  cases hcase with
  | again => exact hs
  | submitted hentry hlatest hfailed hpush =>
      have hrows := hs.bundles hentry
      refine PegState.Tagged.putBundle ?_ hrows
      exact ⟨reinstateUtxos_tagged hs.coins hrows, hs.bundles⟩
  | unspent hentry hlatest hunspent hpush => exact hs.putBundle (hs.bundles hentry)

theorem tagged_unsubmitted {h : Nat} (hs : s.Tagged T) (hcase : UnsubmittedCase h m s s') :
    s'.Tagged T := by
  cases hcase with
  | absent => exact hs
  | pending hentry hpop hlatest hheight hprev hunspend =>
      have hrows := hs.bundles hentry
      have hcoins := unspendBundleUtxos_tagged hs.coins
        (fun row hrow => hrows row (List.mem_reverse.mp hrow)) hunspend
      exact ((hs.withCoins hcoins).setPending (some m)).putBundle hrows
  | recorded hentry => exact hs.putBundle (hs.bundles hentry)
  | first => exact hs.deleteBundle m

theorem tagged_unconfirmed {h : Nat} (hs : s.Tagged T) (hcase : UnconfirmedCase h m s s') :
    s'.Tagged T := by
  cases hcase with
  | kept => exact hs
  | unexpected hentry hpop hprev hunspend =>
      have hrows := hs.bundles hentry
      exact (hs.withCoins (unconfirmUtxos_tagged hs.coins hrows hunspend)).putBundle hrows
  | unknownConfirmed hentry hpop hprev hunspend =>
      exact (hs.withCoins (unconfirmUtxos_tagged hs.coins (hs.bundles hentry)
        hunspend)).putBundle (by simp [infoRows])
  | recorded hentry => exact hs.putBundle (hs.bundles hentry)

theorem tagged_unfailed {h : Nat} (hs : s.Tagged T) (hcase : UnfailedCase h m s s') :
    s'.Tagged T := by
  cases hcase with
  | kept => exact hs
  | submitted hentry hpop hprev hspend hfailed =>
      have hrows := hs.bundles hentry
      have hcoins := respendUtxos_tagged hs.coins
        (fun row hrow => hrows row (List.mem_reverse.mp hrow)) hspend
      refine PegState.Tagged.putBundle ?_ hrows
      exact ⟨hcoins, hs.bundles⟩
  | recorded hentry => exact hs.putBundle (hs.bundles hentry)

theorem tagged_created {L : BundleLib} {h : Nat} (hs : s.Tagged T)
    (hcase : CreateCase L h s s') : s'.Tagged T := by
  cases hcase with
  | nothing => exact hs
  | created hgap hpending hcollect hstatus =>
      refine (hs.setPending _).putBundle ?_
      exact fun row hrow => hs.coins.utxos (utxos_of_collectWithdrawalBundle hcollect row hrow)

theorem tagged_dropped {h : Nat} (hs : s.Tagged T) (hcase : DropCase h s s') :
    s'.Tagged T := by
  cases hcase with
  | kept => exact hs
  | dropped hgap hpending hentry => exact (hs.setPending none).putBundle (hs.bundles hentry)
  | deleted => exact (hs.setPending none).deleteBundle _

/-- The deposits of peg data are tagged like their mainchain outpoints. -/
def DepositsTagged (T : Tags) (data : TwoWayPegData) : Prop :=
  ∀ info ∈ data.blockInfo, ∀ d, BlockEvent.deposit d ∈ info.events →
    RowTagged T (d.outpoint, d.output)

theorem tagged_connect {L : BundleLib} {height : Option Nat} {data : TwoWayPegData}
    (hs : s.Tagged T) (hdeposits : DepositsTagged T data)
    (h : connect L height s data = .ok s') : s'.Tagged T := by
  simp only [connect, connectEvents, bind_eq_ok_iff] at h
  obtain ⟨blockHeight, -, acc, hevents, hcreate⟩ := h
  have hacc : acc.state.Tagged T := by
    refine foldlM_preserves (P := fun acc : ConnectAcc => acc.state.Tagged T) ?_ hevents hs
    rintro ⟨hash, event⟩ hmem a a' ha hstep
    have hcase := connectEvent_cases hstep
    generalize a'.state = s₁ at hcase
    cases hcase with
    | deposit d =>
        refine ha.withCoins (ha.coins.insertUtxo ?_)
        simp only [events, List.mem_flatMap, List.mem_map] at hmem
        obtain ⟨info, hinfo, _, hd, heq⟩ := hmem
        obtain ⟨rfl, rfl⟩ := Prod.mk.inj heq
        exact hdeposits info hinfo d hd
    | submitted hcase => exact tagged_submitted ha hcase
    | confirmed hcase => exact tagged_confirmed ha hcase
    | failed hcase => exact tagged_failed ha hcase
  have hrecorded : (recordEvents acc blockHeight).Tagged T := ⟨hacc.coins, hacc.bundles⟩
  exact tagged_created hrecorded (createPendingBundle_cases hcreate)

theorem tagged_disconnect {height : Option Nat} {data : TwoWayPegData} (hs : s.Tagged T)
    (h : disconnect height s data = .ok s') : s'.Tagged T := by
  simp only [disconnect, disconnectEvents, bind_eq_ok_iff, Except.ok.injEq] at h
  obtain ⟨blockHeight, -, acc, hevents, _, -, dropped, hdrop, _, -, rfl⟩ := h
  have hacc : acc.state.Tagged T := by
    refine foldlM_preserves (P := fun acc : DisconnectAcc => acc.state.Tagged T) ?_ hevents
      ⟨hs.coins, hs.bundles⟩
    rintro ⟨hash, event⟩ - a a' ha hstep
    cases event with
    | deposit d =>
        have hdelete := ha.coins.deleteUtxo d.outpoint
        simp only [disconnectEvent] at hstep
        split at hstep
        · cases hstep
        · rename_i heq
          rw [heq] at hdelete
          rw [← Except.ok.inj hstep]
          exact ha.withCoins hdelete
    | withdrawalBundle bundleEvent =>
        obtain ⟨m, status⟩ := bundleEvent
        simp only [disconnectEvent, bind_eq_ok_iff, Except.ok.injEq] at hstep
        obtain ⟨s₁, hevent, rfl⟩ := hstep
        cases status with
        | submitted =>
            exact tagged_unsubmitted ha (disconnectWithdrawalBundleSubmitted_cases hevent)
        | confirmed =>
            exact tagged_unconfirmed ha (disconnectWithdrawalBundleConfirmed_cases hevent)
        | failed => exact tagged_unfailed ha (disconnectWithdrawalBundleFailed_cases hevent)
  have hdropped : dropped.Tagged T := by
    refine tagged_dropped ?_ (dropPendingBundle_cases hdrop)
    exact ⟨hacc.coins, hacc.bundles⟩
  exact ⟨hdropped.coins, hdropped.bundles⟩

end TwoWayPeg

end Truthcoin
