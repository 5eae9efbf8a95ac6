import Truthcoin.CoinStages
import Truthcoin.Disconnect
import Truthcoin.TreasuryFrames

/-!
# Undoing transactions

A transaction is undone from the table of spent outputs, on coins that match those after it.
-/

namespace Truthcoin.CoinReverts

open Truthcoin.Types Truthcoin.Table Truthcoin.Fallible Truthcoin.Blocks Truthcoin.Apply
open Truthcoin.Disconnect Truthcoin.Commitments Truthcoin.CoinStages Truthcoin.TreasuryFrames

variable {F : Type} {L : Library F} {c c' d d' : Coins}

/-- A transaction creates outputs at its outpoints, and its inputs are spent. -/
structure Transacts (L : Library F) (tx : Transaction F) (c c' : Coins) : Prop where
  utxos : ∀ o ∉ regularOutpoints (L.txid tx) tx,
    c'.utxos[o]? = if o ∈ tx.inputs then none else c.utxos[o]?
  spent : ∀ o ∈ tx.inputs, ∃ output inpoint,
    c.utxos[o]? = some output ∧ c'.stxos[o]? = some ⟨output, inpoint⟩
  stxos : ∀ o ∉ tx.inputs, c'.stxos[o]? = c.stxos[o]?

theorem stxos_of_spendInputs {txid : Txid} {entries : List (OutPoint × Nat)}
    (h : entries.foldlM (spendInput txid) c = .ok c') :
    (∀ o ∈ entries.map Prod.fst, ∃ output inpoint,
      c.utxos[o]? = some output ∧ c'.stxos[o]? = some ⟨output, inpoint⟩) ∧
      ∀ o ∉ entries.map Prod.fst, c'.stxos[o]? = c.stxos[o]? := by
  induction entries generalizing c with
  | nil =>
      rw [← Except.ok.inj h]
      exact ⟨by simp, fun _ _ => rfl⟩
  | cons entry entries ih =>
      obtain ⟨c₁, hfirst, hrest⟩ := bind_eq_ok_iff.mp h
      simp only [spendInput, bind_eq_ok_iff, okOr_eq_ok_iff, Except.ok.injEq] at hfirst
      obtain ⟨output, hunspent, rfl⟩ := hfirst
      obtain ⟨hspent, hother⟩ := ih hrest
      rw [List.map_cons]
      constructor
      · intro o ho
        by_cases hmem : o ∈ entries.map Prod.fst
        · obtain ⟨output', inpoint, hutxo, hstxo⟩ := hspent o hmem
          rw [Coins.putStxo_utxos, Coins.deleteUtxo_utxos] at hutxo
          split at hutxo
          · cases hutxo
          · exact ⟨output', inpoint, hutxo, hstxo⟩
        · obtain rfl := (List.mem_cons.mp ho).resolve_right hmem
          refine ⟨output, .regular txid entry.2, hunspent, ?_⟩
          rw [hother _ hmem, Coins.putStxo_stxos, if_pos rfl]
      · intro o ho
        rw [List.mem_cons, not_or] at ho
        rw [hother o ho.2, Coins.putStxo_stxos, if_neg (Ne.symm ho.1), Coins.deleteUtxo_stxos]

theorem createdRows_keys (tx : Transaction F) :
    (createdRows L tx).map Prod.fst = regularOutpoints (L.txid tx) tx := by
  rw [createdRows, regularOutpoints, List.map_map, List.range_eq_range', ← List.zipIdx_map_snd,
    List.map_map]
  rfl

theorem transacts_of_applyUtxoChanges {tx : FilledTransaction F}
    (h : applyUtxoChanges L c tx = .ok c') : Transacts L tx.transaction c c' := by
  have hcreated := applyUtxoChanges_eq_ok h
  simp only [applyUtxoChanges, FilledTransaction.filledOutputs, bind_eq_ok_iff, okOr_eq_ok_iff,
    Except.ok.injEq] at h
  obtain ⟨spent, hspent, _, ⟨left, -, rfl⟩, outputs, -, hlast⟩ := h
  obtain ⟨hinputs, hother⟩ := stxos_of_spendInputs hspent
  rw [List.zipIdx_map_fst] at hinputs hother
  have hstxos : c'.stxos = spent.stxos := by
    rw [← hlast, TransactionValue.createOutputs_eq, Coins.insertRows_stxos]
  refine ⟨fun o ho => ?_, ?_, ?_⟩
  · obtain ⟨_, hutxos, rfl⟩ := hcreated
    rw [← createdRows_keys] at ho
    rw [Coins.insertRows_utxos_of_not_mem ho, hutxos, Coins.deleteOutpoints_utxos]
  · rwa [hstxos]
  · rwa [hstxos]

theorem Transacts.brings {tx : Transaction F} (h : Transacts L tx c c') :
    c.Brings (· ∈ regularOutpoints (L.txid tx) tx) c' := by
  rintro o ho ⟨hutxo, hstxo⟩
  have hinput : o ∉ tx.inputs := by
    intro hmem
    obtain ⟨output, inpoint, hunspent, -⟩ := h.spent o hmem
    rw [hutxo] at hunspent
    cases hunspent
  exact ⟨by rw [h.utxos o ho, if_neg hinput, hutxo], by rw [h.stxos o hinput, hstxo]⟩

theorem coins_of_removeOutputs {os : List OutPoint} (h : os.foldlM removeOutput c = .ok c') :
    c' = deleteOutpoints c os := by
  induction os generalizing c with
  | nil => exact (Except.ok.inj h).symm
  | cons o os ih =>
      obtain ⟨c₁, hfirst, hrest⟩ := bind_eq_ok_iff.mp h
      simp only [removeOutput, bind_eq_ok_iff, Except.ok.injEq] at hfirst
      obtain ⟨_, -, rfl⟩ := hfirst
      exact ih hrest

theorem coins_of_unspendInputs {os : List OutPoint} (h : os.foldlM unspendInput c = .ok c') :
    (∀ o ∈ os, ∃ spent, c.stxos[o]? = some spent ∧ c'.utxos[o]? = some spent.output ∧
        c'.stxos[o]? = none) ∧
      ∀ o ∉ os, c'.utxos[o]? = c.utxos[o]? ∧ c'.stxos[o]? = c.stxos[o]? := by
  induction os generalizing c with
  | nil =>
      rw [← Except.ok.inj h]
      exact ⟨by simp, fun _ _ => ⟨rfl, rfl⟩⟩
  | cons first os ih =>
      obtain ⟨c₁, hfirst, hrest⟩ := bind_eq_ok_iff.mp h
      simp only [unspendInput, bind_eq_ok_iff, okOr_eq_ok_iff, Except.ok.injEq] at hfirst
      obtain ⟨spent, hspent, rfl⟩ := hfirst
      obtain ⟨hgiven, hother⟩ := ih hrest
      constructor
      · intro o ho
        by_cases hmem : o ∈ os
        · obtain ⟨spent', hstxo, hback⟩ := hgiven o hmem
          rw [Coins.insertUtxo_stxos, Coins.deleteStxo_stxos] at hstxo
          split at hstxo
          · cases hstxo
          · exact ⟨spent', hstxo, hback⟩
        · obtain rfl := (List.mem_cons.mp ho).resolve_right hmem
          obtain ⟨hutxo, hstxo⟩ := hother _ hmem
          rw [Coins.insertUtxo_utxos, if_pos rfl] at hutxo
          rw [Coins.insertUtxo_stxos, Coins.deleteStxo_stxos, if_pos rfl] at hstxo
          exact ⟨spent, hspent, hutxo, hstxo⟩
      · intro o ho
        rw [List.mem_cons, not_or] at ho
        obtain ⟨hutxo, hstxo⟩ := hother o ho.2
        rw [Coins.insertUtxo_utxos, if_neg (Ne.symm ho.1)] at hutxo
        rw [Coins.insertUtxo_stxos, Coins.deleteStxo_stxos, if_neg (Ne.symm ho.1)] at hstxo
        exact ⟨hutxo, hstxo⟩

/-- Undoing the outputs of a transaction, which has created new ones. -/
theorem Transacts.undo {tx : Transaction F} (h : Transacts L tx c c')
    (hunused : ∀ o ∈ regularOutpoints (L.txid tx) tx, c.Unused o) (hd : c'.Matches d)
    (hback : revertUtxoChanges L d tx = .ok d') : c.Matches d' := by
  obtain ⟨removed, hremoved, hgiven⟩ := bind_eq_ok_iff.mp hback
  obtain rfl := coins_of_removeOutputs hremoved
  obtain ⟨hinputs, hother⟩ := coins_of_unspendInputs hgiven
  -- an input is in the table of spent outputs with the output that it had
  have hinput : ∀ o ∈ tx.inputs, d'.utxos[o]? = c.utxos[o]? ∧ c.utxos[o]? ≠ none ∧
      d'.stxos[o]? = none := by
    intro o ho
    obtain ⟨spent, hstxo, hutxo, hgone⟩ := hinputs o (List.mem_reverse.mpr ho)
    obtain ⟨output, inpoint, hunspent, hrecord⟩ := h.spent o ho
    rw [Coins.deleteOutpoints_stxos] at hstxo
    rcases hd.stxos o with hsame | ⟨-, hnone⟩
    · rw [hsame, hrecord] at hstxo
      rw [hutxo, hunspent, ← Option.some.inj hstxo]
      exact ⟨rfl, by simp, hgone⟩
    · rw [hnone] at hstxo
      cases hstxo
  constructor
  · apply ext_lookup
    intro o
    by_cases ho : o ∈ tx.inputs
    · exact (hinput o ho).1
    · rw [(hother o (mt List.mem_reverse.mp ho)).1, Coins.deleteOutpoints_utxos, hd.utxos]
      split
      · rename_i hmade
        exact (hunused o (List.mem_reverse.mp hmade)).1.symm
      · rename_i hmade
        rw [h.utxos o (mt List.mem_reverse.mpr hmade), if_neg ho]
  · intro o
    by_cases ho : o ∈ tx.inputs
    · exact .inr (hinput o ho).2
    · rw [(hother o (mt List.mem_reverse.mp ho)).2, Coins.deleteOutpoints_stxos]
      rcases hd.stxos o with hsame | ⟨hunspent, hnone⟩
      · exact .inl (hsame.trans (h.stxos o ho))
      · by_cases hmade : o ∈ regularOutpoints (L.txid tx) tx
        · exact .inl (hnone.trans (hunused o hmade).2.symm)
        · rw [h.utxos o hmade, if_neg ho] at hunspent
          exact .inr ⟨hunspent, hnone⟩

theorem makes_of_regularOutpoints {block : Block F} {height : Nat} {tx : Transaction F}
    (htx : tx ∈ block.body.transactions) :
    ∀ o ∈ regularOutpoints (L.txid tx) tx, Makes L block height (.transaction (L.txid tx)) o := by
  intro o ho
  obtain ⟨vout, -, rfl⟩ := List.mem_map.mp ho
  exact .transaction htx vout

end Truthcoin.CoinReverts
