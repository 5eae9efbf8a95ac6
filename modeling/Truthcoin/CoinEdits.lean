import Truthcoin.CoinRows

/-!
# Steps on the coins

A step creates outputs at some outpoints and may spend some rows. If nothing was at the
outpoints before, deleting what was created and giving the rows back leads to the unspent
outputs before the step.
-/

namespace Truthcoin

open Truthcoin.Types Truthcoin.Table

/-- All outpoints of the unspent and of the spent outputs are in a set. -/
structure Coins.Within (P : OutPoint → Prop) (c : Coins) : Prop where
  utxos : ∀ {o output}, c.utxos[o]? = some output → P o
  stxos : ∀ {o spent}, c.stxos[o]? = some spent → P o

namespace Coins

variable {P Q : OutPoint → Prop} {c c' : Coins} {o : OutPoint} {output : FilledOutput}
variable {rows : List CoinRow} {os : List OutPoint}

theorem within_empty : empty.Within P where
  utxos h := by simp [empty] at h
  stxos h := by simp [empty] at h

theorem Within.mono (hc : c.Within P) (hPQ : ∀ o, P o → Q o) : c.Within Q :=
  ⟨fun h => hPQ _ (hc.utxos h), fun h => hPQ _ (hc.stxos h)⟩

theorem Within.absent (hc : c.Within P) (ho : ¬ P o) :
    c.utxos[o]? = none ∧ c.stxos[o]? = none := by
  refine ⟨Option.eq_none_iff_forall_ne_some.mpr fun _ h => ho (hc.utxos h),
    Option.eq_none_iff_forall_ne_some.mpr fun _ h => ho (hc.stxos h)⟩

theorem Within.insertUtxo (hc : c.Within P) (ho : P o) : (c.insertUtxo o output).Within P where
  utxos {o' output'} h := by
    rw [insertUtxo_utxos] at h
    split at h
    · rename_i heq
      exact heq ▸ ho
    · exact hc.utxos h
  stxos h := hc.stxos h

theorem Within.deleteUtxo (hc : c.Within P) (o : OutPoint) : (c.deleteUtxo o).1.Within P where
  utxos h := by
    rw [deleteUtxo_utxos] at h
    split at h
    · cases h
    · exact hc.utxos h
  stxos h := hc.stxos (by simpa using h)

theorem Within.putStxo (hc : c.Within P) (ho : P o) (spent : SpentOutput) :
    (c.putStxo o spent).Within P where
  utxos h := hc.utxos h
  stxos h := by
    rw [putStxo_stxos] at h
    split at h
    · rename_i heq
      exact heq ▸ ho
    · exact hc.stxos h

theorem Within.deleteStxo (hc : c.Within P) (o : OutPoint) : (c.deleteStxo o).1.Within P where
  utxos h := hc.utxos h
  stxos h := by
    rw [deleteStxo_stxos] at h
    split at h
    · cases h
    · exact hc.stxos h

theorem Within.insertRows (hc : c.Within P) (hrows : ∀ row ∈ rows, P row.1) :
    (insertRows c rows).Within P := by
  induction rows generalizing c with
  | nil => exact hc
  | cons row rows ih =>
      exact ih (hc.insertUtxo (hrows row List.mem_cons_self))
        fun row' hrow' => hrows row' (List.mem_cons_of_mem row hrow')

theorem Within.deleteOutpoints (hc : c.Within P) (os : List OutPoint) :
    (deleteOutpoints c os).Within P := by
  induction os generalizing c with
  | nil => exact hc
  | cons o os ih => exact ih (hc.deleteUtxo o)

/-- Nothing is or was at an outpoint. -/
def Unused (c : Coins) (o : OutPoint) : Prop :=
  c.utxos[o]? = none ∧ c.stxos[o]? = none

/-- A step that uses new outpoints of a set only. -/
def Brings (P : OutPoint → Prop) (c c' : Coins) : Prop :=
  ∀ o, ¬ P o → c.Unused o → c'.Unused o

theorem Brings.refl (c : Coins) : Brings P c c :=
  fun _ _ h => h

theorem Brings.trans {c'' : Coins} (h : Brings P c c') (h' : Brings P c' c'') :
    Brings P c c'' :=
  fun o ho hunused => h' o ho (h o ho hunused)

theorem Brings.mono (h : Brings P c c') (hPQ : ∀ o, P o → Q o) : Brings Q c c' :=
  fun o ho => h o fun hP => ho (hPQ o hP)

theorem Within.brings (hc : c.Within P) (h : Brings P c c') : c'.Within P where
  utxos {o output} ho := by
    by_contra hP
    have hunused := h o hP (hc.absent hP)
    rw [hunused.1] at ho
    cases ho
  stxos {o spent} ho := by
    by_contra hP
    have hunused := h o hP (hc.absent hP)
    rw [hunused.2] at ho
    cases ho

/-- A step that creates outputs at some outpoints and deletes outputs at others. -/
structure Changes (made gone : List OutPoint) (c c' : Coins) : Prop where
  utxos : ∀ o ∉ made, c'.utxos[o]? = c.utxos[o]? ∨ o ∈ gone ∧ c'.utxos[o]? = none
  stxos : c'.stxos = c.stxos

variable {made made' gone gone' : List OutPoint} {spent : List CoinRow}

theorem Changes.refl (c : Coins) : Changes [] [] c c :=
  ⟨fun _ _ => .inl rfl, rfl⟩

theorem Changes.mono (h : Changes made gone c c') (hmade : ∀ o ∈ made, o ∈ made')
    (hgone : ∀ o ∈ gone, o ∈ gone') : Changes made' gone' c c' where
  utxos o ho := (h.utxos o (mt (hmade o) ho)).imp_right fun hout => ⟨hgone o hout.1, hout.2⟩
  stxos := h.stxos

theorem Changes.trans {c'' : Coins} (h : Changes made gone c c') (h' : Changes made' gone' c' c'') :
    Changes (made ++ made') (gone ++ gone') c c'' where
  utxos o ho := by
    rw [List.mem_append, not_or] at ho
    rcases h'.utxos o ho.2 with hsame | ⟨hout, hnone⟩
    · rw [hsame]
      exact (h.utxos o ho.1).imp_right fun hout => ⟨List.mem_append_left _ hout.1, hout.2⟩
    · exact .inr ⟨List.mem_append_right _ hout, hnone⟩
  stxos := h'.stxos.trans h.stxos

theorem changes_insertRows (rows : List CoinRow) (c : Coins) :
    Changes (rows.map Prod.fst) [] c (Truthcoin.insertRows c rows) where
  utxos _ ho := .inl (insertRows_utxos_of_not_mem ho)
  stxos := insertRows_stxos

theorem changes_deleteOutpoints (os : List OutPoint) (c : Coins) :
    Changes [] os c (Truthcoin.deleteOutpoints c os) where
  utxos o _ := by
    rw [deleteOutpoints_utxos]
    split
    · rename_i hmem
      exact .inr ⟨hmem, rfl⟩
    · exact .inl rfl
  stxos := deleteOutpoints_stxos

theorem Changes.brings (h : Changes made gone c c') : Brings (· ∈ made) c c' := by
  rintro o ho ⟨hutxo, hstxo⟩
  refine ⟨?_, by rw [h.stxos, hstxo]⟩
  rcases h.utxos o ho with hsame | ⟨-, hnone⟩
  · rw [hsame, hutxo]
  · exact hnone

/-- A step that creates outputs at some outpoints, and spends rows or leaves them. -/
structure Edits (made : List OutPoint) (spent : List CoinRow) (c c' : Coins) : Prop where
  present : ∀ row ∈ spent, c.utxos[row.1]? = some row.2
  changes : Changes made (spent.map Prod.fst) c c'

/-- Coins with the same unspent outputs. Outputs that are spent and unspent again may have left
their row in one of the tables of spent outputs. -/
structure Matches (c d : Coins) : Prop where
  utxos : d.utxos = c.utxos
  stxos : ∀ o : OutPoint,
    d.stxos[o]? = c.stxos[o]? ∨ c.utxos[o]? ≠ none ∧ d.stxos[o]? = none

theorem Matches.refl (c : Coins) : c.Matches c :=
  ⟨rfl, fun _ => .inl rfl⟩

theorem utxos_insertRows_present (h : ∀ row ∈ rows, c'.utxos[row.1]? = some row.2)
    (o : OutPoint) :
    (insertRows c rows).utxos[o]? =
      if o ∈ rows.map Prod.fst then c'.utxos[o]? else c.utxos[o]? := by
  induction rows generalizing c with
  | nil => simp
  | cons row rows ih =>
      rw [insertRows_cons, ih fun row' hrow' => h row' (List.mem_cons_of_mem row hrow'),
        insertUtxo_utxos, List.map_cons]
      by_cases hmem : o ∈ rows.map Prod.fst
      · rw [if_pos hmem, if_pos (List.mem_cons_of_mem _ hmem)]
      · rw [if_neg hmem]
        by_cases ho : row.1 = o
        · subst ho
          rw [if_pos rfl, if_pos List.mem_cons_self, h row List.mem_cons_self]
        · rw [if_neg ho, if_neg]
          exact fun hcons => (List.mem_cons.mp hcons).elim (fun heq => ho heq.symm) hmem

theorem Edits.undo (h : Edits made spent c c') (hunused : ∀ o ∈ made, c.Unused o) {d : Coins}
    (hd : c'.Matches d) :
    c.Matches (Truthcoin.insertRows (Truthcoin.deleteOutpoints d made) spent) where
  utxos := by
    apply ext_lookup
    intro o
    rw [utxos_insertRows_present h.present, deleteOutpoints_utxos, hd.utxos]
    split
    · rfl
    · rename_i hspent
      split
      · rename_i hmade
        exact (hunused o hmade).1.symm
      · rename_i hmade
        rcases h.changes.utxos o hmade with hsame | ⟨hmem, -⟩
        · exact hsame
        · exact absurd hmem hspent
  stxos o := by
    rw [insertRows_stxos, deleteOutpoints_stxos]
    rcases hd.stxos o with hsame | ⟨hunspent, hnone⟩
    · exact .inl (hsame.trans (by rw [h.changes.stxos]))
    · by_cases hmade : o ∈ made
      · exact .inl (hnone.trans (hunused o hmade).2.symm)
      · refine .inr ⟨?_, hnone⟩
        rcases h.changes.utxos o hmade with hsame | ⟨-, hgone⟩
        · rwa [← hsame]
        · exact absurd hgone hunspent

end Coins

end Truthcoin
