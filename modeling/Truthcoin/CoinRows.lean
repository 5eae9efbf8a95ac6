import Truthcoin.Coins

/-!
# Rows of the UTXO set

Inserting and deleting lists of outputs, when the one undoes the other, and what
both do to the value of the set.
-/

namespace Truthcoin

open Truthcoin.Types Truthcoin.Table

def insertRow (c : Coins) (row : CoinRow) : Coins :=
  c.insertUtxo row.1 row.2

def insertRows (c : Coins) (rows : List CoinRow) : Coins :=
  rows.foldl insertRow c

/-- Delete outputs, some of which may be missing. -/
def deleteOutpoints (c : Coins) (outpoints : List OutPoint) : Coins :=
  outpoints.foldl (fun c outpoint => (c.deleteUtxo outpoint).1) c

def rowValues (rows : List CoinRow) : List Nat :=
  rows.map fun row => row.2.getBitcoinValue

namespace Coins

variable {c c' : Coins} {o o' : OutPoint} {output output' : FilledOutput}
variable {rows : List CoinRow} {os : List OutPoint}

theorem ext_rows (hutxos : c.utxos = c'.utxos)
    (hindex : ∀ k, k ∈ c.utxosByAddress ↔ k ∈ c'.utxosByAddress)
    (hstxos : c.stxos = c'.stxos) : c = c' := by
  have haddress : c.utxosByAddress = c'.utxosByAddress := by
    apply ext_lookup
    intro k
    by_cases hk : k ∈ c.utxosByAddress
    · rw [getElem?_pos _ _ hk, getElem?_pos _ _ ((hindex k).mp hk)]
    · rw [getElem?_neg _ _ hk, getElem?_neg _ _ (fun h => hk ((hindex k).mpr h))]
  cases c
  cases c'
  simp_all

/-- No output and no row of the address index has the outpoint. -/
def Absent (c : Coins) (o : OutPoint) : Prop :=
  c.utxos[o]? = none ∧ ∀ a, (⟨a, o⟩ : AddressKey) ∉ c.utxosByAddress

/-- Every unspent output has its row in the address index. -/
def Covered (c : Coins) : Prop :=
  ∀ o output, c.utxos[o]? = some output →
    (⟨output.address, o⟩ : AddressKey) ∈ c.utxosByAddress

@[simp]
theorem mem_insertUtxo_index {k : AddressKey} :
    k ∈ (c.insertUtxo o output).utxosByAddress ↔
      ⟨output.address, o⟩ = k ∨ k ∈ c.utxosByAddress := by
  simp [insertUtxo, Std.ExtTreeMap.mem_insert]

theorem mem_deleteUtxo_index {k : AddressKey} :
    k ∈ (c.deleteUtxo o).1.utxosByAddress ↔
      k ∈ c.utxosByAddress ∧
        ∀ output, c.utxos[o]? = some output → ⟨output.address, o⟩ ≠ k := by
  unfold deleteUtxo
  cases ho : c.utxos[o]? with
  | none => simp
  | some output => simp [Std.ExtTreeMap.mem_erase, and_comm]

theorem deleteUtxo_insertUtxo_comm (hne : o ≠ o') :
    ((c.insertUtxo o output).deleteUtxo o').1 = (c.deleteUtxo o').1.insertUtxo o output := by
  apply ext_rows
  · apply ext_lookup
    intro k
    simp only [deleteUtxo_utxos, insertUtxo_utxos]
    grind
  · intro k
    rw [mem_deleteUtxo_index, mem_insertUtxo_index, mem_insertUtxo_index,
      mem_deleteUtxo_index, insertUtxo_utxos, if_neg hne]
    constructor
    · rintro ⟨heq | hk, hdel⟩
      · exact .inl heq
      · exact .inr ⟨hk, hdel⟩
    · rintro (rfl | ⟨hk, hdel⟩)
      · exact ⟨.inl rfl, fun _ _ heq => hne (AddressKey.mk.inj heq).2.symm⟩
      · exact ⟨.inr hk, hdel⟩
  · simp

theorem deleteUtxo_deleteUtxo_comm :
    ((c.deleteUtxo o).1.deleteUtxo o').1 = ((c.deleteUtxo o').1.deleteUtxo o).1 := by
  by_cases hne : o = o'
  · rw [hne]
  apply ext_rows
  · apply ext_lookup
    intro k
    simp only [deleteUtxo_utxos]
    grind
  · intro k
    simp only [mem_deleteUtxo_index, deleteUtxo_utxos, if_neg hne, if_neg (Ne.symm hne)]
    tauto
  · simp

theorem insertUtxo_insertUtxo_comm (hne : o ≠ o') :
    (c.insertUtxo o output).insertUtxo o' output' =
      (c.insertUtxo o' output').insertUtxo o output := by
  apply ext_rows
  · apply ext_lookup
    intro k
    simp only [insertUtxo_utxos]
    grind
  · intro k
    simp only [mem_insertUtxo_index]
    exact or_left_comm
  · simp

theorem Absent.insertUtxo (h : c.Absent o) (hne : o' ≠ o) :
    (c.insertUtxo o' output).Absent o := by
  refine ⟨?_, ?_⟩
  · rw [insertUtxo_utxos, if_neg hne, h.1]
  · intro a hmem
    rcases mem_insertUtxo_index.mp hmem with heq | hold
    · exact hne (AddressKey.mk.inj heq).2
    · exact h.2 a hold

theorem Absent.deleteUtxo (h : c.Absent o) : (c.deleteUtxo o').1.Absent o := by
  refine ⟨?_, ?_⟩
  · rw [deleteUtxo_utxos, h.1]
    split <;> rfl
  · intro a hmem
    exact h.2 a (mem_deleteUtxo_index.mp hmem).1

theorem Covered.insertUtxo (h : c.Covered) : (c.insertUtxo o output).Covered := by
  intro o' output' hlookup
  rw [mem_insertUtxo_index]
  rw [insertUtxo_utxos] at hlookup
  split at hlookup
  · rename_i heq
    rw [← heq, Option.some.inj hlookup]
    exact .inl rfl
  · exact .inr (h o' output' hlookup)

theorem Covered.deleteUtxo (h : c.Covered) : (c.deleteUtxo o).1.Covered := by
  intro o' output' hlookup
  rw [deleteUtxo_utxos] at hlookup
  split at hlookup
  · cases hlookup
  · rename_i hne
    rw [mem_deleteUtxo_index]
    refine ⟨h o' output' hlookup, ?_⟩
    intro _ _ heq
    exact hne (AddressKey.mk.inj heq).2

@[simp]
theorem insertRows_nil : insertRows c [] = c := rfl

@[simp]
theorem insertRows_cons (row : CoinRow) :
    insertRows c (row :: rows) = insertRows (c.insertUtxo row.1 row.2) rows := rfl

theorem insertRows_append (rows' : List CoinRow) :
    insertRows c (rows ++ rows') = insertRows (insertRows c rows) rows' := by
  simp [insertRows, List.foldl_append]

@[simp]
theorem deleteOutpoints_nil : deleteOutpoints c [] = c := rfl

@[simp]
theorem deleteOutpoints_cons :
    deleteOutpoints c (o :: os) = deleteOutpoints (c.deleteUtxo o).1 os := rfl

theorem deleteOutpoints_append (os' : List OutPoint) :
    deleteOutpoints c (os ++ os') = deleteOutpoints (deleteOutpoints c os) os' := by
  simp [deleteOutpoints, List.foldl_append]

@[simp]
theorem insertRows_stxos : (insertRows c rows).stxos = c.stxos := by
  induction rows generalizing c with
  | nil => rfl
  | cons row rows ih => rw [insertRows_cons, ih, insertUtxo_stxos]

@[simp]
theorem deleteOutpoints_stxos : (deleteOutpoints c os).stxos = c.stxos := by
  induction os generalizing c with
  | nil => rfl
  | cons o os ih => rw [deleteOutpoints_cons, ih, deleteUtxo_stxos]

theorem deleteOutpoints_utxos :
    (deleteOutpoints c os).utxos[o]? = if o ∈ os then none else c.utxos[o]? := by
  induction os generalizing c with
  | nil => simp
  | cons o' os ih =>
      rw [deleteOutpoints_cons, ih, deleteUtxo_utxos]
      grind

theorem insertRows_utxos_of_not_mem (h : o ∉ rows.map Prod.fst) :
    (insertRows c rows).utxos[o]? = c.utxos[o]? := by
  induction rows generalizing c with
  | nil => rfl
  | cons row rows ih =>
      rw [List.map_cons, List.mem_cons, not_or] at h
      rw [insertRows_cons, ih h.2, insertUtxo_utxos, if_neg (Ne.symm h.1)]

theorem Absent.insertRows (h : c.Absent o) (hne : o ∉ rows.map Prod.fst) :
    (insertRows c rows).Absent o := by
  induction rows generalizing c with
  | nil => exact h
  | cons row rows ih =>
      rw [List.map_cons, List.mem_cons, not_or] at hne
      exact ih (h.insertUtxo (Ne.symm hne.1)) hne.2

theorem Absent.deleteOutpoints (h : c.Absent o) : (deleteOutpoints c os).Absent o := by
  induction os generalizing c with
  | nil => exact h
  | cons o' os ih => exact ih h.deleteUtxo

theorem Covered.insertRows (h : c.Covered) : (insertRows c rows).Covered := by
  induction rows generalizing c with
  | nil => exact h
  | cons row rows ih => exact ih h.insertUtxo

theorem Covered.deleteOutpoints (h : c.Covered) : (deleteOutpoints c os).Covered := by
  induction os generalizing c with
  | nil => exact h
  | cons o os ih => exact ih h.deleteUtxo

theorem deleteUtxo_insertRows_comm (h : o ∉ rows.map Prod.fst) :
    ((insertRows c rows).deleteUtxo o).1 = insertRows (c.deleteUtxo o).1 rows := by
  induction rows generalizing c with
  | nil => rfl
  | cons row rows ih =>
      rw [List.map_cons, List.mem_cons, not_or] at h
      rw [insertRows_cons, ih h.2, deleteUtxo_insertUtxo_comm (Ne.symm h.1), insertRows_cons]

theorem deleteOutpoints_insertRows_comm (h : ∀ o ∈ os, o ∉ rows.map Prod.fst) :
    deleteOutpoints (insertRows c rows) os = insertRows (deleteOutpoints c os) rows := by
  induction os generalizing c with
  | nil => rfl
  | cons o os ih =>
      rw [deleteOutpoints_cons, deleteUtxo_insertRows_comm (h o (by simp)),
        ih (fun o' ho' => h o' (by simp [ho'])), deleteOutpoints_cons]

theorem deleteOutpoints_perm {os' : List OutPoint} (h : os.Perm os') :
    deleteOutpoints c os = deleteOutpoints c os' := by
  induction h generalizing c with
  | nil => rfl
  | cons o _ ih => exact ih
  | swap o o' os =>
      simp only [deleteOutpoints_cons]
      rw [deleteUtxo_deleteUtxo_comm]
  | trans _ _ ih ih' => exact ih.trans ih'

/-- Total bitcoin value of the unspent outputs. -/
def value (c : Coins) : Nat :=
  total FilledOutput.getBitcoinValue c.utxos

theorem value_insertUtxo_le :
    (c.insertUtxo o output).value ≤ c.value + output.getBitcoinValue :=
  total_insert_le _ _ _ _

theorem value_deleteUtxo (h : c.utxos[o]? = some output) :
    (c.deleteUtxo o).1.value + output.getBitcoinValue = c.value := by
  unfold Coins.deleteUtxo
  rw [h]
  exact total_erase_of_lookup _ h

theorem value_insertRows_le :
    (insertRows c rows).value ≤ c.value + (rowValues rows).sum := by
  induction rows generalizing c with
  | nil => simp [rowValues]
  | cons row rows ih =>
      have hrest := ih (c := c.insertUtxo row.1 row.2)
      have hfirst : (c.insertUtxo row.1 row.2).value ≤ c.value + row.2.getBitcoinValue :=
        value_insertUtxo_le
      simp only [insertRows_cons, rowValues, List.map_cons, List.sum_cons] at hrest ⊢
      omega

theorem value_outside_insertUtxo_le :
    (deleteOutpoints (c.insertUtxo o output) os).value ≤
      (deleteOutpoints c os).value + output.getBitcoinValue := by
  by_cases ho : o ∈ os
  · have hutxos : (deleteOutpoints (c.insertUtxo o output) os).utxos =
        (deleteOutpoints c os).utxos := by
      apply ext_lookup
      intro o'
      rw [deleteOutpoints_utxos, deleteOutpoints_utxos, insertUtxo_utxos]
      grind
    simp [value, hutxos]
  · have hcomm : deleteOutpoints (insertRows c [(o, output)]) os =
        insertRows (deleteOutpoints c os) [(o, output)] :=
      deleteOutpoints_insertRows_comm (by rintro o' ho' hmem; simp_all)
    rw [show c.insertUtxo o output = insertRows c [(o, output)] from rfl, hcomm]
    exact value_insertUtxo_le

theorem value_outside_insertRows_le :
    (deleteOutpoints (insertRows c rows) os).value ≤
      (deleteOutpoints c os).value + (rowValues rows).sum := by
  induction rows generalizing c with
  | nil => simp [rowValues]
  | cons row rows ih =>
      have hrest := ih (c := c.insertUtxo row.1 row.2)
      have hfirst : (deleteOutpoints (c.insertUtxo row.1 row.2) os).value ≤
          (deleteOutpoints c os).value + row.2.getBitcoinValue :=
        value_outside_insertUtxo_le
      simp only [insertRows_cons, rowValues, List.map_cons, List.sum_cons] at hrest ⊢
      omega

theorem value_deleteOutpoints (hnodup : (rows.map Prod.fst).Nodup)
    (hpresent : ∀ row ∈ rows, c.utxos[row.1]? = some row.2) :
    (deleteOutpoints c (rows.map Prod.fst)).value + (rowValues rows).sum = c.value := by
  induction rows generalizing c with
  | nil => simp [rowValues]
  | cons row rows ih =>
      rw [List.map_cons, List.nodup_cons] at hnodup
      have hkept : ∀ r ∈ rows, (c.deleteUtxo row.1).1.utxos[r.1]? = some r.2 := by
        intro r hr
        rw [deleteUtxo_utxos, if_neg, hpresent r (by simp [hr])]
        intro heq
        exact hnodup.1 (heq ▸ List.mem_map_of_mem hr)
      have hrest := ih hnodup.2 hkept
      have hfirst := value_deleteUtxo (hpresent row (by simp))
      simp only [rowValues, List.map_cons, List.sum_cons, deleteOutpoints_cons] at hrest ⊢
      omega

end Coins

end Truthcoin
