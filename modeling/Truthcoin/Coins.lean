import Truthcoin.RollBack

/-!
# The UTXO set

Unspent outputs, their index by address, and spent outputs.
-/

namespace Truthcoin

open Truthcoin.Types Truthcoin.Table

structure Coins where
  utxos : Table OutPoint FilledOutput
  utxosByAddress : Table AddressKey Unit
  stxos : Table OutPoint SpentOutput
  deriving DecidableEq

/-- An output with its outpoint. -/
abbrev CoinRow := OutPoint × FilledOutput

namespace Coins

def empty : Coins := ⟨∅, ∅, ∅⟩

def insertUtxo (c : Coins) (outpoint : OutPoint) (output : FilledOutput) : Coins :=
  { c with
    utxos := c.utxos.insert outpoint output
    utxosByAddress := c.utxosByAddress.insert ⟨output.address, outpoint⟩ () }

/-- The flag tells whether the output was in the set. -/
def deleteUtxo (c : Coins) (outpoint : OutPoint) : Coins × Bool :=
  match c.utxos[outpoint]? with
  | none => (c, false)
  | some output =>
      ({ c with
          utxos := c.utxos.erase outpoint
          utxosByAddress := c.utxosByAddress.erase ⟨output.address, outpoint⟩ },
        true)

def clearUtxos (c : Coins) : Coins :=
  { c with utxos := ∅, utxosByAddress := ∅ }

def putStxo (c : Coins) (outpoint : OutPoint) (spent : SpentOutput) : Coins :=
  { c with stxos := c.stxos.insert outpoint spent }

/-- The flag tells whether the output was in the table. -/
def deleteStxo (c : Coins) (outpoint : OutPoint) : Coins × Bool :=
  ({ c with stxos := c.stxos.erase outpoint }, c.stxos.contains outpoint)

/-- The address index has one row for each unspent output, and no other row. -/
def Indexed (c : Coins) : Prop :=
  ∀ k : AddressKey, k ∈ c.utxosByAddress ↔
    ∃ output, c.utxos[k.outpoint]? = some output ∧ output.address = k.address

/-- No output is both unspent and spent. -/
def Disjoint (c : Coins) : Prop :=
  ∀ o : OutPoint, c.utxos[o]? = none ∨ c.stxos[o]? = none

theorem indexed_empty : Indexed empty := by
  intro k
  simp [empty]

theorem disjoint_empty : Disjoint empty := by
  intro o
  simp [empty]

theorem eq_of_indexed {c c' : Coins} (hc : c.Indexed) (hc' : c'.Indexed)
    (hutxos : c.utxos = c'.utxos) (hstxos : c.stxos = c'.stxos) : c = c' := by
  have hindex : c.utxosByAddress = c'.utxosByAddress := by
    apply ext_lookup
    intro k
    have hmem : k ∈ c.utxosByAddress ↔ k ∈ c'.utxosByAddress := by
      rw [hc k, hc' k, hutxos]
    by_cases hk : k ∈ c.utxosByAddress
    · rw [getElem?_pos _ _ hk, getElem?_pos _ _ (hmem.mp hk)]
    · rw [getElem?_neg _ _ hk, getElem?_neg _ _ (fun h => hk (hmem.mpr h))]
  cases c
  cases c'
  simp_all

theorem Indexed.insertUtxo {c : Coins} (hc : c.Indexed) {o : OutPoint}
    (habsent : c.utxos[o]? = none) (output : FilledOutput) :
    (c.insertUtxo o output).Indexed := by
  rintro ⟨address, o'⟩
  have hold := hc ⟨address, o'⟩
  simp only [Coins.insertUtxo, Std.ExtTreeMap.mem_insert,
    Std.ExtTreeMap.getElem?_insert, Std.LawfulEqCmp.compare_eq_iff_eq,
    AddressKey.mk.injEq] at hold ⊢
  by_cases ho : o = o'
  · subst ho
    simp only [habsent] at hold
    simp [hold]
  · simp [ho, hold]

theorem Indexed.deleteUtxo {c : Coins} (hc : c.Indexed) (o : OutPoint) :
    (c.deleteUtxo o).1.Indexed := by
  unfold Coins.deleteUtxo
  cases ho : c.utxos[o]? with
  | none => exact hc
  | some output =>
      rintro ⟨address, o'⟩
      have hold := hc ⟨address, o'⟩
      simp only [Std.ExtTreeMap.mem_erase, Std.ExtTreeMap.getElem?_erase, ne_eq,
        Std.LawfulEqCmp.compare_eq_iff_eq, AddressKey.mk.injEq] at hold ⊢
      by_cases ho' : o = o'
      · subst ho'
        simp only [ho, Option.some.injEq, exists_eq_left'] at hold
        simp [hold]
      · simp [ho', hold]

theorem Indexed.clearUtxos (c : Coins) : c.clearUtxos.Indexed := by
  intro k
  simp [Coins.clearUtxos]

theorem Indexed.putStxo {c : Coins} (hc : c.Indexed) (o : OutPoint)
    (spent : SpentOutput) : (c.putStxo o spent).Indexed := hc

theorem Indexed.deleteStxo {c : Coins} (hc : c.Indexed) (o : OutPoint) :
    (c.deleteStxo o).1.Indexed := hc

@[simp]
theorem insertUtxo_utxos (c : Coins) (o o' : OutPoint) (output : FilledOutput) :
    (c.insertUtxo o output).utxos[o']? =
      if o = o' then some output else c.utxos[o']? := by
  simp [insertUtxo, Std.ExtTreeMap.getElem?_insert]

@[simp]
theorem insertUtxo_stxos (c : Coins) (o : OutPoint) (output : FilledOutput) :
    (c.insertUtxo o output).stxos = c.stxos := rfl

@[simp]
theorem putStxo_utxos (c : Coins) (o : OutPoint) (spent : SpentOutput) :
    (c.putStxo o spent).utxos = c.utxos := rfl

@[simp]
theorem putStxo_stxos (c : Coins) (o o' : OutPoint) (spent : SpentOutput) :
    (c.putStxo o spent).stxos[o']? =
      if o = o' then some spent else c.stxos[o']? := by
  simp [putStxo, Std.ExtTreeMap.getElem?_insert]

@[simp]
theorem deleteStxo_utxos (c : Coins) (o : OutPoint) :
    (c.deleteStxo o).1.utxos = c.utxos := rfl

@[simp]
theorem deleteStxo_stxos (c : Coins) (o o' : OutPoint) :
    (c.deleteStxo o).1.stxos[o']? = if o = o' then none else c.stxos[o']? := by
  simp [deleteStxo, Std.ExtTreeMap.getElem?_erase]

theorem deleteStxo_flag (c : Coins) (o : OutPoint) :
    (c.deleteStxo o).2 = true ↔ c.stxos[o]? ≠ none := by
  simp only [deleteStxo]
  grind

@[simp]
theorem deleteUtxo_utxos (c : Coins) (o o' : OutPoint) :
    (c.deleteUtxo o).1.utxos[o']? = if o = o' then none else c.utxos[o']? := by
  unfold deleteUtxo
  split <;> grind

@[simp]
theorem deleteUtxo_stxos (c : Coins) (o : OutPoint) :
    (c.deleteUtxo o).1.stxos = c.stxos := by
  unfold deleteUtxo
  split <;> rfl

theorem deleteUtxo_flag (c : Coins) (o : OutPoint) :
    (c.deleteUtxo o).2 = true ↔ c.utxos[o]? ≠ none := by
  unfold deleteUtxo
  split <;> simp_all

theorem deleteUtxo_insertUtxo {c : Coins} (hc : c.Indexed) {o : OutPoint}
    (habsent : c.utxos[o]? = none) (output : FilledOutput) :
    (c.insertUtxo o output).deleteUtxo o = (c, true) := by
  have hflag : ((c.insertUtxo o output).deleteUtxo o).2 = true := by
    simp [deleteUtxo_flag]
  have hcoins : ((c.insertUtxo o output).deleteUtxo o).1 = c := by
    apply eq_of_indexed ((hc.insertUtxo habsent output).deleteUtxo o) hc
    · apply ext_lookup
      intro o'
      simp only [deleteUtxo_utxos, insertUtxo_utxos]
      grind
    · simp
  exact Prod.ext hcoins hflag

end Coins

end Truthcoin
