import Truthcoin.TransactionValue

/-!
# Filled outputs

The fee of a transaction counts all of its inputs. Its outputs are filled from the plain
bitcoin inputs alone, so a transaction with a fee has its outputs filled exactly when these
inputs cover them.
-/

namespace Truthcoin.FilledOutputs

open Truthcoin.Types Truthcoin.Fallible Truthcoin.Arithmetic Truthcoin.Decisions
open Truthcoin.Markets Truthcoin.Blocks Truthcoin.Validation Truthcoin.TransactionValue
open Truthcoin.Blocks.FilledTransaction Truthcoin.Apply

/-- A filled output pays what the output says, to the same address and with the same memo. -/
structure Fills (filled : FilledOutput) (output : Output) : Prop where
  address : filled.address = output.address
  value : filled.getBitcoinValue = output.getBitcoinValue
  memo : filled.memo = output.memo

theorem fills_filledOutput (output : Output) : Fills (filledOutput output) output :=
  ⟨rfl, value_filledOutput output, rfl⟩

section

variable {F : Type} {tx : FilledTransaction F} {fee : Nat}

/-- The value of the plain bitcoin inputs. -/
def plainValue (tx : FilledTransaction F) : Nat :=
  (tx.spentAssets.map fun entry => entry.2.getBitcoinValue).sum

/-- The plain bitcoin inputs cover the bitcoin and market funds outputs. -/
def PlainInputsCover (tx : FilledTransaction F) : Prop :=
  (tx.transaction.outputs.map drawn).sum ≤ plainValue tx

theorem plainValue_le_valueIn : plainValue tx ≤ valueIn tx := by
  have hsub : ((tx.spentAssets.map Prod.snd).map FilledOutput.getBitcoinValue).Sublist
      (tx.spentUtxos.map FilledOutput.getBitcoinValue) := by
    apply List.Sublist.map
    apply (List.filter_sublist.map Prod.snd).trans
    rw [spentInputs, List.zip_eq_zip_take_min, List.map_snd_zip (by simp)]
    exact List.take_sublist _ _
  rw [plainValue, valueIn, ← Function.comp_def FilledOutput.getBitcoinValue, ← List.map_map]
  exact hsub.sum_le_sum (fun _ _ => Nat.zero_le _)

theorem valueIn_of_bitcoinFee (h : tx.bitcoinFee = .ok (some fee)) :
    valueIn tx = valueOut tx + fee ∧ valueIn tx ≤ amountMax := by
  simp only [bitcoinFee, bind_eq_ok_iff, okOr_eq_ok_iff, Except.ok.injEq] at h
  obtain ⟨spent, hspent, out, hout, hfee⟩ := h
  obtain ⟨hle, rfl⟩ := checkedSub_eq_some_iff.mp hfee
  have hin : spent = valueIn tx := checkedSum_eq hspent
  have hvalueOut : out = valueOut tx := checkedSum_eq hout
  have hmax := checkedSum_le hspent
  constructor
  · omega
  · omega

theorem filledOutputs_eq (h : tx.bitcoinFee = .ok (some fee)) :
    tx.filledOutputs = .ok (if (tx.transaction.outputs.map drawn).sum ≤ plainValue tx then
      some (tx.transaction.outputs.map filledOutput) else none) := by
  have hmax : plainValue tx ≤ amountMax :=
    plainValue_le_valueIn.trans (valueIn_of_bitcoinFee h).2
  have hvalue : tx.outputBitcoinMaxValue = .ok (plainValue tx) := sumU64_ok hmax
  rw [filledOutputs, hvalue, ok_bind, fillOutputs_eq]

/-- The outputs of a transaction with a fee are filled, each as it says, exactly when the
plain bitcoin inputs cover them. -/
theorem filledOutputs_iff_plainInputsCover (h : tx.bitcoinFee = .ok (some fee)) :
    (∃ filled, tx.filledOutputs = .ok (some filled) ∧
      List.Forall₂ Fills filled tx.transaction.outputs) ↔ PlainInputsCover tx := by
  rw [filledOutputs_eq h]
  constructor
  · rintro ⟨filled, hfilled, -⟩
    by_contra hcover
    rw [PlainInputsCover] at hcover
    rw [if_neg hcover] at hfilled
    cases Except.ok.inj hfilled
  · intro hcover
    rw [PlainInputsCover] at hcover
    rw [if_pos hcover]
    refine ⟨_, rfl, ?_⟩
    rw [List.forall₂_map_left_iff]
    exact List.forall₂_same.mpr fun output _ => fills_filledOutput output

theorem plainInputsCover_of_applyUtxoChanges {L : Library F} {c c' : Coins}
    (h : tx.bitcoinFee = .ok (some fee)) (happly : applyUtxoChanges L c tx = .ok c') :
    PlainInputsCover tx := by
  simp only [applyUtxoChanges, bind_eq_ok_iff, okOr_eq_ok_iff] at happly
  obtain ⟨_, -, _, hfilled, outputs, rfl, -⟩ := happly
  rw [filledOutputs_eq h] at hfilled
  by_contra hcover
  rw [PlainInputsCover] at hcover
  rw [if_neg hcover] at hfilled
  cases Except.ok.inj hfilled

theorem plainInputsCover_of_isBitcoin (h : tx.bitcoinFee = .ok (some fee))
    (hinputs : tx.transaction.inputs.length = tx.spentUtxos.length)
    (hplain : ∀ o ∈ tx.spentUtxos, o.content.isBitcoin = true) : PlainInputsCover tx := by
  have hall : tx.spentAssets = tx.spentInputs :=
    List.filter_eq_self.mpr fun e he => hplain e.2 (List.of_mem_zip he).2
  have hvalue : plainValue tx = valueIn tx := by
    rw [plainValue, hall, valueIn, ← Function.comp_def FilledOutput.getBitcoinValue,
      ← List.map_map, spentInputs, List.map_snd_zip hinputs.ge]
  have hdrawn : (tx.transaction.outputs.map drawn).sum ≤ valueOut tx := by
    apply List.sum_le_sum
    rintro ⟨address, content, memo⟩ -
    cases content with
    | bitcoin value => exact le_rfl
    | withdrawal w => exact Nat.zero_le _
    | marketFunds marketId amount isFee => exact le_rfl
  rw [PlainInputsCover, hvalue, (valueIn_of_bitcoinFee h).1]
  omega

end

/-- Plain bitcoin and market funds of 1000 sats each pay an output of 900. -/
def mixedSpend : FilledTransaction Rat where
  transaction := ⟨[.regular 1 0, .regular 2 0], [⟨1, .bitcoin 900, []⟩], [], none⟩
  spentUtxos := [⟨1, .bitcoin 1000, []⟩, ⟨1, .marketFunds 7 1000 false, []⟩]
  actorAddress := none

theorem mixedSpend_filled :
    ∃ filled, mixedSpend.filledOutputs = .ok (some filled) ∧
      List.Forall₂ Fills filled mixedSpend.transaction.outputs := by
  have hfee : mixedSpend.bitcoinFee = .ok (some 1100) := by decide
  have hcover : PlainInputsCover mixedSpend := by
    unfold PlainInputsCover
    decide
  exact (filledOutputs_iff_plainInputsCover hfee).mpr hcover

/-- Market funds of 1000 sats pay an output of 900. -/
def marketFundsSpend : FilledTransaction Rat where
  transaction := ⟨[.regular 1 0], [⟨1, .bitcoin 900, []⟩], [], none⟩
  spentUtxos := [⟨1, .marketFunds 7 1000 false, []⟩]
  actorAddress := none

example (L : Library Rat) (config : DecisionConfig) (archive : Archive) (s : State Rat) :
    validateFilledTransaction L config archive s marketFundsSpend none = .ok 100 := rfl

/-- The fee counts market funds as an input, and the outputs are not filled from them. -/
theorem not_filled_of_bitcoinFee :
    ¬ ∀ (tx : FilledTransaction Rat) (fee : Nat), tx.bitcoinFee = .ok (some fee) →
      ∃ filled, tx.filledOutputs = .ok (some filled) ∧
        List.Forall₂ Fills filled tx.transaction.outputs := by
  intro h
  obtain ⟨filled, hfilled, -⟩ := h marketFundsSpend 100 (by decide)
  have hnone : marketFundsSpend.filledOutputs = .ok none := by decide
  cases Except.ok.inj (hfilled.symm.trans hnone)

end Truthcoin.FilledOutputs
