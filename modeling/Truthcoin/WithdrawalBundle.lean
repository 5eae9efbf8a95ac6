import Truthcoin.Coins
import Truthcoin.Fallible

/-!
# Withdrawal bundles

Collection of the pending withdrawals in the UTXO set into one mainchain
transaction.
-/

namespace Truthcoin.WithdrawalBundle

open Truthcoin.Types Truthcoin.Table Truthcoin.Fallible

def u32Max : Nat := 2 ^ 32 - 1

/-- `checked_add` of two 32-bit numbers. -/
def checkedAddU32 (a b : Nat) : Option Nat :=
  if a + b ≤ u32Max then some (a + b) else none

/-- Size of a Bitcoin variable-length integer. -/
def varIntSize (n : Nat) : Nat :=
  if n < 0xfd then 1 else if n ≤ 0xffff then 3 else if n ≤ 0xffffffff then 5 else 9

def maxStandardTxWeight : Nat := 400000

/-- Size of a single txout. -/
def txoutSize (spkSize : Nat) : Option Nat :=
  (checkedAddU32 8 (varIntSize spkSize)).bind fun size =>
    checkedAddU32 size spkSize

/-- Size of a transaction without its witness. -/
def txBaseSize (nInputs sumTxinBaseSizes nOutputs sumTxoutSizes : Nat) :
    Option Nat := do
  let vinBaseSize ← checkedAddU32 (varIntSize nInputs) sumTxinBaseSizes
  let res ← checkedAddU32 4 vinBaseSize
  let voutSize ← checkedAddU32 (varIntSize nOutputs) sumTxoutSizes
  let res ← checkedAddU32 res voutSize
  checkedAddU32 res 4

/-- Weight of a bundle with the given number of payouts and the sum of their
sizes; the treasury input takes 41 bytes and the two commitments 43 and 19. -/
def predictWeight (nOutputs sumTxoutSizes : Nat) : Option Nat := do
  let nOutputs ← checkedAddU32 nOutputs 2
  let sumTxoutSizes ← checkedAddU32 (43 + 19) sumTxoutSizes
  let txBaseSize ← txBaseSize 1 41 nOutputs sumTxoutSizes
  if txBaseSize * 4 ≤ maxStandardTxWeight then some (txBaseSize * 4) else none

/-- What the bundle code takes from the mainchain library and the hash function. -/
structure BundleLib where
  scriptPubkey : MainAddress → List UInt8
  hashOutPoints : List OutPoint → Nat
  txWeight : BundleTx → Nat
  computeTxid : BundleTx → M6id

structure AggregatedWithdrawal where
  spendUtxos : Table OutPoint FilledOutput
  mainAddress : MainAddress
  value : Amount
  mainFee : Amount
  deriving DecidableEq

/-- Order by fee, value and address. -/
def AggregatedWithdrawal.key (a : AggregatedWithdrawal) : List Nat :=
  [a.mainFee, a.value, a.mainAddress]

/-- Add one output of the UTXO set to the withdrawals of its mainchain address. -/
def aggregate (acc : Table MainAddress AggregatedWithdrawal)
    (row : OutPoint × FilledOutput) :
    Except Error (Table MainAddress AggregatedWithdrawal) :=
  match row.2.content with
  | .bitcoinWithdrawal w => do
      let aggregated := (acc[w.mainAddress]?).getD ⟨∅, w.mainAddress, 0, 0⟩
      let value ← okOr (checkedAdd aggregated.value w.value) Error.amountOverflow
      let mainFee ← okOr (checkedAdd aggregated.mainFee w.mainFee)
        Error.amountOverflow
      .ok (acc.insert w.mainAddress
        { aggregated with
          value := value
          mainFee := mainFee
          spendUtxos := aggregated.spendUtxos.insert row.1 row.2 })
  | _ => .ok acc

/-- Payouts selected so far. -/
structure Selection where
  fee : Amount
  spendUtxos : Table OutPoint FilledOutput
  bundleOutputs : List TxOut
  bundleTxoutsSize : Nat
  deriving DecidableEq

def Selection.empty : Selection := ⟨0, ∅, [], 0⟩

/-- Take aggregated withdrawals in order until the bundle is full. An address
whose script is too long is passed over. -/
def selectWithdrawals (L : BundleLib) :
    List AggregatedWithdrawal → Selection → Except Error Selection
  | [], sel => .ok sel
  | a :: rest, sel =>
      let scriptPubkey := L.scriptPubkey a.mainAddress
      let nOutputs := sel.bundleOutputs.length + 1
      if nOutputs > u32Max then .ok sel
      else if scriptPubkey.length > u32Max then selectWithdrawals L rest sel
      else
        match txoutSize scriptPubkey.length with
        | none => selectWithdrawals L rest sel
        | some txoutSize =>
            match checkedAddU32 sel.bundleTxoutsSize txoutSize with
            | none => .ok sel
            | some sumTxoutSizes =>
                if (predictWeight nOutputs sumTxoutSizes).isNone then .ok sel
                else if sel.fee + a.mainFee > amountMax then .error .panic
                else
                  selectWithdrawals L rest
                    { fee := sel.fee + a.mainFee
                      spendUtxos := sel.spendUtxos.insertMany a.spendUtxos.toList
                      bundleOutputs := sel.bundleOutputs ++ [⟨a.value, scriptPubkey⟩]
                      bundleTxoutsSize := sumTxoutSizes }

/-- A bundle commits to its fee, to the outpoints it spends and to the height. -/
def new (L : BundleLib) (blockHeight : Nat) (fee : Amount)
    (spendUtxos : Table OutPoint FilledOutput) (bundleOutputs : List TxOut) :
    Except Error WithdrawalBundle :=
  let tx : BundleTx :=
    { fee := fee
      inputsCommitment :=
        L.hashOutPoints (spendUtxos.keys ++ [OutPoint.regular 0 blockHeight])
      outputs := bundleOutputs }
  if L.txWeight tx > maxStandardTxWeight then
    .error (.withdrawalBundle (L.txWeight tx) maxStandardTxWeight)
  else
    .ok ⟨spendUtxos, tx⟩

def computeM6id (L : BundleLib) (b : WithdrawalBundle) : M6id :=
  L.computeTxid b.tx

/-- Collect the withdrawals of the UTXO set into a bundle, if there are any. -/
def collectWithdrawalBundle (L : BundleLib) (c : Coins) (blockHeight : Nat) :
    Except Error (Option WithdrawalBundle) := do
  let byAddress ← c.utxos.toList.foldlM aggregate ∅
  if byAddress.isEmpty then
    .ok none
  else do
    let sorted := (byAddress.toList.map Prod.snd).insertionSort
      fun a b => (compare b.key a.key).isLE
    let sel ← selectWithdrawals L sorted Selection.empty
    let bundle ← new L blockHeight sel.fee sel.spendUtxos sel.bundleOutputs
    if L.txWeight bundle.tx > maxStandardTxWeight then
      .error (.bundleTooHeavy (L.txWeight bundle.tx) maxStandardTxWeight)
    else
      .ok (some bundle)

theorem foldlM_aggregate_of_plain {rows : List (OutPoint × FilledOutput)}
    (hplain : ∀ row ∈ rows, row.2.content.isWithdrawal = false)
    (acc : Table MainAddress AggregatedWithdrawal) :
    rows.foldlM aggregate acc = .ok acc := by
  induction rows with
  | nil => rfl
  | cons row rows ih =>
      have hrow : aggregate acc row = .ok acc := by
        have hfalse := hplain row (by simp)
        rcases row with ⟨o, address, _ | _ | _, memo⟩ <;>
          simp_all [aggregate, FilledContent.isWithdrawal]
      rw [List.foldlM_cons, hrow]
      exact ih fun r hr => hplain r (by simp [hr])

theorem collectWithdrawalBundle_of_plain (L : BundleLib) {c : Coins} (h : Nat)
    (hplain : ∀ (o : OutPoint) (output : FilledOutput), c.utxos[o]? = some output →
      output.content.isWithdrawal = false) :
    collectWithdrawalBundle L c h = .ok none := by
  have hrows : ∀ row ∈ c.utxos.toList, row.2.content.isWithdrawal = false :=
    fun row hrow => hplain row.1 row.2 (mem_toList_iff.mp hrow)
  have hfold := foldlM_aggregate_of_plain hrows ∅
  simp [collectWithdrawalBundle, hfold]

/-- All rows of the table are among the given ones. -/
def RowsAmong (t : Table OutPoint FilledOutput)
    (rows : List (OutPoint × FilledOutput)) : Prop :=
  ∀ (o : OutPoint) (output : FilledOutput), t[o]? = some output → (o, output) ∈ rows

theorem RowsAmong.insert {t : Table OutPoint FilledOutput}
    {rows : List (OutPoint × FilledOutput)} (h : RowsAmong t rows)
    {row : OutPoint × FilledOutput} (hrow : row ∈ rows) :
    RowsAmong (t.insert row.1 row.2) rows := by
  intro o output ho
  rw [Std.ExtTreeMap.getElem?_insert] at ho
  split at ho
  · rename_i heq
    obtain rfl := Std.LawfulEqCmp.eq_of_compare heq
    obtain rfl := Option.some.inj ho
    exact hrow
  · exact h o output ho

theorem RowsAmong.insertMany {t : Table OutPoint FilledOutput}
    {rows l : List (OutPoint × FilledOutput)} (h : RowsAmong t rows)
    (hl : ∀ row ∈ l, row ∈ rows) : RowsAmong (t.insertMany l) rows := by
  induction l generalizing t with
  | nil => simpa using h
  | cons row l ih =>
      rw [Std.ExtTreeMap.insertMany_cons]
      exact ih (h.insert (hl row (by simp))) fun r hr => hl r (by simp [hr])

theorem aggregate_rowsAmong {acc acc' : Table MainAddress AggregatedWithdrawal}
    {row : OutPoint × FilledOutput} {rows : List (OutPoint × FilledOutput)}
    (hrow : row ∈ rows)
    (hacc : ∀ (k : MainAddress) (a : AggregatedWithdrawal), acc[k]? = some a →
      RowsAmong a.spendUtxos rows)
    (hrun : aggregate acc row = .ok acc') :
    ∀ (k : MainAddress) (a : AggregatedWithdrawal), acc'[k]? = some a →
      RowsAmong a.spendUtxos rows := by
  unfold aggregate at hrun
  split at hrun
  · rename_i w hcontent
    simp only [bind_eq_ok_iff, Except.ok.injEq] at hrun
    obtain ⟨value, -, mainFee, -, rfl⟩ := hrun
    intro k a ha
    rw [Std.ExtTreeMap.getElem?_insert] at ha
    split at ha
    · obtain rfl := Option.some.inj ha
      refine RowsAmong.insert ?_ hrow
      cases hold : acc[w.mainAddress]? with
      | none => simp [RowsAmong]
      | some aggregated => exact hacc w.mainAddress aggregated hold
    · exact hacc k a ha
  · obtain rfl := Except.ok.inj hrun
    exact hacc

theorem selectWithdrawals_rowsAmong {L : BundleLib} {l : List AggregatedWithdrawal}
    {sel sel' : Selection} {rows : List (OutPoint × FilledOutput)}
    (hl : ∀ a ∈ l, RowsAmong a.spendUtxos rows) (hsel : RowsAmong sel.spendUtxos rows)
    (hrun : selectWithdrawals L l sel = .ok sel') : RowsAmong sel'.spendUtxos rows := by
  induction l generalizing sel with
  | nil =>
      obtain rfl := Except.ok.inj hrun
      exact hsel
  | cons a l ih =>
      have hrest : ∀ a ∈ l, RowsAmong a.spendUtxos rows := fun b hb => hl b (by simp [hb])
      simp only [selectWithdrawals] at hrun
      split at hrun
      · exact Except.ok.inj hrun ▸ hsel
      · split at hrun
        · exact ih hrest hsel hrun
        · split at hrun
          · exact ih hrest hsel hrun
          · split at hrun
            · exact Except.ok.inj hrun ▸ hsel
            · split at hrun
              · exact Except.ok.inj hrun ▸ hsel
              · split at hrun
                · simp at hrun
                · refine ih hrest (hsel.insertMany ?_) hrun
                  rintro ⟨o, output⟩ hrow
                  exact hl a (by simp) o output (mem_toList_iff.mp hrow)

/-- A collected bundle spends outputs of the UTXO set. -/
theorem utxos_of_collectWithdrawalBundle {L : BundleLib} {c : Coins} {h : Nat}
    {b : WithdrawalBundle} (hrun : collectWithdrawalBundle L c h = .ok (some b)) :
    ∀ row ∈ b.spendUtxos.toList, c.utxos[row.1]? = some row.2 := by
  unfold collectWithdrawalBundle at hrun
  rw [bind_eq_ok_iff] at hrun
  obtain ⟨byAddress, hfold, hrun⟩ := hrun
  have hbyAddress : ∀ (k : MainAddress) (a : AggregatedWithdrawal),
      byAddress[k]? = some a → RowsAmong a.spendUtxos c.utxos.toList := by
    refine foldlM_preserves (P := fun acc : Table MainAddress AggregatedWithdrawal =>
      ∀ (k : MainAddress) (a : AggregatedWithdrawal), acc[k]? = some a →
        RowsAmong a.spendUtxos c.utxos.toList) ?_ hfold (by simp)
    intro row hrow acc acc' hacc hstep
    exact aggregate_rowsAmong hrow hacc hstep
  split at hrun
  · simp at hrun
  · simp only [bind_eq_ok_iff] at hrun
    obtain ⟨sel, hsel, bundle, hnew, hrun⟩ := hrun
    split at hrun
    · simp at hrun
    · obtain rfl : bundle = b := by simpa using hrun
      have hspend : bundle.spendUtxos = sel.spendUtxos := by
        simp only [new] at hnew
        split at hnew
        · simp at hnew
        · obtain rfl := Except.ok.inj hnew
          rfl
      have hamong : RowsAmong sel.spendUtxos c.utxos.toList := by
        refine selectWithdrawals_rowsAmong ?_ (by simp [RowsAmong, Selection.empty]) hsel
        intro a ha
        rw [List.mem_insertionSort, List.mem_map] at ha
        obtain ⟨row, hrow, rfl⟩ := ha
        exact hbyAddress row.1 row.2 (mem_toList_iff.mp hrow)
      intro row hrow
      rw [hspend] at hrow
      exact mem_toList_iff.mp (hamong row.1 row.2 (mem_toList_iff.mp hrow))

end Truthcoin.WithdrawalBundle
