import Truthcoin.BlockChecks

/-!
# The value that transactions move

A transaction takes the value of its inputs out of the UTXO set and puts the value of its
outputs in. What is left is its fee, or it is owed by the market that it trades in.
-/

namespace Truthcoin

open Truthcoin.Types Truthcoin.Table

namespace Coins

variable {c c' : Coins} {os : List OutPoint}

theorem deleteOutpoints_utxos_congr (h : c.utxos = c'.utxos) :
    (deleteOutpoints c os).utxos = (deleteOutpoints c' os).utxos := by
  apply ext_lookup
  intro o
  rw [deleteOutpoints_utxos, deleteOutpoints_utxos, h]

theorem value_congr (h : c.utxos = c'.utxos) : c.value = c'.value := by
  rw [value, value, h]

end Coins

namespace TransactionValue

open Truthcoin.Fallible Truthcoin.Arithmetic Truthcoin.Decisions Truthcoin.Markets
open Truthcoin.Voting Truthcoin.Blocks Truthcoin.Trading Truthcoin.Validation Truthcoin.Apply
open Truthcoin.ApplySteps Truthcoin.ConnectTrace Truthcoin.BlockChecks

variable {F : Type} {L : Library F}

/-- Value of the outputs that a transaction spends. -/
def valueIn (tx : FilledTransaction F) : Nat :=
  (tx.spentUtxos.map FilledOutput.getBitcoinValue).sum

/-- Value of the outputs that a transaction creates. -/
def valueOut (tx : FilledTransaction F) : Nat :=
  (tx.transaction.outputs.map Output.getBitcoinValue).sum

/-- The fee that block validation counts for a transaction. -/
def feeSats (tx : FilledTransaction F) : Nat :=
  match tx.blockFee with
  | .ok fee => fee
  | .error _ => 0

/-- What an output takes from the inputs that are left. -/
def drawn (output : Output) : Nat :=
  match output.content with
  | .bitcoin value => value
  | .withdrawal _ => 0
  | .marketFunds _ amount _ => amount

def filledContent : Content → FilledContent
  | .bitcoin value => .bitcoin value
  | .withdrawal w => .bitcoinWithdrawal w
  | .marketFunds marketId amount isFee => .marketFunds marketId amount isFee

def filledOutput (output : Output) : FilledOutput :=
  ⟨output.address, filledContent output.content, output.memo⟩

theorem fillOutput_eq (left : Nat) (output : Output) :
    FilledTransaction.fillOutput left output =
      if drawn output ≤ left then some (filledOutput output, left - drawn output) else none := by
  obtain ⟨address, content, memo⟩ := output
  cases content with
  | withdrawal w => rfl
  | bitcoin value =>
      show (checkedSub left value).map _ = _
      rw [checkedSub, apply_ite (Option.map _)]
      rfl
  | marketFunds marketId amount isFee =>
      show (checkedSub left amount).map _ = _
      rw [checkedSub, apply_ite (Option.map _)]
      rfl

theorem fillOutputs_eq (left : Nat) (outputs : List Output) :
    FilledTransaction.fillOutputs left outputs =
      if (outputs.map drawn).sum ≤ left then some (outputs.map filledOutput) else none := by
  induction outputs generalizing left with
  | nil => exact (if_pos (Nat.zero_le left)).symm
  | cons output outputs ih =>
      rw [FilledTransaction.fillOutputs, fillOutput_eq, List.map_cons, List.sum_cons]
      by_cases hfirst : drawn output ≤ left
      · rw [if_pos hfirst, Option.bind_eq_bind, Option.bind_some]
        dsimp only
        rw [ih]
        by_cases hrest : (outputs.map drawn).sum ≤ left - drawn output
        · rw [if_pos hrest, if_pos (by omega)]
          rfl
        · rw [if_neg hrest, if_neg (by omega)]
          rfl
      · rw [if_neg hfirst, if_neg (by omega)]
        rfl

theorem value_filledOutput (output : Output) :
    (filledOutput output).getBitcoinValue = output.getBitcoinValue := by
  obtain ⟨address, content, memo⟩ := output
  cases content with
  | bitcoin value | withdrawal w | marketFunds marketId amount isFee => rfl

theorem values_of_fillOutputs {left : Nat} {outputs : List Output} {filled : List FilledOutput}
    (h : FilledTransaction.fillOutputs left outputs = some filled) :
    filled.map FilledOutput.getBitcoinValue = outputs.map Output.getBitcoinValue := by
  rw [fillOutputs_eq] at h
  obtain ⟨-, heq⟩ := Option.ite_none_right_eq_some.mp h
  rw [← Option.some.inj heq, List.map_map]
  exact List.map_congr_left fun output _ => value_filledOutput output

theorem utxos_of_spendInputs {txid : Txid} {entries : List (OutPoint × Nat)} {c c' : Coins}
    (h : entries.foldlM (spendInput txid) c = .ok c') :
    c'.utxos = (deleteOutpoints c (entries.map Prod.fst)).utxos := by
  induction entries generalizing c with
  | nil => rw [← Except.ok.inj h]; rfl
  | cons e entries ih =>
      obtain ⟨c₁, hfirst, hrest⟩ := bind_eq_ok_iff.mp h
      simp only [spendInput, bind_eq_ok_iff, okOr_eq_ok_iff, Except.ok.injEq] at hfirst
      obtain ⟨output, -, rfl⟩ := hfirst
      rw [ih hrest, List.map_cons, Coins.deleteOutpoints_cons]
      exact Coins.deleteOutpoints_utxos_congr (Coins.putStxo_utxos _ _ _)

theorem createOutputs_eq (txid : Txid) (entries : List (FilledOutput × Nat)) (c : Coins) :
    entries.foldl (createOutput txid) c =
      insertRows c (entries.map fun e => (.regular txid e.2, e.1)) := by
  rw [insertRows, List.foldl_map]
  rfl

theorem value_applyUtxoChanges_le {c c' : Coins} {tx : FilledTransaction F}
    (h : applyUtxoChanges L c tx = .ok c') (rest : List OutPoint) :
    (deleteOutpoints c' rest).value ≤
      (deleteOutpoints c (tx.transaction.inputs ++ rest)).value + valueOut tx := by
  simp only [applyUtxoChanges, FilledTransaction.filledOutputs, bind_eq_ok_iff, okOr_eq_ok_iff,
    Except.ok.injEq] at h
  obtain ⟨spent, hspent, _, ⟨left, -, rfl⟩, outputs, hfilled, rfl⟩ := h
  rw [createOutputs_eq]
  refine Coins.value_outside_insertRows_le.trans ?_
  have hvalues : (rowValues (outputs.zipIdx.map fun e =>
      (OutPoint.regular (L.txid tx.transaction) e.2, e.1))).sum = valueOut tx := by
    rw [valueOut, ← values_of_fillOutputs hfilled, rowValues, List.map_map]
    nth_rewrite 2 [← List.zipIdx_map_fst 0 outputs]
    rw [List.map_map]
    rfl
  have hutxos := utxos_of_spendInputs hspent
  rw [List.zipIdx_map_fst] at hutxos
  have houtside : (deleteOutpoints spent rest).value =
      (deleteOutpoints c (tx.transaction.inputs ++ rest)).value := by
    rw [Coins.deleteOutpoints_append]
    exact Coins.value_congr (Coins.deleteOutpoints_utxos_congr hutxos)
  rw [hvalues, houtside]

theorem value_applyAll_le {txs : List (FilledTransaction F)} {c c' : Coins}
    (h : txs.foldlM (applyUtxoChanges L) c = .ok c') :
    c'.value ≤ (deleteOutpoints c (txs.flatMap fun tx => tx.transaction.inputs)).value +
      (txs.map valueOut).sum := by
  induction txs generalizing c with
  | nil =>
      rw [← Except.ok.inj h]
      exact Nat.le_refl _
  | cons tx txs ih =>
      obtain ⟨c₁, hfirst, hrest⟩ := bind_eq_ok_iff.mp h
      have hstep := value_applyUtxoChanges_le hfirst
        (txs.flatMap fun tx => tx.transaction.inputs)
      have hlater := ih hrest
      rw [List.flatMap_cons, List.map_cons, List.sum_cons]
      omega

theorem value_inputs {s : State F} {txs : List (FilledTransaction F)}
    (hfilled : ∀ tx ∈ txs, FilledFrom s tx.transaction tx)
    (hnodup : (txs.flatMap fun tx => tx.transaction.inputs).Nodup) :
    (deleteOutpoints s.coins (txs.flatMap fun tx => tx.transaction.inputs)).value +
      (txs.map valueIn).sum = s.coins.value := by
  let rows := txs.flatMap fun tx => tx.transaction.inputs.zip tx.spentUtxos
  have hkeys : rows.map Prod.fst = txs.flatMap fun tx => tx.transaction.inputs := by
    rw [List.map_flatMap]
    refine List.flatMap_congr fun tx htx => ?_
    exact List.map_fst_zip (hfilled tx htx).spent.length_eq.le
  have hvalues : (rowValues rows).sum = (txs.map valueIn).sum := by
    rw [rowValues, List.map_flatMap, List.flatMap, List.sum_flatten, List.map_map]
    refine congrArg List.sum (List.map_congr_left fun tx htx => ?_)
    rw [valueIn, ← List.map_snd_zip (hfilled tx htx).spent.length_eq.ge, List.map_map]
    rfl
  have hpresent : ∀ row ∈ rows, s.coins.utxos[row.1]? = some row.2 := by
    intro row hrow
    obtain ⟨tx, htx, hrow⟩ := List.mem_flatMap.mp hrow
    exact (List.forall₂_iff_zip.mp (hfilled tx htx).spent).2 hrow
  rw [← hkeys, ← hvalues]
  exact Coins.value_deleteOutpoints (hkeys ▸ hnodup) hpresent

/-- What a block's trades will pay out of what they took in, besides the funds of the
markets. -/
def owed (u : StateUpdate F) : Nat :=
  (u.pendingBuySettlements.map fun b => b.inputValueSats - tradeMinerFeeSats).sum +
    (u.pendingSellInputChanges.map PendingSellInputChange.changeSats).sum

/-- The inputs of every buy pay for its costs. -/
def Paid (u : StateUpdate F) : Prop :=
  ∀ b ∈ u.pendingBuySettlements,
    b.lmsrCostSats + b.marketFeeSats + tradeMinerFeeSats ≤ b.inputValueSats

theorem paid_new : Paid (StateUpdate.new F) := by
  intro b hb
  cases hb

theorem inputValue_eq {tx : FilledTransaction F} {input : Nat}
    (h : inputValue tx = .ok input) : input = valueIn tx :=
  checkedSum_eq (okOr_eq_ok_iff.mp h)

theorem feeSats_of_isTrade {tx : FilledTransaction F}
    (h : tx.transaction.isTrade = true ∨ tx.transaction.isAmplifyBeta = true) :
    feeSats tx = tradeMinerFeeSats := by
  rw [feeSats, FilledTransaction.blockFee, if_pos h]

theorem valueIn_eq_of_blockFee {tx : FilledTransaction F} {fee : Nat}
    (hplain : ¬ (tx.transaction.isTrade = true ∨ tx.transaction.isAmplifyBeta = true))
    (h : tx.blockFee = .ok fee) : valueIn tx = valueOut tx + feeSats tx := by
  have hfees : feeSats tx = fee := by rw [feeSats, h]
  rw [FilledTransaction.blockFee, if_neg hplain] at h
  simp only [FilledTransaction.requiredFee, FilledTransaction.bitcoinFee, bind_eq_ok_iff,
    okOr_eq_ok_iff, Except.ok.injEq] at h
  obtain ⟨_, ⟨spent, hspent, out, hout, rfl⟩, hfee⟩ := h
  obtain ⟨hle, rfl⟩ := checkedSub_eq_some_iff.mp hfee
  rw [hfees, valueIn, valueOut, ← checkedSum_eq hspent, ← checkedSum_eq hout]
  omega

section

variable [F64 F] [DecidableEq F] {config : DecisionConfig} {archive : Archive} {s₀ s s' : State F}
  {u u' : StateUpdate F} {tx : FilledTransaction F} {height : Nat}

omit [F64 F] [DecidableEq F] in
theorem valueOut_of_validateTrade {trade : Trade}
    (h : validateTrade L archive s tx trade = .ok ()) :
    valueOut tx = 0 ∧ (trade.isBuy = true → trade.limitSats ≤ valueIn tx) ∧
      (trade.isBuy = false → tradeMinerFeeSats ≤ valueIn tx) := by
  simp only [validateTrade, bind_eq_ok_iff, ensure_eq_ok_iff] at h
  obtain ⟨_, -, _, -, _, -, _, -, _, -, _, houtputs, _, -, input, hinput, h⟩ := h
  rw [← inputValue_eq hinput]
  refine ⟨by rw [valueOut, houtputs]; rfl, ?_, ?_⟩
  · intro hbuy
    rw [if_pos hbuy] at h
    simp only [validateBuy, bind_eq_ok_iff, ensure_eq_ok_iff] at h
    obtain ⟨_, -, hlimit⟩ := h
    exact hlimit
  · intro hsell
    rw [if_neg (by simp [hsell])] at h
    simp only [validateSell, bind_eq_ok_iff, ensure_eq_ok_iff] at h
    obtain ⟨_, -, _, -, hfee⟩ := h
    exact hfee

omit [DecidableEq F] in
theorem valueIn_of_trade {trade : Trade} (hdata : tx.transaction.data = some (.trade trade))
    (hvalid : validateTrade L archive s₀ tx trade = .ok ())
    (h : applyTrade L s u tx trade = .ok (some u')) (hpaid : Paid u) :
    owed u' + valueOut tx + feeSats tx = owed u + valueIn tx ∧ Paid u' := by
  obtain ⟨hout, hlimit, hfee⟩ := valueOut_of_validateTrade hvalid
  have hfees : feeSats tx = tradeMinerFeeSats :=
    feeSats_of_isTrade (.inl (by rw [Transaction.isTrade, hdata]))
  obtain ⟨market, effectiveShares, newShares, beta, input, hquote, hcase⟩ := applyTrade_eq_some h
  obtain rfl := inputValue_eq hquote.input_eq
  rcases hcase with ⟨hbuy, cost, happlied⟩ | ⟨hsell, proceeds, happlied⟩
  · have hinput := hlimit hbuy
    have htotal := happlied.limit
    obtain ⟨texts, hcost⟩ := happlied.cost_eq
    simp only [buyCost, bind_eq_ok_iff, mapError_eq_ok_iff] at hcost
    obtain ⟨_, -, hcost⟩ := hcost
    have hsum := calculateBuyCost_total hcost
    rw [happlied.update_eq]
    refine ⟨?_, ?_⟩
    · simp only [owed, List.map_append, List.map_cons, List.map_nil, List.sum_append,
        List.sum_singleton]
      omega
    · intro b hb
      rcases List.mem_append.mp hb with hold | hnew
      · exact hpaid b hold
      · obtain rfl := List.mem_singleton.mp hnew
        dsimp only
        omega
  · have hinput := hfee hsell
    rw [happlied.update_eq]
    refine ⟨?_, hpaid⟩
    have hchange : ((if valueIn tx - tradeMinerFeeSats > 0 then
        u.pendingSellInputChanges ++
          [⟨trade.trader, valueIn tx - tradeMinerFeeSats, L.txid tx.transaction⟩]
        else u.pendingSellInputChanges).map PendingSellInputChange.changeSats).sum =
        (u.pendingSellInputChanges.map PendingSellInputChange.changeSats).sum +
          (valueIn tx - tradeMinerFeeSats) := by
      split
      · simp
      · omega
    simp only [owed, hchange]
    omega

omit [F64 F] [DecidableEq F] in
theorem valueIn_of_amplify {amplify : AmplifyBeta}
    (hdata : tx.transaction.data = some (.amplifyBeta amplify))
    (hvalid : validateAmplifyBeta s₀ tx amplify = .ok ())
    (h : applyAmplifyBeta L u tx amplify = .ok u') (hpaid : Paid u) :
    owed u' + valueOut tx + feeSats tx = owed u + valueIn tx ∧ Paid u' := by
  have hfees : feeSats tx = tradeMinerFeeSats :=
    feeSats_of_isTrade (.inr (by rw [Transaction.isAmplifyBeta, hdata]))
  simp only [validateAmplifyBeta, bind_eq_ok_iff, ensure_eq_ok_iff, okOr_eq_ok_iff] at hvalid
  obtain ⟨_, -, _, -, _, -, _, -, _, houtputs, input, hinput, required, hrequired, hle⟩ := hvalid
  obtain rfl := inputValue_eq hinput
  obtain ⟨-, rfl⟩ := checkedAdd_eq_some_iff.mp hrequired
  have hout : valueOut tx = 0 := by rw [valueOut, houtputs]; rfl
  have hmin : tradeMinerFeeSats ≤ valueIn tx := (Nat.le_add_left _ _).trans hle
  simp only [applyAmplifyBeta, bind_eq_ok_iff, Except.ok.injEq] at h
  obtain ⟨_, hinput', rfl⟩ := h
  obtain rfl := inputValue_eq hinput'
  refine ⟨?_, ?_⟩
  · simp only [owed, List.map_append, List.map_cons, List.map_nil, List.sum_append,
      List.sum_singleton]
    omega
  · intro b hb
    rcases List.mem_append.mp hb with hold | hnew
    · exact hpaid b hold
    · obtain rfl := List.mem_singleton.mp hnew
      dsimp only
      omega

/-- The inputs of a valid transaction are its outputs, its fee and what it adds to the dues
of the block. -/
theorem valueIn_of_effect {fee : Nat}
    (hvalid : validateFilledTransaction L config archive s₀ tx (some height) = .ok fee)
    (h : Effect L height s u tx s' u') (hpaid : Paid u) :
    owed u' + valueOut tx + feeSats tx = owed u + valueIn tx ∧ Paid u' := by
  simp only [validateFilledTransaction, bind_eq_ok_iff, option_forM_eq_ok_iff] at hvalid
  obtain ⟨_, -, _, hdata', hfee⟩ := hvalid
  have hplain (hother : ∀ trade, tx.transaction.data ≠ some (.trade trade))
      (hother' : ∀ amplify, tx.transaction.data ≠ some (.amplifyBeta amplify)) :
      valueIn tx = valueOut tx + feeSats tx := by
    refine valueIn_eq_of_blockFee ?_ hfee
    rintro (htrade | hamplify)
    · unfold Transaction.isTrade at htrade
      split at htrade
      · rename_i trade hdata
        exact hother trade hdata
      · cases htrade
    · unfold Transaction.isAmplifyBeta at hamplify
      split at hamplify
      · rename_i amplify hdata
        exact hother' amplify hdata
      · cases hamplify
  cases h with
  | trade trade hdata h => exact valueIn_of_trade hdata (hdata' _ hdata) h hpaid
  | amplifyBeta amplify hdata h => exact valueIn_of_amplify hdata (hdata' _ hdata) h hpaid
  | plain hdata =>
      have hsame := hplain (by simp [hdata]) (by simp [hdata])
      exact ⟨by omega, hpaid⟩
  | createMarket creation hdata h =>
      have hsame := hplain (by simp [hdata]) (by simp [hdata])
      obtain ⟨_, _, _, _, -, -, -, rfl, -⟩ := applyMarketCreation_eq_ok h
      exact ⟨by simp only [owed]; omega, hpaid⟩
  | claimDecision payload hdata h =>
      have hsame := hplain (by simp [hdata]) (by simp [hdata])
      exact ⟨by omega, hpaid⟩
  | submitVote vote hdata h =>
      have hsame := hplain (by simp [hdata]) (by simp [hdata])
      simp only [applySubmitVote, bind_eq_ok_iff, Except.ok.injEq] at h
      obtain ⟨_, -, _, -, _, -, rfl⟩ := h
      exact ⟨by simp only [owed, addVote]; omega, hpaid⟩
  | submitBallot ballot hdata h =>
      have hsame := hplain (by simp [hdata]) (by simp [hdata])
      rw [applySubmitBallot_framed h]
      exact ⟨by simp only [owed]; omega, hpaid⟩
  | transferReputation transfer hdata h =>
      have hsame := hplain (by simp [hdata]) (by simp [hdata])
      exact ⟨by omega, hpaid⟩

theorem valueIn_of_effects {txs : List (FilledTransaction F)}
    (hvalid : ∀ tx ∈ txs, ∃ fee,
      validateFilledTransaction L config archive s₀ tx (some height) = .ok fee)
    (h : txs.foldlM (applyEffect L height) (s, u) = .ok (s', u')) (hpaid : Paid u) :
    owed u' + (txs.map valueOut).sum + (txs.map feeSats).sum =
        owed u + (txs.map valueIn).sum ∧ Paid u' := by
  induction txs generalizing s u with
  | nil =>
      obtain ⟨-, rfl⟩ := Prod.mk.inj (Except.ok.inj h)
      exact ⟨rfl, hpaid⟩
  | cons tx txs ih =>
      obtain ⟨⟨s₁, u₁⟩, hfirst, hrest⟩ := bind_eq_ok_iff.mp h
      obtain ⟨fee, hfee⟩ := hvalid tx List.mem_cons_self
      obtain ⟨hstep, hpaid₁⟩ :
          owed u₁ + valueOut tx + feeSats tx = owed u + valueIn tx ∧ Paid u₁ :=
        valueIn_of_effect hfee (effect_of_applyEffect hfirst) hpaid
      obtain ⟨hlater, hpaid'⟩ :=
        ih (fun tx' htx' => hvalid tx' (List.mem_cons_of_mem _ htx')) hrest hpaid₁
      refine ⟨?_, hpaid'⟩
      simp only [List.map_cons, List.sum_cons]
      omega

omit [F64 F] [DecidableEq F] in
theorem coinbaseValue_le {coinbaseValue : Nat} {filledTxs : List (FilledTransaction F)}
    {skipped : List Nat} (h : validateFees coinbaseValue filledTxs skipped = .ok ()) :
    coinbaseValue ≤ ((notSkipped filledTxs skipped).map feeSats).sum := by
  simp only [validateFees, bind_eq_ok_iff, ensure_eq_ok_iff] at h
  obtain ⟨total, htotal, hle⟩ := h
  refine hle.trans (Nat.le_of_eq ?_)
  rw [notSkipped, List.map_map]
  generalize (filledTxs.zipIdx.filter fun entry => entry.2 ∉ skipped) = entries at htotal ⊢
  suffices hgen : ∀ start, (entries.foldlM (fun total entry => do
      let fee ← entry.1.blockFee
      okOr (checkedAdd total fee) Error.amountOverflow) start = .ok total) →
      total = start + (entries.map (feeSats ∘ Prod.fst)).sum by
    rw [hgen 0 htotal, Nat.zero_add]
  clear htotal hle
  induction entries with
  | nil =>
      intro start h
      rw [← Except.ok.inj h]
      rfl
  | cons entry entries ih =>
      intro start h
      obtain ⟨next, hnext, hrest⟩ := bind_eq_ok_iff.mp h
      simp only [bind_eq_ok_iff, okOr_eq_ok_iff] at hnext
      obtain ⟨fee, hfee, hadd⟩ := hnext
      obtain ⟨-, rfl⟩ := checkedAdd_eq_some_iff.mp hadd
      have hsats : feeSats entry.1 = fee := by rw [feeSats, hfee]
      rw [ih _ hrest, List.map_cons, List.sum_cons, Function.comp_apply, hsats, Nat.add_assoc]

omit [F64 F] [DecidableEq F] in
theorem rowValues_coinbaseRows (txid : CoinbaseTxid) (outputs : List Output) :
    rowValues (coinbaseRows txid outputs) = outputs.map Output.getBitcoinValue := by
  rw [rowValues, coinbaseRows, List.map_map]
  nth_rewrite 2 [← List.zipIdx_map_fst 0 outputs]
  rw [List.map_map]
  refine List.map_congr_left fun entry _ => ?_
  obtain ⟨⟨address, content, memo⟩, vout⟩ := entry
  cases content <;> rfl

omit [DecidableEq F] in
theorem coinbaseValue_of_prevalidate {header : Header} {body : Body F}
    {pre : PrevalidatedBlock F}
    (h : prevalidate L config archive s header body = .ok pre) :
    pre.coinbaseValue = (body.coinbase.outputs.map Output.getBitcoinValue).sum := by
  simp only [prevalidate, bind_eq_ok_iff, okOr_eq_ok_iff, Except.ok.injEq] at h
  obtain ⟨_, -, _, -, _, -, _, -, _, -, value, hvalue, _, -, _, -, _, -, _, -, _, -, rfl⟩ := h
  exact checkedSum_eq hvalue

theorem value_spent {block : Block F} {t : Trace F}
    (ht : Prepares L config archive s block t) :
    t.spent.value + owed t.applied.update ≤ s.coins.value ∧ Paid t.applied.update := by
  have hpre := prevalidated_of_prevalidate ht.prevalidated
  have hsub := notSkipped_sublist t.pre.filledTransactions t.applied.skipped
  have hinputs : (t.txs.flatMap fun tx => tx.transaction.inputs).Nodup := by
    refine (hsub.flatMap _).nodup ?_
    have hall := hpre.inputs
    rw [← hpre.map_transaction, List.flatMap_map] at hall
    exact hall
  have hspent := value_applyAll_le ht.spent
  have hcoins : t.applied.state.coins = insertRows s.coins (Trace.coinbase L block) := by
    rw [applied_eq ht.applied]
  have hopened : (deleteOutpoints t.applied.state.coins
      (t.txs.flatMap fun tx => tx.transaction.inputs)).value ≤
        (deleteOutpoints s.coins (t.txs.flatMap fun tx => tx.transaction.inputs)).value +
          t.pre.coinbaseValue := by
    rw [hcoins, coinbaseValue_of_prevalidate ht.prevalidated,
      ← rowValues_coinbaseRows (L.coinbaseTxid block.header)]
    exact Coins.value_outside_insertRows_le
  have hbefore := value_inputs (fun tx htx => hpre.exists_filledFrom (hsub.subset htx)) hinputs
  have hfees := coinbaseValue_le ht.fees
  obtain ⟨hdues, hpaid⟩ := valueIn_of_effects
    (fun tx htx => hpre.valid tx (hsub.subset htx))
    (effects_of_applyTransactions ht.applied) paid_new
  have hnew : owed (StateUpdate.new F) = 0 := rfl
  refine ⟨?_, hpaid⟩
  unfold Trace.txs at *
  omega

end

end TransactionValue

end Truthcoin
