import Truthcoin.Disconnect
import Truthcoin.Mempool
import Truthcoin.SampleMarkets

/-!
# Block templates

The transactions that a node proposes for its next block, with the fee that their coinbase
may claim. The template counts the same fee for a transaction as the validation of the block
does, except for an amplification, for which it counts all that is left of the inputs.
-/

namespace Truthcoin.BlockTemplate

open Truthcoin.Types Truthcoin.Table Truthcoin.Fallible Truthcoin.Arithmetic
open Truthcoin.Markets Truthcoin.Blocks Truthcoin.Trading Truthcoin.Validation
open Truthcoin.Apply Truthcoin.Connect Truthcoin.Disconnect Truthcoin.Mempool

variable {F : Type}

/-- A filled transaction with the signatures for its inputs and the proof of its actor. -/
structure AuthorizedFilled (F : Type) where
  transaction : FilledTransaction F
  authorizations : List Authorization
  actorProof : Option Authorization

/-- What is chosen so far: the shares are those of the markets after the chosen trades. -/
structure Template (F : Type) where
  transactions : List (AuthorizedFilled F)
  fee : Nat
  spentUtxos : List OutPoint
  cumulativeStates : Table MarketId (List I64)
  pool : MemPool F

section

variable [F64 F] (L : Library F)

/-- The cost of a buy or the proceeds of a sell are within the limit of the trade. -/
def withinLimit (market : Market F) (trade : Trade) (currentShares newShares : List I64) :
    Except Error Bool :=
  if trade.isBuy then do
    let cost ← buyCost L ⟨"LMSR calculation failed", "Buy cost calculation failed"⟩
      market.tradingFee currentShares newShares (marketBeta market)
    .ok (decide (cost.totalCostSats ≤ trade.limitSats))
  else do
    let proceeds ← sellProceeds L
      ⟨"LMSR calculation failed", "Sell proceeds calculation failed"⟩
      market.tradingFee currentShares newShares (marketBeta market)
    .ok (decide (trade.limitSats = 0 ∨ trade.limitSats ≤ proceeds.netProceedsSats))

/-- The trader owns the shares of a sell. -/
def ownsShares (s : State F) (trade : Trade) : Bool :=
  let ownedShares := (s.markets.ownedShares trade.trader trade.position).val
  decide (0 ≤ ownedShares ∧ trade.sharesAbs ≤ ownedShares.toNat)

/-- The cumulative shares after a transaction that passes, or none if it is to be skipped. -/
def checkTradeSlippage (s : State F) (tx : FilledTransaction F)
    (cumulativeStates : Table MarketId (List I64)) :
    Except Error (Option (Table MarketId (List I64))) :=
  match tx.transaction.data with
  | some (.trade trade) =>
      match s.markets.getMarket trade.marketId with
      | none => .ok none
      | some market =>
          if !trade.isBuy && !ownsShares s trade then .ok none
          else do
            let currentShares := cumulativeStates[trade.marketId]?.getD market.shares
            let newShares ← addAt currentShares trade.outcomeIndex trade.shares
            if ← withinLimit L market trade currentShares newShares then
              .ok (some (cumulativeStates.insert trade.marketId newShares))
            else .ok none
  | _ => .ok (some cumulativeStates)

/-- Constant for trades, inputs less outputs for all others. -/
def templateFee (tx : FilledTransaction F) : Except Error Nat :=
  if tx.transaction.isTrade then .ok tradeMinerFeeSats
  else do
    let valueIn ← okOr tx.spentBitcoinValue .amountOverflow
    let valueOut ← okOr tx.bitcoinValueOut .amountOverflow
    okOr (checkedSub valueIn valueOut) .amountOverflow

/-- Add a filled transaction to the template. -/
def Template.add (acc : Template F) (tx : AuthorizedTransaction F) (filled : FilledTransaction F)
    (cumulativeStates : Table MarketId (List I64)) : Except Error (Template F) := do
  let txFee ← templateFee filled
  let fee ← okOr (checkedAdd acc.fee txFee) .amountUnderflow
  .ok { acc with
    transactions := acc.transactions ++ [⟨filled, tx.authorizations, tx.actorProof⟩]
    fee
    spentUtxos := acc.spentUtxos ++ tx.transaction.inputs
    cumulativeStates }

/-- Choose a transaction, skip it for this block, or delete it from the pool. -/
def chooseTransaction (s : State F) (acc : Template F) (tx : AuthorizedTransaction F) :
    Except Error (Template F) :=
  if tx.transaction.inputs.any (· ∈ acc.spentUtxos) then
    .ok { acc with pool := acc.pool.delete L (L.txid tx.transaction) }
  else
    match s.fillTransaction tx.transaction with
    | .error _ => .ok { acc with pool := acc.pool.delete L (L.txid tx.transaction) }
    | .ok filled =>
        match checkTradeSlippage L s filled acc.cumulativeStates with
        | .ok (some cumulativeStates) => acc.add tx filled cumulativeStates
        | .ok none => .ok acc
        | .error .panic => .error .panic
        | .error _ => .ok acc

/-- The first transactions of the pool that are not in the list of trades, and then the
trades in the order of insertion. -/
def combinedTxs (p : MemPool F) (number : Nat) : List (AuthorizedTransaction F) :=
  let allTxs := (p.transactions.toList.map Prod.snd).take number
  let tradeTxs := p.takeTradesOrdered
  let tradeTxids := tradeTxs.map fun tx => L.txid tx.transaction
  let nonTradeTxs := allTxs.filter fun tx => L.txid tx.transaction ∉ tradeTxids
  (nonTradeTxs ++ tradeTxs).take number

def getTransactions (s : State F) (p : MemPool F) (number : Nat) : Except Error (Template F) :=
  (combinedTxs L p number).foldlM (chooseTransaction L s) ⟨[], 0, [], ∅, p⟩

end

/-- The fees of the transactions that are not skipped. -/
def actualTotalFees (filledTxs : List (FilledTransaction F)) (skippedIndices : List Nat) :
    Except Error Nat :=
  (filledTxs.zipIdx.filter fun entry => entry.2 ∉ skippedIndices).foldlM
    (fun total entry => do
      let fee ← entry.1.blockFee
      okOr (checkedAdd total fee) .amountOverflow)
    0

/-- What an amplification leaves of its inputs. -/
def surplus (tx : FilledTransaction F) : Nat :=
  (tx.spentUtxos.map FilledOutput.getBitcoinValue).sum -
    (tx.transaction.outputs.map Output.getBitcoinValue).sum

def amplifications (txs : List (FilledTransaction F)) : List (FilledTransaction F) :=
  txs.filter fun tx => tx.transaction.isAmplifyBeta

variable {L : Library F} {s : State F} {p : MemPool F} {number : Nat} {acc acc' : Template F}
  {tx : FilledTransaction F} {txs : List (FilledTransaction F)} {fee : Nat}

theorem actualTotalFees_nil : actualTotalFees txs [] = txs.foldlM (fun total tx => do
    let fee ← tx.blockFee
    okOr (checkedAdd total fee) .amountOverflow) 0 := by
  have hfilter : (txs.zipIdx.filter fun entry => entry.2 ∉ ([] : List Nat)) = txs.zipIdx := by
    simp
  rw [actualTotalFees, hfilter]
  conv_rhs => rw [← List.zipIdx_map_fst 0 txs, List.foldlM_map]

theorem foldlM_blockFee_eq {fees : List Nat} {start : Nat}
    (hfees : List.Forall₂ (fun tx fee => FilledTransaction.blockFee tx = .ok fee) txs fees)
    (hmax : start + fees.sum ≤ amountMax) :
    txs.foldlM (fun total tx => do
      let fee ← FilledTransaction.blockFee tx
      okOr (checkedAdd total fee) .amountOverflow) start = .ok (start + fees.sum) := by
  induction hfees generalizing start with
  | nil => rw [List.foldlM_nil, List.sum_nil, Nat.add_zero]; rfl
  | cons hfee hfees ih =>
      rename_i tx fee txs fees
      rw [List.sum_cons] at hmax ⊢
      have hadd : checkedAdd start fee = some (start + fee) :=
        checkedAdd_eq_some_iff.mpr ⟨by omega, rfl⟩
      rw [List.foldlM_cons, hfee, ok_bind, hadd, okOr_some, ok_bind, ih (by omega), Nat.add_assoc]

theorem foldlM_blockFee_of_ok {start total : Nat}
    (h : txs.foldlM (fun total tx => do
      let fee ← FilledTransaction.blockFee tx
      okOr (checkedAdd total fee) Error.amountOverflow) start = .ok total) :
    ∃ fees, List.Forall₂ (fun tx fee => FilledTransaction.blockFee tx = .ok fee) txs fees ∧
      total = start + fees.sum := by
  induction txs generalizing start with
  | nil => exact ⟨[], .nil, (Except.ok.inj h).symm⟩
  | cons tx txs ih =>
      rw [List.foldlM_cons, bind_eq_ok_iff] at h
      obtain ⟨next, hnext, hrest⟩ := h
      obtain ⟨fee, hfee, hadd⟩ := bind_eq_ok_iff.mp hnext
      obtain ⟨fees, hfees, rfl⟩ := ih hrest
      have hsum := (checkedAdd_eq_some_iff.mp (okOr_eq_ok_iff.mp hadd)).2
      refine ⟨fee :: fees, .cons hfee hfees, ?_⟩
      rw [hsum, List.sum_cons, Nat.add_assoc]

theorem not_isTrade_of_isAmplifyBeta (h : tx.transaction.isAmplifyBeta = true) :
    tx.transaction.isTrade = false := by
  unfold Transaction.isAmplifyBeta at h
  unfold Transaction.isTrade
  split at h
  · rename_i heq
    rw [heq]
  · cases h

/-- The template and the validation count the same fee, unless it is an amplification. -/
theorem templateFee_cases (h : templateFee tx = .ok fee) :
    (tx.transaction.isAmplifyBeta = false ∧ tx.blockFee = .ok fee) ∨
      tx.transaction.isAmplifyBeta = true ∧ tx.blockFee = .ok tradeMinerFeeSats ∧
        fee = surplus tx := by
  rw [templateFee] at h
  have hdifference (htrade : tx.transaction.isTrade = false)
      (h : (do
        let valueIn ← okOr tx.spentBitcoinValue Error.amountOverflow
        let valueOut ← okOr tx.bitcoinValueOut .amountOverflow
        okOr (checkedSub valueIn valueOut) .amountOverflow) = .ok fee) :
      tx.requiredFee = .ok fee ∧ fee = surplus tx := by
    obtain ⟨valueIn, hin, h⟩ := bind_eq_ok_iff.mp h
    obtain ⟨valueOut, hout, h⟩ := bind_eq_ok_iff.mp h
    rw [okOr_eq_ok_iff] at hin hout h
    constructor
    · rw [FilledTransaction.requiredFee, FilledTransaction.bitcoinFee, hin, okOr_some, ok_bind,
        hout, okOr_some, ok_bind, ok_bind, h, okOr_some]
    · rw [(checkedSub_eq_some_iff.mp h).2, checkedSum_eq hin, checkedSum_eq hout, surplus]
  by_cases htrade : tx.transaction.isTrade = true
  · left
    rw [if_pos htrade] at h
    refine ⟨?_, ?_⟩
    · by_contra hamplify
      have hnot := not_isTrade_of_isAmplifyBeta (Bool.of_not_eq_false hamplify)
      rw [htrade] at hnot
      cases hnot
    · rw [FilledTransaction.blockFee, if_pos (.inl htrade), h]
  · rw [if_neg htrade] at h
    obtain ⟨hrequired, hsurplus⟩ := hdifference (Bool.of_not_eq_true htrade) h
    cases hamplify : tx.transaction.isAmplifyBeta with
    | false =>
        left
        refine ⟨rfl, ?_⟩
        rw [FilledTransaction.blockFee, if_neg (by simp [htrade, hamplify]), hrequired]
    | true =>
        right
        exact ⟨rfl, by rw [FilledTransaction.blockFee, if_pos (.inr hamplify)], hsurplus⟩

/-- The fee of a template is the sum of the fees of its transactions. -/
structure Priced (acc : Template F) (fees : List Nat) : Prop where
  each : List.Forall₂ (fun tx fee => templateFee tx.transaction = .ok fee) acc.transactions fees
  total : acc.fee = fees.sum
  max : acc.fee ≤ amountMax

section

variable [F64 F]

theorem Priced.chooseTransaction {fees : List Nat} {tx : AuthorizedTransaction F}
    (h : Priced acc fees) (hchoose : chooseTransaction L s acc tx = .ok acc') :
    ∃ fees', Priced acc' fees' := by
  have hsame (pool : MemPool F) (heq : Except.ok { acc with pool } = (.ok acc' : Except Error _)) :
      ∃ fees', Priced acc' fees' := by
    obtain rfl := Except.ok.inj heq
    exact ⟨fees, h.each, h.total, h.max⟩
  unfold BlockTemplate.chooseTransaction at hchoose
  split at hchoose
  · exact hsame _ hchoose
  · split at hchoose
    · exact hsame _ hchoose
    · rename_i filled hfilled
      split at hchoose
      · rename_i cumulativeStates hslippage
        simp only [Template.add, bind_eq_ok_iff, okOr_eq_ok_iff] at hchoose
        obtain ⟨fee, hfee, total, htotal, hadd⟩ := hchoose
        obtain ⟨hmax, rfl⟩ := checkedAdd_eq_some_iff.mp htotal
        obtain rfl := Except.ok.inj hadd
        refine ⟨fees ++ [fee], ?_, ?_, hmax⟩
        · exact List.rel_append h.each (.cons hfee .nil)
        · rw [List.sum_append, List.sum_singleton, ← h.total]
      · exact hsame acc.pool hchoose
      · cases hchoose
      · exact hsame acc.pool hchoose

theorem priced_of_getTransactions {template : Template F}
    (h : getTransactions L s p number = .ok template) : ∃ fees, Priced template fees := by
  have hfold (txs : List (AuthorizedTransaction F)) (acc : Template F) (fees : List Nat)
      (hacc : Priced acc fees) (h : txs.foldlM (BlockTemplate.chooseTransaction L s) acc =
        .ok template) : ∃ fees, Priced template fees := by
    induction txs generalizing acc fees with
    | nil =>
        obtain rfl := Except.ok.inj h
        exact ⟨fees, hacc⟩
    | cons tx txs ih =>
        rw [List.foldlM_cons, bind_eq_ok_iff] at h
        obtain ⟨next, hnext, hrest⟩ := h
        obtain ⟨fees', hpriced⟩ := hacc.chooseTransaction hnext
        exact ih _ fees' hpriced hrest
  exact hfold _ _ [] ⟨.nil, rfl, Nat.zero_le _⟩ h

end

theorem sum_blockFees {rows : List (AuthorizedFilled F)} {fees : List Nat}
    (h : List.Forall₂ (fun tx fee => templateFee tx.transaction = .ok fee) rows fees) :
    ∃ blockFees, List.Forall₂ (fun tx fee => FilledTransaction.blockFee tx = .ok fee)
        (rows.map AuthorizedFilled.transaction) blockFees ∧
      blockFees.sum +
          ((amplifications (rows.map AuthorizedFilled.transaction)).map surplus).sum =
        fees.sum +
          (amplifications (rows.map AuthorizedFilled.transaction)).length * tradeMinerFeeSats := by
  induction h with
  | nil => exact ⟨[], .nil, by simp [amplifications]⟩
  | cons hfee _ ih =>
      rename_i tx fee rows fees _
      obtain ⟨blockFees, hblock, hsum⟩ := ih
      rcases templateFee_cases hfee with ⟨hother, hsame⟩ | ⟨hamplify, hblockFee, rfl⟩
      · refine ⟨fee :: blockFees, .cons hsame hblock, ?_⟩
        rw [List.map_cons, amplifications, List.filter_cons_of_neg (by simp [hother]),
          List.sum_cons, List.sum_cons]
        rw [amplifications] at hsum
        omega
      · refine ⟨tradeMinerFeeSats :: blockFees, .cons hblockFee hblock, ?_⟩
        rw [List.map_cons, amplifications, List.filter_cons_of_pos (by simp [hamplify]),
          List.map_cons, List.sum_cons, List.sum_cons, List.sum_cons, List.length_cons,
          Nat.succ_mul]
        rw [amplifications] at hsum
        omega

/-- The fee of the template is the sum that the validation computes if and only if the
amplifications together leave the constant fee for each of them. -/
theorem fee_eq_actualTotalFees_iff [F64 F] {template : Template F}
    (h : getTransactions L s p number = .ok template) :
    actualTotalFees (template.transactions.map AuthorizedFilled.transaction) [] =
        .ok template.fee ↔
      ((amplifications (template.transactions.map AuthorizedFilled.transaction)).map surplus).sum =
        (amplifications (template.transactions.map AuthorizedFilled.transaction)).length *
          tradeMinerFeeSats := by
  obtain ⟨fees, hpriced⟩ := priced_of_getTransactions h
  obtain ⟨blockFees, hblock, hsum⟩ := sum_blockFees hpriced.each
  rw [actualTotalFees_nil]
  constructor
  · intro hok
    obtain ⟨fees', hfees', htotal⟩ := foldlM_blockFee_of_ok hok
    have hunique : fees' = blockFees := by
      have hright : Relator.RightUnique
          (fun (tx : FilledTransaction F) fee => tx.blockFee = .ok fee) :=
        fun _ _ _ h h' => Except.ok.inj (h.symm.trans h')
      exact List.right_unique_forall₂' hright hfees' hblock
    rw [hunique, Nat.zero_add, hpriced.total] at htotal
    omega
  · intro heq
    have htotal : template.fee = blockFees.sum := by
      rw [hpriced.total]
      omega
    have hmax := hpriced.max
    rw [htotal] at hmax ⊢
    rw [foldlM_blockFee_eq hblock (by omega), Nat.zero_add]

section

open Truthcoin.Types Truthcoin.SampleChain Truthcoin.SampleMarkets

/-- The owner adds 5000 to the liquidity of a market from an input of 100000. -/
def amplifyBeta : AmplifyBeta := ⟨marketNamed "", 5000, owner⟩

def amplifying : Transaction Rat := spending 3 [] (.amplifyBeta amplifyBeta)

def amplifyingFilled : FilledTransaction Rat :=
  ⟨amplifying, [⟨owner, .bitcoin 100000, []⟩], none⟩

def amplifyingPool : MemPool Rat :=
  MemPool.empty.step chainLibrary (.put ⟨amplifying, [⟨owner, 0⟩], none⟩)

/-- Three blocks, the last one of which creates the market. -/
def amplifyBlocks : List (Block Rat) :=
  [blockAt 1 [claiming 0 marketDecision], blockAt 2 [creating 1 "" 1]]

/-- The template claims what the amplification leaves of its input, the validation grants the
constant fee. -/
theorem fee_ne_actualTotalFees :
    ∃ s template, runBlocks marketConfig 5 amplifyBlocks = .ok s ∧
      validateAmplifyBeta s amplifyingFilled amplifyBeta = .ok () ∧
      getTransactions chainLibrary s amplifyingPool 10 = .ok template ∧
      template.fee = 100000 ∧
      actualTotalFees (template.transactions.map AuthorizedFilled.transaction) [] = .ok 1000 := by
  have hcomputed : holds (runBlocks marketConfig 5 amplifyBlocks) (fun s =>
      holds (validateAmplifyBeta s amplifyingFilled amplifyBeta) (fun _ => true) &&
        holds (getTransactions chainLibrary s amplifyingPool 10) fun template =>
          decide (template.fee = 100000) &&
            holds (actualTotalFees (template.transactions.map AuthorizedFilled.transaction) [])
              fun fee => decide (fee = 1000)) = true := by
    decide +kernel
  obtain ⟨s, hs, htest⟩ := holds_iff.mp hcomputed
  rw [Bool.and_eq_true] at htest
  obtain ⟨_, hvalid, -⟩ := holds_iff.mp htest.1
  obtain ⟨template, htemplate, htest⟩ := holds_iff.mp htest.2
  rw [Bool.and_eq_true, decide_eq_true_eq] at htest
  obtain ⟨fee, hfee, heq⟩ := holds_iff.mp htest.2
  rw [decide_eq_true_eq] at heq
  exact ⟨s, template, hs, hvalid, htemplate, htest.1, heq ▸ hfee⟩

/-- The second standard slot of period 1 is claimed next to the amplification. -/
def mixedPool : MemPool Rat :=
  amplifyingPool.step chainLibrary (.put ⟨claiming 4 (marketDecision + 1), [⟨owner, 0⟩], none⟩)

def claimPool : MemPool Rat :=
  MemPool.empty.step chainLibrary (.put ⟨claiming 0 marketDecision, [⟨owner, 0⟩], none⟩)

/-- The fee of a template with a claim alone is granted, that of a template with a claim and
an amplification is not. -/
theorem fee_eq_actualTotalFees_iff_mixed :
    (∃ s template, genesisWith marketConfig 5 = .ok s ∧
      getTransactions chainLibrary s claimPool 10 = .ok template ∧
      template.transactions.length = 1 ∧
      actualTotalFees (template.transactions.map AuthorizedFilled.transaction) [] =
        .ok template.fee) ∧
    ∃ s template, runBlocks marketConfig 5 amplifyBlocks = .ok s ∧
      getTransactions chainLibrary s mixedPool 10 = .ok template ∧
      template.transactions.length = 2 ∧
      actualTotalFees (template.transactions.map AuthorizedFilled.transaction) [] ≠
        .ok template.fee := by
  constructor
  · have hcomputed : holds (genesisWith marketConfig 5) (fun s =>
        holds (getTransactions chainLibrary s claimPool 10) fun template =>
          decide (template.transactions.length = 1) &&
          decide (amplifications
            (template.transactions.map AuthorizedFilled.transaction)).isEmpty) = true := by
      decide +kernel
    obtain ⟨s, hs, htest⟩ := holds_iff.mp hcomputed
    obtain ⟨template, htemplate, htests⟩ := holds_iff.mp htest
    simp only [Bool.and_eq_true, decide_eq_true_eq, List.isEmpty_iff] at htests
    refine ⟨s, template, hs, htemplate, htests.1, ?_⟩
    refine (fee_eq_actualTotalFees_iff htemplate).mpr ?_
    rw [htests.2]
    rfl
  · have hcomputed : holds (runBlocks marketConfig 5 amplifyBlocks) (fun s =>
        holds (getTransactions chainLibrary s mixedPool 10) fun template =>
          decide (template.transactions.length = 2) &&
          decide ((amplifications (template.transactions.map AuthorizedFilled.transaction)).map
            surplus = [100000])) = true := by
      decide +kernel
    obtain ⟨s, hs, htest⟩ := holds_iff.mp hcomputed
    obtain ⟨template, htemplate, htests⟩ := holds_iff.mp htest
    simp only [Bool.and_eq_true, decide_eq_true_eq] at htests
    refine ⟨s, template, hs, htemplate, htests.1, fun hgranted => ?_⟩
    have hsurplus := (fee_eq_actualTotalFees_iff htemplate).mp hgranted
    have hlength := congrArg List.length htests.2
    rw [List.length_map] at hlength
    rw [htests.2, hlength] at hsurplus
    exact absurd hsurplus (by decide)

end

end Truthcoin.BlockTemplate
