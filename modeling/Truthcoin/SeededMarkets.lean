import Truthcoin.Admission
import Truthcoin.ListedMarkets
import Truthcoin.TreasuryFrames
import Truthcoin.WrittenRecords

/-!
# The treasuries of new markets

A market that a block creates has its liquidity in an output of the transaction that creates it,
and its pointer refers to that output.
-/

namespace Truthcoin.SeededMarkets

open Truthcoin.Types Truthcoin.Table Truthcoin.Fallible Truthcoin.Arithmetic Truthcoin.Decisions
open Truthcoin.Markets Truthcoin.Blocks Truthcoin.Validation Truthcoin.Apply Truthcoin.ApplySteps
open Truthcoin.Connect Truthcoin.ConnectTrace Truthcoin.BlockChecks Truthcoin.TransactionValue
open Truthcoin.Admission Truthcoin.ListedMarkets Truthcoin.CostPotential
open Truthcoin.TreasuryFrames Truthcoin.WrittenRecords

variable {F : Type} {L : Library F} {marketId : MarketId}

theorem treasuryOutput_eq_some {outputs : List Output} {amount vout : Nat}
    (h : treasuryOutput marketId outputs = some (amount, vout)) :
    ∃ output, outputs[vout]? = some output ∧ treasuryAmount marketId output = some amount := by
  obtain ⟨entry, hentry, hamount⟩ := List.exists_of_findSome?_eq_some h
  obtain ⟨found, hfound, hpair⟩ := Option.map_eq_some_iff.mp hamount
  obtain ⟨rfl, rfl⟩ := Prod.mk.inj hpair
  exact ⟨entry.1, List.mem_zipIdx_iff_getElem?.mp hentry, hfound⟩

theorem treasuryOutput_fst (outputs : List Output) :
    (treasuryOutput marketId outputs).map Prod.fst =
      outputs.findSome? (treasuryAmount marketId) := by
  rw [treasuryOutput, List.map_findSome?]
  generalize 0 = start
  induction outputs generalizing start with
  | nil => rfl
  | cons output outputs ih =>
      rw [List.zipIdx_cons, List.findSome?_cons, List.findSome?_cons]
      cases hamount : treasuryAmount marketId output with
      | none => simpa [hamount] using ih (start + 1)
      | some amount => simp [hamount]

/-- The treasury of a new market is an output of the transaction that creates it, which spends
something. -/
structure Seeded (L : Library F) (txs : List (FilledTransaction F))
    (pointers : Table FundsKey OutPoint) (market : Market F) : Prop where
  positive : 0 < market.liquidityBaseSats
  bounded : market.liquidityBaseSats ≤ amountMax
  shaped : Shaped market
  treasury : ∃ tx ∈ txs, tx.spentUtxos ≠ [] ∧ ∃ vout output,
    tx.transaction.outputs[vout]? = some output ∧
    treasuryAmount market.id output = some market.liquidityBaseSats ∧
    pointers[(⟨market.id, false⟩ : FundsKey)]? = some (.regular (L.txid tx.transaction) vout)

theorem value_le_of_blockFee {tx : FilledTransaction F} {fee : Nat}
    (hplain : ¬ (tx.transaction.isTrade = true ∨ tx.transaction.isAmplifyBeta = true))
    (h : tx.blockFee = .ok fee) {output : Output} (houtput : output ∈ tx.transaction.outputs) :
    output.getBitcoinValue ≤ amountMax := by
  rw [FilledTransaction.blockFee, if_neg hplain] at h
  simp only [FilledTransaction.requiredFee, FilledTransaction.bitcoinFee, bind_eq_ok_iff,
    okOr_eq_ok_iff, Except.ok.injEq] at h
  obtain ⟨_, ⟨spent, -, out, hout, -⟩, -⟩ := h
  have hle := checkedSum_le hout
  rw [checkedSum_eq hout] at hle
  exact (List.le_sum_of_mem (List.mem_map_of_mem houtput)).trans hle

variable [F64 F] [DecidableEq F] {config : DecisionConfig} {archive : Archive} {height : Nat}

omit [DecidableEq F] in
theorem shaped_of_buildMarket {creation : MarketCreation F} {creator : Address} {d : Dbs F}
    {market : Market F} (h : buildMarket L creation creator d height = .ok market) :
    Shaped market := by
  simp only [buildMarket, bind_eq_ok_iff, mapError_eq_ok_iff] at h
  obtain ⟨_, -, h⟩ := h
  exact (dimensions_of_build h).2.2

/-- A valid creation makes a market with a treasury. -/
theorem seeded_of_applyMarketCreation {s₀ s s' : State F} {u u' : StateUpdate F}
    {tx : FilledTransaction F} {txs : List (FilledTransaction F)} {creation : MarketCreation F}
    {overrideHeight : Option Nat} {fee : Nat} (htx : tx ∈ txs)
    (hdata : tx.transaction.data = some (.createMarket creation))
    (hvalid : validateMarketCreation L config s₀ tx creation overrideHeight = .ok ())
    (hfee : tx.blockFee = .ok fee)
    (h : applyMarketCreation L s u tx creation height = .ok (s', u')) :
    ∃ market vout, u' = { u with marketCreations := u.marketCreations ++ [market] } ∧
      s'.markets.marketFundsUtxos = s.markets.marketFundsUtxos.insert ⟨market.id, false⟩
        (.regular (L.txid tx.transaction) vout) ∧
      Seeded L txs s'.markets.marketFundsUtxos market := by
  obtain ⟨⟨maker, acc, hterms⟩, -⟩ := validateMarketCreation_iff.mp hvalid
  simp only [applyMarketCreation, extractCreatorAddress, bind_eq_ok_iff, okOr_eq_ok_iff,
    Option.map_eq_some_iff] at h
  obtain ⟨creator, ⟨utxo, hutxo, rfl⟩, decisions, -, market, hmarket, h⟩ := h
  have hmaker : maker = utxo.address := by
    have hmade := hterms.made
    simp only [validateMakerAuth, bind_eq_ok_iff, okOr_eq_ok_iff, Except.ok.injEq] at hmade
    obtain ⟨_, -, first, hfirst, rfl⟩ := hmade
    rw [Option.some.inj (hfirst.symm.trans hutxo)]
  obtain ⟨amount, hamount, hpositive⟩ := hterms.treasury
  rw [hmaker, ← id_of_buildMarket hmarket, ← treasuryOutput_fst, Option.map_eq_some_iff] at hamount
  obtain ⟨⟨_, vout⟩, htreasury, rfl⟩ := hamount
  rw [htreasury] at h
  obtain ⟨rfl, rfl⟩ := Prod.mk.inj (Except.ok.inj h)
  obtain ⟨output, houtput, htreasuryAmount⟩ := treasuryOutput_eq_some htreasury
  have hspent : tx.spentUtxos ≠ [] := fun hnil => by simp [hnil] at hutxo
  have hshaped : Shaped market := shaped_of_buildMarket hmarket
  refine ⟨_, vout, rfl, rfl, Nat.pos_of_ne_zero hpositive, ?_, hshaped, tx, htx, hspent, vout,
    output, houtput, htreasuryAmount, Std.ExtTreeMap.getElem?_insert_self⟩
  have hplain : ¬ (tx.transaction.isTrade = true ∨ tx.transaction.isAmplifyBeta = true) := by
    simp [Transaction.isTrade, Transaction.isAmplifyBeta, hdata]
  have hvalue := value_le_of_blockFee hplain hfee (List.mem_of_getElem? houtput)
  rwa [getBitcoinValue_of_treasuryAmount htreasuryAmount] at hvalue

theorem unseeded_of_effect {s s' : State F} {u u' : StateUpdate F} {tx : FilledTransaction F}
    (h : Effect L height s u tx s' u')
    (hdata : ∀ creation, tx.transaction.data ≠ some (.createMarket creation)) :
    u'.marketCreations = u.marketCreations ∧
      s'.markets.marketFundsUtxos = s.markets.marketFundsUtxos := by
  cases h with
  | plain _ => exact ⟨rfl, rfl⟩
  | trade trade _ h => exact ⟨applyTrade_marketCreations h, rfl⟩
  | createMarket creation hcreate _ => exact absurd hcreate (hdata creation)
  | claimDecision payload _ h =>
      simp only [applyDecisionClaim, bind_eq_ok_iff, Except.ok.injEq] at h
      obtain ⟨_, -, _, -, rfl⟩ := h
      exact ⟨rfl, rfl⟩
  | submitVote vote _ h =>
      simp only [applySubmitVote, addVote, bind_eq_ok_iff, Except.ok.injEq] at h
      obtain ⟨_, -, _, -, _, -, rfl⟩ := h
      exact ⟨rfl, rfl⟩
  | submitBallot ballot _ h =>
      rw [applySubmitBallot_framed h]
      exact ⟨rfl, rfl⟩
  | transferReputation transfer _ h =>
      simp only [applyTransferReputation, bind_eq_ok_iff, Except.ok.injEq] at h
      obtain ⟨_, -, rfl⟩ := h
      exact ⟨rfl, rfl⟩
  | amplifyBeta amplify _ h =>
      obtain ⟨input, rfl⟩ := applyAmplifyBeta_eq_ok h
      exact ⟨rfl, rfl⟩

/-- For every id of a created market one of the created markets has its treasury, and the
pointers of other markets are those of before. -/
structure Seeds (L : Library F) (txs : List (FilledTransaction F))
    (pointers : Table FundsKey OutPoint) (s : State F) (u : StateUpdate F) : Prop where
  seeded : ∀ marketId ∈ u.marketCreations.map Market.id, ∃ market ∈ u.marketCreations,
    market.id = marketId ∧ Seeded L txs s.markets.marketFundsUtxos market
  others : ∀ marketId, marketId ∉ u.marketCreations.map Market.id →
    s.markets.marketFundsUtxos[(⟨marketId, false⟩ : FundsKey)]? =
      pointers[(⟨marketId, false⟩ : FundsKey)]?

omit [F64 F] [DecidableEq F] in
theorem Seeded.insert {txs : List (FilledTransaction F)} {pointers : Table FundsKey OutPoint}
    {market : Market F} (h : Seeded L txs pointers market) {marketId : MarketId}
    (hne : market.id ≠ marketId) (o : OutPoint) :
    Seeded L txs (pointers.insert ⟨marketId, false⟩ o) market := by
  obtain ⟨hpositive, hbounded, hshaped, tx, htx, hspent, vout, output, houtput, hamount,
    hpointer⟩ := h
  refine ⟨hpositive, hbounded, hshaped, tx, htx, hspent, vout, output, houtput, hamount, ?_⟩
  rw [lookup_insert, if_neg (by simpa using hne)]
  exact hpointer

theorem seeds_of_effect {s₀ s s' : State F} {u u' : StateUpdate F} {tx : FilledTransaction F}
    {txs : List (FilledTransaction F)} {pointers : Table FundsKey OutPoint} {fee : Nat}
    (htx : tx ∈ txs)
    (hvalid : ∀ data, tx.transaction.data = some data →
      validateTxData L config archive s₀ tx (some height) data = .ok ())
    (hfee : tx.blockFee = .ok fee) (hs : Seeds L txs pointers s u)
    (h : Effect L height s u tx s' u') : Seeds L txs pointers s' u' := by
  by_cases hcreate : ∃ creation, tx.transaction.data = some (.createMarket creation)
  · obtain ⟨creation, hdata⟩ := hcreate
    cases h with
    | createMarket creation' hdata' h =>
        obtain rfl := TxData.createMarket.inj (Option.some.inj (hdata.symm.trans hdata'))
        obtain ⟨market, vout, rfl, hpointers, hseeded⟩ :=
          seeded_of_applyMarketCreation htx hdata (hvalid _ hdata) hfee h
        refine ⟨fun marketId hmem => ?_, fun marketId hmem => ?_⟩
        · by_cases heq : market.id = marketId
          · exact ⟨market, by simp, heq, hseeded⟩
          · have hbefore : marketId ∈ u.marketCreations.map Market.id := by
              simpa [Ne.symm heq] using hmem
            obtain ⟨old, hold, rfl, hbacked⟩ := hs.seeded marketId hbefore
            refine ⟨old, by simp [hold], rfl, ?_⟩
            rw [hpointers]
            exact hbacked.insert (Ne.symm heq) _
        · simp only [List.map_append, List.map_cons, List.map_nil, List.mem_append,
            List.mem_singleton, not_or] at hmem
          rw [hpointers, lookup_insert, if_neg (by simpa using hmem.2)]
          exact hs.others marketId hmem.1
    | _ => simp_all
  · obtain ⟨hcreations, hpointers⟩ := unseeded_of_effect h fun creation hdata =>
      hcreate ⟨creation, hdata⟩
    refine ⟨?_, ?_⟩
    · rw [hcreations, hpointers]
      exact hs.seeded
    · rw [hcreations, hpointers]
      exact hs.others

theorem seeds_of_prepares {s : State F} {block : Block F} {t : Trace F}
    (ht : Prepares L config archive s block t) :
    Seeds L t.txs s.markets.marketFundsUtxos t.applied.state t.applied.update := by
  have hpre := prevalidated_of_prevalidate ht.prevalidated
  have hopened : (t.opened L s block).markets = s.markets := by rw [opened_eq]
  refine effects_preserve (P := Seeds L t.txs s.markets.marketFundsUtxos) ?_
    (effects_of_applyTransactions ht.applied) ⟨fun _ hmem => absurd hmem List.not_mem_nil, ?_⟩
  · intro tx htx s₁ u₁ s₂ u₂ hs heffect
    have hmem := (notSkipped_sublist _ _).subset htx
    obtain ⟨fee, hfee⟩ := hpre.valid tx hmem
    simp only [validateFilledTransaction, bind_eq_ok_iff] at hfee
    obtain ⟨_, -, _, -, hfee⟩ := hfee
    exact seeds_of_effect htx (fun data hdata => hpre.validTxData hmem hdata) hfee hs heffect
  · intro marketId _
    rw [hopened]

theorem seeded_of_prepares {s : State F} {block : Block F} {t : Trace F}
    (ht : Prepares L config archive s block t) {market : Market F}
    (hmarket : market ∈ t.applied.update.marketCreations) :
    Seeded L t.txs t.applied.state.markets.marketFundsUtxos market := by
  obtain ⟨hnodup, -⟩ := creations_of_validateAllChanges ht.changes
  obtain ⟨found, hfound, hid, hseeded⟩ :=
    (seeds_of_prepares ht).seeded market.id (List.mem_map_of_mem hmarket)
  rwa [List.inj_on_of_nodup_map hnodup hfound hmarket hid] at hseeded

end Truthcoin.SeededMarkets
