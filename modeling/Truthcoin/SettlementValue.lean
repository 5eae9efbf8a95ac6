import Truthcoin.FundsValue
import Truthcoin.ListedMarkets

/-!
# The value that settlements pay out

A settled market pays its shareholders and its author out of its treasury and splits its
fees. What it pays is no more than what its two funds hold, and these are spent.
-/

namespace Truthcoin.SettlementValue

open Truthcoin.Types Truthcoin.Table Truthcoin.Fallible Truthcoin.Arithmetic
open Truthcoin.Decisions Truthcoin.Markets Truthcoin.Voting Truthcoin.Blocks Truthcoin.Trading
open Truthcoin.Settlement Truthcoin.Consolidation Truthcoin.SettlementSteps
open Truthcoin.TagConnect Truthcoin.FundsValue Truthcoin.ListedMarkets

variable {F : Type} {L : Library F} {T : Tags}

def amounts (records : List FeePayoutRecord) : Nat :=
  (records.map FeePayoutRecord.amountSats).sum

theorem amounts_append (xs ys : List FeePayoutRecord) :
    amounts (xs ++ ys) = amounts xs + amounts ys := by
  simp [amounts]

theorem amounts_feeRecords (feeRole : FeeRole) (allocations : List (Address × Nat)) :
    amounts (feeRecords feeRole allocations) = allocated allocations := by
  rw [amounts, feeRecords, List.map_map]
  rfl

theorem poolOf_le (allocations : List (FeeRole × Nat)) (feeRole : FeeRole) :
    poolOf allocations feeRole ≤
      ((allocations.filter fun a => a.1 = feeRole).map Prod.snd).sum := by
  unfold poolOf
  cases hfound : allocations.find? fun a => a.1 = feeRole with
  | none => exact Nat.zero_le _
  | some a =>
      have hmem : a ∈ allocations.filter fun a => a.1 = feeRole :=
        List.mem_filter.mpr
          ⟨List.mem_of_find?_eq_some hfound, by simpa using List.find?_some hfound⟩
      exact List.single_le_sum (by simp) _ (List.mem_map_of_mem hmem)

theorem poolOf_sum_le (allocations : List (FeeRole × Nat)) :
    poolOf allocations .correctVoter + poolOf allocations .decisionAuthor +
      poolOf allocations .marketAuthor ≤ allocated allocations := by
  have hroles : [FeeRole.correctVoter, .decisionAuthor, .marketAuthor].Nodup := by decide
  have hsum := sum_filter_le Prod.fst Prod.snd hroles allocations
  have hvoter := poolOf_le allocations .correctVoter
  have hdecision := poolOf_le allocations .decisionAuthor
  have hmarket := poolOf_le allocations .marketAuthor
  simp only [List.map_cons, List.map_nil, List.sum_cons, List.sum_nil] at hsum
  unfold allocated
  omega

section

variable [F64 F]

theorem distributeVoterPool_le {decisionIds : List DecisionId}
    {correctVoters : DecisionId → List (Address × F)} {voterPool marketAuthorPool : Nat}
    {result : List FeePayoutRecord × Nat}
    (h : distributeVoterPool decisionIds correctVoters voterPool marketAuthorPool = .ok result) :
    amounts result.1 + result.2 ≤ voterPool + marketAuthorPool := by
  have hloop : ∀ (pools : List (DecisionId × Nat)) (acc acc' : List FeePayoutRecord × Nat),
      pools.foldlM (distributeToVoters correctVoters) acc = .ok acc' →
        amounts acc'.1 + acc'.2 ≤ amounts acc.1 + acc.2 + allocated pools := by
    intro pools
    induction pools with
    | nil =>
        intro acc acc' hrun
        rw [← Except.ok.inj hrun]
        exact Nat.le_add_right _ _
    | cons pool pools ih =>
        intro acc acc' hrun
        obtain ⟨acc₁, hfirst, hrest⟩ := bind_eq_ok_iff.mp hrun
        have hlater := ih acc₁ acc' hrest
        have hstep : amounts acc₁.1 + acc₁.2 ≤ amounts acc.1 + acc.2 + pool.2 := by
          unfold distributeToVoters at hfirst
          dsimp only at hfirst
          split at hfirst
          · obtain ⟨total, htotal, hfirst⟩ := bind_eq_ok_iff.mp hfirst
            obtain ⟨-, rfl⟩ := addU64_eq_ok_iff.mp htotal
            rw [← Except.ok.inj hfirst]
            exact (Nat.add_assoc _ _ _).ge
          · obtain ⟨alloc, halloc, hfirst⟩ := bind_eq_ok_iff.mp hfirst
            have hle := allocateProportionallyU64_le (mapError_eq_ok_iff.mp halloc)
            rw [← Except.ok.inj hfirst, amounts_append, amounts_feeRecords]
            dsimp only
            omega
        have hcons : allocated (pool :: pools) = pool.2 + allocated pools := by simp [allocated]
        omega
  unfold distributeVoterPool at h
  split at h
  · simp only [bind_eq_ok_iff, mapError_eq_ok_iff] at h
    obtain ⟨split, hsplit, hrun⟩ := h
    have hle := allocateProportionallyU64_le hsplit
    have hpaid := hloop _ _ _ hrun
    have hnil : amounts [] = 0 := rfl
    dsimp only at hpaid
    omega
  · rw [← Except.ok.inj h]
    exact Nat.add_le_add_right (Nat.zero_le _) _

theorem distributeAuthorPool_le {decisionIds : List DecisionId} {decisions : DecisionMap F}
    {pool : Nat} {records : List FeePayoutRecord}
    (h : distributeAuthorPool decisionIds decisions pool = .ok records) :
    amounts records ≤ pool := by
  unfold distributeAuthorPool at h
  split at h
  · simp only [bind_eq_ok_iff, mapError_eq_ok_iff, Except.ok.injEq] at h
    obtain ⟨alloc, halloc, rfl⟩ := h
    rw [amounts_feeRecords]
    exact allocateProportionallyU64_le halloc
  · rw [← Except.ok.inj h]
    exact Nat.zero_le _

theorem calculateFeeDistribution_le {s : State F} {market : Market F} {feeSats : Nat}
    {outcomes : List (DecisionId × F)} {decisions : DecisionMap F}
    {records : List FeePayoutRecord}
    (h : calculateFeeDistribution s market feeSats outcomes decisions = .ok records) :
    amounts records ≤ feeSats := by
  unfold calculateFeeDistribution at h
  split at h
  · rw [← Except.ok.inj h]
    exact Nat.zero_le _
  · simp only [bind_eq_ok_iff, mapError_eq_ok_iff, Except.ok.injEq] at h
    obtain ⟨split, hsplit, ⟨voterPayouts, marketAuthorPool⟩, hvoters, authorPayouts, hauthors,
      rfl⟩ := h
    have hperm : amounts ((voterPayouts ++ authorPayouts ++
        if marketAuthorPool > 0 then
          [(⟨market.creatorAddress, marketAuthorPool, .marketAuthor⟩ : FeePayoutRecord)]
        else []).insertionSort feeRecordLe) =
        amounts voterPayouts + amounts authorPayouts + marketAuthorPool := by
      rw [amounts, ((List.perm_insertionSort feeRecordLe _).map _).sum_eq]
      change amounts _ = _
      rw [amounts_append, amounts_append]
      split
      · rfl
      · have hzero : marketAuthorPool = 0 := by omega
        rw [hzero]
        rfl
    have htotal := allocateProportionallyU64_le hsplit
    have hpools := poolOf_sum_le split.allocations
    have hpaid := distributeVoterPool_le hvoters
    have hauthor := distributeAuthorPool_le hauthors
    dsimp only at hpaid hperm ⊢
    rw [hperm]
    omega

end

theorem rowValues_sharePayoutRows (height : Nat) (entries : List (SharePayoutRecord F × Nat)) :
    (rowValues (sharePayoutRows L height entries)).sum =
      ((entries.map Prod.fst).map SharePayoutRecord.payoutSats).sum := by
  induction entries with
  | nil => rfl
  | cons entry entries ih =>
      rw [sharePayoutRows] at ih ⊢
      rw [List.map_cons, List.map_cons, List.sum_cons, ← ih, List.filter_cons]
      split
      · rfl
      · rename_i hzero
        have hnone : entry.1.payoutSats = 0 := by simpa using hzero
        rw [hnone, Nat.zero_add]

theorem rowValues_feePayoutRows (marketId : MarketId) (height : Nat)
    (entries : List (FeePayoutRecord × Nat)) :
    (rowValues (entries.map (feePayoutRow L marketId height))).sum =
      amounts (entries.map Prod.fst) := by
  rw [rowValues, amounts, List.map_map, List.map_map]
  rfl

/-- What the creator of a settled market gets back. -/
def refundSats (summary : MarketPayoutSummary F) : Nat :=
  summary.creatorRefund.elim 0 CreatorRefund.amountSats

theorem rowValues_payoutRows (summary : MarketPayoutSummary F) (height : Nat) :
    (rowValues (payoutRows L summary height)).sum =
      (summary.payouts.map SharePayoutRecord.payoutSats).sum + amounts summary.feePayouts +
        refundSats summary := by
  have hshares := rowValues_sharePayoutRows (L := L) height summary.payouts.zipIdx
  have hfees := rowValues_feePayoutRows (L := L) summary.marketId height
    (summary.feePayouts.zipIdx summary.payouts.length)
  rw [List.zipIdx_map_fst] at hshares hfees
  have hrefund : (rowValues (summary.creatorRefund.toList.map
      (refundRow L summary height))).sum = refundSats summary := by
    unfold refundSats
    cases summary.creatorRefund <;> rfl
  rw [payoutRows, rowValues, List.map_append, List.map_append, List.sum_append, List.sum_append]
  exact congrArg₂ (· + ·) (congrArg₂ (· + ·) hshares hfees) hrefund

theorem calculateShareRedemptions_total [F64 F] {s : State F} {market : Market F}
    {treasurySats : Nat} {result : List (SharePayoutRecord F) × Nat}
    (h : calculateShareRedemptions s market treasurySats = .ok result) :
    result.2 = (result.1.map SharePayoutRecord.payoutSats).sum := by
  simp only [calculateShareRedemptions, bind_eq_ok_iff] at h
  obtain ⟨payouts, -, total, htotal, h⟩ := h
  split at h
  · obtain ⟨total', htotal', h⟩ := bind_eq_ok_iff.mp h
    rw [← Except.ok.inj h]
    exact sumU64_eq htotal'
  · rw [← Except.ok.inj h]
    exact sumU64_eq htotal

/-- The funds of markets as a state holds them. -/
def fundsOf (s : State F) : Funds :=
  ⟨s.coins, s.markets.marketFundsUtxos⟩

theorem sats_of_funds {s : State F} {marketId : MarketId} {isFee : Bool} {sats : Nat}
    (h : s.getMarketFundsSats marketId isFee = .ok sats) :
    (s.markets.getMarketFundsUtxo marketId isFee).toList =
        ((fundsOf s).rows ⟨marketId, isFee⟩).map Prod.fst ∧
      (rowValues ((fundsOf s).rows ⟨marketId, isFee⟩)).sum = sats := by
  cases hpointer : s.markets.getMarketFundsUtxo marketId isFee with
  | none =>
      have hrow : (fundsOf s).pointers[(⟨marketId, isFee⟩ : FundsKey)]? = none := hpointer
      rw [State.getMarketFundsSats, hpointer] at h
      rw [Funds.rows, hrow]
      exact ⟨rfl, Except.ok.inj h⟩
  | some outpoint =>
      have hrow : (fundsOf s).pointers[(⟨marketId, isFee⟩ : FundsKey)]? = some outpoint :=
        hpointer
      rw [State.getMarketFundsSats, hpointer] at h
      simp only [bind_eq_ok_iff, okOr_eq_ok_iff, Except.ok.injEq] at h
      obtain ⟨utxo, hutxo, rfl⟩ := h
      have hfound : (fundsOf s).coins.utxos[outpoint]? = some utxo := hutxo
      simp only [Funds.rows, hrow, hfound]
      exact ⟨rfl, Nat.add_zero _⟩

section

variable [F64 F]

theorem calculateSharePayouts_le {s : State F} {market : Market F} {height : Nat}
    {outcomes : List (DecisionId × F)} {decisions : DecisionMap F}
    {summary : MarketPayoutSummary F}
    (h : calculateSharePayouts s market height outcomes decisions = .ok summary) :
    summary.marketId = market.id ∧ ∃ treasurySats feeSats,
      s.getMarketFundsSats market.id false = .ok treasurySats ∧
      s.getMarketFundsSats market.id true = .ok feeSats ∧
      (rowValues (payoutRows L summary height)).sum ≤ treasurySats + feeSats := by
  simp only [calculateSharePayouts, bind_eq_ok_iff, okOr_eq_ok_iff, Except.ok.injEq] at h
  obtain ⟨treasury, htreasury, ⟨payouts, redeemed⟩, hredeemed, refund, hrefund, fees, hfees,
    feePayouts, hfeePayouts, _, -, rfl⟩ := h
  refine ⟨rfl, treasury, fees, htreasury, hfees, ?_⟩
  obtain ⟨hle, hleft⟩ := checkedSub_eq_some_iff.mp hrefund
  have htotal := calculateShareRedemptions_total hredeemed
  have hpaid := calculateFeeDistribution_le hfeePayouts
  have hcreator : ∀ r : CreatorRefund, r.amountSats = refund →
      (if refund > 0 then some r else none).elim 0 CreatorRefund.amountSats = refund := by
    intro r hr
    split
    · exact hr
    · exact (Nat.eq_zero_of_not_pos ‹_›).symm
  rw [rowValues_payoutRows, refundSats]
  dsimp only at hle hleft htotal ⊢
  rw [hcreator ⟨market.creatorAddress, refund⟩ rfl]
  omega

/-- Settling a market creates no value. -/
theorem value_settleMarket_le {s s' : State F} {market : Market F} {height : Nat}
    {entry : SettlementUndoEntry F} (hpointers : PointersTagged T s.markets.marketFundsUtxos)
    (hcoins : s.coins.Tagged T) (h : settleMarket L s market height = .ok (s', entry)) :
    s'.coins.value ≤ s.coins.value := by
  obtain ⟨priced, settled, db, -, hsummary, hdb, -, -, -, hs'⟩ := settleMarket_eq_ok h
  obtain ⟨hid, treasury, fees, htreasury, hfees, hle⟩ :=
    calculateSharePayouts_le (L := L) hsummary
  have hf : FundsTagged T (fundsOf s) := ⟨hcoins, hpointers⟩
  obtain ⟨htreasuryRow, htreasurySats⟩ := sats_of_funds htreasury
  obtain ⟨hfeeRow, hfeeSats⟩ := sats_of_funds hfees
  have houtpoints : fundsOutpoints db entry.payoutSummary.marketId =
      ((fundsOf s).rows ⟨priced.id, false⟩ ++ (fundsOf s).rows ⟨priced.id, true⟩).map
        Prod.fst := by
    rw [hid, fundsOutpoints, redeem_framed hdb, List.map_append, ← htreasuryRow, ← hfeeRow]
    rfl
  have hspent : (deleteOutpoints s.coins
      (((fundsOf s).rows ⟨priced.id, false⟩ ++ (fundsOf s).rows ⟨priced.id, true⟩).map
        Prod.fst)).value + (treasury + fees) = s.coins.value := by
    rw [← htreasurySats, ← hfeeSats, ← List.sum_append, rowValues, rowValues, ← List.map_append]
    refine Coins.value_deleteOutpoints ?_ ?_
    · rw [List.map_append, List.nodup_append]
      refine ⟨rows_nodup _ _, rows_nodup _ _, ?_⟩
      rintro o ho _ ho' rfl
      obtain ⟨row, hrow, rfl⟩ := List.mem_map.mp ho
      exact rows_disjoint hf (by simp) row hrow ho'
    · intro row hrow
      rcases List.mem_append.mp hrow with hrow | hrow
      · exact (rows_keys _ _ row hrow).2
      · exact (rows_keys _ _ row hrow).2
  rw [hs']
  dsimp only
  rw [houtpoints]
  refine Coins.value_outside_insertRows_le.trans ?_
  omega

theorem value_transitionMarkets_le (hT : TagsOf L T) {s s' : State F} {height : Nat}
    {entries : List (SettlementUndoEntry F)} (hcoins : s.coins.Tagged T)
    (hpointers : PointersTagged T s.markets.marketFundsUtxos)
    (h : transitionAndPayoutResolvedMarkets L s height = .ok (s', entries)) :
    s'.coins.value ≤ s.coins.value := by
  refine (foldlM_preserves
    (P := fun acc : State F × List (SettlementUndoEntry F) =>
      acc.1.coins.Tagged T ∧ PointersTagged T acc.1.markets.marketFundsUtxos ∧
        acc.1.coins.value ≤ s.coins.value)
    ?_ h ⟨hcoins, hpointers, Nat.le_refl _⟩).2.2
  rintro market - ⟨s₁, es⟩ acc' ⟨hc, hp, hvalue⟩ hstep
  unfold transitionMarket at hstep
  split at hstep
  · obtain ⟨⟨s₂, entry⟩, hsettle, hstep⟩ := bind_eq_ok_iff.mp hstep
    rw [← Except.ok.inj hstep]
    obtain ⟨hc₂, hp₂, -⟩ := settleMarket_tagged hT hc hp hsettle
    exact ⟨hc₂, hp₂, (value_settleMarket_le hp hc hsettle).trans hvalue⟩
  · rw [← Except.ok.inj hstep]
    exact ⟨hc, hp, hvalue⟩

end

end Truthcoin.SettlementValue
