import Truthcoin.ExactCosts
import Truthcoin.SharePayouts
import Truthcoin.ShareSettlements
import Truthcoin.ShareWrites

/-!
# Payouts in exact numbers

On numbers whose operations do not round, a position is redeemed for its value to the nearest
satoshi. The positions of a market together are worth no more than its largest outcome, when its
final prices add up to one at most, and a treasury that has as much redeems them.
-/

namespace Truthcoin.ExactPayouts

open Truthcoin.Types Truthcoin.Table Truthcoin.Fallible Truthcoin.Arithmetic
open Truthcoin.Markets Truthcoin.Blocks Truthcoin.Settlement Truthcoin.Ledgers
open Truthcoin.Ledgers.Ledger Truthcoin.ShareBooks Truthcoin.ShareSettlements
open Truthcoin.ShareWrites Truthcoin.SharePayouts Truthcoin.ExactCosts

variable {F : Type} {db : MarketsDatabase F} {market : Market F} {marketId : MarketId}

theorem map_holdings (db : MarketsDatabase F) (marketId : MarketId) :
    ((holdings db marketId).map fun h =>
      (h.1, (⟨marketId, h.2.1⟩ : PositionKey), h.2.2.val)) = positionPosts db marketId := by
  rw [holdings, List.map_flatMap, ← flatMap_shareholders]
  simp only [List.map_map]
  rfl

theorem held_of_positionPosts {p : Address × PositionKey × ℤ} (hp : p ∈ positionPosts db marketId) :
    (bookOf db).held p.1 p.2.1 = p.2.2 := by
  obtain ⟨row, hrow, hp⟩ := List.mem_flatMap.mp hp
  obtain ⟨position, hposition, rfl⟩ := List.mem_map.mp hp
  have hlookup := mem_toList_iff.mp (List.mem_filter.mp hposition).1
  rw [held_of_row (mem_toList_iff.mp hrow)]
  dsimp only
  rw [ShareAccount.getPosition, hlookup]
  rfl

theorem issued_of_outcome (hmarket : db.getMarket marketId = some market)
    (htrading : market.marketState = .trading) (outcomeIndex : Nat) :
    (bookOf db).ledger.issued ⟨marketId, outcomeIndex⟩ =
      (outcomeShares market outcomeIndex).getD 0 := by
  have hkey : db.getMarket (⟨marketId, outcomeIndex⟩ : PositionKey).marketId = some market :=
    hmarket
  have hstate := (state_of_getMarket hkey).trans (congrArg some htrading)
  rw [issued_of_trading hstate, shares_of_getMarket hkey]

theorem issuedBy_positionPosts (h : SharesHeld db) (hmarket : db.getMarket marketId = some market)
    (htrading : market.marketState = .trading) (outcomeIndex : Nat) :
    issuedBy (positionPosts db marketId) ⟨marketId, outcomeIndex⟩ =
      (outcomeShares market outcomeIndex).getD 0 := by
  have hheld : ∀ a, heldBy (positionPosts db marketId) a ⟨marketId, outcomeIndex⟩ =
      (bookOf db).ledger.held a ⟨marketId, outcomeIndex⟩ := by
    intro a
    rw [heldBy_positionPosts, if_pos rfl]
    rfl
  rw [issuedBy_eq_finsum, finsum_congr hheld, ← h.balanced.total]
  exact issued_of_outcome hmarket htrading outcomeIndex

theorem lt_of_mem_holdings (h : SharesHeld db) (hmarket : db.getMarket marketId = some market)
    (htrading : market.marketState = .trading) {holding : Holding}
    (hmem : holding ∈ holdings db marketId) :
    0 < holding.2.2.val ∧ holding.2.1 < market.shares.length := by
  have hpost : (holding.1, (⟨marketId, holding.2.1⟩ : PositionKey), holding.2.2.val) ∈
      positionPosts db marketId := by
    rw [← map_holdings]
    exact List.mem_map_of_mem (f := fun h : Holding =>
      (h.1, (⟨marketId, h.2.1⟩ : PositionKey), h.2.2.val)) hmem
  have hpositive := positive_of_positionPosts h.positive hpost
  refine ⟨hpositive, ?_⟩
  by_contra hout
  have hissued := h.balanced.held_le (k := (⟨marketId, holding.2.1⟩ : PositionKey))
    (fun a => h.positive.held_nonneg a _) holding.1
  have hnone : market.shares[holding.2.1]? = none := List.getElem?_eq_none (not_lt.mp hout)
  rw [issued_of_outcome hmarket htrading, outcomeShares, hnone] at hissued
  have hheld := held_of_positionPosts hpost
  dsimp only at hheld hpositive
  change (bookOf db).held holding.1 ⟨marketId, holding.2.1⟩ ≤ 0 at hissued
  omega

section

variable [F64 F] {val : F → ℝ} {prices : List F} {hs : List Holding}

/-- What the shares of a position are worth at the final price of their outcome. -/
noncomputable def worth (val : F → ℝ) (prices : List F) (h : Holding) : ℝ :=
  max (h.2.2.val * val (prices.getD h.2.1 F64.zero)) 0

theorem worth_nonneg (val : F → ℝ) (prices : List F) (h : Holding) : 0 ≤ worth val prices h :=
  le_max_right _ _

/-- The record of a position before anything is taken back. -/
noncomputable def recordAt (val : F → ℝ) (market : Market F) (h : Holding) :
    SharePayoutRecord F :=
  ⟨market.id, h.1, h.2.1, h.2.2, market.finalPrices.getD h.2.1 F64.zero,
    (round (worth val market.finalPrices h)).toNat⟩

theorem toNat_round (v : ℝ) : (round v).toNat = ⌊v + 1 / 2⌋₊ := by
  rw [round_eq, Int.floor_toNat]

theorem max_round_zero (x : ℝ) :
    max (if x < 0 then -(⌊-x + 1 / 2⌋ : ℝ) else ⌊x + 1 / 2⌋) 0 = (round (max x 0)).toNat := by
  rw [toNat_round]
  rcases lt_or_ge x 0 with hneg | hnonneg
  · have hhalf : ⌊(0 : ℝ) + 1 / 2⌋₊ = 0 := by norm_num
    have hfloor : (0 : ℤ) ≤ ⌊-x + 1 / 2⌋ := Int.floor_nonneg.mpr (by linarith)
    rw [if_pos hneg, max_eq_right hneg.le, hhalf, Nat.cast_zero]
    exact max_eq_right (neg_nonpos.mpr (by exact_mod_cast hfloor))
  · have hfloor : (0 : ℤ) ≤ ⌊x + 1 / 2⌋ := Int.floor_nonneg.mpr (by linarith)
    rw [if_neg (not_lt.mpr hnonneg), max_eq_left hnonneg, natCast_floor_eq_intCast_floor]
    · exact max_eq_left (by exact_mod_cast hfloor)
    · linarith

theorem val_redemptionValue (hval : ExactOps val) (h : Holding) :
    val (redemptionValue (recordAt val market h)) = worth val market.finalPrices h := by
  rw [redemptionValue, hval.max, hval.mul, val_ofInt hval.toExact, hval.zero]
  rfl

theorem toNat_round_cases {v : ℝ} (hv : 0 ≤ v) :
    (round v).toNat = ⌊v⌋₊ ∨ (round v).toNat = ⌊v⌋₊ + 1 := by
  rw [toNat_round]
  have hlow : ⌊v⌋₊ ≤ ⌊v + 1 / 2⌋₊ := Nat.floor_le_floor (by linarith)
  have hhigh : ⌊v + 1 / 2⌋₊ ≤ ⌊v⌋₊ + 1 := by
    rw [← Nat.floor_add_one hv]
    exact Nat.floor_le_floor (by linarith)
  omega

theorem toNat_round_le {v : ℝ} (hv : 0 ≤ v) : ((round v).toNat : ℝ) ≤ 2 * v := by
  rw [toNat_round]
  rcases lt_or_ge v (1 / 2) with hlt | hge
  · have hzero : ⌊v + 1 / 2⌋₊ = 0 := Nat.floor_eq_zero.mpr (by linarith)
    rw [hzero, Nat.cast_zero]
    linarith
  · have hfloor := Nat.floor_le (a := v + 1 / 2) (by linarith)
    linarith

theorem recorded_recordAt (hval : ExactOps val)
    (hprices : ∀ h ∈ hs, h.2.1 < market.finalPrices.length)
    (hbound : ∀ h ∈ hs, (round (worth val market.finalPrices h)).toNat ≤ amountMax) :
    Recorded market (recordAt val market) (fun h => ⌊worth val market.finalPrices h⌋₊) hs := by
  refine ⟨fun h hh => ?_, fun h hh => ?_, fun h _ => toNat_round_cases (worth_nonneg val _ h)⟩
  · have hprice : market.finalPrices[h.2.1]? =
        some (market.finalPrices.getD h.2.1 F64.zero) := by
      rw [List.getD_eq_getElem _ _ (hprices h hh), List.getElem?_eq_getElem (hprices h hh)]
    have hsats : F64.toU64 (F64.max (F64.round (F64.mul (F64.ofInt h.2.2.val)
        (market.finalPrices.getD h.2.1 F64.zero))) F64.zero) =
          (round (worth val market.finalPrices h)).toNat := by
      refine hval.toU64 _ _ ((hbound h hh).trans_lt (by decide)) ?_
      rw [hval.max, hval.round, hval.mul, val_ofInt hval.toExact, hval.zero]
      exact max_round_zero _
    simp only [sharePayout, index, bind_eq_ok_iff, okOr_eq_ok_iff, Except.ok.injEq]
    refine ⟨_, hprice, ?_⟩
    rw [hsats]
    rfl
  · have hfloor : F64.toU64 (F64.floor (redemptionValue (recordAt val market h))) =
        ⌊worth val market.finalPrices h⌋₊ := by
      refine hval.toU64 _ _ ?_ ?_
      · have hbelow : ⌊worth val market.finalPrices h⌋₊ ≤
            (round (worth val market.finalPrices h)).toNat := by
          rcases toNat_round_cases (worth_nonneg val market.finalPrices h) with heq | heq
          · exact heq.ge
          · exact heq ▸ Nat.le_succ _
        exact lt_of_le_of_lt (hbelow.trans (hbound h hh)) (by decide)
      · rw [hval.floor, val_redemptionValue hval]
        exact (natCast_floor_eq_intCast_floor (worth_nonneg _ _ _)).symm
    rw [roundedUp_iff, hfloor]

/-- At prices that sum to one at most, the positions are worth no more than the largest outcome
of their market. -/
theorem sum_worth_le (h : SharesHeld db) (hmarket : db.getMarket marketId = some market)
    (htrading : market.marketState = .trading)
    (hlength : prices.length = market.shares.length) (hprices : ∀ p ∈ prices, 0 ≤ val p)
    (hsum : (prices.map val).sum ≤ 1) (bound : ℤ) (hnonneg : 0 ≤ bound)
    (hbound : ∀ shares ∈ market.shares, shares.val ≤ bound) :
    ((holdings db marketId).map (worth val prices)).sum ≤ bound := by
  let keyOf : Nat ↪ PositionKey := ⟨fun i => ⟨marketId, i⟩, fun i j hij => by
    injection hij⟩
  let price : PositionKey → ℝ := fun key => val (prices.getD key.outcomeIndex F64.zero)
  have hnonnegPrice : ∀ i, i < prices.length → 0 ≤ val (prices.getD i F64.zero) := by
    intro i hi
    rw [List.getD_eq_getElem _ _ hi]
    exact hprices _ (List.getElem_mem _)
  have hposts : (holdings db marketId).map (worth val prices) =
      (positionPosts db marketId).map fun p => (p.2.2 : ℝ) * price p.2.1 := by
    rw [← map_holdings, List.map_map]
    refine List.map_congr_left fun holding hmem => ?_
    obtain ⟨hpositive, hlt⟩ := lt_of_mem_holdings h hmarket htrading hmem
    have hshares : (0 : ℝ) ≤ holding.2.2.val := by exact_mod_cast hpositive.le
    exact max_eq_left (mul_nonneg hshares (hnonnegPrice _ (hlength ▸ hlt)))
  rw [hposts]
  have hitems : ∀ p ∈ positionPosts db marketId,
      p.2.1 ∈ (Finset.range prices.length).map keyOf := by
    intro p hp
    rw [← map_holdings] at hp
    obtain ⟨holding, hmem, rfl⟩ := List.mem_map.mp hp
    have hlt := (lt_of_mem_holdings h hmarket htrading hmem).2
    exact Finset.mem_map_of_mem keyOf (Finset.mem_range.mpr (hlength ▸ hlt))
  refine sum_priced_le hitems ?_ ?_ hnonneg ?_
  · intro key hkey
    obtain ⟨i, hi, rfl⟩ := Finset.mem_map.mp hkey
    exact hnonnegPrice i (Finset.mem_range.mp hi)
  · rw [Finset.sum_map]
    have htotal : ∑ i ∈ Finset.range prices.length, val (prices.getD i F64.zero) =
        (prices.map val).sum := by
      rw [Finset.sum_range, ← Fin.sum_univ_fun_getElem]
      exact Finset.sum_congr rfl fun i _ => by rw [List.getD_eq_getElem _ _ i.isLt]
    exact htotal.trans_le hsum
  · intro key hkey
    obtain ⟨i, hi, rfl⟩ := Finset.mem_map.mp hkey
    have hlt := hlength ▸ Finset.mem_range.mp hi
    change issuedBy _ (⟨marketId, i⟩ : PositionKey) ≤ bound
    rw [issuedBy_positionPosts h hmarket htrading, outcomeShares, List.getElem?_eq_getElem hlt]
    exact hbound _ (List.getElem_mem _)

/-- A treasury that covers the shares of every outcome redeems the positions, at any prices that
sum to one at most. -/
theorem redemptions_of_covered (hval : ExactOps val) {s : State F} {priced : Market F}
    {treasury : Nat} (h : SharesHeld s.markets)
    (hmarket : s.markets.getMarket priced.id = some market)
    (htrading : market.marketState = .trading)
    (hlength : priced.finalPrices.length = market.shares.length)
    (hprices : ∀ p ∈ priced.finalPrices, 0 ≤ val p)
    (hsum : (priced.finalPrices.map val).sum ≤ 1)
    (hcovered : ∀ shares ∈ market.shares, shares.val ≤ (treasury : ℤ)) :
    ((holdings s.markets priced.id).map fun h =>
        ⌊worth val priced.finalPrices h⌋₊).sum ≤ treasury ∧
      ∃ payouts, calculateShareRedemptions s priced treasury =
        .ok (payouts, totalSats payouts) ∧ totalSats payouts ≤ treasury := by
  have hworth := sum_worth_le h hmarket htrading hlength hprices hsum
  have hfloors : ((holdings s.markets priced.id).map fun h =>
      ⌊worth val priced.finalPrices h⌋₊).sum ≤ treasury := by
    have hsumle : (((holdings s.markets priced.id).map fun h =>
        ⌊worth val priced.finalPrices h⌋₊).sum : ℕ) ≤
          ((holdings s.markets priced.id).map (worth val priced.finalPrices)).sum := by
      rw [Nat.cast_list_sum, List.map_map]
      exact List.sum_le_sum fun h _ => Nat.floor_le (worth_nonneg _ _ _)
    have hbound := hsumle.trans (hworth treasury (by omega) hcovered)
    rw [Int.cast_natCast] at hbound
    exact Nat.cast_le.mp hbound
  have hnearest : totalSats ((holdings s.markets priced.id).map (recordAt val priced)) ≤
      amountMax := by
    have hsumle : (totalSats ((holdings s.markets priced.id).map (recordAt val priced)) : ℝ) ≤
        ((holdings s.markets priced.id).map fun h =>
          2 * worth val priced.finalPrices h).sum := by
      rw [totalSats, List.map_map, Nat.cast_list_sum, List.map_map]
      exact List.sum_le_sum fun h _ => toNat_round_le (worth_nonneg _ _ _)
    rw [List.sum_map_mul_left] at hsumle
    have hmost := hworth (2 ^ 63 - 1) (by norm_num) fun shares _ => shares.property.2
    have hbound : (totalSats ((holdings s.markets priced.id).map (recordAt val priced)) : ℝ) ≤
        ((2 ^ 64 - 2 : ℕ) : ℝ) := by
      push_cast at hmost ⊢
      linarith
    exact (Nat.cast_le.mp hbound).trans (by decide)
  refine ⟨hfloors, ?_⟩
  have hbound : ∀ h ∈ holdings s.markets priced.id,
      (round (worth val priced.finalPrices h)).toNat ≤ amountMax := by
    intro h hmem
    refine (List.single_le_sum (by simp) _ ?_).trans hnearest
    rw [List.map_map]
    exact List.mem_map_of_mem (f := SharePayoutRecord.payoutSats ∘ recordAt val priced) hmem
  have hindex : ∀ h ∈ holdings s.markets priced.id, h.2.1 < priced.finalPrices.length := by
    intro holding hmem
    rw [hlength]
    exact (lt_of_mem_holdings h hmarket htrading hmem).2
  obtain ⟨payouts, hredeemed, hle, -⟩ := calculateShareRedemptions_eq
    (recorded_recordAt hval hindex hbound) rfl hfloors hnearest
  exact ⟨payouts, hredeemed, hle⟩

end

end Truthcoin.ExactPayouts
