import Truthcoin.RationalRounding
import Truthcoin.SettlementValue

/-!
# Share payouts

With rational numbers for doubles, the payouts of a market are the values of its positions
to the nearest satoshi. When the treasury falls short of them, satoshis that were rounded up
are taken back, the largest fractions first, until the payouts are the treasury.
-/

namespace Truthcoin.SharePayouts

open Truthcoin.Types Truthcoin.Fallible Truthcoin.Arithmetic Truthcoin.Decisions
open Truthcoin.Markets Truthcoin.Blocks Truthcoin.Settlement Truthcoin.SettlementValue
open Truthcoin.RationalRounding

section

variable {F : Type} [F64 F]

/-- A position of a market with its holder. -/
abbrev Holding := Address × Nat × I64

/-- All positions of a market, by holder. -/
def holdings (db : MarketsDatabase F) (marketId : MarketId) : List Holding :=
  (db.getShareholdersForMarket marketId).flatMap fun holder =>
    holder.2.map fun position => (holder.1, position)

/-- The payout is more than the value of the position. -/
def roundedUp (p : SharePayoutRecord F) : Bool :=
  F64.toU64 (F64.floor (redemptionValue p)) < p.payoutSats

theorem roundedUp_iff {p : SharePayoutRecord F} :
    roundedUp p = true ↔ F64.toU64 (F64.floor (redemptionValue p)) < p.payoutSats := by
  rw [roundedUp, decide_eq_true_eq]

def reduce (p : SharePayoutRecord F) : SharePayoutRecord F :=
  { p with payoutSats := p.payoutSats - 1 }

theorem fraction_reduce (p : SharePayoutRecord F) : fraction (reduce p) = fraction p :=
  rfl

def totalSats (payouts : List (SharePayoutRecord F)) : Nat :=
  (payouts.map SharePayoutRecord.payoutSats).sum

omit [F64 F] in
theorem totalSats_set {payouts : List (SharePayoutRecord F)} {i : Nat}
    {p : SharePayoutRecord F} (hp : payouts[i]? = some p) (hup : 0 < p.payoutSats) :
    totalSats (payouts.set i (reduce p)) + 1 = totalSats payouts := by
  induction payouts generalizing i with
  | nil => cases hp
  | cons q payouts ih =>
      cases i with
      | zero =>
          obtain rfl : q = p := Option.some.inj hp
          simp only [totalSats, List.set_cons_zero, List.map_cons, List.sum_cons, reduce]
          omega
      | succ i =>
          have hrest := ih hp
          simp only [totalSats, List.set_cons_succ, List.map_cons, List.sum_cons] at hrest ⊢
          omega

/-- The entries of an order that are reduced for an excess. -/
def taken (order : List (SharePayoutRecord F × Nat)) (excess : Nat) :
    List (SharePayoutRecord F × Nat) :=
  (order.filter fun e => roundedUp e.1).take excess

theorem taken_cons_up {e : SharePayoutRecord F × Nat} (h : roundedUp e.1 = true)
    (order : List (SharePayoutRecord F × Nat)) (excess : Nat) :
    taken (e :: order) (excess + 1) = e :: taken order excess := by
  simp [taken, h]

theorem taken_cons_exact {e : SharePayoutRecord F × Nat} (h : ¬ roundedUp e.1 = true)
    (order : List (SharePayoutRecord F × Nat)) (excess : Nat) :
    taken (e :: order) excess = taken order excess := by
  simp [taken, h]

theorem taken_subset (order : List (SharePayoutRecord F × Nat)) (excess : Nat) :
    (taken order excess).Sublist order :=
  (List.take_sublist _ _).trans List.filter_sublist

theorem reclaimRoundup_succ {payouts : List (SharePayoutRecord F)} {i : Nat}
    {p : SharePayoutRecord F} (hp : payouts[i]? = some p) (excess : Nat) :
    reclaimRoundup (payouts, excess + 1) i =
      if roundedUp p = true then (payouts.set i (reduce p), excess)
      else (payouts, excess + 1) := by
  simp only [reclaimRoundup, hp, roundedUp, decide_eq_true_eq, reduce]

theorem reclaimRoundup_zero (payouts : List (SharePayoutRecord F)) (is : List Nat) :
    is.foldl reclaimRoundup (payouts, 0) = (payouts, 0) := by
  induction is with
  | nil => rfl
  | cons i is ih => exact ih

/-- The reclaim reduces the entries that are taken and no others. -/
theorem foldl_reclaimRoundup {order : List (SharePayoutRecord F × Nat)}
    (hnodup : (order.map Prod.snd).Nodup) {payouts : List (SharePayoutRecord F)}
    (hentries : ∀ e ∈ order, payouts[e.2]? = some e.1) (excess : Nat) :
    let result := (order.map Prod.snd).foldl reclaimRoundup (payouts, excess)
    (∀ j, result.1[j]? = payouts[j]?.map fun p =>
      if j ∈ (taken order excess).map Prod.snd then reduce p else p) ∧
      totalSats result.1 + (taken order excess).length = totalSats payouts := by
  induction order generalizing payouts excess with
  | nil => simp [taken]
  | cons e order ih =>
      obtain ⟨p, i⟩ := e
      rw [List.map_cons, List.nodup_cons] at hnodup
      obtain ⟨hfresh, hnodup⟩ := hnodup
      rw [List.forall_mem_cons] at hentries
      obtain ⟨hp, hentries⟩ := hentries
      dsimp only at hp hfresh
      cases excess with
      | zero =>
          rw [reclaimRoundup_zero]
          simp [taken]
      | succ excess =>
          rw [List.map_cons, List.foldl_cons]
          by_cases hup : roundedUp p = true
          · have hpos : 0 < p.payoutSats := (Nat.zero_le _).trans_lt (roundedUp_iff.mp hup)
            have hkept : ∀ e ∈ order, (payouts.set i (reduce p))[e.2]? = some e.1 := by
              intro e he
              have hne : i ≠ e.2 := fun heq => hfresh (heq ▸ List.mem_map_of_mem he)
              rw [List.getElem?_set_ne hne, hentries e he]
            obtain ⟨hresult, htotal⟩ := ih hnodup hkept excess
            dsimp only at hresult htotal ⊢
            rw [reclaimRoundup_succ hp, if_pos hup, taken_cons_up (e := (p, i)) hup]
            constructor
            · intro j
              rw [hresult]
              simp only [List.map_cons, List.mem_cons]
              by_cases hj : j = i
              · subst hj
                have hlt := (List.getElem?_eq_some_iff.mp hp).1
                have hnot : j ∉ (taken order excess).map Prod.snd := by
                  exact fun hmem => hfresh (((taken_subset order excess).map _).subset hmem)
                rw [List.getElem?_set_self hlt, hp]
                simp [hnot]
              · rw [List.getElem?_set_ne (Ne.symm hj)]
                congr 1
                funext q
                exact if_congr (or_iff_right hj).symm rfl rfl
            · rw [List.length_cons]
              have hfirst := totalSats_set hp hpos
              omega
          · rw [reclaimRoundup_succ hp, if_neg hup, taken_cons_exact (e := (p, i)) hup]
            exact ih hnodup hentries (excess + 1)

/-- The entries with their indices, the largest fractions first. -/
def reclaimOrder (payouts : List (SharePayoutRecord F)) :
    List (SharePayoutRecord F × Nat) :=
  payouts.zipIdx.insertionSort fun a b => F64.lt (fraction a.1) (fraction b.1) = false

theorem reclaimOrder_perm (payouts : List (SharePayoutRecord F)) :
    (reclaimOrder payouts).Perm payouts.zipIdx :=
  List.perm_insertionSort _ _

theorem snd_reclaimOrder_nodup (payouts : List (SharePayoutRecord F)) :
    ((reclaimOrder payouts).map Prod.snd).Nodup := by
  rw [((reclaimOrder_perm payouts).map Prod.snd).nodup_iff, List.zipIdx_map_snd]
  exact List.nodup_range'

theorem mem_reclaimOrder_iff {payouts : List (SharePayoutRecord F)}
    {e : SharePayoutRecord F × Nat} : e ∈ reclaimOrder payouts ↔ payouts[e.2]? = some e.1 := by
  rw [(reclaimOrder_perm payouts).mem_iff]
  exact List.mem_zipIdx_iff_getElem?

theorem length_filter_reclaimOrder (payouts : List (SharePayoutRecord F)) :
    ((reclaimOrder payouts).filter fun e => roundedUp e.1).length =
      (payouts.filter roundedUp).length := by
  have hperm := ((reclaimOrder_perm payouts).filter fun e => roundedUp e.1).length_eq
  rw [hperm]
  have hmap : (payouts.zipIdx.filter fun e => roundedUp e.1).map Prod.fst =
      payouts.filter roundedUp := by
    have hcommute := List.filter_map (l := payouts.zipIdx) (f := Prod.fst) (p := roundedUp)
    rw [List.zipIdx_map_fst] at hcommute
    exact hcommute.symm
  rw [← hmap, List.length_map]

theorem length_taken {payouts : List (SharePayoutRecord F)} {excess : Nat}
    (hexcess : excess ≤ (payouts.filter roundedUp).length) :
    (taken (reclaimOrder payouts) excess).length = excess := by
  rw [taken, List.length_take, length_filter_reclaimOrder, min_eq_left hexcess]

/-- Taking back an excess that was rounded up reduces the total by it. -/
theorem totalSats_reclaim {payouts : List (SharePayoutRecord F)} {excess : Nat}
    (hexcess : excess ≤ (payouts.filter roundedUp).length) :
    totalSats (reclaimPayoutRoundups payouts excess) + excess = totalSats payouts := by
  obtain ⟨-, htotal⟩ := foldl_reclaimRoundup (snd_reclaimOrder_nodup payouts)
    (fun e he => mem_reclaimOrder_iff.mp he) excess
  rwa [length_taken hexcess] at htotal

/-- The records of the positions before anything is taken back. Each pays the floor of the value
of its position or one satoshi more. -/
structure Recorded (market : Market F) (record : Holding → SharePayoutRecord F)
    (floor : Holding → Nat) (hs : List Holding) : Prop where
  payout : ∀ h ∈ hs, sharePayout market h.1 h.2 = .ok (record h)
  rounded : ∀ h ∈ hs, roundedUp (record h) = true ↔ floor h < (record h).payoutSats
  sats : ∀ h ∈ hs, (record h).payoutSats = floor h ∨ (record h).payoutSats = floor h + 1

section

variable {market : Market F} {record : Holding → SharePayoutRecord F} {floor : Holding → Nat}
  {hs : List Holding}

theorem totalSats_records (h : Recorded market record floor hs) :
    totalSats (hs.map record) =
      (hs.map floor).sum + ((hs.map record).filter roundedUp).length := by
  obtain ⟨-, hrounded, hsats⟩ := h
  induction hs with
  | nil => rfl
  | cons h hs ih =>
      rw [List.forall_mem_cons] at hrounded hsats
      have hrest := ih hrounded.2 hsats.2
      have hcases := hsats.1
      have hiff := hrounded.1
      rw [totalSats] at hrest ⊢
      rw [List.map_cons, List.map_cons, List.sum_cons, List.map_cons, List.sum_cons]
      by_cases hup : roundedUp (record h) = true
      · have hlt := hiff.mp hup
        rw [List.filter_cons_of_pos hup, List.length_cons]
        omega
      · have hnot : ¬ _ < _ := fun hlt => hup (hiff.mpr hlt)
        rw [List.filter_cons_of_neg hup]
        omega

theorem mapM_sharePayout {s : State F} (hholdings : holdings s.markets market.id = hs)
    (hpayout : ∀ h ∈ hs, sharePayout market h.1 h.2 = .ok (record h)) :
    ∃ payouts, (s.markets.getShareholdersForMarket market.id).mapM
        (fun holder => holder.2.mapM (sharePayout market holder.1)) = .ok payouts ∧
      payouts.flatten = hs.map record := by
  subst hholdings
  refine ⟨_, mapM_eq_map (g := fun holder : Address × List (Nat × I64) =>
    holder.2.map fun position => record (holder.1, position)) ?_, ?_⟩
  · intro holder hholder
    apply mapM_eq_map
    intro position hposition
    exact hpayout (holder.1, position)
      (List.mem_flatMap.mpr ⟨holder, hholder, List.mem_map_of_mem hposition⟩)
  · rw [holdings, List.map_flatMap, List.flatMap_def]
    simp only [List.map_map]
    rfl

/-- The records are paid out if the treasury has their total; otherwise what is missing is taken
back from them. -/
theorem calculateShareRedemptions_eq {s : State F} {treasury : Nat}
    (h : Recorded market record floor hs) (hholdings : holdings s.markets market.id = hs)
    (hfloors : (hs.map floor).sum ≤ treasury)
    (hfits : totalSats (hs.map record) ≤ amountMax) :
    ∃ payouts, calculateShareRedemptions s market treasury = .ok (payouts, totalSats payouts) ∧
      totalSats payouts ≤ treasury ∧
      payouts = if treasury < totalSats (hs.map record) then
          reclaimPayoutRoundups (hs.map record) (totalSats (hs.map record) - treasury)
        else hs.map record := by
  obtain ⟨lists, hlists, hflatten⟩ := mapM_sharePayout hholdings h.payout
  have hsum : payoutTotal (hs.map record) = .ok (totalSats (hs.map record)) := sumU64_ok hfits
  rw [calculateShareRedemptions, hlists, ok_bind]
  dsimp only
  rw [hflatten, hsum, ok_bind]
  by_cases hlt : treasury < totalSats (hs.map record)
  · have hcount := totalSats_records h
    have hexcess : totalSats (hs.map record) - treasury ≤
        ((hs.map record).filter roundedUp).length := by omega
    have hreclaimed := totalSats_reclaim hexcess
    rw [if_pos hlt, if_pos hlt]
    generalize reclaimPayoutRoundups (hs.map record) (totalSats (hs.map record) - treasury) =
      payouts at hreclaimed ⊢
    have hle : totalSats payouts ≤ treasury := by omega
    have hreduced : payoutTotal payouts = .ok (totalSats payouts) :=
      sumU64_ok (hle.trans (hlt.le.trans hfits))
    rw [hreduced]
    exact ⟨payouts, rfl, hle, rfl⟩
  · rw [if_neg hlt, if_neg hlt]
    exact ⟨_, rfl, not_lt.mp hlt, rfl⟩

end

end

/-- What the shares of a position are worth at the final price of their outcome. -/
def exactValue (prices : List Rat) (h : Holding) : Rat :=
  max (h.2.2.val * prices.getD h.2.1 0) 0

def floorSats (v : Rat) : Nat := ⌊v⌋.toNat

def nearestSats (v : Rat) : Nat := ⌊v + 1 / 2⌋.toNat

theorem exactValue_nonneg (prices : List Rat) (h : Holding) : 0 ≤ exactValue prices h :=
  le_max_right _ _

theorem floorSats_cast {v : Rat} (hv : 0 ≤ v) : (floorSats v : ℤ) = ⌊v⌋ :=
  Int.toNat_of_nonneg (Int.floor_nonneg.mpr hv)

theorem nearestSats_cast {v : Rat} (hv : 0 ≤ v) : (nearestSats v : ℤ) = ⌊v + 1 / 2⌋ :=
  Int.toNat_of_nonneg (Int.floor_nonneg.mpr (by linarith))

theorem nearestSats_eq {v : Rat} (hv : 0 ≤ v) :
    nearestSats v = floorSats v ∨ nearestSats v = floorSats v + 1 := by
  have hlow : ⌊v⌋ ≤ ⌊v + 1 / 2⌋ := Int.floor_le_floor (by linarith)
  have hhigh : ⌊v + 1 / 2⌋ ≤ ⌊v⌋ + 1 := by
    rw [← Int.floor_add_one]
    exact Int.floor_le_floor (by linarith)
  have hfloor := floorSats_cast hv
  have hnearest := nearestSats_cast hv
  omega

theorem max_eq (a b : Rat) : F64.max a b = max a b := by
  change (if a < b then b else a) = _
  split
  · rename_i hlt
    exact (max_eq_right hlt.le).symm
  · rename_i hge
    exact (max_eq_left (not_lt.mp hge)).symm

theorem toU64_intCast {n : ℤ} (hn : 0 ≤ n) (hbound : n < 2 ^ 64) :
    F64.toU64 (n : Rat) = n.toNat := by
  have hcast : ⌊(n : Rat)⌋ = n := Int.floor_intCast n
  have htrunc : truncRat 0 (2 ^ 64 - 1) (n : Rat) = n :=
    (truncRat_of_nonneg (Int.le_refl 0) (by exact_mod_cast hn) (by rw [hcast]; omega)).trans hcast
  exact congrArg Int.toNat htrunc

theorem max_round_zero (x : Rat) : max (roundRat x) 0 = (⌊max x 0 + 1 / 2⌋ : ℤ) := by
  rcases le_total 0 x with hx | hx
  · have hfloor : (0 : ℤ) ≤ ⌊x + 1 / 2⌋ := Int.floor_nonneg.mpr (by linarith)
    rw [max_eq_left hx, roundRat_eq_floor hx]
    exact max_eq_left (by exact_mod_cast hfloor)
  · have hhalf : ⌊(0 : Rat) + 1 / 2⌋ = 0 := by norm_num
    have hle : roundRat x ≤ 0 := by
      rcases hx.eq_or_lt with rfl | hneg
      · rw [roundRat_eq_floor (le_refl 0), hhalf, Int.cast_zero]
      · have hfloor : (0 : ℤ) ≤ ⌊-x + 1 / 2⌋ := Int.floor_nonneg.mpr (by linarith)
        rw [roundRat, if_pos hneg, neg_nonpos]
        exact_mod_cast hfloor
    rw [max_eq_right hx, hhalf, Int.cast_zero, max_eq_right hle]

/-- The record of a position before anything is taken back. -/
def recordOf (market : Market Rat) (h : Holding) : SharePayoutRecord Rat :=
  ⟨market.id, h.1, h.2.1, h.2.2, market.finalPrices.getD h.2.1 0,
    nearestSats (exactValue market.finalPrices h)⟩

theorem redemptionValue_recordOf (market : Market Rat) (h : Holding) :
    redemptionValue (recordOf market h) = exactValue market.finalPrices h :=
  max_eq _ _

theorem sharePayout_eq {market : Market Rat} {h : Holding}
    (hprice : h.2.1 < market.finalPrices.length)
    (hbound : nearestSats (exactValue market.finalPrices h) ≤ amountMax) :
    sharePayout market h.1 h.2 = .ok (recordOf market h) := by
  have hnonneg := exactValue_nonneg market.finalPrices h
  have hprices : market.finalPrices[h.2.1]? = some (market.finalPrices.getD h.2.1 0) := by
    rw [List.getD_eq_getElem _ _ hprice, List.getElem?_eq_getElem hprice]
  have hcast := nearestSats_cast hnonneg
  have hsats : F64.toU64 (F64.max (F64.round (F64.mul (F64.ofInt h.2.2.val)
      (market.finalPrices.getD h.2.1 0))) F64.zero) =
        nearestSats (exactValue market.finalPrices h) := by
    rw [max_eq]
    refine (congrArg F64.toU64 (max_round_zero _)).trans ?_
    refine toU64_intCast ?_ ?_
    · change 0 ≤ ⌊exactValue market.finalPrices h + 1 / 2⌋
      omega
    · change ⌊exactValue market.finalPrices h + 1 / 2⌋ < 2 ^ 64
      unfold amountMax at hbound
      omega
  simp only [sharePayout, index, bind_eq_ok_iff, okOr_eq_ok_iff, Except.ok.injEq]
  refine ⟨_, hprices, ?_⟩
  rw [hsats]
  rfl

theorem lt_eq_false_iff (a b : Rat) : F64.lt a b = false ↔ b ≤ a := by
  rw [← not_lt]
  exact decide_eq_false_iff_not

theorem reclaimOrder_pairwise (payouts : List (SharePayoutRecord Rat)) :
    (reclaimOrder payouts).Pairwise fun a b => fraction b.1 ≤ fraction a.1 := by
  let r : SharePayoutRecord Rat × Nat → SharePayoutRecord Rat × Nat → Prop :=
    fun a b => F64.lt (fraction a.1) (fraction b.1) = false
  have htotal : Std.Total r := ⟨fun a b => by
    simp only [r, lt_eq_false_iff]
    exact le_total _ _⟩
  have htrans : IsTrans (SharePayoutRecord Rat × Nat) r := ⟨fun a b c => by
    simp only [r, lt_eq_false_iff]
    exact fun hab hbc => hbc.trans hab⟩
  refine (List.pairwise_insertionSort r payouts.zipIdx).imp ?_
  intro a b hab
  exact (lt_eq_false_iff _ _).mp hab

/-- Taking back an excess that was rounded up reduces the largest fractions by one each, and
the total by the excess. -/
theorem reclaimPayoutRoundups_spec {payouts : List (SharePayoutRecord Rat)} {excess : Nat}
    (hexcess : excess ≤ (payouts.filter roundedUp).length) :
    ∃ reduced : Nat → Prop, ∃ _ : DecidablePred reduced,
      (∀ j, (reclaimPayoutRoundups payouts excess)[j]? =
        payouts[j]?.map fun p => if reduced j then reduce p else p) ∧
      (∀ j p, payouts[j]? = some p → reduced j → roundedUp p = true) ∧
      (∀ j p k q, payouts[j]? = some p → payouts[k]? = some q → reduced j → ¬ reduced k →
        roundedUp q = true → fraction q ≤ fraction p) ∧
      totalSats (reclaimPayoutRoundups payouts excess) + excess = totalSats payouts := by
  obtain ⟨hresult, -⟩ := foldl_reclaimRoundup (snd_reclaimOrder_nodup payouts)
    (fun e he => mem_reclaimOrder_iff.mp he) excess
  have hindex : ∀ j p, payouts[j]? = some p →
      j ∈ (taken (reclaimOrder payouts) excess).map Prod.snd →
        (p, j) ∈ taken (reclaimOrder payouts) excess := by
    intro j p hp hj
    obtain ⟨e, he, rfl⟩ := List.mem_map.mp hj
    have hsame := mem_reclaimOrder_iff.mp ((taken_subset _ _).subset he)
    rw [hp] at hsame
    rwa [Option.some.inj hsame]
  refine ⟨fun j => j ∈ (taken (reclaimOrder payouts) excess).map Prod.snd, inferInstance,
    hresult, ?_, ?_, totalSats_reclaim hexcess⟩
  · intro j p hp hj
    exact (List.mem_filter.mp (List.mem_of_mem_take (hindex j p hp hj))).2
  · intro j p k q hp hq hj hk hup
    have hsorted := (reclaimOrder_pairwise payouts).filter fun e => roundedUp e.1
    rw [← List.take_append_drop excess (List.filter _ _), List.pairwise_append] at hsorted
    have hmem : (q, k) ∈ (reclaimOrder payouts).filter fun e => roundedUp e.1 :=
      List.mem_filter.mpr ⟨mem_reclaimOrder_iff.mpr hq, hup⟩
    rw [← List.take_append_drop excess (List.filter _ _), List.mem_append] at hmem
    rcases hmem with htake | hdrop
    · exact absurd (List.mem_map_of_mem htake) hk
    · exact hsorted.2.2 (p, j) (hindex j p hp hj) (q, k) hdrop

def holdingOf (p : SharePayoutRecord Rat) : Holding :=
  (p.address, p.outcomeIndex, p.sharesRedeemed)

section

variable {market : Market Rat} {hs : List Holding}

theorem roundedUp_recordOf_iff {h : Holding}
    (hbound : nearestSats (exactValue market.finalPrices h) ≤ amountMax) :
    roundedUp (recordOf market h) = true ↔
      floorSats (exactValue market.finalPrices h) <
        nearestSats (exactValue market.finalPrices h) := by
  have hnonneg := exactValue_nonneg market.finalPrices h
  have hfloor : F64.toU64 (F64.floor (exactValue market.finalPrices h)) =
      floorSats (exactValue market.finalPrices h) := by
    refine toU64_intCast (Int.floor_nonneg.mpr hnonneg) ?_
    have hcast := floorSats_cast hnonneg
    have hle := nearestSats_eq hnonneg
    unfold amountMax at hbound
    change ⌊exactValue market.finalPrices h⌋ < 2 ^ 64
    omega
  rw [roundedUp_iff, redemptionValue_recordOf, hfloor]
  exact Iff.rfl

theorem recorded_recordOf (hprices : ∀ h ∈ hs, h.2.1 < market.finalPrices.length)
    (hbound : ∀ h ∈ hs, nearestSats (exactValue market.finalPrices h) ≤ amountMax) :
    Recorded market (recordOf market) (fun h => floorSats (exactValue market.finalPrices h)) hs :=
  ⟨fun h hh => sharePayout_eq (hprices h hh) (hbound h hh),
    fun h hh => roundedUp_recordOf_iff (hbound h hh),
    fun h _ => nearestSats_eq (exactValue_nonneg market.finalPrices h)⟩

/-- Payouts for the holdings of a market at their final prices, within the treasury. Each is
the value of the position to the nearest satoshi, or the floor of it if all together would be
too much; then they are exactly the treasury, and of the values that were rounded up those
with the largest fractions have been reduced. -/
structure Paid (market : Market Rat) (hs : List Holding) (treasury : Nat)
    (payouts : List (SharePayoutRecord Rat)) : Prop where
  holdings : payouts.map holdingOf = hs
  prices : ∀ p ∈ payouts, p.finalPrice = market.finalPrices.getD p.outcomeIndex 0
  total : totalSats payouts ≤ treasury
  rounded : ∀ p ∈ payouts, p.payoutSats = floorSats (redemptionValue p) ∨
    p.payoutSats = nearestSats (redemptionValue p)
  nearest : (hs.map fun h => nearestSats (exactValue market.finalPrices h)).sum ≤ treasury →
    ∀ p ∈ payouts, p.payoutSats = nearestSats (redemptionValue p)
  exact : treasury < (hs.map fun h => nearestSats (exactValue market.finalPrices h)).sum →
    totalSats payouts = treasury
  largest : ∀ p ∈ payouts, ∀ q ∈ payouts, p.payoutSats < nearestSats (redemptionValue p) →
    floorSats (redemptionValue q) < q.payoutSats → fraction q ≤ fraction p

theorem totalSats_recordOf :
    totalSats (hs.map (recordOf market)) =
      (hs.map fun h => nearestSats (exactValue market.finalPrices h)).sum := by
  rw [totalSats, List.map_map]
  rfl

theorem sats_recordOf (h : Holding) :
    (recordOf market h).payoutSats = nearestSats (redemptionValue (recordOf market h)) := by
  rw [redemptionValue_recordOf]
  rfl

theorem paid_records {treasury : Nat}
    (hle : (hs.map fun h => nearestSats (exactValue market.finalPrices h)).sum ≤ treasury) :
    Paid market hs treasury (hs.map (recordOf market)) := by
  have hnearest : ∀ p ∈ hs.map (recordOf market),
      p.payoutSats = nearestSats (redemptionValue p) := by
    intro p hp
    obtain ⟨h, -, rfl⟩ := List.mem_map.mp hp
    exact sats_recordOf h
  refine ⟨?_, ?_, ?_, fun p hp => .inr (hnearest p hp), fun _ => hnearest, ?_, ?_⟩
  · rw [List.map_map]
    exact List.map_id' hs
  · intro p hp
    obtain ⟨h, -, rfl⟩ := List.mem_map.mp hp
    rfl
  · rw [totalSats_recordOf]
    exact hle
  · exact fun hlt => absurd hle (not_le.mpr hlt)
  · exact fun p hp _ _ hless => absurd (hnearest p hp) hless.ne

/-- When the treasury falls short, what is missing is taken back. -/
theorem paid_reclaimed {treasury : Nat}
    (hprices : ∀ h ∈ hs, h.2.1 < market.finalPrices.length)
    (hbound : ∀ h ∈ hs, nearestSats (exactValue market.finalPrices h) ≤ amountMax)
    (hfloors : (hs.map fun h => floorSats (exactValue market.finalPrices h)).sum ≤ treasury)
    (hlt : treasury < totalSats (hs.map (recordOf market))) :
    Paid market hs treasury (reclaimPayoutRoundups (hs.map (recordOf market))
      (totalSats (hs.map (recordOf market)) - treasury)) := by
  have hcount := totalSats_records (recorded_recordOf hprices hbound)
  have hexcess : totalSats (hs.map (recordOf market)) - treasury ≤
      ((hs.map (recordOf market)).filter roundedUp).length := by omega
  obtain ⟨reduced, hdecidable, hentry, hreduced, horder, htotal⟩ :=
    reclaimPayoutRoundups_spec hexcess
  generalize reclaimPayoutRoundups (hs.map (recordOf market))
    (totalSats (hs.map (recordOf market)) - treasury) = payouts at hentry htotal ⊢
  -- an entry of the result is the record of a holding, reduced or not
  have hsource : ∀ p ∈ payouts, ∃ j h, (hs.map (recordOf market))[j]? = some (recordOf market h) ∧
      h ∈ hs ∧ p = if reduced j then reduce (recordOf market h) else recordOf market h := by
    intro p hp
    obtain ⟨j, hj⟩ := List.mem_iff_getElem?.mp hp
    rw [hentry, Option.map_eq_some_iff] at hj
    obtain ⟨r, hr, rfl⟩ := hj
    obtain ⟨h, hh, rfl⟩ := List.mem_map.mp (List.mem_of_getElem? hr)
    exact ⟨j, h, hr, hh, rfl⟩
  have hfloor : ∀ j h, (hs.map (recordOf market))[j]? = some (recordOf market h) → h ∈ hs →
      reduced j → (reduce (recordOf market h)).payoutSats =
        floorSats (redemptionValue (recordOf market h)) := by
    intro j h hj hh hred
    have hup := (roundedUp_recordOf_iff (hbound h hh)).mp (hreduced j _ hj hred)
    have hcases := nearestSats_eq (exactValue_nonneg market.finalPrices h)
    rw [redemptionValue_recordOf]
    change nearestSats (exactValue market.finalPrices h) - 1 = _
    omega
  have hfull : totalSats payouts = treasury := by omega
  refine ⟨?_, ?_, hfull.le, ?_, ?_, fun _ => hfull, ?_⟩
  · apply List.ext_getElem?
    intro j
    rw [List.getElem?_map, hentry, List.getElem?_map]
    cases hs[j]? with
    | none => rfl
    | some h =>
        rw [Option.map_some, Option.map_some, Option.map_some]
        split <;> rfl
  · intro p hp
    obtain ⟨j, h, -, -, rfl⟩ := hsource p hp
    split <;> rfl
  · intro p hp
    obtain ⟨j, h, hj, hh, rfl⟩ := hsource p hp
    split
    · exact .inl (hfloor j h hj hh ‹_›)
    · exact .inr (sats_recordOf h)
  · intro hle
    rw [totalSats_recordOf] at hlt
    exact absurd hle (not_le.mpr hlt)
  · intro p hp q hq hless hmore
    obtain ⟨j, h, hj, hh, rfl⟩ := hsource p hp
    obtain ⟨k, h', hk, hh', rfl⟩ := hsource q hq
    have hj' : reduced j := by
      by_contra hkept
      rw [if_neg hkept] at hless
      exact hless.ne (sats_recordOf h)
    have hk' : ¬ reduced k := by
      intro hred
      rw [if_pos hred] at hmore
      exact hmore.ne (hfloor k h' hk hh' hred).symm
    rw [if_neg hk'] at hmore ⊢
    rw [if_pos hj']
    rw [redemptionValue_recordOf] at hmore
    rw [fraction_reduce]
    exact horder j (recordOf market h) k (recordOf market h') hj hk hj' hk'
      ((roundedUp_recordOf_iff (hbound h' hh')).mpr hmore)

theorem calculateShareRedemptions_paid {s : State Rat} {treasury : Nat}
    (hholdings : holdings s.markets market.id = hs)
    (hprices : ∀ h ∈ hs, h.2.1 < market.finalPrices.length)
    (hfloors : (hs.map fun h => floorSats (exactValue market.finalPrices h)).sum ≤ treasury)
    (hnearest : (hs.map fun h => nearestSats (exactValue market.finalPrices h)).sum ≤ amountMax) :
    ∃ payouts, calculateShareRedemptions s market treasury = .ok (payouts, totalSats payouts) ∧
      Paid market hs treasury payouts := by
  have hbound : ∀ h ∈ hs, nearestSats (exactValue market.finalPrices h) ≤ amountMax := by
    intro h hh
    exact (List.single_le_sum (by simp) _ (List.mem_map_of_mem hh)).trans hnearest
  have htotal : totalSats (hs.map (recordOf market)) ≤ amountMax := by
    rw [totalSats_recordOf]
    exact hnearest
  obtain ⟨payouts, hredeemed, -, hpayouts⟩ :=
    calculateShareRedemptions_eq (recorded_recordOf hprices hbound) hholdings hfloors htotal
  refine ⟨payouts, hredeemed, ?_⟩
  rw [hpayouts]
  split
  · rename_i hlt
    exact paid_reclaimed hprices hbound hfloors hlt
  · rename_i hle
    refine paid_records ?_
    rw [← totalSats_recordOf]
    exact not_lt.mp hle

/-- A market whose payouts to the nearest satoshi fit 64 bits pays its holdings out, and with
the refund to its creator the payouts are its treasury. -/
theorem calculateSharePayouts_paid {s : State Rat} {height treasury fees : Nat}
    {outcomes : List (DecisionId × Rat)} {decisions : DecisionMap Rat}
    {records : List FeePayoutRecord}
    (htreasury : s.getMarketFundsSats market.id false = .ok treasury)
    (hfees : s.getMarketFundsSats market.id true = .ok fees) (hfits : fees ≤ amountMax)
    (hdistribution : calculateFeeDistribution s market fees outcomes decisions = .ok records)
    (hprices : ∀ h ∈ holdings s.markets market.id, h.2.1 < market.finalPrices.length)
    (hfloors : ((holdings s.markets market.id).map fun h =>
      floorSats (exactValue market.finalPrices h)).sum ≤ treasury)
    (hnearest : ((holdings s.markets market.id).map fun h =>
      nearestSats (exactValue market.finalPrices h)).sum ≤ amountMax) :
    ∃ summary, calculateSharePayouts s market height outcomes decisions = .ok summary ∧
      totalSats summary.payouts + refundSats summary = treasury ∧
      Paid market (holdings s.markets market.id) treasury summary.payouts := by
  obtain ⟨payouts, hredeemed, hpaid⟩ :=
    calculateShareRedemptions_paid rfl hprices hfloors hnearest
  have hrefund : checkedSub treasury (totalSats payouts) =
      some (treasury - totalSats payouts) :=
    checkedSub_eq_some_iff.mpr ⟨hpaid.total, rfl⟩
  have hdistributed : sumU64 (records.map FeePayoutRecord.amountSats) =
      .ok (records.map FeePayoutRecord.amountSats).sum :=
    sumU64_ok ((calculateFeeDistribution_le hdistribution).trans hfits)
  rw [calculateSharePayouts, htreasury, ok_bind, hredeemed, ok_bind]
  dsimp only
  rw [hrefund, hfees]
  simp only [okOr_some, ok_bind, hdistribution, hdistributed]
  refine ⟨_, rfl, ?_, hpaid⟩
  have htotal := hpaid.total
  rw [refundSats]
  dsimp only
  split
  · change totalSats payouts + (treasury - totalSats payouts) = treasury
    omega
  · change totalSats payouts + 0 = treasury
    omega

end

/-- A market with the given final prices. -/
def pricedMarket (prices : List Rat) : Market Rat where
  id := 0
  title := "t"
  description := "d"
  tags := []
  creatorAddress := 9
  dimensionSpecs := []
  decisionIds := []
  stateCombos := []
  createdAtHeight := 0
  expiresAtHeight := none
  tauFromNow := 5
  storageFeeSats := 0
  marketState := .trading
  tradingFee := 0
  liquidityBaseSats := 0
  shares := []
  finalPrices := prices
  version := 0
  lastUpdatedHeight := 0
  totalVolumeSats := 0
  outcomeVolumesSats := []
  txPowHashSelector := 0
  txPowOrdering := 0
  txPowDifficulty := 0

/-- Addresses from 0 on hold shares of the first outcome, and the treasury has an output. -/
def heldState (treasury : Nat) (shares : List I64) : State Rat :=
  let outpoint : OutPoint := .marketFunds 0 1 false
  let accounts : Table Address ShareAccount := shares.zipIdx.foldl
    (fun accounts entry => accounts.insert entry.2
      ⟨(∅ : Table PositionKey I64).insert ⟨0, 0⟩ entry.1, 0⟩) ∅
  { State.empty Rat with
    coins := Coins.empty.insertUtxo outpoint ⟨1, .marketFunds 0 treasury false, []⟩
    markets := { MarketsDatabase.empty Rat with
      shareAccounts := accounts
      marketFundsUtxos := (∅ : Table FundsKey OutPoint).insert ⟨0, false⟩ outpoint } }

def three : I64 := ⟨3, by decide⟩

/-- Three holders of three shares at a price of a half share a treasury of four. -/
theorem calculateSharePayouts_paid_halves :
    ∃ summary, calculateSharePayouts (heldState 4 [three, three, three]) (pricedMarket [1 / 2]) 0
        [] [] = .ok summary ∧
      totalSats summary.payouts + refundSats summary = 4 ∧
      Paid (pricedMarket [1 / 2])
        (holdings (heldState 4 [three, three, three]).markets 0) 4 summary.payouts :=
  calculateSharePayouts_paid (s := heldState 4 [three, three, three])
    (by decide +kernel) (by decide +kernel : _ = Except.ok 0) (Nat.zero_le _) (by rfl)
    (by decide +kernel) (by decide +kernel) (by decide +kernel)

def manyShares : I64 := ⟨2 ^ 63 - 1, by decide⟩

/-- Four positions whose floors fit the treasury round up to more than 64 bits hold. -/
theorem calculateSharePayouts_overflows :
    (heldState (2 ^ 64 - 4) (List.replicate 4 manyShares)).getMarketFundsSats 0 false =
        .ok (2 ^ 64 - 4) ∧
      ((holdings (heldState (2 ^ 64 - 4) (List.replicate 4 manyShares)).markets 0).map fun h =>
        floorSats (exactValue [1 / 2] h)).sum ≤ 2 ^ 64 - 4 ∧
      calculateFeeDistribution (heldState (2 ^ 64 - 4) (List.replicate 4 manyShares))
        (pricedMarket [1 / 2]) 0 [] [] = .ok [] ∧
      calculateSharePayouts (heldState (2 ^ 64 - 4) (List.replicate 4 manyShares))
        (pricedMarket [1 / 2]) 0 [] [] = .error .panic := by
  decide +kernel

end Truthcoin.SharePayouts
