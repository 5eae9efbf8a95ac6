import Truthcoin.TransactionValue
import Truthcoin.TagConnect

/-!
# The value of the funds of markets

A consolidation pays out of the funds of a market and of what the block took in for it, and
a settlement pays out what its funds hold. The two funds of a market are two outputs, so
neither is counted twice.
-/

namespace Truthcoin

open Truthcoin.Types Truthcoin.Table

theorem sum_filter_keys {α κ : Type} [DecidableEq κ] (key : α → κ) (w : α → Nat)
    {keys : List κ} (hkeys : keys.Nodup) (l : List α) :
    (keys.map fun k => ((l.filter fun a => key a = k).map w).sum).sum =
      ((l.filter fun a => key a ∈ keys).map w).sum := by
  induction keys generalizing l with
  | nil => simp
  | cons k keys ih =>
      obtain ⟨hfresh, hkeys⟩ := List.nodup_cons.mp hkeys
      rw [List.map_cons, List.sum_cons, ih hkeys, ← List.sum_append, ← List.map_append]
      refine List.Perm.sum_eq (List.Perm.map w ?_)
      induction l with
      | nil => exact List.Perm.refl _
      | cons a l ihl =>
          by_cases hk : key a = k
          · have hnot : key a ∉ keys := hk ▸ hfresh
            simpa [List.filter_cons, hk, hfresh] using ihl
          · by_cases hmem : key a ∈ keys
            · simpa [List.filter_cons, hk, hmem] using List.perm_middle.trans (ihl.cons a)
            · simpa [List.filter_cons, hk, hmem] using ihl

theorem sum_filter_le {α κ : Type} [DecidableEq κ] (key : α → κ) (w : α → Nat) {keys : List κ}
    (hkeys : keys.Nodup) (l : List α) :
    (keys.map fun k => ((l.filter fun a => key a = k).map w).sum).sum ≤ (l.map w).sum := by
  rw [sum_filter_keys key w hkeys]
  exact (List.filter_sublist.map w).sum_le_sum fun _ _ => Nat.zero_le _

theorem Coins.value_outside_split {c : Coins} {rows : List CoinRow} {os : List OutPoint}
    (hnodup : (rows.map Prod.fst).Nodup)
    (hpresent : ∀ row ∈ rows, c.utxos[row.1]? = some row.2) (hout : ∀ row ∈ rows, row.1 ∉ os) :
    (deleteOutpoints c (rows.map Prod.fst ++ os)).value + (rowValues rows).sum =
      (deleteOutpoints c os).value := by
  rw [Coins.deleteOutpoints_perm List.perm_append_comm, Coins.deleteOutpoints_append]
  refine Coins.value_deleteOutpoints hnodup fun row hrow => ?_
  rw [Coins.deleteOutpoints_utxos, if_neg (hout row hrow), hpresent row hrow]

namespace FundsValue

open Truthcoin.Fallible Truthcoin.Arithmetic Truthcoin.Decisions Truthcoin.Markets
open Truthcoin.Voting Truthcoin.Blocks Truthcoin.Trading Truthcoin.Validation
open Truthcoin.Settlement Truthcoin.Apply Truthcoin.Consolidation Truthcoin.TransactionValue
open Truthcoin.SettlementSteps Truthcoin.TagConnect

variable {F : Type} {L : Library F} {T : Tags}

theorem rows_keys (f : Funds) (key : FundsKey) :
    ∀ row ∈ f.rows key, f.pointers[key]? = some row.1 ∧ f.coins.utxos[row.1]? = some row.2 := by
  intro row hrow
  unfold Funds.rows at hrow
  split at hrow
  · cases hrow
  · rename_i o ho
    cases hlookup : f.coins.utxos[o]? with
    | none =>
        rw [hlookup] at hrow
        cases hrow
    | some output =>
        rw [hlookup] at hrow
        obtain rfl := List.mem_singleton.mp hrow
        exact ⟨ho, hlookup⟩

theorem rows_nodup (f : Funds) (key : FundsKey) : ((f.rows key).map Prod.fst).Nodup := by
  unfold Funds.rows
  split
  · exact List.nodup_nil
  · rename_i o ho
    cases f.coins.utxos[o]? with
    | none => exact List.nodup_nil
    | some output => exact List.nodup_singleton o

theorem rows_disjoint {f : Funds} (hf : FundsTagged T f) {key key' : FundsKey}
    (hne : key ≠ key') : ∀ row ∈ f.rows key, row.1 ∉ (f.rows key').map Prod.fst := by
  intro row hrow hmem
  obtain ⟨row', hrow', heq⟩ := List.mem_map.mp hmem
  have htag := hf.pointers key row.1 (rows_keys f key row hrow).1
  have htag' := hf.pointers key' row'.1 (rows_keys f key' row' hrow').1
  rw [heq, htag] at htag'
  exact hne (Option.some.inj htag')

/-- What a buy pays beyond its costs. -/
def changeSats (b : PendingBuySettlement) : Nat :=
  b.inputValueSats - tradeMinerFeeSats - b.lmsrCostSats - b.marketFeeSats

/-- What the consolidation of one market counts. -/
structure Counts (sells : List PendingSellPayout) (buys : List PendingBuySettlement) (f : Funds)
    (marketId : MarketId) (w : MarketWork) : Prop where
  sells_eq : w.sells = sells.filter fun p => p.marketId = marketId
  buys_eq : w.buys = buys.filter fun b => b.marketId = marketId
  treasuryRows : w.treasuryRows = f.rows ⟨marketId, false⟩
  feeRows : w.feeRows = f.rows ⟨marketId, true⟩
  treasuryTotal : w.treasuryTotal =
    (rowValues w.treasuryRows).sum + (w.buys.map PendingBuySettlement.lmsrCostSats).sum
  feeTotal : w.feeTotal = (rowValues w.feeRows).sum +
    (w.buys.map PendingBuySettlement.marketFeeSats).sum + w.totalSellFees
  payouts : w.totalSellPayouts = (w.sells.map PendingSellPayout.payoutSats).sum
  fees : w.totalSellFees = (w.sells.map PendingSellPayout.feeSats).sum

theorem counts_of_marketWork {sells : List PendingSellPayout} {buys : List PendingBuySettlement}
    {f : Funds} {marketId : MarketId} {w : MarketWork}
    (h : marketWork sells buys f marketId = .ok w) : Counts sells buys f marketId w := by
  simp only [marketWork, bind_eq_ok_iff, addU64_eq_ok_iff, Except.ok.injEq] at h
  obtain ⟨treasury, htreasury, fee, hfee, payouts, hpayouts, fees, hfees, _, ⟨-, rfl⟩, _, -,
    _, -, rfl⟩ := h
  refine ⟨rfl, rfl, rfl, rfl, ?_, ?_, sumU64_eq hpayouts, sumU64_eq hfees⟩
  · rw [sumU64_eq htreasury, List.sum_append]
  · rw [sumU64_eq hfee, List.sum_append]

theorem rowValues_changeRows {buys : List PendingBuySettlement}
    {changes : List (Option CoinRow)} (h : buys.mapM (buyChangeRow L) = .ok changes) :
    (rowValues changes.reduceOption).sum = (buys.map changeSats).sum := by
  have hpairs := mapM_eq_ok_iff.mp h
  clear h
  induction hpairs with
  | nil => rfl
  | @cons b row buys changes hfirst _ ih =>
      simp only [buyChangeRow, buyChange, bind_eq_ok_iff, okOr_eq_ok_iff,
        Option.bind_eq_bind, Option.bind_eq_some_iff, Except.ok.injEq] at hfirst
      obtain ⟨change, ⟨v, hv, v', hv', hchange⟩, rfl⟩ := hfirst
      have hsats : change = changeSats b := by
        rw [changeSats, (checkedSub_eq_some_iff.mp hchange).2,
          (checkedSub_eq_some_iff.mp hv').2, (checkedSub_eq_some_iff.mp hv).2]
      rw [List.map_cons, List.sum_cons, ← ih, ← hsats]
      split
      · rw [List.reduceOption_cons_of_some]
        rfl
      · rename_i hzero
        rw [List.reduceOption_cons_of_none]
        omega

theorem rowValues_sellPayouts (sells : List PendingSellPayout) :
    rowValues (sells.map (sellPayoutRow L)) = sells.map PendingSellPayout.payoutSats := by
  rw [rowValues, List.map_map]
  rfl

theorem value_put_le (f : Funds) (key : FundsKey) (height amount : Nat) (os : List OutPoint) :
    (deleteOutpoints (f.put L key height amount).coins os).value ≤
      (deleteOutpoints f.coins os).value + amount :=
  Coins.value_outside_insertUtxo_le

/-- The treasury pays the sellers and keeps the rest, up to the fees of the sells. -/
theorem value_consolidateTreasury_le {height : Nat} {marketId : MarketId} {f : Funds}
    {sells : List PendingSellPayout} {buys : List PendingBuySettlement} {w : MarketWork}
    {t : TreasuryStep} (hw : Counts sells buys f marketId w)
    (h : consolidateTreasury L height marketId w f = .ok t) {os : List OutPoint}
    (hos : ∀ row ∈ w.treasuryRows, row.1 ∉ os) :
    (deleteOutpoints t.funds.coins os).value + w.totalSellFees ≤
      (deleteOutpoints f.coins os).value + (w.buys.map PendingBuySettlement.lmsrCostSats).sum +
        (w.buys.map changeSats).sum := by
  have hsplit : (deleteOutpoints f.coins (w.treasuryRows.map Prod.fst ++ os)).value +
      (rowValues w.treasuryRows).sum = (deleteOutpoints f.coins os).value := by
    refine Coins.value_outside_split ?_ ?_ hos
    · rw [hw.treasuryRows]
      exact rows_nodup f _
    · intro row hrow
      rw [hw.treasuryRows] at hrow
      exact (rows_keys f _ row hrow).2
  have htotal := hw.treasuryTotal
  unfold consolidateTreasury at h
  split at h
  · simp only [bind_eq_ok_iff, okOr_eq_ok_iff, Except.ok.injEq, Option.bind_eq_bind,
      Option.bind_eq_some_iff] at h
    obtain ⟨changes, hchanges, remaining, ⟨v, hv, hremaining⟩, rfl⟩ := h
    obtain ⟨hle, rfl⟩ := checkedSub_eq_some_iff.mp hv
    obtain ⟨hle', hleft⟩ := checkedSub_eq_some_iff.mp hremaining
    have hrows : (rowValues (w.sells.map (sellPayoutRow L) ++ changes.reduceOption)).sum =
        w.totalSellPayouts + (w.buys.map changeSats).sum := by
      rw [hw.payouts, ← rowValues_changeRows hchanges, ← rowValues_sellPayouts (L := L)]
      simp [rowValues]
    have hpaid : (deleteOutpoints (insertRows
        (deleteOutpoints f.coins (w.treasuryRows.map Prod.fst))
          (w.sells.map (sellPayoutRow L) ++ changes.reduceOption)) os).value ≤
        (deleteOutpoints f.coins (w.treasuryRows.map Prod.fst ++ os)).value +
          (w.totalSellPayouts + (w.buys.map changeSats).sum) := by
      rw [Coins.deleteOutpoints_append, ← hrows]
      exact Coins.value_outside_insertRows_le
    generalize insertRows (deleteOutpoints f.coins (w.treasuryRows.map Prod.fst))
      (w.sells.map (sellPayoutRow L) ++ changes.reduceOption) = c at hpaid ⊢
    dsimp only
    split
    · refine (Nat.add_le_add_right (value_put_le _ _ _ _ _) _).trans ?_
      change (deleteOutpoints c os).value + remaining + w.totalSellFees ≤ _
      omega
    · change (deleteOutpoints c os).value + w.totalSellFees ≤ _
      omega
  · rename_i hnone
    obtain rfl := Except.ok.inj h
    have hsells : w.sells = [] := by
      by_contra hsells
      exact hnone ⟨.inr (.inl hsells), .inr hsells⟩
    have hfees : w.totalSellFees = 0 := by rw [hw.fees, hsells]; rfl
    rw [hfees]
    exact (Nat.le_add_right _ _).trans (Nat.le_add_right _ _)

theorem value_consolidateFees_le {height : Nat} {marketId : MarketId} {f g : Funds}
    {sells : List PendingSellPayout} {buys : List PendingBuySettlement} {w : MarketWork}
    (hw : Counts sells buys f marketId w)
    (hdisjoint : ∀ row ∈ w.treasuryRows, row.1 ∉ w.feeRows.map Prod.fst) {added : Nat}
    (hg : ∀ os, (∀ row ∈ w.treasuryRows, row.1 ∉ os) →
      (deleteOutpoints g.coins os).value + w.totalSellFees ≤
        (deleteOutpoints f.coins os).value + added) :
    (consolidateFees L height marketId w g).1.coins.value ≤
      f.coins.value + added + (w.buys.map PendingBuySettlement.marketFeeSats).sum := by
  have hsplit : (deleteOutpoints f.coins (w.feeRows.map Prod.fst)).value +
      (rowValues w.feeRows).sum = f.coins.value := by
    refine Coins.value_deleteOutpoints ?_ ?_
    · rw [hw.feeRows]
      exact rows_nodup f _
    · intro row hrow
      rw [hw.feeRows] at hrow
      exact (rows_keys f _ row hrow).2
  have htotal := hw.feeTotal
  have houtside := hg _ hdisjoint
  have hinside : g.coins.value + w.totalSellFees ≤ f.coins.value + added :=
    hg [] fun _ _ => List.not_mem_nil
  unfold consolidateFees
  split
  · refine (value_put_le (({ g with
      coins := deleteOutpoints g.coins (w.feeRows.map Prod.fst) } : Funds).clearPointer
        ⟨marketId, true⟩) ⟨marketId, true⟩ height w.feeTotal []).trans ?_
    change (deleteOutpoints g.coins (w.feeRows.map Prod.fst)).value + w.feeTotal ≤ _
    omega
  · change g.coins.value ≤ _
    omega

theorem sum_costs {buys : List PendingBuySettlement}
    (hpaid : ∀ b ∈ buys,
      b.lmsrCostSats + b.marketFeeSats + tradeMinerFeeSats ≤ b.inputValueSats) :
    (buys.map PendingBuySettlement.lmsrCostSats).sum + (buys.map changeSats).sum +
        (buys.map PendingBuySettlement.marketFeeSats).sum =
      (buys.map fun b => b.inputValueSats - tradeMinerFeeSats).sum := by
  induction buys with
  | nil => rfl
  | cons b buys ih =>
      have hfirst := hpaid b List.mem_cons_self
      have hrest := ih fun b' hb' => hpaid b' (List.mem_cons_of_mem _ hb')
      have hchange : b.lmsrCostSats + changeSats b + b.marketFeeSats =
          b.inputValueSats - tradeMinerFeeSats := by
        rw [changeSats]
        omega
      simp only [List.map_cons, List.sum_cons]
      omega

theorem value_consolidateMarket_le {sells : List PendingSellPayout}
    {buys : List PendingBuySettlement} {height : Nat} {marketId : MarketId}
    {acc acc' : Funds × List ConsolidationUndoEntry} (hf : FundsTagged T acc.1)
    (hpaid : ∀ b ∈ buys,
      b.lmsrCostSats + b.marketFeeSats + tradeMinerFeeSats ≤ b.inputValueSats)
    (h : consolidateMarket L sells buys height acc marketId = .ok acc') :
    acc'.1.coins.value ≤ acc.1.coins.value +
      ((buys.filter fun b => b.marketId = marketId).map
        fun b => b.inputValueSats - tradeMinerFeeSats).sum := by
  simp only [consolidateMarket, bind_eq_ok_iff, Except.ok.injEq] at h
  obtain ⟨w, hwork, t, ht, rfl⟩ := h
  have hw := counts_of_marketWork hwork
  have hdisjoint : ∀ row ∈ w.treasuryRows, row.1 ∉ w.feeRows.map Prod.fst := by
    rw [hw.treasuryRows, hw.feeRows]
    exact rows_disjoint hf (by simp)
  have hfees : (consolidateFees L height marketId w t.funds).1.coins.value ≤
      acc.1.coins.value + ((w.buys.map PendingBuySettlement.lmsrCostSats).sum +
        (w.buys.map changeSats).sum) + (w.buys.map PendingBuySettlement.marketFeeSats).sum := by
    refine value_consolidateFees_le hw hdisjoint fun os hos => ?_
    rw [← Nat.add_assoc]
    exact value_consolidateTreasury_le hw ht hos
  have hcosts : (w.buys.map PendingBuySettlement.lmsrCostSats).sum +
      (w.buys.map changeSats).sum + (w.buys.map PendingBuySettlement.marketFeeSats).sum =
        (w.buys.map fun b => b.inputValueSats - tradeMinerFeeSats).sum := by
    refine sum_costs fun b hb => ?_
    rw [hw.buys_eq] at hb
    exact hpaid b (List.mem_of_mem_filter hb)
  rw [← hw.buys_eq]
  dsimp only
  omega

theorem nodup_marketsToConsolidate (sells : List PendingSellPayout)
    (buys : List PendingBuySettlement) : (marketsToConsolidate L sells buys).Nodup :=
  (L.order_perm _).nodup_iff.mpr (List.nodup_dedup _)

theorem value_consolidateMarkets_le (hT : TagsOf L T) {sells : List PendingSellPayout}
    {buys : List PendingBuySettlement} {height : Nat} {marketIds : List MarketId}
    {acc acc' : Funds × List ConsolidationUndoEntry}
    (hacc : FundsTagged T acc.1 ∧ ∀ e ∈ acc.2, ConsolidationTagged T e)
    (hpaid : ∀ b ∈ buys,
      b.lmsrCostSats + b.marketFeeSats + tradeMinerFeeSats ≤ b.inputValueSats)
    (h : marketIds.foldlM (consolidateMarket L sells buys height) acc = .ok acc') :
    acc'.1.coins.value ≤ acc.1.coins.value +
      (marketIds.map fun m => ((buys.filter fun b => b.marketId = m).map
        fun b => b.inputValueSats - tradeMinerFeeSats).sum).sum := by
  induction marketIds generalizing acc with
  | nil =>
      rw [← Except.ok.inj h]
      exact Nat.le_refl _
  | cons m marketIds ih =>
      obtain ⟨acc₁, hfirst, hrest⟩ := bind_eq_ok_iff.mp h
      have hstep := value_consolidateMarket_le hacc.1 hpaid hfirst
      have hlater := ih (consolidateMarket_tagged hT hacc hfirst) hrest
      rw [List.map_cons, List.sum_cons]
      omega

theorem value_changeRows_le (changes : List PendingSellInputChange) :
    (rowValues (changes.filterMap (sellInputChangeRow L))).sum ≤
      (changes.map PendingSellInputChange.changeSats).sum := by
  induction changes with
  | nil => exact Nat.le_refl _
  | cons c changes ih =>
      rw [List.map_cons, List.sum_cons]
      by_cases hchange : c.changeSats > 0
      · rw [List.filterMap_cons_some (by rw [sellInputChangeRow, if_pos hchange])]
        exact Nat.add_le_add_left ih _
      · rw [List.filterMap_cons_none (by rw [sellInputChangeRow, if_neg hchange])]
        omega

theorem value_consolidateMarketUtxos_le (hT : TagsOf L T) {height : Nat} {u : StateUpdate F}
    {f f' : Funds} {undo : Option ConsolidationUndoData} (hf : FundsTagged T f) (hpaid : Paid u)
    (h : consolidateMarketUtxos L height u.pendingSellPayouts u.pendingBuySettlements
      u.pendingSellInputChanges f = .ok (f', undo)) :
    f'.coins.value ≤ f.coins.value + owed u := by
  unfold consolidateMarketUtxos at h
  dsimp only at h
  split at h
  · obtain ⟨rfl, -⟩ := Prod.mk.inj (Except.ok.inj h)
    exact Nat.le_add_right _ _
  · obtain ⟨⟨funds, entries⟩, hfold, h⟩ := bind_eq_ok_iff.mp h
    obtain ⟨rfl, -⟩ := Prod.mk.inj (Except.ok.inj h)
    have hmarkets := value_consolidateMarkets_le hT ⟨hf, by simp⟩ hpaid hfold
    have hbuys := sum_filter_le PendingBuySettlement.marketId
      (fun b => b.inputValueSats - tradeMinerFeeSats)
      (nodup_marketsToConsolidate (L := L) u.pendingSellPayouts u.pendingBuySettlements)
      u.pendingBuySettlements
    have hrows : (insertRows funds.coins
        (u.pendingSellInputChanges.filterMap (sellInputChangeRow L))).value ≤ funds.coins.value +
          (rowValues (u.pendingSellInputChanges.filterMap (sellInputChangeRow L))).sum :=
      Coins.value_insertRows_le
    have hchanges := value_changeRows_le (L := L) u.pendingSellInputChanges
    unfold owed
    dsimp only at hmarkets ⊢
    omega

end FundsValue

end Truthcoin
