import Truthcoin.CostPotential
import Truthcoin.FundsValue
import Truthcoin.PegRebuild

/-!
# The outputs that hold the treasuries

The pointer of a market refers to the output that holds its treasury. Tags tell the outputs of
different funds apart, so each step of a block leaves all treasuries alone but the one that it
is about. A consolidation adds what the block pays into a market and takes what it pays out.
-/

namespace Truthcoin.TreasuryOutputs

open Truthcoin.Types Truthcoin.Table Truthcoin.Fallible Truthcoin.Arithmetic
open Truthcoin.Markets Truthcoin.Blocks Truthcoin.Trading Truthcoin.Validation
open Truthcoin.Settlement Truthcoin.Apply Truthcoin.Consolidation Truthcoin.TagConnect
open Truthcoin.FundsValue Truthcoin.CostPotential

variable {F : Type} {L : Library F} {T : Tags}

/-- Where the output of a treasury comes from: from a consolidation, or from the transaction
that created the market. -/
inductive Origin (L : Library F) (marketId : MarketId) : OutPoint → Nat → Prop where
  | consolidated (height amount : Nat) :
      Origin L marketId (.marketFunds marketId height false) amount
  | created {tx : Transaction F} {vout amount : Nat} {output : Output}
      (houtput : tx.outputs[vout]? = some output)
      (hamount : treasuryAmount marketId output = some amount) :
      Origin L marketId (.regular (L.txid tx) vout) amount

/-- The treasury of a market holds an amount; without a pointer there is none. -/
inductive Holds (L : Library F) (f : Funds) (marketId : MarketId) : Nat → Prop where
  | nothing (hpointer : f.pointers[(⟨marketId, false⟩ : FundsKey)]? = none) : Holds L f marketId 0
  | output {o : OutPoint} {output : FilledOutput}
      (hpointer : f.pointers[(⟨marketId, false⟩ : FundsKey)]? = some o)
      (hunspent : f.coins.utxos[o]? = some output)
      (horigin : Origin L marketId o output.getBitcoinValue) :
      Holds L f marketId output.getBitcoinValue

/-- A step that leaves the funds with a key alone. -/
structure Keeps (T : Tags) (key : FundsKey) (f f' : Funds) : Prop where
  pointer : f'.pointers[key]? = f.pointers[key]?
  coins : ∀ o, (T o).funds = some key → f'.coins.utxos[o]? = f.coins.utxos[o]?

theorem Keeps.refl (key : FundsKey) (f : Funds) : Keeps T key f f :=
  ⟨rfl, fun _ _ => rfl⟩

theorem Keeps.trans {key : FundsKey} {f f' f'' : Funds} (h : Keeps T key f f')
    (h' : Keeps T key f' f'') : Keeps T key f f'' :=
  ⟨h'.pointer.trans h.pointer, fun o ho => (h'.coins o ho).trans (h.coins o ho)⟩

theorem Origin.funds (hT : TagsOf L T) {marketId : MarketId} {o : OutPoint} {amount : Nat}
    (h : Origin L marketId o amount) : (T o).funds = some ⟨marketId, false⟩ := by
  cases h with
  | consolidated height amount => exact congrArg Tag.funds (hT.marketFunds ⟨marketId, false⟩ height)
  | @created tx vout amount output houtput hamount =>
      rw [hT.regular tx vout output houtput]
      unfold treasuryAmount at hamount
      split at hamount
      · rename_i heq
        split at hamount
        · rename_i hid
          simp only [Output.tag, heq, Content.fundsKey, hid]
        · cases hamount
      · cases hamount

theorem Holds.keep (hT : TagsOf L T) {f f' : Funds} {marketId : MarketId} {amount : Nat}
    (h : Holds L f marketId amount) (hkeeps : Keeps T ⟨marketId, false⟩ f f') :
    Holds L f' marketId amount := by
  cases h with
  | nothing hpointer => exact .nothing (hkeeps.pointer.trans hpointer)
  | output hpointer hunspent horigin =>
      exact .output (hkeeps.pointer.trans hpointer)
        ((hkeeps.coins _ (horigin.funds hT)).trans hunspent) horigin

theorem Holds.rows {f : Funds} {marketId : MarketId} {amount : Nat}
    (h : Holds L f marketId amount) : (rowValues (f.rows ⟨marketId, false⟩)).sum = amount := by
  cases h with
  | nothing hpointer => rw [Funds.rows, hpointer]; rfl
  | output hpointer hunspent horigin =>
      simp only [Funds.rows, hpointer, hunspent, Option.elim_some, rowValues, List.map_cons,
        List.map_nil, List.sum_cons, List.sum_nil, add_zero]

theorem Holds.getMarketFundsSats {s : State F} {marketId : MarketId} {amount : Nat}
    (h : Holds L (Connect.fundsOf s) marketId amount) :
    s.getMarketFundsSats marketId false = .ok amount := by
  have hpointer (found : Option OutPoint)
      (hfound : s.markets.marketFundsUtxos[(⟨marketId, false⟩ : FundsKey)]? = found) :
      s.markets.getMarketFundsUtxo marketId false = found := hfound
  cases h with
  | nothing hnone => rw [State.getMarketFundsSats, hpointer none hnone]
  | output hsome hunspent _ =>
      have hfound : s.coins.utxos[_]? = some _ := hunspent
      rw [State.getMarketFundsSats, hpointer _ hsome]
      simp only [hfound, okOr_some, ok_bind]

theorem not_mem_of_tags {rows : List CoinRow} {key : FundsKey}
    (hrows : ∀ row ∈ rows, (T row.1).funds ≠ some key) {o : OutPoint}
    (ho : (T o).funds = some key) : o ∉ rows.map Prod.fst := by
  intro hmem
  obtain ⟨row, hrow, rfl⟩ := List.mem_map.mp hmem
  exact hrows row hrow ho

theorem keeps_insertRows {f : Funds} {rows : List CoinRow} {key : FundsKey}
    (hrows : ∀ row ∈ rows, (T row.1).funds ≠ some key) :
    Keeps T key f { f with coins := insertRows f.coins rows } :=
  ⟨rfl, fun _ ho => Coins.insertRows_utxos_of_not_mem (not_mem_of_tags hrows ho)⟩

theorem keeps_deleteOutpoints {f : Funds} {os : List OutPoint} {key : FundsKey}
    (hos : ∀ o ∈ os, (T o).funds ≠ some key) :
    Keeps T key f { f with coins := deleteOutpoints f.coins os } :=
  ⟨rfl, fun o ho => by rw [Coins.deleteOutpoints_utxos, if_neg fun hmem => hos o hmem ho]⟩

theorem keeps_clearPointer {f : Funds} {key key' : FundsKey} (hne : key ≠ key') :
    Keeps T key f (f.clearPointer key') := by
  refine ⟨?_, fun _ _ => rfl⟩
  change (f.pointers.erase key')[key]? = _
  rw [lookup_erase, if_neg hne]

theorem keeps_put (hT : TagsOf L T) {f : Funds} {key key' : FundsKey} (hne : key ≠ key')
    (height amount : Nat) : Keeps T key f (f.put L key' height amount) := by
  refine ⟨?_, fun o ho => ?_⟩
  · change (f.pointers.insert key' _)[key]? = _
    rw [lookup_insert, if_neg hne]
  · have htag := hT.marketFunds key' height
    have hother : (fundsRow L key' height amount).1 ≠ o := by
      rintro rfl
      rw [fundsRow, htag] at ho
      exact hne (Option.some.inj ho).symm
    change (f.coins.insertUtxo _ _).utxos[o]? = _
    rw [Coins.insertUtxo_utxos, if_neg hother]

theorem holds_put (f : Funds) (marketId : MarketId) (height amount : Nat) :
    Holds L (f.put L ⟨marketId, false⟩ height amount) marketId amount := by
  have horigin : Origin L marketId (.marketFunds marketId height false)
      (fundsRow L ⟨marketId, false⟩ height amount).2.getBitcoinValue :=
    .consolidated height amount
  refine Holds.output ?_ ?_ horigin
  · exact Std.ExtTreeMap.getElem?_insert_self
  · exact Std.ExtTreeMap.getElem?_insert_self

theorem holds_clearPointer (f : Funds) (marketId : MarketId) :
    Holds L (f.clearPointer ⟨marketId, false⟩) marketId 0 :=
  .nothing Std.ExtTreeMap.getElem?_erase_self

theorem payments_tags (hT : TagsOf L T) (sells : List PendingSellPayout)
    {buys : List PendingBuySettlement} {changes : List (Option CoinRow)}
    (h : buys.mapM (buyChangeRow L) = .ok changes) (key : FundsKey) :
    ∀ row ∈ sells.map (sellPayoutRow L) ++ changes.reduceOption, (T row.1).funds ≠ some key := by
  intro row hrow
  rcases List.mem_append.mp hrow with hsell | hchange
  · obtain ⟨p, -, rfl⟩ := List.mem_map.mp hsell
    rw [sellPayoutRow, hT.sellPayout]
    exact (Option.some_ne_none key).symm
  · rw [List.reduceOption_mem_iff] at hchange
    obtain ⟨b, -, hb⟩ := exists_of_mem_mapM h hchange
    simp only [buyChangeRow, bind_eq_ok_iff, Except.ok.injEq] at hb
    obtain ⟨change, -, hb⟩ := hb
    split at hb
    · obtain rfl := Option.some.inj hb
      rw [hT.buyChange]
      exact (Option.some_ne_none key).symm
    · cases hb

theorem rows_tags {f : Funds} (hf : PointersTagged T f.pointers) {key key' : FundsKey}
    (hne : key ≠ key') : ∀ row ∈ f.rows key', (T row.1).funds ≠ some key := by
  intro row hrow htag
  rw [hf key' row.1 (rows_keys f key' row hrow).1] at htag
  exact hne (Option.some.inj htag).symm

theorem keeps_consolidateTreasury (hT : TagsOf L T) {height : Nat} {marketId : MarketId}
    {f : Funds} {sells : List PendingSellPayout} {buys : List PendingBuySettlement}
    {w : MarketWork} {t : TreasuryStep} (hf : PointersTagged T f.pointers)
    (hw : Counts sells buys f marketId w)
    (h : consolidateTreasury L height marketId w f = .ok t) {key : FundsKey}
    (hne : key ≠ ⟨marketId, false⟩) : Keeps T key f t.funds := by
  unfold consolidateTreasury at h
  split at h
  · simp only [bind_eq_ok_iff, Except.ok.injEq] at h
    obtain ⟨changes, hchanges, remaining, -, rfl⟩ := h
    have hdeleted : Keeps T key f
        { f with coins := deleteOutpoints f.coins (w.treasuryRows.map Prod.fst) } := by
      refine keeps_deleteOutpoints fun o ho => ?_
      obtain ⟨row, hrow, rfl⟩ := List.mem_map.mp ho
      rw [hw.treasuryRows] at hrow
      exact rows_tags hf hne row hrow
    have hpaid := (hdeleted.trans (keeps_insertRows (payments_tags hT w.sells
      hchanges key))).trans (keeps_clearPointer hne)
    dsimp only
    split
    · exact hpaid.trans (keeps_put hT hne height remaining)
    · exact hpaid
  · obtain rfl := Except.ok.inj h
    exact Keeps.refl key f

theorem keeps_consolidateFees (hT : TagsOf L T) {height : Nat} {marketId : MarketId}
    {f g : Funds} {w : MarketWork} (hf : PointersTagged T f.pointers)
    (hrows : w.feeRows = f.rows ⟨marketId, true⟩) {key : FundsKey} (hne : key ≠ ⟨marketId, true⟩) :
    Keeps T key g (consolidateFees L height marketId w g).1 := by
  unfold consolidateFees
  split
  · have hdeleted : Keeps T key g
        { g with coins := deleteOutpoints g.coins (w.feeRows.map Prod.fst) } := by
      refine keeps_deleteOutpoints fun o ho => ?_
      obtain ⟨row, hrow, rfl⟩ := List.mem_map.mp ho
      rw [hrows] at hrow
      exact rows_tags hf hne row hrow
    exact (hdeleted.trans (keeps_clearPointer hne)).trans (keeps_put hT hne height w.feeTotal)
  · exact Keeps.refl key g

/-- The treasury is renewed with what the block pays in, less what it pays out. -/
theorem holds_consolidateTreasury {height : Nat} {marketId : MarketId} {f : Funds}
    {sells : List PendingSellPayout} {buys : List PendingBuySettlement} {w : MarketWork}
    {t : TreasuryStep} (hw : Counts sells buys f marketId w) {amount : Nat}
    (hholds : Holds L f marketId amount)
    (h : consolidateTreasury L height marketId w f = .ok t) :
    ∃ rest, Holds L t.funds marketId rest ∧
      rest + (w.totalSellPayouts + w.totalSellFees) =
        amount + (w.buys.map PendingBuySettlement.lmsrCostSats).sum := by
  have htotal := hw.treasuryTotal
  rw [hw.treasuryRows, hholds.rows] at htotal
  unfold consolidateTreasury at h
  split at h
  · simp only [bind_eq_ok_iff, okOr_eq_ok_iff, Except.ok.injEq, Option.bind_eq_bind,
      Option.bind_eq_some_iff] at h
    obtain ⟨changes, -, remaining, ⟨v, hv, hremaining⟩, rfl⟩ := h
    obtain ⟨hle, rfl⟩ := checkedSub_eq_some_iff.mp hv
    obtain ⟨hle', rfl⟩ := checkedSub_eq_some_iff.mp hremaining
    refine ⟨w.treasuryTotal - w.totalSellPayouts - w.totalSellFees, ?_, by omega⟩
    dsimp only
    split
    · exact holds_put _ marketId height _
    · rename_i hzero
      rw [Nat.eq_zero_of_not_pos hzero]
      exact holds_clearPointer _ marketId
  · rename_i hnone
    obtain rfl := Except.ok.inj h
    have hsells : w.sells = [] := by
      by_contra hsells
      exact hnone ⟨.inr (.inl hsells), .inr hsells⟩
    have hempty : w.treasuryTotal = 0 := by
      by_contra hpos
      have hrows : w.treasuryRows = [] := by
        by_contra hrows
        exact hnone ⟨.inl hrows, .inl (Nat.pos_of_ne_zero hpos)⟩
      have hbuys : w.buys = [] := by
        by_contra hbuys
        exact hnone ⟨.inr (.inr hbuys), .inl (Nat.pos_of_ne_zero hpos)⟩
      have hzero : amount = 0 := by rw [← hholds.rows, ← hw.treasuryRows, hrows]; rfl
      rw [hbuys, hzero] at htotal
      exact hpos htotal
    have hpayouts : w.totalSellPayouts = 0 := by rw [hw.payouts, hsells]; rfl
    have hfees : w.totalSellFees = 0 := by rw [hw.fees, hsells]; rfl
    exact ⟨amount, hholds, by omega⟩

theorem sum_gross (sells : List PendingSellPayout) :
    (sells.map PendingSellPayout.payoutSats).sum + (sells.map PendingSellPayout.feeSats).sum =
      (sells.map fun p => p.payoutSats + p.feeSats).sum :=
  (List.sum_map_add ..).symm

variable {u : StateUpdate F} {height : Nat} {marketId : MarketId}
  {acc acc' : Funds × List ConsolidationUndoEntry}

theorem holds_consolidateMarket (hT : TagsOf L T) (hf : PointersTagged T acc.1.pointers)
    {amount : Nat} (hholds : Holds L acc.1 marketId amount)
    (h : consolidateMarket L u.pendingSellPayouts u.pendingBuySettlements height acc marketId =
      .ok acc') :
    ∃ rest, Holds L acc'.1 marketId rest ∧
      rest + paidOut u marketId = amount + paidIn u marketId := by
  simp only [consolidateMarket, bind_eq_ok_iff, Except.ok.injEq] at h
  obtain ⟨w, hwork, t, ht, rfl⟩ := h
  have hw := counts_of_marketWork hwork
  obtain ⟨rest, hrest, hsum⟩ := holds_consolidateTreasury hw hholds ht
  refine ⟨rest, hrest.keep hT (keeps_consolidateFees hT hf hw.feeRows (by simp)), ?_⟩
  rw [paidOut, paidIn, ← hw.sells_eq, ← hw.buys_eq, ← sum_gross, ← hw.payouts, ← hw.fees]
  exact hsum

theorem keeps_consolidateMarket (hT : TagsOf L T) (hf : PointersTagged T acc.1.pointers)
    (h : consolidateMarket L u.pendingSellPayouts u.pendingBuySettlements height acc marketId =
      .ok acc') {key : FundsKey} (hne : key.marketId ≠ marketId) : Keeps T key acc.1 acc'.1 := by
  simp only [consolidateMarket, bind_eq_ok_iff, Except.ok.injEq] at h
  obtain ⟨w, hwork, t, ht, rfl⟩ := h
  have hw := counts_of_marketWork hwork
  have hother (isFee : Bool) : key ≠ ⟨marketId, isFee⟩ := fun heq => hne (by rw [heq])
  exact (keeps_consolidateTreasury hT hf hw ht (hother false)).trans
    (keeps_consolidateFees hT hf hw.feeRows (hother true))

theorem holds_consolidateMarkets (hT : TagsOf L T) {ids : List MarketId} (hnodup : ids.Nodup)
    (hacc : FundsTagged T acc.1 ∧ ∀ e ∈ acc.2, ConsolidationTagged T e)
    (h : ids.foldlM (consolidateMarket L u.pendingSellPayouts u.pendingBuySettlements height) acc =
      .ok acc') {amount : Nat} (hholds : Holds L acc.1 marketId amount) :
    ∃ rest, Holds L acc'.1 marketId rest ∧
      if marketId ∈ ids then rest + paidOut u marketId = amount + paidIn u marketId
      else rest = amount := by
  induction ids generalizing acc amount with
  | nil =>
      obtain rfl := Except.ok.inj h
      exact ⟨amount, hholds, rfl⟩
  | cons id ids ih =>
      obtain ⟨mid, hfirst, hrest⟩ := bind_eq_ok_iff.mp h
      rw [List.nodup_cons] at hnodup
      have hmid := consolidateMarket_tagged hT hacc hfirst
      by_cases heq : marketId = id
      · subst heq
        obtain ⟨renewed, hrenewed, hsum⟩ := holds_consolidateMarket hT hacc.1.pointers hholds hfirst
        obtain ⟨rest, hrest, hkept⟩ := ih hnodup.2 hmid hrest hrenewed
        rw [if_neg hnodup.1] at hkept
        refine ⟨rest, hrest, ?_⟩
        rw [if_pos List.mem_cons_self, hkept, hsum]
      · have hkeeps : Keeps T ⟨marketId, false⟩ acc.1 mid.1 :=
          keeps_consolidateMarket hT hacc.1.pointers hfirst heq
        obtain ⟨rest, hrest, hsum⟩ := ih hnodup.2 hmid hrest (hholds.keep hT hkeeps)
        refine ⟨rest, hrest, ?_⟩
        simpa only [List.mem_cons, heq, false_or] using hsum

theorem paid_of_not_mem (h : marketId ∉ marketsToConsolidate L u.pendingSellPayouts
    u.pendingBuySettlements) : paidOut u marketId = 0 ∧ paidIn u marketId = 0 := by
  rw [marketsToConsolidate, (L.order_perm _).mem_iff, List.mem_dedup, List.mem_append,
    not_or] at h
  have hsells : u.pendingSellPayouts.filter (fun p => p.marketId = marketId) = [] := by
    refine List.filter_eq_nil_iff.mpr fun p hp => ?_
    rw [decide_eq_true_iff]
    rintro rfl
    exact h.1 (List.mem_map_of_mem hp)
  have hbuys : u.pendingBuySettlements.filter (fun b => b.marketId = marketId) = [] := by
    refine List.filter_eq_nil_iff.mpr fun b hb => ?_
    rw [decide_eq_true_iff]
    rintro rfl
    exact h.2 (List.mem_map_of_mem hb)
  rw [paidOut, paidIn, hsells, hbuys]
  exact ⟨rfl, rfl⟩

/-- After a consolidation every treasury has what it had, with what the block pays in and
without what it pays out. -/
theorem holds_consolidateMarketUtxos (hT : TagsOf L T) {f f' : Funds}
    {undo : Option ConsolidationUndoData} (hf : FundsTagged T f)
    (h : consolidateMarketUtxos L height u.pendingSellPayouts u.pendingBuySettlements
      u.pendingSellInputChanges f = .ok (f', undo)) {amount : Nat}
    (hholds : Holds L f marketId amount) :
    ∃ rest, Holds L f' marketId rest ∧
      rest + paidOut u marketId = amount + paidIn u marketId := by
  unfold consolidateMarketUtxos at h
  dsimp only at h
  split at h
  · rename_i hnone
    obtain ⟨rfl, -⟩ := Prod.mk.inj (Except.ok.inj h)
    have hnot : marketId ∉
        marketsToConsolidate L u.pendingSellPayouts u.pendingBuySettlements := by
      rw [hnone.1]
      exact List.not_mem_nil
    obtain ⟨hout, hin⟩ := paid_of_not_mem hnot
    exact ⟨amount, hholds, by rw [hout, hin]⟩
  · obtain ⟨⟨funds, entries⟩, hfold, h⟩ := bind_eq_ok_iff.mp h
    obtain ⟨rfl, -⟩ := Prod.mk.inj (Except.ok.inj h)
    obtain ⟨rest, hrest, hsum⟩ := holds_consolidateMarkets hT (nodup_marketsToConsolidate _ _)
      ⟨hf, by simp⟩ hfold hholds
    refine ⟨rest, hrest.keep hT (keeps_insertRows fun row hrow => ?_), ?_⟩
    · obtain ⟨c, -, hc⟩ := List.mem_filterMap.mp hrow
      unfold sellInputChangeRow at hc
      split at hc
      · obtain rfl := Option.some.inj hc
        rw [hT.sellInputChange]
        exact (Option.some_ne_none _).symm
      · cases hc
    · split at hsum
      · exact hsum
      · rename_i hmem
        obtain ⟨hout, hin⟩ := paid_of_not_mem hmem
        rw [hsum, hout, hin]

end Truthcoin.TreasuryOutputs
