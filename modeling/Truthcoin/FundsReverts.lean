import Truthcoin.CoinReverts
import Truthcoin.ListedRuns
import Truthcoin.SettlementValue
import Truthcoin.ShareSettlements
import Truthcoin.TagDisconnect
import Truthcoin.UndoPaths

/-!
# Undoing consolidations and settlements

The consolidations of a block use new outpoints, and their entries say what they created, what
they spent and what the pointers were. The same holds for the settlements. On funds that match
those after the block, undoing the entries leads to funds that match those before it.
-/

namespace Truthcoin.FundsReverts

open Truthcoin.Types Truthcoin.Table Truthcoin.Fallible Truthcoin.Markets Truthcoin.Blocks
open Truthcoin.Trading Truthcoin.Settlement Truthcoin.Apply Truthcoin.Consolidation
open Truthcoin.Connect Truthcoin.Commitments Truthcoin.FundsValue Truthcoin.SettlementSteps
open Truthcoin.MarketSteps Truthcoin.ShareSettlements Truthcoin.ListedMarkets
open Truthcoin.TagConnect Truthcoin.UndoPaths Truthcoin.CoinStages

variable {F : Type} {L : Library F}

/-- The other coins match and have the same pointers. -/
structure FundsMatch (f g : Funds) : Prop where
  coins : f.coins.Matches g.coins
  pointers : g.pointers = f.pointers

theorem FundsMatch.refl (f : Funds) : FundsMatch f f :=
  ⟨.refl _, rfl⟩

/-- The outpoints that a consolidation has created. -/
def madeBy (entry : ConsolidationUndoEntry) : List OutPoint :=
  entry.newTreasuryUtxo.toList ++ entry.newFeeUtxo.toList ++ entry.sellPayoutUtxos ++
    entry.buyChangeUtxos

/-- What consolidating a market does to the funds, as its entry records it. -/
structure Consolidates (L : Library F) (block : Block F) (height : Nat)
    (entry : ConsolidationUndoEntry) (f f' : Funds) : Prop where
  edits : f.coins.Edits (madeBy entry) (entry.oldTreasuryUtxos ++ entry.oldFeeUtxos) f'.coins
  makes : ∀ o ∈ madeBy entry, Makes L block height (.consolidation entry.marketId) o
  treasury : entry.oldTreasuryPointer = f.pointers[(⟨entry.marketId, false⟩ : FundsKey)]?
  fee : entry.oldFeePointer = f.pointers[(⟨entry.marketId, true⟩ : FundsKey)]?
  others : ∀ key : FundsKey, key.marketId ≠ entry.marketId →
    f'.pointers[key]? = f.pointers[key]?

theorem restorePointer_coins (f : Funds) (key : FundsKey) (o : Option OutPoint) :
    (f.restorePointer key o).coins = f.coins := by
  cases o <;> rfl

theorem restorePointer_pointers (f : Funds) (key key' : FundsKey) (o : Option OutPoint) :
    (f.restorePointer key o).pointers[key']? = if key' = key then o else f.pointers[key']? := by
  cases o with
  | none => exact lookup_erase
  | some o => exact lookup_insert

theorem Consolidates.undo {block : Block F} {height : Nat} {entry : ConsolidationUndoEntry}
    {f f' g : Funds} (h : Consolidates L block height entry f f')
    (hunused : Untouched L block height (.consolidation entry.marketId) f.coins)
    (hg : FundsMatch f' g) : FundsMatch f (revertConsolidationEntry g entry) where
  coins := by
    rw [revertConsolidationEntry, restorePointer_coins, restorePointer_coins]
    exact h.edits.undo (fun o ho => hunused o (h.makes o ho)) hg.coins
  pointers := by
    apply ext_lookup
    rintro ⟨marketId, isFee⟩
    rw [revertConsolidationEntry, restorePointer_pointers, restorePointer_pointers]
    by_cases hid : marketId = entry.marketId
    · subst hid
      cases isFee with
      | false => rw [if_neg (by simp), if_pos rfl, h.treasury]
      | true => rw [if_pos rfl, h.fee]
    · rw [if_neg (by simp [hid]), if_neg (by simp [hid]), ← h.others _ hid]
      exact congrArg (·[(⟨marketId, isFee⟩ : FundsKey)]?) hg.pointers

/-- A step that changes some outputs and one pointer. -/
structure Renews (made gone : List OutPoint) (key : FundsKey) (f f' : Funds) : Prop where
  changes : f.coins.Changes made gone f'.coins
  pointers : ∀ key' ≠ key, f'.pointers[key']? = f.pointers[key']?

theorem Renews.refl (key : FundsKey) (f : Funds) : Renews [] [] key f f :=
  ⟨.refl _, fun _ _ => rfl⟩

theorem Renews.mono {made made' gone gone' : List OutPoint} {key : FundsKey} {f f' : Funds}
    (h : Renews made gone key f f') (hmade : ∀ o ∈ made, o ∈ made')
    (hgone : ∀ o ∈ gone, o ∈ gone') : Renews made' gone' key f f' :=
  ⟨h.changes.mono hmade hgone, h.pointers⟩

theorem Renews.put {made gone : List OutPoint} {key : FundsKey} {f f' : Funds}
    (h : Renews made gone key f f') (height amount : Nat) :
    Renews (made ++ [.marketFunds key.marketId height key.isFee]) gone key f
      (f'.put L key height amount) where
  changes := by
    have hrow := h.changes.trans
      (Coins.changes_insertRows [fundsRow L key height amount] f'.coins)
    rwa [List.append_nil] at hrow
  pointers key' hne := by
    have hlookup : (f'.put L key height amount).pointers[key']? =
        if key' = key then some _ else f'.pointers[key']? := lookup_insert
    rw [hlookup, if_neg hne, h.pointers key' hne]

theorem Renews.clearPointer {made gone : List OutPoint} {key : FundsKey} {f f' : Funds}
    (h : Renews made gone key f f') : Renews made gone key f (f'.clearPointer key) where
  changes := h.changes
  pointers key' hne := by
    have hlookup : (f'.clearPointer key).pointers[key']? =
        if key' = key then none else f'.pointers[key']? := lookup_erase
    rw [hlookup, if_neg hne, h.pointers key' hne]

variable {block : Block F} {height : Nat} {marketId : MarketId}

/-- The payments that a block has collected come from its transactions. -/
structure Collects (L : Library F) (block : Block F) (sells : List PendingSellPayout)
    (buys : List PendingBuySettlement) : Prop where
  sells : ∀ p ∈ sells, ∃ tx ∈ block.body.transactions, p.transactionId = L.txid tx
  buys : ∀ b ∈ buys, ∃ tx ∈ block.body.transactions, b.transactionId = L.txid tx

theorem outpoint_of_changeRows {buys : List PendingBuySettlement}
    {changes : List (Option CoinRow)} (h : buys.mapM (buyChangeRow L) = .ok changes) :
    ∀ row ∈ changes.reduceOption, ∃ b ∈ buys,
      row.1 = buyChangeOutpoint L b.marketId b.traderAddress b.transactionId := by
  intro row hrow
  obtain ⟨b, hb, hchange⟩ := exists_of_mem_mapM h (List.reduceOption_mem_iff.mp hrow)
  simp only [buyChangeRow, bind_eq_ok_iff, Except.ok.injEq] at hchange
  obtain ⟨change, -, hsome⟩ := hchange
  obtain ⟨-, heq⟩ := Option.ite_none_right_eq_some.mp hsome
  exact ⟨b, hb, by rw [← Option.some.inj heq]⟩

theorem renews_consolidateTreasury {sells : List PendingSellPayout}
    {buys : List PendingBuySettlement} (hcollects : Collects L block sells buys) {f : Funds}
    {w : MarketWork} {t : TreasuryStep} (hw : Counts sells buys f marketId w)
    (h : consolidateTreasury L height marketId w f = .ok t) :
    Renews (t.newTreasuryUtxo.toList ++ t.sellPayoutUtxos ++ t.buyChangeUtxos)
        (w.treasuryRows.map Prod.fst) ⟨marketId, false⟩ f t.funds ∧
      ∀ o ∈ t.newTreasuryUtxo.toList ++ t.sellPayoutUtxos ++ t.buyChangeUtxos,
        Makes L block height (.consolidation marketId) o := by
  unfold consolidateTreasury at h
  split at h
  · simp only [bind_eq_ok_iff, Except.ok.injEq] at h
    obtain ⟨changes, hchanges, remaining, -, rfl⟩ := h
    have hpaid : Renews ((w.sells.map (sellPayoutRow L) ++ changes.reduceOption).map Prod.fst)
        (w.treasuryRows.map Prod.fst) ⟨marketId, false⟩ f
        ({ f with
          coins := insertRows (deleteOutpoints f.coins (w.treasuryRows.map Prod.fst))
            (w.sells.map (sellPayoutRow L) ++ changes.reduceOption) }.clearPointer
              ⟨marketId, false⟩) := by
      refine Renews.clearPointer ⟨?_, fun _ _ => rfl⟩
      have hrows := (Coins.changes_deleteOutpoints (w.treasuryRows.map Prod.fst) f.coins).trans
        (Coins.changes_insertRows (w.sells.map (sellPayoutRow L) ++ changes.reduceOption) _)
      rwa [List.append_nil, List.nil_append] at hrows
    have hsell : ∀ row ∈ w.sells.map (sellPayoutRow L),
        Makes L block height (.consolidation marketId) row.1 := by
      intro row hrow
      obtain ⟨p, hp, rfl⟩ := List.mem_map.mp hrow
      rw [hw.sells_eq, List.mem_filter, decide_eq_true_eq] at hp
      rw [← hp.2]
      exact .sellPayout (hcollects.sells p hp.1)
    have hbuy : ∀ row ∈ changes.reduceOption,
        Makes L block height (.consolidation marketId) row.1 := by
      intro row hrow
      obtain ⟨b, hb, heq⟩ := outpoint_of_changeRows hchanges row hrow
      rw [hw.buys_eq, List.mem_filter, decide_eq_true_eq] at hb
      rw [heq, ← hb.2]
      exact .buyChange (hcollects.buys b hb.1)
    have hpayments : ∀ o ∈ (w.sells.map (sellPayoutRow L)).map Prod.fst ++
        changes.reduceOption.map Prod.fst, Makes L block height (.consolidation marketId) o := by
      intro o ho
      rw [← List.map_append] at ho
      obtain ⟨row, hrow, rfl⟩ := List.mem_map.mp ho
      exact (List.mem_append.mp hrow).elim (hsell row) (hbuy row)
    rw [List.map_append] at hpaid
    generalize (w.sells.map (sellPayoutRow L)).map Prod.fst = sold at *
    generalize changes.reduceOption.map Prod.fst = changed at *
    dsimp only
    split
    · rw [Option.toList_some, List.append_assoc]
      refine ⟨(hpaid.put height remaining).mono ?_ fun _ ho => ho, ?_⟩
      · intro o ho
        exact (List.mem_append.mp ho).elim (List.mem_append_right _) (List.mem_append_left _)
      · intro o ho
        rcases List.mem_append.mp ho with hnew | hold
        · rw [List.mem_singleton.mp hnew]
          exact .funds marketId false
        · exact hpayments o hold
    · exact ⟨hpaid, hpayments⟩
  · obtain rfl := Except.ok.inj h
    exact ⟨(Renews.refl _ f).mono (by simp) (by simp), by simp⟩

theorem renews_consolidateFees (L : Library F) (block : Block F) (height : Nat)
    (marketId : MarketId) (w : MarketWork) (f : Funds) :
    Renews (consolidateFees L height marketId w f).2.toList (w.feeRows.map Prod.fst)
        ⟨marketId, true⟩ f (consolidateFees L height marketId w f).1 ∧
      ∀ o ∈ (consolidateFees L height marketId w f).2.toList,
        Makes L block height (.consolidation marketId) o := by
  unfold consolidateFees
  split
  · have hcleared : Renews [] (w.feeRows.map Prod.fst) ⟨marketId, true⟩ f
        ({ f with coins := deleteOutpoints f.coins (w.feeRows.map Prod.fst) }.clearPointer
          ⟨marketId, true⟩) :=
      Renews.clearPointer ⟨Coins.changes_deleteOutpoints _ _, fun _ _ => rfl⟩
    refine ⟨hcleared.put height w.feeTotal, fun o ho => ?_⟩
    rw [List.mem_singleton.mp ho]
    exact .funds marketId true
  · exact ⟨(Renews.refl _ f).mono (by simp) (by simp), by simp⟩

theorem consolidates_of_consolidateMarket {sells : List PendingSellPayout}
    {buys : List PendingBuySettlement} (hcollects : Collects L block sells buys)
    {acc acc' : Funds × List ConsolidationUndoEntry}
    (h : consolidateMarket L sells buys height acc marketId = .ok acc') :
    ∃ entry, entry.marketId = marketId ∧ acc'.2 = acc.2 ++ [entry] ∧
      Consolidates L block height entry acc.1 acc'.1 := by
  simp only [consolidateMarket, bind_eq_ok_iff, Except.ok.injEq] at h
  obtain ⟨w, hwork, t, ht, rfl⟩ := h
  have hw := counts_of_marketWork hwork
  obtain ⟨htreasury, hmakes⟩ := renews_consolidateTreasury hcollects hw ht
  obtain ⟨hfees, hmakes'⟩ := renews_consolidateFees L block height marketId w t.funds
  refine ⟨_, rfl, rfl, ⟨?_, ?_⟩, ?_, rfl, rfl, ?_⟩
  · intro row hrow
    rw [hw.treasuryRows, hw.feeRows] at hrow
    rcases List.mem_append.mp hrow with hold | hold
    · exact (rows_keys acc.1 _ row hold).2
    · exact (rows_keys acc.1 _ row hold).2
  · rw [List.map_append]
    refine (htreasury.changes.trans hfees.changes).mono (fun o ho => ?_) fun _ ho => ho
    simp only [madeBy, List.mem_append] at ho ⊢
    tauto
  · intro o ho
    simp only [madeBy, List.mem_append] at ho hmakes
    rcases ho with ((hnew | hfee) | hsold) | hchanged
    · exact hmakes o (.inl (.inl hnew))
    · exact hmakes' o hfee
    · exact hmakes o (.inl (.inr hsold))
    · exact hmakes o (.inr hchanged)
  · intro key hne
    have hother (isFee : Bool) : key ≠ ⟨marketId, isFee⟩ := fun heq => hne (by rw [heq])
    rw [hfees.pointers key (hother true), htreasury.pointers key (hother false)]

/-- The entry of a market is undone where nothing that it makes was there before. -/
structure ConsolidatesNew (L : Library F) (block : Block F) (height : Nat)
    (entry : ConsolidationUndoEntry) (f f' : Funds) : Prop where
  step : Consolidates L block height entry f f'
  untouched : Untouched L block height (.consolidation entry.marketId) f.coins
  change : Untouched L block height .sellChange f.coins

theorem Consolidates.brings {entry : ConsolidationUndoEntry} {f f' : Funds}
    (h : Consolidates L block height entry f f') :
    f.coins.Brings (Makes L block height (.consolidation entry.marketId)) f'.coins :=
  h.edits.changes.brings.mono h.makes

theorem path_of_consolidateMarkets (hL : CollisionFree L) {sells : List PendingSellPayout}
    {buys : List PendingBuySettlement} (hcollects : Collects L block sells buys)
    {ids : List MarketId} (hnodup : ids.Nodup) {acc acc' : Funds × List ConsolidationUndoEntry}
    (huntouched : ∀ m ∈ ids, Untouched L block height (.consolidation m) acc.1.coins)
    (hchange : Untouched L block height .sellChange acc.1.coins)
    (h : ids.foldlM (consolidateMarket L sells buys height) acc = .ok acc') :
    ∃ entries, acc'.2 = acc.2 ++ entries ∧
      Path (ConsolidatesNew L block height) entries acc.1 acc'.1 := by
  refine path_of_logged
    (fun ids f => ids.Nodup ∧
      (∀ m ∈ ids, Untouched L block height (.consolidation m) f.coins) ∧
      Untouched L block height .sellChange f.coins) ?_ ⟨hnodup, huntouched, hchange⟩ h
  rintro m ids acc acc' ⟨hids, huntouched, hchange⟩ hstep
  obtain ⟨hmem, hrest⟩ := List.nodup_cons.mp hids
  obtain ⟨entry, rfl, hlog, hentry⟩ := consolidates_of_consolidateMarket hcollects hstep
  refine ⟨⟨hrest, fun m hm => ?_, hchange.brings hL hentry.brings (by simp)⟩, [entry], hlog,
    .single ⟨hentry, huntouched _ List.mem_cons_self, hchange⟩⟩
  refine (huntouched m (List.mem_cons_of_mem _ hm)).brings hL hentry.brings ?_
  intro heq
  obtain rfl := Stage.consolidation.inj heq
  exact hmem hm

theorem brings_of_consolidateMarkets {sells : List PendingSellPayout}
    {buys : List PendingBuySettlement} (hcollects : Collects L block sells buys)
    {ids : List MarketId} {acc acc' : Funds × List ConsolidationUndoEntry}
    (h : ids.foldlM (consolidateMarket L sells buys height) acc = .ok acc') :
    acc.1.coins.Brings (fun o => ∃ m, Makes L block height (.consolidation m) o)
      acc'.1.coins := by
  refine foldlM_preserves (P := fun acc' => acc.1.coins.Brings _ acc'.1.coins) ?_ h (.refl _)
  intro m _ acc₁ acc₂ hbrings hstep
  obtain ⟨entry, -, -, hentry⟩ := consolidates_of_consolidateMarket hcollects hstep
  exact hbrings.trans (hentry.brings.mono fun o ho => ⟨_, ho⟩)

/-- Funds without some outputs. -/
def without (f : Funds) (os : List OutPoint) : Funds :=
  { f with coins := deleteOutpoints f.coins os }

theorem withCoins_restorePointer (f : Funds) (key : FundsKey) (o : Option OutPoint) (c : Coins) :
    ({ f.restorePointer key o with coins := c } : Funds) =
      ({ f with coins := c } : Funds).restorePointer key o := by
  cases o <;> rfl

theorem without_revertConsolidationEntry {entry : ConsolidationUndoEntry} {os : List OutPoint}
    (hos : ∀ o ∈ os, o ∉ (entry.oldTreasuryUtxos ++ entry.oldFeeUtxos).map Prod.fst)
    (f : Funds) : without (revertConsolidationEntry f entry) os =
      revertConsolidationEntry (without f os) entry := by
  have hcoins : deleteOutpoints (insertRows (deleteOutpoints f.coins (madeBy entry))
        (entry.oldTreasuryUtxos ++ entry.oldFeeUtxos)) os =
      insertRows (deleteOutpoints (deleteOutpoints f.coins os) (madeBy entry))
        (entry.oldTreasuryUtxos ++ entry.oldFeeUtxos) := by
    rw [Coins.deleteOutpoints_insertRows_comm hos, ← Coins.deleteOutpoints_append,
      ← Coins.deleteOutpoints_append, Coins.deleteOutpoints_perm List.perm_append_comm]
  rw [without, revertConsolidationEntry, restorePointer_coins, restorePointer_coins,
    withCoins_restorePointer, withCoins_restorePointer]
  exact congrArg (fun c => (Funds.restorePointer ⟨c, f.pointers⟩ _ _).restorePointer _ _) hcoins

theorem without_revertEntries {os : List OutPoint} {entries : List ConsolidationUndoEntry}
    (hos : ∀ entry ∈ entries, ∀ o ∈ os,
      o ∉ (entry.oldTreasuryUtxos ++ entry.oldFeeUtxos).map Prod.fst) (f : Funds) :
    without (entries.foldl revertConsolidationEntry f) os =
      entries.foldl revertConsolidationEntry (without f os) := by
  induction entries generalizing f with
  | nil => rfl
  | cons entry entries ih =>
      rw [List.foldl_cons, List.foldl_cons,
        ← without_revertConsolidationEntry (hos entry List.mem_cons_self)]
      exact ih (fun e he => hos e (List.mem_cons_of_mem _ he)) _

theorem outpoints_of_sellChange {changes : List PendingSellInputChange}
    (hchanges : ∀ p ∈ changes, ∃ tx ∈ block.body.transactions, p.transactionId = L.txid tx) :
    ∀ o ∈ (changes.filterMap (sellInputChangeRow L)).map Prod.fst,
      Makes L block height .sellChange o := by
  intro o ho
  obtain ⟨row, hrow, rfl⟩ := List.mem_map.mp ho
  obtain ⟨p, hp, hsome⟩ := List.mem_filterMap.mp hrow
  obtain ⟨-, heq⟩ := Option.ite_none_right_eq_some.mp hsome
  rw [← Option.some.inj heq]
  exact .sellInputChange (hchanges p hp)

theorem brings_of_consolidation {sells : List PendingSellPayout}
    {buys : List PendingBuySettlement} {changes : List PendingSellInputChange}
    (hcollects : Collects L block sells buys)
    (hchanges : ∀ p ∈ changes, ∃ tx ∈ block.body.transactions, p.transactionId = L.txid tx)
    {f f' : Funds} {undo : Option ConsolidationUndoData}
    (h : consolidateMarketUtxos L height sells buys changes f = .ok (f', undo)) :
    f.coins.Brings (fun o => (∃ m, Makes L block height (.consolidation m) o) ∨
      Makes L block height .sellChange o) f'.coins := by
  unfold consolidateMarketUtxos at h
  dsimp only at h
  split at h
  · obtain ⟨rfl, -⟩ := Prod.mk.inj (Except.ok.inj h)
    exact .refl _
  · simp only [bind_eq_ok_iff, Except.ok.injEq] at h
    obtain ⟨⟨mid, entries⟩, hmarkets, hpair⟩ := h
    obtain ⟨rfl, -⟩ := Prod.mk.inj hpair
    have hbrings := brings_of_consolidateMarkets hcollects hmarkets
    refine (hbrings.mono fun o => .inl).trans
      ((Coins.changes_insertRows _ mid.coins).brings.mono fun o ho => .inr ?_)
    exact outpoints_of_sellChange hchanges o ho

/-- Undoing the consolidations of a block leads back. -/
theorem undone_of_consolidation (hL : CollisionFree L) {sells : List PendingSellPayout}
    {buys : List PendingBuySettlement} {changes : List PendingSellInputChange}
    (hcollects : Collects L block sells buys)
    (hchanges : ∀ p ∈ changes, ∃ tx ∈ block.body.transactions, p.transactionId = L.txid tx)
    {f f' : Funds} {undo : Option ConsolidationUndoData}
    (huntouched : ∀ m, Untouched L block height (.consolidation m) f.coins)
    (hchange : Untouched L block height .sellChange f.coins)
    (h : consolidateMarketUtxos L height sells buys changes f = .ok (f', undo)) :
    ∀ g, FundsMatch f' g → FundsMatch f (undo.elim g (revertConsolidation g)) := by
  unfold consolidateMarketUtxos at h
  dsimp only at h
  split at h
  · obtain ⟨rfl, rfl⟩ := Prod.mk.inj (Except.ok.inj h)
    exact fun g hg => hg
  · simp only [bind_eq_ok_iff, Except.ok.injEq] at h
    obtain ⟨⟨mid, entries⟩, hmarkets, hpair⟩ := h
    obtain ⟨rfl, rfl⟩ := Prod.mk.inj hpair
    obtain ⟨entries', hlog, hpath⟩ := path_of_consolidateMarkets hL hcollects
      (nodup_marketsToConsolidate sells buys) (fun m _ => huntouched m) hchange hmarkets
    obtain rfl : entries = entries' := hlog
    have hmakes : ∀ o ∈ (changes.filterMap (sellInputChangeRow L)).map Prod.fst,
        Makes L block height .sellChange o := outpoints_of_sellChange hchanges
    generalize changes.filterMap (sellInputChangeRow L) = rows at hmakes ⊢
    have hbrings := brings_of_consolidateMarkets hcollects hmarkets
    have hedits : mid.coins.Edits (rows.map Prod.fst) [] (insertRows mid.coins rows) :=
      ⟨by simp, Coins.changes_insertRows rows mid.coins⟩
    have hunused : ∀ o ∈ rows.map Prod.fst, mid.coins.Unused o := by
      intro o ho
      refine hbrings o ?_ (hchange o (hmakes o ho))
      rintro ⟨m, hm⟩
      cases ((hmakes o ho).share hL hm).1
    intro g hg
    -- the change of the sells is deleted last, and nothing gives it back before
    have hos : ∀ entry ∈ entries.reverse, ∀ o ∈ rows.map Prod.fst,
        o ∉ (entry.oldTreasuryUtxos ++ entry.oldFeeUtxos).map Prod.fst := by
      intro entry hentry o ho hold
      obtain ⟨f₁, f₂, hstep⟩ := hpath.exists_step entry (List.mem_reverse.mp hentry)
      obtain ⟨row, hrow, rfl⟩ := List.mem_map.mp hold
      have hpresent := hstep.step.edits.present row hrow
      rw [(hstep.change _ (hmakes _ ho)).1] at hpresent
      cases hpresent
    have hstart : FundsMatch mid (without g (rows.map Prod.fst)) :=
      ⟨hedits.undo hunused hg.coins, hg.pointers⟩
    have hback := path_foldl revertConsolidationEntry entries.reverse
      (without g (rows.map Prod.fst))
    rw [← without_revertEntries hos] at hback
    refine hpath.undo FundsMatch ?_ hback hstart
    rintro entry f₁ f₂ t t' hstep hsim rfl
    exact hstep.step.undo hstep.untouched hsim

theorem withRestoredFunds (marketId : MarketId) (isFee : Bool) (row : Option CoinRow)
    (s : State F) :
    (restoreMarketFunds marketId isFee row s).coins = insertRows s.coins row.toList ∧
      ∀ key : FundsKey, (restoreMarketFunds marketId isFee row s).markets.marketFundsUtxos[key]? =
        if key = ⟨marketId, isFee⟩ then (row.map Prod.fst).or s.markets.marketFundsUtxos[key]?
        else s.markets.marketFundsUtxos[key]? := by
  cases row with
  | none => exact ⟨rfl, fun key => by simp [restoreMarketFunds]⟩
  | some row =>
      refine ⟨rfl, fun key => ?_⟩
      have hlookup :
          (restoreMarketFunds marketId isFee (some row) s).markets.marketFundsUtxos[key]? =
            if key = ⟨marketId, isFee⟩ then some row.1 else s.markets.marketFundsUtxos[key]? :=
        lookup_insert
      rw [hlookup]
      rfl

/-- What settling a market does to the funds, as its entry records it. -/
structure PaysOut (L : Library F) (block : Block F) (height : Nat)
    (entry : SettlementUndoEntry F) (f f' : Funds) : Prop where
  edits : f.coins.Edits ((payoutRows L entry.payoutSummary height).map Prod.fst)
    (entry.treasuryUtxo.toList ++ entry.feeUtxo.toList) f'.coins
  makes : ∀ o ∈ (payoutRows L entry.payoutSummary height).map Prod.fst,
    Makes L block height (.settlement entry.preSettlementMarket.id) o
  treasury : entry.treasuryUtxo.map Prod.fst =
    f.pointers[(⟨entry.preSettlementMarket.id, false⟩ : FundsKey)]?
  fee : entry.feeUtxo.map Prod.fst =
    f.pointers[(⟨entry.preSettlementMarket.id, true⟩ : FundsKey)]?
  cleared : ∀ isFee, f'.pointers[(⟨entry.preSettlementMarket.id, isFee⟩ : FundsKey)]? = none
  others : ∀ key : FundsKey, key.marketId ≠ entry.preSettlementMarket.id →
    f'.pointers[key]? = f.pointers[key]?

theorem PaysOut.undo {entry : SettlementUndoEntry F} {f f' : Funds}
    (h : PaysOut L block height entry f f')
    (hunused : Untouched L block height (.settlement entry.preSettlementMarket.id) f.coins)
    {t t' : State F} (ht : FundsMatch f' (fundsOf t))
    (hback : revertSettlementEntry L height t entry = .ok t') : FundsMatch f (fundsOf t') := by
  simp only [revertSettlementEntry, revertAutomaticSharePayouts_iff, bind_eq_ok_iff,
    Except.ok.injEq] at hback
  obtain ⟨_, ⟨db, hdb, rfl⟩, rfl⟩ := hback
  have hpointers : db.marketFundsUtxos = f'.pointers := by
    rw [giveBack_framed hdb]
    exact ht.pointers
  have hcoins := h.edits.undo (fun o ho => hunused o (h.makes o ho)) ht.coins
  rw [Coins.insertRows_append] at hcoins
  constructor
  · rw [fundsOf, (withRestoredFunds _ _ _ _).1, (withRestoredFunds _ _ _ _).1]
    exact hcoins
  · apply ext_lookup
    rintro ⟨marketId, isFee⟩
    rw [fundsOf, MarketsDatabase.restoreMarket, writeMarketAndIndexes_funds,
      (withRestoredFunds _ _ _ _).2, (withRestoredFunds _ _ _ _).2, hpointers]
    by_cases hid : marketId = entry.preSettlementMarket.id
    · subst hid
      cases isFee with
      | false => rw [if_neg (by simp), if_pos rfl, h.cleared, h.treasury, Option.or_none]
      | true => rw [if_pos rfl, if_neg (by simp), h.cleared, h.fee, Option.or_none]
    · rw [if_neg (by simp [hid]), if_neg (by simp [hid]), ← h.others _ hid]

theorem outpoint_of_marketFundsOutput {s : State F} {isFee : Bool} {sats : Nat}
    (h : s.getMarketFundsSats marketId isFee = .ok sats) :
    (s.marketFundsOutput marketId isFee).map Prod.fst =
      s.markets.getMarketFundsUtxo marketId isFee := by
  unfold State.getMarketFundsSats at h
  unfold State.marketFundsOutput
  split at h
  · rename_i hnone
    rw [hnone]
    rfl
  · rename_i outpoint hsome
    simp only [bind_eq_ok_iff, okOr_eq_ok_iff] at h
    obtain ⟨output, hunspent, -⟩ := h
    rw [hsome]
    simp [hunspent]

theorem present_of_marketFundsOutput {s : State F} {isFee : Bool} {row : CoinRow}
    (h : s.marketFundsOutput marketId isFee = some row) : s.coins.utxos[row.1]? = some row.2 := by
  obtain ⟨outpoint, -, hrow⟩ := Option.bind_eq_some_iff.mp h
  obtain ⟨output, hunspent, rfl⟩ := Option.map_eq_some_iff.mp hrow
  exact hunspent

theorem marketId_of_redemptions [F64 F] {s : State F} {market : Market F} {treasurySats : Nat}
    {result : List (SharePayoutRecord F) × Nat}
    (h : calculateShareRedemptions s market treasurySats = .ok result) :
    ∀ p ∈ result.1, p.marketId = market.id := by
  intro p hp
  have hposting : payoutPosting p ∈ positionPosts s.markets market.id := by
    rw [← postings_of_redemptions h]
    exact List.mem_map_of_mem hp
  obtain ⟨row, -, hrow⟩ := List.mem_flatMap.mp hposting
  obtain ⟨position, hposition, heq⟩ := List.mem_map.mp hrow
  have hkey : position.1 = ⟨p.marketId, p.outcomeIndex⟩ := congrArg (fun x => x.2.1) heq
  have hmarket := of_decide_eq_true (List.mem_filter.mp hposition).2
  rwa [hkey] at hmarket

theorem makes_of_payoutRows {summary : MarketPayoutSummary F} (hid : summary.marketId = marketId)
    (hpayouts : ∀ p ∈ summary.payouts, p.marketId = marketId) :
    ∀ o ∈ (payoutRows L summary height).map Prod.fst,
      Makes L block height (.settlement marketId) o := by
  intro o ho
  obtain ⟨row, hrow, rfl⟩ := List.mem_map.mp ho
  rcases List.mem_append.mp hrow with hrow | hrefund
  · rcases List.mem_append.mp hrow with hshare | hfee
    · obtain ⟨entry, hentry, rfl⟩ := List.mem_map.mp hshare
      have hmem : entry.1 ∈ summary.payouts :=
        List.fst_mem_of_mem_zipIdx (List.mem_filter.mp hentry).1
      rw [sharePayoutRow, hpayouts _ hmem]
      exact .sharePayout marketId _
    · obtain ⟨entry, -, rfl⟩ := List.mem_map.mp hfee
      rw [feePayoutRow, hid]
      exact .sharePayout marketId _
  · obtain ⟨refund, -, rfl⟩ := List.mem_map.mp hrefund
    rw [refundRow, hid]
    exact .sharePayout marketId _

/-- Settling a market does what its entry says. -/
theorem paysOut_of_settleMarket [F64 F] (block : Block F) {s s' : State F} {market : Market F}
    {entry : SettlementUndoEntry F} (h : settleMarket L s market height = .ok (s', entry)) :
    entry.preSettlementMarket = market ∧
      PaysOut L block height entry (fundsOf s) (fundsOf s') := by
  obtain ⟨priced, settled, db, hpriced, hsummary, hredeem, -, hmarkets, hentry, hs'⟩ :=
    settleMarket_eq_ok h
  obtain ⟨hid, treasurySats, feeSats, htreasury, hfee, -⟩ :=
    SettlementValue.calculateSharePayouts_le (L := L) hsummary
  have hpayouts : ∀ p ∈ entry.payoutSummary.payouts, p.marketId = priced.id := by
    simp only [calculateSharePayouts, bind_eq_ok_iff, okOr_eq_ok_iff, Except.ok.injEq] at hsummary
    obtain ⟨_, -, result, hresult, _, -, _, -, _, -, _, -, hsummary⟩ := hsummary
    rw [← hsummary]
    exact marketId_of_redemptions hresult
  rw [id_of_updateState hpriced] at hid htreasury hfee hpayouts
  have hdb : db.marketFundsUtxos = s.markets.marketFundsUtxos := by rw [redeem_framed hredeem]
  have htreasury := outpoint_of_marketFundsOutput htreasury
  have hfee := outpoint_of_marketFundsOutput hfee
  have hgone : fundsOutpoints db entry.payoutSummary.marketId =
      ((s.marketFundsOutput market.id false).toList ++
        (s.marketFundsOutput market.id true).toList).map Prod.fst := by
    rw [List.map_append, ← Option.toList_map, ← Option.toList_map, htreasury, hfee, hid,
      fundsOutpoints, MarketsDatabase.getMarketFundsUtxo, MarketsDatabase.getMarketFundsUtxo, hdb]
    rfl
  have hpointers : s'.markets.marketFundsUtxos =
      (s.markets.marketFundsUtxos.erase ⟨market.id, false⟩).erase ⟨market.id, true⟩ := by
    rw [(updateMarket_eq_ok_iff.mp hmarkets).2, writeMarketAndIndexes_funds, hid, ← hdb]
    rfl
  generalize hsummary' : entry.payoutSummary = summary at *
  rw [hentry]
  refine ⟨rfl, ⟨⟨?_, ?_⟩, makes_of_payoutRows hid hpayouts, htreasury, hfee, ?_, ?_⟩⟩
  · intro row hrow
    rcases List.mem_append.mp hrow with hold | hold
    · exact present_of_marketFundsOutput (Option.mem_toList.mp hold)
    · exact present_of_marketFundsOutput (Option.mem_toList.mp hold)
  · have hchanges := (Coins.changes_insertRows (payoutRows L summary height) s.coins).trans
      (Coins.changes_deleteOutpoints (fundsOutpoints db summary.marketId) _)
    rw [List.append_nil, List.nil_append, hgone] at hchanges
    rw [fundsOf, hs', hgone]
    exact hchanges
  · intro isFee
    rw [fundsOf, hpointers, lookup_erase, lookup_erase]
    cases isFee <;> simp
  · intro key hne
    have hother (isFee : Bool) : key ≠ ⟨market.id, isFee⟩ := fun heq => hne (by rw [heq])
    rw [fundsOf, hpointers, lookup_erase, if_neg (hother true), lookup_erase,
      if_neg (hother false)]
    rfl

/-- The entry of a market is undone where nothing that it makes was there before. -/
structure PaysOutNew (L : Library F) (block : Block F) (height : Nat)
    (entry : SettlementUndoEntry F) (s s' : State F) : Prop where
  step : PaysOut L block height entry (fundsOf s) (fundsOf s')
  untouched : Untouched L block height (.settlement entry.preSettlementMarket.id) s.coins

theorem PaysOut.brings {entry : SettlementUndoEntry F} {f f' : Funds}
    (h : PaysOut L block height entry f f') :
    f.coins.Brings (Makes L block height (.settlement entry.preSettlementMarket.id)) f'.coins :=
  h.edits.changes.brings.mono h.makes

theorem path_of_settlements [F64 F] (hL : CollisionFree L) {markets : List (Market F)}
    (hnodup : (markets.map Market.id).Nodup) {acc acc' : State F × List (SettlementUndoEntry F)}
    (huntouched : ∀ m, Untouched L block height (.settlement m) acc.1.coins)
    (h : markets.foldlM (transitionMarket L height) acc = .ok acc') :
    ∃ entries, acc'.2 = acc.2 ++ entries ∧
      Path (PaysOutNew L block height) entries acc.1 acc'.1 := by
  refine path_of_logged
    (fun markets s => (markets.map Market.id).Nodup ∧
      ∀ market ∈ markets, Untouched L block height (.settlement market.id) s.coins) ?_
    ⟨hnodup, fun market _ => huntouched market.id⟩ h
  rintro market markets acc acc' ⟨hids, huntouched⟩ hstep
  obtain ⟨hmem, hrest⟩ := List.nodup_cons.mp hids
  unfold transitionMarket at hstep
  split at hstep
  · obtain ⟨⟨s₁, entry⟩, hsettle, hstep⟩ := bind_eq_ok_iff.mp hstep
    rw [← Except.ok.inj hstep]
    obtain ⟨rfl, hpays⟩ := paysOut_of_settleMarket block hsettle
    refine ⟨⟨hrest, fun other hother => ?_⟩, [entry], rfl,
      .single ⟨hpays, huntouched _ List.mem_cons_self⟩⟩
    refine (huntouched other (List.mem_cons_of_mem _ hother)).brings hL hpays.brings ?_
    intro heq
    rw [← Stage.settlement.inj heq] at hmem
    exact hmem (List.mem_map_of_mem hother)
  · rw [← Except.ok.inj hstep]
    exact ⟨⟨hrest, fun other hother => huntouched other (List.mem_cons_of_mem _ hother)⟩, [],
      by simp, .nil _⟩

theorem brings_of_settlements [F64 F] {s s' : State F} {entries : List (SettlementUndoEntry F)}
    (block : Block F) (h : transitionAndPayoutResolvedMarkets L s height = .ok (s', entries)) :
    s.coins.Brings (fun o => ∃ m, Makes L block height (.settlement m) o) s'.coins := by
  refine foldlM_preserves
    (P := fun acc' : State F × List (SettlementUndoEntry F) => s.coins.Brings _ acc'.1.coins) ?_ h
    (.refl _)
  intro market _ acc₁ acc₂ hbrings hstep
  unfold transitionMarket at hstep
  split at hstep
  · obtain ⟨⟨s₁, entry⟩, hsettle, hstep⟩ := bind_eq_ok_iff.mp hstep
    rw [← Except.ok.inj hstep]
    obtain ⟨-, hpays⟩ := paysOut_of_settleMarket block hsettle
    exact hbrings.trans (hpays.brings.mono fun o ho => ⟨_, ho⟩)
  · rw [← Except.ok.inj hstep]
    exact hbrings

theorem undone_of_settlements [F64 F] (hL : CollisionFree L) {s s' : State F}
    {entries : List (SettlementUndoEntry F)} (hs : Sound s.markets)
    (huntouched : ∀ m, Untouched L block height (.settlement m) s.coins)
    (h : transitionAndPayoutResolvedMarkets L s height = .ok (s', entries)) {t t' : State F}
    (hsim : FundsMatch (fundsOf s') (fundsOf t))
    (hback : revertSettlement L t entries height = .ok t') :
    FundsMatch (fundsOf s) (fundsOf t') := by
  obtain ⟨entries', hlog, hpath⟩ :=
    path_of_settlements hL (hs.getMarketsByState .trading).1 huntouched h
  obtain rfl : entries = entries' := hlog
  refine hpath.undo (fun s t => FundsMatch (fundsOf s) (fundsOf t)) ?_
    (path_of_foldlM hback) hsim
  intro entry s₁ s₂ t₁ t₂ hstep hsim hback
  exact hstep.step.undo hstep.untouched hsim hback

end Truthcoin.FundsReverts
