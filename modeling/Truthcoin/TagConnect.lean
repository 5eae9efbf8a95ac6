import Truthcoin.OutputTags
import Truthcoin.SettlementSteps

/-!
# Connecting a block keeps the tags

Every output that a block creates has the tag its outpoint fixes, and every pointer
of a market refers to an outpoint that is tagged with its funds.
-/

namespace Truthcoin.TagConnect

open Truthcoin.Types Truthcoin.Table Truthcoin.Fallible Truthcoin.Arithmetic
open Truthcoin.Decisions Truthcoin.Markets Truthcoin.Voting Truthcoin.Blocks
open Truthcoin.Validation Truthcoin.Settlement Truthcoin.Apply Truthcoin.ApplySteps
open Truthcoin.Consolidation Truthcoin.Connect Truthcoin.ConnectTrace
open Truthcoin.MarketSteps Truthcoin.SettlementSteps Truthcoin.TwoWayPeg
open Truthcoin.PegUndo (infoRows)

variable {F : Type} {L : Library F} {T : Tags}

/-- The address that holds the funds of a market. -/
def fundsAddress (L : Library F) (key : FundsKey) : Address :=
  if key.isFee then L.marketAuthorFeeAddress key.marketId
  else L.marketTreasuryAddress key.marketId

/-- The tags are those that the hashes of the library commit to. -/
structure TagsOf (L : Library F) (T : Tags) : Prop where
  regular : ∀ (tx : Transaction F) (vout : Nat) (output : Output),
    tx.outputs[vout]? = some output → T (.regular (L.txid tx) vout) = Output.tag output
  coinbase : ∀ (header : Header) (body : Body F) (vout : Nat) (output : Output),
    L.merkleRoot body.coinbase body.transactions = header.merkleRoot →
    body.coinbase.outputs[vout]? = some output →
    T (.coinbase (L.coinbaseTxid header) vout) = Output.tag output
  marketFunds : ∀ (key : FundsKey) (height : Nat),
    T (.marketFunds key.marketId height key.isFee) = ⟨fundsAddress L key, some key⟩
  sellPayout : ∀ marketId seller txid,
    T (sellPayoutOutpoint L marketId seller txid) = ⟨seller, none⟩
  buyChange : ∀ marketId trader txid,
    T (buyChangeOutpoint L marketId trader txid) = ⟨trader, none⟩
  sellInputChange : ∀ trader txid,
    T (sellInputChangeOutpoint L trader txid) = ⟨trader, none⟩
  sharePayout : ∀ marketId shareholder height sequence,
    T (sharePayoutOutpoint L marketId shareholder height sequence) = ⟨shareholder, none⟩

/-- Every pointer refers to an outpoint that is tagged with its funds. -/
def PointersTagged (T : Tags) (pointers : Table FundsKey OutPoint) : Prop :=
  ∀ key o, pointers[key]? = some o → (T o).funds = some key

/-- The outputs that a settlement consumed are those of the market's pointers. -/
structure SettlementTagged (T : Tags) (e : SettlementUndoEntry F) : Prop where
  treasury : ∀ row, e.treasuryUtxo = some row →
    RowTagged T row ∧ (T row.1).funds = some ⟨e.preSettlementMarket.id, false⟩
  fee : ∀ row, e.feeUtxo = some row →
    RowTagged T row ∧ (T row.1).funds = some ⟨e.preSettlementMarket.id, true⟩

structure ConsolidationTagged (T : Tags) (e : ConsolidationUndoEntry) : Prop where
  rows : ∀ row ∈ e.oldTreasuryUtxos ++ e.oldFeeUtxos, RowTagged T row
  treasury : ∀ o, e.oldTreasuryPointer = some o → (T o).funds = some ⟨e.marketId, false⟩
  fee : ∀ o, e.oldFeePointer = some o → (T o).funds = some ⟨e.marketId, true⟩

/-- All outputs that a state holds or remembers are tagged, and so are its pointers. -/
structure Tagged (T : Tags) (s : State F) : Prop where
  coins : s.coins.Tagged T
  bundles : ∀ {m : M6id} {info : WithdrawalBundleInfo}
    {st : RollBack WithdrawalBundleStatus},
    s.peg.withdrawalBundles[m]? = some (info, st) → ∀ row ∈ infoRows info, RowTagged T row
  pointers : PointersTagged T s.markets.marketFundsUtxos
  settlement : ∀ {h : Nat} {entries : List (SettlementUndoEntry F)},
    s.settlementUndo[h]? = some entries → ∀ e ∈ entries, SettlementTagged T e
  consolidation : ∀ {h : Nat} {data : ConsolidationUndoData},
    s.consolidationUndo[h]? = some data → ∀ e ∈ data.entries, ConsolidationTagged T e

theorem tagged_empty (T : Tags) : Tagged T (State.empty F) where
  coins := Coins.tagged_empty T
  bundles h := by simp [State.empty, PegDbs.empty] at h
  pointers key o h := by simp [State.empty, MarketsDatabase.empty] at h
  settlement h := by simp [State.empty] at h
  consolidation h := by simp [State.empty] at h

theorem PointersTagged.insert {pointers : Table FundsKey OutPoint}
    (h : PointersTagged T pointers) {key : FundsKey} {o : OutPoint}
    (ho : (T o).funds = some key) : PointersTagged T (pointers.insert key o) := by
  intro key' o' hlookup
  rw [Std.ExtTreeMap.getElem?_insert] at hlookup
  split at hlookup
  · rename_i heq
    rw [← Option.some.inj hlookup, ← Std.LawfulEqCmp.compare_eq_iff_eq.mp heq]
    exact ho
  · exact h key' o' hlookup

theorem PointersTagged.erase {pointers : Table FundsKey OutPoint}
    (h : PointersTagged T pointers) (key : FundsKey) :
    PointersTagged T (pointers.erase key) := by
  intro key' o' hlookup
  rw [Std.ExtTreeMap.getElem?_erase] at hlookup
  split at hlookup
  · cases hlookup
  · exact h key' o' hlookup

theorem tag_of_fillOutput {left left' : Nat} {output : Output} {filled : FilledOutput}
    (h : FilledTransaction.fillOutput left output = some (filled, left')) :
    FilledOutput.tag filled = Output.tag output := by
  unfold FilledTransaction.fillOutput at h
  obtain ⟨address, content, memo⟩ := output
  cases content with
  | bitcoin value =>
      obtain ⟨_, -, heq⟩ := Option.map_eq_some_iff.mp h
      rw [← (Prod.mk.inj heq).1]
      rfl
  | withdrawal w =>
      rw [← (Prod.mk.inj (Option.some.inj h)).1]
      rfl
  | marketFunds marketId amount isFee =>
      obtain ⟨_, -, heq⟩ := Option.map_eq_some_iff.mp h
      rw [← (Prod.mk.inj heq).1]
      rfl

theorem tags_of_fillOutputs {left : Nat} {outputs : List Output} {filled : List FilledOutput}
    (h : FilledTransaction.fillOutputs left outputs = some filled) :
    filled.map FilledOutput.tag = outputs.map Output.tag := by
  induction outputs generalizing left filled with
  | nil => rw [← Option.some.inj h]; rfl
  | cons output outputs ih =>
      obtain ⟨⟨first, left'⟩, hfirst, h⟩ := Option.bind_eq_some_iff.mp h
      obtain ⟨rest, hrest, h⟩ := Option.bind_eq_some_iff.mp h
      rw [← Option.some.inj h, List.map_cons, List.map_cons, tag_of_fillOutput hfirst,
        ih hrest]

theorem spendInput_tagged {c c' : Coins} {txid : Txid} {entry : OutPoint × Nat}
    (hc : c.Tagged T) (h : spendInput txid c entry = .ok c') : c'.Tagged T := by
  simp only [spendInput, bind_eq_ok_iff, okOr_eq_ok_iff, Except.ok.injEq] at h
  obtain ⟨output, hlookup, rfl⟩ := h
  exact (hc.deleteUtxo entry.1).putStxo (hc.utxos hlookup)

theorem createOutputs_tagged {c : Coins} {txid : Txid}
    {entries : List (FilledOutput × Nat)} (hc : c.Tagged T)
    (hentries : ∀ e ∈ entries, RowTagged T (.regular txid e.2, e.1)) :
    (entries.foldl (createOutput txid) c).Tagged T := by
  induction entries generalizing c with
  | nil => exact hc
  | cons e entries ih =>
      exact ih (hc.insertUtxo (hentries e (by simp))) fun e' he' => hentries e' (by simp [he'])

theorem applyUtxoChanges_tagged (hT : TagsOf L T) {c c' : Coins} {tx : FilledTransaction F}
    (hc : c.Tagged T) (h : applyUtxoChanges L c tx = .ok c') : c'.Tagged T := by
  simp only [applyUtxoChanges, FilledTransaction.filledOutputs, bind_eq_ok_iff,
    okOr_eq_ok_iff, Except.ok.injEq] at h
  obtain ⟨spent, hspent, _, ⟨left, -, rfl⟩, outputs, hfilled, rfl⟩ := h
  have hspent : spent.Tagged T :=
    foldlM_preserves (P := Coins.Tagged T) (fun _ _ _ _ hc hstep => spendInput_tagged hc hstep)
      hspent hc
  refine createOutputs_tagged hspent ?_
  rintro ⟨output, vout⟩ hmem
  have hlookup : outputs[vout]? = some output := List.mem_zipIdx_iff_getElem?.mp hmem
  have htags := congrArg (·[vout]?) (tags_of_fillOutputs hfilled)
  simp only [List.getElem?_map, hlookup, Option.map_some] at htags
  obtain ⟨source, hsource, htag⟩ := Option.map_eq_some_iff.mp htags.symm
  rw [RowTagged, hT.regular tx.transaction vout source hsource, htag]

theorem coinbaseRows_tagged (hT : TagsOf L T) {header : Header} {body : Body F}
    (hroot : L.merkleRoot body.coinbase body.transactions = header.merkleRoot) :
    ∀ row ∈ coinbaseRows (L.coinbaseTxid header) body.coinbase.outputs, RowTagged T row := by
  intro row hrow
  obtain ⟨⟨output, vout⟩, hmem, rfl⟩ := List.mem_map.mp hrow
  have hlookup := List.mem_zipIdx_iff_getElem?.mp hmem
  rw [RowTagged, hT.coinbase header body vout output hroot hlookup]
  obtain ⟨address, content, memo⟩ := output
  cases content <;> rfl

theorem funds_of_treasuryOutput {marketId : MarketId} {outputs : List Output}
    {amount vout : Nat} (h : treasuryOutput marketId outputs = some (amount, vout)) :
    ∃ output, outputs[vout]? = some output ∧
      (Output.tag output).funds = some ⟨marketId, false⟩ := by
  obtain ⟨⟨output, i⟩, hmem, hamount⟩ := List.exists_of_findSome?_eq_some h
  obtain ⟨a, ha, heq⟩ := Option.map_eq_some_iff.mp hamount
  obtain ⟨rfl, rfl⟩ := Prod.mk.inj heq
  refine ⟨output, List.mem_zipIdx_iff_getElem?.mp hmem, ?_⟩
  obtain ⟨address, content, memo⟩ := output
  unfold treasuryAmount at ha
  dsimp only at ha
  split at ha
  · split at ha
    · rename_i hmarket
      simp [Output.tag, Content.fundsKey, hmarket]
    · cases ha
  · cases ha

/-- The outputs and the pointers of the funds are tagged. -/
structure FundsTagged (T : Tags) (f : Funds) : Prop where
  coins : f.coins.Tagged T
  pointers : PointersTagged T f.pointers

theorem rows_tagged {f : Funds} (hf : FundsTagged T f) (key : FundsKey) :
    ∀ row ∈ f.rows key, RowTagged T row := by
  intro row hrow
  unfold Funds.rows at hrow
  split at hrow
  · cases hrow
  · cases hlookup : f.coins.utxos[‹OutPoint›]? with
    | none => simp [hlookup] at hrow
    | some output =>
        simp only [hlookup, Option.elim_some, List.mem_singleton] at hrow
        subst hrow
        exact hf.coins.utxos hlookup

theorem fundsRow_tagged (hT : TagsOf L T) (key : FundsKey) (height amount : Nat) :
    RowTagged T (fundsRow L key height amount) := by
  rw [RowTagged, fundsRow, hT.marketFunds key height]
  rfl

theorem FundsTagged.put (hT : TagsOf L T) {f : Funds} (hf : FundsTagged T f)
    (key : FundsKey) (height amount : Nat) : FundsTagged T (f.put L key height amount) where
  coins := hf.coins.insertUtxo (fundsRow_tagged hT key height amount)
  pointers := hf.pointers.insert (by rw [hT.marketFunds key height])

theorem buyChangeRow_tagged (hT : TagsOf L T) {b : Apply.PendingBuySettlement} {row : CoinRow}
    (h : buyChangeRow L b = .ok (some row)) : RowTagged T row := by
  simp only [buyChangeRow, bind_eq_ok_iff, Except.ok.injEq] at h
  obtain ⟨change, -, h⟩ := h
  split at h
  · rw [← Option.some.inj h, RowTagged, hT.buyChange]
    rfl
  · cases h

theorem changeRows_tagged (hT : TagsOf L T) {buys : List PendingBuySettlement}
    {changes : List (Option CoinRow)} (h : buys.mapM (buyChangeRow L) = .ok changes) :
    ∀ row ∈ changes.reduceOption, RowTagged T row := by
  intro row hrow
  rw [List.reduceOption_mem_iff] at hrow
  obtain ⟨b, -, hb⟩ := exists_of_mem_mapM h hrow
  exact buyChangeRow_tagged hT hb

theorem consolidateTreasury_tagged (hT : TagsOf L T) {height : Nat} {marketId : MarketId}
    {w : MarketWork} {f : Funds} {t : TreasuryStep} (hf : FundsTagged T f)
    (h : consolidateTreasury L height marketId w f = .ok t) : FundsTagged T t.funds := by
  unfold consolidateTreasury at h
  split at h
  · simp only [bind_eq_ok_iff, okOr_eq_ok_iff, Except.ok.injEq] at h
    obtain ⟨changes, hchanges, remaining, -, rfl⟩ := h
    have hrows : ∀ row ∈ w.sells.map (sellPayoutRow L) ++ changes.reduceOption,
        RowTagged T row := by
      intro row hrow
      rcases List.mem_append.mp hrow with hsell | hchange
      · obtain ⟨p, -, rfl⟩ := List.mem_map.mp hsell
        rw [RowTagged, sellPayoutRow, hT.sellPayout]
        rfl
      · exact changeRows_tagged hT hchanges row hchange
    dsimp only
    split
    · refine FundsTagged.put hT ?_ _ _ _
      exact ⟨(hf.coins.deleteOutpoints _).insertRows hrows, hf.pointers.erase _⟩
    · exact ⟨(hf.coins.deleteOutpoints _).insertRows hrows, hf.pointers.erase _⟩
  · rw [← Except.ok.inj h]
    exact hf

theorem consolidateFees_tagged (hT : TagsOf L T) {height : Nat} {marketId : MarketId}
    {w : MarketWork} {f : Funds} (hf : FundsTagged T f) :
    FundsTagged T (consolidateFees L height marketId w f).1 := by
  unfold consolidateFees
  split
  · exact FundsTagged.put hT ⟨hf.coins.deleteOutpoints _, hf.pointers.erase _⟩ _ _ _
  · exact hf

theorem consolidateMarket_tagged (hT : TagsOf L T) {sells : List PendingSellPayout}
    {buys : List PendingBuySettlement} {height : Nat} {marketId : MarketId}
    {acc acc' : Funds × List ConsolidationUndoEntry}
    (hacc : FundsTagged T acc.1 ∧ ∀ e ∈ acc.2, ConsolidationTagged T e)
    (h : consolidateMarket L sells buys height acc marketId = .ok acc') :
    FundsTagged T acc'.1 ∧ ∀ e ∈ acc'.2, ConsolidationTagged T e := by
  simp only [consolidateMarket, marketWork, bind_eq_ok_iff, Except.ok.injEq] at h
  obtain ⟨w, ⟨_, -, _, -, _, -, _, -, _, -, _, -, _, -, rfl⟩, t, ht, rfl⟩ := h
  obtain ⟨hf, hentries⟩ := hacc
  refine ⟨consolidateFees_tagged hT (consolidateTreasury_tagged hT hf ht), ?_⟩
  intro e he
  rcases List.mem_append.mp he with hold | hnew
  · exact hentries e hold
  · rw [List.mem_singleton.mp hnew]
    refine ⟨?_, hf.pointers _, hf.pointers _⟩
    intro row hrow
    rcases List.mem_append.mp hrow with htreasury | hfee
    · exact rows_tagged hf _ row htreasury
    · exact rows_tagged hf _ row hfee

theorem consolidateMarketUtxos_tagged (hT : TagsOf L T) {height : Nat}
    {sells : List PendingSellPayout} {buys : List PendingBuySettlement}
    {changes : List PendingSellInputChange} {f f' : Funds}
    {undo : Option ConsolidationUndoData} (hf : FundsTagged T f)
    (h : consolidateMarketUtxos L height sells buys changes f = .ok (f', undo)) :
    FundsTagged T f' ∧ ∀ data, undo = some data → ∀ e ∈ data.entries,
      ConsolidationTagged T e := by
  unfold consolidateMarketUtxos at h
  dsimp only at h
  split at h
  · obtain ⟨rfl, rfl⟩ := Prod.mk.inj (Except.ok.inj h)
    exact ⟨hf, by simp⟩
  · obtain ⟨⟨funds, entries⟩, hfold, h⟩ := bind_eq_ok_iff.mp h
    obtain ⟨rfl, rfl⟩ := Prod.mk.inj (Except.ok.inj h)
    obtain ⟨hfunds, hentries⟩ := foldlM_preserves
      (P := fun acc : Funds × List ConsolidationUndoEntry =>
        FundsTagged T acc.1 ∧ ∀ e ∈ acc.2, ConsolidationTagged T e)
      (fun _ _ _ _ hacc hstep => consolidateMarket_tagged hT hacc hstep) hfold
      ⟨hf, by simp⟩
    refine ⟨⟨hfunds.coins.insertRows ?_, hfunds.pointers⟩, ?_⟩
    · intro row hrow
      obtain ⟨c, -, hc⟩ := List.mem_filterMap.mp hrow
      unfold sellInputChangeRow at hc
      split at hc
      · rw [← Option.some.inj hc, RowTagged, hT.sellInputChange]
        rfl
      · cases hc
    · rintro data ⟨⟩
      exact hentries

theorem payoutRows_tagged (hT : TagsOf L T) (summary : MarketPayoutSummary F) (height : Nat) :
    ∀ row ∈ payoutRows L summary height, RowTagged T row := by
  intro row hrow
  simp only [payoutRows, sharePayoutRows, List.mem_append, List.mem_map] at hrow
  rcases hrow with (⟨_, -, rfl⟩ | ⟨_, -, rfl⟩) | ⟨_, -, rfl⟩ <;>
    · rw [RowTagged]
      simp only [sharePayoutRow, feePayoutRow, refundRow, hT.sharePayout]
      rfl

theorem redeem_framed {height : Nat} {db db' : MarketsDatabase F}
    {payouts : List (SharePayoutRecord F)}
    (h : payouts.foldlM (redeem height) db = .ok db') :
    db' = { db with shareAccounts := db'.shareAccounts } := by
  refine foldlM_preserves (P := fun d => d = { db with shareAccounts := d.shareAccounts })
    ?_ h rfl
  intro p _ d d' hd hstep
  rw [removeSharesFromAccount_framed hstep]
  conv_lhs => rw [hd]

theorem PointersTagged.clearFunds {db : MarketsDatabase F}
    (h : PointersTagged T db.marketFundsUtxos) (marketId : MarketId) :
    PointersTagged T (clearFunds db marketId).marketFundsUtxos :=
  (h.erase _).erase _

theorem marketFundsOutput_tagged {s : State F} (hcoins : s.coins.Tagged T)
    (hpointers : PointersTagged T s.markets.marketFundsUtxos) {marketId : MarketId}
    {isFee : Bool} {row : CoinRow} (h : s.marketFundsOutput marketId isFee = some row) :
    RowTagged T row ∧ (T row.1).funds = some ⟨marketId, isFee⟩ := by
  obtain ⟨o, ho, h⟩ := Option.bind_eq_some_iff.mp h
  obtain ⟨output, hlookup, rfl⟩ := Option.map_eq_some_iff.mp h
  exact ⟨hcoins.utxos hlookup, hpointers _ _ ho⟩

section

variable [F64 F]

theorem settleMarket_tagged (hT : TagsOf L T) {s s' : State F} {market : Market F}
    {height : Nat} {entry : SettlementUndoEntry F} (hcoins : s.coins.Tagged T)
    (hpointers : PointersTagged T s.markets.marketFundsUtxos)
    (h : settleMarket L s market height = .ok (s', entry)) :
    s'.coins.Tagged T ∧ PointersTagged T s'.markets.marketFundsUtxos ∧
      SettlementTagged T entry := by
  obtain ⟨priced, settled, db, -, -, hdb, -, hmarkets, hentry, hs'⟩ := settleMarket_eq_ok h
  refine ⟨?_, ?_, ?_⟩
  · rw [hs']
    exact (hcoins.insertRows (payoutRows_tagged hT _ _)).deleteOutpoints _
  · obtain ⟨-, hwrite⟩ := updateMarket_eq_ok_iff.mp hmarkets
    rw [hwrite, writeMarketAndIndexes_funds]
    have hframe := congrArg MarketsDatabase.marketFundsUtxos (redeem_framed hdb)
    refine PointersTagged.clearFunds ?_ _
    rw [hframe]
    exact hpointers
  · rw [hentry]
    exact ⟨fun row hrow => marketFundsOutput_tagged hcoins hpointers hrow,
      fun row hrow => marketFundsOutput_tagged hcoins hpointers hrow⟩

theorem transitionMarkets_tagged (hT : TagsOf L T) {s s' : State F} {height : Nat}
    {entries : List (SettlementUndoEntry F)} (hcoins : s.coins.Tagged T)
    (hpointers : PointersTagged T s.markets.marketFundsUtxos)
    (h : transitionAndPayoutResolvedMarkets L s height = .ok (s', entries)) :
    s'.coins.Tagged T ∧ PointersTagged T s'.markets.marketFundsUtxos ∧
      ∀ e ∈ entries, SettlementTagged T e := by
  refine foldlM_preserves
    (P := fun acc : State F × List (SettlementUndoEntry F) =>
      acc.1.coins.Tagged T ∧ PointersTagged T acc.1.markets.marketFundsUtxos ∧
        ∀ e ∈ acc.2, SettlementTagged T e)
    ?_ h ⟨hcoins, hpointers, by simp⟩
  rintro market - ⟨s₁, es⟩ acc' ⟨hc, hp, hes⟩ hstep
  unfold transitionMarket at hstep
  split at hstep
  · obtain ⟨⟨s₂, entry⟩, hsettle, hstep⟩ := bind_eq_ok_iff.mp hstep
    rw [← Except.ok.inj hstep]
    obtain ⟨hc₂, hp₂, hentry⟩ := settleMarket_tagged hT hc hp hsettle
    refine ⟨hc₂, hp₂, ?_⟩
    intro e he
    rcases List.mem_append.mp he with hold | hnew
    · exact hes e hold
    · rw [List.mem_singleton.mp hnew]
      exact hentry
  · rw [← Except.ok.inj hstep]
    exact ⟨hc, hp, hes⟩

end

variable [F64 F] [DecidableEq F]

theorem pointers_of_effect (hT : TagsOf L T) {height : Nat} {s s' : State F}
    {u u' : StateUpdate F} {tx : FilledTransaction F} (heffect : Effect L height s u tx s' u')
    (hs : PointersTagged T s.markets.marketFundsUtxos) :
    PointersTagged T s'.markets.marketFundsUtxos := by
  cases heffect with
  | plain _ | trade _ _ _ | submitVote _ _ _ | submitBallot _ _ _ | amplifyBeta _ _ _ =>
      exact hs
  | createMarket creation _ h =>
      simp only [applyMarketCreation, bind_eq_ok_iff] at h
      obtain ⟨creator, -, decisions, -, market, -, h⟩ := h
      split at h
      · rename_i amount vout htreasury
        obtain ⟨rfl, -⟩ := Prod.mk.inj (Except.ok.inj h)
        obtain ⟨output, houtput, hfunds⟩ := funds_of_treasuryOutput htreasury
        refine hs.insert ?_
        rw [hT.regular tx.transaction vout output houtput, hfunds]
      · obtain ⟨rfl, -⟩ := Prod.mk.inj (Except.ok.inj h)
        exact hs
  | claimDecision payload _ h =>
      simp only [applyDecisionClaim, bind_eq_ok_iff, Except.ok.injEq] at h
      obtain ⟨_, _, _, _, rfl⟩ := h
      exact hs
  | transferReputation transfer _ h =>
      simp only [applyTransferReputation, bind_eq_ok_iff, Except.ok.injEq] at h
      obtain ⟨_, _, rfl⟩ := h
      exact hs

omit [DecidableEq F] in
theorem merkleRoot_of_prevalidate {config : DecisionConfig} {archive : Archive} {s : State F}
    {header : Header} {body : Body F} {pre : PrevalidatedBlock F}
    (h : prevalidate L config archive s header body = .ok pre) :
    L.merkleRoot body.coinbase body.transactions = header.merkleRoot := by
  simp only [prevalidate, bind_eq_ok_iff, ensure_eq_ok_iff] at h
  obtain ⟨_, -, _, -, _, -, _, hroot, -⟩ := h
  exact hroot

theorem putUndo_eq_some {α : Type} {rows : Table Nat (List α)} {height h : Nat}
    {entries found : List α} (hfound : (putUndo rows height entries)[h]? = some found) :
    rows[h]? = some found ∨ (h = height ∧ found = entries) := by
  unfold putUndo at hfound
  split at hfound
  · exact .inl hfound
  · rw [Std.ExtTreeMap.getElem?_insert] at hfound
    split at hfound
    · rename_i heq
      exact .inr ⟨(Std.LawfulEqCmp.compare_eq_iff_eq.mp heq).symm,
        (Option.some.inj hfound).symm⟩
    · exact .inl hfound

theorem lookup_putUndo_ne {α : Type} {rows : Table Nat (List α)} {height below : Nat}
    {entries : List α} (hne : below ≠ height) :
    (putUndo rows height entries)[below]? = rows[below]? := by
  unfold putUndo
  split
  · rfl
  · rw [lookup_insert, if_neg hne]

theorem getD_putUndo {α : Type} {rows : Table Nat (List α)} {height : Nat} {entries : List α}
    (habsent : rows[height]?.getD [] = []) :
    (putUndo rows height entries)[height]?.getD [] = entries := by
  unfold putUndo
  split
  · rename_i hempty
    rw [habsent, List.isEmpty_iff.mp hempty]
  · rw [lookup_insert, if_pos rfl, Option.getD_some]

theorem applied_pointers_tagged (hT : TagsOf L T) {s : State F} {block : Block F} {t : Trace F}
    (h : applyTransactions L (t.opened L s block) t.pre.filledTransactions t.height =
      .ok t.applied)
    (hs : PointersTagged T s.markets.marketFundsUtxos) :
    PointersTagged T t.applied.state.markets.marketFundsUtxos := by
  have hopened : (t.opened L s block).markets = s.markets := by rw [opened_eq]
  refine effects_preserve
    (P := fun s' _ => PointersTagged T s'.markets.marketFundsUtxos)
    (fun _ _ _ _ _ _ hp heffect => pointers_of_effect hT heffect hp)
    (effects_of_applyTransactions h) ?_
  rw [hopened]
  exact hs

theorem spent_tagged (hT : TagsOf L T) {s : State F} {block : Block F} {t : Trace F}
    (hroot : L.merkleRoot block.body.coinbase block.body.transactions = block.header.merkleRoot)
    (happlied : applyTransactions L (t.opened L s block) t.pre.filledTransactions t.height =
      .ok t.applied)
    (hspent : t.txs.foldlM (applyUtxoChanges L) t.applied.state.coins = .ok t.spent)
    (hs : Tagged T s) :
    FundsTagged T ⟨t.spent, t.applied.state.markets.marketFundsUtxos⟩ := by
  have hcoins : t.applied.state.coins = insertRows s.coins (Trace.coinbase L block) := by
    rw [applied_eq happlied]
  have hopened : t.applied.state.coins.Tagged T := by
    rw [hcoins]
    exact hs.coins.insertRows (coinbaseRows_tagged hT hroot)
  exact ⟨foldlM_preserves (P := Coins.Tagged T)
    (fun _ _ _ _ hc hstep => applyUtxoChanges_tagged hT hc hstep) hspent hopened,
    applied_pointers_tagged hT happlied hs.pointers⟩

/-- Connecting a block keeps all tags. -/
theorem tagged_applyBlock (hT : TagsOf L T) {config : DecisionConfig} {archive : Archive}
    {s s' : State F} {block : Block F} (hs : Tagged T s)
    (h : applyBlock L config archive s block = .ok s') : Tagged T s' := by
  obtain ⟨t, ht, rfl⟩ := connects_of_applyBlock h
  have hpeg : t.applied.state.peg = s.peg := by rw [applied_eq ht.applied]
  have hsettlement : t.applied.state.settlementUndo = s.settlementUndo := by
    rw [applied_eq ht.applied]
  have hconsolidation : t.applied.state.consolidationUndo = s.consolidationUndo := by
    rw [applied_eq ht.applied]
  have hwritten : FundsTagged T ⟨t.spent, t.written.marketFundsUtxos⟩ := by
    rw [writeMarkets_funds ht.written]
    exact spent_tagged hT (merkleRoot_of_prevalidate ht.prevalidated) ht.applied ht.spent hs
  obtain ⟨hfunds, hundo⟩ := consolidateMarketUtxos_tagged hT hwritten ht.funds
  obtain ⟨hpaid, hpaidPointers, hentries⟩ :=
    transitionMarkets_tagged hT hfunds.coins hfunds.pointers ht.paid
  have hframe := transitionAndPayoutResolvedMarkets_framed ht.paid
  refine ⟨hpaid, ?_, hpaidPointers, ?_, ?_⟩
  · intro m info st hlookup
    have hkept : (t.finished L block).peg = s.peg := (congrArg State.peg hframe).trans hpeg
    exact hs.bundles (by rwa [hkept] at hlookup)
  · intro height entries hlookup e he
    have hkept : t.paid.settlementUndo = s.settlementUndo :=
      (congrArg State.settlementUndo hframe).trans hsettlement
    change (putUndo t.paid.settlementUndo t.height t.settled)[height]? = some entries at hlookup
    rcases putUndo_eq_some hlookup with hold | ⟨-, rfl⟩
    · rw [hkept] at hold
      exact hs.settlement hold e he
    · exact hentries e he
  · intro height data hlookup e he
    have hkept : t.paid.consolidationUndo = t.consolidated.consolidationUndo := by
      rw [hframe]
      rfl
    change t.paid.consolidationUndo[height]? = some data at hlookup
    rw [hkept] at hlookup
    change (t.undo.elim t.applied.state.consolidationUndo
      fun data => t.applied.state.consolidationUndo.insert t.height data)[height]? =
        some data at hlookup
    rw [hconsolidation] at hlookup
    cases hfound : t.undo with
    | none =>
        rw [hfound] at hlookup
        exact hs.consolidation hlookup e he
    | some new =>
        rw [hfound, Option.elim_some, Std.ExtTreeMap.getElem?_insert] at hlookup
        split at hlookup
        · rw [← Option.some.inj hlookup] at he
          exact hundo new hfound e he
        · exact hs.consolidation hlookup e he

end Truthcoin.TagConnect
