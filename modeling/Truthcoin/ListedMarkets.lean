import Truthcoin.AddressIndex
import Truthcoin.BlockChecks
import Truthcoin.MarketIndexes

/-!
# Markets that a block writes

The phases of connecting a block add markets that are not stored and rewrite markets
that are. The markets that a block creates are determined by its transactions and the
owners of their first inputs.
-/

namespace Truthcoin.ListedMarkets

open Truthcoin.Types Truthcoin.Table Truthcoin.Fallible Truthcoin.Arithmetic
open Truthcoin.Decisions Truthcoin.Markets Truthcoin.Blocks Truthcoin.Validation
open Truthcoin.Settlement Truthcoin.Apply Truthcoin.ApplySteps Truthcoin.Connect
open Truthcoin.ConnectTrace Truthcoin.BlockChecks Truthcoin.Disconnect Truthcoin.BlockRun
open Truthcoin.MarketSteps Truthcoin.SettlementSteps Truthcoin.MarketRecords
open Truthcoin.MarketIndexes Truthcoin.TagConnect Truthcoin.AddressIndex

variable {F : Type} {L : Library F} {T : Tags} {db db' db'' : MarketsDatabase F}
  {market : Market F}

def Stored (db : MarketsDatabase F) (marketId : MarketId) : Prop :=
  ∃ market, db.getMarket marketId = some market

/-- The records are filed under their ids and the indexes list them exactly. -/
structure Sound (db : MarketsDatabase F) : Prop where
  keyed : Keyed db
  exact : IndexesExact db

/-- A sound database that still stores every market of an earlier one. -/
structure Grown (db db' : MarketsDatabase F) : Prop where
  sound : Sound db'
  stored : ∀ marketId, Stored db marketId → Stored db' marketId

theorem sound_empty : Sound (MarketsDatabase.empty F) := ⟨keyed_empty, indexesExact_empty⟩

theorem Sound.grown (h : Sound db) : Grown db db := ⟨h, fun _ hid => hid⟩

theorem Grown.trans (h : Grown db db') (h' : Grown db' db'') : Grown db db'' :=
  ⟨h'.sound, fun marketId hid => h'.stored marketId (h.stored marketId hid)⟩

theorem Grown.framed (hdb : Sound db) (h : SameIndexes db db') : Grown db db' where
  sound := ⟨keyed_of_markets hdb.keyed h.markets, hdb.exact.framed h⟩
  stored marketId hid := by
    unfold Stored MarketsDatabase.getMarket at hid ⊢
    rw [h.markets]
    exact hid

theorem stored_of_insert (h : db'.markets = db.markets.insert market.id market)
    {marketId : MarketId} (hid : Stored db marketId) : Stored db' marketId := by
  unfold Stored MarketsDatabase.getMarket at hid ⊢
  rw [h]
  by_cases hne : marketId = market.id
  · exact ⟨market, by simp [hne]⟩
  · rw [lookup_insert_of_ne hne]
    exact hid

theorem Grown.addMarket (hdb : Sound db) (habsent : db.getMarket market.id = none) :
    Grown db (db.addMarket market) where
  sound := ⟨keyed_of_insert hdb.keyed rfl, hdb.exact.addMarket habsent⟩
  stored _ hid := stored_of_insert rfl hid

theorem Grown.writeMarketAndIndexes (hdb : Sound db) (hstored : Stored db market.id) :
    Grown db (db.writeMarketAndIndexes market) := by
  obtain ⟨old, hold⟩ := hstored
  exact ⟨⟨keyed_of_insert hdb.keyed writeMarketAndIndexes_markets,
    hdb.exact.writeMarketAndIndexes hold⟩,
    fun _ hid => stored_of_insert writeMarketAndIndexes_markets hid⟩

theorem Grown.updateMarket (hdb : Sound db) (hstored : Stored db market.id)
    (h : db.updateMarket market = .ok db') : Grown db db' := by
  obtain ⟨-, rfl⟩ := updateMarket_eq_ok_iff.mp h
  exact Grown.writeMarketAndIndexes hdb hstored

theorem Sound.deleteMarket (hdb : Sound db) (marketId : MarketId) :
    Sound (db.deleteMarket marketId) :=
  ⟨hdb.keyed.deleteMarket marketId, hdb.exact.deleteMarket marketId⟩

theorem map_filterMap_eq {α β : Type} {f : α → Option β} {g : β → α} {l : List α}
    (h : ∀ x ∈ l, ∃ y, f x = some y ∧ g y = x) : (l.filterMap f).map g = l := by
  induction l with
  | nil => rfl
  | cons x l ih =>
      obtain ⟨y, hy, hx⟩ := h x List.mem_cons_self
      rw [List.filterMap_cons_some hy, List.map_cons, hx, ih fun x hx => h x (by simp [hx])]

theorem Sound.getMarketsByState (hdb : Sound db) (state : MarketState) :
    ((db.getMarketsByState state).map Market.id).Nodup ∧
      ∀ market ∈ db.getMarketsByState state,
        db.getMarket market.id = some market ∧ market.marketState = state := by
  constructor
  · have hids : (db.getMarketsByState state).map Market.id = listed db.stateIndex state := by
      rw [MarketsDatabase.getMarketsByState]
      refine map_filterMap_eq fun marketId hmem => ?_
      obtain ⟨record, hrecord, -⟩ := (hdb.exact.state.mem state marketId).mp hmem
      exact ⟨record, hrecord, hdb.keyed marketId record hrecord⟩
    rw [hids]
    exact hdb.exact.state.nodup state
  · intro market hmarket
    obtain ⟨marketId, hmem, hlookup⟩ := List.mem_filterMap.mp hmarket
    obtain ⟨record, hrecord, hstate⟩ := (hdb.exact.state.mem state marketId).mp hmem
    obtain rfl := Option.some.inj (hrecord.symm.trans hlookup)
    rw [hdb.keyed marketId record hlookup]
    exact ⟨hlookup, hstate⟩

theorem stored_of_deleteMarket {marketId other : MarketId} (hne : other ≠ marketId)
    (h : Stored db other) : Stored (db.deleteMarket marketId) other := by
  unfold MarketsDatabase.deleteMarket
  split
  · exact h
  · unfold Stored MarketsDatabase.getMarket at h ⊢
    dsimp only
    rw [lookup_erase_of_ne hne]
    exact h

theorem Sound.id_of_getMarket (hdb : Sound db) {marketId : MarketId}
    (h : db.getMarket marketId = some market) : market.id = marketId :=
  hdb.keyed marketId market h

theorem grown_of_foldlM {α : Type} {f : MarketsDatabase F → α → Except Error (MarketsDatabase F)}
    (hstep : ∀ a db db', Sound db → f db a = .ok db' → Grown db db') {l : List α}
    (hdb : Sound db) (h : l.foldlM f db = .ok db') : Grown db db' :=
  foldlM_preserves (P := Grown db)
    (fun a _ _ _ hgrown hrun => hgrown.trans (hstep a _ _ hgrown.sound hrun)) h hdb.grown

theorem sameIndexes_of_accounts (h : db' = { db with shareAccounts := db'.shareAccounts }) :
    SameIndexes db db' := by
  rw [h]
  exact ⟨rfl, rfl, rfl, rfl⟩

theorem grown_addMarkets {markets : List (Market F)} (hdb : Sound db)
    (hnodup : (markets.map Market.id).Nodup)
    (habsent : ∀ market ∈ markets, db.getMarket market.id = none) :
    Grown db (markets.foldl MarketsDatabase.addMarket db) := by
  induction markets generalizing db with
  | nil => exact hdb.grown
  | cons market markets ih =>
      have hfirst : Grown db (db.addMarket market) :=
        Grown.addMarket hdb (habsent market (by simp))
      rw [List.map_cons, List.nodup_cons] at hnodup
      refine hfirst.trans (ih hfirst.sound hnodup.2 ?_)
      intro other hother
      have hne : other.id ≠ market.id := by
        intro heq
        exact hnodup.1 (heq ▸ List.mem_map_of_mem hother)
      have hlookup := habsent other (by simp [hother])
      unfold MarketsDatabase.getMarket at hlookup ⊢
      rw [addMarket_markets, lookup_insert_of_ne hne]
      exact hlookup

theorem nodup_of_checkCreations {seen : List MarketId} {markets : List (Market F)}
    (h : StateUpdate.checkCreations seen markets = .ok ()) :
    (markets.map Market.id).Nodup ∧ ∀ market ∈ markets, market.id ∉ seen := by
  induction markets generalizing seen with
  | nil => simp
  | cons market markets ih =>
      simp only [StateUpdate.checkCreations, bind_eq_ok_iff, ensure_eq_ok_iff] at h
      obtain ⟨_, hnew, hrest⟩ := h
      obtain ⟨hnodup, hfresh⟩ := ih hrest
      constructor
      · rw [List.map_cons, List.nodup_cons]
        refine ⟨?_, hnodup⟩
        intro hmem
        obtain ⟨other, hother, heq⟩ := List.mem_map.mp hmem
        exact hfresh other hother (by simp [heq])
      · intro other hother
        rcases List.mem_cons.mp hother with rfl | hother
        · exact hnew
        · intro hseen
          exact hfresh other hother (by simp [hseen])

theorem creations_of_validateAllChanges {u : StateUpdate F} {s : State F}
    (h : u.validateAllChanges s = .ok ()) :
    (u.marketCreations.map Market.id).Nodup ∧
      ∀ market ∈ u.marketCreations, s.markets.getMarket market.id = none := by
  simp only [StateUpdate.validateAllChanges, StateUpdate.verifyInternalConsistency,
    bind_eq_ok_iff, forM_eq_ok_iff, ensure_eq_ok_iff] at h
  obtain ⟨_, ⟨_, hcreations, -⟩, _, -, habsent⟩ := h
  refine ⟨(nodup_of_checkCreations hcreations).1, ?_⟩
  intro market hmarket
  obtain ⟨_, hnone, -⟩ := habsent market hmarket
  exact Option.isNone_iff_eq_none.mp hnone

theorem grown_putRecord {old new : Market F} (hdb : Sound db) {marketId : MarketId}
    (hold : db.getMarket marketId = some old) (hsame : SameListing old new) :
    Grown db (putRecord db new) := by
  have hfiled : db.getMarket old.id = some old := by rw [hdb.id_of_getMarket hold, hold]
  exact Grown.updateMarket hdb ⟨old, by rw [hsame.id, hfiled]⟩
    (updateMarket_putRecord hfiled hsame)

theorem grown_writes [F64 F] {u : StateUpdate F} {height : Nat} {s : State F}
    (hs : Sound s.markets) (hu : u.validateAllChanges s = .ok ())
    (h : writeMarkets L u height s.markets = .ok db') :
    Grown (u.marketCreations.foldl MarketsDatabase.addMarket s.markets) db' := by
  simp only [writeMarkets, bind_eq_ok_iff, Except.ok.injEq] at h
  obtain ⟨db₁, h₁, db₂, h₂, db₃, h₃, _, -, rfl⟩ := h
  obtain ⟨hnodup, habsent⟩ := creations_of_validateAllChanges hu
  have hadded := grown_addMarkets hs hnodup habsent
  have hupdated : Grown (u.marketCreations.foldl MarketsDatabase.addMarket s.markets) db₁ := by
    refine grown_of_foldlM ?_ hadded.sound h₁
    intro marketId d d' hd hstep
    obtain ⟨old, new, hold, hnew, rfl⟩ := (applyMarketUpdates_iff hd.keyed).mp hstep
    have hput := grown_putRecord hd hold (tradedRecord_listing hnew)
    exact hput.trans (Grown.framed hput.sound ⟨rfl, rfl, rfl, rfl⟩)
  have hamplified : Grown db₁ db₂ := by
    refine grown_of_foldlM ?_ hupdated.sound h₂
    intro marketId d d' hd hstep
    obtain ⟨old, new, hold, hnew, rfl⟩ := (applyAmplifications_iff hd.keyed).mp hstep
    exact grown_putRecord hd hold (amplifiedRecord_listing hnew)
  have hshares : Grown db₂ db₃ :=
    Grown.framed hamplified.sound (sameIndexes_of_accounts (shareChanges_framed h₃))
  exact hupdated.trans (hamplified.trans hshares)

theorem grown_writeMarkets [F64 F] {u : StateUpdate F} {height : Nat} {s : State F}
    (hs : Sound s.markets) (hu : u.validateAllChanges s = .ok ())
    (h : writeMarkets L u height s.markets = .ok db') : Grown s.markets db' := by
  obtain ⟨hnodup, habsent⟩ := creations_of_validateAllChanges hu
  exact (grown_addMarkets hs hnodup habsent).trans (grown_writes hs hu h)

theorem stored_addMarkets {markets : List (Market F)} {marketId : MarketId}
    (h : marketId ∈ markets.map Market.id ∨ Stored db marketId) :
    Stored (markets.foldl MarketsDatabase.addMarket db) marketId := by
  induction markets generalizing db with
  | nil => exact h.resolve_left List.not_mem_nil
  | cons market markets ih =>
      refine ih ?_
      rcases h with hmem | hstored
      · rcases List.mem_cons.mp hmem with rfl | hmem
        · exact .inr ⟨market, lookup_insert.trans (if_pos rfl)⟩
        · exact .inl hmem
      · exact .inr (stored_of_insert rfl hstored)

variable {s s' : State F} {height : Nat}

theorem grown_redeem {payouts : List (SharePayoutRecord F)} (hdb : Sound db)
    (h : payouts.foldlM (redeem height) db = .ok db') : Grown db db' :=
  grown_of_foldlM (fun _ _ _ hd hstep =>
    Grown.framed hd (sameIndexes_of_accounts (removeSharesFromAccount_framed hstep))) hdb h

theorem grown_giveBack {payouts : List (SharePayoutRecord F)} (hdb : Sound db)
    (h : payouts.foldlM (giveBack height) db = .ok db') : Grown db db' :=
  grown_of_foldlM (fun _ _ _ hd hstep =>
    Grown.framed hd (sameIndexes_of_accounts (addSharesToAccount_framed hstep))) hdb h

theorem id_of_updateState {m m' : Market F} {height : Nat} {state : Option MarketState}
    {shares : Option (List I64)} {prices : Option (List F)}
    (h : m.updateState height state shares prices = .ok m') : m'.id = m.id := by
  simp only [Market.updateState, bind_eq_ok_iff, Except.ok.injEq] at h
  obtain ⟨_, -, _, -, rfl⟩ := h
  rfl

theorem grown_settleMarket [F64 F] {entry : SettlementUndoEntry F} (hs : Sound s.markets)
    (hstored : Stored s.markets market.id)
    (h : settleMarket L s market height = .ok (s', entry)) :
    Grown s.markets s'.markets ∧ entry.preSettlementMarket = market := by
  obtain ⟨priced, settled, db, hpriced, -, hredeem, hsettled, hmarkets, hentry, -⟩ :=
    settleMarket_eq_ok h
  have hredeemed := grown_redeem hs hredeem
  have hcleared : Grown db (clearFunds db entry.payoutSummary.marketId) :=
    Grown.framed hredeemed.sound ⟨rfl, rfl, rfl, rfl⟩
  have hgrown := hredeemed.trans hcleared
  have hid : settled.id = market.id :=
    (id_of_updateState hsettled).trans (id_of_updateState hpriced)
  constructor
  · refine hgrown.trans (Grown.updateMarket hgrown.sound ?_ hmarkets)
    rw [hid]
    exact hgrown.stored _ hstored
  · rw [hentry]

theorem grown_transitionMarkets [F64 F] {entries : List (SettlementUndoEntry F)}
    (hs : Sound s.markets)
    (h : transitionAndPayoutResolvedMarkets L s height = .ok (s', entries)) :
    Grown s.markets s'.markets ∧
      ∀ e ∈ entries, Stored s.markets e.preSettlementMarket.id := by
  refine foldlM_preserves
    (P := fun acc : State F × List (SettlementUndoEntry F) => Grown s.markets acc.1.markets ∧
      ∀ e ∈ acc.2, Stored s.markets e.preSettlementMarket.id) ?_ h ⟨hs.grown, by simp⟩
  rintro record hrecord ⟨s₁, es⟩ acc' ⟨hgrown, hes⟩ hstep
  have hstored : Stored s.markets record.id := by
    obtain ⟨marketId, -, hlookup⟩ := List.mem_filterMap.mp hrecord
    exact ⟨record, by rw [hs.id_of_getMarket hlookup, hlookup]⟩
  unfold transitionMarket at hstep
  split at hstep
  · obtain ⟨⟨s₂, entry⟩, hsettle, hstep⟩ := bind_eq_ok_iff.mp hstep
    rw [← Except.ok.inj hstep]
    obtain ⟨hsettled, hentry⟩ :=
      grown_settleMarket hgrown.sound (hgrown.stored _ hstored) hsettle
    refine ⟨hgrown.trans hsettled, ?_⟩
    intro e he
    rcases List.mem_append.mp he with hold | hnew
    · exact hes e hold
    · rw [List.mem_singleton.mp hnew, hentry]
      exact hstored
  · rw [← Except.ok.inj hstep]
    exact ⟨hgrown, hes⟩

theorem restoreMarketFunds_sameIndexes (marketId : MarketId) (isFee : Bool)
    (utxo : Option (OutPoint × FilledOutput)) (s : State F) :
    SameIndexes s.markets (restoreMarketFunds marketId isFee utxo s).markets := by
  unfold restoreMarketFunds
  split
  · exact ⟨rfl, rfl, rfl, rfl⟩
  · exact ⟨rfl, rfl, rfl, rfl⟩

theorem grown_revertSettlement {entries : List (SettlementUndoEntry F)} (hs : Sound s.markets)
    (hstored : ∀ e ∈ entries, Stored s.markets e.preSettlementMarket.id)
    (h : revertSettlement L s entries height = .ok s') : Grown s.markets s'.markets := by
  refine foldlM_preserves (P := fun s' : State F => Grown s.markets s'.markets) ?_ h hs.grown
  intro entry hentry s₁ s₂ hgrown hstep
  simp only [revertSettlementEntry, revertAutomaticSharePayouts_iff, bind_eq_ok_iff,
    Except.ok.injEq] at hstep
  obtain ⟨_, ⟨db, hdb, rfl⟩, rfl⟩ := hstep
  have hback := hgrown.trans (grown_giveBack hgrown.sound hdb)
  have htreasury := hback.trans
    (Grown.framed hback.sound (restoreMarketFunds_sameIndexes entry.preSettlementMarket.id false
      entry.treasuryUtxo { s₁ with
        coins := deleteOutpoints s₁.coins ((payoutRows L entry.payoutSummary height).map Prod.fst)
        markets := db }))
  have hfee := htreasury.trans
    (Grown.framed htreasury.sound (restoreMarketFunds_sameIndexes entry.preSettlementMarket.id
      true entry.feeUtxo _))
  refine hfee.trans (Grown.writeMarketAndIndexes hfee.sound ?_)
  exact hfee.stored _ (hstored entry (List.mem_reverse.mp hentry))

/-- The market that a transaction creates, by the owner of its first input. -/
def createdId (L : Library F) (T : Tags) (tx : Transaction F) : List MarketId :=
  match tx.data, tx.inputs with
  | some (.createMarket creation), o :: _ =>
      [L.computeMarketId creation.title creation.description (T o).address
        creation.dimensionSpecs]
  | _, _ => []

def createdIds (L : Library F) (T : Tags) (body : Body F) : List MarketId :=
  body.transactions.flatMap (createdId L T)

/-- The outputs that a filled transaction spends are those its inputs are tagged with. -/
def SpendsTagged (T : Tags) (tx : FilledTransaction F) : Prop :=
  tx.spentUtxos.map FilledOutput.tag = tx.transaction.inputs.map T

theorem createdId_of_creator {tx : FilledTransaction F} {creation : MarketCreation F}
    {creator : Address} (htx : SpendsTagged T tx)
    (hdata : tx.transaction.data = some (.createMarket creation))
    (h : extractCreatorAddress tx = .ok creator) :
    createdId L T tx.transaction =
      [L.computeMarketId creation.title creation.description creator
        creation.dimensionSpecs] := by
  simp only [extractCreatorAddress, okOr_eq_ok_iff] at h
  obtain ⟨output, houtput, rfl⟩ := Option.map_eq_some_iff.mp h
  obtain ⟨outputs, houtputs⟩ := List.head?_eq_some_iff.mp houtput
  unfold SpendsTagged at htx
  rw [houtputs, List.map_cons] at htx
  obtain ⟨o, rest, hinputs, htag, -⟩ := List.map_eq_cons_iff.mp htx.symm
  unfold createdId
  rw [hdata, hinputs]
  dsimp only
  rw [htag]
  rfl

theorem spendsTagged_of_filledFrom {tx : Transaction F} {filled : FilledTransaction F}
    (hs : s.coins.Tagged T) (h : FilledFrom s tx filled) : SpendsTagged T filled := by
  unfold SpendsTagged
  have hspent := h.spent
  rw [h.transaction]
  generalize tx.inputs = inputs, filled.spentUtxos = outputs at hspent
  induction hspent with
  | nil => rfl
  | cons hfirst _ ih => rw [List.map_cons, List.map_cons, ih, hs.utxos hfirst]

theorem spendsTagged_of_fillTransactionFromStxos {coins : Coins} {tx : Transaction F}
    {filled : FilledTransaction F} (hcoins : coins.Tagged T)
    (h : State.fillTransactionFromStxos L coins tx = .ok filled) :
    filled.transaction = tx ∧ SpendsTagged T filled := by
  simp only [State.fillTransactionFromStxos, bind_eq_ok_iff, mapM_eq_ok_iff, okOr_eq_ok_iff,
    ensure_eq_ok_iff, Except.ok.injEq] at h
  obtain ⟨outputs, houtputs, rfl⟩ := h
  refine ⟨rfl, ?_⟩
  unfold SpendsTagged
  have hfst : tx.inputs = tx.inputs.zipIdx.map Prod.fst := (List.zipIdx_map_fst ..).symm
  rw [hfst]
  dsimp only
  generalize tx.inputs.zipIdx = entries at houtputs
  induction houtputs with
  | nil => rfl
  | cons hfirst _ ih =>
      obtain ⟨spent, hspent, _, -, rfl⟩ := hfirst
      rw [List.map_cons, List.map_cons, List.map_cons, ih, hcoins.stxos hspent]

variable [F64 F] [DecidableEq F]

omit [DecidableEq F] in
theorem id_of_buildMarket {creation : MarketCreation F} {creator : Address} {d : Dbs F}
    (h : buildMarket L creation creator d height = .ok market) :
    market.id = L.computeMarketId creation.title creation.description creator
      creation.dimensionSpecs := by
  simp only [buildMarket, MarketBuilder.build, bind_eq_ok_iff, mapError_eq_ok_iff,
    Except.ok.injEq] at h
  obtain ⟨_, -, _, -, _, -, rfl⟩ := h
  rfl

omit [DecidableEq F] in
theorem applyTrade_marketCreations {u u' : StateUpdate F} {tx : FilledTransaction F}
    {trade : Trade} (h : applyTrade L s u tx trade = .ok (some u')) :
    u'.marketCreations = u.marketCreations := by
  obtain ⟨_, _, _, _, _, -, ⟨-, cost, hbuy⟩ | ⟨-, proceeds, hsell⟩⟩ := applyTrade_eq_some h
  · rw [hbuy.update_eq]
  · rw [hsell.update_eq]

theorem creations_of_effect {u u' : StateUpdate F} {tx : FilledTransaction F}
    (htx : SpendsTagged T tx) (h : Effect L height s u tx s' u') :
    u'.marketCreations.map Market.id =
      u.marketCreations.map Market.id ++ createdId L T tx.transaction := by
  cases h with
  | plain hdata | claimDecision _ hdata _ | transferReputation _ hdata _ =>
      simp [createdId, hdata]
  | trade trade hdata h =>
      rw [applyTrade_marketCreations h]
      simp [createdId, hdata]
  | submitVote vote hdata h =>
      simp only [applySubmitVote, bind_eq_ok_iff, Except.ok.injEq] at h
      obtain ⟨decisionId, -, _, -, timestamp, -, rfl⟩ := h
      simp [createdId, hdata, addVote]
  | submitBallot ballot hdata h =>
      rw [applySubmitBallot_framed h]
      simp [createdId, hdata]
  | amplifyBeta amplify hdata h =>
      simp only [applyAmplifyBeta, bind_eq_ok_iff, Except.ok.injEq] at h
      obtain ⟨input, -, rfl⟩ := h
      simp [createdId, hdata]
  | createMarket creation hdata h =>
      obtain ⟨creator, decisions, market, liquidity, hcreator, -, hmarket, rfl, -⟩ :=
        applyMarketCreation_eq_ok h
      rw [createdId_of_creator htx hdata hcreator, ← id_of_buildMarket hmarket]
      simp

theorem creations_of_effects {txs : List (FilledTransaction F)} {u u' : StateUpdate F}
    (htxs : ∀ tx ∈ txs, SpendsTagged T tx)
    (h : txs.foldlM (applyEffect L height) (s, u) = .ok (s', u')) :
    u'.marketCreations.map Market.id =
      u.marketCreations.map Market.id ++ txs.flatMap fun tx => createdId L T tx.transaction := by
  induction txs generalizing s u with
  | nil =>
      obtain ⟨-, rfl⟩ := Prod.mk.inj (Except.ok.inj h)
      simp
  | cons tx txs ih =>
      obtain ⟨⟨s₁, u₁⟩, hfirst, hrest⟩ := bind_eq_ok_iff.mp h
      rw [ih (fun tx' htx' => htxs tx' (by simp [htx'])) hrest,
        creations_of_effect (htxs tx (by simp)) (effect_of_applyEffect hfirst)]
      simp

section

variable {config : DecisionConfig} {archive : Archive} {block : Block F} {t : Trace F}

theorem creations_of_txs (hs : Tagged T s) (ht : Connects L config archive s block t) :
    t.applied.update.marketCreations.map Market.id =
      t.txs.flatMap fun tx => createdId L T tx.transaction := by
  have hpre := prevalidated_of_prevalidate ht.prevalidated
  have htxs : ∀ tx ∈ t.txs, SpendsTagged T tx := by
    intro tx htx
    have hmem := (notSkipped_sublist _ _).subset htx
    exact spendsTagged_of_filledFrom hs.coins (hpre.exists_filledFrom hmem)
  exact creations_of_effects htxs (effects_of_applyTransactions ht.applied)

theorem creations_of_connects (hs : Tagged T s) (ht : Connects L config archive s block t) :
    t.applied.update.marketCreations.map Market.id = createdIds L T block.body := by
  have hpre := prevalidated_of_prevalidate ht.prevalidated
  have hskipped := notSkipped_flatMap ht.applied
    (f := fun tx => createdId L T tx.transaction)
    (by intro tx trade htrade; simp [createdId, htrade])
  rw [creations_of_txs hs ht, Trace.txs, hskipped, createdIds, ← hpre.map_transaction,
    List.flatMap_map]

end

end Truthcoin.ListedMarkets
