import Truthcoin.ClaimOnce
import Truthcoin.ListedMarkets

/-!
# The decisions of markets

Every stored market refers to claimed decisions, and its categorical dimensions to
categories. Nothing compares a single dimension with the type of its decision, so markets
are well typed as long as no block makes a single dimension of a category.
-/

namespace Truthcoin.MarketTypes

open Truthcoin.Types Truthcoin.Table Truthcoin.Fallible Truthcoin.Arithmetic
open Truthcoin.Decisions Truthcoin.Markets Truthcoin.Blocks Truthcoin.Validation
open Truthcoin.Settlement Truthcoin.Apply Truthcoin.ApplySteps Truthcoin.Connect
open Truthcoin.ConnectTrace Truthcoin.BlockChecks Truthcoin.BlockRun Truthcoin.SlotLedger
open Truthcoin.PricingRun Truthcoin.MarketSteps Truthcoin.SettlementSteps
open Truthcoin.MarketRecords Truthcoin.MarketIndexes Truthcoin.ListedMarkets Truthcoin.ClaimOnce
open Truthcoin.Commitments Truthcoin.SampleChain Truthcoin.SampleMarkets

variable {F : Type} {L : Library F} {db db' : MarketsDatabase F} {market : Market F}

structure SameDimensions (old new : Market F) : Prop where
  specs : new.dimensionSpecs = old.dimensionSpecs
  decisionIds : new.decisionIds = old.decisionIds

theorem SameDimensions.trans {a b c : Market F} (h : SameDimensions a b)
    (h' : SameDimensions b c) : SameDimensions a c :=
  ⟨h'.specs.trans h.specs, h'.decisionIds.trans h.decisionIds⟩

/-- A property of markets that only reads their dimensions. -/
def Stable (P : Market F → Prop) : Prop :=
  ∀ {old new : Market F}, SameDimensions old new → P old → P new

def EveryMarket (P : Market F → Prop) (db : MarketsDatabase F) : Prop :=
  ∀ marketId market, db.getMarket marketId = some market → P market

variable {P : Market F → Prop}

theorem EveryMarket.of_markets (hdb : EveryMarket P db) (h : db'.markets = db.markets) :
    EveryMarket P db' := by
  intro marketId market hmarket
  unfold MarketsDatabase.getMarket at hmarket
  rw [h] at hmarket
  exact hdb marketId market hmarket

theorem EveryMarket.insert (hdb : EveryMarket P db)
    (h : db'.markets = db.markets.insert market.id market) (hmarket : P market) :
    EveryMarket P db' := by
  intro marketId other hother
  unfold MarketsDatabase.getMarket at hother
  rw [h] at hother
  by_cases hid : marketId = market.id
  · rw [hid, Std.ExtTreeMap.getElem?_insert_self] at hother
    exact Option.some.inj hother ▸ hmarket
  · rw [lookup_insert_of_ne hid] at hother
    exact hdb marketId other hother

theorem EveryMarket.addMarkets {markets : List (Market F)} (hdb : EveryMarket P db)
    (hmarkets : ∀ market ∈ markets, P market) :
    EveryMarket P (markets.foldl MarketsDatabase.addMarket db) := by
  induction markets generalizing db with
  | nil => exact hdb
  | cons market markets ih =>
      rw [List.forall_mem_cons] at hmarkets
      exact ih (hdb.insert addMarket_markets hmarkets.1) hmarkets.2

theorem sameDimensions_of_addUpdate {acc acc' : Market F × List I64} {update : MarketStateUpdate}
    (h : addUpdate acc update = .ok acc') : SameDimensions acc.1 acc'.1 := by
  simp only [addUpdate, Market.updateTradingVolume, Market.changeVolume, bind_eq_ok_iff,
    mapError_eq_ok_iff, Except.ok.injEq] at h
  obtain ⟨_, -, _, ⟨_, -, rfl⟩, rfl⟩ := h
  exact ⟨rfl, rfl⟩

theorem sameDimensions_of_updateState {m m' : Market F} {height : Nat}
    {state : Option MarketState} {shares : Option (List I64)} {prices : Option (List F)}
    (h : m.updateState height state shares prices = .ok m') : SameDimensions m m' := by
  simp only [Market.updateState, bind_eq_ok_iff, Except.ok.injEq] at h
  obtain ⟨_, -, _, -, rfl⟩ := h
  exact ⟨rfl, rfl⟩

theorem sameDimensions_of_tradedRecord {u : StateUpdate F} {height : Nat} {marketId : MarketId}
    {old new : Market F} (h : tradedRecord u height marketId old = .ok new) :
    SameDimensions old new := by
  simp only [tradedRecord, bind_eq_ok_iff, mapError_eq_ok_iff] at h
  obtain ⟨⟨traded, newShares⟩, hfold, hstate⟩ := h
  have htraded : SameDimensions old traded := foldlM_preserves
    (P := fun acc : Market F × List I64 => SameDimensions old acc.1)
    (fun _ _ _ _ hacc hstep => hacc.trans (sameDimensions_of_addUpdate hstep)) hfold ⟨rfl, rfl⟩
  exact htraded.trans (sameDimensions_of_updateState hstate)

theorem sameDimensions_of_amplifiedRecord {u : StateUpdate F} {marketId : MarketId}
    {old new : Market F} (h : amplifiedRecord u marketId old = .ok new) :
    SameDimensions old new := by
  simp only [amplifiedRecord, bind_eq_ok_iff, Except.ok.injEq] at h
  obtain ⟨_, -, _, -, rfl⟩ := h
  exact ⟨rfl, rfl⟩

section

variable [F64 F] {s s' : State F} {height : Nat}

omit [F64 F] in
theorem EveryMarket.writeMarkets {u : StateUpdate F} (hP : Stable P) (hkeyed : Keyed db)
    (hdb : EveryMarket P db) (hcreated : ∀ market ∈ u.marketCreations, P market)
    (h : Connect.writeMarkets L u height db = .ok db') : EveryMarket P db' := by
  simp only [Connect.writeMarkets, bind_eq_ok_iff, Except.ok.injEq] at h
  obtain ⟨db₁, h₁, db₂, h₂, db₃, h₃, _, -, rfl⟩ := h
  have hupdated : Keyed db₁ ∧ EveryMarket P db₁ := by
    refine foldlM_preserves (P := fun d : MarketsDatabase F => Keyed d ∧ EveryMarket P d) ?_ h₁
      ⟨hkeyed.addMarkets _, hdb.addMarkets hcreated⟩
    rintro marketId - d d' ⟨hd, hevery⟩ hstep
    refine ⟨hd.applyMarketUpdates hstep, ?_⟩
    obtain ⟨old, new, hold, hnew, rfl⟩ := (applyMarketUpdates_iff hd).mp hstep
    exact hevery.insert rfl (hP (sameDimensions_of_tradedRecord hnew) (hevery _ _ hold))
  have hamplified : Keyed db₂ ∧ EveryMarket P db₂ := by
    refine foldlM_preserves (P := fun d : MarketsDatabase F => Keyed d ∧ EveryMarket P d) ?_ h₂
      hupdated
    rintro marketId - d d' ⟨hd, hevery⟩ hstep
    refine ⟨hd.applyAmplifications hstep, ?_⟩
    obtain ⟨old, new, hold, hnew, rfl⟩ := (applyAmplifications_iff hd).mp hstep
    exact hevery.insert rfl (hP (sameDimensions_of_amplifiedRecord hnew) (hevery _ _ hold))
  rw [shareChanges_framed h₃]
  exact hamplified.2.of_markets rfl

theorem EveryMarket.settleMarket {entry : SettlementUndoEntry F} (hP : Stable P)
    (hs : EveryMarket P s.markets) (hmarket : P market)
    (h : Settlement.settleMarket L s market height = .ok (s', entry)) :
    EveryMarket P s'.markets := by
  obtain ⟨priced, settled, db, hpriced, -, hredeem, hsettled, hmarkets, -, -⟩ :=
    settleMarket_eq_ok h
  have hredeemed : db.markets = s.markets.markets := by
    refine foldlM_preserves
      (P := fun d : MarketsDatabase F => d.markets = s.markets.markets) ?_ hredeem rfl
    intro p _ d d' hd hstep
    rw [removeSharesFromAccount_framed hstep]
    exact hd
  obtain ⟨-, hwritten⟩ := updateMarket_eq_ok_iff.mp hmarkets
  have hdims := (sameDimensions_of_updateState hpriced).trans
    (sameDimensions_of_updateState hsettled)
  have hcleared : EveryMarket P (clearFunds db entry.payoutSummary.marketId) :=
    hs.of_markets hredeemed
  rw [hwritten]
  exact hcleared.insert writeMarketAndIndexes_markets (hP hdims hmarket)

theorem EveryMarket.transitionMarkets {entries : List (SettlementUndoEntry F)} (hP : Stable P)
    (hs : EveryMarket P s.markets)
    (h : transitionAndPayoutResolvedMarkets L s height = .ok (s', entries)) :
    EveryMarket P s'.markets := by
  refine foldlM_preserves
    (P := fun acc : State F × List (SettlementUndoEntry F) => EveryMarket P acc.1.markets) ?_ h hs
  intro record hrecord acc acc' hacc hstep
  obtain ⟨marketId, -, hlookup⟩ := List.mem_filterMap.mp hrecord
  unfold transitionMarket at hstep
  split at hstep
  · obtain ⟨⟨s₁, entry⟩, hsettle, hstep⟩ := bind_eq_ok_iff.mp hstep
    rw [← Except.ok.inj hstep]
    exact hacc.settleMarket hP (hs marketId record hlookup) hsettle
  · rw [← Except.ok.inj hstep]
    exact hacc

variable [DecidableEq F] {config : DecisionConfig} {archive : Archive} {block : Block F}
  {t : Trace F}

theorem EveryMarket.counted (hP : Stable P) (hkeyed : Keyed s.markets)
    (hs : EveryMarket P s.markets) (ht : Connects L config archive s block t)
    (hcreated : ∀ market ∈ t.applied.update.marketCreations, P market) :
    EveryMarket P t.counted.markets := by
  have happlied : EveryMarket P t.applied.state.markets := by
    rw [applied_eq ht.applied]
    exact hs.of_markets rfl
  have hwritten : EveryMarket P t.written :=
    happlied.writeMarkets hP (keyed_applied hkeyed ht.applied) hcreated ht.written
  exact hwritten.of_markets rfl

theorem EveryMarket.finished (hP : Stable P) (hcounted : EveryMarket P t.counted.markets)
    (ht : Connects L config archive s block t) :
    EveryMarket P (t.finished L block).markets := by
  have hpaid : EveryMarket P t.paid.markets := hcounted.transitionMarkets hP ht.paid
  exact hpaid

end

section

variable [DecidableEq F] {tx : Transaction F} {d d' d'' : Dbs F}

/-- A transaction claims a decision as one of a type. -/
def ClaimsAs (tx : Transaction F) (decisionId : DecisionId) (decisionType : DecisionType F) :
    Prop :=
  ∃ payload ∈ tx.claimPayloads, payload.decisionType = decisionType ∧
    ∃ entry ∈ payload.decisions, entry.decisionIdBytes = decisionId

/-- The entry is one that a transaction claims. -/
def EntryOf (tx : Transaction F) (entry : DecisionEntry F) : Prop :=
  ∃ decision, entry.decision = some decision ∧ ClaimsAs tx entry.decisionId decision.decisionType

/-- What a transaction does to the entries: it keeps them and adds some that it claims. -/
structure Claiming (tx : Transaction F) (d d' : Dbs F) : Prop where
  keeps : ∀ period, ∀ entry ∈ d.entriesOf period, entry ∈ d'.entriesOf period
  adds : ∀ period, ∀ entry ∈ d'.entriesOf period, entry ∈ d.entriesOf period ∨ EntryOf tx entry

omit [DecidableEq F] in
theorem Claiming.refl (tx : Transaction F) (d : Dbs F) : Claiming tx d d :=
  ⟨fun _ _ h => h, fun _ _ h => .inl h⟩

omit [DecidableEq F] in
theorem Claiming.trans (h : Claiming tx d d') (h' : Claiming tx d' d'') : Claiming tx d d'' := by
  constructor
  · intro period entry hentry
    exact h'.keeps period entry (h.keeps period entry hentry)
  · intro period entry hentry
    exact (h'.adds period entry hentry).elim (h.adds period entry) .inr

theorem mem_insertEntry {entries : List (DecisionEntry F)} {entry e : DecisionEntry F} :
    e ∈ Dbs.insertEntry entries entry ↔ e = entry ∨ e ∈ entries := by
  unfold Dbs.insertEntry
  split
  · rename_i hmem
    exact ⟨.inr, fun h => h.elim (fun heq => heq ▸ hmem) id⟩
  · exact List.mem_orderedInsert _

theorem claiming_of_claimDecision {decisionId : DecisionId} {decision : Decision F} {txid : Txid}
    {height : Nat} (htx : ClaimsAs tx decisionId decision.decisionType)
    (h : d.claimDecision decisionId decision txid height = .ok d') : Claiming tx d d' := by
  constructor
  · intro period entry hentry
    rw [entriesOf_claimDecision h]
    split
    · rename_i hperiod
      exact mem_insertEntry.mpr (.inr (hperiod ▸ hentry))
    · exact hentry
  · intro period entry hentry
    rw [entriesOf_claimDecision h] at hentry
    split at hentry
    · rename_i hperiod
      rcases mem_insertEntry.mp hentry with rfl | hold
      · exact .inr ⟨decision, rfl, htx⟩
      · exact .inl (hperiod ▸ hold)
    · exact .inl hentry

omit [DecidableEq F] in
theorem decisionType_of_decisionOf [F64 F] {creator : Address} {decisionType : DecisionType F}
    {entry : DecisionClaimEntry} {decision : Decision F}
    (h : decisionOf creator decisionType entry = .ok decision) :
    decision.decisionType = decisionType := by
  simp only [decisionOf, Decision.new, bind_eq_ok_iff, Except.ok.injEq] at h
  obtain ⟨_, -, _, -, _, -, _, -, _, -, rfl⟩ := h
  rfl

theorem claiming_of_claimPayload [F64 F] {creator : Address} {txid : Txid} {height : Nat}
    {payload : ClaimDecisionPayload F} (hpayload : payload ∈ tx.claimPayloads)
    (h : claimPayload creator txid height d payload = .ok d') : Claiming tx d d' := by
  refine foldlM_preserves (P := Claiming tx d) ?_ h (.refl tx d)
  intro entry hentry d₁ d₂ hclaiming hstep
  simp only [bind_eq_ok_iff, DecisionId.fromBytes_eq, Except.ok.injEq, exists_eq_left'] at hstep
  obtain ⟨decision, hdecision, hclaim⟩ := hstep
  refine hclaiming.trans (claiming_of_claimDecision ?_ hclaim)
  exact ⟨payload, hpayload, (decisionType_of_decisionOf hdecision).symm, entry, hentry, rfl⟩

variable [F64 F] {s s' : State F} {u u' : StateUpdate F} {height : Nat}

theorem claiming_of_effect {tx : FilledTransaction F} (h : Effect L height s u tx s' u') :
    Claiming tx.transaction s.decisions s'.decisions := by
  cases h with
  | plain _ | trade _ _ _ | submitVote _ _ _ | submitBallot _ _ _ | amplifyBeta _ _ _ =>
      exact .refl _ _
  | createMarket creation hdata h =>
      obtain ⟨creator, decisions, market, _, -, hclaims, -, -, hs'⟩ := applyMarketCreation_eq_ok h
      have hdecisions : s'.decisions = decisions := by
        rcases hs' with rfl | ⟨_, rfl⟩
        · rfl
        · rfl
      rw [hdecisions]
      refine foldlM_preserves (P := Claiming tx.transaction s.decisions) ?_ hclaims (.refl _ _)
      intro payload hpayload d₁ d₂ hclaiming hstep
      refine hclaiming.trans (claiming_of_claimPayload ?_ hstep)
      rw [Transaction.claimPayloads, hdata]
      exact hpayload
  | claimDecision payload hdata h =>
      simp only [applyDecisionClaim, bind_eq_ok_iff, Except.ok.injEq] at h
      obtain ⟨creator, -, decisions, hclaims, rfl⟩ := h
      refine claiming_of_claimPayload ?_ hclaims
      rw [Transaction.claimPayloads, hdata]
      exact List.mem_singleton.mpr rfl
  | transferReputation transfer _ h =>
      simp only [applyTransferReputation, bind_eq_ok_iff, Except.ok.injEq] at h
      obtain ⟨_, _, rfl⟩ := h
      exact .refl _ _

end

section

/-- A dimension refers to an entry with a decision, which is a category if the dimension is
categorical. -/
def Refers (entry : DecisionEntry F) (spec : DimensionSpec) : Prop :=
  entry.decisionId = spec.decisionId ∧ ∃ decision, entry.decision = some decision ∧
    (isCategoricalSpec spec = true → decision.isCategorical = true)

/-- Every dimension of a market refers to an entry. -/
structure Filed (d : Dbs F) (market : Market F) : Prop where
  decisionIds : market.decisionIds = market.dimensionSpecs.map DimensionSpec.decisionId
  nonempty : market.dimensionSpecs ≠ []
  entries : ∀ spec ∈ market.dimensionSpecs,
    ∃ entry ∈ d.entriesOf spec.decisionId.periodIndex, Refers entry spec

theorem Filed.of_same {d : Dbs F} {old new : Market F} (hsame : SameDimensions old new)
    (h : Filed d old) : Filed d new := by
  constructor
  · rw [hsame.decisionIds, hsame.specs]
    exact h.decisionIds
  · rw [hsame.specs]
    exact h.nonempty
  · rw [hsame.specs]
    exact h.entries

theorem Filed.keeps {d d' : Dbs F} (h : Filed d market)
    (hkeeps : ∀ period, ∀ entry ∈ d.entriesOf period, entry ∈ d'.entriesOf period) :
    Filed d' market := by
  refine ⟨h.decisionIds, h.nonempty, ?_⟩
  intro spec hspec
  obtain ⟨entry, hentry, hrefers⟩ := h.entries spec hspec
  exact ⟨entry, hkeeps _ entry hentry, hrefers⟩

theorem dimensionDecision_eq_ok {d : Dbs F} {spec : DimensionSpec}
    {p : DecisionId × Decision F} (h : dimensionDecision d spec = .ok p) :
    p.1 = spec.decisionId ∧ ∃ entry ∈ d.entriesOf spec.decisionId.periodIndex,
      entry.decisionId = spec.decisionId ∧ entry.decision = some p.2 := by
  simp only [dimensionDecision, bind_eq_ok_iff, okOr_eq_ok_iff, Except.ok.injEq] at h
  obtain ⟨entry, hentry, decision, hdecision, rfl⟩ := h
  refine ⟨rfl, entry, List.mem_of_find?_eq_some hentry, ?_, hdecision⟩
  simpa using List.find?_some hentry

theorem entry_of_get {d : Dbs F} {specs : List DimensionSpec} {decisions : DecisionMap F}
    (h : specs.mapM (dimensionDecision d) = .ok decisions) {decisionId : DecisionId}
    {decision : Decision F} (hget : decisions.get decisionId = some decision) :
    ∃ entry ∈ d.entriesOf decisionId.periodIndex,
      entry.decisionId = decisionId ∧ entry.decision = some decision := by
  obtain ⟨p, hfind, rfl⟩ := Option.map_eq_some_iff.mp hget
  have hid : p.1 = decisionId := by simpa using List.find?_some hfind
  obtain ⟨spec, -, hspec⟩ := exists_of_mem_mapM h (List.mem_of_find?_eq_some hfind)
  obtain ⟨hsame, hentry⟩ := dimensionDecision_eq_ok hspec
  rw [← hid, hsame]
  exact hentry

theorem get_of_dimensionRange {decisions : DecisionMap F} {spec : DimensionSpec}
    {range : Nat × Nat} (h : dimensionRange decisions spec = .ok range) :
    ∃ decision, decisions.get spec.decisionId = some decision ∧
      (isCategoricalSpec spec = true → decision.isCategorical = true) := by
  cases spec with
  | single d =>
      obtain ⟨decision, hget, -⟩ := bind_eq_ok_iff.mp h
      refine ⟨decision, okOr_eq_ok_iff.mp hget, fun hcategorical => ?_⟩
      cases hcategorical
  | categorical d =>
      obtain ⟨decision, hget, h⟩ := bind_eq_ok_iff.mp h
      obtain ⟨n, hcount, -⟩ := bind_eq_ok_iff.mp h
      refine ⟨decision, okOr_eq_ok_iff.mp hget, fun _ => ?_⟩
      rw [okOr_eq_ok_iff, Decision.optionCount] at hcount
      rw [Decision.isCategorical]
      split at hcount
      · rfl
      · cases hcount

variable [F64 F]

theorem filed_of_buildMarket {creation : MarketCreation F} {creator : Address} {d : Dbs F}
    {height : Nat} (h : buildMarket L creation creator d height = .ok market) :
    market.dimensionSpecs = creation.dimensionSpecs ∧ Filed d market := by
  simp only [buildMarket, MarketBuilder.build, generateStateCombos, bind_eq_ok_iff,
    mapError_eq_ok_iff, ensure_eq_ok_iff, Except.ok.injEq] at h
  obtain ⟨decisions, hdecisions, combos, ⟨_, hne, _, -, ranges, hranges, -⟩, _, -, rfl⟩ := h
  refine ⟨rfl, rfl, hne, ?_⟩
  intro spec hspec
  obtain ⟨range, hrange⟩ := ok_of_mem_mapM hranges hspec
  obtain ⟨decision, hget, hcategorical⟩ := get_of_dimensionRange hrange
  obtain ⟨entry, hentry, hid, hdecision⟩ := entry_of_get hdecisions hget
  exact ⟨entry, hentry, hid, decision, hdecision, hcategorical⟩

def CreatedBy (tx : Transaction F) (market : Market F) : Prop :=
  ∃ creation, tx.data = some (.createMarket creation) ∧
    market.dimensionSpecs = creation.dimensionSpecs

variable [DecidableEq F] {s s' : State F} {u u' : StateUpdate F} {height : Nat}

/-- The markets of an effect are older ones, or one that its transaction creates. -/
theorem created_of_effect {tx : FilledTransaction F} (h : Effect L height s u tx s' u') :
    ∀ market ∈ u'.marketCreations, market ∈ u.marketCreations ∨
      CreatedBy tx.transaction market ∧ Filed s'.decisions market := by
  cases h with
  | plain _ | claimDecision _ _ _ | transferReputation _ _ _ => exact fun market => .inl
  | trade trade _ h =>
      rw [applyTrade_marketCreations h]
      exact fun market => .inl
  | submitVote vote _ h =>
      simp only [applySubmitVote, bind_eq_ok_iff, Except.ok.injEq] at h
      obtain ⟨_, -, _, -, _, -, rfl⟩ := h
      exact fun market => .inl
  | submitBallot ballot _ h =>
      rw [applySubmitBallot_framed h]
      exact fun market => .inl
  | amplifyBeta amplify _ h =>
      simp only [applyAmplifyBeta, bind_eq_ok_iff, Except.ok.injEq] at h
      obtain ⟨_, -, rfl⟩ := h
      exact fun market => .inl
  | createMarket creation hdata h =>
      obtain ⟨creator, decisions, built, liquidity, -, -, hbuilt, rfl, hs'⟩ :=
        applyMarketCreation_eq_ok h
      have hdecisions : s'.decisions = decisions := by
        rcases hs' with rfl | ⟨_, rfl⟩
        · rfl
        · rfl
      obtain ⟨hspecs, hfiled⟩ := filed_of_buildMarket hbuilt
      intro market hmarket
      rcases List.mem_append.mp hmarket with hold | hnew
      · exact .inl hold
      · obtain rfl := List.mem_singleton.mp hnew
        rw [hdecisions]
        refine .inr ⟨⟨creation, hdata, hspecs⟩, ?_⟩
        exact Filed.of_same (show SameDimensions built _ from ⟨rfl, rfl⟩) hfiled

/-- What the transactions of a block leave: the entries from before the block and those that
they claim, and markets that they create and that refer to the entries. -/
structure Collected (txs : List (Transaction F)) (d₀ d : Dbs F) (u : StateUpdate F) : Prop where
  keeps : ∀ period, ∀ entry ∈ d₀.entriesOf period, entry ∈ d.entriesOf period
  adds : ∀ period, ∀ entry ∈ d.entriesOf period,
    entry ∈ d₀.entriesOf period ∨ ∃ tx ∈ txs, EntryOf tx entry
  created : ∀ market ∈ u.marketCreations, Filed d market ∧ ∃ tx ∈ txs, CreatedBy tx market

theorem Collected.effect {txs : List (Transaction F)} {d₀ : Dbs F} {tx : FilledTransaction F}
    (hs : Collected txs d₀ s.decisions u) (htx : tx.transaction ∈ txs)
    (h : Effect L height s u tx s' u') : Collected txs d₀ s'.decisions u' := by
  have hclaiming := claiming_of_effect h
  refine ⟨?_, ?_, ?_⟩
  · intro period entry hentry
    exact hclaiming.keeps period entry (hs.keeps period entry hentry)
  · intro period entry hentry
    rcases hclaiming.adds period entry hentry with hold | hnew
    · exact hs.adds period entry hold
    · exact .inr ⟨_, htx, hnew⟩
  · intro market hmarket
    rcases created_of_effect h market hmarket with hold | ⟨hcreated, hfiled⟩
    · obtain ⟨hfiled, hcreated⟩ := hs.created market hold
      exact ⟨hfiled.keeps hclaiming.keeps, hcreated⟩
    · exact ⟨hfiled, _, htx, hcreated⟩

variable {config : DecisionConfig} {archive : Archive} {block : Block F} {t : Trace F}

theorem collected_of_connects (ht : Connects L config archive s block t) :
    Collected block.body.transactions s.decisions (t.finished L block).decisions
      t.applied.update := by
  have hpre := prevalidated_of_prevalidate ht.prevalidated
  have hrows : SameEntries s.decisions t.voting := .of_rows (sameSlots_voting ht.toPrepares).1
  have hcollected := effects_preserve
    (P := fun s₁ u₁ => Collected block.body.transactions s.decisions s₁.decisions u₁) ?_
    (effects_of_applyTransactions ht.applied) ⟨?_, ?_, by simp [StateUpdate.new]⟩
  · have hfinished := sameEntries_finished ht
    refine ⟨?_, ?_, ?_⟩
    · intro period entry hentry
      rw [hfinished period]
      exact hcollected.keeps period entry hentry
    · intro period entry hentry
      rw [hfinished period] at hentry
      exact hcollected.adds period entry hentry
    · intro market hmarket
      obtain ⟨hfiled, hcreated⟩ := hcollected.created market hmarket
      refine ⟨hfiled.keeps ?_, hcreated⟩
      intro period entry hentry
      rw [hfinished period]
      exact hentry
  · intro tx htx s₁ u₁ s₂ u₂ hs₁ heffect
    refine hs₁.effect ?_ heffect
    rw [← hpre.map_transaction]
    exact List.mem_map_of_mem ((notSkipped_sublist _ _).subset htx)
  · intro period entry hentry
    show entry ∈ t.voting.entriesOf period
    rw [hrows period]
    exact hentry
  · intro period entry hentry
    exact .inl (hrows period ▸ hentry)

end

section

variable [F64 F] [DecidableEq F] {config : DecisionConfig} {archive : Archive}
  {s s' : State F} {block : Block F} {t : Trace F} {lib : WithdrawalBundle.BundleLib}
  {ok : State F → Block F → Prop} {okPeg : State F → TwoWayPegData → Prop}
  {chain : List (Block F)}

theorem filed_of_chain (h : Chain L config lib ok okPeg chain s) :
    EveryMarket (Filed s.decisions) s.markets := by
  induction h with
  | start =>
      intro marketId market hmarket
      simp [State.empty, MarketsDatabase.empty, MarketsDatabase.getMarket] at hmarket
  | connect archive hchain _ h ih =>
      obtain ⟨t, ht, rfl⟩ := connects_of_applyBlock h
      have hcollected := collected_of_connects ht
      refine EveryMarket.finished Filed.of_same (EveryMarket.counted Filed.of_same
        (keyed_of_run hchain.run) ?_ ht fun market hmarket => ?_) ht
      · exact fun marketId market hmarket => (ih marketId market hmarket).keeps hcollected.keeps
      · exact (hcollected.created market hmarket).1
  | connectPeg hchain _ h ih =>
      obtain ⟨p, -, h⟩ := bind_eq_ok_iff.mp h
      rw [← Except.ok.inj h]
      exact ih

theorem filed_counted (h : Chain L config lib ok okPeg chain s)
    (ht : Connects L config archive s block t) :
    EveryMarket (Filed t.counted.decisions) t.counted.markets := by
  have hcollected := collected_of_connects ht
  rw [show t.counted.decisions = (t.finished L block).decisions from (finished_decisions ht).symm]
  refine EveryMarket.counted Filed.of_same (keyed_of_run h.run) ?_ ht fun market hmarket => ?_
  · intro marketId market hmarket
    exact (filed_of_chain h marketId market hmarket).keeps hcollected.keeps
  · exact (hcollected.created market hmarket).1

/-- The kinds of decisions that a dimension of a market is made for. -/
inductive Fits : DimensionSpec → DecisionType F → Prop where
  | binary (d : DecisionId) : Fits (.single d) .binary
  | scaled (d : DecisionId) (min max increment : F) :
      Fits (.single d) (.scaled min max increment)
  | category (d : DecisionId) (options : List String) : Fits (.categorical d) (.category options)

/-- Every dimension of a market fits the decision that it refers to. -/
def WellTyped (d : Dbs F) (market : Market F) : Prop :=
  ∀ spec ∈ market.dimensionSpecs, ∃ entry decision,
    d.getDecisionEntry spec.decisionId = some entry ∧ entry.decision = some decision ∧
      Fits spec decision.decisionType

def IsCategory (decisionType : DecisionType F) : Prop :=
  ∃ options, decisionType = .category options

/-- No transaction of the block makes a single dimension of a decision that is stored, or
that a transaction of the block claims, as a category. -/
def SinglesTwoSided (s : State F) (block : Block F) : Prop :=
  ∀ tx ∈ block.body.transactions, ∀ creation, tx.data = some (.createMarket creation) →
    ∀ d, .single d ∈ creation.dimensionSpecs →
      (∀ entry decision, s.decisions.getDecisionEntry d = some entry →
        entry.decision = some decision → ¬ IsCategory decision.decisionType) ∧
      ∀ tx' ∈ block.body.transactions, ∀ decisionType, ClaimsAs tx' d decisionType →
        ¬ IsCategory decisionType

omit [F64 F] [DecidableEq F] in
theorem fits_of_isCategorical {spec : DimensionSpec} {decision : Decision F}
    (hcategorical : isCategoricalSpec spec = true → decision.isCategorical = true)
    (hsingle : ∀ d, spec = .single d → ¬ IsCategory decision.decisionType) :
    Fits spec decision.decisionType := by
  cases spec with
  | single d =>
      cases htype : decision.decisionType with
      | binary => exact .binary d
      | scaled min max increment => exact .scaled d min max increment
      | category options => exact absurd ⟨options, htype⟩ (hsingle d rfl)
  | categorical d =>
      have hkind := hcategorical rfl
      rw [Decision.isCategorical] at hkind
      split at hkind
      · rename_i options htype
        rw [htype]
        exact .category d options
      · cases hkind

omit [F64 F] [DecidableEq F] in
theorem wellTyped_of_created (hentries : ClaimedEntries s.decisions)
    (hentries' : ClaimedEntries s'.decisions) (hblock : SinglesTwoSided s block)
    (hadds : ∀ period, ∀ entry ∈ s'.decisions.entriesOf period,
      entry ∈ s.decisions.entriesOf period ∨ ∃ tx ∈ block.body.transactions, EntryOf tx entry)
    {market : Market F} (hfiled : Filed s'.decisions market)
    (hcreated : ∃ tx ∈ block.body.transactions, CreatedBy tx market) :
    WellTyped s'.decisions market := by
  obtain ⟨tx, htx, creation, hdata, hspecs⟩ := hcreated
  intro spec hspec
  obtain ⟨entry, hentry, hid, decision, hdecision, hcategorical⟩ := hfiled.entries spec hspec
  refine ⟨entry, decision, hentries'.getDecisionEntry_iff.mpr ⟨hentry, hid⟩, hdecision,
    fits_of_isCategorical hcategorical ?_⟩
  rintro d rfl
  obtain ⟨hstored, hclaimed⟩ := hblock tx htx creation hdata d (hspecs ▸ hspec)
  rcases hadds _ entry hentry with hold | ⟨tx', htx', decision', hdecision', hclaims⟩
  · exact hstored entry decision (hentries.getDecisionEntry_iff.mpr ⟨hold, hid⟩) hdecision
  · rw [hid] at hclaims
    obtain rfl := Option.some.inj (hdecision.symm.trans hdecision')
    exact hclaimed tx' htx' _ hclaims

/-- In every chain without single dimensions of categories all stored markets are well
typed. -/
theorem wellTyped_of_chain (h : Chain L config lib SinglesTwoSided okPeg chain s) :
    ∀ marketId market, s.markets.getMarket marketId = some market →
      WellTyped s.decisions market := by
  suffices hevery : EveryMarket (WellTyped s.decisions) s.markets from hevery
  induction h with
  | start =>
      intro marketId market hmarket
      simp [State.empty, MarketsDatabase.empty, MarketsDatabase.getMarket] at hmarket
  | @connect chain s s' block archive hchain hok h ih =>
      have hentries := (recorded_of_chain hchain).entries
      obtain ⟨hentries', hclaims⟩ := addsClaims_of_applyBlock hentries h
      obtain ⟨t, ht, rfl⟩ := connects_of_applyBlock h
      have hcollected := collected_of_connects ht
      have hstable : Stable (WellTyped (t.finished L block).decisions) :=
        fun hsame hold spec hspec => hold spec (hsame.specs ▸ hspec)
      refine EveryMarket.finished hstable (EveryMarket.counted hstable
        (keyed_of_run hchain.run) ?_ ht fun market hmarket => ?_) ht
      · intro marketId market hmarket spec hspec
        obtain ⟨entry, decision, hentry, htyped⟩ := ih marketId market hmarket spec hspec
        exact ⟨entry, decision, hclaims.keeps hentries hentries' hentry, htyped⟩
      · obtain ⟨hfiled, hcreated⟩ := hcollected.created market hmarket
        exact wellTyped_of_created hentries hentries' hok hcollected.adds hfiled hcreated
  | connectPeg hchain _ h ih =>
      obtain ⟨p, -, h⟩ := bind_eq_ok_iff.mp h
      rw [← Except.ok.inj h]
      exact ih

end

/-- A block that creates a market with a single dimension. -/
def singleBlock : Block Rat := blockAt 2 [creating 1 "" owner]

theorem singlesTwoSided_of_claims (height : Nat) {txs : List (Transaction Rat)}
    (htxs : txs = [] ∨ txs = [claiming 0 marketDecision]) (s : State Rat) :
    SinglesTwoSided s (blockAt height txs) := by
  intro tx htx creation hdata
  rcases htxs with rfl | rfl
  · cases htx
  · rw [List.mem_singleton.mp htx] at hdata
    cases hdata

theorem wellTyped_of_binary :
    ∃ s, Chain chainLibrary marketConfig sampleBundleLib SinglesTwoSided (fun _ _ => True)
        [singleBlock, blockAt 1 [claiming 0 marketDecision], blockAt 0 []] s ∧
      ∃ market, s.markets.getMarket (marketNamed "") = some market ∧
        WellTyped s.decisions market := by
  have hcomputed : holds (do
      let s ← runBlocks marketConfig 2 [blockAt 1 [claiming 0 marketDecision]]
      let s' ← applyBlock chainLibrary marketConfig emptyArchive s singleBlock
      .ok (s, s')) (fun p =>
        decide (((p.1.decisions.getDecisionEntry marketDecision).bind
          DecisionEntry.decision).map Decision.decisionType = some .binary) &&
        (p.2.markets.getMarket (marketNamed "")).isSome) = true := by
    decide +kernel
  obtain ⟨⟨_, _⟩, hrun, htest⟩ := holds_iff.mp hcomputed
  obtain ⟨s, hbefore, hrun⟩ := bind_eq_ok_iff.mp hrun
  obtain ⟨_, hafter, hpair⟩ := bind_eq_ok_iff.mp hrun
  obtain ⟨rfl, rfl⟩ := Prod.mk.inj (Except.ok.inj hpair)
  simp only [Bool.and_eq_true, decide_eq_true_eq] at htest
  obtain ⟨hbinary, hstored⟩ := htest
  obtain ⟨market, hmarket⟩ := Option.isSome_iff_exists.mp hstored
  have hclaims : ∀ block ∈ [blockAt 0 [], blockAt 1 [claiming 0 marketDecision]], ∀ s,
      SinglesTwoSided s block := by
    intro block hblock s
    rw [List.mem_cons, List.mem_singleton] at hblock
    rcases hblock with rfl | rfl
    · exact singlesTwoSided_of_claims 0 (.inl rfl) s
    · exact singlesTwoSided_of_claims 1 (.inr rfl) s
  have hchain := chain_of_runBlocks_ok hclaims hbefore
  have hcreate : SinglesTwoSided s singleBlock := by
    intro tx htx creation hdata d hd
    rw [List.mem_singleton.mp htx] at hdata
    cases hdata
    obtain rfl : d = marketDecision := by simpa using hd
    constructor
    · rintro entry decision hentry hdecision ⟨options, hcategory⟩
      rw [hentry, Option.bind_some, hdecision, Option.map_some, hcategory] at hbinary
      cases hbinary
    · rintro tx' htx' decisionType ⟨payload, hpayload, -⟩
      rw [List.mem_singleton.mp htx'] at hpayload
      cases hpayload
  have hcreated := hchain.connect emptyArchive hcreate hafter
  exact ⟨_, hcreated, market, hmarket, wellTyped_of_chain hcreated _ market hmarket⟩

/-- A claim of a decision between three options. -/
def claimingCategory : Transaction Rat :=
  spending 0 []
    (.claimDecision ⟨.category ["a", "b", "c"],
      [⟨marketDecision, "h", "d", none, none, some ["a", "b", "c"], none⟩]⟩)

/-- A market with a single dimension of a category is created. -/
theorem single_of_category :
    ∃ s, Chain chainLibrary marketConfig sampleBundleLib (fun _ _ => True) (fun _ _ => True)
        [singleBlock, blockAt 1 [claimingCategory], blockAt 0 []] s ∧
      ¬ ∀ marketId market, s.markets.getMarket marketId = some market →
        WellTyped s.decisions market := by
  have hcomputed : holds (runBlocks marketConfig 2 [blockAt 1 [claimingCategory], singleBlock])
      (fun s => decide (((s.decisions.getDecisionEntry marketDecision).bind
          DecisionEntry.decision).map Decision.decisionType = some (.category ["a", "b", "c"])) &&
        decide ((s.markets.getMarket (marketNamed "")).map Market.dimensionSpecs =
          some [.single marketDecision])) = true := by
    decide +kernel
  obtain ⟨s, hrun, htest⟩ := holds_iff.mp hcomputed
  simp only [Bool.and_eq_true, decide_eq_true_eq] at htest
  obtain ⟨hcategory, hspecs⟩ := htest
  obtain ⟨market, hmarket, hspecs⟩ := Option.map_eq_some_iff.mp hspecs
  refine ⟨s, chain_of_runBlocks hrun, fun hall => ?_⟩
  have hspec : .single marketDecision ∈ market.dimensionSpecs := by
    rw [hspecs]
    exact List.mem_singleton.mpr rfl
  obtain ⟨entry, decision, hentry, hdecision, hfits⟩ := hall _ market hmarket _ hspec
  simp only [DimensionSpec.decisionId] at hentry
  rw [hentry, Option.bind_some, hdecision, Option.map_some, Option.some.injEq] at hcategory
  rw [hcategory] at hfits
  cases hfits

end Truthcoin.MarketTypes
