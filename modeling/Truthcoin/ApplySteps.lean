import Truthcoin.Connect

/-!
# What applying a transaction does

A skipped trade changes nothing, so the state after all transactions of a block is
the one that the transactions that were not skipped leave. Each of these changes
the decisions, the reputation, the treasury pointers of new markets and the
collected changes, and nothing else.
-/

namespace Truthcoin.ApplySteps

open Truthcoin.Types Truthcoin.Table Truthcoin.Fallible Truthcoin.Arithmetic
open Truthcoin.Decisions Truthcoin.Markets Truthcoin.Voting Truthcoin.Blocks
open Truthcoin.Trading Truthcoin.Validation Truthcoin.Apply

variable {F : Type} [F64 F] [DecidableEq F] {L : Library F} {height : Nat}

/-- Apply a transaction that must not be skipped. -/
def applyEffect (L : Library F) (height : Nat) (p : State F × StateUpdate F)
    (tx : FilledTransaction F) : Except Error (State F × StateUpdate F) := do
  let a ← applyTransaction L height ⟨p.1, p.2, []⟩ (tx, 0)
  ensure (a.skipped = []) .panic
  .ok (a.state, a.update)

theorem applyTransaction_cases {a a' : Applied F} {tx : FilledTransaction F} {idx : Nat}
    (h : applyTransaction L height a (tx, idx) = .ok a') :
    (a'.skipped = a.skipped ∧
        applyEffect L height (a.state, a.update) tx = .ok (a'.state, a'.update)) ∨
      (a'.skipped = a.skipped ++ [idx] ∧ a'.state = a.state ∧ a'.update = a.update ∧
        ∃ trade, tx.transaction.data = some (.trade trade)) := by
  unfold applyEffect
  unfold applyTransaction at h ⊢
  dsimp only at h ⊢
  cases hdata : tx.transaction.data with
  | none =>
      rw [hdata] at h
      rw [← Except.ok.inj h]
      exact .inl ⟨rfl, rfl⟩
  | some data =>
      rw [hdata] at h
      cases data with
      | trade trade =>
          obtain ⟨result, hresult, h⟩ := bind_eq_ok_iff.mp h
          cases result with
          | some update =>
              rw [← Except.ok.inj h]
              exact .inl ⟨rfl, by simp [applyTxData, hresult, ensure]⟩
          | none =>
              rw [← Except.ok.inj h]
              exact .inr ⟨rfl, rfl, rfl, trade, rfl⟩
      | createMarket creation =>
          obtain ⟨⟨state, update⟩, hresult, h⟩ := bind_eq_ok_iff.mp h
          rw [← Except.ok.inj h]
          exact .inl ⟨rfl, by simp [applyTxData, hresult, ensure]⟩
      | claimDecision _ | submitVote _ | submitBallot _ | transferReputation _
      | amplifyBeta _ =>
          obtain ⟨result, hresult, h⟩ := bind_eq_ok_iff.mp h
          rw [← Except.ok.inj h]
          exact .inl ⟨rfl, by simp [applyTxData, hresult, ensure]⟩

theorem effects_of_foldlM {entries : List (FilledTransaction F × Nat)} {a a' : Applied F}
    (hnodup : (entries.map Prod.snd).Nodup) (hfresh : ∀ e ∈ entries, e.2 ∉ a.skipped)
    (h : entries.foldlM (applyTransaction L height) a = .ok a') :
    ((entries.filter fun e => e.2 ∉ a'.skipped).map Prod.fst).foldlM (applyEffect L height)
        (a.state, a.update) = .ok (a'.state, a'.update) ∧
      (∀ i ∈ a.skipped, i ∈ a'.skipped) ∧
      ∀ i ∈ a'.skipped, i ∈ a.skipped ∨ ∃ e ∈ entries, e.2 = i ∧
        ∃ trade, e.1.transaction.data = some (.trade trade) := by
  induction entries generalizing a with
  | nil =>
      rw [← Except.ok.inj h]
      exact ⟨rfl, fun i hi => hi, fun i hi => .inl hi⟩
  | cons e entries ih =>
      rw [List.foldlM_cons, bind_eq_ok_iff] at h
      obtain ⟨a₁, hfirst, hrest⟩ := h
      rw [List.map_cons, List.nodup_cons] at hnodup
      obtain ⟨tx, idx⟩ := e
      have hne : ∀ e' ∈ entries, e'.2 ≠ idx := by
        rintro e' he' rfl
        exact hnodup.1 (List.mem_map.mpr ⟨e', he', rfl⟩)
      rcases applyTransaction_cases hfirst with
        ⟨hskipped, heffect⟩ | ⟨hskipped, hstate, hupdate, htrade⟩
      · have hfresh₁ : ∀ e' ∈ entries, e'.2 ∉ a₁.skipped := by
          intro e' he'
          rw [hskipped]
          exact hfresh e' (by simp [he'])
        obtain ⟨hfold, hkept, hbound⟩ := ih hnodup.2 hfresh₁ hrest
        rw [hskipped] at hkept hbound
        have hnotMem : idx ∉ a'.skipped := by
          intro hmem
          rcases hbound _ hmem with hold | ⟨e', he', hidx, -⟩
          · exact hfresh (tx, idx) (by simp) hold
          · exact hne e' he' hidx
        refine ⟨?_, hkept, ?_⟩
        · rw [List.filter_cons_of_pos (by simpa using hnotMem), List.map_cons,
            List.foldlM_cons, heffect]
          exact hfold
        · intro i hi
          refine (hbound i hi).imp_right ?_
          rintro ⟨e', he', hcase⟩
          exact ⟨e', by simp [he'], hcase⟩
      · have hfresh₁ : ∀ e' ∈ entries, e'.2 ∉ a₁.skipped := by
          intro e' he'
          rw [hskipped, List.mem_append, not_or]
          exact ⟨hfresh e' (by simp [he']), by simpa using hne e' he'⟩
        obtain ⟨hfold, hkept, hbound⟩ := ih hnodup.2 hfresh₁ hrest
        rw [hskipped] at hkept hbound
        have hmem : idx ∈ a'.skipped := hkept idx (by simp)
        refine ⟨?_, fun i hi => hkept i (by simp [hi]), ?_⟩
        · rw [List.filter_cons_of_neg (by simpa using hmem), ← hstate, ← hupdate]
          exact hfold
        · intro i hi
          rcases hbound i hi with hold | ⟨e', he', hcase⟩
          · rcases List.mem_append.mp hold with hold | hnew
            · exact .inl hold
            · exact .inr ⟨(tx, idx), by simp, (List.mem_singleton.mp hnew).symm, htrade⟩
          · exact .inr ⟨e', by simp [he'], hcase⟩

theorem effects_of_applyTransactions {s : State F} {filledTxs : List (FilledTransaction F)}
    {a : Applied F} (h : applyTransactions L s filledTxs height = .ok a) :
    (notSkipped filledTxs a.skipped).foldlM (applyEffect L height) (s, StateUpdate.new F) =
      .ok (a.state, a.update) := by
  refine (effects_of_foldlM ?_ (by simp) h).1
  rw [List.zipIdx_map_snd]
  exact List.nodup_range'

theorem notSkipped_flatMap {s : State F} {filledTxs : List (FilledTransaction F)}
    {a : Applied F} (h : applyTransactions L s filledTxs height = .ok a) {α : Type}
    {f : FilledTransaction F → List α}
    (hf : ∀ tx trade, tx.transaction.data = some (.trade trade) → f tx = []) :
    (notSkipped filledTxs a.skipped).flatMap f = filledTxs.flatMap f := by
  have hindices : (filledTxs.zipIdx.map Prod.snd).Nodup := by
    rw [List.zipIdx_map_snd]
    exact List.nodup_range'
  have hskipped : ∀ e ∈ filledTxs.zipIdx, e.2 ∈ a.skipped → f e.1 = [] := by
    intro e he hmem
    rcases (effects_of_foldlM hindices (by simp) h).2.2 e.2 hmem with hold | ⟨e', he', hidx, htrade⟩
    · simp at hold
    · obtain ⟨trade, htrade⟩ := htrade
      rw [List.inj_on_of_nodup_map hindices he he' hidx.symm]
      exact hf _ trade htrade
  have hsplit : ∀ entries : List (FilledTransaction F × Nat),
      (∀ e ∈ entries, e.2 ∈ a.skipped → f e.1 = []) →
        ((entries.filter fun e => e.2 ∉ a.skipped).map Prod.fst).flatMap f =
          (entries.map Prod.fst).flatMap f := by
    intro entries
    induction entries with
    | nil => exact fun _ => rfl
    | cons e entries ih =>
        intro hentries
        have hrest := ih fun e' he' => hentries e' (by simp [he'])
        by_cases hmem : e.2 ∈ a.skipped
        · have hnone := hentries e (by simp) hmem
          simpa [hmem, hnone] using hrest
        · simpa [hmem] using hrest
  rw [notSkipped, hsplit _ hskipped, List.zipIdx_map_fst]

/-- What a trade that is not skipped has found. -/
structure TradeQuote (s : State F) (u : StateUpdate F) (tx : FilledTransaction F)
    (trade : Trade) (market : Market F) (effectiveShares newShares : List I64) (beta : F)
    (input : Nat) : Prop where
  market_eq : s.markets.getMarket trade.marketId = some market
  trading : market.marketState = .trading
  running : runningMarketState trade.marketId market u = .ok (effectiveShares, beta)
  moved : addAt effectiveShares trade.outcomeIndex trade.shares = .ok newShares
  input_eq : inputValue tx = .ok input

/-- The collected changes after a buy. -/
structure BuyApplied (L : Library F) (u u' : StateUpdate F) (tx : FilledTransaction F)
    (trade : Trade) (market : Market F) (effectiveShares newShares : List I64) (beta : F)
    (input : Nat) (cost : BuyCost) : Prop where
  cost_eq : ∃ texts, buyCost L texts market.tradingFee effectiveShares newShares beta = .ok cost
  limit : cost.totalCostSats + tradeMinerFeeSats ≤ trade.limitSats
  changes : addShareAccountChange u.shareAccountChanges ⟨trade.trader, trade.position⟩
    trade.shares = .ok u'.shareAccountChanges
  update_eq : u' = { u with
    pendingBuySettlements := u.pendingBuySettlements ++
      [⟨trade.marketId, trade.trader, input, cost.baseCostSats, cost.tradingFeeSats,
        L.txid tx.transaction, false⟩]
    marketUpdates := u.marketUpdates ++
      [⟨trade.marketId, trade.outcomeIndex, trade.shares, cost.totalCostSats⟩]
    shareAccountChanges := u'.shareAccountChanges }

/-- The collected changes after a sell. -/
structure SellApplied (L : Library F) (u u' : StateUpdate F) (tx : FilledTransaction F)
    (trade : Trade) (market : Market F) (effectiveShares newShares : List I64) (beta : F)
    (input : Nat) (proceeds : SellProceeds) : Prop where
  proceeds_eq : ∃ texts,
    sellProceeds L texts market.tradingFee effectiveShares newShares beta = .ok proceeds
  changes : addShareAccountChange u.shareAccountChanges ⟨trade.trader, trade.position⟩
    trade.shares = .ok u'.shareAccountChanges
  update_eq : u' = { u with
    pendingSellPayouts := u.pendingSellPayouts ++
      [⟨trade.marketId, trade.trader, proceeds.netProceedsSats, proceeds.tradingFeeSats,
        L.txid tx.transaction⟩]
    pendingSellInputChanges :=
      if input - tradeMinerFeeSats > 0 then
        u.pendingSellInputChanges ++
          [⟨trade.trader, input - tradeMinerFeeSats, L.txid tx.transaction⟩]
      else u.pendingSellInputChanges
    marketUpdates := u.marketUpdates ++
      [⟨trade.marketId, trade.outcomeIndex, trade.shares, proceeds.netProceedsSats⟩]
    shareAccountChanges := u'.shareAccountChanges }

omit [DecidableEq F] in
theorem applyBuy_eq_some {u u' : StateUpdate F} {tx : FilledTransaction F} {trade : Trade}
    {market : Market F} {effectiveShares newShares : List I64} {beta : F} {input : Nat}
    (h : applyBuy L u tx trade market effectiveShares newShares beta input = .ok (some u')) :
    ∃ cost, BuyApplied L u u' tx trade market effectiveShares newShares beta input cost := by
  simp only [applyBuy, bind_eq_ok_iff, addU64_eq_ok_iff] at h
  obtain ⟨cost, hcost, required, ⟨-, rfl⟩, h⟩ := h
  split at h
  · cases h
  · rename_i hlimit
    simp only [addTrade, bind_eq_ok_iff, Except.ok.injEq, Option.some.injEq] at h
    obtain ⟨_, ⟨changes, hchanges, rfl⟩, rfl⟩ := h
    exact ⟨cost, ⟨_, hcost⟩, by omega, hchanges, rfl⟩

omit [DecidableEq F] in
theorem applySell_eq_some {s : State F} {u u' : StateUpdate F} {tx : FilledTransaction F}
    {trade : Trade} {market : Market F} {effectiveShares newShares : List I64} {beta : F}
    {input : Nat}
    (h : applySell L s u tx trade market effectiveShares newShares beta input =
      .ok (some u')) :
    ∃ proceeds,
      SellApplied L u u' tx trade market effectiveShares newShares beta input proceeds := by
  simp only [applySell, bind_eq_ok_iff] at h
  obtain ⟨owned, -, _, -, proceeds, hproceeds, h⟩ := h
  split at h
  · cases h
  · simp only [addTrade, bind_eq_ok_iff, Except.ok.injEq, Option.some.injEq] at h
    obtain ⟨_, ⟨changes, hchanges, rfl⟩, rfl⟩ := h
    exact ⟨proceeds, ⟨_, hproceeds⟩, hchanges, rfl⟩

omit [DecidableEq F] in
theorem applyTrade_eq_some {s : State F} {u u' : StateUpdate F} {tx : FilledTransaction F}
    {trade : Trade} (h : applyTrade L s u tx trade = .ok (some u')) :
    ∃ market effectiveShares newShares beta input,
      TradeQuote s u tx trade market effectiveShares newShares beta input ∧
        ((trade.isBuy = true ∧ ∃ cost,
            BuyApplied L u u' tx trade market effectiveShares newShares beta input cost) ∨
          (trade.isBuy = false ∧ ∃ proceeds,
            SellApplied L u u' tx trade market effectiveShares newShares beta input
              proceeds)) := by
  simp only [applyTrade, bind_eq_ok_iff, okOr_eq_ok_iff, ensure_eq_ok_iff] at h
  obtain ⟨market, hmarket, _, htrading, ⟨effectiveShares, beta⟩, hrunning, newShares, hnew,
    amount, -, _, -, input, hinput, h⟩ := h
  have hquote : TradeQuote s u tx trade market effectiveShares newShares beta input :=
    ⟨hmarket, by simpa [MarketState.allowsTrading] using htrading, hrunning, hnew, hinput⟩
  refine ⟨market, effectiveShares, newShares, beta, input, hquote, ?_⟩
  split at h
  · rename_i hbuy
    exact .inl ⟨hbuy, applyBuy_eq_some h⟩
  · rename_i hbuy
    exact .inr ⟨by simpa using hbuy, applySell_eq_some h⟩

omit [DecidableEq F] in
theorem applyTrade_voteSubmissions {s : State F} {u u' : StateUpdate F}
    {tx : FilledTransaction F} {trade : Trade}
    (h : applyTrade L s u tx trade = .ok (some u')) :
    u'.voteSubmissions = u.voteSubmissions := by
  obtain ⟨_, _, _, _, _, -, ⟨-, cost, hbuy⟩ | ⟨-, proceeds, hsell⟩⟩ := applyTrade_eq_some h
  · rw [hbuy.update_eq]
  · rw [hsell.update_eq]

omit [DecidableEq F] in
theorem applySubmitBallot_framed {s : State F} {u u' : StateUpdate F}
    {tx : FilledTransaction F} {ballot : SubmitBallot F}
    (h : applySubmitBallot L s u tx ballot height = .ok u') :
    u' = { u with voteSubmissions := u'.voteSubmissions } := by
  simp only [applySubmitBallot, bind_eq_ok_iff, Except.ok.injEq] at h
  obtain ⟨timestamp, -, ⟨last, expected⟩, hfold, rfl⟩ := h
  refine foldlM_preserves
    (P := fun acc : StateUpdate F × Option Nat =>
      acc.1 = { u with voteSubmissions := acc.1.voteSubmissions })
    ?_ hfold rfl
  intro item _ acc acc' hacc hstep
  simp only [applyBallotItem, DecisionId.fromBytes_eq, ok_bind] at hstep
  split at hstep
  · obtain ⟨_, -, hstep⟩ := bind_eq_ok_iff.mp hstep
    rw [← Except.ok.inj hstep, hacc]
    rfl
  · obtain ⟨_, -, hstep⟩ := bind_eq_ok_iff.mp hstep
    rw [← Except.ok.inj hstep, hacc]
    rfl

/-- What a transaction that is not skipped can do to the state and to the collected
changes. -/
inductive Effect (L : Library F) (height : Nat) (s : State F) (u : StateUpdate F)
    (tx : FilledTransaction F) : State F → StateUpdate F → Prop where
  | plain (hdata : tx.transaction.data = none) : Effect L height s u tx s u
  | trade {u' : StateUpdate F} (trade : Trade)
      (hdata : tx.transaction.data = some (.trade trade))
      (h : applyTrade L s u tx trade = .ok (some u')) : Effect L height s u tx s u'
  | createMarket {s' : State F} {u' : StateUpdate F} (creation : MarketCreation F)
      (hdata : tx.transaction.data = some (.createMarket creation))
      (h : applyMarketCreation L s u tx creation height = .ok (s', u')) :
      Effect L height s u tx s' u'
  | claimDecision {s' : State F} (payload : ClaimDecisionPayload F)
      (hdata : tx.transaction.data = some (.claimDecision payload))
      (h : applyDecisionClaim L s tx payload height = .ok s') : Effect L height s u tx s' u
  | submitVote {u' : StateUpdate F} (vote : SubmitVote F)
      (hdata : tx.transaction.data = some (.submitVote vote))
      (h : applySubmitVote L s u tx vote height = .ok u') : Effect L height s u tx s u'
  | submitBallot {u' : StateUpdate F} (ballot : SubmitBallot F)
      (hdata : tx.transaction.data = some (.submitBallot ballot))
      (h : applySubmitBallot L s u tx ballot height = .ok u') : Effect L height s u tx s u'
  | transferReputation {s' : State F} (transfer : TransferReputation F)
      (hdata : tx.transaction.data = some (.transferReputation transfer))
      (h : applyTransferReputation s transfer height = .ok s') : Effect L height s u tx s' u
  | amplifyBeta {u' : StateUpdate F} (amplify : AmplifyBeta)
      (hdata : tx.transaction.data = some (.amplifyBeta amplify))
      (h : applyAmplifyBeta L u tx amplify = .ok u') : Effect L height s u tx s u'

theorem effect_of_applyEffect {p p' : State F × StateUpdate F} {tx : FilledTransaction F}
    (h : applyEffect L height p tx = .ok p') : Effect L height p.1 p.2 tx p'.1 p'.2 := by
  simp only [applyEffect, bind_eq_ok_iff, ensure_eq_ok_iff, Except.ok.injEq] at h
  obtain ⟨a, happly, _, hskipped, rfl⟩ := h
  unfold applyTransaction at happly
  dsimp only at happly
  cases hdata : tx.transaction.data with
  | none =>
      rw [hdata] at happly
      rw [← Except.ok.inj happly]
      exact .plain hdata
  | some data =>
      rw [hdata] at happly
      cases data with
      | trade trade =>
          obtain ⟨result, hresult, happly⟩ := bind_eq_ok_iff.mp happly
          cases result with
          | some update =>
              rw [← Except.ok.inj happly]
              exact .trade trade hdata hresult
          | none =>
              rw [← Except.ok.inj happly] at hskipped
              simp at hskipped
      | createMarket creation =>
          obtain ⟨⟨state, update⟩, hresult, happly⟩ := bind_eq_ok_iff.mp happly
          rw [← Except.ok.inj happly]
          exact .createMarket creation hdata hresult
      | claimDecision payload =>
          obtain ⟨state, hresult, happly⟩ := bind_eq_ok_iff.mp happly
          rw [← Except.ok.inj happly]
          exact .claimDecision payload hdata hresult
      | submitVote vote =>
          obtain ⟨update, hresult, happly⟩ := bind_eq_ok_iff.mp happly
          rw [← Except.ok.inj happly]
          exact .submitVote vote hdata hresult
      | submitBallot ballot =>
          obtain ⟨update, hresult, happly⟩ := bind_eq_ok_iff.mp happly
          rw [← Except.ok.inj happly]
          exact .submitBallot ballot hdata hresult
      | transferReputation transfer =>
          obtain ⟨state, hresult, happly⟩ := bind_eq_ok_iff.mp happly
          rw [← Except.ok.inj happly]
          exact .transferReputation transfer hdata hresult
      | amplifyBeta amplify =>
          obtain ⟨update, hresult, happly⟩ := bind_eq_ok_iff.mp happly
          rw [← Except.ok.inj happly]
          exact .amplifyBeta amplify hdata hresult

/-- `s'` differs from `s` in nothing but the decisions, the reputation and the
pointers of the markets to their funds. -/
def Framed (s s' : State F) : Prop :=
  s' = { s with
    decisions := s'.decisions
    reputation := s'.reputation
    reputationTransferUndo := s'.reputationTransferUndo
    markets := { s.markets with marketFundsUtxos := s'.markets.marketFundsUtxos } }

omit [F64 F] [DecidableEq F] in
theorem Framed.refl (s : State F) : Framed s s := rfl

omit [F64 F] [DecidableEq F] in
theorem Framed.trans {s s' s'' : State F} (h : Framed s s') (h' : Framed s' s'') :
    Framed s s'' := by
  have hfields := congrArg (fun r : State F => (r.tip, r.height, r.mainchainTimestamp,
    r.genesisTimestamp, r.voting, r.coins, r.peg, r.settlementUndo, r.consensusUndo,
    r.consolidationUndo, r.mintingUndo, r.skippedTxIndicesUndo)) h
  have hmarkets := congrArg (fun r : State F => (r.markets.markets, r.markets.stateIndex,
    r.markets.expiryIndex, r.markets.decisionIndex, r.markets.shareAccounts,
    r.markets.mempoolShares)) h
  simp only [Prod.mk.injEq] at hfields hmarkets
  unfold Framed at h' ⊢
  rw [h']
  simp only [State.mk.injEq, MarketsDatabase.mk.injEq]
  grind

theorem applyMarketCreation_eq_ok {s s' : State F} {u u' : StateUpdate F}
    {tx : FilledTransaction F} {creation : MarketCreation F}
    (h : applyMarketCreation L s u tx creation height = .ok (s', u')) :
    ∃ creator decisions market liquidity,
      extractCreatorAddress tx = .ok creator ∧
      creation.newClaims.foldlM (claimPayload creator (L.txid tx.transaction) height)
        s.decisions = .ok decisions ∧
      buildMarket L creation creator decisions height = .ok market ∧
      u' = { u with
        marketCreations := u.marketCreations ++
          [{ market with liquidityBaseSats := liquidity }] } ∧
      (s' = { s with decisions } ∨
        ∃ vout, s' = { s with
          decisions
          markets := s.markets.setMarketFundsUtxo market.id false
            (.regular (L.txid tx.transaction) vout) }) := by
  simp only [applyMarketCreation, bind_eq_ok_iff] at h
  obtain ⟨creator, hcreator, decisions, hdecisions, market, hmarket, h⟩ := h
  split at h
  · obtain ⟨rfl, rfl⟩ := Prod.mk.inj (Except.ok.inj h)
    exact ⟨creator, decisions, market, _, hcreator, hdecisions, hmarket, rfl, .inr ⟨_, rfl⟩⟩
  · obtain ⟨rfl, rfl⟩ := Prod.mk.inj (Except.ok.inj h)
    exact ⟨creator, decisions, market, market.liquidityBaseSats, hcreator, hdecisions,
      hmarket, rfl, .inl rfl⟩

theorem Effect.framed {s s' : State F} {u u' : StateUpdate F} {tx : FilledTransaction F}
    (h : Effect L height s u tx s' u') : Framed s s' := by
  cases h with
  | plain _ | trade _ _ _ | submitVote _ _ _ | submitBallot _ _ _ | amplifyBeta _ _ _ =>
      exact Framed.refl s
  | createMarket creation _ h =>
      obtain ⟨_, _, _, _, _, _, _, _, rfl | ⟨_, rfl⟩⟩ := applyMarketCreation_eq_ok h <;> rfl
  | claimDecision payload _ h =>
      simp only [applyDecisionClaim, bind_eq_ok_iff, Except.ok.injEq] at h
      obtain ⟨_, _, _, _, rfl⟩ := h
      rfl
  | transferReputation transfer _ h =>
      simp only [applyTransferReputation, bind_eq_ok_iff, Except.ok.injEq] at h
      obtain ⟨_, _, rfl⟩ := h
      rfl

theorem effects_preserve {P : State F → StateUpdate F → Prop}
    {txs : List (FilledTransaction F)} {s s' : State F} {u u' : StateUpdate F}
    (hstep : ∀ tx ∈ txs, ∀ s u s' u', P s u → Effect L height s u tx s' u' → P s' u')
    (h : txs.foldlM (applyEffect L height) (s, u) = .ok (s', u')) (hs : P s u) :
    P s' u' :=
  foldlM_preserves (P := fun p => P p.1 p.2)
    (fun tx htx _ _ hp hrun => hstep tx htx _ _ _ _ hp (effect_of_applyEffect hrun)) h hs

theorem framed_of_applyTransactions {s : State F} {filledTxs : List (FilledTransaction F)}
    {a : Applied F} (h : applyTransactions L s filledTxs height = .ok a) :
    Framed s a.state :=
  effects_preserve (P := fun s' _ => Framed s s')
    (fun _ _ _ _ _ _ hs heffect => hs.trans heffect.framed)
    (effects_of_applyTransactions h) (Framed.refl s)

end Truthcoin.ApplySteps
