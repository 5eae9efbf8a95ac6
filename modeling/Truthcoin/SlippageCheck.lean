import Truthcoin.ApplySteps
import Truthcoin.BlockTemplate

/-!
# The check of a template's trades

A template checks its trades against shares that it adds up itself. The block that holds the
transactions applies each trade against the changes it has collected. Both see the same shares,
but only the block counts the miner fee of a buy, the amplifications, the sells that came before
a sell, and the state of the market.
-/

namespace Truthcoin.SlippageCheck

open Truthcoin.Types Truthcoin.Table Truthcoin.Fallible Truthcoin.Arithmetic
open Truthcoin.Markets Truthcoin.Blocks Truthcoin.Trading Truthcoin.Validation
open Truthcoin.Apply Truthcoin.ApplySteps Truthcoin.Mempool Truthcoin.BlockTemplate

variable {F : Type}

def tradeOf (tx : FilledTransaction F) : Option Trade :=
  match tx.transaction.data with
  | some (.trade trade) => some trade
  | _ => none

def amplificationOf (tx : FilledTransaction F) : Option AmplifyBeta :=
  match tx.transaction.data with
  | some (.amplifyBeta amplify) => some amplify
  | _ => none

/-- The trades in one market, in order. -/
def tradesIn (marketId : MarketId) (txs : List (FilledTransaction F)) : List Trade :=
  (txs.filterMap tradeOf).filter fun trade => trade.marketId = marketId

/-- What the amplifications of one market add to its liquidity. -/
def amplified (marketId : MarketId) (txs : List (FilledTransaction F)) : List Nat :=
  ((txs.filterMap amplificationOf).filter fun amplify => amplify.marketId = marketId).map
    AmplifyBeta.amount

/-- The shares of a market after the trades in it. -/
def sharesAfter (marketId : MarketId) (market : Market F) (txs : List (FilledTransaction F)) :
    Except Error (List I64) :=
  (tradesIn marketId txs).foldlM (fun shares trade =>
    addAt shares trade.outcomeIndex trade.shares) market.shares

/-- The change of a position by the trades of its owner. -/
def positionChange (key : ShareKey) (txs : List (FilledTransaction F)) : Int :=
  (((txs.filterMap tradeOf).filter fun trade =>
    (⟨trade.trader, trade.position⟩ : ShareKey) = key).map fun trade => trade.shares.val).sum

/-- Beta of a market after the amplifications of it. -/
def betaAfter [F64 F] (marketId : MarketId) (market : Market F) (shares : List I64)
    (txs : List (FilledTransaction F)) : F :=
  deriveBetaFromLiquidity (saturatingAdd market.liquidityBaseSats (amplified marketId txs).sum)
    shares.length

section

variable {marketId : MarketId} {market : Market F} {txs : List (FilledTransaction F)}
  {tx : FilledTransaction F} {key : ShareKey}

theorem tradesIn_append_of_none (h : tradeOf tx = none) :
    tradesIn marketId (txs ++ [tx]) = tradesIn marketId txs := by
  rw [tradesIn, List.filterMap_append, List.filterMap_cons_none h, List.filterMap_nil,
    List.append_nil, tradesIn]

theorem tradesIn_append_of_some {trade : Trade} (h : tradeOf tx = some trade) :
    tradesIn marketId (txs ++ [tx]) =
      tradesIn marketId txs ++ [trade].filter fun trade => trade.marketId = marketId := by
  rw [tradesIn, List.filterMap_append, List.filterMap_cons_some h, List.filterMap_nil,
    List.filter_append, tradesIn]

theorem positionChange_append_of_none (h : tradeOf tx = none) :
    positionChange key (txs ++ [tx]) = positionChange key txs := by
  rw [positionChange, List.filterMap_append, List.filterMap_cons_none h, List.filterMap_nil,
    List.append_nil, positionChange]

theorem positionChange_append_of_some {trade : Trade} (h : tradeOf tx = some trade) :
    positionChange key (txs ++ [tx]) = positionChange key txs +
      if (⟨trade.trader, trade.position⟩ : ShareKey) = key then trade.shares.val else 0 := by
  rw [positionChange, List.filterMap_append, List.filterMap_cons_some h, List.filterMap_nil,
    List.filter_append, List.map_append, List.sum_append, positionChange]
  by_cases hkey : (⟨trade.trader, trade.position⟩ : ShareKey) = key
  · simp [hkey]
  · simp [hkey]

theorem amplified_append_of_none (h : amplificationOf tx = none) :
    amplified marketId (txs ++ [tx]) = amplified marketId txs := by
  rw [amplified, List.filterMap_append, List.filterMap_cons_none h, List.filterMap_nil,
    List.append_nil, amplified]

theorem amplified_append_of_some {amplify : AmplifyBeta} (h : amplificationOf tx = some amplify) :
    amplified marketId (txs ++ [tx]) = amplified marketId txs ++
      if amplify.marketId = marketId then [amplify.amount] else [] := by
  rw [amplified, List.filterMap_append, List.filterMap_cons_some h, List.filterMap_nil,
    List.filter_append, List.map_append, amplified]
  by_cases hmarket : amplify.marketId = marketId
  · simp [hmarket]
  · simp [hmarket]

theorem sharesAfter_append_of_none (h : tradeOf tx = none) :
    sharesAfter marketId market (txs ++ [tx]) = sharesAfter marketId market txs := by
  rw [sharesAfter, tradesIn_append_of_none h, sharesAfter]

theorem sharesAfter_append_of_some {trade : Trade} (h : tradeOf tx = some trade) :
    sharesAfter marketId market (txs ++ [tx]) =
      sharesAfter marketId market txs >>= fun shares =>
        if trade.marketId = marketId then addAt shares trade.outcomeIndex trade.shares
        else .ok shares := by
  rw [sharesAfter, tradesIn_append_of_some h, List.foldlM_append, ← sharesAfter]
  apply congrArg (sharesAfter marketId market txs >>= ·)
  funext shares
  by_cases hmarket : trade.marketId = marketId
  · rw [if_pos hmarket, List.filter_singleton, decide_eq_true hmarket]
    exact bind_pure _
  · rw [if_neg hmarket, List.filter_singleton, decide_eq_false hmarket]
    rfl

end

section

variable [F64 F] {L : Library F} {s : State F} {acc acc' template : Template F} {p : MemPool F}
  {number : Nat}

/-- The transactions of a template. -/
def chosen (template : Template F) : List (FilledTransaction F) :=
  template.transactions.map AuthorizedFilled.transaction

/-- A trade that the template has checked: its market exists and takes its shares, after the
trades that came before. -/
def Checked (s : State F) (before : List (FilledTransaction F)) (trade : Trade) : Prop :=
  ∃ market shares newShares, s.markets.getMarket trade.marketId = some market ∧
    sharesAfter trade.marketId market before = .ok shares ∧
    addAt shares trade.outcomeIndex trade.shares = .ok newShares

/-- The template has checked its trades, and its cumulative shares are those after all of
them. -/
structure Tracks (s : State F) (acc : Template F) : Prop where
  checked : ∀ before tx after trade, chosen acc = before ++ tx :: after →
    tradeOf tx = some trade → Checked s before trade
  shares : ∀ marketId market, s.markets.getMarket marketId = some market →
    sharesAfter marketId market (chosen acc) =
      .ok (acc.cumulativeStates[marketId]?.getD market.shares)

omit [F64 F] in
theorem checked_append {txs : List (FilledTransaction F)} {tx : FilledTransaction F}
    (h : ∀ before tx after trade, txs = before ++ tx :: after → tradeOf tx = some trade →
      Checked s before trade)
    (hlast : ∀ trade, tradeOf tx = some trade → Checked s txs trade) :
    ∀ before tx' after trade, txs ++ [tx] = before ++ tx' :: after → tradeOf tx' = some trade →
      Checked s before trade := by
  intro before tx' after trade heq htrade
  rcases List.eq_nil_or_concat' after with rfl | ⟨after, last, rfl⟩
  · obtain ⟨rfl, hsingle⟩ := List.append_inj' heq rfl
    obtain rfl := (List.cons.inj hsingle).1
    exact hlast trade htrade
  · rw [← List.cons_append, ← List.append_assoc] at heq
    obtain ⟨rfl, -⟩ := List.append_inj' heq rfl
    exact h before tx' after trade rfl htrade

theorem Tracks.checkTradeSlippage {filled : FilledTransaction F}
    {cumulativeStates : Table MarketId (List I64)} (h : Tracks s acc)
    (hcheck : checkTradeSlippage L s filled acc.cumulativeStates = .ok (some cumulativeStates)) :
    (∀ trade, tradeOf filled = some trade → Checked s (chosen acc) trade) ∧
      ∀ marketId market, s.markets.getMarket marketId = some market →
        sharesAfter marketId market (chosen acc ++ [filled]) =
          .ok (cumulativeStates[marketId]?.getD market.shares) := by
  unfold BlockTemplate.checkTradeSlippage at hcheck
  split at hcheck
  · rename_i trade hdata
    have htrade : tradeOf filled = some trade := by
      rw [tradeOf, hdata]
    split at hcheck
    · cases hcheck
    · rename_i market hmarket
      split at hcheck
      · cases hcheck
      · obtain ⟨newShares, hnew, hcheck⟩ := bind_eq_ok_iff.mp hcheck
        obtain ⟨within, -, hcheck⟩ := bind_eq_ok_iff.mp hcheck
        have hshares := h.shares trade.marketId market hmarket
        split at hcheck
        · obtain rfl := Option.some.inj (Except.ok.inj hcheck)
          constructor
          · intro trade' htrade'
            obtain rfl := Option.some.inj (htrade.symm.trans htrade')
            exact ⟨market, _, newShares, hmarket, hshares, hnew⟩
          · intro marketId market' hmarket'
            rw [sharesAfter_append_of_some htrade, h.shares marketId market' hmarket', ok_bind]
            split
            · rename_i heq
              subst heq
              obtain rfl := Option.some.inj (hmarket.symm.trans hmarket')
              rw [hnew, lookup_insert, if_pos rfl, Option.getD_some]
            · rename_i hne
              rw [lookup_insert, if_neg (Ne.symm hne)]
        · cases hcheck
  · rename_i hdata
    have hnone : tradeOf filled = none := by
      unfold tradeOf
      split
      · rename_i trade hsome
        exact absurd hsome (hdata trade)
      · rfl
    obtain rfl := Option.some.inj (Except.ok.inj hcheck)
    constructor
    · intro trade htrade
      rw [hnone] at htrade
      cases htrade
    · intro marketId market hmarket
      rw [sharesAfter_append_of_none hnone]
      exact h.shares marketId market hmarket

theorem Tracks.chooseTransaction {tx : AuthorizedTransaction F} (h : Tracks s acc)
    (hchoose : chooseTransaction L s acc tx = .ok acc') : Tracks s acc' := by
  have hsame (pool : MemPool F) (heq : Except.ok { acc with pool } = (.ok acc' : Except Error _)) :
      Tracks s acc' := by
    obtain rfl := Except.ok.inj heq
    exact ⟨h.checked, h.shares⟩
  unfold BlockTemplate.chooseTransaction at hchoose
  split at hchoose
  · exact hsame _ hchoose
  · split at hchoose
    · exact hsame _ hchoose
    · rename_i filled hfilled
      split at hchoose
      · rename_i cumulativeStates hcheck
        obtain ⟨hlast, hshares⟩ := h.checkTradeSlippage hcheck
        simp only [Template.add, bind_eq_ok_iff, okOr_eq_ok_iff] at hchoose
        obtain ⟨fee, -, total, -, hadd⟩ := hchoose
        obtain rfl := Except.ok.inj hadd
        let row : AuthorizedFilled F := ⟨filled, tx.authorizations, tx.actorProof⟩
        have hchosen : (acc.transactions ++ [row]).map AuthorizedFilled.transaction =
            chosen acc ++ [filled] := List.map_append
        constructor
        · unfold chosen
          rw [hchosen]
          exact checked_append h.checked hlast
        · unfold chosen
          rw [hchosen]
          exact hshares
      · exact hsame acc.pool hchoose
      · cases hchoose
      · exact hsame acc.pool hchoose

theorem tracks_of_getTransactions (h : getTransactions L s p number = .ok template) :
    Tracks s template := by
  refine foldlM_preserves (P := Tracks s) (fun tx _ acc acc' hacc hstep =>
    hacc.chooseTransaction hstep) h ⟨?_, ?_⟩
  · intro before tx after trade hnil
    exact absurd hnil (List.append_ne_nil_of_right_ne_nil _ (List.cons_ne_nil _ _)).symm
  · intro marketId market _
    rfl

end

/-- The collected changes are those of the trades and the amplifications so far. -/
structure Collected (before : List (FilledTransaction F)) (u : StateUpdate F) : Prop where
  updates : ∀ marketId, (u.updatesOf marketId).map (fun x => (x.outcomeIndex, x.delta)) =
    (tradesIn marketId before).map fun trade => (trade.outcomeIndex, trade.shares)
  amplifications : ∀ marketId, u.amplifications marketId = amplified marketId before
  changes : ∀ key, (u.shareAccountChanges[key]?.getD I64.zero).val = positionChange key before

section

variable {before : List (FilledTransaction F)} {u u' : StateUpdate F} {tx : FilledTransaction F}

theorem collected_nil : Collected ([] : List (FilledTransaction F)) (StateUpdate.new F) := by
  constructor
  · exact fun _ => rfl
  · exact fun _ => rfl
  · intro key
    rw [StateUpdate.new, Std.ExtTreeMap.getElem?_empty]
    rfl

theorem changes_of_addShareAccountChange {changes changes' : ShareChanges} {key : ShareKey}
    {delta : I64} (h : addShareAccountChange changes key delta = .ok changes') (k : ShareKey) :
    (changes'[k]?.getD I64.zero).val =
      (changes[k]?.getD I64.zero).val + if key = k then delta.val else 0 := by
  simp only [addShareAccountChange, bind_eq_ok_iff, Except.ok.injEq] at h
  obtain ⟨net, hnet, rfl⟩ := h
  have hsum := addI64_eq_ok_iff.mp hnet
  rw [lookup_insert]
  by_cases hk : k = key
  · rw [if_pos hk, if_pos hk.symm, Option.getD_some, hsum, hk]
  · rw [if_neg hk, if_neg (Ne.symm hk), add_zero]

theorem Collected.congr (h : Collected before u) (htrade : tradeOf tx = none)
    (hamplify : amplificationOf tx = none) (hupdates : u'.marketUpdates = u.marketUpdates)
    (hsettlements : u'.pendingBuySettlements = u.pendingBuySettlements)
    (hchanges : u'.shareAccountChanges = u.shareAccountChanges) :
    Collected (before ++ [tx]) u' := by
  constructor
  · intro marketId
    rw [tradesIn_append_of_none htrade, StateUpdate.updatesOf, hupdates]
    exact h.updates marketId
  · intro marketId
    rw [amplified_append_of_none hamplify, StateUpdate.amplifications, hsettlements]
    exact h.amplifications marketId
  · intro key
    rw [positionChange_append_of_none htrade, hchanges]
    exact h.changes key

theorem Collected.trade (h : Collected before u) {trade : Trade} {volumeSats : Nat}
    (htrade : tradeOf tx = some trade) (hamplify : amplificationOf tx = none)
    (hupdates : u'.marketUpdates = u.marketUpdates ++
      [⟨trade.marketId, trade.outcomeIndex, trade.shares, volumeSats⟩])
    (hsettlements : ∀ marketId, u'.amplifications marketId = u.amplifications marketId)
    (hchanges : addShareAccountChange u.shareAccountChanges ⟨trade.trader, trade.position⟩
      trade.shares = .ok u'.shareAccountChanges) :
    Collected (before ++ [tx]) u' := by
  constructor
  · intro marketId
    rw [tradesIn_append_of_some htrade, StateUpdate.updatesOf, hupdates, List.filter_append,
      List.map_append, List.map_append, ← StateUpdate.updatesOf, h.updates marketId]
    by_cases hmarket : trade.marketId = marketId
    · simp [hmarket]
    · simp [hmarket]
  · intro marketId
    rw [amplified_append_of_none hamplify, hsettlements]
    exact h.amplifications marketId
  · intro key
    rw [positionChange_append_of_some htrade, changes_of_addShareAccountChange hchanges,
      h.changes key]

theorem Collected.step [F64 F] [DecidableEq F] {L : Library F} {height : Nat} {s s' : State F}
    (h : Collected before u) (heffect : Effect L height s u tx s' u') :
    Collected (before ++ [tx]) u' := by
  cases heffect with
  | plain hdata =>
      exact h.congr (by rw [tradeOf, hdata]) (by rw [amplificationOf, hdata]) rfl rfl rfl
  | claimDecision payload hdata _ =>
      exact h.congr (by rw [tradeOf, hdata]) (by rw [amplificationOf, hdata]) rfl rfl rfl
  | transferReputation transfer hdata _ =>
      exact h.congr (by rw [tradeOf, hdata]) (by rw [amplificationOf, hdata]) rfl rfl rfl
  | createMarket creation hdata happly =>
      obtain ⟨_, _, _, _, -, -, -, rfl, -⟩ := applyMarketCreation_eq_ok happly
      exact h.congr (by rw [tradeOf, hdata]) (by rw [amplificationOf, hdata]) rfl rfl rfl
  | submitVote vote hdata happly =>
      simp only [applySubmitVote, bind_eq_ok_iff, Except.ok.injEq] at happly
      obtain ⟨_, -, _, -, _, -, rfl⟩ := happly
      exact h.congr (by rw [tradeOf, hdata]) (by rw [amplificationOf, hdata]) rfl rfl rfl
  | submitBallot ballot hdata happly =>
      rw [applySubmitBallot_framed happly]
      exact h.congr (by rw [tradeOf, hdata]) (by rw [amplificationOf, hdata]) rfl rfl rfl
  | amplifyBeta amplify hdata happly =>
      simp only [applyAmplifyBeta, bind_eq_ok_iff, Except.ok.injEq] at happly
      obtain ⟨input, -, rfl⟩ := happly
      have htrade : tradeOf tx = none := by rw [tradeOf, hdata]
      have hamplify : amplificationOf tx = some amplify := by rw [amplificationOf, hdata]
      constructor
      · intro marketId
        rw [tradesIn_append_of_none htrade]
        exact h.updates marketId
      · intro marketId
        rw [amplified_append_of_some hamplify, ← h.amplifications marketId,
          StateUpdate.amplifications, List.filter_append, List.map_append,
          ← StateUpdate.amplifications]
        by_cases hmarket : amplify.marketId = marketId
        · simp [hmarket]
        · simp [hmarket]
      · intro key
        rw [positionChange_append_of_none htrade]
        exact h.changes key
  | trade trade hdata happly =>
      have htrade : tradeOf tx = some trade := by rw [tradeOf, hdata]
      have hamplify : amplificationOf tx = none := by rw [amplificationOf, hdata]
      obtain ⟨_, _, _, _, _, -, ⟨-, cost, hbuy⟩ | ⟨-, proceeds, hsell⟩⟩ :=
        applyTrade_eq_some happly
      · refine h.trade htrade hamplify (by rw [hbuy.update_eq]) ?_ hbuy.changes
        intro marketId
        rw [hbuy.update_eq, StateUpdate.amplifications, List.filter_append, List.map_append]
        simp [StateUpdate.amplifications]
      · refine h.trade htrade hamplify (by rw [hsell.update_eq]) ?_ hsell.changes
        intro marketId
        rw [hsell.update_eq]
        rfl

end

/-- A number is an `i64`. -/
def InI64 (n : Int) : Prop := i64Min ≤ n ∧ n ≤ i64Max

section

variable [F64 F] (L : Library F)

/-- The cost of a buy and the miner fee are within its limit. -/
def BuyFits (trade : Trade) (market : Market F) (shares newShares : List I64) (beta : F) : Prop :=
  ∃ texts cost, buyCost L texts market.tradingFee shares newShares beta = .ok cost ∧
    cost.totalCostSats + tradeMinerFeeSats ≤ min trade.limitSats amountMax

/-- The seller owns the shares of a sell, and its proceeds reach its limit. -/
def SellFits (trade : Trade) (market : Market F) (shares newShares : List I64) (beta : F)
    (owned : Int) : Prop :=
  InI64 owned ∧ (asI64 trade.sharesAbs).val ≤ owned ∧
    ∃ texts proceeds, sellProceeds L texts market.tradingFee shares newShares beta = .ok proceeds ∧
      trade.limitSats ≤ proceeds.netProceedsSats

/-- What the check of the template leaves out. Its shares are right, but it knows neither the
state of the market nor the amplifications of the block, compares a buy without the miner fee,
and compares a sell with the shares that the seller owns before the block. -/
structure FitsBlock (s : State F) (before : List (FilledTransaction F)) (tx : FilledTransaction F)
    (trade : Trade) (market : Market F) (shares newShares : List I64) : Prop where
  trading : market.marketState.allowsTrading = true
  positive : ∀ amount, newShares[trade.outcomeIndex]? = some amount → 0 ≤ amount.val
  input : tx.spentBitcoinValue.isSome = true
  liquidity : (amplified trade.marketId before).sum ≤ amountMax
  position : InI64 (positionChange ⟨trade.trader, trade.position⟩ before + trade.shares.val)
  buy : trade.isBuy = true →
    BuyFits L trade market shares newShares (betaAfter trade.marketId market shares before)
  sell : trade.isBuy = false →
    SellFits L trade market shares newShares (betaAfter trade.marketId market shares before)
      ((s.markets.ownedShares trade.trader trade.position).val +
        positionChange ⟨trade.trader, trade.position⟩ before)

end

section

variable [F64 F] {L : Library F} {s : State F} {u : StateUpdate F} {tx : FilledTransaction F}
  {trade : Trade} {market : Market F} {shares newShares : List I64} {beta : F} {input : Nat}

omit [F64 F] in
theorem exists_toI64_iff {n : Int} : (∃ a, toI64 n = .ok a) ↔ InI64 n := by
  constructor
  · rintro ⟨a, ha⟩
    rw [InI64, ← toI64_eq_ok_iff.mp ha]
    exact a.property
  · intro h
    exact ⟨⟨n, h⟩, toI64_eq_ok_iff.mpr rfl⟩

omit [F64 F] in
theorem exists_addShareAccountChange_iff {changes : ShareChanges} {key : ShareKey} {delta : I64} :
    (∃ changes', addShareAccountChange changes key delta = .ok changes') ↔
      InI64 ((changes[key]?.getD I64.zero).val + delta.val) := by
  rw [← exists_toI64_iff]
  simp only [addShareAccountChange, bind_eq_ok_iff, Except.ok.injEq, addI64]
  constructor
  · rintro ⟨_, net, hnet, -⟩
    exact ⟨net, hnet⟩
  · rintro ⟨net, hnet⟩
    exact ⟨_, net, hnet, rfl⟩

omit [F64 F] in
theorem exists_addTrade_iff (u : StateUpdate F) (volumeSats : Nat) :
    (∃ u', addTrade u trade volumeSats = .ok u') ↔
      InI64 ((u.shareAccountChanges[(⟨trade.trader, trade.position⟩ : ShareKey)]?.getD
        I64.zero).val + trade.shares.val) := by
  rw [← exists_addShareAccountChange_iff]
  simp only [addTrade, bind_eq_ok_iff, Except.ok.injEq]
  constructor
  · rintro ⟨_, changes, hchanges, -⟩
    exact ⟨changes, hchanges⟩
  · rintro ⟨changes, hchanges⟩
    exact ⟨_, changes, hchanges, rfl⟩

theorem buyCost_texts {texts texts' : CostTexts} {fee : F} {cost : BuyCost}
    (h : buyCost L texts fee shares newShares beta = .ok cost) :
    buyCost L texts' fee shares newShares beta = .ok cost := by
  simp only [buyCost, calculateUpdateCost, bind_eq_ok_iff, okOr_eq_ok_iff,
    mapError_eq_ok_iff] at h ⊢
  exact h

theorem sellProceeds_texts {texts texts' : CostTexts} {fee : F} {proceeds : SellProceeds}
    (h : sellProceeds L texts fee shares newShares beta = .ok proceeds) :
    sellProceeds L texts' fee shares newShares beta = .ok proceeds := by
  simp only [sellProceeds, calculateUpdateCost, bind_eq_ok_iff, okOr_eq_ok_iff,
    mapError_eq_ok_iff] at h ⊢
  exact h

theorem applyBuy_some_iff :
    (∃ u', applyBuy L u tx trade market shares newShares beta input = .ok (some u')) ↔
      BuyFits L trade market shares newShares beta ∧
        InI64 ((u.shareAccountChanges[(⟨trade.trader, trade.position⟩ : ShareKey)]?.getD
          I64.zero).val + trade.shares.val) := by
  simp only [applyBuy, bind_eq_ok_iff, addU64_eq_ok_iff, BuyFits]
  constructor
  · rintro ⟨u', cost, hcost, required, ⟨hmax, rfl⟩, h⟩
    split at h
    · cases h
    · rename_i hlimit
      obtain ⟨u'', hadd, -⟩ := bind_eq_ok_iff.mp h
      have hposition := (exists_addTrade_iff _ _).mp ⟨u'', hadd⟩
      exact ⟨⟨_, cost, hcost, le_min (Nat.le_of_not_lt hlimit) hmax⟩, hposition⟩
  · rintro ⟨⟨texts, cost, hcost, hfits⟩, hposition⟩
    obtain ⟨hlimit, hmax⟩ := le_min_iff.mp hfits
    let settled : StateUpdate F := { u with
      pendingBuySettlements := u.pendingBuySettlements ++
        [⟨trade.marketId, trade.trader, input, cost.baseCostSats, cost.tradingFeeSats,
          L.txid tx.transaction, false⟩] }
    obtain ⟨u', hu'⟩ := (exists_addTrade_iff settled cost.totalCostSats).mpr hposition
    refine ⟨u', cost, buyCost_texts hcost, _, ⟨hmax, rfl⟩, ?_⟩
    rw [if_neg (Nat.not_lt.mpr hlimit)]
    exact bind_eq_ok_iff.mpr ⟨u', hu', rfl⟩

theorem applySell_some_iff {owned : Int}
    (howned : owned = (s.markets.ownedShares trade.trader trade.position).val +
      (u.shareAccountChanges[(⟨trade.trader, trade.position⟩ : ShareKey)]?.getD I64.zero).val) :
    (∃ u', applySell L s u tx trade market shares newShares beta input = .ok (some u')) ↔
      SellFits L trade market shares newShares beta owned ∧
        InI64 ((u.shareAccountChanges[(⟨trade.trader, trade.position⟩ : ShareKey)]?.getD
          I64.zero).val + trade.shares.val) := by
  simp only [applySell, bind_eq_ok_iff, ensure_eq_ok_iff, addI64_eq_ok_iff, SellFits]
  constructor
  · rintro ⟨u', effective, heffective, _, hshares, proceeds, hproceeds, h⟩
    rw [← howned] at heffective
    rw [heffective] at hshares
    have hrange : InI64 owned := heffective ▸ effective.property
    split at h
    · cases h
    · rename_i hlimit
      obtain ⟨u'', hadd, -⟩ := bind_eq_ok_iff.mp h
      have hposition := (exists_addTrade_iff _ _).mp ⟨u'', hadd⟩
      exact ⟨⟨hrange, hshares, _, proceeds, hproceeds, Nat.le_of_not_lt hlimit⟩, hposition⟩
  · rintro ⟨⟨hrange, hshares, texts, proceeds, hproceeds, hlimit⟩, hposition⟩
    let settled : StateUpdate F := { u with
      pendingSellPayouts := u.pendingSellPayouts ++
        [⟨trade.marketId, trade.trader, proceeds.netProceedsSats, proceeds.tradingFeeSats,
          L.txid tx.transaction⟩]
      pendingSellInputChanges :=
        if input - tradeMinerFeeSats > 0 then
          u.pendingSellInputChanges ++
            [⟨trade.trader, input - tradeMinerFeeSats, L.txid tx.transaction⟩]
        else u.pendingSellInputChanges }
    obtain ⟨u', hu'⟩ := (exists_addTrade_iff settled proceeds.netProceedsSats).mpr hposition
    refine ⟨u', ⟨owned, hrange⟩, howned, (), hshares, proceeds, sellProceeds_texts hproceeds, ?_⟩
    rw [if_neg (Nat.not_lt.mpr hlimit)]
    exact bind_eq_ok_iff.mpr ⟨u', hu', rfl⟩

variable (input) in
theorem buy_or_sell_some_iff {owned : Int}
    (howned : owned = (s.markets.ownedShares trade.trader trade.position).val +
      (u.shareAccountChanges[(⟨trade.trader, trade.position⟩ : ShareKey)]?.getD I64.zero).val) :
    (∃ u', (if trade.isBuy then applyBuy L u tx trade market shares newShares beta input
        else applySell L s u tx trade market shares newShares beta input) = .ok (some u')) ↔
      InI64 ((u.shareAccountChanges[(⟨trade.trader, trade.position⟩ : ShareKey)]?.getD
        I64.zero).val + trade.shares.val) ∧
      (trade.isBuy = true → BuyFits L trade market shares newShares beta) ∧
      (trade.isBuy = false → SellFits L trade market shares newShares beta owned) := by
  cases hbuy : trade.isBuy with
  | true =>
      rw [if_pos rfl, applyBuy_some_iff, and_comm]
      apply and_congr_right
      intro _
      exact ⟨fun hfits => ⟨fun _ => hfits, fun hsell => absurd hsell.symm Bool.false_ne_true⟩,
        fun h => h.1 rfl⟩
  | false =>
      rw [if_neg Bool.false_ne_true, applySell_some_iff howned, and_comm]
      apply and_congr_right
      intro _
      exact ⟨fun hfits => ⟨fun hbuys => absurd hbuys Bool.false_ne_true, fun _ => hfits⟩,
        fun h => h.2 rfl⟩

omit [F64 F] in
theorem runningShares_eq {marketId : MarketId} {before : List (FilledTransaction F)}
    (h : Collected before u) (hshares : sharesAfter marketId market before = .ok shares) :
    (u.updatesOf marketId).foldlM
      (fun shares update => addAt shares update.outcomeIndex update.delta) market.shares =
        .ok shares := by
  let move (shares : List I64) (p : Nat × I64) : Except Error (List I64) := addAt shares p.1 p.2
  calc (u.updatesOf marketId).foldlM (fun shares update =>
        addAt shares update.outcomeIndex update.delta) market.shares
      = ((u.updatesOf marketId).map fun x => (x.outcomeIndex, x.delta)).foldlM move
          market.shares := by rw [List.foldlM_map]
    _ = ((tradesIn marketId before).map fun trade =>
          (trade.outcomeIndex, trade.shares)).foldlM move market.shares := by
        rw [h.updates marketId]
    _ = sharesAfter marketId market before := by rw [List.foldlM_map]; rfl
    _ = .ok shares := hshares

theorem runningMarketState_eq_ok_iff {before : List (FilledTransaction F)}
    (h : Collected before u) (hshares : sharesAfter trade.marketId market before = .ok shares)
    {found : List I64 × F} :
    runningMarketState trade.marketId market u = .ok found ↔
      (amplified trade.marketId before).sum ≤ amountMax ∧
        found = (shares, betaAfter trade.marketId market shares before) := by
  simp only [runningMarketState, runningShares_eq h hshares, ok_bind, h.amplifications,
    bind_eq_ok_iff, Except.ok.injEq]
  constructor
  · rintro ⟨total, htotal, rfl⟩
    obtain ⟨hle, rfl⟩ := sumU64_eq_ok_iff.mp htotal
    exact ⟨hle, rfl⟩
  · rintro ⟨hle, rfl⟩
    exact ⟨_, sumU64_eq_ok_iff.mpr ⟨hle, rfl⟩, rfl⟩

/-- A trade that the template has checked is applied if and only if what the check leaves out
holds too. -/
theorem applyTrade_some_iff [DecidableEq F] {s' : State F} {before : List (FilledTransaction F)}
    (hframed : Framed s s') (h : Collected before u)
    (hmarket : s.markets.getMarket trade.marketId = some market)
    (hshares : sharesAfter trade.marketId market before = .ok shares)
    (hnew : addAt shares trade.outcomeIndex trade.shares = .ok newShares) :
    (∃ u', applyTrade L s' u tx trade = .ok (some u')) ↔
      FitsBlock L s before tx trade market shares newShares := by
  have hmarket' : s'.markets.getMarket trade.marketId = some market := by
    rw [hframed]
    exact hmarket
  have hchange := h.changes ⟨trade.trader, trade.position⟩
  have howned : (s.markets.ownedShares trade.trader trade.position).val +
        positionChange ⟨trade.trader, trade.position⟩ before =
      (s'.markets.ownedShares trade.trader trade.position).val +
        (u.shareAccountChanges[(⟨trade.trader, trade.position⟩ : ShareKey)]?.getD
          I64.zero).val := by
    rw [hchange, hframed]
    rfl
  obtain ⟨amount, hamount⟩ : ∃ amount, newShares[trade.outcomeIndex]? = some amount := by
    obtain ⟨x, y, hx, -, rfl⟩ := addAt_eq_ok_iff.mp hnew
    exact ⟨y, List.getElem?_set_self (List.getElem?_eq_some_iff.mp hx).1⟩
  simp only [applyTrade, bind_eq_ok_iff, okOr_eq_ok_iff, ensure_eq_ok_iff, index_eq_ok_iff,
    inputValue]
  constructor
  · rintro ⟨u', market', hfound, _, htrading, p, hrunning, new, hnew', amount', hamount', _,
      hpositive, input, hinput, happly⟩
    obtain rfl := Option.some.inj (hmarket'.symm.trans hfound)
    obtain ⟨hliquidity, rfl⟩ := (runningMarketState_eq_ok_iff h hshares).mp hrunning
    obtain rfl := Except.ok.inj (hnew.symm.trans hnew')
    obtain rfl := Option.some.inj (hamount.symm.trans hamount')
    obtain ⟨hposition, hbuy, hsell⟩ := (buy_or_sell_some_iff input howned).mp ⟨u', happly⟩
    rw [hchange] at hposition
    refine ⟨htrading, ?_, Option.isSome_of_mem hinput, hliquidity, hposition, hbuy, hsell⟩
    intro other hother
    obtain rfl := Option.some.inj (hamount.symm.trans hother)
    exact hpositive
  · intro hfits
    obtain ⟨input, hinput⟩ := Option.isSome_iff_exists.mp hfits.input
    have hposition := hfits.position
    rw [← hchange] at hposition
    obtain ⟨u', hu'⟩ :=
      (buy_or_sell_some_iff input howned).mpr ⟨hposition, hfits.buy, hfits.sell⟩
    exact ⟨u', market, hmarket', (), hfits.trading, _,
      (runningMarketState_eq_ok_iff h hshares).mpr ⟨hfits.liquidity, rfl⟩, newShares, hnew,
      amount, hamount, (), hfits.positive amount hamount, input, hinput, hu'⟩

end

section

variable [F64 F] [DecidableEq F] (L : Library F) (s : State F) (height : Nat)

/-- Every trade whose turn comes is applied, when the transactions are applied in order. -/
def TradesApplied (txs : List (FilledTransaction F)) : Prop :=
  ∀ before tx after trade a, txs = before ++ tx :: after → tradeOf tx = some trade →
    applyTransactions L s before height = .ok a →
    ∃ u', applyTrade L a.state a.update tx trade = .ok (some u')

/-- Every trade whose turn comes fits in the block. -/
def TradesFit (txs : List (FilledTransaction F)) : Prop :=
  ∀ before tx after trade a, txs = before ++ tx :: after → tradeOf tx = some trade →
    applyTransactions L s before height = .ok a →
    ∀ market shares newShares, s.markets.getMarket trade.marketId = some market →
      sharesAfter trade.marketId market before = .ok shares →
      addAt shares trade.outcomeIndex trade.shares = .ok newShares →
      FitsBlock L s before tx trade market shares newShares

end

section

variable [F64 F] [DecidableEq F] {L : Library F} {s : State F} {height : Nat}
  {txs : List (FilledTransaction F)} {template : Template F} {p : MemPool F} {number : Nat}

theorem TradesApplied.of_append {before after : List (FilledTransaction F)}
    (h : TradesApplied L s height (before ++ after)) : TradesApplied L s height before := by
  intro b tx c trade a heq
  apply h b tx (c ++ after) trade a
  rw [heq, List.append_assoc, List.cons_append]

theorem applyTransactions_append {before : List (FilledTransaction F)}
    {tx : FilledTransaction F} :
    applyTransactions L s (before ++ [tx]) height =
      applyTransactions L s before height >>= fun a =>
        applyTransaction L height a (tx, before.length) := by
  rw [applyTransactions, List.zipIdx_append, List.foldlM_append, ← applyTransactions]
  apply congrArg (applyTransactions L s before height >>= ·)
  funext a
  rw [Nat.zero_add]
  exact bind_pure _

theorem collected_of_tradesApplied {a : Applied F} (h : TradesApplied L s height txs)
    (ha : applyTransactions L s txs height = .ok a) : Collected txs a.update := by
  induction txs using List.reverseRecOn generalizing a with
  | nil =>
      obtain rfl := Except.ok.inj ha
      exact collected_nil
  | append_singleton before tx ih =>
      rw [applyTransactions_append, bind_eq_ok_iff] at ha
      obtain ⟨a₁, hbefore, hstep⟩ := ha
      have hcollected := ih h.of_append hbefore
      rcases applyTransaction_cases hstep with ⟨-, heffect⟩ | ⟨hskipped, -, -, trade, hdata⟩
      · exact hcollected.step (effect_of_applyEffect heffect)
      · -- a trade that was applied was not skipped
        have htrade : tradeOf tx = some trade := by rw [tradeOf, hdata]
        obtain ⟨u', hu'⟩ := h before tx [] trade a₁ rfl htrade hbefore
        rw [applyTransaction, hdata] at hstep
        dsimp only at hstep
        rw [applyTxData, hu', ok_bind] at hstep
        obtain rfl := Except.ok.inj hstep
        exact absurd (congrArg List.length hskipped) (by simp)

/-- The trades of a template are all applied, in the order of the template and at the same
state, exactly when each of them fits what the check leaves out. -/
theorem tradesApplied_iff (h : getTransactions L s p number = .ok template) :
    TradesApplied L s height (chosen template) ↔ TradesFit L s height (chosen template) := by
  have hchecked := (tracks_of_getTransactions h).checked
  constructor
  · intro happlied before tx after trade a heq htrade ha market shares newShares hmarket hshares
      hnew
    have hbefore : TradesApplied L s height before := (heq ▸ happlied).of_append
    have hcollected := collected_of_tradesApplied hbefore ha
    exact (applyTrade_some_iff (framed_of_applyTransactions ha) hcollected hmarket hshares
      hnew).mp (happlied before tx after trade a heq htrade ha)
  · intro hfit
    -- by induction on the number of transactions before the trade
    have hshort : ∀ n before tx after trade a, before.length = n →
        chosen template = before ++ tx :: after → tradeOf tx = some trade →
        applyTransactions L s before height = .ok a →
        ∃ u', applyTrade L a.state a.update tx trade = .ok (some u') := by
      intro n
      induction n using Nat.strongRecOn with
      | ind n ih =>
          intro before tx after trade a hlength heq htrade ha
          have hbefore : TradesApplied L s height before := by
            intro b tx' c trade' a' hsplit htrade' ha'
            have hlt : b.length < n := by
              rw [← hlength, hsplit, List.length_append, List.length_cons]
              omega
            refine ih b.length hlt b tx' (c ++ tx :: after) trade' a' rfl ?_ htrade' ha'
            rw [heq, hsplit, List.append_assoc, List.cons_append]
          obtain ⟨market, shares, newShares, hmarket, hshares, hnew⟩ :=
            hchecked before tx after trade heq htrade
          have hcollected := collected_of_tradesApplied hbefore ha
          exact (applyTrade_some_iff (framed_of_applyTransactions ha) hcollected hmarket hshares
            hnew).mpr (hfit before tx after trade a heq htrade ha market shares newShares hmarket
              hshares hnew)
    exact fun before tx after trade a => hshort _ before tx after trade a rfl

end

/-- The last transaction is a trade whose turn comes and that is not applied. -/
def lastFails [F64 F] [DecidableEq F] (L : Library F) (s : State F) (height : Nat)
    (txs : List (FilledTransaction F)) : Bool :=
  txs.getLast?.elim false fun tx => (tradeOf tx).elim false fun trade =>
    holds (applyTransactions L s txs.dropLast height) fun a =>
      !holds (applyTrade L a.state a.update tx trade) Option.isSome

/-- Whether the transaction at a place is applied after those before it, if it is a trade. -/
def appliesAt [F64 F] [DecidableEq F] (L : Library F) (s : State F) (height : Nat)
    (txs : List (FilledTransaction F)) (n : Nat) : Bool :=
  (txs[n]?).all fun tx => (tradeOf tx).all fun trade =>
    holds (applyTransactions L s (txs.take n) height) fun a =>
      holds (applyTrade L a.state a.update tx trade) Option.isSome

theorem tradesApplied_of_appliesAt [F64 F] [DecidableEq F] {L : Library F} {s : State F}
    {height : Nat} {txs : List (FilledTransaction F)}
    (h : (List.range txs.length).all (appliesAt L s height txs) = true) :
    TradesApplied L s height txs := by
  rintro before tx after trade a rfl htrade ha
  have happlies := List.all_eq_true.mp h before.length (by simp)
  have htx : (before ++ tx :: after)[before.length]? = some tx := by simp
  rw [appliesAt, htx, List.take_left, Option.all_some, htrade, Option.all_some, holds_iff]
    at happlies
  obtain ⟨a', ha', happlies⟩ := happlies
  obtain rfl := Except.ok.inj (ha.symm.trans ha')
  obtain ⟨result, hresult, hsome⟩ := holds_iff.mp happlies
  obtain ⟨u', rfl⟩ := Option.isSome_iff_exists.mp hsome
  exact ⟨u', hresult⟩

theorem not_tradesApplied_of_lastFails [F64 F] [DecidableEq F] {L : Library F} {s : State F}
    {height : Nat} {txs : List (FilledTransaction F)} (h : lastFails L s height txs = true) :
    ¬ TradesApplied L s height txs := by
  intro happlied
  rw [lastFails] at h
  cases hlast : txs.getLast? with
  | none =>
      rw [hlast] at h
      cases h
  | some tx =>
      rw [hlast, Option.elim_some] at h
      cases htrade : tradeOf tx with
      | none =>
          rw [htrade] at h
          cases h
      | some trade =>
          rw [htrade, Option.elim_some] at h
          obtain ⟨a, ha, hfails⟩ := holds_iff.mp h
          obtain ⟨u', hu'⟩ := happlied txs.dropLast tx [] trade a
            (List.dropLast_append_getLast? tx hlast).symm htrade ha
          rw [hu'] at hfails
          cases hfails

section

open Truthcoin.SampleChain Truthcoin.SampleMarkets Truthcoin.Commitments Truthcoin.Connect
open Truthcoin.BlockRun

/-- Four thousand shares. -/
def lot : I64 := ⟨4000, by decide⟩

/-- The owner has bought four thousand shares of a market. -/
def tradedMarket : Except Error (State Rat) := do
  let s ← runBlocks marketConfig 5 amplifyBlocks
  applyBlock chainLibrary marketConfig heightArchive s (blockAt 3 [trading 3 "" lot 2])

/-- A buy of ten shares for 1005 sats, without the miner fee, that may cost 1500. -/
def narrowBuy : Transaction Rat :=
  spending 2 [] (.trade ⟨marketNamed "", 0, ten, owner, 1500, none, 3⟩)

/-- A sell of all shares that the owner has. -/
def sellAll (deposit : Nat) : Transaction Rat :=
  trading deposit "" ⟨-4000, by decide⟩ 3

def poolOf (txs : List (Transaction Rat)) : MemPool Rat :=
  txs.foldl (fun p tx => p.step chainLibrary (.put ⟨tx, [⟨owner, 0⟩], none⟩)) MemPool.empty

/-- The check passes a buy that is then skipped for the miner fee, and two sells of which the
second fails. -/
theorem not_tradesApplied :
    ∃ (s : State Rat) (narrow twice : Template Rat), tradedMarket = .ok s ∧
      getTransactions chainLibrary s (poolOf [narrowBuy]) 10 = .ok narrow ∧
      ¬ TradesApplied chainLibrary s 4 (chosen narrow) ∧
      getTransactions chainLibrary s (poolOf [sellAll 2, sellAll 4]) 10 = .ok twice ∧
      ¬ TradesApplied chainLibrary s 4 (chosen twice) := by
  have hcomputed : holds tradedMarket (fun s =>
      holds (getTransactions chainLibrary s (poolOf [narrowBuy]) 10)
          (fun template => lastFails chainLibrary s 4 (chosen template)) &&
        holds (getTransactions chainLibrary s (poolOf [sellAll 2, sellAll 4]) 10)
          fun template => lastFails chainLibrary s 4 (chosen template)) = true := by
    decide +kernel
  obtain ⟨s, hs, htests⟩ := holds_iff.mp hcomputed
  obtain ⟨hnarrow, htwice⟩ := Bool.and_eq_true_iff.mp htests
  obtain ⟨narrow, hnarrow, hskipped⟩ := holds_iff.mp hnarrow
  obtain ⟨twice, htwice, hfailed⟩ := holds_iff.mp htwice
  exact ⟨s, narrow, twice, hs, hnarrow, not_tradesApplied_of_lastFails hskipped, htwice,
    not_tradesApplied_of_lastFails hfailed⟩

/-- Two sells that together sell all shares. -/
def sellParts : List (Transaction Rat) :=
  [trading 2 "" ⟨-2000, by decide⟩ 3, trading 4 "" ⟨-2000, by decide⟩ 3]

/-- Two sells of parts of the shares fit, a second sell of all shares does not. -/
theorem tradesApplied_iff_several :
    ∃ (s : State Rat) (several twice : Template Rat), tradedMarket = .ok s ∧
      getTransactions chainLibrary s (poolOf sellParts) 10 = .ok several ∧
      ((chosen several).filterMap tradeOf).length = 2 ∧
      TradesFit chainLibrary s 4 (chosen several) ∧
      getTransactions chainLibrary s (poolOf [sellAll 2, sellAll 4]) 10 = .ok twice ∧
      ¬ TradesFit chainLibrary s 4 (chosen twice) := by
  have hcomputed : holds tradedMarket (fun s =>
      holds (getTransactions chainLibrary s (poolOf sellParts) 10)
          (fun template => decide (((chosen template).filterMap tradeOf).length = 2) &&
            (List.range (chosen template).length).all
              (appliesAt chainLibrary s 4 (chosen template))) &&
        holds (getTransactions chainLibrary s (poolOf [sellAll 2, sellAll 4]) 10)
          fun template => lastFails chainLibrary s 4 (chosen template)) = true := by
    decide +kernel
  obtain ⟨s, hs, htests⟩ := holds_iff.mp hcomputed
  obtain ⟨hseveral, htwice⟩ := Bool.and_eq_true_iff.mp htests
  obtain ⟨several, hseveral, htests⟩ := holds_iff.mp hseveral
  obtain ⟨htrades, happlied⟩ := Bool.and_eq_true_iff.mp htests
  obtain ⟨twice, htwice, hfailed⟩ := holds_iff.mp htwice
  refine ⟨s, several, twice, hs, hseveral, of_decide_eq_true htrades, ?_, htwice, ?_⟩
  · exact (tradesApplied_iff hseveral).mp (tradesApplied_of_appliesAt happlied)
  · exact mt (tradesApplied_iff htwice).mpr (not_tradesApplied_of_lastFails hfailed)

end

end Truthcoin.SlippageCheck
