import Truthcoin.FallibleErrors
import Truthcoin.ShareWrites

/-!
# Overflows of trades

Plain arithmetic aborts when it overflows. The positions of a market add up to its shares, also
after the trades that a block has applied so far. So a trade aborts by the shares that it buys,
by its cost, or by the amplifications that came before it in the block, and by nothing else.
-/

namespace Truthcoin.TradeOverflow

open Truthcoin.Types Truthcoin.Table Truthcoin.Fallible Truthcoin.Arithmetic
open Truthcoin.Markets Truthcoin.Blocks Truthcoin.Trading Truthcoin.Validation
open Truthcoin.Apply Truthcoin.ApplySteps Truthcoin.SlippageCheck Truthcoin.Ledgers
open Truthcoin.Ledgers.Ledger Truthcoin.ShareBooks Truthcoin.ShareWrites

/-- The computation does not abort. -/
abbrev Completes {α : Type} (x : Except Error α) : Prop :=
  Reports (· ≠ Error.panic) x

theorem completes_iff_ok {α : Type} {x : Except Error α} (h : Reports (· = Error.panic) x) :
    Completes x ↔ ∃ a, x = .ok a := by
  cases x with
  | error e => simpa using h e rfl
  | ok a => simp

theorem completes_bind {α β : Type} {x : Except Error α} {f : α → Except Error β} :
    Completes (x >>= f) ↔ Completes x ∧ ∀ a, x = .ok a → Completes (f a) :=
  reports_bind

theorem completes_toI64 {n : Int} : Completes (toI64 n) ↔ InI64 n := by
  rw [completes_iff_ok ?_, exists_toI64_iff]
  unfold toI64
  split <;> simp

theorem completes_addI64 {a b : I64} : Completes (addI64 a b) ↔ InI64 (a.val + b.val) :=
  completes_toI64

theorem completes_addU64 {a b : Nat} : Completes (addU64 a b) ↔ a + b ≤ amountMax := by
  rw [completes_iff_ok (by simp [addU64])]
  simp only [addU64_eq_ok_iff, exists_and_left, exists_eq, and_true]

theorem completes_sumU64 {values : List Nat} :
    Completes (sumU64 values) ↔ values.sum ≤ amountMax := by
  rw [completes_iff_ok ?_]
  · simp only [sumU64_eq_ok_iff, exists_and_left, exists_eq, and_true]
  · exact reports_foldlM fun sum value _ => by simp [addU64]

theorem completes_addAt {xs : List I64} {i : Nat} {x delta : I64} (hx : xs[i]? = some x) :
    Completes (addAt xs i delta) ↔ InI64 (x.val + delta.val) := by
  have hindex : index xs i = .ok x := index_eq_ok_iff.mpr hx
  simp only [addAt, hindex, ok_bind, reports_bind, completes_addI64, reports_ok, implies_true,
    and_true]

theorem completes_addTrade {F : Type} (u : StateUpdate F) (trade : Trade) (volumeSats : Nat) :
    Completes (addTrade u trade volumeSats) ↔
      InI64 ((u.shareAccountChanges[(⟨trade.trader, trade.position⟩ : ShareKey)]?.getD
        I64.zero).val + trade.shares.val) := by
  simp only [addTrade, addShareAccountChange, reports_bind, completes_addI64, reports_ok,
    implies_true, and_true]

section

variable {F : Type} [F64 F] {L : Library F}

theorem toError_ne_panic {reason : String} {e : SatoshiError} :
    e.toError reason ≠ Error.panic ↔ e ≠ .panic := by
  cases e <;> simp [SatoshiError.toError]

theorem reports_toSats {value : F} {mode : Rounding} :
    Reports (· ≠ SatoshiError.panic) (toSats value mode) := by
  simp [toSats]

/-- The cost of a buy, rounded to satoshis, and the fees of the market and of the miner are
together a `u64`. -/
def CostFits (L : Library F) (tradingFee : F) (shares newShares : List I64) (beta : F) : Prop :=
  ∀ baseCost base fee, L.updateCost shares newShares beta = some baseCost →
    toSats baseCost .up = .ok base → toSats (F64.mul baseCost tradingFee) .nearest = .ok fee →
      base + max fee minTradingFeeSats + tradeMinerFeeSats ≤ amountMax

theorem calculateBuyCost_eq_ok_iff {baseCost tradingFee : F} {cost : BuyCost} :
    calculateBuyCost baseCost tradingFee = .ok cost ↔
      ∃ base fee, toSats baseCost .up = .ok base ∧
        toSats (F64.mul baseCost tradingFee) .nearest = .ok fee ∧
        base + max fee minTradingFeeSats ≤ amountMax ∧
        cost = ⟨base, max fee minTradingFeeSats, base + max fee minTradingFeeSats⟩ := by
  simp only [calculateBuyCost, bind_eq_ok_iff, okOr_eq_ok_iff, checkedAdd_eq_some_iff,
    Except.ok.injEq]
  constructor
  · rintro ⟨base, hbase, fee, hfee, total, ⟨hle, rfl⟩, rfl⟩
    exact ⟨base, fee, hbase, hfee, hle, rfl⟩
  · rintro ⟨base, fee, hbase, hfee, hle, rfl⟩
    exact ⟨base, hbase, fee, hfee, _, ⟨hle, rfl⟩, rfl⟩

theorem reports_calculateBuyCost {baseCost tradingFee : F} :
    Reports (· ≠ SatoshiError.panic) (calculateBuyCost baseCost tradingFee) ↔
      ∀ base fee, toSats baseCost .up = .ok base →
        toSats (F64.mul baseCost tradingFee) .nearest = .ok fee →
          base + max fee minTradingFeeSats ≤ amountMax := by
  simp only [calculateBuyCost, reports_bind, reports_toSats, true_and, reports_okOr, reports_ok,
    implies_true, and_true, ne_eq, not_true_eq_false, imp_false]
  have hnone : ∀ a b : Nat, ¬ checkedAdd a b = none ↔ a + b ≤ amountMax := by
    intro a b
    unfold checkedAdd
    split <;> simp_all
  simp only [hnone]
  exact ⟨fun h base fee hbase hfee => h base hbase fee hfee,
    fun h base hbase fee hfee => h base fee hbase hfee⟩

theorem completes_applyBuy {u : StateUpdate F} {tx : FilledTransaction F} {trade : Trade}
    {market : Market F} {shares newShares : List I64} {beta : F} {input : Nat}
    (hposition : InI64 ((u.shareAccountChanges[(⟨trade.trader, trade.position⟩ : ShareKey)]?.getD
      I64.zero).val + trade.shares.val)) :
    Completes (applyBuy L u tx trade market shares newShares beta input) ↔
      CostFits L market.tradingFee shares newShares beta := by
  simp only [applyBuy, buyCost, calculateUpdateCost, reports_bind, reports_okOr,
    reports_mapError, toError_ne_panic, reports_calculateBuyCost, completes_addU64, reports_ite,
    completes_addTrade, hposition, reports_ok, bind_eq_ok_iff, okOr_eq_ok_iff, mapError_eq_ok_iff,
    calculateBuyCost_eq_ok_iff, CostFits, implies_true, and_true, true_and, ne_eq, reduceCtorEq,
    not_false_eq_true]
  constructor
  · rintro ⟨htotal, hrequired⟩ baseCost base fee hbaseCost hbase hfee
    have hle := htotal baseCost hbaseCost base fee hbase hfee
    exact hrequired _ ⟨baseCost, hbaseCost, base, fee, hbase, hfee, hle, rfl⟩
  · intro hfits
    refine ⟨fun baseCost hbaseCost base fee hbase hfee => ?_, ?_⟩
    · have hle := hfits baseCost base fee hbaseCost hbase hfee
      omega
    · rintro _ ⟨baseCost, hbaseCost, base, fee, hbase, hfee, -, rfl⟩
      exact hfits baseCost base fee hbaseCost hbase hfee

theorem completes_applySell {s : State F} {u : StateUpdate F} {tx : FilledTransaction F}
    {trade : Trade} {market : Market F} {shares newShares : List I64} {beta : F} {input : Nat}
    (howned : InI64 ((s.markets.ownedShares trade.trader trade.position).val +
      (u.shareAccountChanges[(⟨trade.trader, trade.position⟩ : ShareKey)]?.getD I64.zero).val))
    (hposition : (asI64 trade.sharesAbs).val ≤
        (s.markets.ownedShares trade.trader trade.position).val +
          (u.shareAccountChanges[(⟨trade.trader, trade.position⟩ : ShareKey)]?.getD
            I64.zero).val →
      InI64 ((u.shareAccountChanges[(⟨trade.trader, trade.position⟩ : ShareKey)]?.getD
        I64.zero).val + trade.shares.val)) :
    Completes (applySell L s u tx trade market shares newShares beta input) := by
  simp only [applySell, sellProceeds, calculateUpdateCost, calculateSellProceeds, reports_bind,
    reports_okOr, reports_ensure, reports_mapError, toError_ne_panic, reports_toSats,
    completes_addI64, howned, reports_ite, completes_addTrade, reports_ok, ensure_eq_ok_iff,
    addI64_eq_ok_iff, ne_eq, reduceCtorEq, not_false_eq_true, implies_true, and_true, true_and]
  intro owned hsum _ hle _ _ _
  exact hposition (hsum ▸ hle)

end

section

variable {F : Type} {L : Library F} {s s' : State F} {u u' : StateUpdate F}
  {before : List (FilledTransaction F)} {tx : FilledTransaction F} {height : Nat}

/-- What a block has applied so far: the changes of its trades are collected, each of its markets
takes its trades, and no position gets negative. -/
structure Followed (s : State F) (before : List (FilledTransaction F)) (u : StateUpdate F) :
    Prop where
  collected : Collected before u
  shares : ∀ marketId market, s.markets.getMarket marketId = some market →
    ∃ shares, sharesAfter marketId market before = .ok shares
  nonneg : ∀ a key, 0 ≤ (bookOf s.markets).held a key + positionChange ⟨a, key⟩ before

theorem followed_nil (hs : Positive s.markets) : Followed s [] (StateUpdate.new F) := by
  refine ⟨collected_nil, fun _ market _ => ⟨market.shares, rfl⟩, fun a key => ?_⟩
  have hheld := hs.held_nonneg a key
  simpa [positionChange] using hheld

theorem sharesAfter_eq (marketId : MarketId) (market : Market F)
    (txs : List (FilledTransaction F)) :
    sharesAfter marketId market txs =
      moveShares ((tradesIn marketId txs).map fun trade => (trade.outcomeIndex, trade.shares))
        market.shares := by
  rw [sharesAfter, moveShares, List.foldlM_map]

theorem Followed.position_le (h : Followed s before u) (hs : SharesHeld s.markets)
    {marketId : MarketId} {market : Market F}
    (hmarket : s.markets.getMarket marketId = some market)
    (htrading : market.marketState = .trading) {shares : List I64}
    (hshares : sharesAfter marketId market before = .ok shares) {outcomeIndex : Nat}
    {amount : I64} (hamount : shares[outcomeIndex]? = some amount) (a : Address) :
    (bookOf s.markets).held a ⟨marketId, outcomeIndex⟩ +
      positionChange ⟨a, ⟨marketId, outcomeIndex⟩⟩ before ≤ amount.val := by
  let key : PositionKey := ⟨marketId, outcomeIndex⟩
  have hbalanced := hs.balanced.postAll (posts (before.filterMap tradeOf))
  rw [postAll_eq] at hbalanced
  have hle := hbalanced.held_le (k := key) (fun a => by
    show 0 ≤ (bookOf s.markets).held a key + heldBy (posts (before.filterMap tradeOf)) a key
    rw [heldBy_posts]
    exact h.nonneg a key) a
  have hstate : (bookOf s.markets).state marketId = some .trading := by
    rw [state_of_getMarket hmarket, htrading]
  rw [sharesAfter_eq] at hshares
  have hmoved := lookup_moveShares hshares outcomeIndex
  rw [hamount, Option.map_some] at hmoved
  obtain ⟨old, hold, hsum⟩ := Option.map_eq_some_iff.mp hmoved.symm
  have hissued : (bookOf s.markets).ledger.issued key = old.val := by
    rw [issued_of_trading hstate, shares_of_getMarket hmarket, outcomeShares, hold]
    rfl
  calc (bookOf s.markets).held a key + positionChange ⟨a, key⟩ before
      = (bookOf s.markets).ledger.held a key +
          heldBy (posts (before.filterMap tradeOf)) a key := by rw [heldBy_posts]; rfl
    _ ≤ (bookOf s.markets).ledger.issued key +
          issuedBy (posts (before.filterMap tradeOf)) key := hle
    _ = amount.val := by rw [hissued, issuedBy_posts]; exact hsum

variable [F64 F] [DecidableEq F]

theorem Followed.trade (h : Followed s before u) (hframed : Framed s s') {trade : Trade}
    (htrade : tradeOf tx = some trade) (hcollected : Collected (before ++ [tx]) u')
    (happly : applyTrade L s' u tx trade = .ok (some u')) : Followed s (before ++ [tx]) u' := by
  obtain ⟨market, effectiveShares, newShares, beta, input, hquote, -⟩ := applyTrade_eq_some happly
  have hmarket : s.markets.getMarket trade.marketId = some market := by
    have hfound := hquote.market_eq
    rwa [hframed] at hfound
  obtain ⟨shares, hshares⟩ := h.shares trade.marketId market hmarket
  obtain ⟨-, hsame⟩ := (runningMarketState_eq_ok_iff h.collected hshares).mp hquote.running
  obtain ⟨rfl, rfl⟩ := Prod.mk.inj hsame
  have hfits := (applyTrade_some_iff hframed h.collected hmarket hshares hquote.moved).mp
    ⟨u', happly⟩
  refine ⟨hcollected, ?_, ?_⟩
  · intro marketId other hother
    obtain ⟨others, hothers⟩ := h.shares marketId other hother
    rw [sharesAfter_append_of_some htrade, hothers, ok_bind]
    split
    · rename_i heq
      subst heq
      obtain rfl := Option.some.inj (hmarket.symm.trans hother)
      obtain rfl := Except.ok.inj (hshares.symm.trans hothers)
      exact ⟨newShares, hquote.moved⟩
    · exact ⟨others, rfl⟩
  · intro a key
    have hold := h.nonneg a key
    rw [positionChange_append_of_some htrade]
    split
    · rename_i heq
      obtain ⟨rfl, rfl⟩ := ShareKey.mk.inj heq
      cases hbuy : trade.isBuy with
      | true =>
          have hpos : 0 < trade.shares.val := of_decide_eq_true hbuy
          omega
      | false =>
          obtain ⟨-, hle, -⟩ := hfits.sell hbuy
          have hbounded := (tradable_of_applyTrade happly).bounded
          rw [asI64_sharesAbs hbounded, ← held_eq] at hle
          have habs := neg_abs_le trade.shares.val
          omega
    · omega

theorem Followed.step (h : Followed s before u) {s₁ s₂ : State F}
    (hframed : Framed s s₁) (heffect : Effect L height s₁ u tx s₂ u') :
    Followed s (before ++ [tx]) u' := by
  have hcollected := h.collected.step heffect
  have hother : tradeOf tx = none → Followed s (before ++ [tx]) u' := by
    intro hnone
    refine ⟨hcollected, ?_, ?_⟩
    · simp only [sharesAfter_append_of_none hnone]
      exact h.shares
    · simp only [positionChange_append_of_none hnone]
      exact h.nonneg
  cases heffect with
  | trade trade hdata happly =>
      exact h.trade hframed (by rw [tradeOf, hdata]) hcollected happly
  | plain hdata | createMarket _ hdata _ | claimDecision _ hdata _ | submitVote _ hdata _
  | submitBallot _ hdata _ | transferReputation _ hdata _ | amplifyBeta _ hdata _ =>
      exact hother (by rw [tradeOf, hdata])

theorem followed_of_effects {txs : List (FilledTransaction F)}
    {s₁ s₂ : State F} (h : Followed s before u) (hframed : Framed s s₁)
    (heffects : txs.foldlM (applyEffect L height) (s₁, u) = .ok (s₂, u')) :
    Followed s (before ++ txs) u' := by
  induction txs generalizing before s₁ u with
  | nil =>
      obtain ⟨-, rfl⟩ := Prod.mk.inj (Except.ok.inj heffects)
      rw [List.append_nil]
      exact h
  | cons tx txs ih =>
      obtain ⟨⟨s', u'⟩, hfirst, hrest⟩ := bind_eq_ok_iff.mp heffects
      have heffect := effect_of_applyEffect hfirst
      have hstep := ih (h.step hframed heffect) (hframed.trans heffect.framed) hrest
      rwa [List.append_assoc] at hstep

theorem followed_of_applyTransactions {txs : List (FilledTransaction F)}
    {a : Applied F} (hs : Positive s.markets)
    (h : applyTransactions L s txs height = .ok a) :
    Followed s (notSkipped txs a.skipped) a.update :=
  followed_of_effects (followed_nil hs) (Framed.refl s) (effects_of_applyTransactions h)

/-- A trade fits after the transactions that were applied before it: the amplifications of its
market and the cost of a buy are within `u64`, and the shares after a buy within `i64`. -/
structure TradeFits (L : Library F) (s : State F) (before : List (FilledTransaction F))
    (trade : Trade) : Prop where
  liquidity : (amplified trade.marketId before).sum ≤ amountMax
  shares : trade.isBuy = true → ∀ market shares amount,
    s.markets.getMarket trade.marketId = some market →
      sharesAfter trade.marketId market before = .ok shares →
        shares[trade.outcomeIndex]? = some amount → amount.val + trade.shares.val ≤ i64Max
  cost : trade.isBuy = true → ∀ market shares newShares,
    s.markets.getMarket trade.marketId = some market →
      sharesAfter trade.marketId market before = .ok shares →
        addAt shares trade.outcomeIndex trade.shares = .ok newShares →
          CostFits L market.tradingFee shares newShares
            (betaAfter trade.marketId market shares before)

/-- What the validation of a trade ensures for its arithmetic. -/
structure ValidTrade (s : State F) (tx : FilledTransaction F) (trade : Trade)
    (market : Market F) : Prop where
  market_eq : s.markets.getMarket trade.marketId = some market
  trading : market.marketState = .trading
  listed : trade.outcomeIndex < market.shares.length
  input : ∃ input, inputValue tx = .ok input
  bounded : i64Min < trade.shares.val

omit [F64 F] [DecidableEq F] in
theorem validTrade_of_validateTrade {archive : Archive} {trade : Trade}
    (h : validateTrade L archive s tx trade = .ok ()) :
    ∃ market, ValidTrade s tx trade market := by
  simp only [validateTrade, tradingMarket, bind_eq_ok_iff, okOr_eq_ok_iff, ensure_eq_ok_iff,
    Except.ok.injEq] at h
  obtain ⟨market, ⟨_, hmarket, _, htrading, rfl⟩, _, -, _, -, _, hlisted, _, -, _, -, _, -, input,
    hinput, h⟩ := h
  refine ⟨_, hmarket, htrading, hlisted, ⟨input, hinput⟩, ?_⟩
  split at h
  · rename_i hbuy
    have hpos : 0 < trade.shares.val := of_decide_eq_true hbuy
    exact lt_trans (by norm_num [i64Min]) hpos
  · simp only [validateSell, bind_eq_ok_iff, ensure_eq_ok_iff] at h
    obtain ⟨_, -, _, ⟨-, howned⟩, -⟩ := h
    have hmax := (s.markets.ownedShares trade.trader trade.position).property.2
    unfold Trade.sharesAbs at howned
    norm_num [i64Min, i64Max] at hmax ⊢
    omega

omit [DecidableEq F] in
theorem completes_runningMarketState {trade : Trade} {market : Market F} {shares : List I64}
    (h : Collected before u) (hshares : sharesAfter trade.marketId market before = .ok shares) :
    Completes (runningMarketState trade.marketId market u) ↔
      (amplified trade.marketId before).sum ≤ amountMax := by
  simp only [runningMarketState, runningShares_eq h hshares, ok_bind, h.amplifications,
    reports_bind, completes_sumU64, reports_ok, implies_true, and_true]

omit [F64 F] [DecidableEq F] in
theorem Followed.exists_amount {trade : Trade} {market : Market F} (h : Followed s before u)
    (hvalid : ValidTrade s tx trade market) :
    ∃ shares amount, sharesAfter trade.marketId market before = .ok shares ∧
      shares[trade.outcomeIndex]? = some amount := by
  obtain ⟨shares, hshares⟩ := h.shares trade.marketId market hvalid.market_eq
  have hmoved := hshares
  rw [sharesAfter_eq] at hmoved
  have hlisted := lookup_moveShares hmoved trade.outcomeIndex
  rw [List.getElem?_eq_getElem hvalid.listed, Option.map_some] at hlisted
  obtain ⟨amount, hamount, -⟩ := Option.map_eq_some_iff.mp hlisted
  exact ⟨shares, amount, hshares, hamount⟩

omit [F64 F] [DecidableEq F] in
/-- The position that a trade moves, and where it moves it, are within `i64`. -/
theorem Followed.position_fits {trade : Trade} {market : Market F} {shares : List I64}
    {amount : I64} (h : Followed s before u) (hs : SharesHeld s.markets)
    (hvalid : ValidTrade s tx trade market)
    (hshares : sharesAfter trade.marketId market before = .ok shares)
    (hamount : shares[trade.outcomeIndex]? = some amount) :
    InI64 ((s.markets.ownedShares trade.trader trade.position).val +
        positionChange ⟨trade.trader, trade.position⟩ before) ∧
      (trade.isBuy = true → amount.val + trade.shares.val ≤ i64Max →
        InI64 (positionChange ⟨trade.trader, trade.position⟩ before + trade.shares.val)) ∧
      (trade.isBuy = false → (asI64 trade.sharesAbs).val ≤
          (s.markets.ownedShares trade.trader trade.position).val +
            positionChange ⟨trade.trader, trade.position⟩ before →
        InI64 (positionChange ⟨trade.trader, trade.position⟩ before + trade.shares.val)) ∧
      0 ≤ amount.val := by
  have hheld := hs.positive.held_nonneg trade.trader trade.position
  have hnonneg := h.nonneg trade.trader trade.position
  have hle : (bookOf s.markets).held trade.trader trade.position +
      positionChange ⟨trade.trader, trade.position⟩ before ≤ amount.val :=
    h.position_le hs hvalid.market_eq hvalid.trading hshares hamount trade.trader
  rw [held_eq] at hheld hnonneg hle
  have howned := (s.markets.ownedShares trade.trader trade.position).property.2
  have hmax := amount.property.2
  rw [asI64_sharesAbs hvalid.bounded]
  unfold InI64
  norm_num [i64Min, i64Max] at howned hmax ⊢
  refine ⟨by omega, fun hbuy hfits => ?_, fun hsell hcovered => ?_, by omega⟩
  · have hpos : 0 < trade.shares.val := of_decide_eq_true hbuy
    omega
  · have hneg : trade.shares.val ≤ 0 := by simpa [Trade.isBuy] using hsell
    rw [abs_of_nonpos hneg] at hcovered
    omega

omit [DecidableEq F] in
/-- A valid trade aborts exactly when it does not fit. -/
theorem completes_applyTrade_iff {trade : Trade} {market : Market F} (hs : SharesHeld s.markets)
    (h : Followed s before u) (hframed : Framed s s') (hvalid : ValidTrade s tx trade market) :
    Completes (applyTrade L s' u tx trade) ↔ TradeFits L s before trade := by
  obtain ⟨shares, amount, hshares, hamount⟩ := h.exists_amount hvalid
  obtain ⟨howned, hbuys, hsells, hnonneg⟩ := h.position_fits hs hvalid hshares hamount
  have hmarket : s'.markets.getMarket trade.marketId = some market := by
    rw [hframed]
    exact hvalid.market_eq
  have hsame : s'.markets.ownedShares trade.trader trade.position =
      s.markets.ownedShares trade.trader trade.position := by
    rw [hframed]
    rfl
  obtain ⟨input, hinput⟩ := hvalid.input
  have hallows : market.marketState.allowsTrading = true := by
    rw [hvalid.trading]
    rfl
  rw [← h.collected.changes, ← hsame] at howned hsells
  rw [← h.collected.changes] at hbuys
  rw [applyTrade, hmarket, okOr_some, ok_bind, ensure_pos hallows, ok_bind, completes_bind,
    completes_runningMarketState h.collected hshares]
  simp only [runningMarketState_eq_ok_iff h.collected hshares]
  constructor
  · rintro ⟨hliquidity, hrest⟩
    have hrest := hrest _ ⟨hliquidity, rfl⟩
    dsimp only at hrest
    rw [completes_bind, completes_addAt hamount] at hrest
    obtain ⟨hfits, hrest⟩ := hrest
    refine ⟨hliquidity, ?_, ?_⟩
    · intro _ market' shares' amount' hmarket' hshares' hamount'
      obtain rfl := Option.some.inj (hvalid.market_eq.symm.trans hmarket')
      obtain rfl := Except.ok.inj (hshares.symm.trans hshares')
      obtain rfl := Option.some.inj (hamount.symm.trans hamount')
      exact hfits.2
    · intro hbuy market' shares' newShares hmarket' hshares' hnew
      obtain rfl := Option.some.inj (hvalid.market_eq.symm.trans hmarket')
      obtain rfl := Except.ok.inj (hshares.symm.trans hshares')
      have hrest := hrest newShares hnew
      obtain ⟨x, y, hx, hy, rfl⟩ := addAt_eq_ok_iff.mp hnew
      obtain rfl := Option.some.inj (hamount.symm.trans hx)
      have hpos : 0 < trade.shares.val := of_decide_eq_true hbuy
      have hindex : index (shares.set trade.outcomeIndex y) trade.outcomeIndex = .ok y :=
        index_eq_ok_iff.mpr (List.getElem?_set_self (List.getElem?_eq_some_iff.mp hx).1)
      rw [hindex, ok_bind, ensure_pos (by omega), ok_bind, hinput, ok_bind, if_pos hbuy] at hrest
      exact (completes_applyBuy (hbuys hbuy hfits.2)).mp hrest
  · intro hfits
    refine ⟨hfits.liquidity, ?_⟩
    rintro _ ⟨-, rfl⟩
    dsimp only
    have hrange : InI64 (amount.val + trade.shares.val) := by
      have hbounded := hvalid.bounded
      have hmax := amount.property.2
      cases hbuy : trade.isBuy with
      | true =>
          refine ⟨?_, hfits.shares hbuy market shares amount hvalid.market_eq hshares hamount⟩
          have hpos : 0 < trade.shares.val := of_decide_eq_true hbuy
          norm_num [i64Min]
          omega
      | false =>
          have hneg : trade.shares.val ≤ 0 := by simpa [Trade.isBuy] using hbuy
          norm_num [InI64, i64Min, i64Max] at hbounded hmax ⊢
          omega
    refine completes_bind.mpr ⟨(completes_addAt hamount).mpr hrange, fun newShares hnew => ?_⟩
    obtain ⟨x, y, hx, hy, hset⟩ := addAt_eq_ok_iff.mp hnew
    obtain rfl := Option.some.inj (hamount.symm.trans hx)
    have hindex : index newShares trade.outcomeIndex = .ok y := by
      rw [hset, index_eq_ok_iff]
      exact List.getElem?_set_self (List.getElem?_eq_some_iff.mp hx).1
    rw [hindex, ok_bind]
    refine completes_bind.mpr ⟨reports_ensure.mpr fun _ => by simp, fun _ _ => ?_⟩
    rw [hinput, ok_bind]
    cases hbuy : trade.isBuy with
    | true =>
        rw [if_pos rfl, completes_applyBuy (hbuys hbuy hrange.2)]
        exact hfits.cost hbuy market shares newShares hvalid.market_eq hshares hnew
    | false =>
        rw [if_neg Bool.false_ne_true]
        exact completes_applySell howned (hsells hbuy)

end

end Truthcoin.TradeOverflow
