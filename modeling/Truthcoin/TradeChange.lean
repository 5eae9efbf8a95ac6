import Truthcoin.BlockTemplate
import Truthcoin.Builds
import Truthcoin.FundsValue
import Truthcoin.WriteOverflow

/-!
# Change of buys and amplifications

A buy is applied only when its cost and the miner's fee stay within its limit, and it was
validated only when its inputs cover that limit; an amplification was validated only when
its inputs cover its amount and the fee. So the change of what a block collects can be paid to
whoever traded, unless the cost and the fees of a buy are together too great for a `u64`: the
release build wraps them around, and finds the buy within its limit.
-/

namespace Truthcoin.TradeChange

open Truthcoin.Types Truthcoin.Fallible Truthcoin.Arithmetic Truthcoin.Decisions
open Truthcoin.Markets Truthcoin.Blocks Truthcoin.Trading Truthcoin.Validation Truthcoin.Apply
open Truthcoin.ApplySteps Truthcoin.BlockChecks Truthcoin.TransactionValue Truthcoin.Builds
open Truthcoin.FundsValue Truthcoin.Consolidation Truthcoin.Settlement Truthcoin.TradeOverflow

variable {F : Type}

/-- Buys and amplifications are charged for what they do to a market. -/
def charged (tx : FilledTransaction F) : Bool :=
  match tx.transaction.data with
  | some (.trade trade) => trade.isBuy
  | some (.amplifyBeta _) => true
  | _ => false

/-- The settlement of an applied buy or amplification. -/
inductive Settles (L : Library F) (tx : FilledTransaction F) : PendingBuySettlement → Prop where
  | buy (trade : Trade) (cost : BuyCost) (hdata : tx.transaction.data = some (.trade trade))
      (hbuy : trade.isBuy = true) :
      Settles L tx ⟨trade.marketId, trade.trader, valueIn tx, cost.baseCostSats,
        cost.tradingFeeSats, L.txid tx.transaction, false⟩
  | amplify (amplify : AmplifyBeta) (hdata : tx.transaction.data = some (.amplifyBeta amplify)) :
      Settles L tx ⟨amplify.marketId, amplify.marketAuthor, valueIn tx, amplify.amount, 0,
        L.txid tx.transaction, true⟩

/-- The inputs of a settlement cover its charge and the miner's fee. -/
def Covered (b : PendingBuySettlement) : Prop :=
  b.lmsrCostSats + b.marketFeeSats + tradeMinerFeeSats ≤ b.inputValueSats

instance (b : PendingBuySettlement) : Decidable (Covered b) :=
  inferInstanceAs (Decidable (_ ≤ _))

section

variable [F64 F] {build : Build} {L : Library F}

/-- The cost of a buy and its fees are a `u64` in the state in which it is applied. -/
def BuyFits (build : Build) (L : Library F) (a : Applied F) (trade : Trade) : Prop :=
  ∀ market shares beta newShares, a.state.markets.getMarket trade.marketId = some market →
    build.runningMarketState trade.marketId market a.update = .ok (shares, beta) →
      build.addAt shares trade.outcomeIndex trade.shares = .ok newShares →
        CostFits L market.tradingFee shares newShares beta

end

section

variable [F64 F] [DecidableEq F] {build : Build} {L : Library F} {config : DecisionConfig}
  {archive : Archive} {s₀ s : State F} {a a' : Applied F} {tx : FilledTransaction F}
  {height : Nat}

/-- What a buy that is applied costs is a `u64`. -/
def TransactionFits (build : Build) (L : Library F) (a : Applied F)
    (tx : FilledTransaction F) : Prop :=
  ∀ trade u', tx.transaction.data = some (.trade trade) → trade.isBuy = true →
    build.applyTrade L a.state a.update tx trade = .ok (some u') → BuyFits build L a trade

/-- What each of the buys costs that are applied is a `u64`. -/
def BuysFit (build : Build) (L : Library F) (s : State F) (height : Nat)
    (txs : List (FilledTransaction F)) : Prop :=
  ∀ earlier tx later a, txs = earlier ++ tx :: later →
    build.applyTransactions L s earlier height = .ok a → TransactionFits build L a tx

theorem applyTransactions_append {txs : List (FilledTransaction F)} :
    build.applyTransactions L s (txs ++ [tx]) height = .ok a' ↔
      ∃ a, build.applyTransactions L s txs height = .ok a ∧
        build.applyTransaction L height a (tx, txs.length) = .ok a' := by
  rw [Build.applyTransactions, List.zipIdx_append, List.foldlM_append, bind_eq_ok_iff]
  simp only [List.zipIdx_singleton, Nat.zero_add, List.foldlM_cons, List.foldlM_nil, bind_pure,
    Build.applyTransactions]

/-- What the applied transactions have collected so far. -/
structure Collected (build : Build) (L : Library F) (s : State F) (height : Nat)
    (txs : List (FilledTransaction F)) (a : Applied F) : Prop where
  skipped_lt : ∀ i ∈ a.skipped, i < txs.length
  settles : List.Forall₂ (Settles L) ((notSkipped txs a.skipped).filter charged)
    a.update.pendingBuySettlements
  covered_iff : (∀ b ∈ a.update.pendingBuySettlements, Covered b) ↔
    BuysFit build L s height txs

theorem buysFit_checked {txs : List (FilledTransaction F)} :
    BuysFit .checked L s height txs := by
  intro earlier tx later a _ _ trade u' _ hbuy happlied market shares beta newShares hmarket
    hrunning hnew baseCost base fee hupdate hbase hfee
  simp only [Build.applyTrade, Build.applyBuy, Build.buyCost, calculateUpdateCost,
    Build.calculateBuyCost, bind_eq_ok_iff, mapError_eq_ok_iff, okOr_eq_ok_iff, if_pos hbuy,
    Except.ok.injEq] at happlied
  obtain ⟨market', hmarket', _, -, ⟨shares', beta'⟩, hrunning', newShares', hnew', _, -, _, -, _,
    -, _, ⟨baseCost', hupdate', base', hbase', fee', hfee', _, htotal, rfl⟩, _, hrequired,
    -⟩ := happlied
  obtain rfl := Option.some.inj (hmarket.symm.trans hmarket')
  obtain ⟨rfl, rfl⟩ := Prod.mk.inj (Except.ok.inj (hrunning.symm.trans hrunning'))
  obtain rfl := Except.ok.inj (hnew.symm.trans hnew')
  obtain rfl := Option.some.inj (hupdate.symm.trans hupdate')
  obtain rfl := Except.ok.inj (hbase.symm.trans hbase')
  obtain rfl := Except.ok.inj (hfee.symm.trans hfee')
  obtain ⟨-, rfl⟩ := checkedAdd_eq_some_iff.mp htotal
  exact (checkedAdd_eq_some_iff.mp hrequired).1

end

section

open Truthcoin.SampleChain Truthcoin.SampleMarkets Truthcoin.BlockRun Truthcoin.BlockTemplate
open Truthcoin.Connect Truthcoin.Commitments

end

end Truthcoin.TradeChange
