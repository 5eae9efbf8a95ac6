import Truthcoin.ElementaryNumbers
import Truthcoin.LmsrPotential
import Truthcoin.SolventSettlements

/-!
# Solvency of the markets

In exact arithmetic the treasury of a trading market holds what the market maker owes at most, as
long as nobody spends the output that holds it. A settlement at final prices that are a
distribution then pays from the treasury alone.
-/

namespace Truthcoin.MarketSolvency

open Truthcoin.Types Truthcoin.Table Truthcoin.Fallible Truthcoin.Arithmetic Truthcoin.Decisions
open Truthcoin.Markets Truthcoin.Blocks Truthcoin.Settlement Truthcoin.Trading Truthcoin.Lmsr
open Truthcoin.LogSumExp Truthcoin.Connect Truthcoin.ConnectTrace Truthcoin.BlockRun
open Truthcoin.TwoWayPeg Truthcoin.AddressIndex Truthcoin.Commitments Truthcoin.MarketRecords
open Truthcoin.MarketIndexes Truthcoin.ListedMarkets Truthcoin.ListedRuns Truthcoin.ShareRuns
open Truthcoin.CostPotential Truthcoin.LmsrPotential Truthcoin.TreasuryOutputs
open Truthcoin.TreasuryFrames Truthcoin.SharePayouts Truthcoin.ExactPayouts Truthcoin.ExactCosts
open Truthcoin.Solvency Truthcoin.SolventSettlements Truthcoin.WrittenRecords

section

variable {F : Type}

/-- What the treasury of a market has to hold: `β ln Σ exp(qᵢ / β)` with
`β = liquidity / ln n`. -/
noncomputable def requiredTreasury (market : Market F) : ℝ :=
  let beta := market.liquidityBaseSats / Real.log market.shares.length
  beta * Real.log (market.shares.map fun q => Real.exp (q.val / beta)).sum

/-- The treasury of a market holds what it has to, and so the shares of each outcome. -/
def Covered (s : State F) (market : Market F) : Prop :=
  ∃ treasury, s.getMarketFundsSats market.id false = .ok treasury ∧
    requiredTreasury market ≤ treasury ∧ ∀ q ∈ market.shares, q.val ≤ treasury

/-- Distribute the fees of a market and add up what they pay. -/
def distributeFees [F64 F] (s : State F) (market : Market F)
    (decisionOutcomes : List (DecisionId × F)) (decisions : DecisionMap F) :
    Except Error Nat := do
  let feeSats ← s.getMarketFundsSats market.id true
  let feePayouts ← calculateFeeDistribution s market feeSats decisionOutcomes decisions
  sumU64 (feePayouts.map FeePayoutRecord.amountSats)

/-- At any final prices that are a distribution, the floors of the values of the positions add up
to no more than the treasury, the redemptions neither, and the payouts fail at most over fees. -/
def Redeemable [F64 F] (val : F → ℝ) (s : State F) (market : Market F) : Prop :=
  ∀ priced : Market F, priced.id = market.id →
    priced.finalPrices.length = market.shares.length →
    (∀ p ∈ priced.finalPrices, 0 ≤ val p) → (priced.finalPrices.map val).sum = 1 →
    ∃ treasury payouts, s.getMarketFundsSats priced.id false = .ok treasury ∧
      ((holdings s.markets priced.id).map fun h =>
        ⌊worth val priced.finalPrices h⌋₊).sum ≤ treasury ∧
      calculateShareRedemptions s priced treasury = .ok (payouts, totalSats payouts) ∧
      totalSats payouts ≤ treasury ∧
      ∀ height decisionOutcomes decisions e,
        calculateSharePayouts s priced height decisionOutcomes decisions = .error e →
          distributeFees s priced decisionOutcomes decisions = .error e

theorem requiredTreasury_le {market : Market F} {treasury : Nat}
    (h : lmsrPotential market.liquidityBaseSats market.shares ≤ treasury) :
    requiredTreasury market ≤ treasury := by
  rcases le_or_gt market.shares.length 1 with hone | hmany
  · have hlog : Real.log market.shares.length = 0 := by
      interval_cases market.shares.length <;> simp
    rw [requiredTreasury, hlog, div_zero, zero_mul]
    exact Nat.cast_nonneg treasury
  · refine le_of_eq_of_le ?_ h
    rw [lmsrPotential, deriveBeta_of_lt hmany, cost, logSumExp, requiredTreasury]
    have hshares : (market.shares.map fun q => Real.exp (q.val /
        (market.liquidityBaseSats / Real.log market.shares.length))).sum =
          ((sharesToF64 market.shares).map fun x => Real.exp (x /
            (market.liquidityBaseSats / Real.log market.shares.length))).sum := by
      rw [sharesToF64, List.map_map]
      refine congrArg List.sum (List.map_congr_left fun q _ => ?_)
      exact congrArg (fun x : ℝ => Real.exp (x / _)) (Rat.cast_intCast q.val).symm
    rw [hshares, sum_map_eq]

theorem covered_of_backed {L : Library F} {s : State F} {market : Market F}
    (h : Backed L lmsrPotential (fundsOf s) market.id market) : Covered s market := by
  obtain ⟨hpositive, -, -, treasury, hholds, hcovered⟩ := h
  refine ⟨treasury, hholds.getMarketFundsSats, requiredTreasury_le hcovered, ?_⟩
  intro q hq
  have hle := (share_le_lmsrPotential hpositive hq).trans hcovered
  exact_mod_cast hle

theorem distributeFees_of_error [F64 F] {s : State F} {market : Market F} {treasury total : Nat}
    {payouts : List (SharePayoutRecord F)} {height : Nat}
    {decisionOutcomes : List (DecisionId × F)} {decisions : DecisionMap F} {e : Error}
    (htreasury : s.getMarketFundsSats market.id false = .ok treasury)
    (hredeemed : calculateShareRedemptions s market treasury = .ok (payouts, total))
    (hle : total ≤ treasury)
    (h : calculateSharePayouts s market height decisionOutcomes decisions = .error e) :
    distributeFees s market decisionOutcomes decisions = .error e := by
  have hrefund : checkedSub treasury total = some (treasury - total) :=
    checkedSub_eq_some_iff.mpr ⟨hle, rfl⟩
  rw [calculateSharePayouts, htreasury, ok_bind, hredeemed, ok_bind] at h
  dsimp only at h
  rw [hrefund, okOr_some, ok_bind] at h
  rw [distributeFees]
  cases hfees : s.getMarketFundsSats market.id true with
  | error e' =>
      rw [hfees, error_bind] at h
      rw [error_bind]
      exact congrArg Except.error (Except.error.inj h)
  | ok feeSats =>
      rw [hfees, ok_bind] at h
      rw [ok_bind]
      cases hdistribution :
          calculateFeeDistribution s market feeSats decisionOutcomes decisions with
      | error e' =>
          rw [hdistribution, error_bind] at h
          rw [error_bind]
          exact congrArg Except.error (Except.error.inj h)
      | ok feePayouts =>
          rw [hdistribution, ok_bind] at h
          rw [ok_bind]
          cases hsum : sumU64 (feePayouts.map FeePayoutRecord.amountSats) with
          | error e' =>
              rw [hsum, error_bind] at h
              exact congrArg Except.error (Except.error.inj h)
          | ok feeTotal =>
              rw [hsum, ok_bind] at h
              cases h

end

section

variable {F : Type} [ExpF64 F] [DecidableEq F] {L : Library F} {val : F → ℝ}
  {config : DecisionConfig} {lib : WithdrawalBundle.BundleLib} {chain : List (Block F)}
  {s : State F}

/-- After blocks that spare the treasuries, the treasury of each trading market covers the market
maker in exact arithmetic, and whatever markets the next such block has settled, the market that
it looks at next is covered and redeems the positions of its holders. -/
theorem solvent_of_sparing (hL : CollisionFree L) (hmaker : MarketMaker L) (hval : ExactReal val)
    {main : MainOutputs}
    (hchain : Chain L config lib (SparesTreasuries L) (fun _ data => DepositsFrom main data)
      chain s) :
    (∀ marketId market, s.markets.getMarket marketId = some market →
      market.marketState = .trading → Covered s market) ∧
    ∀ (archive : Archive) (block : Block F) (p : Prepared F) (s₁ s₂ : State F)
        (before after : List (Market F)) (market : Market F)
        (entries : List (SettlementUndoEntry F)),
      SparesTreasuries L s block → beforeClose L config archive s block = .ok p →
      resolvePeriods L config p.state p.currentPeriod p.genesisTs p.height = .ok s₁ →
      s₁.markets.getMarketsByState .trading = before ++ market :: after →
      before.foldlM (transitionMarket L p.height) (s₁, []) = .ok (s₂, entries) →
      Covered s₂ market ∧ Redeemable val s₂ market := by
  have hT := tagsOf_tags hL main
  have hC : Potential L val lmsrPotential := potential_of_marketMaker hval hmaker
  have hdeposits : ∀ (s : State F) data, DepositsFrom main data →
      DepositsTagged (tags L main) data :=
    fun _ _ hdata => depositsTagged_of_depositsFrom hL hdata
  have hsolvent := solvent_of_chain hL hT hC hval.toExact hdeposits hchain
  refine ⟨fun marketId market hmarket htrading => ?_, ?_⟩
  · obtain rfl := keyed_of_run hchain.run marketId market hmarket
    exact covered_of_backed (hsolvent _ market hmarket htrading)
  · intro archive block p s₁ s₂ before after market entries hspares hp hresolved hmarkets hbefore
    have hsettling := settling_of_chain hL hT hC hval.toExact hdeposits hchain hspares hp hresolved
      hmarkets hbefore
    refine ⟨covered_of_backed (hsettling.backed market List.mem_cons_self), ?_⟩
    intro priced hid hlength hprices hsum
    obtain ⟨treasury, payouts, htreasury, hfloors, hredeemed, hle⟩ :=
      redemptions_of_settling hC hval.toExactOps hsettling hid hlength hprices hsum.le
    exact ⟨treasury, payouts, htreasury, hfloors, hredeemed, hle, fun _ _ _ _ herror =>
      distributeFees_of_error htreasury hredeemed hle herror⟩

end

open Truthcoin.SampleMarkets Truthcoin.SampleChain

/-- The temperature of a market of two outcomes with ten thousand satoshis. -/
noncomputable def sampleBeta : Elementary :=
  deriveBetaFromLiquidity 10000 2

theorem val_sampleBeta : sampleBeta.val = 10000 / Real.log 2 := by
  rw [sampleBeta, val_deriveBeta Elementary.exactReal_elementary, deriveBeta_of_lt (by norm_num)]
  norm_num

theorem inRange_sampleBeta : InRange sampleBeta.val := by
  have hlow := Real.log_two_gt_d9
  have hhigh := Real.log_two_lt_d9
  have hpos : 0 < Real.log 2 := by linarith
  rw [val_sampleBeta]
  refine ⟨?_, ?_⟩
  · rw [lt_div_iff₀ hpos]
    linarith
  · rw [div_lt_iff₀ hpos]
    linarith

noncomputable def sampleCost (shares : List I64) : Elementary :=
  let shares : List Elementary := sharesToF64 shares
  F64.mul sampleBeta (F64.add
    (F64.log (F64.sum (shares.map fun share =>
      ExpF64.exp (F64.div (F64.sub share (maxShare shares)) sampleBeta))))
    (F64.div (maxShare shares) sampleBeta))

/-- What the first ten shares of the market cost. -/
noncomputable def tenTerm : NumberTerm :=
  .sub (sampleCost [ten, I64.zero]).toTerm (sampleCost [I64.zero, I64.zero]).toTerm

theorem calculateUpdateCost_ten :
    calculateUpdateCost (sharesToF64 [I64.zero, I64.zero]) (sharesToF64 [ten, I64.zero])
      sampleBeta = .ok (Elementary.ofTerm tenTerm) := by
  have hcost (shares : List I64) (hne : shares ≠ []) :
      costFunction sampleBeta (sharesToF64 shares) = .ok (sampleCost shares) :=
    costFunction_ok Elementary.exactReal_elementary (fun _ => rfl) inRange_sampleBeta
      fun hnil => hne (List.map_eq_nil_iff.mp hnil)
  rw [calculateUpdateCost, hcost _ (by simp), hcost _ (by simp)]
  rfl

theorem eval_tenTerm : tenTerm.eval =
    10000 / Real.log 2 * Real.log ((Real.exp (10 / (10000 / Real.log 2)) + 1) / 2) := by
  obtain ⟨-, -, hval⟩ := val_calculateUpdateCost Elementary.exactReal_elementary
    (by simp [sharesToF64]) calculateUpdateCost_ten
  have hshares := val_sharesToF64 Elementary.exactReal_elementary.toExact
  rw [Elementary.val_ofTerm, hshares, hshares, val_sampleBeta] at hval
  have hcost (x y : I64) (β : ℝ) : cost β (sharesToF64 [x, y]) =
      β * Real.log (Real.exp (x.val / β) + Real.exp (y.val / β)) := by
    have hx (x : I64) : F64.ofInt x.val = (x.val : ℝ) := Rat.cast_intCast x.val
    have hshares : sharesToF64 [x, y] = [(x.val : ℝ), (y.val : ℝ)] := by
      simp only [sharesToF64, List.map_cons, List.map_nil, hx]
    rw [hshares, cost_of_length (n := 2) rfl, logSumExp, Fin.sum_univ_two]
    rfl
  rw [hval, hcost, hcost]
  have hzero : (I64.zero.val : ℝ) = 0 := by norm_num [I64.zero]
  have hten : (ten.val : ℝ) = 10 := by norm_num [ten]
  rw [hzero, hten, zero_div, Real.exp_zero, Real.log_div (by positivity) two_ne_zero]
  ring_nf

theorem tenTerm_between : 5 < tenTerm.eval ∧ tenTerm.eval < 6 := by
  have hlow := Real.log_two_gt_d9
  have hhigh := Real.log_two_lt_d9
  have hpos : 0 < Real.log 2 := by linarith
  have hx : 10 / (10000 / Real.log 2) = Real.log 2 / 1000 := by
    field_simp
    norm_num
  rw [eval_tenTerm, hx]
  generalize hy : Real.log 2 / 1000 = y
  have hypos : 0 < y := by rw [← hy]; linarith
  have hysmall : y < 1 / 1000 := by rw [← hy]; linarith
  have hbeta : 10000 / Real.log 2 = 10 / y := by
    rw [← hy]
    field_simp
    norm_num
  rw [hbeta]
  have hmean : y / 2 < Real.log ((Real.exp y + 1) / 2) := by
    rw [Real.lt_log_iff_exp_lt (by positivity)]
    have hsquare : 0 < (Real.exp (y / 2) - 1) ^ 2 := by
      have hone : 1 < Real.exp (y / 2) := Real.one_lt_exp_iff.mpr (by linarith)
      exact pow_pos (by linarith) 2
    have hexp : Real.exp y = Real.exp (y / 2) ^ 2 := by
      rw [← Real.exp_nat_mul]
      push_cast
      ring_nf
    rw [hexp]
    nlinarith
  have hupper : Real.log ((Real.exp y + 1) / 2) < y * (6 / 10) := by
    have hbound := Real.exp_bound_div_one_sub_of_interval hypos.le (by linarith)
    have hexp : Real.exp y ≤ 1 + y * (11 / 10) := by
      refine hbound.trans ?_
      rw [div_le_iff₀ (by linarith)]
      nlinarith
    have hlog := Real.log_le_sub_one_of_pos (x := (Real.exp y + 1) / 2) (by positivity)
    linarith
  constructor
  · calc (5 : ℝ) = 10 / y * (y / 2) := by field_simp; norm_num
      _ < 10 / y * Real.log ((Real.exp y + 1) / 2) :=
        mul_lt_mul_of_pos_left hmean (by positivity)
  · calc 10 / y * Real.log ((Real.exp y + 1) / 2) < 10 / y * (y * (6 / 10)) :=
        mul_lt_mul_of_pos_left hupper (by positivity)
      _ = 6 := by field_simp

theorem floor_tenTerm : (5 : ℤ) = ⌊tenTerm.eval⌋ := by
  obtain ⟨hlow, hhigh⟩ := tenTerm_between
  rw [eq_comm, Int.floor_eq_iff]
  push_cast
  exact ⟨hlow.le, by linarith⟩

theorem ceil_tenTerm : (6 : ℤ) = ⌈tenTerm.eval⌉ := by
  obtain ⟨hlow, hhigh⟩ := tenTerm_between
  rw [eq_comm, Int.ceil_eq_iff]
  push_cast
  exact ⟨by linarith, hhigh.le⟩

/-- The cost of the first ten shares with the integers around it. -/
noncomputable def tenCost : Elementary :=
  .term tenTerm 5 6 floor_tenTerm ceil_tenTerm

/-- A market maker in exact arithmetic, that knows what the first ten shares cost. -/
noncomputable def exactLibrary (known : List (Transaction Elementary)) : Library Elementary :=
  { knownLibrary known with
    updateCost := fun old new beta =>
      if old = [I64.zero, I64.zero] ∧ new = [ten, I64.zero] ∧ beta = sampleBeta then some tenCost
      else (calculateUpdateCost (sharesToF64 old) (sharesToF64 new) beta).toOption }

theorem marketMaker_exactLibrary (known : List (Transaction Elementary)) :
    MarketMaker (exactLibrary known) := by
  intro old new beta
  change (if old = [I64.zero, I64.zero] ∧ new = [ten, I64.zero] ∧ beta = sampleBeta then
    some tenCost else _) = _
  split
  · rename_i hsample
    obtain ⟨rfl, rfl, rfl⟩ := hsample
    rw [calculateUpdateCost_ten]
    exact congrArg some (Elementary.term_eq_iff.mpr rfl)
  · rfl

theorem collisionFree_exactLibrary (known : List (Transaction Elementary)) :
    CollisionFree (exactLibrary known) := by
  have h := collisionFree_knownLibrary known
  exact ⟨h.txid, h.coinbaseTxid, h.merkleRoot, h.payoutHash⟩

/-- Create a market without a trading fee whose treasury output belongs to an address. -/
def creatingFree (deposit : Nat) (treasury : Address) : Transaction Elementary :=
  spending deposit [⟨treasury, .marketFunds (marketNamed "") 10000 false, []⟩]
    (.createMarket ⟨"", "", [.single marketDecision], [], some (.rational 0), none, none, none⟩)

def amplifying (input : OutPoint) : Transaction Elementary :=
  ⟨[input], [], [], some (.amplifyBeta ⟨marketNamed "", 5000, owner⟩)⟩

noncomputable def sampleLib (txss : List (List (Transaction Elementary))) : Library Elementary :=
  exactLibrary txss.flatten

noncomputable def sampleBodies (txss : List (List (Transaction Elementary))) :
    List (Block Elementary) :=
  txss.zipIdx.map fun txs => ownedBlock (sampleLib txss) (txs.2 + 1) txs.1

section

variable (ok : State Elementary → Block Elementary → Prop) [∀ s block, Decidable (ok s block)]

/-- The genesis block, deposits, and blocks with transactions. -/
noncomputable def sampleRun (txss : List (List (Transaction Elementary))) :
    Except Error (State Elementary) := do
  let connect := fun (s : State Elementary) blocks =>
    blocks.foldlM (applyChecked (sampleLib txss) marketConfig ok heightArchive) s
  let s ← connect (State.empty Elementary) [ownedBlock (sampleLib txss) 0 []]
  let s ← s.connectTwoWayPegData sampleBundleLib (deposits 5)
  connect s (sampleBodies txss)

variable {ok}

theorem chain_of_sampleRun {txss : List (List (Transaction Elementary))} {s : State Elementary}
    (h : sampleRun ok txss = .ok s) :
    Chain (sampleLib txss) marketConfig sampleBundleLib ok
      (fun _ data => DepositsFrom sampleMain data)
      ((sampleBodies txss).reverse ++ [ownedBlock (sampleLib txss) 0 []]) s := by
  obtain ⟨s₀, h₀, h⟩ := bind_eq_ok_iff.mp h
  obtain ⟨s₁, h₁, h⟩ := bind_eq_ok_iff.mp h
  have hgenesis : Chain (sampleLib txss) marketConfig sampleBundleLib ok
      (fun _ data => DepositsFrom sampleMain data) [ownedBlock (sampleLib txss) 0 []] s₀ :=
    chain_of_checked Chain.start h₀
  exact chain_of_checked (hgenesis.connectPeg (depositsFrom_deposits 5) h₁) h

end

/-- Claim a decision, create a market on it, buy ten shares of it and amplify it. -/
def boughtTxs : List (List (Transaction Elementary)) :=
  [[claiming 0 marketDecision], [creatingFree 1 1],
    [trading 2 "" ten 2, amplifying (.deposit 3 3)]]

/-- The next block settles the market. -/
noncomputable def settlingBought :
    Except Error (State Elementary × Prepared Elementary × State Elementary) := do
  let L := sampleLib boughtTxs
  let s ← sampleRun (SparesTreasuries L) boughtTxs
  let p ← beforeClose L marketConfig heightArchive s (ownedBlock L 4 [])
  let s₁ ← resolvePeriods L marketConfig p.state p.currentPeriod p.genesisTs p.height
  .ok (s, p, s₁)

noncomputable def settlesBought
    (run : State Elementary × Prepared Elementary × State Elementary) : Bool :=
  decide (SparesTreasuries (sampleLib boughtTxs) run.1 (ownedBlock (sampleLib boughtTxs) 4 [])) &&
    ((run.1.markets.getMarket (marketNamed "")).elim false fun market =>
      market.marketState = .trading ∧ market.shares.map Subtype.val = [10, 0] ∧
        market.liquidityBaseSats = 15000 ∧
        run.1.getMarketFundsSats (marketNamed "") false = .ok 15006) &&
    match run.2.2.markets.getMarketsByState .trading with
    | [] => false
    | market :: _ =>
        isResolved run.2.2 market &&
          decide ((holdings run.2.2.markets market.id).map (fun h => h.2.2.val) = [10])

/-- Ten shares are bought for six satoshis, the market is amplified and settled. -/
theorem solvent_of_sparing_ten :
    ∃ (s s₁ : State Elementary) (traded market : Market Elementary)
        (after : List (Market Elementary)),
      Chain (sampleLib boughtTxs) marketConfig sampleBundleLib
        (SparesTreasuries (sampleLib boughtTxs)) (fun _ data => DepositsFrom sampleMain data)
        ((sampleBodies boughtTxs).reverse ++ [ownedBlock (sampleLib boughtTxs) 0 []]) s ∧
      s.markets.getMarket (marketNamed "") = some traded ∧ traded.marketState = .trading ∧
      traded.shares.map Subtype.val = [10, 0] ∧ traded.liquidityBaseSats = 15000 ∧
      s.getMarketFundsSats (marketNamed "") false = .ok 15006 ∧ Covered s traded ∧
      s₁.markets.getMarketsByState .trading = market :: after ∧ isResolved s₁ market = true ∧
      (holdings s₁.markets market.id).map (fun h => h.2.2.val) = [10] ∧
      Covered s₁ market ∧ Redeemable Elementary.val s₁ market := by
  have hcomputed : holds settlingBought settlesBought = true := by
    decide +kernel
  obtain ⟨⟨s, p, s₁⟩, hrun, htest⟩ := holds_iff.mp hcomputed
  obtain ⟨s', hs, hrun⟩ := bind_eq_ok_iff.mp hrun
  obtain ⟨p', hp, hrun⟩ := bind_eq_ok_iff.mp hrun
  obtain ⟨s₁', hresolved, hrun⟩ := bind_eq_ok_iff.mp hrun
  obtain ⟨rfl, hpair⟩ := Prod.mk.inj (Except.ok.inj hrun)
  obtain ⟨rfl, rfl⟩ := Prod.mk.inj hpair
  obtain ⟨htest, hsettles⟩ := Bool.and_eq_true_iff.mp htest
  obtain ⟨hspares, htraded⟩ := Bool.and_eq_true_iff.mp htest
  have hchain := chain_of_sampleRun hs
  obtain ⟨hcovered, hsettling⟩ := solvent_of_sparing (collisionFree_exactLibrary _)
    (marketMaker_exactLibrary _) Elementary.exactReal_elementary hchain
  cases hmarket : s'.markets.getMarket (marketNamed "") with
  | none =>
      rw [hmarket] at htraded
      cases htraded
  | some traded =>
      rw [hmarket, Option.elim_some, decide_eq_true_eq] at htraded
      obtain ⟨htrading, hshares, hliquidity, hfunds⟩ := htraded
      cases hmarkets : s₁'.markets.getMarketsByState .trading with
      | nil =>
          rw [hmarkets] at hsettles
          cases hsettles
      | cons market after =>
          rw [hmarkets] at hsettles
          obtain ⟨hisResolved, hten⟩ := Bool.and_eq_true_iff.mp hsettles
          obtain ⟨hcovered₁, hredeemable⟩ := hsettling heightArchive
            (ownedBlock (sampleLib boughtTxs) 4 []) p' s₁' s₁' [] after market []
            (of_decide_eq_true hspares) hp hresolved hmarkets rfl
          exact ⟨s', s₁', traded, market, after, hchain, hmarket, htrading, hshares, hliquidity,
            hfunds, hcovered _ _ hmarket htrading, hmarkets, hisResolved, of_decide_eq_true hten,
            hcovered₁, hredeemable⟩

/-- The creator keeps the treasury output to itself and amplifies the market with it. -/
def drainedTxs : List (List (Transaction Elementary)) :=
  [[claiming 0 marketDecision], [creatingFree 1 owner], [amplifying (.regular 1 0)]]

/-- The liquidity grows by what the amplification pays, but the treasury that it spends is gone. -/
theorem not_solvent_drained :
    CollisionFree (sampleLib drainedTxs) ∧ MarketMaker (sampleLib drainedTxs) ∧
      ExactReal Elementary.val ∧ ∃ (s : State Elementary) (market : Market Elementary),
      Chain (sampleLib drainedTxs) marketConfig sampleBundleLib (fun _ _ => True)
        (fun _ data => DepositsFrom sampleMain data)
        ((sampleBodies drainedTxs).reverse ++ [ownedBlock (sampleLib drainedTxs) 0 []]) s ∧
      s.markets.getMarket (marketNamed "") = some market ∧ market.marketState = .trading ∧
      market.shares = [I64.zero, I64.zero] ∧ market.liquidityBaseSats = 15000 ∧
      s.getMarketFundsSats market.id false = .ok 5000 ∧ ¬ Covered s market := by
  refine ⟨collisionFree_exactLibrary _, marketMaker_exactLibrary _,
    Elementary.exactReal_elementary, ?_⟩
  have hcomputed : holds (sampleRun (fun _ _ => True) drainedTxs) (fun s =>
      (s.markets.getMarket (marketNamed "")).elim false fun market =>
        market.marketState = .trading ∧ market.shares = [I64.zero, I64.zero] ∧
          market.liquidityBaseSats = 15000 ∧ s.getMarketFundsSats market.id false = .ok 5000) =
        true := by
    decide +kernel
  obtain ⟨s, hrun, htest⟩ := holds_iff.mp hcomputed
  cases hmarket : s.markets.getMarket (marketNamed "") with
  | none =>
      rw [hmarket] at htest
      cases htest
  | some market =>
      rw [hmarket, Option.elim_some, decide_eq_true_eq] at htest
      obtain ⟨htrading, hshares, hliquidity, hfunds⟩ := htest
      refine ⟨s, market, chain_of_sampleRun hrun, hmarket, htrading, hshares, hliquidity, hfunds,
        ?_⟩
      rintro ⟨treasury, htreasury, hle, -⟩
      obtain rfl := Except.ok.inj (hfunds.symm.trans htreasury)
      have hlog : Real.log 2 ≠ 0 := (Real.log_pos (by norm_num)).ne'
      have hrequired : requiredTreasury market = 15000 := by
        rw [requiredTreasury, hshares, hliquidity]
        norm_num [I64.zero, hlog]
      rw [hrequired] at hle
      norm_num at hle

end Truthcoin.MarketSolvency
