import Truthcoin.ListedRuns
import Truthcoin.SampleMarkets
import Truthcoin.SeededMarkets
import Truthcoin.ShareRuns

/-!
# The treasuries cover the shares

Every block keeps the treasury of a trading market at or above the potential of its shares, so
the treasury covers what the shares of any outcome can be redeemed for, as long as nobody spends
the output that holds it.
-/

namespace Truthcoin.Solvency

open Truthcoin.Types Truthcoin.Table Truthcoin.Fallible Truthcoin.Arithmetic Truthcoin.Decisions
open Truthcoin.Markets Truthcoin.Blocks Truthcoin.Validation Truthcoin.Apply Truthcoin.ApplySteps
open Truthcoin.Connect Truthcoin.ConnectTrace Truthcoin.Consolidation Truthcoin.BlockRun
open Truthcoin.BlockChecks
open Truthcoin.Commitments Truthcoin.TagConnect Truthcoin.TwoWayPeg Truthcoin.AddressIndex
open Truthcoin.MarketSteps Truthcoin.MarketRecords Truthcoin.ShareWrites Truthcoin.ListedMarkets
open Truthcoin.ListedRuns
open Truthcoin.TradePrices Truthcoin.CostPotential Truthcoin.WrittenRecords
open Truthcoin.TreasuryOutputs Truthcoin.TreasuryFrames Truthcoin.SeededMarkets

variable {F : Type}

/-- No transaction of the block spends an output that holds a treasury, be it one that a pointer
refers to or one that the block creates. -/
def SparesTreasuries (L : Library F) (s : State F) (block : Block F) : Prop :=
  ∀ tx ∈ block.body.transactions, ∀ o ∈ tx.inputs,
    (∀ row ∈ s.markets.marketFundsUtxos.toList, row.1.isFee = false → row.2 ≠ o) ∧
      ∀ other ∈ block.body.transactions, ∀ vout < other.outputs.length,
        .regular (L.txid other) vout ≠ o

instance (L : Library F) (s : State F) (block : Block F) :
    Decidable (SparesTreasuries L s block) :=
  inferInstanceAs (Decidable (∀ tx ∈ block.body.transactions, ∀ o ∈ tx.inputs,
    (∀ row ∈ s.markets.marketFundsUtxos.toList, row.1.isFee = false → row.2 ≠ o) ∧
      ∀ other ∈ block.body.transactions, ∀ vout < other.outputs.length,
        .regular (L.txid other) vout ≠ o))

/-- The treasury of a market is at least the potential of its shares. -/
structure Backed (L : Library F) (C : Nat → List I64 → ℝ) (f : Funds) (marketId : MarketId)
    (market : Market F) : Prop where
  positive : 0 < market.liquidityBaseSats
  bounded : market.liquidityBaseSats ≤ amountMax
  shaped : Shaped market
  covered : ∃ amount, Holds L f marketId amount ∧
    C market.liquidityBaseSats market.shares ≤ amount

/-- All trading markets are backed. -/
def Solvent (L : Library F) (C : Nat → List I64 → ℝ) (s : State F) : Prop :=
  ∀ marketId market, s.markets.getMarket marketId = some market →
    market.marketState = .trading → Backed L C (fundsOf s) marketId market

variable {L : Library F} {T : Tags} {C : Nat → List I64 → ℝ} {val : F → ℝ} {marketId : MarketId}

theorem Backed.keep (hT : TagsOf L T) {f f' : Funds} {market : Market F}
    (h : Backed L C f marketId market) (hkeeps : Keeps T ⟨marketId, false⟩ f f') :
    Backed L C f' marketId market := by
  obtain ⟨amount, hholds, hle⟩ := h.covered
  exact ⟨h.positive, h.bounded, h.shaped, amount, hholds.keep hT hkeeps, hle⟩

variable [F64 F] [DecidableEq F] {config : DecisionConfig} {archive : Archive} {s s' : State F}
  {block : Block F} {t : Trace F}

theorem mem_transactions (ht : Prepares L config archive s block t) {tx : FilledTransaction F}
    (htx : tx ∈ t.txs) : tx.transaction ∈ block.body.transactions := by
  rw [← (prevalidated_of_prevalidate ht.prevalidated).map_transaction]
  exact List.mem_map_of_mem ((notSkipped_sublist _ _).subset htx)

/-- The treasuries of the markets that the block does not create stay where they are. -/
theorem spared_stored (hspares : SparesTreasuries L s block)
    (ht : Prepares L config archive s block t)
    (hnew : marketId ∉ t.applied.update.marketCreations.map Market.id) :
    ∀ o, t.applied.state.markets.marketFundsUtxos[(⟨marketId, false⟩ : FundsKey)]? = some o →
      ∀ tx ∈ t.txs, o ∉ tx.transaction.inputs := by
  intro o ho tx htx hinput
  rw [(seeds_of_prepares ht).others marketId hnew] at ho
  exact (hspares _ (mem_transactions ht htx) o hinput).1 (⟨marketId, false⟩, o)
    (mem_toList_iff.mpr ho) rfl rfl

theorem spared_created (hspares : SparesTreasuries L s block)
    (ht : Prepares L config archive s block t) {tx : FilledTransaction F} (htx : tx ∈ t.txs)
    {vout : Nat} {output : Output} (houtput : tx.transaction.outputs[vout]? = some output) :
    ∀ spending ∈ t.txs, .regular (L.txid tx.transaction) vout ∉ spending.transaction.inputs := by
  intro spending hspending hinput
  exact (hspares _ (mem_transactions ht hspending) _ hinput).2 _ (mem_transactions ht htx) vout
    (List.getElem?_eq_some_iff.mp houtput).1 rfl

theorem holds_spent (hL : CollisionFree L) (hT : TagsOf L T)
    (hspares : SparesTreasuries L s block) (ht : Prepares L config archive s block t)
    (hnew : marketId ∉ t.applied.update.marketCreations.map Market.id) {amount : Nat}
    (hholds : Holds L (fundsOf s) marketId amount) :
    Holds L ⟨t.spent, t.applied.state.markets.marketFundsUtxos⟩ marketId amount := by
  refine holds_applyAll hL ht.spent (spared_stored hspares ht hnew) (hholds.keep hT ?_)
  have hcoins : t.applied.state.coins = insertRows s.coins (Trace.coinbase L block) := by
    rw [applied_eq ht.applied]
  have hcoinbase : Keeps T ⟨marketId, false⟩ (fundsOf s)
      { fundsOf s with coins := insertRows s.coins (Trace.coinbase L block) } := by
    refine keeps_insertRows fun row hrow => ?_
    rw [coinbaseRows_funds hT (merkleRoot_of_prevalidate ht.prevalidated) ht.coinbase row hrow]
    exact (Option.some_ne_none _).symm
  refine ⟨(seeds_of_prepares ht).others marketId hnew, fun o ho => ?_⟩
  rw [hcoins]
  exact hcoinbase.coins o ho

theorem getMarket_applied (ht : Prepares L config archive s block t) :
    t.applied.state.markets.getMarket marketId = s.markets.getMarket marketId := by
  have hopened : (t.opened L s block).markets = s.markets := by rw [opened_eq]
  rw [getMarket_framed (framed_of_applyTransactions ht.applied), hopened]

theorem written_tagged (hT : TagsOf L T) (hs : Tagged T s)
    (ht : Prepares L config archive s block t) :
    FundsTagged T ⟨t.spent, t.written.marketFundsUtxos⟩ := by
  rw [writeMarkets_funds ht.written]
  exact spent_tagged hT (merkleRoot_of_prevalidate ht.prevalidated) ht.applied ht.spent hs

theorem holds_counted (hT : TagsOf L T) (hs : Tagged T s)
    (ht : Prepares L config archive s block t) {amount : Nat}
    (hholds : Holds L ⟨t.spent, t.applied.state.markets.marketFundsUtxos⟩ marketId amount) :
    ∃ rest, Holds L (fundsOf t.counted) marketId rest ∧
      rest + paidOut t.applied.update marketId = amount + paidIn t.applied.update marketId := by
  rw [← writeMarkets_funds ht.written] at hholds
  exact holds_consolidateMarketUtxos hT (written_tagged hT hs ht) ht.funds hholds

theorem backed_of_stored (hL : CollisionFree L) (hT : TagsOf L T) (hC : Potential L val C)
    (hval : Exact val) (hs : Tagged T s) (hspares : SparesTreasuries L s block)
    (ht : Prepares L config archive s block t)
    (hnew : marketId ∉ t.applied.update.marketCreations.map Market.id) {old new : Market F}
    (hold : s.markets.getMarket marketId = some old) (hbacked : Backed L C (fundsOf s) marketId old)
    (hwritten : Written t.applied.update marketId old new) :
    Backed L C (fundsOf t.counted) marketId new := by
  have hbalanced : AllBalanced C t.applied.state t.applied.update :=
    effects_preserve (P := AllBalanced C)
      (fun _ _ _ _ _ _ hu heffect => allBalanced_of_effect hC hval heffect hu)
      (effects_of_applyTransactions ht.applied) fun _ _ _ _ hmax => balanced_new hmax
  have happlied : t.applied.state.markets.getMarket marketId = some old := by
    rw [getMarket_applied ht, hold]
  obtain ⟨running, hrunning, hpaid⟩ :=
    hbalanced marketId old happlied hbacked.positive hbacked.bounded
  obtain ⟨amount, hholds, hcovered⟩ := hbacked.covered
  obtain ⟨rest, hrest, hsum⟩ :=
    holds_counted hT hs ht (holds_spent hL hT hspares ht hnew hholds)
  obtain rfl := Except.ok.inj (hrunning.symm.trans hwritten.shares)
  have hbase : saturatingAdd old.liquidityBaseSats (t.applied.update.amplifications marketId).sum =
      new.liquidityBaseSats := by
    rw [saturatingAdd, ← hwritten.liquidity]
    exact min_eq_left (hwritten.bounded hbacked.bounded)
  rw [hbase] at hpaid
  have hsum' : (rest : ℝ) + paidOut t.applied.update marketId =
      amount + paidIn t.applied.update marketId := by exact_mod_cast hsum
  refine ⟨?_, hwritten.bounded hbacked.bounded, hwritten.shaped hbacked.shaped, rest, hrest,
    by linarith⟩
  rw [hwritten.liquidity]
  exact Nat.add_pos_left hbacked.positive _

theorem backed_of_created (hL : CollisionFree L) (hT : TagsOf L T) (hC : Potential L val C)
    (hs : Tagged T s) (hspares : SparesTreasuries L s block)
    (ht : Prepares L config archive s block t) {old new : Market F}
    (hold : old ∈ t.applied.update.marketCreations)
    (hwritten : Written t.applied.update old.id old new) :
    Backed L C (fundsOf t.counted) old.id new := by
  have hseeded := seeded_of_prepares ht hold
  obtain ⟨tx, htx, -, vout, output, houtput, hamount, hpointer⟩ := hseeded.treasury
  have hholds := holds_created hL ht.spent (fun o ho => by
    obtain rfl := Option.some.inj (hpointer.symm.trans ho)
    exact spared_created hspares ht htx houtput) htx houtput hamount hpointer
  obtain ⟨rest, hrest, hsum⟩ := holds_counted hT hs ht hholds
  have hamplified : OnlyAmplified t.applied.state t.applied.update :=
    effects_preserve (P := OnlyAmplified)
      (fun _ _ _ _ _ _ hu heffect => onlyAmplified_of_effect heffect hu)
      (effects_of_applyTransactions ht.applied) fun _ _ => ⟨rfl, rfl, rfl⟩
  obtain ⟨hmoves, hout, hin⟩ :=
    hamplified old.id ((creations_of_validateAllChanges ht.changes).2 old hold)
  have hshares := hwritten.shares
  rw [hmoves] at hshares
  have hzero : ∀ x ∈ new.shares, x.val = 0 := by
    rw [← Except.ok.inj hshares]
    exact ((creations_fresh ht).1 old hold).shares
  have hpositive : 0 < new.liquidityBaseSats := by
    rw [hwritten.liquidity]
    exact Nat.add_pos_left hseeded.positive _
  have hrest' : rest = new.liquidityBaseSats := by
    rw [hwritten.liquidity, ← hin, ← hsum, hout, add_zero]
  refine ⟨hpositive, hwritten.bounded hseeded.bounded, hwritten.shaped hseeded.shaped, rest,
    hrest, ?_⟩
  rw [hrest']
  exact hC.seed _ _ hpositive hzero

theorem solvent_counted (hL : CollisionFree L) (hT : TagsOf L T) (hC : Potential L val C)
    (hval : Exact val) (hs : Tagged T s) (hkeyed : Keyed s.markets)
    (hspares : SparesTreasuries L s block) (hsolvent : Solvent L C s)
    (ht : Prepares L config archive s block t) : Solvent L C t.counted := by
  intro marketId market hmarket htrading
  obtain ⟨old, hold, hwritten⟩ :=
    written_of_writeMarkets (keyed_applied hkeyed ht.applied) ht.written hmarket
  rcases getMarket_addMarkets_cases hold with ⟨hstored, hnew⟩ | ⟨hcreated, rfl⟩
  · rw [getMarket_applied ht] at hstored
    have hbacked := hsolvent marketId old hstored (hwritten.state.symm.trans htrading)
    exact backed_of_stored hL hT hC hval hs hspares ht hnew hstored hbacked hwritten
  · exact backed_of_created hL hT hC hs hspares ht hcreated hwritten

theorem counted_tagged (hT : TagsOf L T) (hs : Tagged T s)
    (ht : Prepares L config archive s block t) : FundsTagged T (fundsOf t.counted) :=
  (consolidateMarketUtxos_tagged hT (written_tagged hT hs ht) ht.funds).1

theorem solvent_applyBlock (hL : CollisionFree L) (hT : TagsOf L T) (hC : Potential L val C)
    (hval : Exact val) (hs : Tagged T s) (hkeyed : Keyed s.markets)
    (hspares : SparesTreasuries L s block) (hsolvent : Solvent L C s)
    (h : applyBlock L config archive s block = .ok s') : Solvent L C s' := by
  obtain ⟨t, ht, rfl⟩ := connects_of_applyBlock h
  have htagged := counted_tagged hT hs ht.toPrepares
  have hcounted :=
    solvent_counted hL hT hC hval hs hkeyed hspares hsolvent ht.toPrepares
  intro marketId market hmarket htrading
  obtain ⟨hbefore, hkeeps⟩ :=
    settlements_others hT htagged.coins htagged.pointers ht.paid hmarket htrading
  exact (hcounted marketId market hbefore htrading).keep hT hkeeps

section

variable {lib : WithdrawalBundle.BundleLib} {ok : State F → Block F → Prop}
  {okPeg : State F → TwoWayPegData → Prop} {chain : List (Block F)}

/-- The genesis block creates no market, since there is nothing that a transaction could
spend. -/
theorem creations_genesis (ht : Prepares L config archive (State.empty F) block t) :
    t.applied.update.marketCreations = [] := by
  refine List.eq_nil_iff_forall_not_mem.mpr fun market hmarket => ?_
  obtain ⟨tx, htx, hspent, -⟩ := (seeded_of_prepares ht hmarket).treasury
  have hpre := prevalidated_of_prevalidate ht.prevalidated
  have hfilled := (hpre.exists_filledFrom ((notSkipped_sublist _ _).subset htx)).spent
  generalize tx.transaction.inputs = inputs at hfilled
  generalize tx.spentUtxos = outputs at hfilled hspent
  cases hfilled with
  | nil => exact hspent rfl
  | cons hunspent _ => cases hunspent

theorem empty_of_chain (hchain : Chain L config lib ok okPeg [] s) : s = State.empty F := by
  rcases hchain.empty_or_height with hempty | ⟨height, hheight⟩
  · exact hempty
  · rw [height_of_run hchain.run] at hheight
    cases hheight

theorem untraded_of_chain (hT : TagsOf L T)
    (hdeposits : ∀ s data, okPeg s data → DepositsTagged T data)
    (hchain : Chain L config lib ok okPeg chain s) (hheight : s.height = some 0)
    {market : Market F} (hmarket : s.markets.getMarket marketId = some market) :
    market.marketState ≠ .trading := by
  induction hchain with
  | start => cases hmarket
  | @connect _ s₀ _ block archive hchain hok h ih =>
      intro htrading
      obtain ⟨t, ht, rfl⟩ := connects_of_applyBlock h
      have htagged := tagged_of_run hT hdeposits hchain.run
      have hcounted := counted_tagged hT htagged ht.toPrepares
      have hfound := (settlements_others hT hcounted.coins hcounted.pointers ht.paid hmarket
        htrading).1
      have hlength := height_of_prepares (height_of_run hchain.run) ht.toPrepares
      rw [Option.some.inj hheight] at hlength
      obtain rfl := List.length_eq_zero_iff.mp hlength.symm
      obtain rfl := empty_of_chain hchain
      obtain ⟨old, hold, -⟩ :=
        written_of_writeMarkets (keyed_applied keyed_empty ht.applied) ht.written hfound
      rw [creations_genesis ht.toPrepares] at hold
      have hnone : t.applied.state.markets.getMarket marketId = some old := hold
      rw [getMarket_applied ht.toPrepares] at hnone
      cases hnone
  | connectPeg hchain hok h ih =>
      obtain ⟨p, -, h⟩ := bind_eq_ok_iff.mp h
      rw [← Except.ok.inj h] at hheight hmarket
      exact ih hheight hmarket

theorem spendsWithdrawals_of_chain (hT : TagsOf L T)
    (hdeposits : ∀ s data, okPeg s data → DepositsTagged T data)
    (hchain : Chain L config lib ok okPeg chain s) : SpendsWithdrawals T ⟨s.coins, s.peg⟩ := by
  induction hchain with
  | start => exact fun m b st h => by simp [State.empty, PegDbs.empty] at h
  | @connect _ s₀ _ block archive hchain hok h ih =>
      obtain ⟨t, ht, rfl⟩ := connects_of_applyBlock h
      have hpeg : t.applied.state.peg = s₀.peg := by rw [applied_eq ht.applied]
      have hframe := SettlementSteps.transitionAndPayoutResolvedMarkets_framed ht.paid
      have hkept : (t.finished L block).peg = s₀.peg := (congrArg State.peg hframe).trans hpeg
      intro m b st hlookup
      exact ih m b st (hkept ▸ hlookup)
  | connectPeg hchain hok h ih =>
      obtain ⟨p, hp, h⟩ := bind_eq_ok_iff.mp h
      rw [← Except.ok.inj h]
      have htagged := tagged_of_run hT hdeposits hchain.run
      obtain ⟨_, -, hkeeps⟩ :=
        pegKeeps_connect ⟨htagged.coins, htagged.bundles⟩ (hdeposits _ _ hok) ih hp
      exact hkeeps.spends

omit [F64 F] [DecidableEq F] in
theorem Backed.peg (hT : TagsOf L T) {p p' : PegState} {height : Nat} (hheight : height ≠ 0)
    (hkeeps : PegKeeps T height p p') {pointers : Table FundsKey OutPoint} {market : Market F}
    (h : Backed L C ⟨p.coins, pointers⟩ marketId market) :
    Backed L C ⟨p'.coins, pointers⟩ marketId market := by
  obtain ⟨hpositive, hbounded, hshaped, amount, hholds, hcovered⟩ := h
  refine ⟨hpositive, hbounded, hshaped, amount, ?_, hcovered⟩
  cases hholds with
  | nothing hpointer => exact .nothing hpointer
  | output hpointer hunspent horigin =>
      have hfunds := horigin.funds hT
      refine .output hpointer ((hkeeps.coins hheight _ ?_ ?_).trans hunspent) horigin
      · rw [hfunds]
        exact Option.some_ne_none _
      · rintro txid vout rfl
        cases horigin

theorem solvent_of_chain (hL : CollisionFree L) (hT : TagsOf L T) (hC : Potential L val C)
    (hval : Exact val) (hdeposits : ∀ s data, okPeg s data → DepositsTagged T data)
    (hchain : Chain L config lib (SparesTreasuries L) okPeg chain s) : Solvent L C s := by
  induction hchain with
  | start => exact fun _ _ h => by cases h
  | connect archive hchain hok h ih =>
      exact solvent_applyBlock hL hT hC hval (tagged_of_run hT hdeposits hchain.run)
        (keyed_of_run hchain.run) hok ih h
  | @connectPeg _ s₀ _ data hchain hok h ih =>
      obtain ⟨p, hp, h⟩ := bind_eq_ok_iff.mp h
      rw [← Except.ok.inj h]
      have htagged := tagged_of_run hT hdeposits hchain.run
      obtain ⟨height, hheight, hkeeps⟩ := pegKeeps_connect ⟨htagged.coins, htagged.bundles⟩
        (hdeposits _ _ hok) (spendsWithdrawals_of_chain hT hdeposits hchain) hp
      intro marketId market hmarket htrading
      by_cases hzero : height = 0
      · subst hzero
        exact absurd htrading (untraded_of_chain hT hdeposits hchain hheight hmarket)
      · exact (ih marketId market hmarket htrading).peg hT hzero hkeeps

/-- In every state that a node reaches by connecting blocks that spare the treasuries, a market
maker whose costs come from a potential has covered the shares of every trading market: the
treasury is at least the potential, and so it pays for the shares of each outcome. -/
theorem treasury_covers_shares (hL : CollisionFree L) (hC : Potential L val C) (hval : Exact val)
    {main : MainOutputs}
    (hchain : Chain L config lib (SparesTreasuries L) (fun _ data => DepositsFrom main data)
      chain s)
    {market : Market F} (hmarket : s.markets.getMarket marketId = some market)
    (htrading : market.marketState = .trading) :
    ∃ amount, s.getMarketFundsSats marketId false = .ok amount ∧
      C market.liquidityBaseSats market.shares ≤ amount ∧
      ∀ shares ∈ market.shares, shares.val ≤ amount := by
  have hsolvent := solvent_of_chain hL (tagsOf_tags hL main) hC hval
    (fun _ _ hdata => depositsTagged_of_depositsFrom hL hdata) hchain
  obtain ⟨hpositive, -, -, amount, hholds, hcovered⟩ := hsolvent marketId market hmarket htrading
  refine ⟨amount, hholds.getMarketFundsSats, hcovered, fun shares hshares => ?_⟩
  have hle := (hC.share_le market.liquidityBaseSats market.shares hpositive shares hshares).trans
    hcovered
  exact_mod_cast hle

end

open Truthcoin.SampleMarkets Truthcoin.SampleChain Truthcoin.ShareRuns

/-- The shares of the outcome that has most. -/
def topShares (shares : List I64) : Int :=
  (shares.map Subtype.val).foldr max 0

theorem le_topShares {shares : List I64} {x : I64} (h : x ∈ shares) : x.val ≤ topShares shares := by
  induction shares with
  | nil => cases h
  | cons first shares ih =>
      change x.val ≤ max first.val (topShares shares)
      rcases List.mem_cons.mp h with rfl | h
      · exact le_max_left _ _
      · exact (ih h).trans (le_max_right _ _)

theorem topShares_zero {shares : List I64} (h : ∀ x ∈ shares, x.val = 0) :
    topShares shares = 0 := by
  induction shares with
  | nil => rfl
  | cons first shares ih =>
      change max first.val (topShares shares) = 0
      rw [h first (by simp), ih fun x hx => h x (by simp [hx]), max_self]

noncomputable def toppingLibrary : Library Rat :=
  { marketLibrary with
    updateCost := fun old new _ => some ((topShares new : Rat) - topShares old) }

theorem collisionFree_toppingLibrary : CollisionFree toppingLibrary := by
  have h := collisionFree_knownLibrary (claimTxs ++ createTxs ++ tradeTxs)
  exact ⟨h.txid, h.coinbaseTxid, h.merkleRoot, h.payoutHash⟩

theorem potential_toppingLibrary :
    Potential toppingLibrary (fun x : Rat => (x : ℝ)) (fun _ shares => topShares shares) where
  updateCost base old new c _ _ h := by
    obtain rfl := Option.some.inj h
    push_cast
    rfl
  share_le base shares _ x hx := by exact_mod_cast le_topShares hx
  seed base shares _ hzero := by rw [topShares_zero hzero]; simp
  amplify base base' shares _ hle := by
    have hle' : (base : ℝ) ≤ base' := by exact_mod_cast hle
    linarith

/-- Two markets are created and traded by blocks that spare the treasuries. -/
noncomputable def toppedTrades : Except Error (State Rat) := do
  let connect := fun (s : State Rat) blocks =>
    blocks.foldlM (applyChecked toppingLibrary marketConfig (SparesTreasuries toppingLibrary)
      heightArchive) s
  let s ← connect (State.empty Rat) [ownedBlock toppingLibrary 0 []]
  let s ← s.connectTwoWayPegData sampleBundleLib (deposits 5)
  connect s [ownedBlock toppingLibrary 1 claimTxs, ownedBlock toppingLibrary 2 createTxs,
    ownedBlock toppingLibrary 3 tradeTxs]

/-- The owner buys ten shares for ten, which the treasury then holds above the liquidity. -/
theorem treasury_covers_shares_ten :
    ∃ s : State Rat, Chain toppingLibrary marketConfig sampleBundleLib
        (SparesTreasuries toppingLibrary) (fun _ data => DepositsFrom sampleMain data)
        [ownedBlock toppingLibrary 3 tradeTxs, ownedBlock toppingLibrary 2 createTxs,
          ownedBlock toppingLibrary 1 claimTxs, ownedBlock toppingLibrary 0 []] s ∧
      s.getMarketFundsSats (marketNamed "") false = .ok 10010 ∧
      ∃ market, s.markets.getMarket (marketNamed "") = some market ∧
        ∀ shares ∈ market.shares, shares.val ≤ 10010 := by
  have hcomputed : holds toppedTrades (fun s => tradesWith s 10 &&
      decide (s.getMarketFundsSats (marketNamed "") false = .ok 10010)) = true := by
    decide +kernel
  obtain ⟨s, hrun, htest⟩ := holds_iff.mp hcomputed
  obtain ⟨htraded, hfunds⟩ := Bool.and_eq_true_iff.mp htest
  have hfunds := of_decide_eq_true hfunds
  obtain ⟨s₀, h₀, hrun⟩ := bind_eq_ok_iff.mp hrun
  obtain ⟨s₁, h₁, hrun⟩ := bind_eq_ok_iff.mp hrun
  have hgenesis : Chain toppingLibrary marketConfig sampleBundleLib
      (SparesTreasuries toppingLibrary) (fun _ data => DepositsFrom sampleMain data)
      [ownedBlock toppingLibrary 0 []] s₀ :=
    chain_of_checked Chain.start h₀
  have hchain := chain_of_checked (hgenesis.connectPeg (depositsFrom_deposits 5) h₁) hrun
  obtain ⟨market, _, hmarket, htrading, -⟩ := tradesWith_iff htraded
  obtain ⟨amount, hamount, -, hcovered⟩ := treasury_covers_shares collisionFree_toppingLibrary
    potential_toppingLibrary exact_rat hchain hmarket htrading
  obtain rfl := Except.ok.inj (hamount.symm.trans hfunds)
  exact ⟨s, hchain, hfunds, market, hmarket, hcovered⟩

end Truthcoin.Solvency
