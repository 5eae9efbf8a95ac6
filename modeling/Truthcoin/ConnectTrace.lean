import Truthcoin.ApplySteps
import Truthcoin.BlockRun

/-!
# The course of a connection and of a disconnection

The intermediate results of connecting a block and of disconnecting the tip, and
the parts of the state that each of their phases leaves alone.
-/

namespace Truthcoin.ConnectTrace

open Truthcoin.Types Truthcoin.Table Truthcoin.Fallible Truthcoin.Arithmetic
open Truthcoin.Decisions Truthcoin.Markets Truthcoin.Voting Truthcoin.Blocks
open Truthcoin.Validation Truthcoin.Settlement Truthcoin.Apply Truthcoin.ApplySteps
open Truthcoin.Consolidation Truthcoin.Connect Truthcoin.Disconnect

variable {F : Type} [F64 F] [DecidableEq F]

omit [DecidableEq F] in
theorem startBlock_eq (s : State F) (body : Body F) (height timestamp : Nat) :
    startBlock s body height timestamp =
      { s with
        genesisTimestamp := (startBlock s body height timestamp).genesisTimestamp
        reputation := (startBlock s body height timestamp).reputation
        decisions := s.decisions.snapshotPeriodPricing height
        mintingUndo := s.mintingUndo.insert height
          (s.decisions.getHighestMintedPeriod.getD 0) } := by
  unfold startBlock
  split <;> rfl

/-- What connecting a block computes on the way. -/
structure Trace (F : Type) where
  pre : PrevalidatedBlock F
  currentPeriod : Nat
  voting : Dbs F
  applied : Applied F
  spent : Coins
  written : MarketsDatabase F
  funds : Funds
  undo : Option ConsolidationUndoData
  priced : Dbs F
  tables : ConsensusTables F
  resolved : List (ConsensusUndoEntry F)
  paid : State F
  settled : List (SettlementUndoEntry F)

namespace Trace

variable (L : Library F) (t : Trace F) (s : State F) (block : Block F)

def height : Nat := t.pre.nextHeight

/-- The genesis timestamp that the block is connected under. -/
def genesisTs : Nat :=
  ((startBlock s block.body t.height block.mainchainTimestamp).genesisTimestamp).getD 0

def coinbase : List CoinRow :=
  coinbaseRows (L.coinbaseTxid block.header) block.body.coinbase.outputs

/-- The state before the transactions. -/
def opened : State F :=
  { startBlock s block.body t.height block.mainchainTimestamp with
    decisions := t.voting
    coins := insertRows s.coins (coinbase L block) }

/-- The transactions that are not skipped. -/
def txs : List (FilledTransaction F) :=
  notSkipped t.pre.filledTransactions t.applied.skipped

/-- The state after the collected changes are written, before the consolidation. -/
def changed : State F :=
  { t.applied.state with
    coins := t.spent
    markets := t.written
    voting := t.applied.update.voteSubmissions.foldl VotingDatabases.putVote
      t.applied.state.voting }

/-- The state after the transactions. -/
def consolidated : State F :=
  { withFunds t.changed t.funds with
    consolidationUndo := t.undo.elim t.applied.state.consolidationUndo
      fun data => t.applied.state.consolidationUndo.insert t.height data }

/-- The state before the settlement of markets. -/
def counted : State F :=
  { t.consolidated with
    voting := t.tables.voting
    decisions := t.tables.decisions
    reputation := t.tables.reputation
    consensusUndo := putUndo t.applied.state.consensusUndo t.height t.resolved }

/-- The state after the block. -/
def finished : State F :=
  finishBlock L
    { t.paid with settlementUndo := putUndo t.paid.settlementUndo t.height t.settled }
    block.header t.height block.mainchainTimestamp t.applied.skipped

end Trace

/-- The trace follows the connection of a block up to the counting of the votes. -/
structure Prepares (L : Library F) (config : DecisionConfig) (archive : Archive)
    (s : State F) (block : Block F) (t : Trace F) : Prop where
  prevalidated : prevalidate L config archive s block.header block.body = .ok t.pre
  period : getCurrentPeriod config block.mainchainTimestamp (some t.height)
    (t.genesisTs s block) = .ok t.currentPeriod
  voting : transitionAllToVoting
    (startBlock s block.body t.height block.mainchainTimestamp).decisions t.currentPeriod
      t.height = .ok t.voting
  coinbase : validateCoinbaseOutputs block.body.coinbase.outputs = .ok ()
  applied : applyTransactions L (t.opened L s block) t.pre.filledTransactions t.height =
    .ok t.applied
  changes : t.applied.update.validateAllChanges t.applied.state = .ok ()
  fees : validateFees t.pre.coinbaseValue t.pre.filledTransactions t.applied.skipped = .ok ()
  spent : t.txs.foldlM (applyUtxoChanges L) t.applied.state.coins = .ok t.spent
  written : writeMarkets L t.applied.update t.height t.applied.state.markets = .ok t.written
  funds : consolidateMarketUtxos L t.height t.applied.update.pendingSellPayouts
    t.applied.update.pendingBuySettlements t.applied.update.pendingSellInputChanges
    ⟨t.spent, t.written.marketFundsUtxos⟩ = .ok (t.funds, t.undo)
  priced : priceBlock config t.applied.state.decisions t.height block.mainchainTimestamp
    (t.genesisTs s block) = .ok t.priced

/-- The trace is the one of connecting a block. -/
structure Connects (L : Library F) (config : DecisionConfig) (archive : Archive)
    (s : State F) (block : Block F) (t : Trace F) : Prop
    extends Prepares L config archive s block t where
  tables : (periodsToResolve t.priced t.currentPeriod).foldlM
    (resolvePeriod L config (t.genesisTs s block) t.height)
    (⟨t.changed.voting, t.priced, t.applied.state.reputation⟩, []) =
      .ok (t.tables, t.resolved)
  paid : transitionAndPayoutResolvedMarkets L t.counted t.height = .ok (t.paid, t.settled)

/-- What the counting of the votes of a block starts from. -/
structure Prepared (F : Type) where
  state : State F
  currentPeriod : Nat
  genesisTs : Nat
  height : Nat
  skipped : List Nat

/-- The first half of connecting a block, up to the counting of the votes. -/
def beforeClose (L : Library F) (config : DecisionConfig) (archive : Archive) (s : State F)
    (block : Block F) : Except Error (Prepared F) := do
  let pre ← prevalidate L config archive s block.header block.body
  let height := pre.nextHeight
  let timestamp := block.mainchainTimestamp
  let s := startBlock s block.body height timestamp
  let genesisTs := s.genesisTimestamp.getD 0
  let currentPeriod ← getCurrentPeriod config timestamp (some height) genesisTs
  let decisions ← transitionAllToVoting s.decisions currentPeriod height
  validateCoinbaseOutputs block.body.coinbase.outputs
  let coins := insertRows s.coins
    (coinbaseRows (L.coinbaseTxid block.header) block.body.coinbase.outputs)
  let (s, skipped) ← connectTransactions L { s with decisions, coins } pre
  let decisions ← priceBlock config s.decisions height timestamp genesisTs
  .ok ⟨{ s with decisions }, currentPeriod, genesisTs, height, skipped⟩

/-- What the transactions of a block leave to be written. -/
structure Collected (F : Type) where
  update : StateUpdate F
  state : State F
  height : Nat
  skipped : List Nat
  currentPeriod : Nat
  genesisTs : Nat

/-- Connecting a block up to the writing of the collected changes. -/
def collect (L : Library F) (config : DecisionConfig) (archive : Archive) (s : State F)
    (block : Block F) : Except Error (Collected F) := do
  let pre ← prevalidate L config archive s block.header block.body
  let height := pre.nextHeight
  let timestamp := block.mainchainTimestamp
  let s := startBlock s block.body height timestamp
  let genesisTs := s.genesisTimestamp.getD 0
  let currentPeriod ← getCurrentPeriod config timestamp (some height) genesisTs
  let decisions ← transitionAllToVoting s.decisions currentPeriod height
  validateCoinbaseOutputs block.body.coinbase.outputs
  let coins := insertRows s.coins
    (coinbaseRows (L.coinbaseTxid block.header) block.body.coinbase.outputs)
  let applied ← applyTransactions L { s with decisions, coins } pre.filledTransactions height
  applied.update.validateAllChanges applied.state
  validateFees pre.coinbaseValue pre.filledTransactions applied.skipped
  let coins ← (notSkipped pre.filledTransactions applied.skipped).foldlM
    (applyUtxoChanges L) applied.state.coins
  .ok ⟨applied.update, { applied.state with coins }, height, applied.skipped, currentPeriod,
    genesisTs⟩

theorem applyBlock_eq (L : Library F) (config : DecisionConfig) (archive : Archive)
    (s : State F) (block : Block F) :
    applyBlock L config archive s block = (do
      let p ← beforeClose L config archive s block
      let s ← resolvePeriods L config p.state p.currentPeriod p.genesisTs p.height
      let s ← settleMarkets L s p.height
      .ok (finishBlock L s block.header p.height block.mainchainTimestamp p.skipped)) := by
  simp only [applyBlock, connectPrevalidated, beforeClose, bind_assoc, ok_bind]

/-- What a trace says about the start of the counting. -/
def Trace.prepared (t : Trace F) (s : State F) (block : Block F) : Prepared F :=
  ⟨{ t.consolidated with decisions := t.priced }, t.currentPeriod, t.genesisTs s block,
    t.height, t.applied.skipped⟩

theorem prepares_of_beforeClose {L : Library F} {config : DecisionConfig} {archive : Archive}
    {s : State F} {block : Block F} {p : Prepared F}
    (h : beforeClose L config archive s block = .ok p) :
    ∃ t, Prepares L config archive s block t ∧ p = t.prepared s block := by
  simp only [beforeClose, connectTransactions, applyAllChanges, bind_eq_ok_iff,
    Except.ok.injEq] at h
  obtain ⟨pre, hpre, currentPeriod, hperiod, voting, hvoting, _, hcoinbase, ⟨s₃, skipped⟩,
    ⟨applied, happlied, _, hchanges, _, hfees, spent, hspent, s₂, ⟨written, hwritten,
      ⟨funds, undo⟩, hfunds, rfl⟩, hpair⟩, priced, hpriced, rfl⟩ := h
  obtain ⟨rfl, rfl⟩ := Prod.mk.inj hpair
  have hcoins := congrArg State.coins
    (startBlock_eq s block.body pre.nextHeight block.mainchainTimestamp)
  dsimp only at hcoins
  rw [hcoins] at happlied
  exact ⟨⟨pre, currentPeriod, voting, applied, spent, written, funds, undo, priced,
    consensusTables s, [], s, []⟩, ⟨hpre, hperiod, hvoting, hcoinbase, happlied, hchanges, hfees,
      hspent, hwritten, hfunds, hpriced⟩, rfl⟩

theorem connects_of_applyBlock {L : Library F} {config : DecisionConfig} {archive : Archive}
    {s s' : State F} {block : Block F} (h : applyBlock L config archive s block = .ok s') :
    ∃ t, Connects L config archive s block t ∧ s' = t.finished L block := by
  rw [applyBlock_eq] at h
  simp only [resolvePeriods, settleMarkets, bind_eq_ok_iff, Except.ok.injEq] at h
  obtain ⟨p, hp, _, ⟨⟨tables, resolved⟩, htables, rfl⟩, _, ⟨⟨paid, settled⟩, hpaid, rfl⟩, rfl⟩ :=
    h
  obtain ⟨t, ht, rfl⟩ := prepares_of_beforeClose hp
  exact ⟨{ t with tables, resolved, paid, settled },
    ⟨⟨ht.prevalidated, ht.period, ht.voting, ht.coinbase, ht.applied, ht.changes, ht.fees,
      ht.spent, ht.written, ht.funds, ht.priced⟩, htables, hpaid⟩, rfl⟩

omit [DecidableEq F] in
theorem opened_eq (L : Library F) (t : Trace F) (s : State F) (block : Block F) :
    t.opened L s block =
      { s with
        genesisTimestamp := (t.opened L s block).genesisTimestamp
        reputation := (t.opened L s block).reputation
        decisions := t.voting
        coins := insertRows s.coins (Trace.coinbase L block)
        mintingUndo := (t.opened L s block).mintingUndo } := by
  unfold Trace.opened startBlock
  split <;> rfl

theorem applied_eq {L : Library F} {s : State F} {block : Block F} {t : Trace F}
    (h : applyTransactions L (t.opened L s block) t.pre.filledTransactions t.height =
      .ok t.applied) :
    t.applied.state =
      { s with
        genesisTimestamp := t.applied.state.genesisTimestamp
        reputation := t.applied.state.reputation
        reputationTransferUndo := t.applied.state.reputationTransferUndo
        decisions := t.applied.state.decisions
        coins := insertRows s.coins (Trace.coinbase L block)
        markets :=
          { s.markets with marketFundsUtxos := t.applied.state.markets.marketFundsUtxos }
        mintingUndo := t.applied.state.mintingUndo } := by
  have hframe := framed_of_applyTransactions h
  rw [opened_eq] at hframe
  unfold Framed at hframe
  have hgenesis := congrArg State.genesisTimestamp hframe
  have hminting := congrArg State.mintingUndo hframe
  dsimp only at hgenesis hminting
  rw [hframe]

/-- What disconnecting the tip computes on the way. -/
structure UndoTrace (F : Type) where
  height : Nat
  unsettled : State F
  undone : State F
  deltas : List (ShareKey × I64)
  markets : MarketsDatabase F
  coins : Coins

namespace UndoTrace

variable (t : UndoTrace F)

/-- The state before the transactions are undone. -/
def beforeTxs : State F :=
  undoConsolidation (undoConsensus t.unsettled t.height) t.height

/-- The state before the previous tip is set. -/
def reverted : State F :=
  revertDecisions
    { undoReputationTransfers { t.undone with markets := t.markets } t.height with
      coins := t.coins } t.height

end UndoTrace

/-- The trace is the one of disconnecting the tip. -/
structure Disconnects (L : Library F) (s : State F) (header : Header) (body : Body F)
    (t : UndoTrace F) (s' : State F) : Prop where
  tip : checkTip L s header body = .ok t.height
  unsettled : undoSettlement L s t.height = .ok t.unsettled
  undone : undoTransactions L t.beforeTxs body t.height = .ok (t.undone, t.deltas)
  markets : revertShares L t.undone.markets t.deltas t.height = .ok t.markets
  coins : (coinbaseOutpoints (L.coinbaseTxid header) body.coinbase.outputs).reverse.foldlM
    removeOutput t.undone.coins = .ok t.coins
  previous : setPreviousTip t.reverted header t.height = .ok s'

omit [DecidableEq F] in
theorem undoConsensus_eq (s : State F) (height : Nat) :
    undoConsensus s height =
      { s with
        voting := (undoConsensus s height).voting
        reputation := (undoConsensus s height).reputation
        consensusUndo := (undoConsensus s height).consensusUndo } := by
  let others (s' : State F) : State F :=
    { s with
      voting := s'.voting, reputation := s'.reputation, consensusUndo := s'.consensusUndo }
  unfold undoConsensus
  split
  · rfl
  · rename_i entries _
    have hreverted : revertConsensus s entries = others (revertConsensus s entries) := by
      rw [revertConsensus]
      refine List.foldlRecOn (motive := fun s' => s' = others s') _ _ rfl ?_
      exact fun s' hs' entry _ => congrArg (revertConsensusEntry · entry) hs'
    exact congrArg (fun s' => { s' with consensusUndo := s'.consensusUndo.erase height }) hreverted

omit [DecidableEq F] in
theorem undoReputationTransfers_eq (s : State F) (height : Nat) :
    undoReputationTransfers s height =
      { s with
        reputation := (undoReputationTransfers s height).reputation
        reputationTransferUndo :=
          (undoReputationTransfers s height).reputationTransferUndo } := by
  unfold undoReputationTransfers
  split <;> rfl

omit [F64 F] [DecidableEq F] in
theorem setPreviousTip_eq {s s' : State F} {header : Header} {height : Nat}
    (h : setPreviousTip s header height = .ok s') :
    s' = { s with tip := s'.tip, height := s'.height } := by
  unfold setPreviousTip at h
  split at h
  · rw [← Except.ok.inj h]
  · rw [← Except.ok.inj h]
  · cases h

theorem disconnectTip_eq_ok_iff {L : Library F} {s s' : State F} {header : Header}
    {body : Body F} :
    disconnectTip L s header body = .ok s' ↔ ∃ t, Disconnects L s header body t s' := by
  simp only [disconnectTip, bind_eq_ok_iff]
  constructor
  · rintro ⟨height, htip, unsettled, hunsettled, ⟨undone, deltas⟩, hundone, markets, hmarkets,
      coins, hcoins, h⟩
    have hframe := congrArg State.coins
      (undoReputationTransfers_eq { undone with markets } height)
    dsimp only at hframe
    rw [hframe] at hcoins
    exact ⟨⟨height, unsettled, undone, deltas, markets, coins⟩, htip, hunsettled, hundone,
      hmarkets, hcoins, h⟩
  · rintro ⟨⟨height, unsettled, undone, deltas, markets, coins⟩, htip, hunsettled, hundone,
      hmarkets, hcoins, h⟩
    refine ⟨height, htip, unsettled, hunsettled, (undone, deltas), hundone, markets, hmarkets,
      coins, ?_, h⟩
    have hframe := congrArg State.coins
      (undoReputationTransfers_eq { undone with markets } height)
    dsimp only at hframe
    rw [hframe]
    exact hcoins

omit [DecidableEq F] in
theorem revertTradeMarketState_eq_ok {L : Library F} {s s' : State F}
    {tx : FilledTransaction F} {trade : Trade} {delta : ShareKey × I64}
    (h : revertTradeMarketState L s tx trade = .ok (s', delta)) :
    ∃ old market, s.markets.getMarket trade.marketId = some old ∧
      (if trade.isBuy then revertBuy L old trade (s.height.getD 0)
        else revertSell L old trade (s.height.getD 0)) = .ok market ∧
      s.markets.updateMarket market = .ok s'.markets ∧
      accountDelta trade = .ok delta ∧
      s' = { s with
        coins := deleteOutpoints s.coins (tradeOutpoints L trade (L.txid tx.transaction))
        markets := s'.markets } := by
  unfold revertTradeMarketState at h
  split at h <;>
    · simp only [bind_eq_ok_iff, okOr_eq_ok_iff, Except.ok.injEq, Prod.mk.injEq] at h
      obtain ⟨old, hold, market, hmarket, db, hdb, _, hdelta, rfl, rfl⟩ := h
      exact ⟨old, market, hold, by simp [*], hdb, hdelta, rfl⟩

theorem revertTransaction_eq_ok {L : Library F} {acc acc' : State F × List (ShareKey × I64)}
    {tx : Transaction F} (h : revertTransaction L acc tx = .ok acc') :
    ∃ filledTx mid coins,
      State.fillTransactionFromStxos L acc.1.coins tx = .ok filledTx ∧
      ((tx.data = none ∧ mid = acc) ∨
        ∃ data, tx.data = some data ∧ revertTxData L acc filledTx data = .ok mid) ∧
      revertUtxoChanges L mid.1.coins tx = .ok coins ∧
      acc' = ({ mid.1 with coins }, mid.2) := by
  unfold revertTransaction at h
  obtain ⟨filledTx, hfilled, h⟩ := bind_eq_ok_iff.mp h
  split at h
  · rename_i hnone
    simp only [bind_eq_ok_iff, Except.ok.injEq] at h
    obtain ⟨_, rfl, coins, hcoins, rfl⟩ := h
    exact ⟨filledTx, _, coins, hfilled, .inl ⟨hnone, rfl⟩, hcoins, rfl⟩
  · rename_i data hsome
    simp only [bind_eq_ok_iff, Except.ok.injEq] at h
    obtain ⟨mid, hmid, coins, hcoins, rfl⟩ := h
    exact ⟨filledTx, mid, coins, hfilled, .inr ⟨data, hsome, hmid⟩, hcoins, rfl⟩

end Truthcoin.ConnectTrace
