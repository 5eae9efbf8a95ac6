import Truthcoin.PegRun

/-!
# The event block logs

`deposit_blocks` and `withdrawal_bundle_event_blocks` append a row for each
connected sidechain block that carries an event, and drop it again when the block
is disconnected.
-/

namespace Truthcoin.PegLog

open Truthcoin.Types Truthcoin.Table Truthcoin.Fallible Truthcoin.AppendLog
open Truthcoin.TwoWayPeg Truthcoin.PegSteps Truthcoin.WithdrawalBundle
open Truthcoin.PegRun

/-- Equality of the tables that no event handler touches. -/
structure SameLogs (d d' : PegDbs) : Prop where
  depositBlocks : d'.depositBlocks = d.depositBlocks
  eventBlocks : d'.withdrawalBundleEventBlocks = d.withdrawalBundleEventBlocks
  indexEvents : d'.blockIndexEvents = d.blockIndexEvents

theorem SameLogs.refl (d : PegDbs) : SameLogs d d := ⟨rfl, rfl, rfl⟩

theorem SameLogs.trans {d₁ d₂ d₃ : PegDbs} (h₁ : SameLogs d₁ d₂)
    (h₂ : SameLogs d₂ d₃) : SameLogs d₁ d₃ :=
  ⟨h₂.1.trans h₁.1, h₂.2.trans h₁.2, h₂.3.trans h₁.3⟩

/-- Mainchain block of a deposit. -/
def depositHash (event : LocatedEvent) : Option MainBlockHash :=
  match event.2 with
  | .deposit _ => some event.1
  | .withdrawalBundle _ => none

/-- Mainchain block of a bundle event. -/
def bundleEventHash (event : LocatedEvent) : Option MainBlockHash :=
  match event.2 with
  | .deposit _ => none
  | .withdrawalBundle _ => some event.1

def latestDepositBlockHash (data : TwoWayPegData) : Option MainBlockHash :=
  ((events data).filterMap depositHash).getLast?

def latestWithdrawalBundleEventBlockHash (data : TwoWayPegData) :
    Option MainBlockHash :=
  ((events data).filterMap bundleEventHash).getLast?

theorem eventsRev_eq_reverse (data : TwoWayPegData) :
    eventsRev data = (events data).reverse := by
  unfold eventsRev events
  rw [List.reverse_flatMap]
  congr 1
  funext info
  simp

theorem connectWithdrawalBundleEvent_sameLogs {s s' : PegState} {h : Nat}
    {ev ev' : BlockIndexEvents} {hash : MainBlockHash} {e : WithdrawalBundleEvent}
    (hrun : connectWithdrawalBundleEvent s h ev hash e = .ok (s', ev')) :
    SameLogs s.dbs s'.dbs := by
  unfold connectWithdrawalBundleEvent at hrun
  split at hrun
  · obtain ⟨spends, hcase, -⟩ := connectWithdrawalBundleSubmitted_cases hrun
    cases hcase <;> exact ⟨rfl, rfl, rfl⟩
  · simp only [bind_eq_ok_iff, Except.ok.injEq, Prod.mk.injEq] at hrun
    obtain ⟨_, hrun, rfl, rfl⟩ := hrun
    cases connectWithdrawalBundleConfirmed_cases hrun <;> exact ⟨rfl, rfl, rfl⟩
  · simp only [bind_eq_ok_iff, Except.ok.injEq, Prod.mk.injEq] at hrun
    obtain ⟨_, hrun, rfl, rfl⟩ := hrun
    cases connectWithdrawalBundleFailed_cases hrun <;> exact ⟨rfl, rfl, rfl⟩

theorem disconnectWithdrawalBundleEvent_sameLogs {s s' : PegState} {h : Nat}
    {e : WithdrawalBundleEvent}
    (hrun : disconnectWithdrawalBundleEvent s h e = .ok s') :
    SameLogs s.dbs s'.dbs := by
  unfold disconnectWithdrawalBundleEvent at hrun
  split at hrun
  · cases disconnectWithdrawalBundleSubmitted_cases hrun <;> exact ⟨rfl, rfl, rfl⟩
  · cases disconnectWithdrawalBundleConfirmed_cases hrun <;> exact ⟨rfl, rfl, rfl⟩
  · cases disconnectWithdrawalBundleFailed_cases hrun <;> exact ⟨rfl, rfl, rfl⟩

theorem createPendingBundle_sameLogs {L : BundleLib} {h : Nat} {s s' : PegState}
    (hrun : createPendingBundle L s h = .ok s') : SameLogs s.dbs s'.dbs := by
  cases createPendingBundle_cases hrun <;> exact ⟨rfl, rfl, rfl⟩

theorem dropPendingBundle_sameLogs {h : Nat} {s s' : PegState}
    (hrun : dropPendingBundle s h = .ok s') : SameLogs s.dbs s'.dbs := by
  cases dropPendingBundle_cases hrun <;> exact ⟨rfl, rfl, rfl⟩

theorem foldlM_connectEvent_logs {h : Nat} {es : List LocatedEvent}
    {acc acc' : ConnectAcc} (hrun : es.foldlM (connectEvent h) acc = .ok acc') :
    SameLogs acc.state.dbs acc'.state.dbs ∧
      acc'.latestDepositBlockHash =
        (es.filterMap depositHash).getLast?.or acc.latestDepositBlockHash ∧
      acc'.latestWithdrawalBundleEventBlockHash =
        (es.filterMap bundleEventHash).getLast?.or
          acc.latestWithdrawalBundleEventBlockHash := by
  induction es generalizing acc with
  | nil =>
      simp only [List.foldlM_nil, pure_eq_ok, Except.ok.injEq] at hrun
      subst hrun
      exact ⟨.refl _, by simp, by simp⟩
  | cons e es ih =>
      rw [List.foldlM_cons, bind_eq_ok_iff] at hrun
      obtain ⟨acc₁, hfirst, hrest⟩ := hrun
      obtain ⟨hlogs, hdeposit, hbundle⟩ := ih hrest
      rw [hdeposit, hbundle]
      rcases e with ⟨hash, deposit | event⟩
      · simp only [connectEvent, Except.ok.injEq] at hfirst
        subst hfirst
        refine ⟨hlogs, ?_, ?_⟩
        · simp only [List.filterMap_cons, depositHash, List.getLast?_cons]
          cases (es.filterMap depositHash).getLast? <;> rfl
        · simp only [List.filterMap_cons, bundleEventHash]
      · simp only [connectEvent, bind_eq_ok_iff, Except.ok.injEq] at hfirst
        obtain ⟨⟨s₁, ev₁⟩, hevent, rfl⟩ := hfirst
        refine ⟨(connectWithdrawalBundleEvent_sameLogs hevent).trans hlogs, ?_, ?_⟩
        · simp only [List.filterMap_cons, depositHash]
        · simp only [List.filterMap_cons, bundleEventHash, List.getLast?_cons]
          cases (es.filterMap bundleEventHash).getLast? <;> rfl

/-- What the event loop of a disconnection does to the logs and to the latest
event blocks. -/
theorem foldlM_disconnectEvent_logs {h : Nat} {es : List LocatedEvent}
    {acc acc' : DisconnectAcc}
    (hrun : es.foldlM (disconnectEvent h) acc = .ok acc') :
    SameLogs acc.state.dbs acc'.state.dbs ∧
      acc'.latestDepositBlockHash =
        acc.latestDepositBlockHash.or (es.filterMap depositHash).head? ∧
      acc'.latestWithdrawalBundleEventBlockHash =
        acc.latestWithdrawalBundleEventBlockHash.or
          (es.filterMap bundleEventHash).head? := by
  induction es generalizing acc with
  | nil =>
      simp only [List.foldlM_nil, pure_eq_ok, Except.ok.injEq] at hrun
      subst hrun
      exact ⟨.refl _, by simp, by simp⟩
  | cons e es ih =>
      rw [List.foldlM_cons, bind_eq_ok_iff] at hrun
      obtain ⟨acc₁, hfirst, hrest⟩ := hrun
      obtain ⟨hlogs, hdeposit, hbundle⟩ := ih hrest
      rw [hdeposit, hbundle]
      rcases e with ⟨hash, deposit | event⟩
      · simp only [disconnectEvent] at hfirst
        split at hfirst
        · simp at hfirst
        · obtain rfl := Except.ok.inj hfirst
          refine ⟨hlogs, ?_, ?_⟩
          · simp only [List.filterMap_cons, depositHash, List.head?_cons]
            cases acc.latestDepositBlockHash <;> simp
          · simp only [List.filterMap_cons, bundleEventHash]
      · simp only [disconnectEvent, bind_eq_ok_iff, Except.ok.injEq] at hfirst
        obtain ⟨s₁, hevent, rfl⟩ := hfirst
        refine ⟨(disconnectWithdrawalBundleEvent_sameLogs hevent).trans hlogs, ?_, ?_⟩
        · simp only [List.filterMap_cons, depositHash]
        · simp only [List.filterMap_cons, bundleEventHash, List.head?_cons]
          cases acc.latestWithdrawalBundleEventBlockHash <;> simp

/-- Append the row of a block to a log, if the block has one. -/
def appendRow (log : Table UInt32 (MainBlockHash × Nat))
    (latest : Option MainBlockHash) (h : Nat) : Table UInt32 (MainBlockHash × Nat) :=
  match latest with
  | none => log
  | some hash => append log (hash, h)

theorem connect_logs {L : BundleLib} {h : Nat} {s s' : PegState}
    {data : TwoWayPegData} (hrun : connect L (some h) s data = .ok s') :
    s'.dbs.depositBlocks =
        appendRow s.dbs.depositBlocks (latestDepositBlockHash data) h ∧
      s'.dbs.withdrawalBundleEventBlocks =
        appendRow s.dbs.withdrawalBundleEventBlocks
          (latestWithdrawalBundleEventBlockHash data) h := by
  simp only [connect, okOr_some, ok_bind, bind_eq_ok_iff] at hrun
  obtain ⟨acc, hevents, hcreate⟩ := hrun
  have hlogs := createPendingBundle_sameLogs hcreate
  obtain ⟨hsame, hdeposit, hbundle⟩ := foldlM_connectEvent_logs hevents
  simp only [Option.or_none] at hdeposit hbundle
  rw [hlogs.depositBlocks, hlogs.eventBlocks]
  simp only [recordEvents, hdeposit, hbundle, hsame.depositBlocks, hsame.eventBlocks]
  exact ⟨rfl, rfl⟩

theorem popEventBlock_ok {name : String} {missing : Error}
    {log log' : Table UInt32 (MainBlockHash × Nat)} {latest : Option MainBlockHash}
    {h : Nat} (hrun : popEventBlock name missing log latest h = .ok log') :
    (latest = none ∧ log' = log) ∨
      ∃ hash seqIdx, latest = some hash ∧ last log = some (seqIdx, hash, h) ∧
        log' = log.erase seqIdx := by
  unfold popEventBlock at hrun
  split at hrun
  · exact .inl ⟨rfl, by simpa using hrun.symm⟩
  · rename_i hash
    simp only [bind_eq_ok_iff, okOr_eq_ok_iff, ensure_eq_ok_iff,
      Except.ok.injEq] at hrun
    obtain ⟨⟨seqIdx, lastHash, lastHeight⟩, hlast, _, rfl, _, rfl, rfl⟩ := hrun
    exact .inr ⟨hash, seqIdx, rfl, hlast, rfl⟩

theorem disconnect_logs {h : Nat} {s s' : PegState} {data : TwoWayPegData}
    (hrun : disconnect (some h) s data = .ok s') :
    (∃ name missing, popEventBlock name missing s.dbs.depositBlocks
        (latestDepositBlockHash data) h = .ok s'.dbs.depositBlocks) ∧
      ∃ name missing, popEventBlock name missing s.dbs.withdrawalBundleEventBlocks
        (latestWithdrawalBundleEventBlockHash data) h =
          .ok s'.dbs.withdrawalBundleEventBlocks := by
  simp only [disconnect, okOr_some, ok_bind, bind_eq_ok_iff, Except.ok.injEq] at hrun
  obtain ⟨acc, hevents, eventBlocks, hpopEvent, s₁, hdrop, depositBlocks, hpopDeposit,
    rfl⟩ := hrun
  have hlogs := dropPendingBundle_sameLogs hdrop
  obtain ⟨hsame, hdeposit, hbundle⟩ := foldlM_disconnectEvent_logs hevents
  simp only [eventsRev_eq_reverse, List.filterMap_reverse, List.head?_reverse,
    Option.none_or] at hdeposit hbundle
  have hdepositBlocks : s₁.dbs.depositBlocks = s.dbs.depositBlocks :=
    hlogs.depositBlocks.trans hsame.depositBlocks
  have heventBlocks : acc.state.dbs.withdrawalBundleEventBlocks =
      s.dbs.withdrawalBundleEventBlocks := hsame.eventBlocks
  rw [hdeposit, hdepositBlocks] at hpopDeposit
  rw [hbundle, heventBlocks] at hpopEvent
  constructor
  · exact ⟨"deposit block", Error.noDepositBlock, hpopDeposit⟩
  · refine ⟨"withdrawal bundle event block", Error.noWithdrawalBundleEventBlock, ?_⟩
    exact hpopEvent.trans (congrArg Except.ok hlogs.eventBlocks.symm)

/-- Row of the deposit log for a connected block. -/
def depositRow (block : Nat × TwoWayPegData) : Option (MainBlockHash × Nat) :=
  (latestDepositBlockHash block.2).map fun hash => (hash, block.1)

/-- Row of the bundle event log for a connected block. -/
def bundleEventRow (block : Nat × TwoWayPegData) : Option (MainBlockHash × Nat) :=
  (latestWithdrawalBundleEventBlockHash block.2).map fun hash => (hash, block.1)

/-- The table has one row for each of `rows`, and its last row is the first of
them. -/
def IsAppendLog (log : Table UInt32 (MainBlockHash × Nat))
    (rows : List (MainBlockHash × Nat)) : Prop :=
  log.size = rows.length ∧ (last log).map Prod.snd = rows.head?

/-- Both logs hold the event-bearing blocks of the chain, and the queries answer
with the most recently connected ones. -/
structure LogsFollowChain (chain : List (Nat × TwoWayPegData)) (dbs : PegDbs) :
    Prop where
  deposits : IsAppendLog dbs.depositBlocks (chain.filterMap depositRow)
  bundleEvents : IsAppendLog dbs.withdrawalBundleEventBlocks
    (chain.filterMap bundleEventRow)
  lastDeposit : getLastDepositBlockHash dbs =
    (chain.filterMap depositRow).head?.map Prod.fst
  lastBundleEvent : getLastWithdrawalBundleEventBlockHash dbs =
    (chain.filterMap bundleEventRow).head?.map Prod.fst

/-- A log that still has room below the first byte boundary when a row is
appended to it. -/
def RoomInLogs (s : Node) (data : TwoWayPegData) : Prop :=
  (latestDepositBlockHash data ≠ none → s.peg.dbs.depositBlocks.size < 256) ∧
    (latestWithdrawalBundleEventBlockHash data ≠ none →
      s.peg.dbs.withdrawalBundleEventBlocks.size < 256)

/-- The log is the table of the given rows, all below the first byte boundary. -/
def HoldsRows (log : Table UInt32 (MainBlockHash × Nat))
    (rows : List (MainBlockHash × Nat)) : Prop :=
  log = ofRows rows ∧ rows.length ≤ 256

theorem HoldsRows.isAppendLog {log : Table UInt32 (MainBlockHash × Nat)}
    {rows : List (MainBlockHash × Nat)} (h : HoldsRows log rows) :
    IsAppendLog log rows := by
  obtain ⟨rfl, hlen⟩ := h
  refine ⟨size_ofRows hlen, ?_⟩
  cases rows with
  | nil => simp [ofRows]
  | cons row rows =>
      rw [last_ofRows (by simpa using hlen)]
      rfl

theorem HoldsRows.appendRow {log : Table UInt32 (MainBlockHash × Nat)}
    {rows : List (MainBlockHash × Nat)} (h : HoldsRows log rows)
    {latest : Option MainBlockHash} (height : Nat)
    (hroom : latest ≠ none → log.size < 256) :
    HoldsRows (PegLog.appendRow log latest height)
      ((latest.map fun hash => (hash, height)).toList ++ rows) := by
  cases latest with
  | none => exact h
  | some hash =>
      obtain ⟨rfl, hlen⟩ := h
      have hsmall : rows.length < 256 := by
        simpa [size_ofRows hlen] using hroom (by simp)
      exact ⟨append_ofRows hsmall, by simpa using hsmall⟩

theorem HoldsRows.pop {log log' : Table UInt32 (MainBlockHash × Nat)}
    {rows : List (MainBlockHash × Nat)} {latest : Option MainBlockHash}
    {height : Nat} {name : String} {missing : Error}
    (h : HoldsRows log ((latest.map fun hash => (hash, height)).toList ++ rows))
    (hpop : popEventBlock name missing log latest height = .ok log') :
    HoldsRows log' rows := by
  rcases popEventBlock_ok hpop with ⟨rfl, rfl⟩ | ⟨hash, seqIdx, rfl, hlast, rfl⟩
  · exact h
  · obtain ⟨rfl, hlen⟩ := h
    simp only [Option.map_some, Option.toList_some, List.singleton_append,
      List.length_cons] at hlen hlast ⊢
    rw [last_ofRows (by omega), Option.some.injEq, Prod.mk.injEq] at hlast
    obtain ⟨rfl, -⟩ := hlast
    exact ⟨erase_last_ofRows (by omega), by omega⟩

theorem filterMap_cons_eq {α β : Type} (f : α → Option β) (a : α) (l : List α) :
    (a :: l).filterMap f = (f a).toList ++ l.filterMap f := by
  cases h : f a <;> simp [h]

theorem holdsRows_of_run {L : BundleLib} {B : Node → Node → Prop}
    {chain : List (Nat × TwoWayPegData)} {s : Node}
    (hrun : Run L B RoomInLogs chain s) :
    HoldsRows s.peg.dbs.depositBlocks (chain.filterMap depositRow) ∧
      HoldsRows s.peg.dbs.withdrawalBundleEventBlocks
        (chain.filterMap bundleEventRow) := by
  induction hrun with
  | start => exact ⟨⟨rfl, by simp⟩, ⟨rfl, by simp⟩⟩
  | block _ _ hdbs ih => rwa [hdbs]
  | @connect chain s data h p _ hheight hok hconnect ih =>
      rw [hheight] at hconnect
      obtain ⟨hdeposit, hbundle⟩ := connect_logs hconnect
      simp only [hdeposit, hbundle]
      rw [filterMap_cons_eq, filterMap_cons_eq]
      exact ⟨ih.1.appendRow h hok.1, ih.2.appendRow h hok.2⟩
  | @disconnect chain s data h p _ hheight hdisconnect ih =>
      rw [hheight] at hdisconnect
      obtain ⟨⟨_, _, hdeposit⟩, ⟨_, _, hbundle⟩⟩ := disconnect_logs hdisconnect
      rw [filterMap_cons_eq, filterMap_cons_eq] at ih
      exact ⟨ih.1.pop hdeposit, ih.2.pop hbundle⟩

/-- As long as no log is asked for more than 256 rows, both logs follow the
chain. -/
theorem logs_follow_chain {L : BundleLib} {B : Node → Node → Prop}
    {chain : List (Nat × TwoWayPegData)} {s : Node}
    (hrun : Run L B RoomInLogs chain s) : LogsFollowChain chain s.peg.dbs := by
  obtain ⟨hdeposit, hbundle⟩ := holdsRows_of_run hrun
  have hdeposits := hdeposit.isAppendLog
  have hbundles := hbundle.isAppendLog
  refine ⟨hdeposits, hbundles, ?_, ?_⟩
  · rw [← hdeposits.2, getLastDepositBlockHash, Option.map_map]
    rfl
  · rw [← hbundles.2, getLastWithdrawalBundleEventBlockHash, Option.map_map]
    rfl

theorem roomInLogs_of_run {L : BundleLib} {B : Node → Node → Prop}
    {chain : List (Nat × TwoWayPegData)} {s : Node} (hrun : Run L B RoomInLogs chain s)
    (hlen : chain.length < 256) (height : Option Nat) (data : TwoWayPegData) :
    RoomInLogs ⟨height, s.peg⟩ data := by
  obtain ⟨hdeposit, hbundle⟩ := holdsRows_of_run hrun
  have hdeposits := List.length_filterMap_le depositRow chain
  have hbundles := List.length_filterMap_le bundleEventRow chain
  refine ⟨fun _ => ?_, fun _ => ?_⟩
  · rw [hdeposit.isAppendLog.1]
    omega
  · rw [hbundle.isAppendLog.1]
    omega

/-- One deposit without value in the `i`-th mainchain block. -/
def depositData (i : Nat) : TwoWayPegData :=
  ⟨[⟨i, [.deposit ⟨i, 0, ⟨0, .bitcoin 0, []⟩⟩]⟩]⟩

/-- A chain of `n` blocks with one deposit each. -/
def depositChain : Nat → List (Nat × TwoWayPegData)
  | 0 => []
  | n + 1 => (n, depositData n) :: depositChain n

def depositChainHeight : Nat → Option Nat
  | 0 => none
  | n + 1 => some n

/-- States in which a deposit connects without further effect on the bundles. -/
structure NoBundles (s : PegState) : Prop where
  pending : s.dbs.pendingWithdrawalBundle = none
  failed : s.dbs.latestFailedWithdrawalBundle = none
  plain : ∀ (o : OutPoint) (output : FilledOutput), s.coins.utxos[o]? = some output →
    output.content.isWithdrawal = false

theorem createPendingBundle_of_noBundles (L : BundleLib) {s : PegState}
    (hs : NoBundles s) (height : Nat) : createPendingBundle L s height = .ok s := by
  have hgap : failureGapPassed s.dbs height =
      .ok (decide (withdrawalBundleFailureGap ≤ height)) := by
    simp [failureGapPassed, getLatestFailedWithdrawalBundle, hs.failed, ensure]
  have hcollect := collectWithdrawalBundle_of_plain L height hs.plain
  unfold createPendingBundle
  rw [hgap, ok_bind]
  split
  · rw [hcollect]
    rfl
  · rfl

theorem connect_depositData (L : BundleLib) {s : PegState} (hs : NoBundles s)
    (n : Nat) : ∃ p, connect L (some n) s (depositData n) = .ok p ∧ NoBundles p := by
  let deposit : Deposit := ⟨n, 0, ⟨0, .bitcoin 0, []⟩⟩
  let acc : ConnectAcc := ⟨⟨s.coins.insertUtxo deposit.outpoint deposit.output, s.dbs⟩,
    ⟨[(deposit.outpoint, deposit.output)], []⟩, some n, none⟩
  have hplain : NoBundles (recordEvents acc n) := by
    refine ⟨hs.pending, hs.failed, ?_⟩
    intro o output ho
    change (s.coins.insertUtxo deposit.outpoint deposit.output).utxos[o]? =
      some output at ho
    rw [Coins.insertUtxo_utxos] at ho
    split at ho
    · obtain rfl := Option.some.inj ho
      rfl
    · exact hs.plain o output ho
  refine ⟨recordEvents acc n, ?_, hplain⟩
  exact createPendingBundle_of_noBundles L hplain n

theorem latestDepositBlockHash_depositData (n : Nat) :
    latestDepositBlockHash (depositData n) = some n := rfl

theorem latestWithdrawalBundleEventBlockHash_depositData (n : Nat) :
    latestWithdrawalBundleEventBlockHash (depositData n) = none := rfl

theorem depositRows_depositChain (n : Nat) :
    ((depositChain n).filterMap depositRow).length = n := by
  induction n with
  | zero => rfl
  | succ n ih => simp [depositChain, depositRow, latestDepositBlockHash_depositData, ih]

theorem next_depositChainHeight (n : Nat) :
    (depositChainHeight n).elim 0 (· + 1) = n := by
  cases n <;> rfl

theorem run_depositChain (L : BundleLib) {n : Nat} (hn : n ≤ 256) :
    ∃ s, Run L EmptyBlock RoomInLogs (depositChain n) s ∧
      s.height = depositChainHeight n ∧ NoBundles s.peg := by
  induction n with
  | zero =>
      exact ⟨Node.empty, .start, rfl, rfl, rfl, by simp [Node.empty, Coins.empty]⟩
  | succ n ih =>
      obtain ⟨s, hrun, hheight, hs⟩ := ih (by omega)
      obtain ⟨p, hconnect, hp⟩ := connect_depositData L hs n
      have hblock : Run L EmptyBlock RoomInLogs (depositChain n) ⟨some n, s.peg⟩ :=
        .block hrun (by rw [EmptyBlock, hheight, next_depositChainHeight]) rfl
      have hsize : s.peg.dbs.depositBlocks.size < 256 := by
        have hlog := (holdsRows_of_run hrun).1.isAppendLog.1
        rw [hlog, depositRows_depositChain]
        omega
      have hroom : RoomInLogs ⟨some n, s.peg⟩ (depositData n) :=
        ⟨fun _ => hsize, by simp [latestWithdrawalBundleEventBlockHash_depositData]⟩
      exact ⟨⟨some n, p⟩, .connect hblock rfl hroom hconnect, rfl, hp⟩

/-- A library with constant answers. -/
def constLib : BundleLib := ⟨fun _ => [], fun _ => 0, fun _ => 0, fun _ => 0⟩

/-- After 257 blocks with a deposit each, `last` still returns the row of the
block before the newest one. -/
theorem deposit_log_stale_after_256 :
    ∃ s, Run constLib EmptyBlock (fun _ _ => True) (depositChain 257) s ∧
      (last s.peg.dbs.depositBlocks).map Prod.snd = some (255, 255) ∧
      ((depositChain 257).filterMap depositRow).head? = some (256, 256) ∧
      ¬ LogsFollowChain (depositChain 257) s.peg.dbs := by
  obtain ⟨s, hrun, hheight, hs⟩ := run_depositChain constLib (n := 256) le_rfl
  obtain ⟨p, hconnect, hp⟩ := connect_depositData constLib hs 256
  have hlog := (holdsRows_of_run hrun).1.1
  have hblock : Run constLib EmptyBlock (fun _ _ => True) (depositChain 256)
      ⟨some 256, s.peg⟩ :=
    .block (hrun.mono fun _ _ _ => trivial) (by rw [EmptyBlock, hheight]; rfl) rfl
  have hlast : (last p.dbs.depositBlocks).map Prod.snd = some (255, 255) := by
    rw [(connect_logs hconnect).1, latestDepositBlockHash_depositData, appendRow, hlog]
    have hrows : (depositChain 256).filterMap depositRow =
        (255, 255) :: (depositChain 255).filterMap depositRow := rfl
    rw [hrows, last_append_full (depositRows_depositChain 255)]
    rfl
  have hhead : ((depositChain 257).filterMap depositRow).head? = some (256, 256) := rfl
  refine ⟨⟨some 256, p⟩, .connect hblock rfl trivial hconnect, hlast, hhead, ?_⟩
  intro hfollow
  have := hfollow.deposits.2
  rw [hlast, hhead] at this
  simp at this

/-- A deposit, and the submission of a bundle in the next mainchain block. -/
def submittedData : TwoWayPegData :=
  ⟨[⟨10, [.deposit ⟨1, 0, ⟨1, .bitcoin 100, []⟩⟩]⟩, ⟨11, [.withdrawalBundle ⟨7, .submitted⟩]⟩]⟩

/-- A deposit, and the failure of the submitted bundle. -/
def failedData : TwoWayPegData :=
  ⟨[⟨12, [.withdrawalBundle ⟨7, .failed⟩, .deposit ⟨2, 0, ⟨1, .bitcoin 80, []⟩⟩]⟩]⟩

/-- A deposit without bundle events. -/
def plainData : TwoWayPegData :=
  ⟨[⟨13, [.deposit ⟨3, 0, ⟨1, .bitcoin 60, []⟩⟩]⟩]⟩

/-- An empty block is connected or disconnected. -/
def MovesHeight (s s' : Node) : Prop := s'.peg = s.peg

/-- An empty block and its peg data are connected. -/
def connectNext (s : Node) (data : TwoWayPegData) : Option Node :=
  let height := some (s.height.elim 0 (· + 1))
  (connect constLib height s.peg data).toOption.map fun p => ⟨height, p⟩

theorem run_connectNext {chain : List (Nat × TwoWayPegData)} {s s' : Node} {data : TwoWayPegData}
    (hrun : Run constLib MovesHeight RoomInLogs chain s) (hlen : chain.length < 256)
    (h : connectNext s data = some s') :
    Run constLib MovesHeight RoomInLogs ((s.height.elim 0 (· + 1), data) :: chain) s' ∧
      s'.height = some (s.height.elim 0 (· + 1)) := by
  obtain ⟨p, hp, rfl⟩ := Option.map_eq_some_iff.mp h
  have hblock : Run constLib MovesHeight RoomInLogs chain
      ⟨some (s.height.elim 0 (· + 1)), s.peg⟩ := .block hrun rfl rfl
  exact ⟨.connect hblock rfl (roomInLogs_of_run hrun hlen _ data)
    (toOption_eq_some_iff.mp hp), rfl⟩

/-- The data of three heights connect, those of the last are disconnected, and other data
connect in their place. -/
def reorganized : Option Node := do
  let s ← connectNext Node.empty submittedData
  let s ← connectNext s failedData
  let s ← connectNext s plainData
  let p ← (disconnect s.height s.peg plainData).toOption
  connectNext ⟨some 1, p⟩ failedData

theorem reorganized_isSome : reorganized.isSome := by decide +kernel

theorem logs_follow_chain_reorganized :
    ∃ s, Run constLib MovesHeight RoomInLogs
        [(2, failedData), (1, failedData), (0, submittedData)] s ∧
      LogsFollowChain [(2, failedData), (1, failedData), (0, submittedData)] s.peg.dbs := by
  obtain ⟨s, hs⟩ := Option.isSome_iff_exists.mp reorganized_isSome
  simp only [reorganized, Option.bind_eq_bind, Option.bind_eq_some_iff] at hs
  obtain ⟨s₀, h₀, s₁, h₁, s₂, h₂, p, hp, hs⟩ := hs
  obtain ⟨hrun₀, height₀⟩ := run_connectNext .start (by decide) h₀
  obtain ⟨hrun₁, height₁⟩ := run_connectNext hrun₀ (by decide) h₁
  rw [height₀] at hrun₁ height₁
  obtain ⟨hrun₂, height₂⟩ := run_connectNext hrun₁ (by decide) h₂
  rw [height₁] at hrun₂ height₂
  have hback : Run constLib MovesHeight RoomInLogs [(1, failedData), (0, submittedData)]
      ⟨some 1, p⟩ :=
    .block (.disconnect hrun₂ height₂ (toOption_eq_some_iff.mp hp)) rfl rfl
  have hrun := (run_connectNext hback (by decide) hs).1
  exact ⟨s, hrun, logs_follow_chain hrun⟩

end Truthcoin.PegLog
