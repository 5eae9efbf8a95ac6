import Truthcoin.PegOverlay

/-!
# Round trip of the two-way peg

Connecting peg data and disconnecting it again restores the state.
-/

namespace Truthcoin.PegRoundTrip

open Truthcoin.Types Truthcoin.Table Truthcoin.Fallible Truthcoin.AppendLog
open Truthcoin.TwoWayPeg Truthcoin.WithdrawalBundle Truthcoin.CoinMoves
open Truthcoin.PegSteps Truthcoin.PegRun Truthcoin.PegLog Truthcoin.PegIndex
open Truthcoin.PegSafety Truthcoin.PegUndo Truthcoin.PegOverlay

variable {f : OutputOf} {L : BundleLib} {h : Nat} {m : M6id} {s s' : PegState}

/-- The latest failure is what it was, or it happened at this height. -/
def FailureKept (h : Nat) (d d' : PegDbs) : Prop :=
  ∀ x, getLatestFailedWithdrawalBundle d = .ok x →
    getLatestFailedWithdrawalBundle d' = .ok x ∨
      ∃ m, getLatestFailedWithdrawalBundle d' = .ok (some (h, m))

theorem FailureKept.refl (h : Nat) (d : PegDbs) : FailureKept h d d :=
  fun _ hx => .inl hx

theorem FailureKept.trans {d₁ d₂ d₃ : PegDbs} (h₁ : FailureKept h d₁ d₂)
    (h₂ : FailureKept h d₂ d₃) : FailureKept h d₁ d₃ := by
  intro x hx
  rcases h₁ x hx with hx | ⟨m, hm⟩
  · exact h₂ x hx
  · rcases h₂ _ hm with hm | hm
    · exact .inr ⟨m, hm⟩
    · exact .inr hm

theorem latestFailed_putBundle_of_ne {r : RollBack M6id} (entry : BundleEntry)
    (hr : s.dbs.latestFailedWithdrawalBundle = some r) (hne : r.latest.value ≠ m) :
    getLatestFailedWithdrawalBundle (s.putBundle m entry).dbs =
      getLatestFailedWithdrawalBundle s.dbs := by
  have hlookup : (s.putBundle m entry).dbs.withdrawalBundles[r.latest.value]? =
      s.dbs.withdrawalBundles[r.latest.value]? := by
    simp [PegState.putBundle, Std.ExtTreeMap.getElem?_insert, Ne.symm hne]
  have hr' : (s.putBundle m entry).dbs.latestFailedWithdrawalBundle = some r := hr
  simp only [getLatestFailedWithdrawalBundle, hr, hr', hlookup]

theorem latestFailed_putBundle_new {x : Option (Nat × M6id)} (entry : BundleEntry)
    (habsent : s.dbs.withdrawalBundles[m]? = none)
    (hx : getLatestFailedWithdrawalBundle s.dbs = .ok x) :
    getLatestFailedWithdrawalBundle (s.putBundle m entry).dbs = .ok x := by
  cases hr : s.dbs.latestFailedWithdrawalBundle with
  | none =>
      have hr' : (s.putBundle m entry).dbs.latestFailedWithdrawalBundle = none := hr
      simpa only [getLatestFailedWithdrawalBundle, hr, hr'] using hx
  | some r =>
      rw [latestFailed_putBundle_of_ne entry hr, hx]
      rintro rfl
      simp [getLatestFailedWithdrawalBundle, hr, habsent] at hx

theorem failureKept_push {info info' : WithdrawalBundleInfo} {st st' : Status}
    {value : WithdrawalBundleStatus}
    (hentry : s.dbs.withdrawalBundles[m]? = some (info, st))
    (hpush : st.push value h = .ok st') :
    FailureKept h s.dbs (s.putBundle m (info', st')).dbs := by
  intro x hx
  cases hr : s.dbs.latestFailedWithdrawalBundle with
  | none =>
      have hr' : (s.putBundle m (info', st')).dbs.latestFailedWithdrawalBundle = none :=
        hr
      left
      simpa only [getLatestFailedWithdrawalBundle, hr, hr'] using hx
  | some r =>
      by_cases hne : r.latest.value = m
      · subst hne
        have hr' : (s.putBundle r.latest.value
            (info', st')).dbs.latestFailedWithdrawalBundle = some r := hr
        simp only [getLatestFailedWithdrawalBundle, hr, hentry] at hx
        simp only [getLatestFailedWithdrawalBundle, hr', lookup_putBundle,
          RollBack.iterRev_of_push hpush, List.find?_cons]
        by_cases hfailed : value = .failed
        · right
          exact ⟨r.latest.value, by simp [hfailed]⟩
        · left
          simpa [hfailed] using hx
      · left
        rw [latestFailed_putBundle_of_ne _ hr hne, hx]

theorem failureKept_submitted {spends : List CoinRow}
    (hcase : SubmittedCase h m s s' spends) : FailureKept h s.dbs s'.dbs := by
  cases hcase with
  | @pending b st st' coins hpending hentry hlatest hspend hpush =>
      exact failureKept_push (s := { s with coins := coins }) hentry hpush
  | resubmitted hpending hentry hlatest hinfo hpush =>
      exact failureKept_push hentry hpush
  | unknown hpending hentry =>
      exact fun x hx => .inl (latestFailed_putBundle_new _ hentry hx)

theorem failureKept_confirmed (hcase : ConfirmedCase h m s s') :
    FailureKept h s.dbs s'.dbs := by
  cases hcase with
  | again => exact .refl h s.dbs
  | submitted hentry hlatest hpush => exact failureKept_push hentry hpush
  | @unexpected b st st' coins missing hentry hlatest hspend hpush =>
      exact failureKept_push (s := { s with coins := coins }) hentry hpush
  | unknown hheight hentry hlatest hpush =>
      exact failureKept_push (s := { s with coins := spendAllUtxos m s.coins }) hentry
        hpush

theorem latest_of_pushLatestFailed {failed : Option (RollBack M6id)}
    {failed' : RollBack M6id} (hpush : pushLatestFailed failed m h = .ok failed') :
    failed'.latest = ⟨m, h⟩ := by
  cases failed with
  | none =>
      obtain rfl := Except.ok.inj hpush
      rfl
  | some r =>
      simp only [pushLatestFailed] at hpush
      split at hpush
      · rename_i r' hr
        obtain rfl := Except.ok.inj hpush
        exact RollBack.latest_of_push hr
      · simp at hpush

theorem failureKept_failed (hcase : FailedCase h m s s') :
    FailureKept h s.dbs s'.dbs := by
  cases hcase with
  | again => exact .refl h s.dbs
  | @submitted b st st' failed hentry hlatest hfailed hpush =>
      intro x _
      right
      refine ⟨m, ?_⟩
      simp only [getLatestFailedWithdrawalBundle, PegState.putBundle,
        latest_of_pushLatestFailed hfailed, Std.ExtTreeMap.getElem?_insert_self,
        RollBack.iterRev_of_push hpush, List.find?_cons, decide_true]
  | unspent hentry hlatest hunspent hpush => exact failureKept_push hentry hpush

theorem failureKept_event {event : BlockEvent} (hcase : EventCase h s event s') :
    FailureKept h s.dbs s'.dbs := by
  cases hcase with
  | deposit deposit => exact .refl h s.dbs
  | submitted hcase => exact failureKept_submitted hcase
  | confirmed hcase => exact failureKept_confirmed hcase
  | failed hcase => exact failureKept_failed hcase

/-- No bundle has a status from a height above the bound. -/
def StampsUpTo (h : Nat) (s : PegState) : Prop :=
  ∀ (m : M6id) (info : WithdrawalBundleInfo) (st : Status),
    s.dbs.withdrawalBundles[m]? = some (info, st) → st.latest.height ≤ h

theorem StampsUpTo.put {info : WithdrawalBundleInfo} {st : Status}
    (hs : StampsUpTo h s)
    (htable : s'.dbs.withdrawalBundles = s.dbs.withdrawalBundles.insert m (info, st))
    (hst : st.latest.height ≤ h) : StampsUpTo h s' := by
  intro m' info' st' hentry
  rw [htable, Std.ExtTreeMap.getElem?_insert] at hentry
  split at hentry
  · simp only [Option.some.injEq, Prod.mk.injEq] at hentry
    exact hentry.2 ▸ hst
  · exact hs m' info' st' hentry

theorem height_of_push {st st' : Status} {value : WithdrawalBundleStatus}
    (hpush : st.push value h = .ok st') : st'.latest.height ≤ h := by
  rw [RollBack.latest_of_push hpush]

theorem StampsUpTo.event {event : BlockEvent} (hs : StampsUpTo h s)
    (hcase : EventCase h s event s') : StampsUpTo h s' := by
  cases hcase with
  | deposit deposit => exact hs
  | submitted hcase =>
      cases hcase with
      | pending _ _ _ _ hpush => exact hs.put rfl (height_of_push hpush)
      | resubmitted _ _ _ _ hpush => exact hs.put rfl (height_of_push hpush)
      | unknown => exact hs.put rfl le_rfl
  | confirmed hcase =>
      cases hcase with
      | again => exact hs
      | submitted _ _ hpush => exact hs.put rfl (height_of_push hpush)
      | unexpected _ _ _ hpush => exact hs.put rfl (height_of_push hpush)
      | unknown _ _ _ hpush => exact hs.put rfl (height_of_push hpush)
  | failed hcase =>
      cases hcase with
      | again => exact hs
      | submitted _ _ _ hpush => exact hs.put rfl (height_of_push hpush)
      | unspent _ _ _ hpush => exact hs.put rfl (height_of_push hpush)

theorem events_kept {evs : List LocatedEvent} {acc acc' : ConnectAcc}
    (hs : StampsUpTo h acc.state)
    (hrun : evs.foldlM (connectEvent h) acc = .ok acc') :
    StampsUpTo h acc'.state ∧ FailureKept h acc.state.dbs acc'.state.dbs := by
  refine foldlM_preserves (P := fun a : ConnectAcc => StampsUpTo h a.state ∧
    FailureKept h acc.state.dbs a.state.dbs) ?_ hrun ⟨hs, .refl h acc.state.dbs⟩
  intro event _ a a' ha hevent
  have hcase := connectEvent_cases hevent
  exact ⟨ha.1.event hcase, ha.2.trans (failureKept_event hcase)⟩

theorem popEventBlock_appendRow {log : Table UInt32 (MainBlockHash × Nat)}
    {rows : List (MainBlockHash × Nat)} {latest : Option MainBlockHash}
    (name : String) (missing : Error) (h : Nat) (hlog : HoldsRows log rows)
    (hroom : latest ≠ none → log.size < 256) :
    popEventBlock name missing (appendRow log latest h) latest h = .ok log := by
  cases latest with
  | none => rfl
  | some hash =>
      obtain ⟨rfl, hlen⟩ := hlog
      have hsmall : rows.length < 256 := by
        simpa [size_ofRows hlen] using hroom (by simp)
      have hlast := last_ofRows (v := (hash, h)) hsmall
      have herase := erase_last_ofRows (v := (hash, h)) hsmall
      simp only [popEventBlock, appendRow, append_ofRows hsmall, hlast, okOr_some,
        ok_bind]
      rw [ensure_pos trivial, ensure_pos trivial, ok_bind, ok_bind, herase]

/-- What holds before the peg data of the block at height `h` is connected. -/
structure Settled (f : OutputOf) (h : Nat) (s : PegState) : Prop where
  faithful : Faithful f s
  stamps : ∀ (m : M6id) (info : WithdrawalBundleInfo) (st : Status),
    s.dbs.withdrawalBundles[m]? = some (info, st) → st.latest.height < h
  index : ∀ k, h ≤ k → s.dbs.blockIndexEvents[k]? = none
  deposits : ∃ rows, HoldsRows s.dbs.depositBlocks rows
  bundleEvents : ∃ rows, HoldsRows s.dbs.withdrawalBundleEventBlocks rows
  failed : ∃ x, getLatestFailedWithdrawalBundle s.dbs = .ok x ∧
    ∀ k m, x = some (k, m) → k < h

/-- Peg data that a disconnection can undo: its events are clean, the logs have room
for it, and a new pending bundle is created only where no bundle was pending and
nothing is recorded about it. -/
structure CleanData (L : BundleLib) (f : OutputOf) (h : Nat) (s : PegState)
    (data : TwoWayPegData) : Prop where
  events : CleanEvents f h (connectStart s) (events data)
  room : RoomInLogs ⟨some h, s⟩ data
  bundle : ∀ acc b, connectEvents s h data = .ok acc →
    failureGapPassed acc.state.dbs h = .ok true →
    acc.state.dbs.pendingWithdrawalBundle = none →
    collectWithdrawalBundle L acc.state.coins h = .ok (some b) →
      s.dbs.pendingWithdrawalBundle = none ∧
        acc.state.dbs.withdrawalBundles[computeM6id L b]? = none

theorem failureGapPassed_congr {d d' : PegDbs}
    (heq : getLatestFailedWithdrawalBundle d = getLatestFailedWithdrawalBundle d') :
    failureGapPassed d h = failureGapPassed d' h := by
  unfold failureGapPassed
  rw [heq]

theorem failureGapPassed_of_latest {d : PegDbs} {x : Option (Nat × M6id)}
    (hx : getLatestFailedWithdrawalBundle d = .ok x)
    (hbound : ∀ k m, x = some (k, m) → k < h) :
    ∃ passed, failureGapPassed d h = .ok passed := by
  have hle : (x.map (·.1)).getD 0 ≤ h := by
    cases x with
    | none => simp
    | some failure => exact (hbound failure.1 failure.2 rfl).le
  simp only [failureGapPassed, hx, ok_bind]
  rw [ensure_pos hle]
  exact ⟨_, rfl⟩

theorem latestFailed_of_gapPassed {d d' : PegDbs} {x : Option (Nat × M6id)}
    (hx : getLatestFailedWithdrawalBundle d = .ok x) (hkept : FailureKept h d d')
    (hgap : failureGapPassed d' h = .ok true) :
    getLatestFailedWithdrawalBundle d' = .ok x := by
  rcases hkept x hx with hsame | ⟨m, hnow⟩
  · exact hsame
  · exfalso
    simp [failureGapPassed, hnow, ensure_pos, withdrawalBundleFailureGap] at hgap

/-- The overlay that a connection leaves over the state after its events. -/
structure ConnectOverlay (s : PegState) (h : Nat) (data : TwoWayPegData)
    (acc : ConnectAcc) (v : Overlay) : Prop where
  fits : v.Fits acc.state
  pending : v.created ≠ none → s.dbs.pendingWithdrawalBundle = none
  created : ∀ q entry, v.created = some (q, entry) →
    (∃ b, entry = (.known b, RollBack.new .pending h)) ∧
      failureGapPassed acc.state.dbs h = .ok true
  collected : ∀ q b st, v.created = some (q, .known b, st) →
    ∀ row ∈ b.spendUtxos.toList, acc.state.coins.utxos[row.1]? = some row.2
  index : v.blockIndexEvents.erase h = s.dbs.blockIndexEvents.erase h
  deposits : v.depositBlocks =
    appendRow s.dbs.depositBlocks (latestDepositBlockHash data) h
  bundleEvents : v.withdrawalBundleEventBlocks =
    appendRow s.dbs.withdrawalBundleEventBlocks
      (latestWithdrawalBundleEventBlockHash data) h

theorem connect_overlay {p : PegState} {data : TwoWayPegData}
    (hclean : CleanData L f h s data) (hrun : connect L (some h) s data = .ok p) :
    ∃ acc v, connectEvents s h data = .ok acc ∧ p = v.on acc.state ∧
      ConnectOverlay s h data acc v := by
  obtain ⟨hdeposits, hbundleEvents⟩ := connect_logs hrun
  simp only [connect, okOr_some, ok_bind, bind_eq_ok_iff] at hrun
  obtain ⟨acc, hevents, hcreate⟩ := hrun
  have hsame := (foldlM_connectEvent_logs hevents).1
  have hlogs := createPendingBundle_sameLogs hcreate
  have hindex : (recordEvents acc h).dbs.blockIndexEvents.erase h =
      s.dbs.blockIndexEvents.erase h := by
    simp only [recordEvents, hsame.indexEvents]
    split
    · rfl
    · apply ext_lookup
      intro k
      grind
  rw [hlogs.depositBlocks] at hdeposits
  rw [hlogs.eventBlocks] at hbundleEvents
  let logs (created : Option (M6id × BundleEntry)) : Overlay :=
    ⟨created, (recordEvents acc h).dbs.blockIndexEvents,
      (recordEvents acc h).dbs.depositBlocks,
      (recordEvents acc h).dbs.withdrawalBundleEventBlocks⟩
  cases createPendingBundle_cases hcreate with
  | nothing hgap =>
      refine ⟨acc, logs none, hevents, rfl, ?_, ?_, ?_, ?_, hindex, hdeposits,
        hbundleEvents⟩
      · simp [Overlay.Fits, logs]
      · simp [logs]
      · simp [logs]
      · simp [logs]
  | @created b st hgap hpending hcollect hstatus =>
      obtain ⟨hnone, habsent⟩ := hclean.bundle acc b hevents hgap hpending hcollect
      obtain rfl : st = RollBack.new .pending h := by
        rcases hstatus with ⟨-, hst⟩ | ⟨info, st₀, hentry, -⟩
        · exact hst
        · exact absurd (habsent.symm.trans hentry) (by simp)
      refine ⟨acc, logs (some (computeM6id L b, .known b, RollBack.new .pending h)),
        hevents, rfl, ?_, fun _ => hnone, ?_, ?_, hindex, hdeposits, hbundleEvents⟩
      · intro q entry hcreated
        simp only [logs, Option.some.injEq, Prod.mk.injEq] at hcreated
        exact ⟨hpending, hcreated.1 ▸ habsent⟩
      · intro q entry hcreated
        simp only [logs, Option.some.injEq, Prod.mk.injEq] at hcreated
        exact ⟨⟨b, hcreated.2.symm⟩, hgap⟩
      · intro q b' st hcreated
        simp only [logs, Option.some.injEq, Prod.mk.injEq,
          WithdrawalBundleInfo.known.injEq] at hcreated
        obtain ⟨-, rfl, -⟩ := hcreated
        exact utxos_of_collectWithdrawalBundle hcollect

theorem drop_kept {v : Overlay} (hs : Settled f h s) (hcreated : v.created = none) :
    dropPendingBundle (v.on s) h = .ok (v.on s) := by
  have hon : v.on s = v.setLogs s := by rw [Overlay.on, hcreated]
  obtain ⟨x, hx, hbound⟩ := hs.failed
  obtain ⟨passed, hpassed⟩ := failureGapPassed_of_latest hx hbound
  have hgap : failureGapPassed (v.setLogs s).dbs h = .ok passed := hpassed
  rw [hon]
  unfold dropPendingBundle
  rw [hgap, ok_bind]
  split
  · rename_i m hpending
    obtain ⟨b, st, hentry, -⟩ := hs.faithful.inv.pending_known m hpending
    have hlookup : (v.setLogs s).dbs.withdrawalBundles[m]? = some (.known b, st) := hentry
    have hheight := hs.stamps m _ st hentry
    rw [hlookup, okOr_some, ok_bind]
    exact if_neg hheight.ne
  · rfl

theorem drop_created {v : Overlay} {q : M6id} {b : WithdrawalBundle}
    (hs : Settled f h s) (hfits : v.Fits s)
    (hcreated : v.created = some (q, .known b, RollBack.new .pending h))
    (hgap : failureGapPassed s.dbs h = .ok true) :
    dropPendingBundle (v.on s) h = .ok (v.setLogs s) := by
  obtain ⟨hpending, habsent⟩ := hfits q _ hcreated
  obtain ⟨x, hx, -⟩ := hs.failed
  have hon : v.on s = ((v.setLogs s).setPending (some q)).putBundle q
      (.known b, RollBack.new .pending h) := by
    simp only [Overlay.on, hcreated]
  have hlatest : getLatestFailedWithdrawalBundle (v.on s).dbs = .ok x := by
    rw [hon]
    exact latestFailed_putBundle_new (s := (v.setLogs s).setPending (some q)) _ habsent hx
  have hgap' : failureGapPassed (v.on s).dbs h = .ok true := by
    rw [failureGapPassed_congr (hlatest.trans hx.symm), hgap]
  have hpending' : (v.on s).dbs.pendingWithdrawalBundle = some q := by
    rw [hon]
    rfl
  have hlookup : (v.on s).dbs.withdrawalBundles[q]? =
      some (.known b, RollBack.new .pending h) := by
    rw [hon, lookup_putBundle]
  unfold dropPendingBundle
  rw [hgap', ok_bind, hpending']
  simp only [hlookup, okOr_some, ok_bind, RollBack.latest_new, RollBack.pop_new, if_true]
  rw [hon]
  simp only [PegState.putBundle, PegState.setPending, PegState.deleteBundle,
    Overlay.setLogs, erase_insert_of_absent _ habsent, ← hpending]

theorem drop_overlay {v : Overlay} {data : TwoWayPegData} {acc : ConnectAcc}
    (hs : Settled f h s) (hfits : v.Fits s)
    (hcreated : ∀ q entry, v.created = some (q, entry) →
      (∃ b, entry = (.known b, RollBack.new .pending h)) ∧
        failureGapPassed acc.state.dbs h = .ok true)
    (hevents : connectEvents s h data = .ok acc) :
    dropPendingBundle (v.on s) h = .ok (v.setLogs s) := by
  cases hv : v.created with
  | none =>
      have hon : v.on s = v.setLogs s := by rw [Overlay.on, hv]
      rw [drop_kept hs hv, hon]
  | some created =>
      obtain ⟨⟨b, hb⟩, hgap⟩ := hcreated created.1 created.2 hv
      have hstamps : StampsUpTo h (connectStart s).state :=
        fun m info st hentry => (hs.stamps m info st hentry).le
      have hkept := (events_kept hstamps hevents).2
      obtain ⟨x, hx, -⟩ := hs.failed
      have hlatest := latestFailed_of_gapPassed hx hkept hgap
      refine drop_created hs hfits (q := created.1) (b := b) ?_ ?_
      · rw [hv, ← hb]
      · rw [failureGapPassed_congr (hx.trans hlatest.symm), hgap]

theorem disconnectEvents_overlay {v : Overlay} {data : TwoWayPegData}
    {acc : ConnectAcc} (hs : Settled f h s) (hclean : CleanData L f h s data)
    (hevents : connectEvents s h data = .ok acc) (hfits : v.Fits acc.state)
    (hpending : v.created ≠ none → s.dbs.pendingWithdrawalBundle = none) :
    disconnectEvents (v.on acc.state) h data =
        .ok ⟨v.on s, latestDepositBlockHash data,
          latestWithdrawalBundleEventBlockHash data⟩ ∧ v.Fits s := by
  have hstart : (events data).foldlM (connectEvent h) (connectStart s) = .ok acc :=
    hevents
  obtain ⟨-, hgrows, hundo⟩ := undo_events hs.faithful hclean.events hstart
  obtain ⟨d, hd, hstate⟩ := hundo v ⟨v.on acc.state, none, none⟩ hpending hfits rfl
  obtain ⟨-, hdeposit, hbundle⟩ := foldlM_disconnectEvent_logs hd
  simp only [List.filterMap_reverse, List.head?_reverse, Option.none_or] at hdeposit hbundle
  constructor
  · rw [disconnectEvents, eventsRev_eq_reverse, hd]
    change d.state = v.on s at hstate
    rw [← hstate, latestDepositBlockHash, ← hdeposit,
      latestWithdrawalBundleEventBlockHash, ← hbundle]
  · intro q entry hcreated
    exact ⟨hpending (by simp [hcreated]), hgrows.entries q (hfits q entry hcreated).2⟩

/-- Disconnecting clean peg data restores the state before its connection. -/
theorem disconnect_connect {p : PegState} {data : TwoWayPegData}
    (hs : Settled f h s) (hclean : CleanData L f h s data)
    (hrun : connect L (some h) s data = .ok p) : disconnect (some h) p data = .ok s := by
  obtain ⟨acc, v, hevents, rfl, hv⟩ := connect_overlay hclean hrun
  obtain ⟨depositRows, hdepositRows⟩ := hs.deposits
  obtain ⟨eventRows, heventRows⟩ := hs.bundleEvents
  have hindex : v.blockIndexEvents.erase h = s.dbs.blockIndexEvents := by
    rw [hv.index, erase_of_absent (hs.index h le_rfl)]
  let v₁ : Overlay := { v with blockIndexEvents := s.dbs.blockIndexEvents }
  let v₂ : Overlay :=
    { v₁ with withdrawalBundleEventBlocks := s.dbs.withdrawalBundleEventBlocks }
  obtain ⟨hundone, hfits⟩ := disconnectEvents_overlay (v := v₁) hs hclean hevents hv.fits
    hv.pending
  have hdrop := drop_overlay (v := v₂) hs hfits hv.created hevents
  have heventPop := popEventBlock_appendRow "withdrawal bundle event block"
    Error.noWithdrawalBundleEventBlock h heventRows hclean.room.2
  have hdepositPop := popEventBlock_appendRow "deposit block" Error.noDepositBlock h
    hdepositRows hclean.room.1
  rw [← hv.bundleEvents] at heventPop
  rw [← hv.deposits] at hdepositPop
  have hstart : disconnectEvents { v.on acc.state with
      dbs.blockIndexEvents := (v.on acc.state).dbs.blockIndexEvents.erase h } h data =
        .ok ⟨v₁.on s, latestDepositBlockHash data,
          latestWithdrawalBundleEventBlockHash data⟩ := by
    rw [(Overlay.on_logs v acc.state).1, hindex, Overlay.on_setIndex]
    exact hundone
  have hpop : popEventBlock "withdrawal bundle event block"
      Error.noWithdrawalBundleEventBlock (v₁.on s).dbs.withdrawalBundleEventBlocks
      (latestWithdrawalBundleEventBlockHash data) h =
        .ok s.dbs.withdrawalBundleEventBlocks := by
    rw [(Overlay.on_logs v₁ s).2.2]
    exact heventPop
  have hdropped : dropPendingBundle { v₁.on s with
      dbs.withdrawalBundleEventBlocks := s.dbs.withdrawalBundleEventBlocks } h =
        .ok (v₂.setLogs s) := by
    rw [Overlay.on_setEventBlocks]
    exact hdrop
  have hpop' : popEventBlock "deposit block" Error.noDepositBlock
      (v₂.setLogs s).dbs.depositBlocks (latestDepositBlockHash data) h =
        .ok s.dbs.depositBlocks := hdepositPop
  simp only [disconnect, okOr_some, ok_bind, hstart, hpop, hdropped, hpop']
  rfl

theorem faithful_created {v : Overlay} {q : M6id} {b : WithdrawalBundle} {k : Nat}
    (hs : Faithful f s) (hfits : v.Fits s)
    (hcreated : v.created = some (q, .known b, RollBack.new .pending k))
    (hrows : ∀ row ∈ b.spendUtxos.toList, s.coins.utxos[row.1]? = some row.2) :
    Faithful f (v.on s) := by
  obtain ⟨hpending, habsent⟩ := hfits q _ hcreated
  have hon : v.on s = ((v.setLogs s).setPending (some q)).putBundle q
      (.known b, RollBack.new .pending k) := by
    simp only [Overlay.on, hcreated]
  rw [hon]
  refine ⟨?_, hs.indexed, hs.agrees, rows_of_put rfl hs.rows ?_⟩
  · refine hs.inv.put rfl hs.inv.disjoint (fun m' _ => Keeps.refl m' _) ?_ ?_
    · exact ⟨by simp [spentRows], by simp [values, RollBack.iterRev, RollBack.new],
        by simp⟩
    · intro p hp
      obtain rfl : q = p := by simpa [PegState.setPending, PegState.putBundle] using hp
      exact .inr ⟨rfl, b, rfl, rfl⟩
  · intro row hrow
    exact hs.agrees row.1 row.2 (hrows row hrow)

theorem Settled.connected {p : PegState} {data : TwoWayPegData} (hs : Settled f h s)
    (hclean : CleanData L f h s data) (hrun : connect L (some h) s data = .ok p) :
    Settled f (h + 1) p := by
  obtain ⟨acc, v, hevents, rfl, hv⟩ := connect_overlay hclean hrun
  have hstart : (events data).foldlM (connectEvent h) (connectStart s) = .ok acc :=
    hevents
  obtain ⟨hfaithful, -, -⟩ := undo_events hs.faithful hclean.events hstart
  have hstamps : StampsUpTo h (connectStart s).state :=
    fun m info st hentry => (hs.stamps m info st hentry).le
  obtain ⟨hstamps, hkept⟩ := events_kept hstamps hevents
  obtain ⟨hindexOn, hdepositsOn, heventsOn⟩ := Overlay.on_logs v acc.state
  obtain ⟨x, hx, hbound⟩ := hs.failed
  have hfailed : ∃ x, getLatestFailedWithdrawalBundle acc.state.dbs = .ok x ∧
      ∀ k m, x = some (k, m) → k < h + 1 := by
    rcases hkept x hx with hsame | ⟨m, hnow⟩
    · exact ⟨x, hsame, fun k m hk => (hbound k m hk).trans (Nat.lt_succ_self h)⟩
    · refine ⟨_, hnow, fun k m' hk => ?_⟩
      simp only [Option.some.injEq, Prod.mk.injEq] at hk
      omega
  have hindex : ∀ k, h + 1 ≤ k → (v.on acc.state).dbs.blockIndexEvents[k]? = none := by
    intro k hk
    have hlookup : (v.blockIndexEvents.erase h)[k]? = (s.dbs.blockIndexEvents.erase h)[k]? := by
      rw [hv.index]
    have hne : h ≠ k := by omega
    simp only [Std.ExtTreeMap.getElem?_erase, Std.LawfulEqCmp.compare_eq_iff_eq, hne,
      if_false] at hlookup
    rw [hindexOn, hlookup]
    exact hs.index k (by omega)
  have hdeposits : ∃ rows, HoldsRows (v.on acc.state).dbs.depositBlocks rows := by
    obtain ⟨rows, hrows⟩ := hs.deposits
    rw [hdepositsOn, hv.deposits]
    exact ⟨_, hrows.appendRow h hclean.room.1⟩
  have hbundleEvents :
      ∃ rows, HoldsRows (v.on acc.state).dbs.withdrawalBundleEventBlocks rows := by
    obtain ⟨rows, hrows⟩ := hs.bundleEvents
    rw [heventsOn, hv.bundleEvents]
    exact ⟨_, hrows.appendRow h hclean.room.2⟩
  cases hcreated : v.created with
  | none =>
      have hon : v.on acc.state = v.setLogs acc.state := by rw [Overlay.on, hcreated]
      rw [hon] at hindex hdeposits hbundleEvents ⊢
      refine ⟨⟨⟨hfaithful.inv.disjoint, hfaithful.inv.entries,
        hfaithful.inv.pending_known⟩, hfaithful.indexed, hfaithful.agrees,
        hfaithful.rows⟩, ?_, hindex, hdeposits, hbundleEvents, hfailed⟩
      exact fun m info st hentry => Nat.lt_succ_of_le (hstamps m info st hentry)
  | some created =>
      obtain ⟨q, entry⟩ := created
      obtain ⟨⟨b, rfl⟩, -⟩ := hv.created q entry hcreated
      have hrows := hv.collected q b _ hcreated
      refine ⟨faithful_created hfaithful hv.fits hcreated hrows, ?_, hindex, hdeposits,
        hbundleEvents, ?_⟩
      · have hon : v.on acc.state = ((v.setLogs acc.state).setPending (some q)).putBundle q
            (.known b, RollBack.new .pending h) := by
          simp only [Overlay.on, hcreated]
        have hstamps' : StampsUpTo h (v.on acc.state) := by
          rw [hon]
          exact StampsUpTo.put (s := (v.setLogs acc.state).setPending (some q)) hstamps
            rfl le_rfl
        exact fun m info st hentry => Nat.lt_succ_of_le (hstamps' m info st hentry)
      · obtain ⟨x, hx, hbound⟩ := hfailed
        refine ⟨x, ?_, hbound⟩
        simp only [Overlay.on, hcreated]
        exact latestFailed_putBundle_new (s := (v.setLogs acc.state).setPending (some q)) _
          (hv.fits q _ hcreated).2 hx

end Truthcoin.PegRoundTrip
