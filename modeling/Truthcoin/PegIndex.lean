import Truthcoin.PegLog

/-!
# The block index of the peg

What a connection records for the block index, against the coins it really moves.
-/

namespace Truthcoin.PegIndex

open Truthcoin.Types Truthcoin.Table Truthcoin.Fallible Truthcoin.TwoWayPeg
open Truthcoin.CoinMoves Truthcoin.PegSteps Truthcoin.WithdrawalBundle

/-- Deposited outputs, in order. -/
def depositRows (evs : List LocatedEvent) : List (OutPoint × FilledOutput) :=
  evs.filterMap fun event => match event.2 with
    | .deposit deposit => some (deposit.outpoint, deposit.output)
    | .withdrawalBundle _ => none

/-- Outpoints that were unspent before and are not unspent after. -/
def movedOut (before after : Coins) : List OutPoint :=
  before.utxos.keys.filter fun o => (after.utxos[o]?).isNone

/-- Outpoints that one event moves out of the UTXO set by submission or
confirmation, with the bundle they go to. -/
def eventMovements (event : LocatedEvent) (before after : Coins) :
    List (OutPoint × M6id) :=
  match event.2 with
  | .withdrawalBundle ⟨m6id, .submitted⟩ | .withdrawalBundle ⟨m6id, .confirmed⟩ =>
      (movedOut before after).map fun o => (o, m6id)
  | _ => []

/-- Movements of a list of events connected one after the other. -/
def bundleMovements (blockHeight : Nat) :
    ConnectAcc → List LocatedEvent → List (OutPoint × M6id)
  | _, [] => []
  | acc, event :: evs =>
      match connectEvent blockHeight acc event with
      | .error _ => []
      | .ok acc' => eventMovements event acc.state.coins acc'.state.coins ++
          bundleMovements blockHeight acc' evs

def connectStart (s : PegState) : ConnectAcc :=
  ⟨s, BlockIndexEvents.default, none, none⟩

/-- What a connection records for the block index. -/
def recordedEvents (s : PegState) (blockHeight : Nat) (data : TwoWayPegData) :
    Except Error BlockIndexEvents := do
  let acc ← connectEvents s blockHeight data
  .ok acc.indexEvents

/-- A record lists each deposit and each bundle movement of the data once. -/
structure ListsMovements (blockHeight : Nat) (s : PegState) (data : TwoWayPegData)
    (record : BlockIndexEvents) : Prop where
  deposits : record.deposits.Perm (depositRows (events data))
  deposits_nodup : (record.deposits.map Prod.fst).Nodup
  spends : record.bundleSpends.Perm
    (bundleMovements blockHeight (connectStart s) (events data))
  spends_nodup : (record.bundleSpends.map Prod.fst).Nodup

/-- Deposits of the data have pairwise distinct outpoints. -/
def DistinctDeposits (data : TwoWayPegData) : Prop :=
  ((depositRows (events data)).map Prod.fst).Nodup

/-- The confirmation of this bundle would spend outputs: the bundle was submitted
after it had failed or been dropped, or nothing is known about it. -/
def ConfirmationSpends (s : PegState) (m6id : M6id) : Prop :=
  match s.dbs.withdrawalBundles[m6id]? with
  | some (.known b, status) =>
      status.latest.value = .submittedUnexpected ∧ b.spendUtxos.toList ≠ []
  | some (.unknown, status) =>
      isSubmitted status.latest.value ∧ s.coins.utxos.toList ≠ []
  | _ => False

/-- No confirmation among the events meets a bundle whose outputs are still
unspent. -/
def ConfirmsSpentBundles (blockHeight : Nat) : ConnectAcc → List LocatedEvent → Prop
  | _, [] => True
  | acc, event :: evs =>
      (∀ m6id, event.2 = .withdrawalBundle ⟨m6id, .confirmed⟩ →
        ¬ ConfirmationSpends acc.state m6id) ∧
      ∀ acc', connectEvent blockHeight acc event = .ok acc' →
        ConfirmsSpentBundles blockHeight acc' evs

def knownBundle : WithdrawalBundleInfo → Option WithdrawalBundle
  | .known b => some b
  | _ => none

/-- The pending bundle, as far as it is known. -/
def pendingBundle (s : PegState) : Option (M6id × WithdrawalBundle) :=
  s.dbs.pendingWithdrawalBundle.bind fun m6id =>
    (s.dbs.withdrawalBundles[m6id]?).bind fun entry =>
      (knownBundle entry.1).map fun b => (m6id, b)

theorem pendingBundle_putBundle_of_ne {s : PegState} {m : M6id}
    (h : s.dbs.pendingWithdrawalBundle ≠ some m) (entry : BundleEntry) :
    pendingBundle (s.putBundle m entry) = pendingBundle s := by
  cases hp : s.dbs.pendingWithdrawalBundle with
  | none => simp [pendingBundle, PegState.putBundle, hp]
  | some m' =>
      have hne : m ≠ m' := fun heq => h (by rw [hp, heq])
      simp [pendingBundle, PegState.putBundle, hp, Std.ExtTreeMap.getElem?_insert, hne]

theorem pendingBundle_putBundle_of_entry {s : PegState} {m : M6id}
    {info info' : WithdrawalBundleInfo} {st st' : Status}
    (hentry : s.dbs.withdrawalBundles[m]? = some (info, st))
    (hinfo : knownBundle info' = knownBundle info) :
    pendingBundle (s.putBundle m (info', st')) = pendingBundle s := by
  by_cases h : s.dbs.pendingWithdrawalBundle = some m
  · simp [pendingBundle, PegState.putBundle, h, hentry, hinfo]
  · exact pendingBundle_putBundle_of_ne h _

def isSubmission (m6id : M6id) (event : LocatedEvent) : Bool :=
  event.2 = .withdrawalBundle ⟨m6id, .submitted⟩

/-- Outputs spent by the submission of the pending bundle, if the events hold
one. -/
def pendingSpends (s : PegState) (evs : List LocatedEvent) : List (OutPoint × M6id) :=
  match pendingBundle s with
  | some (m6id, b) =>
      if evs.any (isSubmission m6id) then
        b.spendUtxos.toList.map fun row => (row.1, m6id)
      else []
  | none => []

theorem pendingSpends_nil (s : PegState) : pendingSpends s [] = [] := by
  unfold pendingSpends
  split <;> simp

theorem pendingSpends_nodup (s : PegState) (evs : List LocatedEvent) :
    ((pendingSpends s evs).map Prod.fst).Nodup := by
  unfold pendingSpends
  split
  · rename_i b _
    split
    · rw [List.map_map]
      exact toList_keys_nodup b.spendUtxos
    · simp
  · simp

theorem pendingSpends_cons {s s' : PegState} {event : LocatedEvent}
    (evs : List LocatedEvent) (hpending : pendingBundle s' = pendingBundle s)
    (hother : ∀ m6id b, pendingBundle s = some (m6id, b) →
      isSubmission m6id event = false) :
    pendingSpends s (event :: evs) = pendingSpends s' evs := by
  unfold pendingSpends
  rw [hpending]
  cases hp : pendingBundle s with
  | none => rfl
  | some pending =>
      obtain ⟨m6id, b⟩ := pending
      simp only [List.any_cons, hother m6id b hp, Bool.false_or]

/-- What a connected event does to the record and the pending bundle: all its
movements are recorded, except those of confirmations. -/
structure EventIndexed (event : LocatedEvent) (acc acc' : ConnectAcc)
    (spends extra : List (OutPoint × M6id)) : Prop where
  deposits : acc'.indexEvents.deposits =
    acc.indexEvents.deposits ++ depositRows [event]
  bundleSpends : acc'.indexEvents.bundleSpends = acc.indexEvents.bundleSpends ++ spends
  pending : ∀ evs, pendingSpends acc.state (event :: evs) =
    spends ++ pendingSpends acc'.state evs
  movements : (eventMovements event acc.state.coins acc'.state.coins).Perm
    (spends ++ extra)

theorem mem_movedOut_iff {c c' : Coins} {o : OutPoint} :
    o ∈ movedOut c c' ↔ c.utxos[o]? ≠ none ∧ c'.utxos[o]? = none := by
  rw [movedOut, List.mem_filter, Std.ExtTreeMap.mem_keys, Option.isNone_iff_eq_none]
  grind

theorem movedOut_nodup (c c' : Coins) : (movedOut c c').Nodup :=
  List.Nodup.filter _ (Std.ExtTreeMap.nodup_keys)

theorem movedOut_self (c : Coins) : movedOut c c = [] := by
  apply List.eq_nil_iff_forall_not_mem.mpr
  intro o ho
  obtain ⟨hsome, hnone⟩ := mem_movedOut_iff.mp ho
  exact hsome hnone

theorem movedOut_spent {m : M6id} {rows : List CoinRow} {c c' : Coins}
    (hnodup : (rows.map Prod.fst).Nodup) (hspent : Spent m rows c c')
    (hall : ∀ row ∈ rows, HasUtxo c row.1) :
    (movedOut c c').Perm (rows.map Prod.fst) := by
  rw [List.perm_ext_iff_of_nodup (movedOut_nodup c c') hnodup]
  intro o
  rw [mem_movedOut_iff, List.mem_map]
  constructor
  · rintro ⟨hsome, hnone⟩
    by_contra hout
    rw [hspent.utxos_other o fun row hrow heq => hout ⟨row, hrow, heq⟩] at hnone
    exact hsome hnone
  · rintro ⟨row, hrow, rfl⟩
    exact ⟨hall row hrow, hspent.utxos_mem row hrow⟩

theorem movedOut_spent_eq_nil_iff {m : M6id} {rows : List CoinRow} {c c' : Coins}
    (hnodup : (rows.map Prod.fst).Nodup) (hspent : Spent m rows c c')
    (hall : ∀ row ∈ rows, HasUtxo c row.1) : movedOut c c' = [] ↔ rows = [] := by
  rw [← List.perm_nil, ← List.map_eq_nil_iff (f := Prod.fst), ← List.perm_nil]
  exact (movedOut_spent hnodup hspent hall).congr_left []

theorem pendingSpends_of_submitted {h : Nat} {m : M6id} {s s' : PegState}
    {spends : List CoinRow} (hash : MainBlockHash) (evs : List LocatedEvent)
    (hcase : SubmittedCase h m s s' spends) :
    pendingSpends s ((hash, .withdrawalBundle ⟨m, .submitted⟩) :: evs) =
      (spends.map fun row => (row.1, m)) ++ pendingSpends s' evs := by
  have hother (hne : s.dbs.pendingWithdrawalBundle ≠ some m) (m' : M6id)
      (b : WithdrawalBundle) (hp : pendingBundle s = some (m', b)) :
      isSubmission m' (hash, .withdrawalBundle ⟨m, .submitted⟩) = false := by
    have hpending : s.dbs.pendingWithdrawalBundle = some m' := by
      simp only [pendingBundle, Option.bind_eq_some_iff, Option.map_eq_some_iff,
        Prod.mk.injEq] at hp
      obtain ⟨_, hp, _, _, _, _, rfl, _⟩ := hp
      exact hp
    have : m ≠ m' := fun heq => hne (heq ▸ hpending)
    simp [isSubmission, this]
  cases hcase with
  | @pending b st st' coins hpending hentry hlatest hspend hpush =>
      have hbefore : pendingBundle s = some (m, b) := by
        simp [pendingBundle, hpending, hentry, knownBundle]
      have hafter : pendingSpends (((({ s with coins := coins }).putBundle m
          (.known b, st')).setPending none)) evs = [] := rfl
      rw [hafter, List.append_nil]
      simp [pendingSpends, hbefore, isSubmission]
  | resubmitted hpending hentry hlatest hinfo hpush =>
      exact pendingSpends_cons evs (pendingBundle_putBundle_of_ne hpending _)
        (hother hpending)
  | unknown hpending hentry =>
      exact pendingSpends_cons evs (pendingBundle_putBundle_of_ne hpending _)
        (hother hpending)

theorem movedOut_of_submitted {h : Nat} {m : M6id} {s s' : PegState}
    {spends : List CoinRow} (hcase : SubmittedCase h m s s' spends) :
    (movedOut s.coins s'.coins).Perm (spends.map Prod.fst) := by
  cases hcase with
  | @pending b st st' coins hpending hentry hlatest hspend hpush =>
      have hnodup := toList_keys_nodup b.spendUtxos
      exact movedOut_spent hnodup (spendBundleUtxos_spent hnodup hspend)
        (hasUtxo_of_spendBundleUtxos hnodup hspend)
  | resubmitted | unknown => rw [PegState.putBundle, movedOut_self]; rfl

theorem pendingBundle_of_confirmed {h : Nat} {m : M6id} {s s' : PegState}
    (hcase : ConfirmedCase h m s s') : pendingBundle s' = pendingBundle s := by
  cases hcase with
  | again => rfl
  | submitted hentry => exact pendingBundle_putBundle_of_entry hentry rfl
  | @unexpected b st st' coins missing hentry =>
      exact pendingBundle_putBundle_of_entry (s := { s with coins := coins }) hentry rfl
  | unknown _ hentry =>
      exact pendingBundle_putBundle_of_entry
        (s := { s with coins := spendAllUtxos m s.coins }) hentry rfl

theorem pendingBundle_of_failed {h : Nat} {m : M6id} {s s' : PegState}
    (hcase : FailedCase h m s s') : pendingBundle s' = pendingBundle s := by
  cases hcase with
  | again => rfl
  | @submitted b st st' failed hentry =>
      exact pendingBundle_putBundle_of_entry (s := { s with
        coins := reinstateUtxos b.spendUtxos.toList s.coins
        dbs.latestFailedWithdrawalBundle := some failed }) hentry rfl
  | unspent hentry => exact pendingBundle_putBundle_of_entry hentry rfl

theorem movedOut_of_confirmed {h : Nat} {m : M6id} {s s' : PegState}
    (hcase : ConfirmedCase h m s s') :
    movedOut s.coins s'.coins = [] ↔ ¬ ConfirmationSpends s m := by
  cases hcase with
  | @again info st hentry hlatest =>
      cases info <;>
        simp [ConfirmationSpends, hentry, hlatest, movedOut_self, isSubmitted]
  | submitted hentry hlatest =>
      simp [ConfirmationSpends, hentry, hlatest, movedOut_self, PegState.putBundle]
  | @unexpected b st st' coins missing hentry hlatest hspend hpush =>
      have hnodup := toList_keys_nodup b.spendUtxos
      have hnil := movedOut_spent_eq_nil_iff hnodup
        (spendBundleUtxos_spent hnodup hspend)
        (hasUtxo_of_spendBundleUtxos hnodup hspend)
      change movedOut s.coins coins = [] ↔ _
      simpa [ConfirmationSpends, hentry, hlatest] using hnil
  | unknown hheight hentry hlatest hpush =>
      have hnil := movedOut_spent_eq_nil_iff (toList_keys_nodup s.coins.utxos)
        (spendAllUtxos_spent m s.coins)
        (fun row hrow => by simp [HasUtxo, mem_toList_iff.mp hrow])
      change movedOut s.coins (spendAllUtxos m s.coins) = [] ↔ _
      simpa [ConfirmationSpends, hentry, hlatest] using hnil

/-- Every connected event is indexed, up to the outputs that a confirmation
spends. -/
theorem connectEvent_indexed {h : Nat} {acc acc' : ConnectAcc} {event : LocatedEvent}
    (hrun : connectEvent h acc event = .ok acc') :
    ∃ spends extra, EventIndexed event acc acc' spends extra ∧
      (extra = [] ↔ ∀ m6id, event.2 = .withdrawalBundle ⟨m6id, .confirmed⟩ →
        ¬ ConfirmationSpends acc.state m6id) := by
  obtain ⟨hash, event⟩ := event
  cases event with
  | deposit deposit =>
      simp only [connectEvent, Except.ok.injEq] at hrun
      subst hrun
      refine ⟨[], [], ⟨rfl, by simp, ?_, by simp [eventMovements]⟩, by simp⟩
      intro evs
      exact pendingSpends_cons evs rfl fun _ _ _ => rfl
  | withdrawalBundle bundleEvent =>
      obtain ⟨m, status⟩ := bundleEvent
      simp only [connectEvent, bind_eq_ok_iff, Except.ok.injEq] at hrun
      obtain ⟨⟨s', ev'⟩, hevent, rfl⟩ := hrun
      cases status with
      | submitted =>
          obtain ⟨spends, hcase, rfl⟩ := connectWithdrawalBundleSubmitted_cases hevent
          refine ⟨spends.map fun row => (row.1, m), [], ⟨by simp [depositRows], rfl, ?_,
            ?_⟩, by simp⟩
          · intro evs
            exact pendingSpends_of_submitted hash evs hcase
          · have hperm := (movedOut_of_submitted hcase).map fun o => (o, m)
            rw [List.map_map] at hperm
            rw [List.append_nil]
            exact hperm
      | confirmed =>
          simp only [connectWithdrawalBundleEvent, bind_eq_ok_iff, Except.ok.injEq,
            Prod.mk.injEq] at hevent
          obtain ⟨s', hconfirmed, rfl, rfl⟩ := hevent
          have hcase := connectWithdrawalBundleConfirmed_cases hconfirmed
          refine ⟨[], (movedOut acc.state.coins s'.coins).map fun o => (o, m),
            ⟨by simp [depositRows], by simp, ?_, by simp [eventMovements]⟩, ?_⟩
          · intro evs
            exact pendingSpends_cons evs (pendingBundle_of_confirmed hcase)
              fun m' _ _ => by simp [isSubmission]
          · rw [List.map_eq_nil_iff, movedOut_of_confirmed hcase]
            simp
      | failed =>
          simp only [connectWithdrawalBundleEvent, bind_eq_ok_iff, Except.ok.injEq,
            Prod.mk.injEq] at hevent
          obtain ⟨_, hfailed, rfl, rfl⟩ := hevent
          have hcase := connectWithdrawalBundleFailed_cases hfailed
          refine ⟨[], [], ⟨by simp [depositRows], by simp, ?_,
            by simp [eventMovements]⟩, by simp⟩
          intro evs
          exact pendingSpends_cons evs (pendingBundle_of_failed hcase)
            fun m' _ _ => by simp [isSubmission]

theorem foldlM_connectEvent_indexed {h : Nat} {evs : List LocatedEvent}
    {acc acc' : ConnectAcc} (hrun : evs.foldlM (connectEvent h) acc = .ok acc') :
    acc'.indexEvents.deposits = acc.indexEvents.deposits ++ depositRows evs ∧
      acc'.indexEvents.bundleSpends =
        acc.indexEvents.bundleSpends ++ pendingSpends acc.state evs ∧
      ∃ extra, (bundleMovements h acc evs).Perm (pendingSpends acc.state evs ++ extra) ∧
        (extra = [] ↔ ConfirmsSpentBundles h acc evs) := by
  induction evs generalizing acc with
  | nil =>
      simp only [List.foldlM_nil, pure_eq_ok, Except.ok.injEq] at hrun
      subst hrun
      refine ⟨by simp [depositRows], by simp [pendingSpends_nil], [], ?_, ?_⟩
      · simp [pendingSpends_nil, bundleMovements]
      · simp [ConfirmsSpentBundles]
  | cons event evs ih =>
      rw [List.foldlM_cons, bind_eq_ok_iff] at hrun
      obtain ⟨acc₁, hevent, hrest⟩ := hrun
      obtain ⟨spends, extra, hindexed, hextra⟩ := connectEvent_indexed hevent
      obtain ⟨hdeposits, hspends, extra', hperm, hextra'⟩ := ih hrest
      refine ⟨?_, ?_, extra ++ extra', ?_, ?_⟩
      · rw [hdeposits, hindexed.deposits, List.append_assoc]
        rw [show event :: evs = [event] ++ evs from rfl, depositRows, depositRows,
          depositRows, List.filterMap_append]
      · rw [hspends, hindexed.bundleSpends, hindexed.pending, List.append_assoc]
      · simp only [bundleMovements, hevent, hindexed.pending]
        refine (hindexed.movements.append hperm).trans ?_
        rw [List.append_assoc, List.append_assoc, ← List.append_assoc extra,
          ← List.append_assoc _ extra]
        exact (List.perm_append_comm.append_right extra').append_left spends
      · simp only [ConfirmsSpentBundles, hevent, Except.ok.injEq, forall_eq',
          List.append_eq_nil_iff, hextra, hextra']

theorem listsMovements_iff {h : Nat} {s : PegState} {data : TwoWayPegData}
    {acc : ConnectAcc} (hrun : connectEvents s h data = .ok acc) :
    ListsMovements h s data acc.indexEvents ↔
      DistinctDeposits data ∧ ConfirmsSpentBundles h (connectStart s) (events data) := by
  have hstart : (events data).foldlM (connectEvent h) (connectStart s) = .ok acc := hrun
  obtain ⟨hdeposits, hspends, extra, hperm, hextra⟩ := foldlM_connectEvent_indexed hstart
  change _ = depositRows (events data) at hdeposits
  change _ = pendingSpends s (events data) at hspends
  change (bundleMovements h _ _).Perm (pendingSpends s (events data) ++ extra) at hperm
  constructor
  · rintro ⟨-, hdistinct, hmoves, -⟩
    rw [hdeposits] at hdistinct
    refine ⟨hdistinct, hextra.mp ?_⟩
    rw [hspends] at hmoves
    have hlength := (hmoves.trans hperm).length_eq
    rw [List.length_append] at hlength
    exact List.eq_nil_of_length_eq_zero (by omega)
  · rintro ⟨hdistinct, hconfirms⟩
    obtain rfl := hextra.mpr hconfirms
    rw [List.append_nil] at hperm
    refine ⟨?_, ?_, ?_, ?_⟩
    · rw [hdeposits]
    · rw [hdeposits]
      exact hdistinct
    · rw [hspends]
      exact hperm.symm
    · rw [hspends]
      exact pendingSpends_nodup s (events data)

/-- The record of a connection is what it stores under its height, and it lists
the movements of the peg data if and only if the deposits are distinct and no
confirmation spends outputs. -/
theorem recorded_movements_iff {L : BundleLib} {h : Nat} {s s' : PegState}
    {data : TwoWayPegData} (hrun : connect L (some h) s data = .ok s') :
    ∃ record, recordedEvents s h data = .ok record ∧
      s'.dbs.blockIndexEvents =
        (if record.isEmpty then s.dbs.blockIndexEvents
          else s.dbs.blockIndexEvents.insert h record) ∧
      (ListsMovements h s data record ↔
        DistinctDeposits data ∧
          ConfirmsSpentBundles h (connectStart s) (events data)) := by
  simp only [connect, okOr_some, ok_bind, bind_eq_ok_iff] at hrun
  obtain ⟨acc, hevents, hcreate⟩ := hrun
  refine ⟨acc.indexEvents, by simp [recordedEvents, hevents], ?_,
    listsMovements_iff hevents⟩
  rw [(PegLog.createPendingBundle_sameLogs hcreate).indexEvents]
  have hsame := (PegLog.foldlM_connectEvent_logs hevents).1.indexEvents
  simp only [recordEvents, hsame]

/-- A deposit, and the submission and confirmation of a bundle that nothing is
known about. -/
def unknownConfirmedData : TwoWayPegData :=
  ⟨[⟨0, [.deposit ⟨0, 0, ⟨0, .bitcoin 100, []⟩⟩,
    .withdrawalBundle ⟨7, .submitted⟩, .withdrawalBundle ⟨7, .confirmed⟩]⟩]⟩

/-- At height 0 the confirmation of an unknown bundle spends the deposit, which
the record does not list. -/
theorem unknown_confirmation_not_recorded :
    ∃ s' record, connect PegLog.constLib (some 0) ⟨Coins.empty, PegDbs.empty⟩
        unknownConfirmedData = .ok s' ∧
      recordedEvents ⟨Coins.empty, PegDbs.empty⟩ 0 unknownConfirmedData = .ok record ∧
      record.bundleSpends = [] ∧
      bundleMovements 0 (connectStart ⟨Coins.empty, PegDbs.empty⟩)
        (events unknownConfirmedData) = [(.deposit 0 0, 7)] ∧
      ¬ ListsMovements 0 ⟨Coins.empty, PegDbs.empty⟩ unknownConfirmedData record := by
  refine ⟨_, _, rfl, rfl, rfl, ?_⟩
  have hmoves : bundleMovements 0 (connectStart ⟨Coins.empty, PegDbs.empty⟩)
      (events unknownConfirmedData) = [(.deposit 0 0, 7)] := by decide +kernel
  refine ⟨hmoves, ?_⟩
  intro hlists
  have hperm := hlists.spends
  rw [hmoves] at hperm
  exact absurd hperm.length_eq (by decide)

theorem not_confirmationSpends_of_known {s : PegState} {m6id : M6id} {b : WithdrawalBundle}
    {status : RollBack WithdrawalBundleStatus}
    (hrow : s.dbs.withdrawalBundles[m6id]? = some (.known b, status))
    (hstatus : status.latest.value ≠ .submittedUnexpected) : ¬ ConfirmationSpends s m6id := by
  simp [ConfirmationSpends, hrow, hstatus]

theorem confirmsSpentBundles_cons {h : Nat} {acc acc' : ConnectAcc} {event : LocatedEvent}
    {evs : List LocatedEvent} (hstep : connectEvent h acc event = .ok acc')
    (hno : ∀ m6id, event.2 = .withdrawalBundle ⟨m6id, .confirmed⟩ →
      ¬ ConfirmationSpends acc.state m6id)
    (hrest : ConfirmsSpentBundles h acc' evs) :
    ConfirmsSpentBundles h acc (event :: evs) := by
  refine ⟨hno, fun acc'' hstep' => ?_⟩
  obtain rfl := Except.ok.inj (hstep.symm.trans hstep')
  exact hrest

/-- The outputs of two withdrawals. -/
def withdrawals : Table OutPoint FilledOutput :=
  ((∅ : Table OutPoint FilledOutput).insert (.regular 1 0)
    ⟨1, .bitcoinWithdrawal ⟨40, 2, 3⟩, []⟩).insert (.regular 2 0)
    ⟨2, .bitcoinWithdrawal ⟨50, 2, 4⟩, []⟩

/-- A bundle of both withdrawals is pending, and another output is unspent. -/
def pendingState : PegState :=
  ⟨⟨withdrawals.insert (.deposit 3 0) ⟨3, .bitcoin 70, []⟩, ∅, ∅⟩,
    { PegDbs.empty with
      pendingWithdrawalBundle := some 9
      withdrawalBundles := (∅ : Table M6id BundleEntry).insert 9
        (.known ⟨withdrawals, ⟨5, 6, []⟩⟩, RollBack.new .pending 3) }⟩

/-- Two deposits, and the submission and confirmation of the pending bundle. -/
def sweepData : TwoWayPegData :=
  ⟨[⟨10, [.deposit ⟨4, 0, ⟨4, .bitcoin 100, []⟩⟩, .withdrawalBundle ⟨9, .submitted⟩]⟩,
    ⟨11, [.deposit ⟨5, 0, ⟨5, .bitcoin 60, []⟩⟩, .withdrawalBundle ⟨9, .confirmed⟩]⟩]⟩

theorem distinctDeposits_sweepData : DistinctDeposits sweepData := by
  unfold DistinctDeposits
  decide

theorem confirmsSpentBundles_sweepData :
    ConfirmsSpentBundles 4 (connectStart pendingState) (events sweepData) := by
  refine confirmsSpentBundles_cons rfl (by simp) ?_
  refine confirmsSpentBundles_cons rfl (by simp) ?_
  refine confirmsSpentBundles_cons rfl (by simp) ?_
  refine confirmsSpentBundles_cons rfl ?_ trivial
  intro m6id hevent
  obtain rfl : 9 = m6id := by simpa using hevent
  exact not_confirmationSpends_of_known rfl (by decide)

/-- The deposits and the bundle are recorded. -/
theorem recorded_movements_sweep :
    ∃ s' record, connect PegLog.constLib (some 4) pendingState sweepData = .ok s' ∧
      recordedEvents pendingState 4 sweepData = .ok record ∧
      record.bundleSpends = [(.regular 1 0, 9), (.regular 2 0, 9)] ∧
      ListsMovements 4 pendingState sweepData record := by
  obtain ⟨record, hrecord, -, hiff⟩ :=
    recorded_movements_iff (rfl : connect PegLog.constLib (some 4) pendingState sweepData = .ok _)
  refine ⟨_, record, rfl, hrecord, ?_,
    hiff.mpr ⟨distinctDeposits_sweepData, confirmsSpentBundles_sweepData⟩⟩
  obtain rfl := Except.ok.inj hrecord
  rfl

end Truthcoin.PegIndex
