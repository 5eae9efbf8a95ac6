import Truthcoin.CoinMoves

/-!
# What one peg event can do

Each event handler succeeds in a few cases only. The relations below list them,
with everything that holds in each case.
-/

namespace Truthcoin.PegSteps

open Truthcoin.Types Truthcoin.Table Truthcoin.Fallible Truthcoin.TwoWayPeg
open Truthcoin.CoinMoves Truthcoin.WithdrawalBundle

abbrev Status := RollBack WithdrawalBundleStatus

theorem pushStatus_eq_ok_iff {label : String} {st st' : Status}
    {value : WithdrawalBundleStatus} {h : Nat} :
    pushStatus label st value h = .ok st' ↔ st.push value h = .ok st' := by
  unfold pushStatus
  split <;> simp_all

/-- Successful outcomes of a submission, with the outputs it spends. -/
inductive SubmittedCase (h : Nat) (m : M6id) (s : PegState) :
    PegState → List CoinRow → Prop where
  | pending {b : WithdrawalBundle} {st st' : Status} {coins : Coins}
      (hpending : s.dbs.pendingWithdrawalBundle = some m)
      (hentry : s.dbs.withdrawalBundles[m]? = some (.known b, st))
      (hlatest : st.latest.value = .pending)
      (hspend : spendBundleUtxos Error.noUtxo m b.spendUtxos.toList s.coins =
        .ok coins)
      (hpush : st.push .submitted h = .ok st') :
      SubmittedCase h m s
        ((({ s with coins := coins }).putBundle m (.known b, st')).setPending none)
        b.spendUtxos.toList
  | resubmitted {info : WithdrawalBundleInfo} {st st' : Status}
      (hpending : s.dbs.pendingWithdrawalBundle ≠ some m)
      (hentry : s.dbs.withdrawalBundles[m]? = some (info, st))
      (hlatest : st.latest.value = .dropped ∨ st.latest.value = .failed)
      (hinfo : ∀ spends, info ≠ .unknownConfirmed spends)
      (hpush : st.push .submittedUnexpected h = .ok st') :
      SubmittedCase h m s (s.putBundle m (info, st')) []
  | unknown (hpending : s.dbs.pendingWithdrawalBundle ≠ some m)
      (hentry : s.dbs.withdrawalBundles[m]? = none) :
      SubmittedCase h m s (s.putBundle m (.unknown, RollBack.new .submitted h)) []

theorem checkResubmission_ok {info : WithdrawalBundleInfo}
    {latest : HeightStamped WithdrawalBundleStatus} {hash : MainBlockHash} {m : M6id}
    {u : Unit} (hcheck : checkResubmission info latest hash m = .ok u) :
    (latest.value = .dropped ∨ latest.value = .failed) ∧
      ∀ spends, info ≠ .unknownConfirmed spends := by
  unfold checkResubmission at hcheck
  split at hcheck <;> simp_all

theorem connectWithdrawalBundleSubmitted_cases {s s' : PegState} {h : Nat}
    {ev ev' : BlockIndexEvents} {hash : MainBlockHash} {m : M6id}
    (hrun : connectWithdrawalBundleSubmitted s h ev hash m = .ok (s', ev')) :
    ∃ spends, SubmittedCase h m s s' spends ∧
      ev' = { ev with
        bundleSpends := ev.bundleSpends ++ spends.map fun row => (row.1, m) } := by
  unfold connectWithdrawalBundleSubmitted at hrun
  split at hrun
  case isTrue hpending =>
    unfold connectPendingSubmitted at hrun
    split at hrun
    · simp at hrun
    · rename_i b st hentry
      simp only [bind_eq_ok_iff, ensure_eq_ok_iff, pushStatus_eq_ok_iff,
        Except.ok.injEq, Prod.mk.injEq] at hrun
      obtain ⟨coins, hspend, _, hlatest, st', hpush, rfl, rfl⟩ := hrun
      exact ⟨_, .pending hpending hentry hlatest hspend hpush, rfl⟩
    · simp at hrun
  case isFalse hpending =>
    split at hrun
    · rename_i info st hentry
      simp only [bind_eq_ok_iff, pushStatus_eq_ok_iff, Except.ok.injEq,
        Prod.mk.injEq] at hrun
      obtain ⟨_, hcheck, st', hpush, rfl, rfl⟩ := hrun
      obtain ⟨hlatest, hinfo⟩ := checkResubmission_ok hcheck
      exact ⟨[], .resubmitted hpending hentry hlatest hinfo hpush, by simp⟩
    · rename_i hentry
      simp only [Except.ok.injEq, Prod.mk.injEq] at hrun
      obtain ⟨rfl, rfl⟩ := hrun
      exact ⟨[], .unknown hpending hentry, by simp⟩

/-- Successful outcomes of a confirmation. -/
inductive ConfirmedCase (h : Nat) (m : M6id) (s : PegState) : PegState → Prop where
  | again {info : WithdrawalBundleInfo} {st : Status}
      (hentry : s.dbs.withdrawalBundles[m]? = some (info, st))
      (hlatest : st.latest.value = .confirmed) : ConfirmedCase h m s s
  | submitted {b : WithdrawalBundle} {st st' : Status}
      (hentry : s.dbs.withdrawalBundles[m]? = some (.known b, st))
      (hlatest : st.latest.value = .submitted)
      (hpush : st.push .confirmed h = .ok st') :
      ConfirmedCase h m s (s.putBundle m (.known b, st'))
  | unexpected {b : WithdrawalBundle} {st st' : Status} {coins : Coins}
      {missing : OutPoint → Error}
      (hentry : s.dbs.withdrawalBundles[m]? = some (.known b, st))
      (hlatest : st.latest.value = .submittedUnexpected)
      (hspend : spendBundleUtxos missing m b.spendUtxos.toList s.coins = .ok coins)
      (hpush : st.push .confirmed h = .ok st') :
      ConfirmedCase h m s
        (({ s with coins := coins }).putBundle m (.known b, st'))
  | unknown {st st' : Status} (hheight : h = 0)
      (hentry : s.dbs.withdrawalBundles[m]? = some (.unknown, st))
      (hlatest : isSubmitted st.latest.value)
      (hpush : st.push .confirmed h = .ok st') :
      ConfirmedCase h m s
        (({ s with coins := spendAllUtxos m s.coins }).putBundle m
          (.unknownConfirmed s.coins.utxos, st'))

theorem connectWithdrawalBundleConfirmed_cases {s s' : PegState} {h : Nat}
    {hash : MainBlockHash} {m : M6id}
    (hrun : connectWithdrawalBundleConfirmed s h hash m = .ok s') :
    ConfirmedCase h m s s' := by
  unfold connectWithdrawalBundleConfirmed at hrun
  split at hrun
  · simp at hrun
  · rename_i info st hentry
    simp only at hrun
    split at hrun
    case isTrue hlatest =>
      obtain rfl : s = s' := by simpa using hrun
      exact .again hentry hlatest
    case isFalse hlatest =>
      simp only [ensure_eq_ok_iff, bind_eq_ok_iff, pushStatus_eq_ok_iff,
        Except.ok.injEq] at hrun
      obtain ⟨_, hsub, ⟨coins, info'⟩, hconfirm, st', hpush, rfl⟩ := hrun
      cases info with
      | known b =>
          simp only [confirmBundle] at hconfirm
          split at hconfirm
          case isTrue hunexpected =>
            simp only [bind_eq_ok_iff, Except.ok.injEq, Prod.mk.injEq] at hconfirm
            obtain ⟨_, hspend, rfl, rfl⟩ := hconfirm
            exact .unexpected hentry hunexpected hspend hpush
          case isFalse hexpected =>
            simp only [Except.ok.injEq, Prod.mk.injEq] at hconfirm
            obtain ⟨rfl, rfl⟩ := hconfirm
            exact .submitted hentry (hsub.resolve_right hexpected) hpush
      | unknown =>
          simp only [confirmBundle] at hconfirm
          split at hconfirm
          case isTrue hheight =>
            simp only [Except.ok.injEq, Prod.mk.injEq] at hconfirm
            obtain ⟨rfl, rfl⟩ := hconfirm
            exact .unknown hheight hentry hsub hpush
          case isFalse => simp at hconfirm
      | unknownConfirmed spends => simp [confirmBundle] at hconfirm

/-- Successful outcomes of a failure. -/
inductive FailedCase (h : Nat) (m : M6id) (s : PegState) : PegState → Prop where
  | again {info : WithdrawalBundleInfo} {st : Status}
      (hentry : s.dbs.withdrawalBundles[m]? = some (info, st))
      (hlatest : st.latest.value = .failed) : FailedCase h m s s
  | submitted {b : WithdrawalBundle} {st st' : Status} {failed : RollBack M6id}
      (hentry : s.dbs.withdrawalBundles[m]? = some (.known b, st))
      (hlatest : st.latest.value = .submitted)
      (hfailed : pushLatestFailed s.dbs.latestFailedWithdrawalBundle m h = .ok failed)
      (hpush : st.push .failed h = .ok st') :
      FailedCase h m s
        (({ s with
          coins := reinstateUtxos b.spendUtxos.toList s.coins
          dbs.latestFailedWithdrawalBundle := some failed }).putBundle m
            (.known b, st'))
  | unspent {info : WithdrawalBundleInfo} {st st' : Status}
      (hentry : s.dbs.withdrawalBundles[m]? = some (info, st))
      (hlatest : isSubmitted st.latest.value)
      (hunspent : (∃ b, info = .known b) → st.latest.value = .submittedUnexpected)
      (hpush : st.push .failed h = .ok st') :
      FailedCase h m s (s.putBundle m (info, st'))

theorem connectWithdrawalBundleFailed_cases {s s' : PegState} {h : Nat} {m : M6id}
    (hrun : connectWithdrawalBundleFailed s h m = .ok s') : FailedCase h m s s' := by
  unfold connectWithdrawalBundleFailed at hrun
  split at hrun
  · simp at hrun
  · rename_i info st hentry
    simp only at hrun
    split at hrun
    case isTrue hlatest =>
      obtain rfl : s = s' := by simpa using hrun
      exact .again hentry hlatest
    case isFalse hlatest =>
      rw [bind_eq_ok_iff] at hrun
      obtain ⟨_, hsub, hrun⟩ := hrun
      rw [ensure_eq_ok_iff] at hsub
      cases info with
      | known b =>
          simp only at hrun
          split at hrun
          case isTrue hunexpected =>
            simp only [ok_bind, bind_eq_ok_iff, pushStatus_eq_ok_iff,
              Except.ok.injEq] at hrun
            obtain ⟨st', hpush, rfl⟩ := hrun
            exact .unspent hentry hsub (fun _ => hunexpected) hpush
          case isFalse hexpected =>
            simp only [bind_eq_ok_iff, pushStatus_eq_ok_iff, Except.ok.injEq] at hrun
            obtain ⟨failed, hfailed, _, rfl, st', hpush, rfl⟩ := hrun
            exact .submitted hentry (hsub.resolve_right hexpected) hfailed hpush
      | unknown =>
          simp only [ok_bind, bind_eq_ok_iff, pushStatus_eq_ok_iff,
            Except.ok.injEq] at hrun
          obtain ⟨st', hpush, rfl⟩ := hrun
          exact .unspent hentry hsub (by simp) hpush
      | unknownConfirmed spends =>
          simp only [ok_bind, bind_eq_ok_iff, pushStatus_eq_ok_iff,
            Except.ok.injEq] at hrun
          obtain ⟨st', hpush, rfl⟩ := hrun
          exact .unspent hentry hsub (by simp) hpush

/-- Successful outcomes of an event. -/
inductive EventCase (h : Nat) (s : PegState) : BlockEvent → PegState → Prop where
  | deposit (deposit : Deposit) : EventCase h s (.deposit deposit)
      { s with coins := s.coins.insertUtxo deposit.outpoint deposit.output }
  | submitted {m : M6id} {s' : PegState} {spends : List CoinRow}
      (hcase : SubmittedCase h m s s' spends) :
      EventCase h s (.withdrawalBundle ⟨m, .submitted⟩) s'
  | confirmed {m : M6id} {s' : PegState} (hcase : ConfirmedCase h m s s') :
      EventCase h s (.withdrawalBundle ⟨m, .confirmed⟩) s'
  | failed {m : M6id} {s' : PegState} (hcase : FailedCase h m s s') :
      EventCase h s (.withdrawalBundle ⟨m, .failed⟩) s'

theorem connectEvent_cases {h : Nat} {acc acc' : ConnectAcc} {event : LocatedEvent}
    (hrun : connectEvent h acc event = .ok acc') :
    EventCase h acc.state event.2 acc'.state := by
  obtain ⟨hash, event⟩ := event
  cases event with
  | deposit deposit =>
      simp only [connectEvent, Except.ok.injEq] at hrun
      subst hrun
      exact .deposit deposit
  | withdrawalBundle bundleEvent =>
      obtain ⟨m, status⟩ := bundleEvent
      simp only [connectEvent, bind_eq_ok_iff, Except.ok.injEq] at hrun
      obtain ⟨⟨s', ev'⟩, hevent, rfl⟩ := hrun
      cases status with
      | submitted =>
          obtain ⟨spends, hcase, -⟩ := connectWithdrawalBundleSubmitted_cases hevent
          exact .submitted hcase
      | confirmed =>
          simp only [connectWithdrawalBundleEvent, bind_eq_ok_iff, Except.ok.injEq,
            Prod.mk.injEq] at hevent
          obtain ⟨_, hconfirmed, rfl, rfl⟩ := hevent
          exact .confirmed (connectWithdrawalBundleConfirmed_cases hconfirmed)
      | failed =>
          simp only [connectWithdrawalBundleEvent, bind_eq_ok_iff, Except.ok.injEq,
            Prod.mk.injEq] at hevent
          obtain ⟨_, hfailed, rfl, rfl⟩ := hevent
          exact .failed (connectWithdrawalBundleFailed_cases hfailed)

/-- Successful outcomes of undoing a submission. -/
inductive UnsubmittedCase (h : Nat) (m : M6id) (s : PegState) : PegState → Prop where
  | absent (hentry : s.dbs.withdrawalBundles[m]? = none)
      (hpending : s.dbs.pendingWithdrawalBundle = some m) : UnsubmittedCase h m s s
  | pending {b : WithdrawalBundle} {st prev : Status} {coins : Coins}
      {latest : HeightStamped WithdrawalBundleStatus}
      (hentry : s.dbs.withdrawalBundles[m]? = some (.known b, st))
      (hpop : st.pop = (some prev, latest)) (hlatest : isSubmitted latest.value)
      (hheight : latest.height = h) (hprev : prev.latest.value = .pending)
      (hunspend : unspendBundleUtxos b.spendUtxos.toList.reverse s.coins = .ok coins) :
      UnsubmittedCase h m s
        ((({ s with coins := coins }).setPending (some m)).putBundle m
          (.known b, prev))
  | recorded {info : WithdrawalBundleInfo} {st prev : Status}
      {latest : HeightStamped WithdrawalBundleStatus}
      (hentry : s.dbs.withdrawalBundles[m]? = some (info, st))
      (hpop : st.pop = (some prev, latest)) (hlatest : isSubmitted latest.value)
      (hheight : latest.height = h)
      (hprev : (∃ b, info = .known b) → prev.latest.value ≠ .pending) :
      UnsubmittedCase h m s (s.putBundle m (info, prev))
  | first {info : WithdrawalBundleInfo} {st : Status}
      {latest : HeightStamped WithdrawalBundleStatus}
      (hentry : s.dbs.withdrawalBundles[m]? = some (info, st))
      (hpop : st.pop = (none, latest)) (hlatest : isSubmitted latest.value)
      (hheight : latest.height = h) :
      UnsubmittedCase h m s (s.deleteBundle m)

theorem disconnectWithdrawalBundleSubmitted_cases {s s' : PegState} {h : Nat}
    {m : M6id} (hrun : disconnectWithdrawalBundleSubmitted s h m = .ok s') :
    UnsubmittedCase h m s s' := by
  unfold disconnectWithdrawalBundleSubmitted at hrun
  split at hrun
  · rename_i hentry
    split at hrun
    case isTrue hpending =>
      obtain rfl : s = s' := by simpa using hrun
      exact .absent hentry hpending
    case isFalse => simp at hrun
  · rename_i info st hentry
    rcases hpop : st.pop with ⟨prev, latest⟩
    simp only [hpop] at hrun
    simp only [ensure_eq_ok_iff, bind_eq_ok_iff] at hrun
    obtain ⟨_, hlatest, _, hheight, hrun⟩ := hrun
    cases prev with
    | none =>
        have hrun : (Except.ok (s.deleteBundle m) : Except Error PegState) = .ok s' := by
          cases info <;> simpa using hrun
        obtain rfl := Except.ok.inj hrun
        exact .first hentry hpop hlatest hheight
    | some prev =>
        cases info with
        | known b =>
            simp only at hrun
            split at hrun
            case isTrue hprev =>
              simp only [bind_eq_ok_iff, Except.ok.injEq] at hrun
              obtain ⟨coins, hunspend, _, rfl, rfl⟩ := hrun
              exact .pending hentry hpop hlatest hheight hprev hunspend
            case isFalse hprev =>
              simp only [ok_bind, Except.ok.injEq] at hrun
              subst hrun
              exact .recorded hentry hpop hlatest hheight (fun _ => hprev)
        | unknown =>
            simp only [ok_bind, Except.ok.injEq] at hrun
            subst hrun
            exact .recorded hentry hpop hlatest hheight (by simp)
        | unknownConfirmed spends =>
            simp only [ok_bind, Except.ok.injEq] at hrun
            subst hrun
            exact .recorded hentry hpop hlatest hheight (by simp)

/-- Successful outcomes of undoing a confirmation. -/
inductive UnconfirmedCase (h : Nat) (m : M6id) (s : PegState) : PegState → Prop where
  | kept {info : WithdrawalBundleInfo} {st : Status}
      (hentry : s.dbs.withdrawalBundles[m]? = some (info, st))
      (hlatest : isSubmitted st.latest.value) : UnconfirmedCase h m s s
  | unexpected {b : WithdrawalBundle} {st prev : Status} {coins : Coins}
      (hentry : s.dbs.withdrawalBundles[m]? = some (.known b, st))
      (hpop : st.pop = (some prev, ⟨.confirmed, h⟩))
      (hprev : prev.latest.value = .submittedUnexpected)
      (hunspend : unconfirmUtxos b.spendUtxos.toList s.coins = .ok coins) :
      UnconfirmedCase h m s
        (({ s with coins := coins }).putBundle m (.known b, prev))
  | unknownConfirmed {spends : Table OutPoint FilledOutput} {st prev : Status}
      {coins : Coins}
      (hentry : s.dbs.withdrawalBundles[m]? = some (.unknownConfirmed spends, st))
      (hpop : st.pop = (some prev, ⟨.confirmed, h⟩))
      (hprev : isSubmitted prev.latest.value)
      (hunspend : unconfirmUtxos spends.toList s.coins = .ok coins) :
      UnconfirmedCase h m s
        (({ s with coins := coins }).putBundle m (.unknown, prev))
  | recorded {info : WithdrawalBundleInfo} {st prev : Status}
      (hentry : s.dbs.withdrawalBundles[m]? = some (info, st))
      (hpop : st.pop = (some prev, ⟨.confirmed, h⟩))
      (hprev : isSubmitted prev.latest.value)
      (hsubmitted : (∃ b, info = .known b) → prev.latest.value = .submitted)
      (hinfo : ∀ spends, info ≠ .unknownConfirmed spends) :
      UnconfirmedCase h m s (s.putBundle m (info, prev))

theorem disconnectWithdrawalBundleConfirmed_cases {s s' : PegState} {h : Nat}
    {m : M6id} (hrun : disconnectWithdrawalBundleConfirmed s h m = .ok s') :
    UnconfirmedCase h m s s' := by
  unfold disconnectWithdrawalBundleConfirmed at hrun
  split at hrun
  · simp at hrun
  · rename_i info st hentry
    have hlatest := RollBack.pop_latest st
    rcases hpop : st.pop with ⟨prev, ⟨value, height⟩⟩
    simp only [hpop] at hrun hlatest
    split at hrun
    case isTrue hsub =>
      obtain rfl : s = s' := by simpa using hrun
      exact .kept hentry (hlatest ▸ hsub)
    case isFalse hsub =>
      simp only [ensure_eq_ok_iff, okOr_eq_ok_iff, bind_eq_ok_iff] at hrun
      obtain ⟨_, rfl, _, rfl, prev, rfl, _, hprev, hrun⟩ := hrun
      cases info with
      | known b =>
          simp only at hrun
          split at hrun
          case isTrue hunexpected =>
            simp only [bind_eq_ok_iff, Except.ok.injEq] at hrun
            obtain ⟨coins, hunspend, _, rfl, rfl⟩ := hrun
            exact .unexpected hentry hpop hunexpected hunspend
          case isFalse hexpected =>
            simp only [ok_bind, Except.ok.injEq] at hrun
            subst hrun
            exact .recorded hentry hpop hprev
              (fun _ => hprev.resolve_right hexpected) (by simp)
      | unknown =>
          simp only [ok_bind, Except.ok.injEq] at hrun
          subst hrun
          exact .recorded hentry hpop hprev (by simp) (by simp)
      | unknownConfirmed spends =>
          simp only [bind_eq_ok_iff, Except.ok.injEq] at hrun
          obtain ⟨coins, hunspend, _, rfl, rfl⟩ := hrun
          exact .unknownConfirmed hentry hpop hprev hunspend

/-- Successful outcomes of undoing a failure. -/
inductive UnfailedCase (h : Nat) (m : M6id) (s : PegState) : PegState → Prop where
  | kept {info : WithdrawalBundleInfo} {st : Status}
      (hentry : s.dbs.withdrawalBundles[m]? = some (info, st))
      (hlatest : st.latest.value = .submitted) : UnfailedCase h m s s
  | submitted {b : WithdrawalBundle} {st prev : Status} {coins : Coins}
      {failed : Option (RollBack M6id)}
      (hentry : s.dbs.withdrawalBundles[m]? = some (.known b, st))
      (hpop : st.pop = (some prev, ⟨.failed, h⟩))
      (hprev : prev.latest.value = .submitted)
      (hspend : respendUtxos m b.spendUtxos.toList.reverse s.coins = .ok coins)
      (hfailed : popLatestFailed s.dbs.latestFailedWithdrawalBundle m h = .ok failed) :
      UnfailedCase h m s
        (({ s with
          coins := coins
          dbs.latestFailedWithdrawalBundle := failed }).putBundle m (.known b, prev))
  | recorded {info : WithdrawalBundleInfo} {st prev : Status}
      (hentry : s.dbs.withdrawalBundles[m]? = some (info, st))
      (hpop : st.pop = (some prev, ⟨.failed, h⟩))
      (hprev : isSubmitted prev.latest.value)
      (hunexpected : (∃ b, info = .known b) →
        prev.latest.value = .submittedUnexpected) :
      UnfailedCase h m s (s.putBundle m (info, prev))

theorem disconnectWithdrawalBundleFailed_cases {s s' : PegState} {h : Nat}
    {m : M6id} (hrun : disconnectWithdrawalBundleFailed s h m = .ok s') :
    UnfailedCase h m s s' := by
  unfold disconnectWithdrawalBundleFailed at hrun
  split at hrun
  · simp at hrun
  · rename_i info st hentry
    have hlatest := RollBack.pop_latest st
    rcases hpop : st.pop with ⟨prev, ⟨value, height⟩⟩
    simp only [hpop] at hrun hlatest
    split at hrun
    case isTrue hsub =>
      obtain rfl : s = s' := by simpa using hrun
      exact .kept hentry (hlatest ▸ hsub)
    case isFalse hsub =>
      simp only [ensure_eq_ok_iff, okOr_eq_ok_iff, bind_eq_ok_iff] at hrun
      obtain ⟨_, rfl, _, rfl, prev, rfl, _, hprev, hrun⟩ := hrun
      cases info with
      | known b =>
          simp only at hrun
          split at hrun
          case isTrue hunexpected =>
            simp only [ok_bind, Except.ok.injEq] at hrun
            subst hrun
            exact .recorded hentry hpop hprev (fun _ => hunexpected)
          case isFalse hexpected =>
            simp only [bind_eq_ok_iff, Except.ok.injEq] at hrun
            obtain ⟨coins, hspend, failed, hfailed, _, rfl, rfl⟩ := hrun
            exact .submitted hentry hpop (hprev.resolve_right hexpected) hspend hfailed
      | unknown =>
          simp only [ok_bind, Except.ok.injEq] at hrun
          subst hrun
          exact .recorded hentry hpop hprev (by simp)
      | unknownConfirmed spends =>
          simp only [ok_bind, Except.ok.injEq] at hrun
          subst hrun
          exact .recorded hentry hpop hprev (by simp)

/-- Successful outcomes of the creation of a pending bundle. -/
inductive CreateCase (L : BundleLib) (h : Nat) (s : PegState) : PegState → Prop where
  | nothing {gapPassed : Bool} (hgap : failureGapPassed s.dbs h = .ok gapPassed) :
      CreateCase L h s s
  | created {b : WithdrawalBundle} {st : Status}
      (hgap : failureGapPassed s.dbs h = .ok true)
      (hpending : s.dbs.pendingWithdrawalBundle = none)
      (hcollect : collectWithdrawalBundle L s.coins h = .ok (some b))
      (hstatus :
        (s.dbs.withdrawalBundles[computeM6id L b]? = none ∧
          st = RollBack.new .pending h) ∨
        ∃ info st₀, s.dbs.withdrawalBundles[computeM6id L b]? = some (info, st₀) ∧
          st₀.push .pending h = .ok st) :
      CreateCase L h s
        ((s.setPending (some (computeM6id L b))).putBundle (computeM6id L b)
          (.known b, st))

theorem createPendingBundle_cases {L : BundleLib} {h : Nat} {s s' : PegState}
    (hrun : createPendingBundle L s h = .ok s') : CreateCase L h s s' := by
  unfold createPendingBundle at hrun
  rw [bind_eq_ok_iff] at hrun
  obtain ⟨gapPassed, hgap, hrun⟩ := hrun
  split at hrun
  case isFalse =>
    obtain rfl : s = s' := by simpa using hrun
    exact .nothing hgap
  case isTrue hcond =>
    obtain ⟨rfl, hpending⟩ := hcond
    rw [bind_eq_ok_iff] at hrun
    obtain ⟨bundle, hcollect, hrun⟩ := hrun
    cases bundle with
    | none =>
        obtain rfl : s = s' := by simpa using hrun
        exact .nothing hgap
    | some b =>
        simp only [storePendingBundle] at hrun
        cases hentry : s.dbs.withdrawalBundles[computeM6id L b]? with
        | none =>
            simp only [hentry, ok_bind, Except.ok.injEq] at hrun
            subst hrun
            exact .created hgap hpending hcollect (.inl ⟨hentry, rfl⟩)
        | some entry =>
            simp only [hentry, bind_eq_ok_iff, pushStatus_eq_ok_iff,
              Except.ok.injEq] at hrun
            obtain ⟨st, hpush, rfl⟩ := hrun
            exact .created hgap hpending hcollect
              (.inr ⟨entry.1, entry.2, hentry, hpush⟩)

/-- Successful outcomes of the removal of a pending bundle. -/
inductive DropCase (h : Nat) (s : PegState) : PegState → Prop where
  | kept {gapPassed : Bool} (hgap : failureGapPassed s.dbs h = .ok gapPassed) :
      DropCase h s s
  | dropped {m : M6id} {info : WithdrawalBundleInfo} {st prev : Status}
      {latest : HeightStamped WithdrawalBundleStatus}
      (hgap : failureGapPassed s.dbs h = .ok true)
      (hpending : s.dbs.pendingWithdrawalBundle = some m)
      (hentry : s.dbs.withdrawalBundles[m]? = some (info, st))
      (hheight : st.latest.height = h) (hpop : st.pop = (some prev, latest)) :
      DropCase h s ((s.setPending none).putBundle m (info, prev))
  | deleted {m : M6id} {info : WithdrawalBundleInfo} {st : Status}
      {latest : HeightStamped WithdrawalBundleStatus}
      (hgap : failureGapPassed s.dbs h = .ok true)
      (hpending : s.dbs.pendingWithdrawalBundle = some m)
      (hentry : s.dbs.withdrawalBundles[m]? = some (info, st))
      (hheight : st.latest.height = h) (hpop : st.pop = (none, latest)) :
      DropCase h s ((s.setPending none).deleteBundle m)

theorem dropPendingBundle_cases {h : Nat} {s s' : PegState}
    (hrun : dropPendingBundle s h = .ok s') : DropCase h s s' := by
  unfold dropPendingBundle at hrun
  rw [bind_eq_ok_iff] at hrun
  obtain ⟨gapPassed, hgap, hrun⟩ := hrun
  split at hrun
  · rename_i m hpending
    rw [bind_eq_ok_iff] at hrun
    obtain ⟨⟨info, st⟩, hentry, hrun⟩ := hrun
    rw [okOr_eq_ok_iff] at hentry
    simp only at hrun
    split at hrun
    case isFalse =>
      obtain rfl : s = s' := by simpa using hrun
      exact .kept hgap
    case isTrue hheight =>
      rcases hpop : st.pop with ⟨prev, latest⟩
      rw [hpop] at hrun
      cases prev with
      | some prev =>
          obtain rfl := Except.ok.inj hrun
          exact .dropped hgap hpending hentry hheight hpop
      | none =>
          obtain rfl := Except.ok.inj hrun
          exact .deleted hgap hpending hentry hheight hpop
  · obtain rfl : s = s' := by simpa using hrun
    exact .kept hgap

end Truthcoin.PegSteps
