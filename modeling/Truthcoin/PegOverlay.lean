import Truthcoin.PegUndo

/-!
# Undoing the events of a connection

A disconnection undoes the events while the tables still hold what the connection
wrote after them: the logs, the block index and a new pending bundle. None of this
is seen by the events.
-/

namespace Truthcoin.PegOverlay

open Truthcoin.Types Truthcoin.Table Truthcoin.Fallible Truthcoin.TwoWayPeg
open Truthcoin.CoinMoves Truthcoin.PegSteps Truthcoin.PegSafety Truthcoin.PegUndo

/-- What a connection writes after its events. -/
structure Overlay where
  created : Option (M6id × BundleEntry)
  blockIndexEvents : Table Nat BlockIndexEvents
  depositBlocks : Table UInt32 (MainBlockHash × Nat)
  withdrawalBundleEventBlocks : Table UInt32 (MainBlockHash × Nat)

namespace Overlay

variable {v : Overlay} {s : PegState} {m : M6id}

def setLogs (v : Overlay) (s : PegState) : PegState :=
  { s with
    dbs := { s.dbs with
      blockIndexEvents := v.blockIndexEvents
      depositBlocks := v.depositBlocks
      withdrawalBundleEventBlocks := v.withdrawalBundleEventBlocks } }

def on (v : Overlay) (s : PegState) : PegState :=
  match v.created with
  | none => v.setLogs s
  | some (m6id, entry) => ((v.setLogs s).setPending (some m6id)).putBundle m6id entry

/-- A new bundle replaces neither a pending bundle nor an entry. -/
def Fits (v : Overlay) (s : PegState) : Prop :=
  ∀ m6id entry, v.created = some (m6id, entry) →
    s.dbs.pendingWithdrawalBundle = none ∧ s.dbs.withdrawalBundles[m6id]? = none

@[simp]
theorem on_coins (v : Overlay) (s : PegState) : (v.on s).coins = s.coins := by
  unfold on
  split <;> rfl

@[simp]
theorem on_latestFailed (v : Overlay) (s : PegState) :
    (v.on s).dbs.latestFailedWithdrawalBundle = s.dbs.latestFailedWithdrawalBundle := by
  unfold on
  split <;> rfl

theorem on_setCoins (v : Overlay) (s : PegState) (c : Coins) :
    v.on { s with coins := c } = { v.on s with coins := c } := by
  unfold on
  split <;> rfl

theorem on_setFailed (v : Overlay) (s : PegState) (c : Coins)
    (failed : Option (RollBack M6id)) :
    v.on { s with coins := c, dbs.latestFailedWithdrawalBundle := failed } =
      { v.on s with coins := c, dbs.latestFailedWithdrawalBundle := failed } := by
  unfold on
  split <;> rfl

theorem on_logs (v : Overlay) (s : PegState) :
    (v.on s).dbs.blockIndexEvents = v.blockIndexEvents ∧
      (v.on s).dbs.depositBlocks = v.depositBlocks ∧
      (v.on s).dbs.withdrawalBundleEventBlocks = v.withdrawalBundleEventBlocks := by
  unfold on
  split <;> exact ⟨rfl, rfl, rfl⟩

theorem on_setIndex (v : Overlay) (s : PegState)
    (t : Table Nat BlockIndexEvents) :
    { v.on s with dbs.blockIndexEvents := t } =
      on { v with blockIndexEvents := t } s := by
  unfold on
  split <;> simp only [*] <;> rfl

theorem on_setEventBlocks (v : Overlay) (s : PegState)
    (t : Table UInt32 (MainBlockHash × Nat)) :
    { v.on s with dbs.withdrawalBundleEventBlocks := t } =
      on { v with withdrawalBundleEventBlocks := t } s := by
  unfold on
  split <;> simp only [*] <;> rfl

/-- The overlay has no entry for the bundle. -/
def Spares (v : Overlay) (m : M6id) : Prop :=
  ∀ entry, v.created ≠ some (m, entry)

theorem spares_of_lookup (hfits : v.Fits s) {entry : BundleEntry}
    (h : s.dbs.withdrawalBundles[m]? = some entry) : v.Spares m := by
  intro e hcreated
  rw [(hfits m e hcreated).2] at h
  cases h

theorem on_lookup (hspares : v.Spares m) :
    (v.on s).dbs.withdrawalBundles[m]? = s.dbs.withdrawalBundles[m]? := by
  unfold on
  split
  · rfl
  · rename_i m6id entry hcreated
    have hne : m6id ≠ m := by
      rintro rfl
      exact hspares entry hcreated
    simp [PegState.putBundle, PegState.setPending, setLogs,
      Std.ExtTreeMap.getElem?_insert, hne]

theorem on_pending_ne (hspares : v.Spares m)
    (h : s.dbs.pendingWithdrawalBundle ≠ some m) :
    (v.on s).dbs.pendingWithdrawalBundle ≠ some m := by
  unfold on
  split
  · exact h
  · rename_i m6id entry hcreated
    intro hpending
    obtain rfl : m6id = m := by
      simpa [PegState.putBundle, PegState.setPending] using hpending
    exact hspares entry hcreated

theorem insert_comm {K V : Type} [TableKey K] {t : Table K V} {k k' : K} (v v' : V)
    (h : k ≠ k') : (t.insert k v).insert k' v' = (t.insert k' v').insert k v := by
  apply ext_lookup
  intro k''
  simp only [Std.ExtTreeMap.getElem?_insert, Std.LawfulEqCmp.compare_eq_iff_eq]
  grind

theorem on_putBundle (hspares : v.Spares m) (s : PegState) (entry : BundleEntry) :
    v.on (s.putBundle m entry) = (v.on s).putBundle m entry := by
  unfold on
  split
  · rfl
  · rename_i m6id e hcreated
    have hne : m ≠ m6id := by
      rintro rfl
      exact hspares e hcreated
    simp only [PegState.putBundle, PegState.setPending, setLogs, insert_comm entry e hne]

theorem on_of_pending (hfits : v.Fits s)
    (h : s.dbs.pendingWithdrawalBundle = some m) : v.created = none := by
  cases hcreated : v.created with
  | none => rfl
  | some created =>
      rw [(hfits created.1 created.2 hcreated).1] at h
      cases h

theorem on_submitted {h : Nat} {s' : PegState} {spends : List CoinRow}
    (hfits : v.Fits s) (hfits' : v.Fits s') (hcase : SubmittedCase h m s s' spends) :
    SubmittedCase h m (v.on s) (v.on s') spends := by
  cases hcase with
  | @pending b st st' coins hpending hentry hlatest hspend hpush =>
      have hcreated := on_of_pending hfits hpending
      have hon (s : PegState) : v.on s = v.setLogs s := by rw [on, hcreated]
      rw [hon, hon]
      exact .pending (s := v.setLogs s) hpending hentry hlatest hspend hpush
  | @resubmitted info st st' hpending hentry hlatest hinfo hpush =>
      have hspares := spares_of_lookup hfits hentry
      rw [on_putBundle hspares]
      exact .resubmitted (on_pending_ne hspares hpending)
        ((on_lookup hspares).trans hentry) hlatest hinfo hpush
  | unknown hpending hentry =>
      have hspares : v.Spares m := spares_of_lookup hfits' (lookup_putBundle s m _)
      rw [on_putBundle hspares]
      exact .unknown (on_pending_ne hspares hpending) ((on_lookup hspares).trans hentry)

theorem on_confirmed {h : Nat} {s' : PegState} (hfits : v.Fits s)
    (hcase : ConfirmedCase h m s s') : ConfirmedCase h m (v.on s) (v.on s') := by
  cases hcase with
  | again hentry hlatest =>
      exact .again ((on_lookup (spares_of_lookup hfits hentry)).trans hentry) hlatest
  | submitted hentry hlatest hpush =>
      have hspares := spares_of_lookup hfits hentry
      rw [on_putBundle hspares]
      exact .submitted ((on_lookup hspares).trans hentry) hlatest hpush
  | @unexpected b st st' coins missing hentry hlatest hspend hpush =>
      have hspares := spares_of_lookup hfits hentry
      rw [on_putBundle hspares, on_setCoins v s coins]
      exact .unexpected ((on_lookup hspares).trans hentry) hlatest
        (by rw [on_coins]; exact hspend) hpush
  | unknown hheight hentry hlatest hpush =>
      have hspares := spares_of_lookup hfits hentry
      rw [on_putBundle hspares, on_setCoins v s (spendAllUtxos m s.coins)]
      have hcase := ConfirmedCase.unknown hheight ((on_lookup hspares).trans hentry)
        hlatest hpush
      rw [on_coins] at hcase
      exact hcase

theorem on_failed {h : Nat} {s' : PegState} (hfits : v.Fits s)
    (hcase : FailedCase h m s s') : FailedCase h m (v.on s) (v.on s') := by
  cases hcase with
  | again hentry hlatest =>
      exact .again ((on_lookup (spares_of_lookup hfits hentry)).trans hentry) hlatest
  | @submitted b st st' failed hentry hlatest hfailed hpush =>
      have hspares := spares_of_lookup hfits hentry
      rw [on_putBundle hspares,
        on_setFailed v s (reinstateUtxos b.spendUtxos.toList s.coins) (some failed)]
      have hcase := FailedCase.submitted (s := v.on s) ((on_lookup hspares).trans hentry)
        hlatest (by rw [on_latestFailed]; exact hfailed) hpush
      rw [on_coins] at hcase
      exact hcase
  | unspent hentry hlatest hunspent hpush =>
      have hspares := spares_of_lookup hfits hentry
      rw [on_putBundle hspares]
      exact .unspent ((on_lookup hspares).trans hentry) hlatest hunspent hpush

end Overlay

/-- The bundle tables are consistent, the address index is in step with the UTXO
set, and every recorded output is the one its outpoint carries. -/
structure Faithful (f : OutputOf) (s : PegState) : Prop where
  inv : Inv s
  indexed : s.coins.Indexed
  agrees : Agrees f s.coins
  rows : ∀ (m : M6id) (info : WithdrawalBundleInfo) (st : Status),
    s.dbs.withdrawalBundles[m]? = some (info, st) → RowsAgree f info

variable {f : OutputOf} {h : Nat} {m : M6id} {s s' : PegState}

theorem Faithful.ready_on {v : Overlay} (hs : Faithful f s)
    (hlookup : (v.on s).dbs.withdrawalBundles[m]? = s.dbs.withdrawalBundles[m]?) :
    Ready f m (v.on s) := by
  refine ⟨?_, ?_, ?_, ?_⟩
  · rw [Overlay.on_coins]
    exact hs.inv.disjoint
  · rw [Overlay.on_coins]
    exact hs.indexed
  · rw [Overlay.on_coins]
    exact hs.agrees
  · intro info st hentry
    rw [hlookup] at hentry
    rw [Overlay.on_coins]
    exact ⟨hs.inv.entries m info st hentry, hs.rows m info st hentry⟩

theorem agrees_of_spent {rows : List CoinRow} {c c' : Coins} (hc : Agrees f c)
    (hspent : Spent m rows c c') : Agrees f c' := by
  intro o output ho
  by_cases hout : Outside rows o
  · rw [hspent.utxos_other o hout] at ho
    exact hc o output ho
  · simp only [Outside, not_forall, not_not] at hout
    obtain ⟨row, hrow, rfl⟩ := hout
    rw [hspent.utxos_mem row hrow] at ho
    cases ho

theorem agrees_of_unspent {rows : List CoinRow} {c c' : Coins} (hc : Agrees f c)
    (hrows : ∀ row ∈ rows, row.2 = f row.1) (hunspent : Unspent rows c c') :
    Agrees f c' := by
  intro o output ho
  by_cases hout : Outside rows o
  · rw [hunspent.utxos_other o hout] at ho
    exact hc o output ho
  · simp only [Outside, not_forall, not_not] at hout
    obtain ⟨row, hrow, rfl⟩ := hout
    rw [hunspent.utxos_mem row hrow, Option.some.injEq] at ho
    rw [← ho, hrows row hrow]

theorem indexed_of_spent {rows : List CoinRow} {c c' : Coins} (hc : c.Indexed)
    (hspent : Spent m rows c c') : c'.Indexed :=
  hspent.indexed hc fun _ _ hput => absurd rfl hput

theorem rows_of_put {entries entries' : Table M6id BundleEntry}
    {info : WithdrawalBundleInfo} {st : Status}
    (htable : entries' = entries.insert m (info, st))
    (hrows : ∀ (m : M6id) (info : WithdrawalBundleInfo) (st : Status),
      entries[m]? = some (info, st) → RowsAgree f info) (hinfo : RowsAgree f info) :
    ∀ (m : M6id) (info : WithdrawalBundleInfo) (st : Status),
      entries'[m]? = some (info, st) → RowsAgree f info := by
  intro m' info' st' hentry
  rw [htable, Std.ExtTreeMap.getElem?_insert] at hentry
  split at hentry
  · simp only [Option.some.injEq, Prod.mk.injEq] at hentry
    exact hentry.1 ▸ hinfo
  · exact hrows m' info' st' hentry

theorem Faithful.submitted {spends : List CoinRow} (hs : Faithful f s)
    (hcase : SubmittedCase h m s s' spends) : Faithful f s' := by
  have hinv := inv_submitted hs.inv hcase
  cases hcase with
  | @pending b st st' coins hpending hentry hlatest hspend hpush =>
      have hspent := spendBundleUtxos_spent (toList_keys_nodup b.spendUtxos) hspend
      exact ⟨hinv, indexed_of_spent hs.indexed hspent, agrees_of_spent hs.agrees hspent,
        rows_of_put rfl hs.rows (hs.rows m _ st hentry)⟩
  | @resubmitted info st st' hpending hentry hlatest hinfo hpush =>
      exact ⟨hinv, hs.indexed, hs.agrees,
        rows_of_put rfl hs.rows (hs.rows m info st hentry)⟩
  | unknown hpending hentry =>
      exact ⟨hinv, hs.indexed, hs.agrees,
        rows_of_put rfl hs.rows (by simp [RowsAgree, infoRows])⟩

theorem Faithful.confirmed (hs : Faithful f s) (hcase : ConfirmedCase h m s s') :
    Faithful f s' := by
  have hinv := inv_confirmed hs.inv hcase
  cases hcase with
  | again => exact hs
  | @submitted b st st' hentry hlatest hpush =>
      exact ⟨hinv, hs.indexed, hs.agrees,
        rows_of_put rfl hs.rows (hs.rows m _ st hentry)⟩
  | @unexpected b st st' coins missing hentry hlatest hspend hpush =>
      have hspent := spendBundleUtxos_spent (toList_keys_nodup b.spendUtxos) hspend
      exact ⟨hinv, indexed_of_spent hs.indexed hspent, agrees_of_spent hs.agrees hspent,
        rows_of_put rfl hs.rows (hs.rows m _ st hentry)⟩
  | @unknown st st' hheight hentry hlatest hpush =>
      have hspent := spendAllUtxos_spent m s.coins
      refine ⟨hinv, indexed_of_spent hs.indexed hspent,
        agrees_of_spent hs.agrees hspent, rows_of_put rfl hs.rows ?_⟩
      intro row hrow
      exact hs.agrees row.1 row.2 (mem_toList_iff.mp hrow)

theorem Faithful.failed (hs : Faithful f s) (hcase : FailedCase h m s s') :
    Faithful f s' := by
  have hinv := inv_failed hs.inv hcase
  cases hcase with
  | again => exact hs
  | @submitted b st st' failed hentry hlatest hfailed hpush =>
      have hspent := (hs.inv.entries m _ st hentry).spent
      rw [hlatest] at hspent
      have hunspent := reinstateUtxos_unspent (c := s.coins)
        (toList_keys_nodup b.spendUtxos)
      refine ⟨hinv, hunspent.indexed hs.indexed ?_,
        agrees_of_unspent hs.agrees (hs.rows m _ st hentry) hunspent,
        rows_of_put rfl hs.rows (hs.rows m _ st hentry)⟩
      intro row hrow _
      exact (hs.inv.disjoint row.1).resolve_right (by simp [hspent row hrow])
  | @unspent info st st' hentry hlatest hunspent hpush =>
      exact ⟨hinv, hs.indexed, hs.agrees,
        rows_of_put rfl hs.rows (hs.rows m info st hentry)⟩

/-- An event that a disconnection can undo: the deposit is new, and a bundle is not
confirmed or failed a second time. -/
def CleanEvent (f : OutputOf) (s : PegState) : BlockEvent → Prop
  | .deposit deposit =>
      s.coins.utxos[deposit.outpoint]? = none ∧
        s.coins.stxos[deposit.outpoint]? = none ∧ deposit.output = f deposit.outpoint
  | .withdrawalBundle ⟨_, .submitted⟩ => True
  | .withdrawalBundle ⟨m6id, .confirmed⟩ => ∀ info st,
      s.dbs.withdrawalBundles[m6id]? = some (info, st) → st.latest.value ≠ .confirmed
  | .withdrawalBundle ⟨m6id, .failed⟩ => ∀ info st,
      s.dbs.withdrawalBundles[m6id]? = some (info, st) → st.latest.value ≠ .failed

def CleanEvents (f : OutputOf) (h : Nat) : ConnectAcc → List LocatedEvent → Prop
  | _, [] => True
  | acc, event :: evs => CleanEvent f acc.state event.2 ∧
      ∀ acc', connectEvent h acc event = .ok acc' → CleanEvents f h acc' evs

/-- The bundle table only grows along a connection, and no bundle becomes pending. -/
structure Grows (s s' : PegState) : Prop where
  entries : ∀ m : M6id, s'.dbs.withdrawalBundles[m]? = none →
    s.dbs.withdrawalBundles[m]? = none
  pending : s.dbs.pendingWithdrawalBundle = none →
    s'.dbs.pendingWithdrawalBundle = none

theorem Grows.refl (s : PegState) : Grows s s := ⟨fun _ h => h, fun h => h⟩

theorem Grows.trans {s₁ s₂ s₃ : PegState} (h₁ : Grows s₁ s₂) (h₂ : Grows s₂ s₃) :
    Grows s₁ s₃ :=
  ⟨fun m h => h₁.entries m (h₂.entries m h), fun h => h₂.pending (h₁.pending h)⟩

theorem grows_of_put {entry : BundleEntry}
    (htable : s'.dbs.withdrawalBundles = s.dbs.withdrawalBundles.insert m entry)
    (hpending : s'.dbs.pendingWithdrawalBundle = s.dbs.pendingWithdrawalBundle ∨
      s'.dbs.pendingWithdrawalBundle = none) : Grows s s' := by
  constructor
  · intro m' hm'
    rw [htable, Std.ExtTreeMap.getElem?_insert] at hm'
    split at hm'
    · cases hm'
    · exact hm'
  · intro hnone
    rcases hpending with hsame | hset
    · rw [hsame, hnone]
    · exact hset

theorem disconnectEvent_bundle {d : DisconnectAcc} {t : PegState} {hash : MainBlockHash}
    {e : WithdrawalBundleEvent}
    (hundo : disconnectWithdrawalBundleEvent d.state h e = .ok t) :
    ∃ d', disconnectEvent h d (hash, .withdrawalBundle e) = .ok d' ∧ d'.state = t := by
  simp only [disconnectEvent, hundo, ok_bind, Except.ok.injEq, exists_eq_left']

/-- What one clean event does, and that it can be undone under any overlay. -/
structure Undoable (f : OutputOf) (h : Nat) (event : LocatedEvent) (s s' : PegState) :
    Prop where
  faithful : Faithful f s'
  grows : Grows s s'
  undo : ∀ (v : Overlay) (d : DisconnectAcc), v.Fits s → v.Fits s' →
    d.state = v.on s' →
      ∃ d', disconnectEvent h d event = .ok d' ∧ d'.state = v.on s

theorem undoable_deposit {hash : MainBlockHash} {deposit : Deposit}
    (hs : Faithful f s) (hclean : CleanEvent f s (.deposit deposit)) :
    Undoable f h (hash, .deposit deposit) s
      { s with coins := s.coins.insertUtxo deposit.outpoint deposit.output } := by
  obtain ⟨hutxo, hstxo, houtput⟩ := hclean
  refine ⟨⟨?_, hs.indexed.insertUtxo hutxo _, ?_, hs.rows⟩,
    ⟨fun _ h => h, fun h => h⟩, ?_⟩
  · exact hs.inv.of_coins (disjoint_insertUtxo hs.inv.disjoint hstxo _)
      fun m o output ho => ho
  · intro o output ho
    rw [Coins.insertUtxo_utxos] at ho
    split at ho
    · rename_i heq
      rw [← heq, ← houtput]
      exact (Option.some.inj ho).symm
    · exact hs.agrees o output ho
  · intro v d hfits hfits' hd
    have hcoins : d.state.coins.deleteUtxo deposit.outpoint = (s.coins, true) := by
      rw [hd, Overlay.on_coins]
      exact Coins.deleteUtxo_insertUtxo hs.indexed hutxo deposit.output
    refine ⟨{ d with
      state.coins := s.coins
      latestDepositBlockHash := d.latestDepositBlockHash.or (some hash) }, ?_, ?_⟩
    · simp only [disconnectEvent, hcoins]
    · have hon := v.on_setCoins s (s.coins.insertUtxo deposit.outpoint deposit.output)
      simp only [hd, hon]
      rw [← v.on_coins s]

theorem undoable_submitted {hash : MainBlockHash} {spends : List CoinRow}
    (hs : Faithful f s) (hcase : SubmittedCase h m s s' spends) :
    Undoable f h (hash, .withdrawalBundle ⟨m, .submitted⟩) s s' := by
  refine ⟨hs.submitted hcase, ?_, ?_⟩
  · cases hcase with
    | pending => exact grows_of_put rfl (.inr rfl)
    | resubmitted => exact grows_of_put rfl (.inl rfl)
    | unknown => exact grows_of_put rfl (.inl rfl)
  · intro v d hfits hfits' hd
    apply disconnectEvent_bundle
    rw [hd]
    have hlookup : (v.on s).dbs.withdrawalBundles[m]? = s.dbs.withdrawalBundles[m]? := by
      apply Overlay.on_lookup
      cases hcase with
      | pending _ hentry => exact Overlay.spares_of_lookup hfits hentry
      | resubmitted _ hentry => exact Overlay.spares_of_lookup hfits hentry
      | unknown => exact Overlay.spares_of_lookup hfits' (lookup_putBundle s m _)
    exact undo_submitted (hs.ready_on hlookup) (Overlay.on_submitted hfits hfits' hcase)

theorem undoable_confirmed {hash : MainBlockHash} (hs : Faithful f s)
    (hclean : CleanEvent f s (.withdrawalBundle ⟨m, .confirmed⟩))
    (hcase : ConfirmedCase h m s s') :
    Undoable f h (hash, .withdrawalBundle ⟨m, .confirmed⟩) s s' := by
  refine ⟨hs.confirmed hcase, ?_, ?_⟩
  · cases hcase with
    | again => exact .refl s
    | submitted | unexpected | unknown => exact grows_of_put rfl (.inl rfl)
  · intro v d hfits hfits' hd
    apply disconnectEvent_bundle
    rw [hd]
    have hlookup : (v.on s).dbs.withdrawalBundles[m]? = s.dbs.withdrawalBundles[m]? := by
      apply Overlay.on_lookup
      cases hcase with
      | again hentry | submitted hentry | unexpected hentry | unknown _ hentry =>
          exact Overlay.spares_of_lookup hfits hentry
    refine undo_confirmed (hs.ready_on hlookup) (Overlay.on_confirmed hfits hcase) ?_
    rw [hlookup]
    exact hclean

theorem undoable_failed {hash : MainBlockHash} (hs : Faithful f s)
    (hclean : CleanEvent f s (.withdrawalBundle ⟨m, .failed⟩))
    (hcase : FailedCase h m s s') :
    Undoable f h (hash, .withdrawalBundle ⟨m, .failed⟩) s s' := by
  refine ⟨hs.failed hcase, ?_, ?_⟩
  · cases hcase with
    | again => exact .refl s
    | submitted | unspent => exact grows_of_put rfl (.inl rfl)
  · intro v d hfits hfits' hd
    apply disconnectEvent_bundle
    rw [hd]
    have hlookup : (v.on s).dbs.withdrawalBundles[m]? = s.dbs.withdrawalBundles[m]? := by
      apply Overlay.on_lookup
      cases hcase with
      | again hentry | submitted hentry | unspent hentry =>
          exact Overlay.spares_of_lookup hfits hentry
    refine undo_failed (hs.ready_on hlookup) (Overlay.on_failed hfits hcase) ?_
    rw [hlookup]
    exact hclean

theorem undoable_event (hash : MainBlockHash) {event : BlockEvent}
    (hs : Faithful f s) (hclean : CleanEvent f s event)
    (hcase : EventCase h s event s') : Undoable f h (hash, event) s s' := by
  cases hcase with
  | deposit deposit => exact undoable_deposit hs hclean
  | submitted hcase => exact undoable_submitted hs hcase
  | confirmed hcase => exact undoable_confirmed hs hclean hcase
  | failed hcase => exact undoable_failed hs hclean hcase

/-- Clean events are undone in reverse order, under an overlay whose bundle is new
after all of them. -/
theorem undo_events {evs : List LocatedEvent} {acc acc' : ConnectAcc}
    (hs : Faithful f acc.state) (hclean : CleanEvents f h acc evs)
    (hrun : evs.foldlM (connectEvent h) acc = .ok acc') :
    Faithful f acc'.state ∧ Grows acc.state acc'.state ∧
      ∀ (v : Overlay) (d : DisconnectAcc),
        (v.created ≠ none → acc.state.dbs.pendingWithdrawalBundle = none) →
        v.Fits acc'.state → d.state = v.on acc'.state →
          ∃ d', evs.reverse.foldlM (disconnectEvent h) d = .ok d' ∧
            d'.state = v.on acc.state := by
  induction evs generalizing acc with
  | nil =>
      simp only [List.foldlM_nil, pure_eq_ok, Except.ok.injEq] at hrun
      subst hrun
      exact ⟨hs, .refl _, fun v d _ _ hd => ⟨d, rfl, hd⟩⟩
  | cons event evs ih =>
      rw [List.foldlM_cons, bind_eq_ok_iff] at hrun
      obtain ⟨acc₁, hevent, hrest⟩ := hrun
      have hfirst := undoable_event event.1 hs hclean.1 (connectEvent_cases hevent)
      obtain ⟨hfaithful, hgrows, hundo⟩ :=
        ih hfirst.faithful (hclean.2 acc₁ hevent) hrest
      refine ⟨hfaithful, hfirst.grows.trans hgrows, ?_⟩
      intro v d hpending hfits hd
      have hfits₁ : v.Fits acc₁.state := by
        intro m6id entry hcreated
        exact ⟨hfirst.grows.pending (hpending (by simp [hcreated])),
          hgrows.entries m6id (hfits m6id entry hcreated).2⟩
      have hfits₀ : v.Fits acc.state := by
        intro m6id entry hcreated
        exact ⟨hpending (by simp [hcreated]),
          hfirst.grows.entries m6id (hfits₁ m6id entry hcreated).2⟩
      obtain ⟨d₁, hrest', hd₁⟩ := hundo v d
        (fun hcreated => hfirst.grows.pending (hpending hcreated)) hfits hd
      obtain ⟨d', hfirst', hd'⟩ := hfirst.undo v d₁ hfits₀ hfits₁ hd₁
      refine ⟨d', ?_, hd'⟩
      rw [List.reverse_cons, List.foldlM_append, hrest', ok_bind, List.foldlM_cons,
        hfirst']
      rfl

end Truthcoin.PegOverlay
