import Truthcoin.CoinUndo
import Truthcoin.SampleMarkets
import Truthcoin.ShareRuns

/-!
# Leaving a branch

Disconnecting the blocks of a branch leads the coins and the pointers to the funds of the
markets back to those of the block that the branch starts from.
-/

namespace Truthcoin.CoinReorgs

open Truthcoin.Types Truthcoin.Table Truthcoin.Fallible Truthcoin.Arithmetic
open Truthcoin.Decisions Truthcoin.Markets Truthcoin.Blocks Truthcoin.Settlement
open Truthcoin.Consolidation Truthcoin.Connect Truthcoin.ConnectTrace Truthcoin.Disconnect
open Truthcoin.BlockRun Truthcoin.MarketSteps Truthcoin.MarketIndexes Truthcoin.TagConnect
open Truthcoin.ListedMarkets Truthcoin.ListedRuns Truthcoin.AddressIndex Truthcoin.UndoTables
open Truthcoin.MarketRecords Truthcoin.ShareRuns Truthcoin.ClaimRuns Truthcoin.Commitments
open Truthcoin.TwoWayPeg Truthcoin.UndoPaths Truthcoin.CoinStages Truthcoin.CoinReverts
open Truthcoin.FundsReverts Truthcoin.CoinChains Truthcoin.CoinUndo

variable {F : Type} {L : Library F} {T : Tags} {s s' d d' : State F} {block : Block F}
  {height : Nat}

theorem Matches.trans {c c' c'' : Coins} (h : c.Matches c') (h' : c'.Matches c'') :
    c.Matches c'' := by
  refine ⟨h'.utxos.trans h.utxos, fun o => ?_⟩
  rcases h'.stxos o with hsame | ⟨hunspent, hnone⟩
  · rw [hsame]
    exact h.stxos o
  · exact .inr ⟨h.utxos ▸ hunspent, hnone⟩

theorem FundsMatch.trans {f f' f'' : Funds} (h : FundsMatch f f') (h' : FundsMatch f' f'') :
    FundsMatch f f'' :=
  ⟨Matches.trans h.coins h'.coins, h'.pointers.trans h.pointers⟩

/-- Another state has the same height, matching funds, and the same rows to undo. -/
structure Same (s d : State F) : Prop where
  funds : FundsMatch (fundsOf s) (fundsOf d)
  height : d.height = s.height
  peg : d.peg = s.peg
  settlements : ∀ h : Nat, d.settlementUndo[h]?.getD [] = s.settlementUndo[h]?.getD []
  skipped : ∀ h : Nat, d.skippedTxIndicesUndo[h]?.getD [] = s.skippedTxIndicesUndo[h]?.getD []
  consolidations : ∀ h : Nat, d.consolidationUndo[h]? = s.consolidationUndo[h]?
  stored : ∀ marketId, Stored s.markets marketId → Stored d.markets marketId

theorem Same.refl (s : State F) : Same s s :=
  ⟨.refl _, rfl, rfl, fun _ => rfl, fun _ => rfl, fun _ => rfl, fun _ h => h⟩

theorem Same.trans {s₁ s₂ s₃ : State F} (h : Same s₁ s₂) (h' : Same s₂ s₃) : Same s₁ s₃ :=
  ⟨FundsMatch.trans h.funds h'.funds, h'.height.trans h.height, h'.peg.trans h.peg,
    fun k => (h'.settlements k).trans (h.settlements k),
    fun k => (h'.skipped k).trans (h.skipped k),
    fun k => (h'.consolidations k).trans (h.consolidations k),
    fun m hm => h'.stored m (h.stored m hm)⟩

theorem undoSettlement_funds (h : undoSettlement L s height = .ok s') :
    ∃ r, revertSettlement L s (s.settlementUndo[height]?.getD []) height = .ok r ∧
      fundsOf s' = fundsOf r := by
  unfold undoSettlement at h
  split at h
  · rename_i hrow
    rw [hrow, Option.getD_none, ← Except.ok.inj h]
    exact ⟨s, rfl, rfl⟩
  · rename_i entries hrow
    obtain ⟨r, hr, h⟩ := bind_eq_ok_iff.mp h
    rw [hrow, Option.getD_some, ← Except.ok.inj h]
    exact ⟨r, hr, rfl⟩

theorem undoConsolidation_funds (s : State F) (height : Nat) :
    fundsOf (undoConsolidation s height) =
      s.consolidationUndo[height]?.elim (fundsOf s) (revertConsolidation (fundsOf s)) := by
  unfold undoConsolidation
  split
  · rename_i hrow
    rw [hrow]
    rfl
  · rename_i undo hrow
    rw [hrow]
    rfl

theorem consolidationUndo_undoConsolidation (s : State F) (height h : Nat) :
    (undoConsolidation s height).consolidationUndo[h]? =
      if h = height then none else s.consolidationUndo[h]? := by
  unfold undoConsolidation
  split
  · rename_i hrow
    split
    · rename_i heq
      rw [heq, hrow]
    · rfl
  · exact lookup_erase

section

variable [F64 F] [DecidableEq F] {config : DecisionConfig} {archive : Archive} {t : Trace F}
  {u : UndoTrace F} {chain : List (Block F)}

theorem kept_of_disconnects {header : Header} {body : Body F}
    (h : Disconnects L d header body u d') :
    d'.peg = d.peg ∧ d'.consolidationUndo = u.beforeTxs.consolidationUndo := by
  have hundone := h.undone
  simp only [undoTransactions, bind_eq_ok_iff, Except.ok.injEq, Prod.mk.injEq] at hundone
  obtain ⟨⟨s₁, deltas⟩, hfold, hstate, -⟩ := hundone
  have hend : d' = { u.reverted with tip := d'.tip, height := d'.height } :=
    setPreviousTip_eq h.previous
  rw [UndoTrace.reverted,
    undoReputationTransfers_eq { u.undone with markets := u.markets } u.height,
    ← hstate, (undoing_foldlM hfold).frame] at hend
  rw [hend]
  refine ⟨?_, rfl⟩
  show u.beforeTxs.peg = d.peg
  rw [beforeTxs_frame u h.unsettled]

/-- A block that repeats nothing is connected to a chain. -/
structure Joins (L : Library F) (T : Tags) (config : DecisionConfig) (archive : Archive)
    (chain : List (Block F)) (s : State F) (block : Block F) (t : Trace F) : Prop where
  tagged : Tagged T s
  sited : Sited L chain s
  listed : Listed L T chain s
  skipped : s.skippedTxIndicesUndo[chain.length]?.getD [] = []
  unrepeated : Unrepeated L chain block
  connects : Connects L config archive s block t

/-- The block is disconnected in a state that is the same as the one after it. -/
structure Leaves (L : Library F) (T : Tags) (config : DecisionConfig) (archive : Archive)
    (chain : List (Block F)) (s : State F) (block : Block F) (t : Trace F) (d : State F)
    (u : UndoTrace F) (d' : State F) : Prop extends Joins L T config archive chain s block t where
  same : Same (t.finished L block) d
  tagged' : Tagged T d
  listed' : Listed L T (block :: chain) d
  disconnects : Disconnects L d block.header block.body u d'

namespace Leaves

theorem height_eq (h : Leaves L T config archive chain s block t d u d') :
    t.height = chain.length ∧ u.height = chain.length :=
  ⟨height_of_prepares h.sited.height h.connects.toPrepares,
    height_of_checkTip h.listed'.height h.disconnects.tip⟩

theorem disconnected (h : Leaves L T config archive chain s block t d u d') :
    disconnectTip L d block.header block.body = .ok d' :=
  disconnectTip_eq_ok_iff.mpr ⟨u, h.disconnects⟩

theorem staged (h : Leaves L T config archive chain s block t d u d') (hL : CollisionFree L) :
    Staged L s block t :=
  staged_of_connects hL h.sited.outpoints.coins h.unrepeated h.height_eq.1 h.connects

theorem settled (h : Leaves L T config archive chain s block t d u d') :
    d.settlementUndo[u.height]?.getD [] = t.settled := by
  rw [h.same.settlements, settlementUndo_finished h.connects, h.height_eq.1, h.height_eq.2,
    getD_putUndo (absent_row h.listed)]

theorem skipped_eq (h : Leaves L T config archive chain s block t d u d') :
    d.skippedTxIndicesUndo[u.height]?.getD [] = t.applied.skipped := by
  rw [h.same.skipped, finished_skippedTxIndicesUndo h.connects, h.height_eq.1, h.height_eq.2,
    getD_putUndo h.skipped]

theorem absent (h : Leaves L T config archive chain s block t d u d') :
    s.consolidationUndo[chain.length]? = none := by
  cases hrow : s.consolidationUndo[chain.length]? with
  | none => rfl
  | some data => exact absurd (h.sited.consolidations _ data hrow) (lt_irrefl _)

theorem consolidated (h : Leaves L T config archive chain s block t d u d') :
    d.consolidationUndo[u.height]? = t.undo := by
  rw [h.same.consolidations, consolidationUndo_finished h.connects, h.height_eq.1, h.height_eq.2]
  cases t.undo with
  | none => exact h.absent
  | some undo => exact lookup_insert.trans (if_pos rfl)

theorem unsettled (h : Leaves L T config archive chain s block t d u d') (hL : CollisionFree L) :
    FundsMatch t.funds (fundsOf u.unsettled) := by
  obtain ⟨r, hback, hr⟩ := undoSettlement_funds h.disconnects.unsettled
  rw [h.settled] at hback
  have hheight : u.height = t.height := h.height_eq.2.trans h.height_eq.1.symm
  rw [hheight] at hback
  have hsound : Sound t.counted.markets := (grown_counted h.sited.sound h.connects.toPrepares).sound
  rw [hr]
  exact undone_of_settlements hL hsound (h.staged hL).settlements h.connects.paid h.same.funds hback

theorem beforeTxs (h : Leaves L T config archive chain s block t d u d') (hL : CollisionFree L) :
    FundsMatch ⟨t.spent, t.written.marketFundsUtxos⟩ (fundsOf u.beforeTxs) := by
  obtain ⟨hpayments, -⟩ := collected_of_prepares h.connects.toPrepares
  have hstaged := h.staged hL
  have hrow : (undoConsensus u.unsettled u.height).consolidationUndo[u.height]? = t.undo := by
    rw [undoConsensus_eq]
    dsimp only
    rw [undoSettlement_eq h.disconnects.unsettled]
    exact h.consolidated
  have hfunds : fundsOf (undoConsensus u.unsettled u.height) = fundsOf u.unsettled := by
    rw [undoConsensus_eq]
    rfl
  rw [UndoTrace.beforeTxs, undoConsolidation_funds, hrow, hfunds]
  exact undone_of_consolidation hL hpayments.collects hpayments.changes hstaged.consolidations
    hstaged.change h.connects.funds _ (h.unsettled hL)

theorem tagged_beforeTxs (h : Leaves L T config archive chain s block t d u d') :
    Tagged T u.beforeTxs :=
  undoConsolidation_tagged
    (undoConsensus_tagged (undoSettlement_tagged h.tagged' h.disconnects.unsettled) _) _

theorem grown_beforeTxs (h : Leaves L T config archive chain s block t d u d') :
    Grown d.markets u.beforeTxs.markets := by
  obtain ⟨hunsettled, -⟩ :=
    grown_undoSettlement h.listed'.sound (h.listed'.stored u.height) h.disconnects.unsettled
  refine hunsettled.trans (Grown.framed hunsettled.sound ?_)
  rw [beforeTxs_markets]
  exact ⟨rfl, rfl, rfl, rfl⟩

theorem created (h : Leaves L T config archive chain s block t d u d') :
    (t.applied.update.marketCreations.map Market.id).Nodup ∧
      ∀ marketId ∈ t.applied.update.marketCreations.map Market.id,
        ¬ Stored s.markets marketId ∧ Stored d.markets marketId := by
  have hgrown := grown_counted h.sited.sound h.connects.toPrepares
  obtain ⟨hpaid, -⟩ := grown_transitionMarkets hgrown.sound h.connects.paid
  have happlied : Sound t.applied.state.markets :=
    (Grown.framed h.sited.sound (applied_sameIndexes h.connects)).sound
  have hwritten := grown_writes happlied h.connects.changes h.connects.written
  refine ⟨(creations_of_validateAllChanges h.connects.changes).1, fun marketId hmem => ⟨?_, ?_⟩⟩
  · rw [creations_of_connects h.tagged h.connects] at hmem
    exact (grown_connects h.tagged h.sited.sound h.connects).2.1 marketId hmem
  · exact h.same.stored _ (hpaid.stored _ (hwritten.stored _ (stored_addMarkets (.inl hmem))))

theorem pointers_before (h : Leaves L T config archive chain s block t d u d') (key : FundsKey) :
    s.markets.marketFundsUtxos[key]? =
      if key.marketId ∈ t.applied.update.marketCreations.map Market.id then none
      else t.written.marketFundsUtxos[key]? := by
  obtain ⟨-, hkept⟩ := collected_of_prepares h.connects.toPrepares
  split
  · rename_i hcreated
    refine Option.eq_none_iff_forall_ne_some.mpr fun o ho => ?_
    exact (h.created.2 _ hcreated).1 (h.sited.pointers key o ho)
  · rename_i hcreated
    rw [writeMarkets_funds h.connects.written, hkept key hcreated]

/-- The transactions of the block are undone. -/
theorem undone (h : Leaves L T config archive chain s block t d u d') (hL : CollisionFree L) :
    FundsMatch ⟨t.applied.state.coins, s.markets.marketFundsUtxos⟩ (fundsOf u.undone) := by
  have hbefore := h.beforeTxs hL
  have hundone := h.disconnects.undone
  simp only [undoTransactions, bind_eq_ok_iff, Except.ok.injEq, Prod.mk.injEq] at hundone
  obtain ⟨⟨s₁, deltas⟩, hfold, hstate, -⟩ := hundone
  have hskipped : u.beforeTxs.skippedTxIndicesUndo = d.skippedTxIndicesUndo := by
    rw [beforeTxs_frame u h.disconnects.unsettled]
  have htxs : undoneTxs d block.body u.height = (t.txs.map FilledTransaction.transaction).reverse :=
    undoneTxs_of_connects h.connects h.skipped_eq
  rw [hskipped] at hfold
  change (undoneTxs d block.body u.height).foldlM _ _ = _ at hfold
  rw [htxs] at hfold
  have hcreated : ∀ marketId, marketId ∈
      (t.txs.map FilledTransaction.transaction).reverse.flatMap (createdId L T) ↔
        marketId ∈ t.applied.update.marketCreations.map Market.id := by
    intro marketId
    rw [creations_of_txs h.tagged h.connects, List.mem_flatMap, List.mem_flatMap]
    simp only [List.mem_reverse, List.mem_map, exists_exists_and_eq_and]
  have hnodup :
      ((t.txs.map FilledTransaction.transaction).reverse.flatMap (createdId L T)).Nodup := by
    have hperm := (List.reverse_perm (t.txs.map FilledTransaction.transaction)).flatMap_right
      (createdId L T)
    rw [hperm.nodup_iff, List.flatMap_map, ← creations_of_txs h.tagged h.connects]
    exact h.created.1
  have hcoins := matches_revertTransactions (L := L)
    (fun tx htx => by
      obtain ⟨filled, hfilled, rfl⟩ := List.mem_map.mp htx
      exact mem_body_of_txs h.connects.toPrepares filled hfilled)
    (h.staged hL).transactions hbefore.coins hfold
  have hpointers := pointers_revertTransactions h.tagged_beforeTxs h.grown_beforeTxs.sound hnodup
    (fun m hm => h.grown_beforeTxs.stored m (h.created.2 m ((hcreated m).mp hm)).2) hfold
  rw [← hstate]
  refine ⟨hcoins, ?_⟩
  apply ext_lookup
  intro key
  show s₁.markets.marketFundsUtxos[key]? = s.markets.marketFundsUtxos[key]?
  have hstart : u.beforeTxs.markets.marketFundsUtxos = t.written.marketFundsUtxos :=
    hbefore.pointers
  rw [hpointers key, h.pointers_before key, hstart]
  exact if_congr (hcreated _) rfl rfl

theorem funds (h : Leaves L T config archive chain s block t d u d') (hL : CollisionFree L) :
    FundsMatch (fundsOf s) (fundsOf d') := by
  have hundone := h.undone hL
  have hmarkets : d'.markets.marketFundsUtxos = u.undone.markets.marketFundsUtxos := by
    obtain ⟨changes, -, hchanges⟩ := bind_eq_ok_iff.mp h.disconnects.markets
    rw [disconnected_markets h.disconnects, shareChanges_framed hchanges]
  have hcoins : d'.coins = u.coins := by
    rw [setPreviousTip_eq h.disconnects.previous]
    rfl
  have hremoved := coins_of_removeOutputs h.disconnects.coins
  refine ⟨?_, hmarkets.trans hundone.pointers⟩
  show s.coins.Matches d'.coins
  rw [hcoins, hremoved]
  have hedits := edits_coinbase h.connects.toPrepares
  have hunused : ∀ o ∈ (coinbaseOutpoints (L.coinbaseTxid block.header)
      block.body.coinbase.outputs).reverse, s.coins.Unused o := fun o ho =>
    (h.staged hL).coinbase o (makes_of_coinbaseOutpoints _ o (List.mem_reverse.mp ho))
  have hedits' : s.coins.Edits (coinbaseOutpoints (L.coinbaseTxid block.header)
      block.body.coinbase.outputs).reverse [] t.applied.state.coins :=
    ⟨hedits.present, hedits.changes.mono (fun o ho => List.mem_reverse.mpr ho) (by simp)⟩
  exact hedits'.undo hunused hundone.coins

theorem rows_of_putUndo {α : Type} {rows : Table Nat (List α)} {n h : Nat} {entries : List α}
    (hne : h ≠ n) : (putUndo rows n entries)[h]? = rows[h]? := by
  unfold putUndo
  split
  · rfl
  · rw [lookup_insert, if_neg hne]

theorem settlements (h : Leaves L T config archive chain s block t d u d') (k : Nat) :
    d'.settlementUndo[k]?.getD [] = s.settlementUndo[k]?.getD [] := by
  obtain ⟨-, -, hrows⟩ := disconnectTip_undone h.tagged' h.listed'.sound
    (h.listed'.stored chain.length) h.listed'.height h.disconnected
  rw [hrows, lookup_erase]
  split
  · rename_i heq
    rw [heq, absent_row h.listed, Option.getD_none]
  · rename_i hne
    rw [h.same.settlements, settlementUndo_finished h.connects, h.height_eq.1,
      rows_of_putUndo hne]

theorem skippedRows (h : Leaves L T config archive chain s block t d u d') (k : Nat) :
    d'.skippedTxIndicesUndo[k]?.getD [] = s.skippedTxIndicesUndo[k]?.getD [] := by
  obtain ⟨n, hundone⟩ := tablesUndone_of_disconnectTip h.disconnected
  obtain rfl : n = chain.length := Option.some.inj (hundone.tip.symm.trans h.listed'.height)
  rw [hundone.skipped]
  split
  · rename_i heq
    rw [heq, h.skipped]
    cases d.skippedTxIndicesUndo[chain.length]? with
    | none => rfl
    | some row => cases row <;> rfl
  · rename_i hne
    rw [h.same.skipped, finished_skippedTxIndicesUndo h.connects, h.height_eq.1,
      rows_of_putUndo hne]

theorem consolidationRows (h : Leaves L T config archive chain s block t d u d') (k : Nat) :
    d'.consolidationUndo[k]? = s.consolidationUndo[k]? := by
  have hbefore : (undoConsensus u.unsettled u.height).consolidationUndo = d.consolidationUndo := by
    rw [undoConsensus_eq, undoSettlement_eq h.disconnects.unsettled]
  rw [(kept_of_disconnects h.disconnects).2, UndoTrace.beforeTxs,
    consolidationUndo_undoConsolidation, hbefore, h.same.consolidations,
    consolidationUndo_finished h.connects, h.height_eq.1, h.height_eq.2]
  split
  · rename_i heq
    rw [heq, h.absent]
  · rename_i hne
    cases t.undo with
    | none => rfl
    | some undo => exact lookup_insert.trans (if_neg hne)

theorem peg (h : Leaves L T config archive chain s block t d u d') : d'.peg = s.peg := by
  rw [(kept_of_disconnects h.disconnects).1, h.same.peg, peg_finished h.connects]

theorem stored (h : Leaves L T config archive chain s block t d u d') {marketId : MarketId}
    (hstored : Stored s.markets marketId) : Stored d'.markets marketId := by
  obtain ⟨-, hkept, -⟩ := disconnectTip_undone h.tagged' h.listed'.sound
    (h.listed'.stored chain.length) h.listed'.height h.disconnected
  obtain ⟨hgrown, hnew, -⟩ := grown_connects h.tagged h.sited.sound h.connects
  exact hkept marketId (fun hmem => hnew marketId hmem hstored)
    (h.same.stored marketId (hgrown.stored marketId hstored))

theorem before (h : Leaves L T config archive chain s block t d u d') (hL : CollisionFree L) :
    Same s d' where
  funds := h.funds hL
  height := (height_of_disconnectTip h.listed'.height h.disconnected).trans h.sited.height.symm
  peg := h.peg
  settlements := h.settlements
  skipped := h.skippedRows
  consolidations := h.consolidationRows
  stored _ hstored := h.stored hstored

end Leaves

end

section

variable [F64 F] [DecidableEq F] {config : DecisionConfig} {lib : WithdrawalBundle.BundleLib}
  {okPeg : State F → TwoWayPegData → Prop} {chain blocks : List (Block F)}

/-- `Branch L config chain s blocks d`: connecting and disconnecting tips above the state `s` of
a chain leads to `d`, with the blocks of `blocks` connected, newest first. A block that is
connected repeats no header and no transaction of the blocks below it. -/
inductive Branch (L : Library F) (config : DecisionConfig) (chain : List (Block F))
    (s : State F) : List (Block F) → State F → Prop where
  | root : Branch L config chain s [] s
  | connect {blocks : List (Block F)} {d d' : State F} {block : Block F} (archive : Archive)
      (hbranch : Branch L config chain s blocks d)
      (hblock : Unrepeated L (blocks ++ chain) block)
      (h : applyBlock L config archive d block = .ok d') :
      Branch L config chain s (block :: blocks) d'
  | disconnect {blocks : List (Block F)} {d d' : State F} {block : Block F}
      (hbranch : Branch L config chain s (block :: blocks) d)
      (h : disconnectTip L d block.header block.body = .ok d') :
      Branch L config chain s blocks d'

theorem Branch.run (h : Branch L config chain s blocks d)
    (hrun : Run L config lib (fun _ _ => True) okPeg chain s) :
    Run L config lib (fun _ _ => True) okPeg (blocks ++ chain) d := by
  induction h with
  | root => exact hrun
  | connect archive _ _ h ih => exact ih.connect archive trivial h
  | disconnect _ h ih => exact ih.disconnect h

omit [F64 F] [DecidableEq F] in
theorem sited_of_same (hsited : Sited L chain s) (hsame : Same s d) (hsound : Sound d.markets) :
    Sited L chain d where
  height := hsame.height.trans hsited.height
  sound := hsound
  outpoints := by
    have hutxos : d.coins.utxos = s.coins.utxos := hsame.funds.coins.utxos
    refine ⟨⟨fun ho => hsited.outpoints.coins.utxos (hutxos ▸ ho), fun {o spent} ho => ?_⟩,
      fun hrow => hsited.outpoints.bundles (hsame.peg ▸ hrow)⟩
    rcases hsame.funds.coins.stxos o with hstxo | ⟨-, hnone⟩
    · exact hsited.outpoints.coins.stxos (hstxo ▸ ho)
    · exact absurd (ho.symm.trans hnone) (Option.some_ne_none _)
  consolidations h data hrow := hsited.consolidations h data (hsame.consolidations h ▸ hrow)
  pointers key o ho := by
    have hpointers : d.markets.marketFundsUtxos = s.markets.marketFundsUtxos :=
      hsame.funds.pointers
    exact hsame.stored _ (hsited.pointers key o (hpointers ▸ ho))

/-- Every block of a branch was connected in a state like the one to which disconnecting it
leads. -/
inductive Retraces (L : Library F) (T : Tags) (config : DecisionConfig) (chain : List (Block F))
    (s : State F) : List (Block F) → State F → Prop where
  | root {d : State F} (hsame : Same s d) : Retraces L T config chain s [] d
  | block {archive : Archive} {blocks : List (Block F)} {s₁ d : State F} {block : Block F}
      {t : Trace F} (hdown : Retraces L T config chain s blocks s₁)
      (hjoins : Joins L T config archive (blocks ++ chain) s₁ block t)
      (hsame : Same (t.finished L block) d) : Retraces L T config chain s (block :: blocks) d

theorem Retraces.same (h : Retraces L T config chain s blocks d) (hsame : Same d d') :
    Retraces L T config chain s blocks d' := by
  cases h with
  | root hroot => exact .root (hroot.trans hsame)
  | block hdown hjoins hblock => exact .block hdown hjoins (hblock.trans hsame)

theorem retraces_of_branch (hL : CollisionFree L) (hT : TagsOf L T)
    (hdeposits : ∀ s data, okPeg s data → DepositsTagged T data)
    (hrun : Run L config lib (fun _ _ => True) okPeg chain s) (hsited : Sited L chain s)
    (h : Branch L config chain s blocks d) :
    Sited L (blocks ++ chain) d ∧ Retraces L T config chain s blocks d := by
  induction h with
  | root => exact ⟨hsited, .root (.refl s)⟩
  | @connect blocks d d' block archive hbranch hblock h ih =>
      obtain ⟨hsited, hdown⟩ := ih
      have hrun := hbranch.run hrun
      have htagged := tagged_of_run hT hdeposits hrun
      obtain ⟨claimed, hclaimed, -, hclaims⟩ := claimsKept_of_run hrun
      have hlength : claimed.length = (blocks ++ chain).length := by
        rw [← hclaimed, List.length_map]
      obtain ⟨t, ht, rfl⟩ := connects_of_applyBlock h
      exact ⟨hsited.connect htagged h, .block hdown
        ⟨htagged, hsited, listed_of_run hT hdeposits hrun, hclaims.above _ hlength.le, hblock, ht⟩
        (.refl _)⟩
  | @disconnect blocks d d' block hbranch h ih =>
      have hrun := hbranch.run hrun
      have hafter := listed_of_run hT hdeposits (hrun.disconnect h)
      cases ih.2 with
      | @block archive _ s₁ _ _ t hdown hjoins hsame =>
          obtain ⟨u, hu⟩ := disconnectTip_eq_ok_iff.mp h
          have hleaves : Leaves L T config archive (blocks ++ chain) s₁ block t d u d' :=
            { hjoins with
              same := hsame
              tagged' := tagged_of_run hT hdeposits hrun
              listed' := listed_of_run hT hdeposits hrun
              disconnects := hu }
          have hbefore := hleaves.before hL
          exact ⟨sited_of_same hjoins.sited hbefore hafter.sound, hdown.same hbefore⟩

omit [F64 F] [DecidableEq F] in
theorem index_eq {c c' : Coins} (hc : c.Indexed) (hc' : c'.Indexed) (h : c'.utxos = c.utxos) :
    c'.utxosByAddress = c.utxosByAddress := by
  apply ext_lookup
  intro key
  have hmem : key ∈ c'.utxosByAddress ↔ key ∈ c.utxosByAddress := by rw [hc, hc', h]
  rw [mem_iff_lookup, mem_iff_lookup] at hmem
  cases hrow : c.utxosByAddress[key]? with
  | none =>
      cases hrow' : c'.utxosByAddress[key]? with
      | none => rfl
      | some v =>
          obtain ⟨v', hv'⟩ := hmem.mp ⟨v, hrow'⟩
          exact absurd (hrow.symm.trans hv') nofun
  | some v =>
      obtain ⟨v', hv'⟩ := hmem.mpr ⟨v, hrow⟩
      exact hv'

/-- However the node connects and disconnects blocks above a state of a chain, once all of them
are disconnected the unspent outputs, their index by address and the pointers to the funds of
the markets are those of that state. A spent output is missing only where the output is
unspent. -/
theorem funds_of_branch (hL : CollisionFree L) {main : MainOutputs}
    (hchain : Chain L config lib (fun _ _ => True) (fun _ data => DepositsFrom main data) chain s)
    (h : Branch L config chain s [] d) :
    d.coins.utxos = s.coins.utxos ∧ d.coins.utxosByAddress = s.coins.utxosByAddress ∧
      d.markets.marketFundsUtxos = s.markets.marketFundsUtxos ∧
      ∀ o : OutPoint, d.coins.stxos[o]? = s.coins.stxos[o]? ∨
        s.coins.utxos[o]? ≠ none ∧ d.coins.stxos[o]? = none := by
  have hT := tagsOf_tags hL main
  have hdeposits : ∀ (_ : State F) data, DepositsFrom main data →
      DepositsTagged (tags L main) data := fun _ _ hdata => depositsTagged_of_depositsFrom hL hdata
  have hrun := hchain.run
  have hend : Run L config lib _ _ chain d := h.run hrun
  cases (retraces_of_branch hL hT hdeposits hrun (sited_of_chain hT hdeposits hchain) h).2 with
  | root hsame =>
      have hutxos : d.coins.utxos = s.coins.utxos := hsame.funds.coins.utxos
      exact ⟨hutxos, index_eq (tagged_of_run hT hdeposits hrun).coins.indexed
        (tagged_of_run hT hdeposits hend).coins.indexed hutxos, hsame.funds.pointers,
        hsame.funds.coins.stxos⟩

end

theorem unrepeated_iff {chain : List (Block F)} : Unrepeated L chain block ↔
    (∀ older ∈ chain, block.header ≠ older.header) ∧
      (∀ older ∈ chain, ∀ tx ∈ block.body.transactions, ∀ tx' ∈ older.body.transactions,
        L.txid tx ≠ L.txid tx') ∧ (block.body.transactions.map L.txid).Nodup :=
  ⟨fun h => ⟨h.header, h.transactions, h.distinct⟩, fun h => ⟨h.1, h.2.1, h.2.2⟩⟩

open Truthcoin.SampleMarkets Truthcoin.SampleChain

/-- Two markets are traded in a block with another one on top, and both are disconnected. -/
noncomputable def abandonedTrades : Except Error (State Rat × State Rat × State Rat) := do
  let s ← marketStart
  let traded ← applyBlock marketLibrary marketConfig heightArchive s (marketBlock 3 tradeTxs)
  let topped ← applyBlock marketLibrary marketConfig heightArchive traded (marketBlock 4 [])
  let top := marketBlock 4 []
  let back ← disconnectTip marketLibrary topped top.header top.body
  let block := marketBlock 3 tradeTxs
  let d ← disconnectTip marketLibrary back block.header block.body
  .ok (s, topped, d)

/-- The trades have replaced the funds of the markets, and the old funds are back. -/
theorem funds_of_branch_abandoned :
    ∃ s topped d : State Rat,
      Branch marketLibrary marketConfig
        [marketBlock 2 createTxs, marketBlock 1 claimTxs, marketBlock 0 []] s
        [marketBlock 4 [], marketBlock 3 tradeTxs] topped ∧
      topped.markets.marketFundsUtxos ≠ s.markets.marketFundsUtxos ∧
      topped.coins.utxos ≠ s.coins.utxos ∧
      d.coins.utxos = s.coins.utxos ∧ d.coins.utxosByAddress = s.coins.utxosByAddress ∧
      d.markets.marketFundsUtxos = s.markets.marketFundsUtxos ∧
      ∀ o : OutPoint, d.coins.stxos[o]? = s.coins.stxos[o]? ∨
        s.coins.utxos[o]? ≠ none ∧ d.coins.stxos[o]? = none := by
  have hcomputed : holds abandonedTrades (fun states =>
      decide (states.2.1.markets.marketFundsUtxos ≠ states.1.markets.marketFundsUtxos ∧
        states.2.1.coins.utxos ≠ states.1.coins.utxos)) = true := by
    decide +kernel
  obtain ⟨⟨s, topped, d⟩, hrun, htest⟩ := holds_iff.mp hcomputed
  obtain ⟨hfunds, hcoins⟩ := of_decide_eq_true htest
  obtain ⟨s₀, hstart, hrun⟩ := bind_eq_ok_iff.mp hrun
  obtain ⟨traded, htraded, hrun⟩ := bind_eq_ok_iff.mp hrun
  obtain ⟨top, htop, hrun⟩ := bind_eq_ok_iff.mp hrun
  obtain ⟨back, hback, hrun⟩ := bind_eq_ok_iff.mp hrun
  obtain ⟨last, hlast, hrun⟩ := bind_eq_ok_iff.mp hrun
  obtain ⟨rfl, hpair⟩ := Prod.mk.inj (Except.ok.inj hrun)
  obtain ⟨rfl, rfl⟩ := Prod.mk.inj hpair
  have hchain := chain_of_marketStart hstart
  have hbranch : Branch marketLibrary marketConfig
      [marketBlock 2 createTxs, marketBlock 1 claimTxs, marketBlock 0 []] s₀
      [marketBlock 4 [], marketBlock 3 tradeTxs] top :=
    (Branch.root.connect heightArchive (unrepeated_iff.mpr (by decide +kernel)) htraded).connect
      heightArchive (unrepeated_iff.mpr (by decide +kernel)) htop
  exact ⟨s₀, top, last, hbranch, hfunds, hcoins,
    funds_of_branch (collisionFree_knownLibrary _) hchain
      ((hbranch.disconnect hback).disconnect hlast)⟩

end Truthcoin.CoinReorgs
