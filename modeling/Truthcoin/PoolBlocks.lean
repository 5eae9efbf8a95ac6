import Truthcoin.MempoolIndexes
import Truthcoin.Trimming

/-!
# The memory pool after a block

For each transaction of a connected block the pool evicts the claimants of the decisions
that it claims, and then deletes the transaction itself, all of them with their pooled
descendants. What is left is what does not descend from any of these.
-/

namespace Truthcoin.Mempool

open Std Truthcoin.Types Truthcoin.Table Truthcoin.Fallible Truthcoin.Decisions
open Truthcoin.Blocks Truthcoin.Commitments Truthcoin.MempoolIndexes Truthcoin.Trimming
open Relation

variable {F : Type}

section

variable (L : Library F)

/-- What a confirmed transaction does to the pool. -/
def MemPool.confirm (p : MemPool F) (tx : Transaction F) : MemPool F :=
  (p.evictDecisionClaimConflicts L tx).1.delete L (L.txid tx)

/-- What connecting a block does to the pool. -/
def MemPool.connectTip (p : MemPool F) (transactions : List (Transaction F)) : MemPool F :=
  transactions.foldl (MemPool.confirm L) p

/-- Transactions are pooled under their ids, and the indexes of the spent outputs and of the
claimed decisions are exact. -/
structure Linked (p : MemPool F) : Prop where
  keyed : ∀ (txid : Txid) (tx : AuthorizedTransaction F),
    p.transactions[txid]? = some tx → L.txid tx.transaction = txid
  spent : SpentExact p.transactions p.spentUtxos
  claims : ClaimsExact p.transactions p.pendingDecisionClaims

end

/-- Both transactions are pooled, and the second one spends an output of the first one. -/
def Child (txs : Table Txid (AuthorizedTransaction F)) (parent child : Txid) : Prop :=
  ∃ (tx tx' : AuthorizedTransaction F) (vout : Nat), txs[parent]? = some tx ∧
    txs[child]? = some tx' ∧ vout < tx.transaction.outputs.length ∧
      OutPoint.regular parent vout ∈ tx'.transaction.inputs

/-- The ids of the pooled transactions. -/
def MemPool.pooled (p : MemPool F) : Set Txid :=
  {txid | txid ∈ p.transactions}

variable {L : Library F} {p q : MemPool F} {txid : Txid} {tx : AuthorizedTransaction F}

theorem mem_pooled : txid ∈ p.pooled ↔ ∃ tx, p.transactions[txid]? = some tx :=
  mem_iff_lookup

theorem linked_of_indexed (h : Indexed L p) : Linked L p :=
  ⟨h.keyed, h.spent, h.claims⟩

theorem Linked.remove (h : Linked L p) (htx : p.transactions[txid]? = some tx) :
    Linked L (p.remove L txid tx) where
  keyed txid' tx' htx' := by
    rw [MemPool.remove, lookup_erase] at htx'
    split at htx'
    · cases htx'
    · exact h.keyed txid' tx' htx'
  spent := h.spent.remove htx
  claims := h.claims.remove htx

theorem Linked.mem_childrenOf (h : Linked L p) {child : Txid} :
    child ∈ p.childrenOf txid tx ↔ ∃ vout tx', vout < tx.transaction.outputs.length ∧
      p.transactions[child]? = some tx' ∧
        OutPoint.regular txid vout ∈ tx'.transaction.inputs := by
  rw [MemPool.childrenOf, List.mem_filterMap]
  constructor
  · rintro ⟨vout, hvout, hchild⟩
    rw [List.mem_range] at hvout
    split at hchild
    · rename_i spender vin hspent
      obtain rfl := Option.some.inj hchild
      obtain ⟨txid', tx', vin', htx', hvin', hplace⟩ := (h.spent _ _).mp hspent
      obtain ⟨rfl, rfl⟩ := InPoint.regular.inj hplace
      exact ⟨vout, tx', hvout, htx', List.mem_iff_getElem?.mpr ⟨_, hvin'⟩⟩
    · cases hchild
  · rintro ⟨vout, tx', hvout, htx', hmem⟩
    obtain ⟨vin, hvin⟩ := List.mem_iff_getElem?.mp hmem
    have hspent := (h.spent _ (.regular child vin)).mpr ⟨child, tx', vin, htx', hvin, rfl⟩
    exact ⟨vout, List.mem_range.mpr hvout, by rw [hspent]⟩

/-- Between two removals: `q` is left of the pool `p`. -/
structure Deleting (L : Library F) (p q : MemPool F) (roots pending : Set Txid) : Prop where
  linked : Linked L q
  same : ∀ (txid : Txid) (tx : AuthorizedTransaction F),
    q.transactions[txid]? = some tx → p.transactions[txid]? = some tx
  trimmed : Trimmed (Child p.transactions) p.pooled q.pooled roots pending

theorem Deleting.start (h : Linked L p) (roots : Set Txid) : Deleting L p p roots ∅ where
  linked := h
  same _ _ htx := htx
  trimmed := .start

theorem pooled_remove {x : Txid} :
    x ∈ (p.remove L txid tx).pooled ↔ x ∈ p.pooled ∧ x ≠ txid := by
  rw [mem_pooled, mem_pooled]
  simp only [MemPool.remove, lookup_erase]
  by_cases hx : x = txid
  · simp [hx]
  · simp [hx]

theorem Deleting.remove {roots : Set Txid} {pending : List Txid}
    (h : Deleting L p q roots {x | x ∈ txid :: pending})
    (htx : q.transactions[txid]? = some tx) :
    Deleting L p (q.remove L txid tx) roots
      {x | x ∈ pending ++ (q.remove L txid tx).childrenOf txid tx} := by
  have hlinked := h.linked.remove htx
  have hsame : ∀ (x : Txid) (tx' : AuthorizedTransaction F),
      (q.remove L txid tx).transactions[x]? = some tx' → p.transactions[x]? = some tx' := by
    intro x tx' htx'
    rw [MemPool.remove, lookup_erase] at htx'
    split at htx'
    · cases htx'
    · exact h.same x tx' htx'
  refine ⟨hlinked, hsame, h.trimmed.remove List.mem_cons_self (fun x => pooled_remove) ?_ ?_ ?_⟩
  · intro x hx
    rcases List.mem_append.mp hx with hx | hx
    · exact .inl (List.mem_cons_of_mem _ hx)
    · obtain ⟨vout, tx', hvout, htx', hinput⟩ := hlinked.mem_childrenOf.mp hx
      exact .inr ⟨tx, tx', vout, h.same txid tx htx, hsame x tx' htx', hvout, hinput⟩
  · intro x hx hne
    exact List.mem_append_left _ ((List.mem_cons.mp hx).resolve_left hne)
  · rintro x hx ⟨parent, child, vout, hparent, hchild, hvout, hinput⟩
    obtain rfl := Option.some.inj (hparent.symm.trans (h.same txid tx htx))
    obtain ⟨tx', htx'⟩ := mem_pooled.mp hx
    obtain rfl := Option.some.inj (hchild.symm.trans (hsame x tx' htx'))
    exact List.mem_append_right _ (hlinked.mem_childrenOf.mpr ⟨vout, _, hvout, htx', hinput⟩)

theorem Deleting.deleteAll {roots : Set Txid} {pending : List Txid}
    (h : Deleting L p q roots {x | x ∈ pending}) :
    Deleting L p (q.deleteAll L pending) roots ∅ := by
  fun_induction MemPool.deleteAll L q pending with
  | case1 q =>
      have hempty : {x : Txid | x ∈ ([] : List Txid)} = ∅ := by
        ext x
        simp
      rwa [hempty] at h
  | case2 q txid pending hnone ih =>
      refine ih ⟨h.linked, h.same, h.trimmed.drop (x := txid) ?_ ?_ ?_⟩
      · intro hmem
        obtain ⟨tx, htx⟩ := mem_pooled.mp hmem
        cases hnone.symm.trans htx
      · intro x hx
        exact List.mem_cons_of_mem _ hx
      · intro x hx hne
        exact (List.mem_cons.mp hx).resolve_left hne
  | case3 q txid pending tx hsome ih => exact ih (h.remove hsome)

theorem not_mem_deleteAll {pending : List Txid} (hmem : txid ∈ pending) :
    txid ∉ (p.deleteAll L pending).pooled := by
  have hstays (q : MemPool F) (l : List Txid) (hnot : txid ∉ q.pooled) :
      txid ∉ (q.deleteAll L l).pooled :=
    deleteAll_preserves (P := fun q => txid ∉ q.pooled)
      (fun q x tx hq _ hmem => hq (pooled_remove.mp hmem).1) l hnot
  fun_induction MemPool.deleteAll L p pending with
  | case1 p => exact absurd hmem List.not_mem_nil
  | case2 p x pending hnone ih =>
      rcases List.mem_cons.mp hmem with rfl | hmem
      · refine hstays p pending fun hpooled => ?_
        obtain ⟨tx, htx⟩ := mem_pooled.mp hpooled
        cases hnone.symm.trans htx
      · exact ih hmem
  | case3 p x pending tx hsome ih =>
      rcases List.mem_cons.mp hmem with rfl | hmem
      · exact hstays _ _ fun hpooled => (pooled_remove.mp hpooled).2 rfl
      · exact ih (List.mem_append_left _ hmem)

theorem Deleting.delete {roots : Set Txid} (h : Deleting L p q roots ∅) (hroot : txid ∈ roots) :
    Deleting L p (q.delete L txid) roots ∅ := by
  have hwait : {x : Txid | x ∈ [txid]} = insert txid ∅ := by
    ext x
    simp
  refine Deleting.deleteAll ⟨h.linked, h.same, ?_⟩
  rw [hwait]
  exact h.trimmed.wait hroot

/-- A pooled transaction that claims one of the given decisions. -/
def Claims (txs : Table Txid (AuthorizedTransaction F)) (decisionIds : List DecisionId)
    (txid : Txid) : Prop :=
  ∃ tx : AuthorizedTransaction F, txs[txid]? = some tx ∧
    ∃ d ∈ decisionIds, d ∈ tx.transaction.claimedIds

section

variable {roots : Set Txid} {confirmed : Txid} {acc : MemPool F × List Txid} {d : DecisionId}

theorem Deleting.evictClaimant (h : Deleting L p acc.1 roots ∅)
    (hroots : ∀ txid, Claims p.transactions [d] txid → txid ≠ confirmed → txid ∈ roots) :
    Deleting L p (evictClaimant L confirmed acc d).1 roots ∅ := by
  unfold Mempool.evictClaimant
  split
  · rename_i zombie hclaim
    split
    · exact h
    · rename_i hne
      obtain ⟨tx, htx, hd⟩ := (h.linked.claims d zombie).mp hclaim
      exact h.delete
        (hroots zombie ⟨tx, h.same zombie tx htx, d, List.mem_singleton_self d, hd⟩ hne)
  · exact h

theorem deleteAll_shrinks {pending : List Txid} :
    (p.deleteAll L pending).pooled ⊆ p.pooled :=
  deleteAll_preserves (P := fun q => q.pooled ⊆ p.pooled)
    (fun _ _ _ hq _ _ hy => hq (pooled_remove.mp hy).1) pending subset_rfl

theorem evictClaimant_shrinks : (evictClaimant L confirmed acc d).1.pooled ⊆ acc.1.pooled := by
  unfold evictClaimant
  split
  · split
    · exact subset_rfl
    · exact deleteAll_shrinks
  · exact subset_rfl

theorem not_claims_evictClaimant (h : Deleting L p acc.1 roots ∅)
    (hclaims : Claims p.transactions [d] txid) (hne : txid ≠ confirmed) :
    txid ∉ (evictClaimant L confirmed acc d).1.pooled := by
  intro hmem
  obtain ⟨tx, htx⟩ := mem_pooled.mp (evictClaimant_shrinks hmem)
  obtain ⟨tx', htx', d', hd', hclaimed⟩ := hclaims
  obtain rfl := Option.some.inj ((h.same txid tx htx).symm.trans htx')
  rw [List.mem_singleton] at hd'
  subst hd'
  have hclaim := (h.linked.claims d' txid).mpr ⟨tx, htx, hclaimed⟩
  unfold evictClaimant at hmem
  rw [hclaim] at hmem
  simp only [if_neg hne] at hmem
  exact not_mem_deleteAll (List.mem_singleton_self txid) hmem

theorem claims_cons {d : DecisionId} {ids : List DecisionId} :
    Claims p.transactions (d :: ids) txid ↔
      Claims p.transactions [d] txid ∨ Claims p.transactions ids txid := by
  constructor
  · rintro ⟨tx, htx, d', hd', hclaimed⟩
    rcases List.mem_cons.mp hd' with rfl | hd'
    · exact .inl ⟨tx, htx, d', List.mem_singleton_self d', hclaimed⟩
    · exact .inr ⟨tx, htx, d', hd', hclaimed⟩
  · rintro (⟨tx, htx, d', hd', hclaimed⟩ | ⟨tx, htx, d', hd', hclaimed⟩)
    · exact ⟨tx, htx, d', List.mem_cons.mpr (.inl (List.mem_singleton.mp hd')), hclaimed⟩
    · exact ⟨tx, htx, d', List.mem_cons_of_mem _ hd', hclaimed⟩

theorem evictClaimants_shrinks {ids : List DecisionId} :
    (ids.foldl (evictClaimant L confirmed) acc).1.pooled ⊆ acc.1.pooled := by
  induction ids generalizing acc with
  | nil => exact subset_rfl
  | cons d ids ih =>
      rw [List.foldl_cons]
      exact ih.trans evictClaimant_shrinks

theorem Deleting.evictClaimants (confirmed : Txid) {ids : List DecisionId}
    (h : Deleting L p acc.1 roots ∅)
    (hroots : ∀ txid, Claims p.transactions ids txid → txid ≠ confirmed → txid ∈ roots) :
    Deleting L p (ids.foldl (Mempool.evictClaimant L confirmed) acc).1 roots ∅ ∧
      ∀ txid, Claims p.transactions ids txid → txid ≠ confirmed →
        txid ∉ (ids.foldl (Mempool.evictClaimant L confirmed) acc).1.pooled := by
  induction ids generalizing acc with
  | nil =>
      refine ⟨h, fun txid hclaims _ => ?_⟩
      obtain ⟨tx, -, d, hd, -⟩ := hclaims
      exact absurd hd List.not_mem_nil
  | cons d ids ih =>
      rw [List.foldl_cons]
      have hfirst : Deleting L p (Mempool.evictClaimant L confirmed acc d).1 roots ∅ :=
        h.evictClaimant fun txid hclaims hne => hroots txid (claims_cons.mpr (.inl hclaims)) hne
      obtain ⟨hrest, hgone⟩ := ih hfirst fun txid hclaims hne =>
        hroots txid (claims_cons.mpr (.inr hclaims)) hne
      refine ⟨hrest, fun txid hclaims hne => ?_⟩
      rcases claims_cons.mp hclaims with hclaims | hclaims
      · intro hmem
        exact not_claims_evictClaimant h hclaims hne (evictClaimants_shrinks hmem)
      · exact hgone txid hclaims hne

end

section

variable {roots : Set Txid} {confirmed : Transaction F} {block : List (Transaction F)}

theorem confirm_shrinks : (p.confirm L confirmed).pooled ⊆ p.pooled :=
  deleteAll_shrinks.trans evictClaimants_shrinks

theorem Deleting.confirm (h : Deleting L p q roots ∅) (hconfirmed : L.txid confirmed ∈ roots)
    (hclaims : ∀ txid, Claims p.transactions confirmed.claimedIds txid → txid ∈ roots) :
    Deleting L p (q.confirm L confirmed) roots ∅ ∧
      L.txid confirmed ∉ (q.confirm L confirmed).pooled ∧
        ∀ txid, Claims p.transactions confirmed.claimedIds txid →
          txid ∉ (q.confirm L confirmed).pooled := by
  have hstart : Deleting L p ((q, []) : MemPool F × List Txid).1 roots ∅ := h
  obtain ⟨hevicted, hgone⟩ := hstart.evictClaimants (L.txid confirmed)
    fun txid hclaim _ => hclaims txid hclaim
  have hdeleted : L.txid confirmed ∉ (q.confirm L confirmed).pooled :=
    not_mem_deleteAll (List.mem_singleton_self _)
  refine ⟨hevicted.delete hconfirmed, hdeleted, fun txid hclaim hmem => ?_⟩
  by_cases heq : txid = L.txid confirmed
  · exact hdeleted (heq ▸ hmem)
  · exact hgone txid hclaim heq (deleteAll_shrinks hmem)

/-- The ids of a block, and the pooled transactions that claim what it claims. -/
def Touched (L : Library F) (p : MemPool F) (block : List (Transaction F)) : Set Txid :=
  {txid | txid ∈ block.map L.txid ∨
    Claims p.transactions (block.flatMap Transaction.claimedIds) txid}

theorem connectTip_shrinks : (p.connectTip L block).pooled ⊆ p.pooled := by
  induction block generalizing p with
  | nil => exact subset_rfl
  | cons tx block ih => exact (ih (p := p.confirm L tx)).trans confirm_shrinks

theorem Deleting.connectTip (h : Deleting L p q roots ∅) (hroots : Touched L p block ⊆ roots) :
    Deleting L p (q.connectTip L block) roots ∅ ∧
      ∀ txid ∈ Touched L p block, txid ∉ (q.connectTip L block).pooled := by
  induction block generalizing q with
  | nil =>
      refine ⟨h, ?_⟩
      rintro txid (hmem | ⟨tx, -, d, hd, -⟩)
      · exact absurd hmem List.not_mem_nil
      · exact absurd hd List.not_mem_nil
  | cons tx block ih =>
      have hhead : L.txid tx ∈ Touched L p (tx :: block) := .inl List.mem_cons_self
      have hclaimants (txid : Txid) (hclaim : Claims p.transactions tx.claimedIds txid) :
          txid ∈ Touched L p (tx :: block) := by
        obtain ⟨tx', htx', d, hd, hclaimed⟩ := hclaim
        exact .inr ⟨tx', htx', d, List.mem_append_left _ hd, hclaimed⟩
      have htail : Touched L p block ⊆ Touched L p (tx :: block) := by
        rintro txid (hmem | ⟨tx', htx', d, hd, hclaimed⟩)
        · exact .inl (List.mem_cons_of_mem _ hmem)
        · exact .inr ⟨tx', htx', d, List.mem_append_right _ hd, hclaimed⟩
      obtain ⟨hfirst, hgone, hevicted⟩ := h.confirm (hroots hhead)
        fun txid hclaim => hroots (hclaimants txid hclaim)
      obtain ⟨hrest, hothers⟩ := ih hfirst (htail.trans hroots)
      refine ⟨hrest, ?_⟩
      rintro txid (hmem | ⟨tx', htx', d, hd, hclaimed⟩)
      · rcases List.mem_cons.mp hmem with rfl | hmem
        · exact fun hmem => hgone (connectTip_shrinks hmem)
        · exact hothers txid (.inl hmem)
      · rcases List.mem_append.mp hd with hd | hd
        · exact fun hmem => hevicted txid ⟨tx', htx', d, hd, hclaimed⟩ (connectTip_shrinks hmem)
        · exact hothers txid (.inr ⟨tx', htx', d, hd, hclaimed⟩)

theorem pooled_connectTip_iff (h : Linked L p) :
    txid ∈ (p.connectTip L block).pooled ↔
      txid ∈ p.pooled ∧
        ∀ root ∈ Touched L p block, ¬ ReflTransGen (Child p.transactions) root txid := by
  obtain ⟨hleft, hgone⟩ := (Deleting.start h (Touched L p block)).connectTip subset_rfl
  refine hleft.trimmed.kept_iff (fun x y hchild => ?_) hgone txid
  obtain ⟨parent, -, -, hparent, -⟩ := hchild
  exact mem_pooled.mpr ⟨parent, hparent⟩

/-- What is left after a block are the pooled transactions that are not in the block, claim
nothing that the block claims, and do not descend from such transactions. -/
theorem connectTip_transactions (h : Indexed L p) (block : List (Transaction F)) (txid : Txid)
    (tx : AuthorizedTransaction F) :
    (p.connectTip L block).transactions[txid]? = some tx ↔
      p.transactions[txid]? = some tx ∧
        ∀ root ∈ Touched L p block, ¬ ReflTransGen (Child p.transactions) root txid := by
  have hlinked := linked_of_indexed h
  obtain ⟨hleft, -⟩ := (Deleting.start hlinked (Touched L p block)).connectTip subset_rfl
  constructor
  · intro htx
    have hpooled := (pooled_connectTip_iff hlinked).mp (mem_pooled.mpr ⟨tx, htx⟩)
    exact ⟨hleft.same txid tx htx, hpooled.2⟩
  · rintro ⟨htx, hnone⟩
    have hpooled := (pooled_connectTip_iff hlinked).mpr ⟨mem_pooled.mpr ⟨tx, htx⟩, hnone⟩
    obtain ⟨tx', htx'⟩ := mem_pooled.mp hpooled
    rw [htx', ← htx, hleft.same txid tx' htx']

/-- The pooled transaction is not in the block and competes with it for an output or for a
decision. -/
def Competes (L : Library F) (p : MemPool F) (block : List (Transaction F)) (txid : Txid) : Prop :=
  txid ∉ block.map L.txid ∧ ∃ tx : AuthorizedTransaction F, p.transactions[txid]? = some tx ∧
    ((∃ o ∈ block.flatMap Transaction.inputs, o ∈ tx.transaction.inputs) ∨
      ∃ d ∈ block.flatMap Transaction.claimedIds, d ∈ tx.transaction.claimedIds)

end

theorem put_spender (L : Library F) (p : MemPool F) (tx : AuthorizedTransaction F)
    {o : OutPoint} (hinputs : tx.transaction.inputs = [o])
    (hdata : tx.transaction.data = none) (hroom : p.transactions.size < maxMempoolTransactions)
    (hfree : p.spentUtxos[o]? = none) :
    (p.step L (.put tx)).transactions = p.transactions.insert (L.txid tx.transaction) tx ∧
      (p.step L (.put tx)).spentUtxos =
        p.spentUtxos.insert o (.regular (L.txid tx.transaction) 0) := by
  have hclaims : tx.transaction.claimedIds = [] := by
    simp only [Transaction.claimedIds, Transaction.claimPayloads, hdata, List.flatMap_nil]
  have htrade : tx.transaction.isTrade = false := by
    simp only [Transaction.isTrade, hdata]
  have hnoClaims : putDecisionClaims (L.txid tx.transaction) p.pendingDecisionClaims [] =
      .ok p.pendingDecisionClaims := rfl
  have hstxos : putStxos p.spentUtxos (stxosOf (L.txid tx.transaction) [o]) =
      .ok (p.spentUtxos.insert o (.regular (L.txid tx.transaction) 0)) := by
    show putStxo _ _ >>= _ = _
    rw [putStxo, ensure_pos hfree]
    rfl
  simp only [MemPool.step, MemPool.put, hclaims, hinputs, hnoClaims, hstxos, ensure_pos hroom,
    ok_bind, htrade, Bool.false_eq_true, if_false, Except.toOption, Option.getD_some, and_self]

/-- A transaction that spends a deposit, and another one that spends the same deposit. -/
def parentTx : AuthorizedTransaction Rat :=
  ⟨⟨[.deposit 0 0], [⟨0, .bitcoin 1, []⟩], [], none⟩, [], none⟩

def rivalTx : AuthorizedTransaction Rat :=
  ⟨⟨[.deposit 0 0], [], [], none⟩, [], none⟩

noncomputable def parentId : Txid := poolLibrary.txid parentTx.transaction

noncomputable def rivalId : Txid := poolLibrary.txid rivalTx.transaction

/-- A transaction that spends the output of the first one. -/
noncomputable def childTx : AuthorizedTransaction Rat :=
  ⟨⟨[.regular parentId 0], [], [], none⟩, [], none⟩

noncomputable def childId : Txid := poolLibrary.txid childTx.transaction

theorem childId_ne_parentId : childId ≠ parentId := by
  intro heq
  have htx := numbering_injective heq
  have hinputs := congrArg Transaction.inputs htx
  simp [childTx, parentTx] at hinputs

theorem rivalId_ne_parentId : rivalId ≠ parentId := by
  intro heq
  have htx := numbering_injective heq
  have houtputs := congrArg Transaction.outputs htx
  simp [rivalTx, parentTx] at houtputs

noncomputable def familyPool : MemPool Rat :=
  (MemPool.empty.step poolLibrary (.put parentTx)).step poolLibrary (.put childTx)

noncomputable def rivalPool : MemPool Rat :=
  MemPool.empty.step poolLibrary (.put rivalTx)

theorem transactions_familyPool :
    familyPool.transactions =
      ((∅ : Table Txid (AuthorizedTransaction Rat)).insert parentId parentTx).insert
        childId childTx := by
  obtain ⟨hfirst, hspent⟩ :=
    put_spender poolLibrary .empty parentTx rfl rfl (by decide) rfl
  obtain ⟨hsecond, -⟩ :=
    put_spender poolLibrary (MemPool.empty.step poolLibrary (.put parentTx)) childTx rfl rfl
      (by rw [hfirst]; decide) (by rw [hspent]; rfl)
  rw [familyPool, hsecond, hfirst]
  rfl

theorem indexed_familyPool : Indexed poolLibrary familyPool := by
  have hfirst : Indexed poolLibrary (MemPool.empty.step poolLibrary (.put parentTx)) :=
    indexed_empty.step collisionFree_poolLibrary.txid fun old _ _ hinputs => by cases hinputs
  exact hfirst.step collisionFree_poolLibrary.txid fun old _ _ hinputs => by cases hinputs

theorem indexed_rivalPool : Indexed poolLibrary rivalPool :=
  indexed_empty.step collisionFree_poolLibrary.txid fun old _ _ hinputs => by cases hinputs

theorem transactions_rivalPool :
    rivalPool.transactions =
      (∅ : Table Txid (AuthorizedTransaction Rat)).insert rivalId rivalTx :=
  (put_spender _ _ _ rfl rfl (by decide) rfl).1

/-- The child of a confirmed transaction goes, although neither it nor what it descends from
competes with the block. A rival of a confirmed transaction stays. -/
theorem connectTip_drops_child :
    (Indexed poolLibrary familyPool ∧ familyPool.transactions[childId]? = some childTx ∧
      childId ∉ [parentTx.transaction].map poolLibrary.txid ∧
        (∀ competitor, Competes poolLibrary familyPool [parentTx.transaction] competitor →
          ¬ ReflTransGen (Child familyPool.transactions) competitor childId) ∧
        (familyPool.connectTip poolLibrary
          [parentTx.transaction]).transactions[childId]? = none) ∧
    Indexed poolLibrary rivalPool ∧
      Competes poolLibrary rivalPool [parentTx.transaction] rivalId ∧
        (rivalPool.connectTip poolLibrary
          [parentTx.transaction]).transactions[rivalId]? = some rivalTx := by
  have hchild : familyPool.transactions[childId]? = some childTx := by
    rw [transactions_familyPool, lookup_insert, if_pos rfl]
  have hparent : familyPool.transactions[parentId]? = some parentTx := by
    rw [transactions_familyPool, lookup_insert, if_neg childId_ne_parentId.symm, lookup_insert,
      if_pos rfl]
  have hrival : rivalPool.transactions[rivalId]? = some rivalTx := by
    rw [transactions_rivalPool, lookup_insert, if_pos rfl]
  refine ⟨⟨indexed_familyPool, hchild, ?_, ?_, ?_⟩, indexed_rivalPool, ?_, ?_⟩
  · exact fun hmem => childId_ne_parentId (List.mem_singleton.mp hmem)
  · rintro competitor ⟨hnot, tx, htx, hshared⟩
    exfalso
    rw [transactions_familyPool, lookup_insert, lookup_insert] at htx
    split at htx
    · obtain rfl := Option.some.inj htx
      rcases hshared with ⟨o, ho, ho'⟩ | ⟨d, hd, -⟩
      · obtain rfl := List.mem_singleton.mp ho
        cases List.mem_singleton.mp ho'
      · exact absurd hd List.not_mem_nil
    · split at htx
      · rename_i heq
        exact hnot (List.mem_singleton.mpr heq)
      · cases htx
  · have hgone : childId ∉
        (familyPool.connectTip poolLibrary [parentTx.transaction]).pooled := by
      rw [pooled_connectTip_iff (linked_of_indexed indexed_familyPool)]
      rintro ⟨-, hnone⟩
      refine hnone parentId (.inl (List.mem_singleton_self _)) (.single ?_)
      exact ⟨parentTx, childTx, 0, hparent, hchild, by decide, List.mem_singleton_self _⟩
    rw [mem_pooled, not_exists] at hgone
    exact Option.eq_none_iff_forall_ne_some.mpr hgone
  · refine ⟨fun hmem => rivalId_ne_parentId (List.mem_singleton.mp hmem), rivalTx, hrival, .inl ?_⟩
    exact ⟨.deposit 0 0, List.mem_singleton_self _, List.mem_singleton_self _⟩
  · have hleft := (Deleting.start (linked_of_indexed indexed_rivalPool)
      (Touched poolLibrary rivalPool [parentTx.transaction])).connectTip subset_rfl
    have hkept : rivalId ∈ (rivalPool.connectTip poolLibrary [parentTx.transaction]).pooled := by
      rw [pooled_connectTip_iff (linked_of_indexed indexed_rivalPool)]
      refine ⟨mem_pooled.mpr ⟨rivalTx, hrival⟩, fun root hroot hreach => ?_⟩
      -- the rival has no pooled parent, so it would have to be in the block itself
      obtain rfl | ⟨x, -, parent, child, vout, -, hspender, -, hinput⟩ :=
        ReflTransGen.cases_tail_iff _ _ _ |>.mp hreach
      · rcases hroot with hmem | ⟨-, -, d, hd, -⟩
        · exact rivalId_ne_parentId (List.mem_singleton.mp hmem)
        · exact absurd hd List.not_mem_nil
      · obtain rfl := Option.some.inj (hspender.symm.trans hrival)
        cases List.mem_singleton.mp hinput
    obtain ⟨tx, htx⟩ := mem_pooled.mp hkept
    rw [htx, ← hrival, hleft.1.same rivalId tx htx]

/-- The family goes as a whole when the parent is confirmed. -/
theorem connectTip_transactions_family :
    (familyPool.connectTip poolLibrary
        [parentTx.transaction]).transactions[childId]? = some childTx ↔
      familyPool.transactions[childId]? = some childTx ∧
        ∀ root ∈ Touched poolLibrary familyPool [parentTx.transaction],
          ¬ ReflTransGen (Child familyPool.transactions) root childId :=
  connectTip_transactions indexed_familyPool [parentTx.transaction] childId childTx

end Truthcoin.Mempool
