import Truthcoin.PoolBlocks
import Truthcoin.Authorizations
import Truthcoin.SampleMarkets

/-!
# The memory pool and disconnected blocks

The transactions of a disconnected tip return to the pool, the last one first. A pooled
claimant of the same decision gives way, a pooled spender of the same output does not.
-/

namespace Truthcoin.Mempool

open Std Truthcoin.Types Truthcoin.Table Truthcoin.Fallible Truthcoin.Decisions
open Truthcoin.Blocks Truthcoin.Commitments Truthcoin.MempoolIndexes Truthcoin.Trimming
open Truthcoin.Validation Truthcoin.BlockChecks Truthcoin.Authorizing Relation

variable {F : Type}

section

variable (L : Library F)

/-- Put a transaction back. If it claims what a pooled transaction claims, that one is
evicted, and it is put once more. -/
def MemPool.putBack (p : MemPool F) (tx : AuthorizedTransaction F) :
    Except MempoolError (MemPool F) :=
  match p.put L tx with
  | .ok p => .ok p
  | .error (.decisionAlreadyClaimedInMempool _) =>
      (p.evictDecisionClaimConflicts L tx.transaction).1.put L tx
  | .error e => .error e

/-- What disconnecting a tip does to the pool. -/
def MemPool.disconnectTip (p : MemPool F) (transactions : List (AuthorizedTransaction F)) :
    Except MempoolError (MemPool F) :=
  transactions.reverse.foldlM (MemPool.putBack L) p

/-- The pool of a node with the blocks that are connected, the tip first. Transactions come
from the node itself and from peers, which check nothing but what the pool checks. -/
inductive PoolRun [F64 F] : MemPool F → List (Body F) → Prop
  | start : PoolRun .empty []
  | put {p : MemPool F} {chain : List (Body F)} (tx : AuthorizedTransaction F)
      (h : PoolRun p chain) : PoolRun (p.step L (.put tx)) chain
  | delete {p : MemPool F} {chain : List (Body F)} (txid : Txid) (h : PoolRun p chain) :
      PoolRun (p.delete L txid) chain
  | connectTip {p : MemPool F} {chain : List (Body F)} {config : DecisionConfig}
      {archive : Archive} {s : State F} {header : Header} {body : Body F}
      {pre : PrevalidatedBlock F} (h : PoolRun p chain)
      (hvalid : prevalidate L config archive s header body = .ok pre) :
      PoolRun (p.connectTip L body.transactions) (body :: chain)
  | disconnectTip {p p' : MemPool F} {body : Body F} {chain : List (Body F)}
      {txs : List (AuthorizedTransaction F)} (h : PoolRun p (body :: chain))
      (htxs : authorizedTransactions body = some txs) (hback : p.disconnectTip L txs = .ok p') :
      PoolRun p' chain

/-- What the given transactions evict when they return to the pool: the claimants of what
they claim, and their descendants. -/
def Evicted (p : MemPool F) (txs : List (AuthorizedTransaction F)) : Set Txid :=
  {txid | ∃ tx ∈ txs, ∃ claimant, Claims p.transactions tx.transaction.claimedIds claimant ∧
    claimant ≠ L.txid tx.transaction ∧ ReflTransGen (Child p.transactions) claimant txid}

def returnedTxids (txs : List (AuthorizedTransaction F)) : Set Txid :=
  {txid | ∃ tx ∈ txs, L.txid tx.transaction = txid}

/-- Whenever a transaction returns there is room in the pool, and the pooled spenders of its
inputs are evicted, by it or by one that returns earlier. -/
structure Returnable (p : MemPool F) (txs : List (AuthorizedTransaction F)) : Prop where
  room : ∀ (before : List (AuthorizedTransaction F)) (tx : AuthorizedTransaction F)
    (after : List (AuthorizedTransaction F)), txs = before ++ tx :: after →
      ((p.pooled \ Evicted L p after) ∪ returnedTxids L after).ncard < maxMempoolTransactions
  rivals : ∀ (before : List (AuthorizedTransaction F)) (tx : AuthorizedTransaction F)
    (after : List (AuthorizedTransaction F)), txs = before ++ tx :: after →
      ∀ (rival : Txid) (tx' : AuthorizedTransaction F) (o : OutPoint),
        p.transactions[rival]? = some tx' → o ∈ tx.transaction.inputs →
          o ∈ tx'.transaction.inputs → rival ∈ Evicted L p (tx :: after)

end

variable {L : Library F} {p p' q q' : MemPool F} {txid : Txid} {tx : AuthorizedTransaction F}

theorem Linked.put (hbinds : TxidBinds L) (h : Linked L p)
    (hput : p.put L tx = .ok p') : Linked L p' ∧
      p'.transactions = p.transactions.insert (L.txid tx.transaction) tx := by
  have hinputs : ∀ old, p.transactions[L.txid tx.transaction]? = some old →
      old.transaction.inputs = tx.transaction.inputs :=
    fun old hold => inputs_of_written (hbinds (h.keyed _ old hold))
  have hids : ∀ old, p.transactions[L.txid tx.transaction]? = some old →
      old.transaction.claimedIds = tx.transaction.claimedIds :=
    fun old hold => claimedIds_of_written (hbinds (h.keyed _ old hold))
  simp only [MemPool.put, bind_eq_ok_iff, ensure_eq_ok_iff, exists_const] at hput
  obtain ⟨-, claims, hclaims, spent, hspent, hput⟩ := hput
  have hkeyed : ∀ (txid : Txid) (tx' : AuthorizedTransaction F),
      (p.transactions.insert (L.txid tx.transaction) tx)[txid]? = some tx' →
        L.txid tx'.transaction = txid := by
    intro txid tx' htx'
    rw [lookup_insert] at htx'
    split at htx'
    · rename_i heq
      rw [← Option.some.inj htx', heq]
    · exact h.keyed txid tx' htx'
  split at hput
  · obtain ⟨next, -, hput⟩ := bind_eq_ok_iff.mp hput
    obtain rfl := Except.ok.inj hput
    exact ⟨⟨hkeyed, h.spent.put hinputs hspent, h.claims.put hids hclaims⟩, rfl⟩
  · obtain rfl := Except.ok.inj hput
    exact ⟨⟨hkeyed, h.spent.put hinputs hspent, h.claims.put hids hclaims⟩, rfl⟩

/-- Nobody else claims a decision that the transaction claims. -/
def ClaimsFree (L : Library F) (p : MemPool F) (tx : AuthorizedTransaction F) : Prop :=
  ∀ claimant, Claims p.transactions tx.transaction.claimedIds claimant →
    claimant = L.txid tx.transaction

theorem forM_checkDecisionClaim (txid : Txid) (claims : Table DecisionId Txid)
    (ids : List DecisionId) :
    (ids.forM (checkDecisionClaim txid claims) = .ok () ∧
        ∀ d ∈ ids, ∀ existing, claims[d]? = some existing → existing = txid) ∨
      ∃ d ∈ ids, ∃ existing, claims[d]? = some existing ∧ existing ≠ txid ∧
        ∃ text, ids.forM (checkDecisionClaim txid claims) =
          .error (.decisionAlreadyClaimedInMempool text) := by
  induction ids with
  | nil => exact .inl ⟨rfl, fun d hd => absurd hd List.not_mem_nil⟩
  | cons d ids ih =>
      simp only [List.forM_eq_forM] at ih ⊢
      rw [List.forM_cons, checkDecisionClaim]
      cases hclaim : claims[d]? with
      | none =>
          rcases ih with ⟨hok, hfree⟩ | ⟨d', hd', existing, hexisting, hne, text, herror⟩
          · refine .inl ⟨hok, fun d' hd' existing hexisting => ?_⟩
            rcases List.mem_cons.mp hd' with rfl | hd'
            · cases hclaim.symm.trans hexisting
            · exact hfree d' hd' existing hexisting
          · exact .inr ⟨d', List.mem_cons_of_mem _ hd', existing, hexisting, hne, text, herror⟩
      | some owner =>
          by_cases howner : owner = txid
          · simp only [ensure_pos howner, ok_bind]
            rcases ih with ⟨hok, hfree⟩ | ⟨d', hd', existing, hexisting, hne, text, herror⟩
            · refine .inl ⟨hok, fun d' hd' existing hexisting => ?_⟩
              rcases List.mem_cons.mp hd' with rfl | hd'
              · rw [hclaim, Option.some.injEq] at hexisting
                rw [← hexisting, howner]
              · exact hfree d' hd' existing hexisting
            · exact .inr ⟨d', List.mem_cons_of_mem _ hd', existing, hexisting, hne, text, herror⟩
          · refine .inr ⟨d, List.mem_cons_self, owner, hclaim, howner, d.toHex, ?_⟩
            simp only [ensure, if_neg howner]
            rfl

theorem exists_putStxos (txid : Txid) {spent : Table OutPoint InPoint} {inputs : List OutPoint}
    (hnodup : inputs.Nodup) (hfree : ∀ o ∈ inputs, spent[o]? = none) :
    ∃ spent', putStxos spent (stxosOf txid inputs) = .ok spent' := by
  have hgeneral : ∀ (stxos : List (OutPoint × InPoint)) (spent : Table OutPoint InPoint),
      (stxos.map Prod.fst).Nodup → (∀ stxo ∈ stxos, spent[stxo.1]? = none) →
        ∃ spent', putStxos spent stxos = .ok spent' := by
    intro stxos
    induction stxos with
    | nil => exact fun spent _ _ => ⟨spent, rfl⟩
    | cons stxo stxos ih =>
        intro spent hnodup hfree
        rw [List.map_cons, List.nodup_cons] at hnodup
        obtain ⟨spent', hspent'⟩ := ih (spent.insert stxo.1 stxo.2) hnodup.2 fun other hother => by
          rw [lookup_insert, if_neg]
          · exact hfree other (List.mem_cons_of_mem _ hother)
          · intro heq
            exact hnodup.1 (heq ▸ List.mem_map_of_mem hother)
        refine ⟨spent', ?_⟩
        show (putStxo spent stxo >>= fun spent => putStxos spent stxos) = _
        rw [putStxo, ensure_pos (hfree stxo List.mem_cons_self), ok_bind]
        exact hspent'
  refine hgeneral _ spent ?_ ?_
  · have hinputs : (stxosOf txid inputs).map Prod.fst = inputs := by
      simp [stxosOf, Function.comp_def]
    rwa [hinputs]
  · intro stxo hstxo
    obtain ⟨vin, hvin, -⟩ := mem_stxosOf.mp hstxo
    exact hfree stxo.1 (List.mem_iff_getElem?.mpr ⟨vin, hvin⟩)

theorem Linked.claimsFree_iff (h : Linked L p) :
    ClaimsFree L p tx ↔ ∀ d ∈ tx.transaction.claimedIds, ∀ existing,
      p.pendingDecisionClaims[d]? = some existing → existing = L.txid tx.transaction := by
  constructor
  · intro hfree d hd existing hclaim
    obtain ⟨tx', htx', hclaimed⟩ := (h.claims d existing).mp hclaim
    exact hfree existing ⟨tx', htx', d, hd, hclaimed⟩
  · rintro hfree claimant ⟨tx', htx', d, hd, hclaimed⟩
    exact hfree d hd claimant ((h.claims d claimant).mpr ⟨tx', htx', hclaimed⟩)

theorem Linked.put_of_free (h : Linked L p)
    (hroom : p.transactions.size < maxMempoolTransactions) (hclaims : ClaimsFree L p tx)
    (hnodup : tx.transaction.inputs.Nodup)
    (hfree : ∀ o ∈ tx.transaction.inputs, p.spentUtxos[o]? = none) :
    (∃ p', p.put L tx = .ok p') ∨ p.put L tx = .error .panic := by
  rcases forM_checkDecisionClaim (L.txid tx.transaction) p.pendingDecisionClaims
    tx.transaction.claimedIds with
    ⟨hcheck, -⟩ | ⟨d, hd, existing, hexisting, hne, -⟩
  · obtain ⟨spent, hspent⟩ := exists_putStxos (L.txid tx.transaction) hnodup hfree
    rw [MemPool.put, ensure_pos hroom, ok_bind, putDecisionClaims, hcheck, ok_bind, ok_bind,
      hspent, ok_bind]
    split
    · rw [putTradeOrder, nextSequence]
      by_cases hnext : (p.tradeOrderCounter.getD 0).toNat + 1 < 2 ^ 64
      · left
        simp only [ensure_pos hnext, ok_bind]
        exact ⟨_, rfl⟩
      · right
        simp only [ensure, if_neg hnext]
        rfl
    · exact .inl ⟨_, rfl⟩
  · exact absurd (h.claimsFree_iff.mp hclaims d hd existing hexisting) hne

theorem Linked.put_of_claimed (h : Linked L p)
    (hroom : p.transactions.size < maxMempoolTransactions) (hclaims : ¬ ClaimsFree L p tx) :
    ∃ text, p.put L tx = .error (.decisionAlreadyClaimedInMempool text) := by
  rcases forM_checkDecisionClaim (L.txid tx.transaction) p.pendingDecisionClaims
    tx.transaction.claimedIds with
    ⟨-, hfree⟩ | ⟨d, hd, existing, hexisting, hne, text, herror⟩
  · exact absurd (h.claimsFree_iff.mpr hfree) hclaims
  · refine ⟨text, ?_⟩
    rw [MemPool.put, ensure_pos hroom, ok_bind, putDecisionClaims, herror]
    rfl

section

variable {done : List (AuthorizedTransaction F)}

/-- The pool `q` has come from the pool `p` by returning the transactions of `done`. -/
structure Returning (L : Library F) (p q : MemPool F) (done : List (AuthorizedTransaction F)) :
    Prop where
  linked : Linked L q
  rows : ∀ (x : Txid) (t : AuthorizedTransaction F), q.transactions[x]? = some t →
    (p.transactions[x]? = some t ∧ x ∉ Evicted L p done) ∨
      ∃ d ∈ done, L.txid d.transaction = x ∧ d = t
  closed : ∀ x y, Child p.transactions x y → x ∉ q.pooled → y ∉ q.pooled ∨
    ∃ d ∈ done, L.txid d.transaction = y

theorem Returning.start (h : Linked L p) : Returning L p p [] where
  linked := h
  rows x t ht := by
    refine .inl ⟨ht, ?_⟩
    rintro ⟨tx, htx, -⟩
    exact absurd htx List.not_mem_nil
  closed x y hchild hx := by
    obtain ⟨parent, -, -, hparent, -⟩ := hchild
    exact absurd (mem_pooled.mpr ⟨parent, hparent⟩) hx

theorem Returning.same (hbinds : TxidBinds L) (hp : Linked L p)
    (h : Returning L p q done) {x : Txid} {t t' : AuthorizedTransaction F}
    (ht : q.transactions[x]? = some t) (ht' : p.transactions[x]? = some t') :
    writtenTransaction L.scriptPubkey t.transaction =
      writtenTransaction L.scriptPubkey t'.transaction :=
  hbinds ((h.linked.keyed x t ht).trans (hp.keyed x t' ht').symm)

theorem Evicted.mono {done' : List (AuthorizedTransaction F)} (hsub : done ⊆ done') {x : Txid}
    (hx : x ∈ Evicted L p done) : x ∈ Evicted L p done' := by
  obtain ⟨tx, htx, claimant⟩ := hx
  exact ⟨tx, hsub htx, claimant⟩

theorem Returning.not_evicted (h : Returning L p q done)
    (hrivals : ∀ d ∈ done, ∀ ty, p.transactions[L.txid d.transaction]? = some ty →
      ty.transaction.inputs ≠ [] → L.txid d.transaction ∈ Evicted L p done)
    (hclaims : ∀ claimant, Claims p.transactions tx.transaction.claimedIds claimant →
      claimant ≠ L.txid tx.transaction → claimant ∉ q.pooled)
    {x : Txid} (hx : x ∈ q.pooled) (hnot : x ∉ Evicted L p done) :
    x ∉ Evicted L p (tx :: done) := by
  rintro ⟨tx', htx', claimant, hclaim, hne, hreach⟩
  rcases List.mem_cons.mp htx' with rfl | htx'
  · -- along the path nothing is evicted earlier, so everything is gone
    suffices hgone : x ∉ Evicted L p done → x ∉ q.pooled from hgone hnot hx
    clear hx hnot
    induction hreach with
    | refl => exact fun _ => hclaims claimant hclaim hne
    | @tail y z _ hchild ih =>
        intro hnot
        have hgone : y ∉ q.pooled := ih fun ⟨tx', htx', root, hroot, hrootne, hreach⟩ =>
          hnot ⟨tx', htx', root, hroot, hrootne, hreach.tail hchild⟩
        rcases h.closed y z hchild hgone with hz | ⟨d, hd, rfl⟩
        · exact hz
        · obtain ⟨-, tz, vout, -, hz, -, hinput⟩ := hchild
          exact absurd (hrivals d hd tz hz (List.ne_nil_of_mem hinput)) hnot
  · exact hnot ⟨tx', htx', claimant, hclaim, hne, hreach⟩

theorem Returning.evict (hbinds : TxidBinds L) (hp : Linked L p)
    (h : Returning L p q done) (tx : AuthorizedTransaction F) :
    Returning L p (q.evictDecisionClaimConflicts L tx.transaction).1 done ∧
      (q.evictDecisionClaimConflicts L tx.transaction).1.pooled ⊆ q.pooled ∧
      ClaimsFree L (q.evictDecisionClaimConflicts L tx.transaction).1 tx := by
  have hstart : Deleting L q ((q, []) : MemPool F × List Txid).1
      {c | Claims q.transactions tx.transaction.claimedIds c ∧ c ≠ L.txid tx.transaction} ∅ :=
    .start h.linked _
  obtain ⟨hleft, hgone⟩ := hstart.evictClaimants (L.txid tx.transaction)
    fun c hclaim hne => ⟨hclaim, hne⟩
  have hshrinks : (q.evictDecisionClaimConflicts L tx.transaction).1.pooled ⊆ q.pooled :=
    evictClaimants_shrinks
  refine ⟨⟨hleft.linked, fun x t ht => h.rows x t (hleft.same x t ht), ?_⟩, hshrinks, ?_⟩
  · intro x y hchild hx
    by_cases hxq : x ∈ q.pooled
    · by_cases hy : y ∈ (q.evictDecisionClaimConflicts L tx.transaction).1.pooled
      · obtain ⟨parent, child, vout, hparent, hchildRow, hvout, hinput⟩ := hchild
        obtain ⟨parent', hparent'⟩ := mem_pooled.mp hxq
        obtain ⟨child', hchild'⟩ := mem_pooled.mp (hshrinks hy)
        have hedge : Child q.transactions x y := by
          refine ⟨parent', child', vout, hparent', hchild', ?_, ?_⟩
          · rwa [length_outputs_of_written (h.same hbinds hp hparent' hparent)]
          · rwa [inputs_of_written (h.same hbinds hp hchild' hchildRow)]
        exact absurd (hleft.trimmed.waiting x y hedge hxq hx hy) (Set.notMem_empty y)
      · exact .inl hy
    · rcases h.closed x y hchild hxq with hy | hdone
      · exact .inl fun hmem => hy (hshrinks hmem)
      · exact .inr hdone
  · rintro claimant ⟨t, ht, hclaimed⟩
    by_contra hne
    exact hgone claimant ⟨t, hleft.same claimant t ht, hclaimed⟩ hne (mem_pooled.mpr ⟨t, ht⟩)

theorem Returning.put (hbinds : TxidBinds L) (h : Returning L p q done)
    (hnot : ∀ x ∈ q.pooled, x ∉ Evicted L p done → x ∉ Evicted L p (tx :: done))
    (hput : q.put L tx = .ok q') : Returning L p q' (tx :: done) := by
  obtain ⟨hlinked, htransactions⟩ := h.linked.put hbinds hput
  refine ⟨hlinked, ?_, ?_⟩
  · intro x t ht
    rw [htransactions, lookup_insert] at ht
    split at ht
    · rename_i heq
      exact .inr ⟨tx, List.mem_cons_self, heq.symm, Option.some.inj ht⟩
    · rcases h.rows x t ht with ⟨hrow, hx⟩ | ⟨d, hd, hid, heq⟩
      · exact .inl ⟨hrow, hnot x (mem_pooled.mpr ⟨t, ht⟩) hx⟩
      · exact .inr ⟨d, List.mem_cons_of_mem _ hd, hid, heq⟩
  · intro x y hchild hx
    have hmem : ∀ z, z ∈ q'.pooled ↔ z = L.txid tx.transaction ∨ z ∈ q.pooled := by
      intro z
      rw [mem_pooled, htransactions, lookup_insert, mem_pooled]
      by_cases hz : z = L.txid tx.transaction <;> simp [hz]
    rcases h.closed x y hchild fun hxq => hx ((hmem x).mpr (.inr hxq)) with hy | ⟨d, hd, hid⟩
    · by_cases hnew : y = L.txid tx.transaction
      · exact .inr ⟨tx, List.mem_cons_self, hnew.symm⟩
      · exact .inl fun hyq => ((hmem y).mp hyq).elim hnew hy
    · exact .inr ⟨d, List.mem_cons_of_mem _ hd, hid⟩

theorem pooled_eq_keys (p : MemPool F) : p.pooled = {x | x ∈ p.transactions.keys} := by
  ext x
  simp [MemPool.pooled]

theorem finite_pooled (p : MemPool F) : p.pooled.Finite := by
  rw [pooled_eq_keys]
  exact List.finite_toSet _

theorem size_eq_ncard (p : MemPool F) : p.transactions.size = p.pooled.ncard := by
  rw [pooled_eq_keys, ← List.coe_toFinset, Set.ncard_coe_finset,
    List.toFinset_card_of_nodup ExtTreeMap.nodup_keys, ExtTreeMap.length_keys]

theorem finite_returnedTxids (L : Library F) (txs : List (AuthorizedTransaction F)) :
    (returnedTxids L txs).Finite := by
  refine (List.finite_toSet (txs.map fun tx => L.txid tx.transaction)).subset ?_
  rintro txid ⟨tx, htx, rfl⟩
  exact List.mem_map.mpr ⟨tx, htx, rfl⟩

theorem Returning.size_le (h : Returning L p q done) :
    q.transactions.size ≤ ((p.pooled \ Evicted L p done) ∪ returnedTxids L done).ncard := by
  have hsub : q.pooled ⊆ (p.pooled \ Evicted L p done) ∪ returnedTxids L done := by
    intro x hx
    obtain ⟨t, ht⟩ := mem_pooled.mp hx
    rcases h.rows x t ht with ⟨hrow, hnot⟩ | ⟨d, hd, hid, -⟩
    · exact .inl ⟨mem_pooled.mpr ⟨t, hrow⟩, hnot⟩
    · exact .inr ⟨d, hd, hid⟩
  rw [size_eq_ncard]
  exact Set.ncard_le_ncard hsub ((finite_pooled p).sdiff.union (finite_returnedTxids L done))

/-- One more transaction returns, or the sequence numbers run out. -/
theorem Returning.putBack (hbinds : TxidBinds L) (hp : Linked L p)
    {txs before : List (AuthorizedTransaction F)} (hret : Returnable L p txs)
    (hnodup : (txs.flatMap fun tx => tx.transaction.inputs).Nodup)
    (hsplit : txs = before ++ tx :: done) (h : Returning L p q done) :
    (∃ q', q.putBack L tx = .ok q' ∧ Returning L p q' (tx :: done)) ∨
      q.putBack L tx = .error .panic := by
  have hrivals : ∀ d ∈ done, ∀ ty, p.transactions[L.txid d.transaction]? = some ty →
      ty.transaction.inputs ≠ [] → L.txid d.transaction ∈ Evicted L p done := by
    intro d hd ty hty hne
    obtain ⟨front, back, rfl⟩ := List.append_of_mem hd
    obtain ⟨o, ho⟩ := List.exists_mem_of_ne_nil _ hne
    have hsame : ty.transaction.inputs = d.transaction.inputs :=
      inputs_of_written (hbinds (hp.keyed _ ty hty))
    have hevicted := hret.rivals (before ++ tx :: front) d back (by simp [hsplit]) _ ty o hty
      (hsame ▸ ho) ho
    exact Evicted.mono (by simp) hevicted
  rw [hsplit, List.flatMap_append, List.flatMap_cons] at hnodup
  have hown := hnodup.of_append_right
  have hinputs : tx.transaction.inputs.Nodup := hown.of_append_left
  have hothers : ∀ d ∈ done, ∀ o ∈ tx.transaction.inputs, o ∉ d.transaction.inputs := by
    intro d hd o ho hmem
    exact (List.nodup_append.mp hown).2.2 o ho o (List.mem_flatMap.mpr ⟨d, hd, hmem⟩) rfl
  -- a pool that has come this far without competing claims accepts the transaction
  have haccept : ∀ r : MemPool F, Returning L p r done → ClaimsFree L r tx →
      r.transactions.size < maxMempoolTransactions →
        (∃ q', r.put L tx = .ok q' ∧ Returning L p q' (tx :: done)) ∨
          r.put L tx = .error .panic := by
    intro r hr hfree hroom
    have hclaims : ∀ claimant, Claims p.transactions tx.transaction.claimedIds claimant →
        claimant ≠ L.txid tx.transaction → claimant ∉ r.pooled := by
      rintro claimant ⟨t, ht, d, hd, hclaimed⟩ hne hmem
      obtain ⟨t', ht'⟩ := mem_pooled.mp hmem
      have hsame := claimedIds_of_written (hr.same hbinds hp ht' ht)
      exact hne (hfree claimant ⟨t', ht', d, hd, hsame ▸ hclaimed⟩)
    have hnot : ∀ x ∈ r.pooled, x ∉ Evicted L p done → x ∉ Evicted L p (tx :: done) :=
      fun x hx hx' => hr.not_evicted hrivals hclaims hx hx'
    have hunspent : ∀ o ∈ tx.transaction.inputs, r.spentUtxos[o]? = none := by
      intro o ho
      rw [Option.eq_none_iff_forall_ne_some]
      intro i hspent
      obtain ⟨x, t, vin, ht, hvin, -⟩ := (hr.linked.spent o i).mp hspent
      have hmem : o ∈ t.transaction.inputs := List.mem_iff_getElem?.mpr ⟨vin, hvin⟩
      rcases hr.rows x t ht with ⟨hrow, hx⟩ | ⟨d, hd, -, rfl⟩
      · exact hnot x (mem_pooled.mpr ⟨t, ht⟩) hx
          (hret.rivals before tx done hsplit x t o hrow ho hmem)
      · exact hothers d hd o ho hmem
    rcases hr.linked.put_of_free hroom hfree hinputs hunspent with ⟨q', hput⟩ | hpanic
    · exact .inl ⟨q', hput, hr.put hbinds hnot hput⟩
    · exact .inr hpanic
  have hroom : q.transactions.size < maxMempoolTransactions :=
    h.size_le.trans_lt (hret.room before tx done hsplit)
  by_cases hfree : ClaimsFree L q tx
  · rcases haccept q h hfree hroom with ⟨q', hput, hreturned⟩ | hpanic
    · refine .inl ⟨q', ?_, hreturned⟩
      rw [MemPool.putBack, hput]
    · right
      rw [MemPool.putBack, hpanic]
  · obtain ⟨text, hclaimed⟩ := h.linked.put_of_claimed hroom hfree
    obtain ⟨hevicted, hshrinks, hfree⟩ := h.evict hbinds hp tx
    have hroom' : (q.evictDecisionClaimConflicts L tx.transaction).1.transactions.size <
        maxMempoolTransactions := by
      refine LE.le.trans_lt ?_ hroom
      rw [size_eq_ncard, size_eq_ncard]
      exact Set.ncard_le_ncard hshrinks (finite_pooled q)
    have heq : q.putBack L tx = (q.evictDecisionClaimConflicts L tx.transaction).1.put L tx := by
      rw [MemPool.putBack, hclaimed]
    rw [heq]
    exact haccept _ hevicted hfree hroom'

theorem Returning.disconnectTip (hbinds : TxidBinds L) (hp : Linked L p)
    {txs : List (AuthorizedTransaction F)} (hret : Returnable L p txs)
    (hnodup : (txs.flatMap fun tx => tx.transaction.inputs).Nodup)
    (before : List (AuthorizedTransaction F)) (hsplit : txs = before ++ done)
    (h : Returning L p q done) {e : MempoolError}
    (hrun : before.reverse.foldlM (MemPool.putBack L) q = .error e) : e = .panic := by
  induction before using List.reverseRecOn generalizing done q with
  | nil => cases hrun
  | append_singleton before tx ih =>
      rw [List.append_assoc, List.singleton_append] at hsplit
      rw [List.reverse_append, List.reverse_singleton, List.singleton_append,
        List.foldlM_cons] at hrun
      rcases h.putBack hbinds hp hret hnodup hsplit with ⟨q', hput, hreturned⟩ | hpanic
      · rw [hput, ok_bind] at hrun
        exact ih hsplit hreturned hrun
      · rw [hpanic, error_bind] at hrun
        exact (Except.error.inj hrun).symm

end

theorem map_transaction_of_authorize {txs : List (Transaction F)}
    {authorizations : List Authorization} {actorProofs : List (Option Authorization)}
    {authorized : List (AuthorizedTransaction F)}
    (h : authorize txs authorizations actorProofs = some authorized) :
    authorized.map AuthorizedTransaction.transaction = txs := by
  induction txs generalizing authorizations actorProofs authorized with
  | nil =>
      obtain rfl := Option.some.inj h
      rfl
  | cons tx txs ih =>
      obtain ⟨-, rest, hrest, rfl⟩ := authorize_cons_eq_some h
      rw [List.map_cons, ih hrest]

theorem Linked.delete (h : Linked L p) (txid : Txid) : Linked L (p.delete L txid) :=
  deleteAll_preserves (fun _ _ _ hq htx => hq.remove htx) [txid] h

theorem Linked.evict (h : Linked L p) (confirmedTx : Transaction F) :
    Linked L (p.evictDecisionClaimConflicts L confirmedTx).1 :=
  evict_preserves (fun _ txid hq => hq.delete txid) confirmedTx h

theorem Linked.connectTip (h : Linked L p) (transactions : List (Transaction F)) :
    Linked L (p.connectTip L transactions) := by
  induction transactions generalizing p with
  | nil => exact h
  | cons tx transactions ih => exact ih ((h.evict tx).delete (L.txid tx))

theorem Linked.putBack (hbinds : TxidBinds L) (h : Linked L p)
    (hput : p.putBack L tx = .ok p') : Linked L p' := by
  unfold MemPool.putBack at hput
  split at hput
  · rename_i hok
    obtain rfl := Except.ok.inj hput
    exact (h.put hbinds hok).1
  · exact ((h.evict tx.transaction).put hbinds hput).1
  · cases hput

variable [F64 F]

theorem linked_of_poolRun (hbinds : TxidBinds L) {chain : List (Body F)}
    (h : PoolRun L p chain) : Linked L p ∧
      ∀ body ∈ chain, (body.transactions.flatMap Transaction.inputs).Nodup := by
  induction h with
  | start => exact ⟨linked_of_indexed indexed_empty, by simp⟩
  | put tx _ ih =>
      refine ⟨step_preserves (P := Linked L) ?_ (fun _ _ _ hq htx => hq.remove htx) ih.1, ih.2⟩
      intro tx' p' _ hput
      exact (ih.1.put hbinds hput).1
  | delete txid _ ih => exact ⟨ih.1.delete txid, ih.2⟩
  | @connectTip p chain config archive s header body pre _ hvalid ih =>
      refine ⟨ih.1.connectTip body.transactions, fun other hother => ?_⟩
      rcases List.mem_cons.mp hother with rfl | hother
      · exact (prevalidated_of_prevalidate hvalid).inputs
      · exact ih.2 other hother
  | disconnectTip _ _ hback ih =>
      refine ⟨?_, fun other hother => ih.2 other (List.mem_cons_of_mem _ hother)⟩
      exact foldlM_preserves (P := Linked L) (fun tx _ q q' hq hput => hq.putBack hbinds hput)
        hback ih.1

/-- If there is room whenever a transaction of the tip returns, and all pooled spenders of its
inputs are evicted before, then the disconnection of the tip has no error of the pool. -/
theorem disconnectTip_succeeds (hbinds : TxidBinds L) {chain : List (Body F)}
    {body : Body F} {txs : List (AuthorizedTransaction F)} (hrun : PoolRun L p (body :: chain))
    (htxs : authorizedTransactions body = some txs) (hret : Returnable L p txs) :
    (∃ p', p.disconnectTip L txs = .ok p') ∨ p.disconnectTip L txs = .error .panic := by
  obtain ⟨hlinked, hbodies⟩ := linked_of_poolRun hbinds hrun
  have hnodup : (txs.flatMap fun tx => tx.transaction.inputs).Nodup := by
    have hinputs := hbodies body List.mem_cons_self
    rwa [← map_transaction_of_authorize htxs, List.flatMap_map] at hinputs
  cases hback : p.disconnectTip L txs with
  | ok p' => exact .inl ⟨p', rfl⟩
  | error e =>
      right
      rw [(Returning.start hlinked).disconnectTip hbinds hlinked hret hnodup txs (by simp) hback]

section

open Truthcoin.SampleChain Truthcoin.SampleMarkets Truthcoin.Connect

/-- A transaction that spends the first deposit of the owner. -/
def spendingFirst (memo : List UInt8) : AuthorizedTransaction Rat :=
  ⟨⟨[.deposit 0 0], [], memo, none⟩, [⟨owner, 0⟩], none⟩

noncomputable def returnLibrary : Library Rat :=
  knownLibrary [(spendingFirst []).transaction, (spendingFirst [0]).transaction]

/-- The genesis block and a deposit. -/
noncomputable def returnStart : Except Error (State Rat) := do
  let s ← applyBlock returnLibrary marketConfig heightArchive (State.empty Rat)
    (ownedBlock returnLibrary 0 [])
  s.connectTwoWayPegData sampleBundleLib (deposits 1)

/-- The first block after the genesis block with one transaction. -/
noncomputable def returnBlock (memo : List UInt8) : Block Rat :=
  ownedBlock returnLibrary 1 [(spendingFirst memo).transaction]

omit [F64 F] in
theorem evict_of_unclaimed {confirmed : Transaction F}
    (hclaims : ∀ d ∈ confirmed.claimedIds, p.pendingDecisionClaims[d]? = none) :
    p.evictDecisionClaimConflicts L confirmed = (p, []) := by
  refine List.foldlRecOn (motive := fun acc => acc = (p, [])) _ _ rfl ?_
  rintro acc rfl d hd
  rw [evictClaimant, hclaims d hd]

omit [F64 F] in
theorem connectTip_of_absent {confirmed : Transaction F}
    (hclaims : ∀ d ∈ confirmed.claimedIds, p.pendingDecisionClaims[d]? = none)
    (habsent : p.transactions[L.txid confirmed]? = none) : p.connectTip L [confirmed] = p := by
  show p.confirm L confirmed = p
  rw [MemPool.confirm, evict_of_unclaimed hclaims, MemPool.delete, MemPool.deleteAll]
  split
  · rw [MemPool.deleteAll]
  · rename_i tx htx
    cases habsent.symm.trans htx

omit [F64 F] in
theorem put_of_spent {o : OutPoint} {i : InPoint} (hclaims : tx.transaction.claimedIds = [])
    (hinputs : tx.transaction.inputs = [o])
    (hroom : p.transactions.size < maxMempoolTransactions) (hspent : p.spentUtxos[o]? = some i) :
    p.put L tx = .error .utxoDoubleSpent := by
  have hnoClaims : putDecisionClaims (L.txid tx.transaction) p.pendingDecisionClaims [] =
      .ok p.pendingDecisionClaims := rfl
  have hstxos : putStxos p.spentUtxos (stxosOf (L.txid tx.transaction) [o]) =
      .error .utxoDoubleSpent := by
    show putStxo _ _ >>= _ = _
    rw [putStxo, hspent]
    rfl
  simp only [MemPool.put, ensure_pos hroom, hclaims, hinputs, hnoClaims, hstxos, ok_bind,
    error_bind]

/-- The deposit of the tip's transaction has a pooled spender, which came before the tip. -/
theorem disconnectTip_doubleSpent :
    ∃ (s : State Rat) (p : MemPool Rat), returnStart = .ok s ∧
      (∃ pre, prevalidate returnLibrary marketConfig heightArchive s (returnBlock [0]).header
        (returnBlock [0]).body = .ok pre) ∧
      PoolRun returnLibrary p [(returnBlock []).body] ∧
      authorizedTransactions (returnBlock []).body = some [spendingFirst []] ∧
      p.disconnectTip returnLibrary [spendingFirst []] = .error .utxoDoubleSpent := by
  have hcomputed : holds returnStart (fun s =>
      holds (prevalidate returnLibrary marketConfig heightArchive s (returnBlock [0]).header
        (returnBlock [0]).body) (fun _ => true) &&
      holds (prevalidate returnLibrary marketConfig heightArchive s (returnBlock []).header
        (returnBlock []).body) fun _ => true) = true := by
    decide +kernel
  obtain ⟨s, hs, htest⟩ := holds_iff.mp hcomputed
  rw [Bool.and_eq_true] at htest
  obtain ⟨pre, hrival, -⟩ := holds_iff.mp htest.1
  obtain ⟨pre', htip, -⟩ := holds_iff.mp htest.2
  obtain ⟨htransactions, hspent⟩ :=
    put_spender returnLibrary .empty (spendingFirst [0]) rfl rfl (by decide) rfl
  have hids : returnLibrary.txid (spendingFirst []).transaction ≠
      returnLibrary.txid (spendingFirst [0]).transaction := by
    decide +kernel
  have hkept : (MemPool.empty.step returnLibrary (.put (spendingFirst [0]))).connectTip
      returnLibrary [(spendingFirst []).transaction] =
        MemPool.empty.step returnLibrary (.put (spendingFirst [0])) := by
    refine connectTip_of_absent (fun d hd => absurd hd List.not_mem_nil) ?_
    rw [htransactions, lookup_insert, if_neg hids]
    rfl
  have hput : (MemPool.empty.step returnLibrary (.put (spendingFirst [0]))).put returnLibrary
      (spendingFirst []) = .error .utxoDoubleSpent := by
    have hroom : (MemPool.empty.step returnLibrary
        (.put (spendingFirst [0]))).transactions.size < maxMempoolTransactions := by
      rw [htransactions]
      decide
    have hspender : (MemPool.empty.step returnLibrary
        (.put (spendingFirst [0]))).spentUtxos[OutPoint.deposit 0 0]? =
          some (.regular (returnLibrary.txid (spendingFirst [0]).transaction) 0) := by
      rw [hspent, lookup_insert, if_pos rfl]
    exact put_of_spent rfl rfl hroom hspender
  refine ⟨s, _, hs, ⟨pre, hrival⟩, PoolRun.connectTip (.put (spendingFirst [0]) .start) htip, rfl,
    ?_⟩
  show (MemPool.connectTip _ _ [(spendingFirst []).transaction]).putBack returnLibrary
    (spendingFirst []) >>= _ = _
  rw [hkept, MemPool.putBack, hput]
  rfl

/-- A claim of a decision, and a claim of it that spends another deposit. -/
def claimTip : AuthorizedTransaction Rat := ⟨claiming 0 marketDecision, [⟨owner, 0⟩], none⟩

def claimRival : AuthorizedTransaction Rat := ⟨claiming 1 marketDecision, [⟨owner, 0⟩], none⟩

def bystander : AuthorizedTransaction Rat := ⟨⟨[.deposit 2 2], [], [], none⟩, [⟨owner, 0⟩], none⟩

noncomputable def claimLibrary : Library Rat :=
  knownLibrary [claimTip.transaction, claimRival.transaction, bystander.transaction]

noncomputable def claimStart : Except Error (State Rat) := do
  let s ← applyBlock claimLibrary marketConfig heightArchive (State.empty Rat)
    (ownedBlock claimLibrary 0 [])
  s.connectTwoWayPegData sampleBundleLib (deposits 3)

noncomputable def claimBlock : Block Rat := ownedBlock claimLibrary 1 [claimTip.transaction]

/-- After the block has been connected, the rival of its claim and a bystander come in. -/
noncomputable def claimPool : MemPool Rat :=
  (MemPool.empty.step claimLibrary (.put claimRival)).step claimLibrary (.put bystander)

theorem rows_claimPool : claimPool.transactions.toList =
    [(1, claimRival), (2, bystander)] := by
  decide +kernel

/-- The claim of the tip returns to the pool of its rival, which gives way. -/
theorem disconnectTip_succeeds_rival :
    ∃ (s : State Rat), claimStart = .ok s ∧
      PoolRun claimLibrary claimPool [claimBlock.body] ∧
      (∃ claimant, Claims claimPool.transactions claimTip.transaction.claimedIds claimant) ∧
      ((∃ p', claimPool.disconnectTip claimLibrary [claimTip] = .ok p') ∨
        claimPool.disconnectTip claimLibrary [claimTip] = .error .panic) := by
  have hcomputed : holds claimStart (fun s =>
      holds (prevalidate claimLibrary marketConfig heightArchive s claimBlock.header
        claimBlock.body) fun _ => true) = true := by
    decide +kernel
  obtain ⟨s, hs, htest⟩ := holds_iff.mp hcomputed
  obtain ⟨pre, htip, -⟩ := holds_iff.mp htest
  have hrun : PoolRun claimLibrary claimPool [claimBlock.body] := by
    have hconnect := PoolRun.connectTip .start htip
    rw [show claimBlock.body.transactions = [claimTip.transaction] from rfl,
      connectTip_of_absent (fun _ _ => rfl) rfl] at hconnect
    exact (hconnect.put claimRival).put bystander
  have hrows : ∀ (txid : Txid) (tx : AuthorizedTransaction Rat),
      claimPool.transactions[txid]? = some tx → tx = claimRival ∨ tx = bystander := by
    intro txid tx htx
    have hmem : (txid, tx) ∈ claimPool.transactions.toList := mem_toList_iff.mpr htx
    rw [rows_claimPool] at hmem
    rcases List.mem_cons.mp hmem with heq | hmem
    · exact .inl (Prod.mk.inj heq).2
    · exact .inr (Prod.mk.inj (List.mem_singleton.mp hmem)).2
  have hrival : claimPool.transactions[(1 : Txid)]? = some claimRival := by
    have hmem : (1, claimRival) ∈ claimPool.transactions.toList := by
      rw [rows_claimPool]
      exact List.mem_cons_self
    exact mem_toList_iff.mp hmem
  have hret : Returnable claimLibrary claimPool [claimTip] := by
    constructor
    · intro before tx after hsplit
      have hlength := congrArg List.length hsplit
      simp only [List.length_append, List.length_cons, List.length_nil] at hlength
      obtain rfl := List.eq_nil_of_length_eq_zero (show after.length = 0 by omega)
      have hnone : returnedTxids claimLibrary [] = ∅ := by
        ext x
        simp [returnedTxids]
      have hsize : claimPool.pooled.ncard = 2 := by
        rw [← size_eq_ncard, ← ExtTreeMap.length_toList, rows_claimPool]
        rfl
      rw [hnone, Set.union_empty]
      refine (Set.ncard_le_ncard Set.sdiff_subset (finite_pooled _)).trans_lt ?_
      rw [hsize]
      decide
    · intro before tx after hsplit rival tx' o hrow ho ho'
      obtain rfl : tx = claimTip := by
        have hmem : tx ∈ [claimTip] := by
          rw [hsplit]
          simp
        exact List.mem_singleton.mp hmem
      obtain rfl := List.mem_singleton.mp ho
      rcases hrows rival tx' hrow with rfl | rfl
      · exact absurd ho' (by decide)
      · exact absurd ho' (by decide)
  refine ⟨s, hs, hrun, ⟨1, claimRival, hrival, marketDecision, ?_, ?_⟩,
    disconnectTip_succeeds (collisionFree_knownLibrary _).txid hrun rfl hret⟩
  · decide
  · decide

end

end Truthcoin.Mempool
