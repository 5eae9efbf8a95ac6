import Truthcoin.Blocks

/-!
# The memory pool

Pooled transactions with four indexes that are kept by hand: the outputs they
spend, the addresses they concern, the decisions they claim, and the order in
which trades entered.
-/

namespace Truthcoin.Mempool

open Std Truthcoin.Types Truthcoin.Table Truthcoin.Fallible Truthcoin.Decisions
open Truthcoin.Blocks

/-- The eight bytes of a 64-bit number, least significant first. -/
def le64 (n : Nat) : List Nat :=
  (List.range 8).map fun i => n / 256 ^ i % 256

theorem le64_injOn {a b : Nat} (ha : a < 2 ^ 64) (hb : b < 2 ^ 64) (h : le64 a = le64 b) :
    a = b := by
  simp [le64, List.range_succ] at h
  omega

instance sequenceKey : TableKey UInt64 where
  encode n := le64 n.toNat
  encode_injective := by
    intro a b h
    exact UInt64.toNat_inj.mp (le64_injOn a.toNat_lt b.toNat_lt h)

/-- A transaction with the signatures for its inputs and the proof of its actor. -/
structure AuthorizedTransaction (F : Type) where
  transaction : Transaction F
  authorizations : List Authorization
  actorProof : Option Authorization
  deriving DecidableEq

inductive MempoolError where
  | utxoDoubleSpent
  | decisionAlreadyClaimedInMempool (decisionId : String)
  | mempoolFull (current max : Nat)
  | panic
  deriving DecidableEq, Repr

structure MemPool (F : Type) where
  transactions : Table Txid (AuthorizedTransaction F)
  spentUtxos : Table OutPoint InPoint
  addressToTxs : Table Address (Finset Txid)
  pendingDecisionClaims : Table DecisionId Txid
  tradeInsertionOrder : Table UInt64 Txid
  tradeOrderCounter : Option UInt64

def maxMempoolTransactions : Nat := 5000

variable {F : Type}

def MemPool.empty : MemPool F := ⟨∅, ∅, ∅, ∅, ∅, none⟩

/-- Record the spender of an output unless it has one. -/
def putStxo (spentUtxos : Table OutPoint InPoint) (stxo : OutPoint × InPoint) :
    Except MempoolError (Table OutPoint InPoint) := do
  ensure (spentUtxos[stxo.1]? = none) .utxoDoubleSpent
  .ok (spentUtxos.insert stxo.1 stxo.2)

def putStxos (spentUtxos : Table OutPoint InPoint) (stxos : List (OutPoint × InPoint)) :
    Except MempoolError (Table OutPoint InPoint) :=
  stxos.foldlM putStxo spentUtxos

def deleteStxos (spentUtxos : Table OutPoint InPoint) (stxos : List OutPoint) :
    Table OutPoint InPoint :=
  stxos.foldl (fun table stxo => table.erase stxo) spentUtxos

/-- The inputs of a transaction with the places that spend them. -/
def stxosOf (txid : Txid) (inputs : List OutPoint) : List (OutPoint × InPoint) :=
  inputs.zipIdx.map fun entry => (entry.1, .regular txid entry.2)

def assocTxidWithAddress (txid : Txid) (addressToTxs : Table Address (Finset Txid))
    (address : Address) : Table Address (Finset Txid) :=
  addressToTxs.insert address (insert txid (addressToTxs[address]?.getD ∅))

/-- An address keeps no empty set. -/
def unassocTxidWithAddress (txid : Txid) (addressToTxs : Table Address (Finset Txid))
    (address : Address) : Table Address (Finset Txid) :=
  match addressToTxs[address]? with
  | none => addressToTxs
  | some txids =>
      if txids.erase txid = ∅ then addressToTxs.erase address
      else addressToTxs.insert address (txids.erase txid)

section

variable (L : Library F)

/-- The signers, the actor and the owners of the outputs. -/
def AuthorizedTransaction.relevantAddresses (tx : AuthorizedTransaction F) : List Address :=
  (tx.authorizations.map L.getAddress ++ tx.actorProof.toList.map L.getAddress ++
    tx.transaction.outputs.map Output.address).dedup

def indexTxAddresses (txid : Txid) (addressToTxs : Table Address (Finset Txid))
    (tx : AuthorizedTransaction F) : Table Address (Finset Txid) :=
  (tx.relevantAddresses L).foldl (assocTxidWithAddress txid) addressToTxs

def unindexTxAddresses (txid : Txid) (addressToTxs : Table Address (Finset Txid))
    (tx : AuthorizedTransaction F) : Table Address (Finset Txid) :=
  (tx.relevantAddresses L).foldl (unassocTxidWithAddress txid) addressToTxs

end

/-- A decision may be claimed again by the transaction that claims it. -/
def checkDecisionClaim (txid : Txid) (claims : Table DecisionId Txid) (d : DecisionId) :
    Except MempoolError Unit :=
  match claims[d]? with
  | some existing =>
      ensure (existing = txid) (.decisionAlreadyClaimedInMempool d.toHex)
  | none => .ok ()

def putDecisionClaims (txid : Txid) (claims : Table DecisionId Txid)
    (decisionIds : List DecisionId) : Except MempoolError (Table DecisionId Txid) := do
  decisionIds.forM (checkDecisionClaim txid claims)
  .ok (decisionIds.foldl (fun table d => table.insert d txid) claims)

def deleteDecisionClaims (claims : Table DecisionId Txid) (decisionIds : List DecisionId) :
    Table DecisionId Txid :=
  decisionIds.foldl (fun table d => table.erase d) claims

/-- The number after the last one given out. -/
def nextSequence (counter : Option UInt64) : Except MempoolError UInt64 := do
  ensure ((counter.getD 0).toNat + 1 < 2 ^ 64) .panic
  .ok (counter.getD 0 + 1)

/-- Delete the first row of a transaction. -/
def deleteTradeOrder (order : Table UInt64 Txid) (txid : Txid) : Table UInt64 Txid :=
  match order.toList.find? fun row => row.2 = txid with
  | some row => order.erase row.1
  | none => order

section

variable (L : Library F)

/-- Give a trade the next place in the order of the trades. -/
def putTradeOrder (p : MemPool F) (txid : Txid) : Except MempoolError (MemPool F) := do
  let next ← nextSequence p.tradeOrderCounter
  .ok { p with
    tradeInsertionOrder := p.tradeInsertionOrder.insert next txid
    tradeOrderCounter := some next }

def MemPool.put (p : MemPool F) (tx : AuthorizedTransaction F) :
    Except MempoolError (MemPool F) := do
  let txid := L.txid tx.transaction
  ensure (p.transactions.size < maxMempoolTransactions)
    (.mempoolFull p.transactions.size maxMempoolTransactions)
  let claims ← putDecisionClaims txid p.pendingDecisionClaims tx.transaction.claimedIds
  let spentUtxos ← putStxos p.spentUtxos (stxosOf txid tx.transaction.inputs)
  let p := { p with
    transactions := p.transactions.insert txid tx
    spentUtxos := spentUtxos
    addressToTxs := indexTxAddresses L txid p.addressToTxs tx
    pendingDecisionClaims := claims }
  if tx.transaction.isTrade then putTradeOrder p txid else .ok p

/-- Take one transaction out of the pool and of the indexes. -/
def MemPool.remove (p : MemPool F) (txid : Txid) (tx : AuthorizedTransaction F) : MemPool F :=
  { p with
    transactions := p.transactions.erase txid
    spentUtxos := deleteStxos p.spentUtxos tx.transaction.inputs
    addressToTxs := unindexTxAddresses L txid p.addressToTxs tx
    pendingDecisionClaims :=
      deleteDecisionClaims p.pendingDecisionClaims tx.transaction.claimedIds
    tradeInsertionOrder :=
      if tx.transaction.isTrade then deleteTradeOrder p.tradeInsertionOrder txid
      else p.tradeInsertionOrder }

/-- The pooled spenders of the outputs of a transaction. -/
def MemPool.childrenOf (p : MemPool F) (txid : Txid) (tx : AuthorizedTransaction F) :
    List Txid :=
  (List.range tx.transaction.outputs.length).filterMap fun vout =>
    match p.spentUtxos[OutPoint.regular txid vout]? with
    | some (.regular child _) => some child
    | _ => none

theorem size_remove_lt {p : MemPool F} {txid : Txid} {tx : AuthorizedTransaction F}
    (h : p.transactions[txid]? = some tx) :
    (p.remove L txid tx).transactions.size < p.transactions.size :=
  size_erase_lt (mem_iff_lookup.mpr ⟨tx, h⟩)

/-- Delete the transactions of a work list with their descendants. -/
def MemPool.deleteAll (p : MemPool F) (pendingDeletes : List Txid) : MemPool F :=
  match pendingDeletes with
  | [] => p
  | txid :: pending =>
      match _hpooled : p.transactions[txid]? with
      | none => MemPool.deleteAll p pending
      | some tx =>
          MemPool.deleteAll (p.remove L txid tx)
            (pending ++ (p.remove L txid tx).childrenOf txid tx)
  termination_by (p.transactions.size, pendingDeletes.length)
  decreasing_by
    · exact Prod.Lex.right _ (by simp)
    · exact Prod.Lex.left _ _ (size_remove_lt L _hpooled)

def MemPool.delete (p : MemPool F) (txid : Txid) : MemPool F :=
  p.deleteAll L [txid]

/-- Evict the transaction that claims a decision, unless it is the confirmed one. -/
def evictClaimant (confirmedTxid : Txid) (acc : MemPool F × List Txid) (d : DecisionId) :
    MemPool F × List Txid :=
  match acc.1.pendingDecisionClaims[d]? with
  | some zombieTxid =>
      if zombieTxid = confirmedTxid then acc
      else (acc.1.delete L zombieTxid, acc.2 ++ [zombieTxid])
  | none => acc

/-- The pool without the transactions that claim what a confirmed transaction claims, and
the evicted ids. -/
def MemPool.evictDecisionClaimConflicts (p : MemPool F) (confirmedTx : Transaction F) :
    MemPool F × List Txid :=
  confirmedTx.claimedIds.foldl (evictClaimant L (L.txid confirmedTx)) (p, [])

def MemPool.takeTradesOrdered (p : MemPool F) : List (AuthorizedTransaction F) :=
  p.tradeInsertionOrder.toList.filterMap fun row => p.transactions[row.2]?

inductive Op (F : Type) where
  | put (tx : AuthorizedTransaction F)
  | delete (txid : Txid)
  | evictDecisionClaimConflicts (confirmedTx : Transaction F)

/-- A failed operation aborts the write transaction around it. -/
def MemPool.step (p : MemPool F) : Op F → MemPool F
  | .put tx => (p.put L tx).toOption.getD p
  | .delete txid => p.delete L txid
  | .evictDecisionClaimConflicts confirmedTx =>
      (p.evictDecisionClaimConflicts L confirmedTx).1

/-- The id of the trade that an operation brings to the pool. -/
def Op.entering : Op F → List Txid
  | .put tx => if tx.transaction.isTrade then [L.txid tx.transaction] else []
  | _ => []

/-- The pooled trades by the time they entered: a new trade joins the end, a trade that
left the pool leaves the queue. -/
def queueAfter (p : MemPool F) (op : Op F) (queue : List Txid) : List Txid :=
  (queue ++ (op.entering L).filter fun txid => txid ∉ queue).filter
    fun txid => txid ∈ (p.step L op).transactions

/-- A history of operations from the empty pool, each of which meets `Q`, with the queue
of the pooled trades. -/
inductive History (Q : MemPool F → Op F → Prop) : List Txid → MemPool F → Prop
  | start : History Q [] .empty
  | step {queue : List Txid} {p : MemPool F} {op : Op F} :
      History Q queue p → Q p op → History Q (queueAfter L p op queue) (p.step L op)

end

end Truthcoin.Mempool
