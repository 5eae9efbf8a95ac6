import Truthcoin.MempoolIndexes

/-!
# The order of the pooled trades

Trades are numbered as they enter, and the numbers are stored with their least
significant byte first. The rows come back in the order of insertion as long as
the bytes of every new number sort after those of the pooled trades.
-/

namespace Truthcoin.TradeOrder

open Std Truthcoin.Types Truthcoin.Table Truthcoin.Fallible Truthcoin.Blocks
open Truthcoin.Mempool Truthcoin.MempoolIndexes Truthcoin.Commitments

variable {F : Type} {L : Library F} {p : MemPool F} {queue : List Txid}

/-- The pool has room for a transaction, which spends each of its inputs once and no
output that a pooled transaction spends. -/
def Admissible (p : MemPool F) (tx : AuthorizedTransaction F) : Prop :=
  p.transactions.size < maxMempoolTransactions ∧ tx.transaction.inputs.Nodup ∧
    ∀ o ∈ tx.transaction.inputs, p.spentUtxos[o]? = none

/-- An admissible trade is not pooled, and the bytes of its number sort after those of
every pooled trade. -/
def SortsLast (L : Library F) (p : MemPool F) : Op F → Prop
  | .put tx => tx.transaction.isTrade = true → Admissible p tx →
      p.transactions[L.txid tx.transaction]? = none ∧
        ∀ n ∈ p.tradeInsertionOrder, keyCmp n (p.tradeOrderCounter.getD 0 + 1) = .lt
  | _ => True

/-- Trades are pooled under their ids, their rows are exact, and the rows are in the order
of the queue. -/
structure Queued (L : Library F) (queue : List Txid) (p : MemPool F) : Prop where
  keyed : ∀ (txid : Txid) (tx : AuthorizedTransaction F),
    p.transactions[txid]? = some tx → L.txid tx.transaction = txid
  order : OrderExact p.transactions p.tradeInsertionOrder p.tradeOrderCounter
  rows : p.tradeInsertionOrder.toList.map Prod.snd = queue

theorem admissible_of_put {p' : MemPool F} {tx : AuthorizedTransaction F}
    (h : p.put L tx = .ok p') : Admissible p tx := by
  simp only [MemPool.put, bind_eq_ok_iff, ensure_eq_ok_iff, exists_const] at h
  obtain ⟨hroom, _, _, spent, hspent, -⟩ := h
  refine ⟨hroom, ?_, ?_⟩
  · -- a second spend of an input would meet the first
    exact nodup_of_putStxos hspent
  · intro o ho
    obtain ⟨vin, hvin⟩ := List.mem_iff_getElem?.mp ho
    exact (putStxos_eq_ok hspent).1 (o, _) (mem_stxosOf.mpr ⟨vin, hvin, rfl⟩)

theorem keyed_insert {txs : Table Txid (AuthorizedTransaction F)}
    {tx : AuthorizedTransaction F}
    (h : ∀ (txid : Txid) (tx : AuthorizedTransaction F),
      txs[txid]? = some tx → L.txid tx.transaction = txid)
    (txid : Txid) (tx' : AuthorizedTransaction F)
    (htx' : (txs.insert (L.txid tx.transaction) tx)[txid]? = some tx') :
    L.txid tx'.transaction = txid := by
  have := h txid tx'
  grind

theorem Queued.put {p' : MemPool F} {tx : AuthorizedTransaction F}
    (hbinds : TxidBinds L) (h : Queued L queue p)
    (hok : SortsLast L p (.put tx)) (hput : p.put L tx = .ok p') :
    Queued L (queue ++ (Op.put tx).entering L) p' := by
  have hadmissible := admissible_of_put hput
  simp only [MemPool.put, bind_eq_ok_iff, ensure_eq_ok_iff, exists_const] at hput
  obtain ⟨-, claims, -, spent, -, hput⟩ := hput
  split at hput
  · rename_i htrade
    obtain ⟨hnew, hlast⟩ := hok htrade hadmissible
    simp only [putTradeOrder, bind_eq_ok_iff] at hput
    obtain ⟨next, hnext, hput⟩ := hput
    obtain rfl := Except.ok.inj hput
    refine ⟨keyed_insert h.keyed, h.order.putTrade hnext hnew htrade, ?_⟩
    rw [← (nextSequence_eq_ok hnext).1] at hlast
    rw [toList_insert_last hlast, List.map_append, h.rows]
    simp [Op.entering, htrade]
  · rename_i htrade
    obtain rfl := Except.ok.inj hput
    have hsame : ∀ old, p.transactions[L.txid tx.transaction]? = some old →
        old.transaction.isTrade = tx.transaction.isTrade :=
      fun old hold => isTrade_of_written (hbinds (h.keyed _ old hold))
    refine ⟨keyed_insert h.keyed, h.order.putOther hsame (by simpa using htrade), ?_⟩
    rw [h.rows]
    simp [Op.entering, htrade]

/-- What is left of a pool after removals: fewer transactions and fewer rows, still
exact. -/
structure Remains (p q : MemPool F) : Prop where
  transactions : ∀ (txid : Txid) (tx : AuthorizedTransaction F),
    q.transactions[txid]? = some tx → p.transactions[txid]? = some tx
  rows : ∀ (n : UInt64) (txid : Txid),
    q.tradeInsertionOrder[n]? = some txid → p.tradeInsertionOrder[n]? = some txid
  order : OrderExact q.transactions q.tradeInsertionOrder q.tradeOrderCounter

theorem Remains.remove {q : MemPool F} (h : Remains p q) {txid : Txid}
    {tx : AuthorizedTransaction F} (htx : q.transactions[txid]? = some tx) :
    Remains p (q.remove L txid tx) where
  transactions txid' tx' htx' := by
    refine h.transactions txid' tx' ?_
    simp only [MemPool.remove] at htx'
    grind
  rows n txid' hrow := by
    refine h.rows n txid' ?_
    simp only [MemPool.remove] at hrow
    split at hrow
    · unfold deleteTradeOrder at hrow
      split at hrow
      · grind
      · exact hrow
    · exact hrow
  order := h.order.remove htx

theorem Queued.of_remains {q : MemPool F} (h : Queued L queue p) (hq : Remains p q) :
    Queued L (queue.filter fun txid => txid ∈ q.transactions) q := by
  refine ⟨fun txid tx htx => h.keyed txid tx (hq.transactions txid tx htx), hq.order, ?_⟩
  have hrows : ∀ (n : UInt64) (txid : Txid), q.tradeInsertionOrder[n]? = some txid ↔
      p.tradeInsertionOrder[n]? = some txid ∧ txid ∈ q.transactions := by
    intro n txid
    constructor
    · intro hrow
      obtain ⟨tx, htx, -⟩ := hq.order.trade n txid hrow
      exact ⟨hq.rows n txid hrow, by grind⟩
    · rintro ⟨hrow, hmem⟩
      obtain ⟨tx, htx, htrade⟩ := h.order.trade n txid hrow
      have hleft : q.transactions[txid]? = some q.transactions[txid] := by grind
      have hsame := hq.transactions txid _ hleft
      rw [htx, Option.some.injEq] at hsame
      obtain ⟨n', hrow'⟩ := hq.order.row txid _ hleft (hsame ▸ htrade)
      rwa [h.order.once n n' txid hrow (hq.rows n' txid hrow')]
  have hfilter : q.tradeInsertionOrder.toList =
      p.tradeInsertionOrder.toList.filter fun row => row.2 ∈ q.transactions :=
    toList_eq_filter (by simpa using hrows)
  rw [hfilter, ← h.rows, List.filter_map]
  rfl

theorem Queued.remains_self (h : Queued L queue p) : Remains p p :=
  ⟨fun _ _ htx => htx, fun _ _ hrow => hrow, h.order⟩

theorem Queued.mem_queue_iff (h : Queued L queue p) {txid : Txid} :
    txid ∈ queue ↔ ∃ tx, p.transactions[txid]? = some tx ∧ tx.transaction.isTrade = true := by
  rw [← h.rows, List.mem_map]
  constructor
  · rintro ⟨row, hrow, rfl⟩
    exact h.order.trade row.1 row.2 (mem_toList_iff.mp hrow)
  · rintro ⟨tx, htx, htrade⟩
    obtain ⟨n, hn⟩ := h.order.row txid tx htx htrade
    exact ⟨(n, txid), mem_toList_iff.mpr hn, rfl⟩

theorem Queued.filter_pooled (h : Queued L queue p) :
    queue.filter (fun txid => txid ∈ p.transactions) = queue := by
  refine List.filter_eq_self.mpr ?_
  intro txid hmem
  obtain ⟨tx, htx, -⟩ := h.mem_queue_iff.mp hmem
  have : txid ∈ p.transactions := by grind
  simpa using this

/-- A trade that did not enter is in the queue if it is pooled. -/
theorem Queued.step_put {tx : AuthorizedTransaction F} (hbinds : TxidBinds L)
    (h : Queued L queue p) (hok : SortsLast L p (.put tx)) :
    Queued L (queueAfter L p (.put tx) queue) (p.step L (.put tx)) := by
  cases hresult : p.put L tx with
  | ok p' =>
      have hstep : p.step L (.put tx) = p' := by
        simp [MemPool.step, hresult, Except.toOption]
      have hqueued := h.put hbinds hok hresult
      have hentering : ((Op.put tx).entering L).filter (fun txid => txid ∉ queue) =
          (Op.put tx).entering L := by
        refine List.filter_eq_self.mpr ?_
        intro txid hmem
        by_cases htrade : tx.transaction.isTrade = true
        · obtain rfl : txid = L.txid tx.transaction := by
            simpa [Op.entering, htrade] using hmem
          have hnew := (hok htrade (admissible_of_put hresult)).1
          simp [h.mem_queue_iff, hnew]
        · simp [Op.entering, htrade] at hmem
      rw [queueAfter, hstep, hentering, hqueued.filter_pooled]
      exact hqueued
  | error e =>
      have hstep : p.step L (.put tx) = p := by
        simp [MemPool.step, hresult, Except.toOption]
      have hentering : (((Op.put tx).entering L).filter fun txid => txid ∉ queue).filter
          (fun txid => txid ∈ p.transactions) = [] := by
        rw [List.filter_filter, List.filter_eq_nil_iff]
        intro txid hmem
        by_cases htrade : tx.transaction.isTrade = true
        · obtain rfl : txid = L.txid tx.transaction := by
            simpa [Op.entering, htrade] using hmem
          intro hboth
          simp only [Bool.and_eq_true, decide_eq_true_eq] at hboth
          have hpooled := ExtTreeMap.getElem?_eq_some_getElem hboth.1
          have hsame := isTrade_of_written (hbinds (h.keyed _ _ hpooled))
          exact hboth.2 (h.mem_queue_iff.mpr ⟨_, hpooled, by rw [hsame, htrade]⟩)
        · simp [Op.entering, htrade] at hmem
      rw [queueAfter, hstep, List.filter_append, hentering, h.filter_pooled, List.append_nil]
      exact h

theorem Queued.step {op : Op F} (hbinds : TxidBinds L) (h : Queued L queue p)
    (hok : SortsLast L p op) : Queued L (queueAfter L p op queue) (p.step L op) := by
  have hremove : ∀ (q : MemPool F) (txid : Txid) (tx : AuthorizedTransaction F),
      Remains p q → q.transactions[txid]? = some tx → Remains p (q.remove L txid tx) :=
    fun q txid tx hq htx => hq.remove htx
  cases op with
  | put tx => exact h.step_put hbinds hok
  | delete txid =>
      have hremains : Remains p (p.step L (.delete txid)) :=
        deleteAll_preserves hremove [txid] h.remains_self
      simpa [queueAfter, Op.entering] using h.of_remains hremains
  | evictDecisionClaimConflicts confirmedTx =>
      have hremains : Remains p (p.step L (.evictDecisionClaimConflicts confirmedTx)) :=
        evict_preserves (fun q txid hq => deleteAll_preserves hremove [txid] hq) confirmedTx
          h.remains_self
      simpa [queueAfter, Op.entering] using h.of_remains hremains

theorem queued_empty : Queued L [] (MemPool.empty : MemPool F) :=
  ⟨indexed_empty.keyed, (indexed_empty (L := L)).order, rfl⟩

theorem Queued.takeTradesOrdered (h : Queued L queue p) :
    p.takeTradesOrdered.map (fun tx => L.txid tx.transaction) = queue := by
  have hids : ∀ rows : List (UInt64 × Txid), (∀ row ∈ rows, row.2 ∈ p.transactions) →
      (rows.filterMap fun row => p.transactions[row.2]?).map
        (fun tx => L.txid tx.transaction) = rows.map Prod.snd := by
    intro rows hrows
    induction rows with
    | nil => rfl
    | cons row rows ih =>
        have hrow := ExtTreeMap.getElem?_eq_some_getElem (hrows row (by simp))
        simp only [List.filterMap_cons, hrow, List.map_cons, h.keyed row.2 _ hrow]
        rw [ih fun row hmem => hrows row (by simp [hmem])]
  rw [MemPool.takeTradesOrdered, hids, h.rows]
  intro row hrow
  obtain ⟨tx, htx, -⟩ := h.order.trade row.1 row.2 (mem_toList_iff.mp hrow)
  grind

/-- In every history whose trades sort last as they enter, the trades come back in the
order in which they entered. -/
theorem takeTradesOrdered_of_history (hbinds : TxidBinds L)
    (h : History L (SortsLast L) queue p) :
    p.takeTradesOrdered.map (fun tx => L.txid tx.transaction) = queue := by
  have hqueued : Queued L queue p := by
    induction h with
    | start => exact queued_empty
    | step _ hok ih => exact ih.step hbinds hok
  exact hqueued.takeTradesOrdered

/-- A sale in another market. -/
def otherSale : AuthorizedTransaction Rat :=
  ⟨⟨[], [], [], some (.trade ⟨1, 0, ⟨-2, by decide⟩, 1, 0, none, 0⟩)⟩, [], some ⟨1, 0⟩⟩

theorem txid_sale_ne :
    poolLibrary.txid otherSale.transaction ≠ poolLibrary.txid sale.transaction := by
  intro heq
  have := numbering_injective heq
  revert this
  decide

/-- Two sales and a payment are put, and the first sale is deleted. -/
noncomputable def tradingOps : List (Op Rat) :=
  [.put sale, .put otherSale, .put payment, .delete (poolLibrary.txid sale.transaction)]

theorem history_tradingOps :
    History poolLibrary (SortsLast poolLibrary) (afterOps poolLibrary tradingOps).1
      (afterOps poolLibrary tradingOps).2 := by
  have hfirst : SortsLast poolLibrary (afterOps poolLibrary []).2 (.put sale) := by
    intro _ _
    simp [afterOps, MemPool.empty]
  have hsecond : SortsLast poolLibrary (afterOps poolLibrary [.put sale]).2 (.put otherSale) := by
    have hpool : MemPool.empty.step poolLibrary (.put sale) = _ :=
      step_put_inputless rfl rfl (by decide) (rfl : nextSequence none = .ok 1)
    change SortsLast poolLibrary (MemPool.empty.step poolLibrary (.put sale)) _
    intro _ _
    rw [hpool]
    refine ⟨?_, ?_⟩
    · simp [MemPool.empty, lookup_insert, txid_sale_ne]
    · intro n hn
      obtain rfl : 1 = n := by simpa [MemPool.empty, ExtTreeMap.mem_insert] using hn
      decide
  exact history_snoc [.put sale, .put otherSale, .put payment]
    (history_snoc [.put sale, .put otherSale]
      (history_snoc [.put sale] (history_snoc [] .start hfirst) hsecond)
      (fun htrade => absurd htrade (by decide))) trivial

theorem takeTradesOrdered_of_history_trading :
    History poolLibrary (SortsLast poolLibrary) (afterOps poolLibrary tradingOps).1
        (afterOps poolLibrary tradingOps).2 ∧
      (afterOps poolLibrary tradingOps).2.takeTradesOrdered.map
          (fun tx => poolLibrary.txid tx.transaction) =
        (afterOps poolLibrary tradingOps).1 :=
  ⟨history_tradingOps,
    takeTradesOrdered_of_history collisionFree_poolLibrary.txid history_tradingOps⟩

/-- A pool without transactions, after a number of trades. -/
def drained (n : Nat) : MemPool Rat :=
  ⟨∅, ∅, ∅, ∅, ∅, if n = 0 then none else some (UInt64.ofNat n)⟩

theorem nextSequence_drained {n : Nat} (hn : n < 256) :
    nextSequence (drained n).tradeOrderCounter = .ok (UInt64.ofNat (n + 1)) := by
  have hvalue : (drained n).tradeOrderCounter.getD 0 = UInt64.ofNat n := by
    unfold drained
    split <;> simp_all
  have hroom : (UInt64.ofNat n).toNat + 1 < 2 ^ 64 := by
    rw [UInt64.toNat_ofNat_of_lt' (by simp [UInt64.size]; omega)]
    omega
  rw [nextSequence, hvalue, ensure_pos hroom, ok_bind, UInt64.ofNat_add]
  rfl

/-- The pool with one sale that took the number `n + 1`. -/
noncomputable def holding (n : Nat) : MemPool Rat :=
  ⟨(∅ : Table Txid (AuthorizedTransaction Rat)).insert (poolLibrary.txid sale.transaction) sale,
    ∅, indexTxAddresses poolLibrary (poolLibrary.txid sale.transaction) ∅ sale, ∅,
    (∅ : Table UInt64 Txid).insert (UInt64.ofNat (n + 1)) (poolLibrary.txid sale.transaction),
    some (UInt64.ofNat (n + 1))⟩

theorem step_put_drained {n : Nat} (hn : n < 256) :
    (drained n).step poolLibrary (.put sale) = holding n :=
  step_put_inputless rfl rfl (by simp [drained, maxMempoolTransactions])
    (nextSequence_drained hn)

theorem step_delete_holding (n : Nat) :
    (holding n).step poolLibrary (.delete (poolLibrary.txid sale.transaction)) =
      drained (n + 1) := by
  have hpooled : (holding n).transactions[poolLibrary.txid sale.transaction]? = some sale := by
    simp [holding]
  have horder : deleteTradeOrder (holding n).tradeInsertionOrder
      (poolLibrary.txid sale.transaction) = ∅ := by
    have hrows : (holding n).tradeInsertionOrder.toList =
        [(UInt64.ofNat (n + 1), poolLibrary.txid sale.transaction)] :=
      toList_insert_last (by simp)
    rw [deleteTradeOrder, hrows, List.find?_cons_of_pos (by simp)]
    exact erase_insert_of_absent _ (by simp)
  have haddresses : unindexTxAddresses poolLibrary (poolLibrary.txid sale.transaction)
      (holding n).addressToTxs sale = ∅ := by
    apply ext_lookup
    intro a
    rw [lookup_unindexTxAddresses, holding, lookup_indexTxAddresses]
    split <;> simp [withoutTxid, withTxid, Option.filter]
  have hremove : (holding n).remove poolLibrary (poolLibrary.txid sale.transaction) sale =
      drained (n + 1) := by
    have htransactions : (holding n).transactions.erase (poolLibrary.txid sale.transaction) =
        ∅ := erase_insert_of_absent _ (by simp)
    simp only [MemPool.remove, htransactions, haddresses, horder]
    rfl
  rw [MemPool.step, MemPool.delete, MemPool.deleteAll]
  split
  · rename_i hnone
    rw [hpooled] at hnone
    cases hnone
  · rename_i tx hsome
    rw [hpooled, Option.some.injEq] at hsome
    subst hsome
    rw [hremove, List.nil_append]
    exact MemPool.deleteAll.eq_1 ..

theorem history_drained {n : Nat} (hn : n ≤ 255) :
    History poolLibrary (fun _ _ => True) [] (drained n) := by
  induction n with
  | zero => exact .start
  | succ n ih =>
      have hput : History poolLibrary (fun _ _ => True) _
          ((drained n).step poolLibrary (.put sale)) := (ih (by omega)).step trivial
      rw [step_put_drained (by omega)] at hput
      have hdelete : History poolLibrary (fun _ _ => True) _
          ((holding n).step poolLibrary (.delete (poolLibrary.txid sale.transaction))) :=
        hput.step trivial
      have hempty : ∀ queue, queueAfter poolLibrary (holding n)
          (.delete (poolLibrary.txid sale.transaction)) queue = [] := by
        intro queue
        simp [queueAfter, step_delete_holding, drained]
      rwa [step_delete_holding, hempty] at hdelete

/-- The trade with number 256 comes back before the trade with number 255. -/
theorem trade_256_before_255 :
    ¬ ∀ (queue : List Txid) (p : MemPool Rat),
      History poolLibrary (fun _ _ => True) queue p →
        p.takeTradesOrdered.map (fun tx => poolLibrary.txid tx.transaction) = queue := by
  intro hall
  have hne := txid_sale_ne.symm
  have hstart : History poolLibrary (fun _ _ => True) _
      ((drained 254).step poolLibrary (.put sale)) := (history_drained (by omega)).step trivial
  have hqueue : queueAfter poolLibrary (drained 254) (.put sale) [] =
      [poolLibrary.txid sale.transaction] := by
    rw [queueAfter, step_put_drained (by omega)]
    simp [Op.entering, Transaction.isTrade, sale, holding]
  rw [step_put_drained (by omega), hqueue] at hstart
  have hsecond : (holding 254).step poolLibrary (.put otherSale) = _ :=
    step_put_inputless rfl rfl (by decide) (rfl : nextSequence (some 255) = .ok 256)
  have hend : History poolLibrary (fun _ _ => True) _
      ((holding 254).step poolLibrary (.put otherSale)) := hstart.step trivial
  have htake := hall _ _ hend
  -- the bytes of 256 start with 0, those of 255 with 255
  have hrows : ((holding 254).step poolLibrary (.put otherSale)).tradeInsertionOrder.toList =
      [(256, poolLibrary.txid otherSale.transaction),
        (255, poolLibrary.txid sale.transaction)] := by
    rw [hsecond]
    refine toList_eq_of_sorted (by decide) ?_
    rintro ⟨k, v⟩
    simp only [holding, List.mem_cons, Prod.mk.injEq, List.not_mem_nil, or_false]
    have hkeys : (255 : UInt64) ≠ 256 := by decide
    grind
  have hbefore : ((holding 254).step poolLibrary (.put otherSale)).takeTradesOrdered.map
      (fun tx => poolLibrary.txid tx.transaction) =
        [poolLibrary.txid otherSale.transaction, poolLibrary.txid sale.transaction] := by
    have hsale : (((∅ : Table Txid (AuthorizedTransaction Rat)).insert
        (poolLibrary.txid sale.transaction) sale).insert
        (poolLibrary.txid otherSale.transaction)
        otherSale)[poolLibrary.txid sale.transaction]? = some sale := by
      grind
    rw [MemPool.takeTradesOrdered, hrows, hsecond]
    simp only [holding, List.filterMap_cons, ExtTreeMap.getElem?_insert_self, hsale,
      List.filterMap_nil, List.map_cons, List.map_nil]
  have hafter : queueAfter poolLibrary (holding 254) (.put otherSale)
      [poolLibrary.txid sale.transaction] =
        [poolLibrary.txid sale.transaction, poolLibrary.txid otherSale.transaction] := by
    have hentering : (Op.put otherSale).entering poolLibrary =
        [poolLibrary.txid otherSale.transaction] := rfl
    rw [queueAfter, hsecond, hentering]
    simp [holding, hne.symm]
  rw [hbefore, hafter] at htake
  exact hne (List.cons.inj htake).1.symm

end Truthcoin.TradeOrder
