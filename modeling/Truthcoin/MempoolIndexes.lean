import Truthcoin.Mempool
import Truthcoin.SampleLibrary

/-!
# The indexes of the memory pool

Each index holds exactly the entries of the pooled transactions, as long as no put
resubmits a pooled transaction without inputs that is a trade or that no longer
concerns an address it concerned before.
-/

namespace Truthcoin.MempoolIndexes

open Std Truthcoin.Types Truthcoin.Table Truthcoin.Fallible Truthcoin.Decisions
open Truthcoin.Blocks Truthcoin.Mempool Truthcoin.Commitments

variable {F : Type} {txs : Table Txid (AuthorizedTransaction F)} {txid : Txid}
  {tx : AuthorizedTransaction F}

/-- A place of a pooled transaction that spends an output. -/
def SpentBy (txs : Table Txid (AuthorizedTransaction F)) (o : OutPoint) (i : InPoint) : Prop :=
  ∃ txid tx vin, txs[txid]? = some tx ∧ tx.transaction.inputs[vin]? = some o ∧
    i = .regular txid vin

/-- The index of the spent outputs maps exactly the inputs of the pooled transactions to
the places that spend them. -/
def SpentExact (txs : Table Txid (AuthorizedTransaction F))
    (spent : Table OutPoint InPoint) : Prop :=
  ∀ o i, spent[o]? = some i ↔ SpentBy txs o i

theorem putStxos_eq_ok {spent spent' : Table OutPoint InPoint}
    {stxos : List (OutPoint × InPoint)} (h : putStxos spent stxos = .ok spent') :
    (∀ stxo ∈ stxos, spent[stxo.1]? = none) ∧
      ∀ o i, spent'[o]? = some i ↔ spent[o]? = some i ∨ (o, i) ∈ stxos := by
  unfold putStxos at h
  induction stxos generalizing spent with
  | nil =>
      rw [← Except.ok.inj h]
      simp
  | cons stxo stxos ih =>
      obtain ⟨spent₁, hfirst, hrest⟩ := bind_eq_ok_iff.mp h
      simp only [putStxo, bind_eq_ok_iff, ensure_eq_ok_iff, exists_const] at hfirst
      obtain ⟨habsent, hinsert⟩ := hfirst
      obtain rfl := Except.ok.inj hinsert
      obtain ⟨hnew, hrows⟩ := ih hrest
      constructor
      · intro s hs
        rcases List.mem_cons.mp hs with rfl | hs
        · exact habsent
        · have := hnew s hs
          grind
      · intro o i
        rw [hrows, List.mem_cons]
        grind

theorem mem_stxosOf {inputs : List OutPoint} {o : OutPoint} {i : InPoint} :
    (o, i) ∈ stxosOf txid inputs ↔ ∃ vin, inputs[vin]? = some o ∧ i = .regular txid vin := by
  simp only [stxosOf, List.mem_map, Prod.exists, Prod.mk.injEq, List.mem_zipIdx_iff_getElem?]
  grind

theorem nodup_of_putStxos {spent spent' : Table OutPoint InPoint} {inputs : List OutPoint}
    (h : putStxos spent (stxosOf txid inputs) = .ok spent') : inputs.Nodup := by
  have hgeneral : ∀ (stxos : List (OutPoint × InPoint)) (spent : Table OutPoint InPoint),
      putStxos spent stxos = .ok spent' → (stxos.map Prod.fst).Nodup := by
    intro stxos
    induction stxos with
    | nil => simp
    | cons stxo stxos ih =>
        intro spent h
        obtain ⟨spent₁, hfirst, hrest⟩ := bind_eq_ok_iff.mp h
        simp only [putStxo, bind_eq_ok_iff, ensure_eq_ok_iff, exists_const] at hfirst
        obtain rfl := Except.ok.inj hfirst.2
        rw [List.map_cons, List.nodup_cons]
        refine ⟨?_, ih _ hrest⟩
        intro hmem
        obtain ⟨other, hother, heq⟩ := List.mem_map.mp hmem
        have habsent := (putStxos_eq_ok hrest).1 other hother
        rw [heq] at habsent
        simp at habsent
  have hinputs : (stxosOf txid inputs).map Prod.fst = inputs := by
    simp [stxosOf, Function.comp_def]
  exact hinputs ▸ hgeneral _ _ h

theorem absent_of_putStxos {spent spent' : Table OutPoint InPoint}
    (hexact : SpentExact txs spent)
    (h : putStxos spent (stxosOf txid tx.transaction.inputs) = .ok spent')
    {old : AuthorizedTransaction F} (hold : txs[txid]? = some old)
    (hsame : old.transaction.inputs = tx.transaction.inputs) : tx.transaction.inputs = [] := by
  rw [List.eq_nil_iff_forall_not_mem]
  intro o ho
  obtain ⟨vin, hvin⟩ := List.mem_iff_getElem?.mp ho
  have hspent : spent[o]? = some (.regular txid vin) :=
    (hexact o _).mpr ⟨txid, old, vin, hold, by rw [hsame, hvin], rfl⟩
  have hmem : (o, InPoint.regular txid vin) ∈ stxosOf txid tx.transaction.inputs :=
    mem_stxosOf.mpr ⟨vin, hvin, rfl⟩
  have habsent := (putStxos_eq_ok h).1 _ hmem
  rw [hspent] at habsent
  cases habsent

theorem SpentExact.put {spent spent' : Table OutPoint InPoint} (hexact : SpentExact txs spent)
    (hsame : ∀ old, txs[txid]? = some old → old.transaction.inputs = tx.transaction.inputs)
    (h : putStxos spent (stxosOf txid tx.transaction.inputs) = .ok spent') :
    SpentExact (txs.insert txid tx) spent' := by
  intro o i
  rw [(putStxos_eq_ok h).2, hexact, mem_stxosOf]
  constructor
  · rintro (⟨txid', tx', vin, htx', hvin, rfl⟩ | ⟨vin, hvin, rfl⟩)
    · -- a resubmitted transaction has the inputs it had
      by_cases heq : txid' = txid
      · subst heq
        exact ⟨txid', tx, vin, by simp, by rw [← hsame tx' htx', hvin], rfl⟩
      · exact ⟨txid', tx', vin, by grind, hvin, rfl⟩
    · exact ⟨txid, tx, vin, by simp, hvin, rfl⟩
  · rintro ⟨txid', tx', vin, htx', hvin, rfl⟩
    by_cases heq : txid' = txid
    · subst heq
      obtain rfl : tx = tx' := by simpa using htx'
      exact .inr ⟨vin, hvin, rfl⟩
    · exact .inl ⟨txid', tx', vin, by grind, hvin, rfl⟩

theorem SpentExact.remove {spent : Table OutPoint InPoint} (hexact : SpentExact txs spent)
    (htx : txs[txid]? = some tx) :
    SpentExact (txs.erase txid) (deleteStxos spent tx.transaction.inputs) := by
  intro o i
  rw [deleteStxos, lookup_foldl_erase]
  by_cases ho : o ∈ tx.transaction.inputs
  · obtain ⟨vin, hvin⟩ := List.mem_iff_getElem?.mp ho
    have hmine := (hexact o (.regular txid vin)).mpr ⟨txid, tx, vin, htx, hvin, rfl⟩
    simp only [ho, if_true, reduceCtorEq, false_iff]
    rintro ⟨txid', tx', vin', htx', hvin', rfl⟩
    -- the output has one spender, and that one is gone
    have hother := (hexact o (.regular txid' vin')).mpr
      ⟨txid', tx', vin', by grind, hvin', rfl⟩
    rw [hmine, Option.some.injEq, InPoint.regular.injEq] at hother
    grind
  · rw [if_neg ho, hexact]
    constructor
    · rintro ⟨txid', tx', vin, htx', hvin, rfl⟩
      have hne : txid' ≠ txid := by
        rintro rfl
        rw [htx, Option.some.injEq] at htx'
        exact ho (htx' ▸ List.mem_iff_getElem?.mpr ⟨vin, hvin⟩)
      exact ⟨txid', tx', vin, by grind, hvin, rfl⟩
    · rintro ⟨txid', tx', vin, htx', hvin, rfl⟩
      exact ⟨txid', tx', vin, by grind, hvin, rfl⟩

theorem SpentExact.unique {spent : Table OutPoint InPoint} (hexact : SpentExact txs spent)
    {txid' : Txid} {tx' : AuthorizedTransaction F} {o : OutPoint}
    (htx : txs[txid]? = some tx) (htx' : txs[txid']? = some tx')
    (ho : o ∈ tx.transaction.inputs) (ho' : o ∈ tx'.transaction.inputs) : txid = txid' := by
  obtain ⟨vin, hvin⟩ := List.mem_iff_getElem?.mp ho
  obtain ⟨vin', hvin'⟩ := List.mem_iff_getElem?.mp ho'
  have hmine := (hexact o (.regular txid vin)).mpr ⟨txid, tx, vin, htx, hvin, rfl⟩
  have hother := (hexact o (.regular txid' vin')).mpr ⟨txid', tx', vin', htx', hvin', rfl⟩
  rw [hmine, Option.some.injEq, InPoint.regular.injEq] at hother
  exact hother.1

/-- The pending claims are exactly the claims of the pooled transactions. -/
def ClaimsExact (txs : Table Txid (AuthorizedTransaction F))
    (claims : Table DecisionId Txid) : Prop :=
  ∀ d txid, claims[d]? = some txid ↔
    ∃ tx : AuthorizedTransaction F, txs[txid]? = some tx ∧ d ∈ tx.transaction.claimedIds

theorem putDecisionClaims_eq_ok {claims claims' : Table DecisionId Txid} {ids : List DecisionId}
    (h : putDecisionClaims txid claims ids = .ok claims') :
    (∀ d ∈ ids, ∀ existing, claims[d]? = some existing → existing = txid) ∧
      ∀ d, claims'[d]? = if d ∈ ids then some txid else claims[d]? := by
  simp only [putDecisionClaims, bind_eq_ok_iff, forM_eq_ok_iff] at h
  obtain ⟨_, hcheck, hput⟩ := h
  constructor
  · intro d hd existing hexisting
    simpa [checkDecisionClaim, hexisting] using hcheck d hd
  · intro d
    rw [← Except.ok.inj hput, lookup_foldl_insert]

theorem ClaimsExact.put {claims claims' : Table DecisionId Txid} (hexact : ClaimsExact txs claims)
    (hsame : ∀ old, txs[txid]? = some old →
      old.transaction.claimedIds = tx.transaction.claimedIds)
    (h : putDecisionClaims txid claims tx.transaction.claimedIds = .ok claims') :
    ClaimsExact (txs.insert txid tx) claims' := by
  obtain ⟨hfree, hrows⟩ := putDecisionClaims_eq_ok h
  intro d txid'
  rw [hrows]
  by_cases heq : txid' = txid
  · subst heq
    have hown : d ∉ tx.transaction.claimedIds → claims[d]? ≠ some txid' := by
      intro hd hclaim
      obtain ⟨old, hold, hmem⟩ := (hexact d txid').mp hclaim
      exact hd (hsame old hold ▸ hmem)
    by_cases hd : d ∈ tx.transaction.claimedIds <;> simp [hd, hown]
  · have hlookup : (txs.insert txid tx)[txid']? = txs[txid']? := by grind
    rw [hlookup, ← hexact]
    by_cases hd : d ∈ tx.transaction.claimedIds
    · have := hfree d hd txid'
      grind
    · simp [hd]

theorem ClaimsExact.remove {claims : Table DecisionId Txid} (hexact : ClaimsExact txs claims)
    (htx : txs[txid]? = some tx) :
    ClaimsExact (txs.erase txid) (deleteDecisionClaims claims tx.transaction.claimedIds) := by
  intro d txid'
  rw [deleteDecisionClaims, lookup_foldl_erase]
  by_cases heq : txid' = txid
  · subst heq
    have hown : d ∉ tx.transaction.claimedIds → claims[d]? ≠ some txid' := by
      intro hd hclaim
      obtain ⟨old, hold, hmem⟩ := (hexact d txid').mp hclaim
      rw [htx, Option.some.injEq] at hold
      exact hd (hold ▸ hmem)
    by_cases hd : d ∈ tx.transaction.claimedIds <;> simp [hd, hown]
  · have hlookup : (txs.erase txid)[txid']? = txs[txid']? := by grind
    rw [hlookup, ← hexact]
    by_cases hd : d ∈ tx.transaction.claimedIds
    · have hmine := (hexact d txid).mpr ⟨tx, htx, hd⟩
      grind
    · simp [hd]

section

variable {L : Library F} {addresses : Table Address (Finset Txid)}

/-- The set of an address after a transaction is added to it. -/
def withTxid (txid : Txid) (txids : Option (Finset Txid)) : Option (Finset Txid) :=
  some (insert txid (txids.getD ∅))

/-- The set of an address after a transaction is taken from it. -/
def withoutTxid (txid : Txid) (txids : Option (Finset Txid)) : Option (Finset Txid) :=
  (txids.map (Finset.erase · txid)).filter (· ≠ ∅)

theorem lookup_indexTxAddresses (a : Address) :
    (indexTxAddresses L txid addresses tx)[a]? =
      if a ∈ tx.relevantAddresses L then withTxid txid addresses[a]? else addresses[a]? := by
  refine lookup_foldl ?_ ?_ _ addresses a
  · intro t k k'
    simp only [assocTxidWithAddress, withTxid]
    grind
  · intro x
    simp [withTxid]

theorem lookup_unindexTxAddresses (a : Address) :
    (unindexTxAddresses L txid addresses tx)[a]? =
      if a ∈ tx.relevantAddresses L then withoutTxid txid addresses[a]? else addresses[a]? := by
  refine lookup_foldl ?_ ?_ _ addresses a
  · intro t k k'
    unfold unassocTxidWithAddress withoutTxid
    split
    · grind
    · split <;> grind
  · intro x
    cases x with
    | none => rfl
    | some txids =>
        by_cases hempty : txids.erase txid = ∅ <;> simp [withoutTxid, hempty, Option.filter]

/-- The transactions an address is associated with. -/
def txidsOf (addresses : Table Address (Finset Txid)) (a : Address) : Finset Txid :=
  addresses[a]?.getD ∅

/-- The address index holds exactly the pooled transactions that concern an address, and
no empty set. -/
structure AddressesExact (L : Library F) (txs : Table Txid (AuthorizedTransaction F))
    (addresses : Table Address (Finset Txid)) : Prop where
  mem_iff : ∀ a txid, txid ∈ txidsOf addresses a ↔
    ∃ tx : AuthorizedTransaction F, txs[txid]? = some tx ∧ a ∈ tx.relevantAddresses L
  nonempty : ∀ a : Address, addresses[a]? ≠ some ∅

theorem AddressesExact.put (hexact : AddressesExact L txs addresses)
    (hkeeps : ∀ old, txs[txid]? = some old →
      old.relevantAddresses L ⊆ tx.relevantAddresses L) :
    AddressesExact L (txs.insert txid tx) (indexTxAddresses L txid addresses tx) where
  mem_iff a txid' := by
    have hbefore := hexact.mem_iff a txid'
    have hafter : txid' ∈ txidsOf (indexTxAddresses L txid addresses tx) a ↔
        (a ∈ tx.relevantAddresses L ∧ txid' = txid) ∨ txid' ∈ txidsOf addresses a := by
      rw [txidsOf, lookup_indexTxAddresses]
      by_cases ha : a ∈ tx.relevantAddresses L <;> simp [ha, withTxid, txidsOf]
    rw [hafter, hbefore]
    by_cases heq : txid' = txid
    · subst heq
      constructor
      · rintro (⟨ha, -⟩ | ⟨old, hold, ha⟩)
        · exact ⟨tx, by simp, ha⟩
        · exact ⟨tx, by simp, hkeeps old hold ha⟩
      · rintro ⟨tx', htx', ha⟩
        obtain rfl : tx = tx' := by simpa using htx'
        exact .inl ⟨ha, rfl⟩
    · have hlookup : (txs.insert txid tx)[txid']? = txs[txid']? := by grind
      simp [heq, hlookup]
  nonempty a := by
    rw [lookup_indexTxAddresses]
    split
    · simp [withTxid]
    · exact hexact.nonempty a

theorem AddressesExact.remove (hexact : AddressesExact L txs addresses)
    (htx : txs[txid]? = some tx) :
    AddressesExact L (txs.erase txid) (unindexTxAddresses L txid addresses tx) where
  mem_iff a txid' := by
    have hbefore := hexact.mem_iff a txid'
    have hafter : txid' ∈ txidsOf (unindexTxAddresses L txid addresses tx) a ↔
        ¬(a ∈ tx.relevantAddresses L ∧ txid' = txid) ∧ txid' ∈ txidsOf addresses a := by
      rw [txidsOf, lookup_unindexTxAddresses]
      by_cases ha : a ∈ tx.relevantAddresses L
      · cases hset : addresses[a]? with
        | none => simp [ha, withoutTxid, txidsOf, hset]
        | some txids =>
            by_cases hempty : txids.erase txid = ∅
            · have hall : ∀ t ∈ txids, t = txid := by
                intro t ht
                by_contra hne
                have hmem : t ∈ txids.erase txid := Finset.mem_erase.mpr ⟨hne, ht⟩
                simp [hempty] at hmem
              simpa [ha, withoutTxid, txidsOf, hset, hempty, Option.filter] using
                fun hne hmem => hne (hall txid' hmem)
            · simp [ha, withoutTxid, txidsOf, hset, hempty, Option.filter]
      · simp [ha, txidsOf]
    rw [hafter, hbefore]
    by_cases heq : txid' = txid
    · subst heq
      simp [htx]
    · have hlookup : (txs.erase txid)[txid']? = txs[txid']? := by grind
      simp [heq, hlookup]
  nonempty a := by
    rw [lookup_unindexTxAddresses]
    split
    · rw [withoutTxid]
      intro hsome
      have := Option.filter_eq_some_iff.mp hsome
      simp at this
    · exact hexact.nonempty a

end

/-- The rows of the order are exactly the pooled trades, each once, under numbers that
were given out. -/
structure OrderExact (txs : Table Txid (AuthorizedTransaction F))
    (order : Table UInt64 Txid) (counter : Option UInt64) : Prop where
  trade : ∀ (n : UInt64) (txid : Txid), order[n]? = some txid →
    ∃ tx : AuthorizedTransaction F, txs[txid]? = some tx ∧ tx.transaction.isTrade = true
  row : ∀ (txid : Txid) (tx : AuthorizedTransaction F), txs[txid]? = some tx →
    tx.transaction.isTrade = true →
    ∃ n : UInt64, order[n]? = some txid
  once : ∀ (n n' : UInt64) (txid : Txid), order[n]? = some txid →
    order[n']? = some txid → n = n'
  given : ∀ n ∈ order, n ≤ counter.getD 0

theorem nextSequence_eq_ok {counter : Option UInt64} {next : UInt64}
    (h : nextSequence counter = .ok next) :
    next = counter.getD 0 + 1 ∧ counter.getD 0 < next := by
  simp only [nextSequence, bind_eq_ok_iff, ensure_eq_ok_iff, exists_const] at h
  obtain ⟨hroom, hnext⟩ := h
  obtain rfl := Except.ok.inj hnext
  refine ⟨rfl, ?_⟩
  rw [UInt64.lt_iff_toNat_lt, UInt64.toNat_add]
  simp only [UInt64.toNat_ofNat]
  omega

theorem OrderExact.next_absent {order : Table UInt64 Txid} {counter : Option UInt64}
    (hexact : OrderExact txs order counter) {next : UInt64}
    (hnext : nextSequence counter = .ok next) : order[next]? = none := by
  by_contra hrow
  have hle := hexact.given next (by grind)
  exact absurd (nextSequence_eq_ok hnext).2 (UInt64.not_lt.mpr hle)

/-- A trade that was not pooled takes the next place. -/
theorem OrderExact.putTrade {order : Table UInt64 Txid} {counter : Option UInt64}
    (hexact : OrderExact txs order counter) {next : UInt64}
    (hnext : nextSequence counter = .ok next) (hnew : txs[txid]? = none)
    (htrade : tx.transaction.isTrade = true) :
    OrderExact (txs.insert txid tx) (order.insert next txid) (some next) where
  trade n txid' hrow := by
    by_cases heq : txid' = txid
    · subst heq
      exact ⟨tx, by simp, htrade⟩
    · have hold : order[n]? = some txid' := by grind
      obtain ⟨tx', htx', htrade'⟩ := hexact.trade n txid' hold
      exact ⟨tx', by grind, htrade'⟩
  row txid' tx' htx' htrade' := by
    by_cases heq : txid' = txid
    · subst heq
      exact ⟨next, by simp⟩
    · obtain ⟨n, hn⟩ := hexact.row txid' tx' (by grind) htrade'
      have habsent := hexact.next_absent hnext
      exact ⟨n, by grind⟩
  once n n' txid' hrow hrow' := by
    have hnone : ∀ m : UInt64, order[m]? ≠ some txid := by
      intro m hm
      obtain ⟨tx', htx', -⟩ := hexact.trade m txid hm
      rw [hnew] at htx'
      cases htx'
    have := hexact.once n n' txid'
    have := hnone n
    have := hnone n'
    grind
  given n hn := by
    have hlt := (nextSequence_eq_ok hnext).2
    rw [ExtTreeMap.mem_insert] at hn
    rcases hn with hn | hn
    · obtain rfl := LawfulEqCmp.eq_of_compare hn
      exact UInt64.le_refl _
    · exact UInt64.le_of_lt (UInt64.lt_of_le_of_lt (hexact.given n hn) hlt)

theorem OrderExact.putOther {order : Table UInt64 Txid} {counter : Option UInt64}
    (hexact : OrderExact txs order counter)
    (hsame : ∀ old, txs[txid]? = some old →
      old.transaction.isTrade = tx.transaction.isTrade)
    (htrade : tx.transaction.isTrade = false) :
    OrderExact (txs.insert txid tx) order counter where
  trade n txid' hrow := by
    obtain ⟨tx', htx', htrade'⟩ := hexact.trade n txid' hrow
    have hne : txid' ≠ txid := by
      rintro rfl
      rw [hsame tx' htx', htrade] at htrade'
      cases htrade'
    exact ⟨tx', by grind, htrade'⟩
  row txid' tx' htx' htrade' := by
    have hne : txid' ≠ txid := by
      rintro rfl
      obtain rfl : tx = tx' := by simpa using htx'
      rw [htrade] at htrade'
      cases htrade'
    exact hexact.row txid' tx' (by grind) htrade'
  once := hexact.once
  given := hexact.given

theorem OrderExact.remove {order : Table UInt64 Txid} {counter : Option UInt64}
    (hexact : OrderExact txs order counter) (htx : txs[txid]? = some tx) :
    OrderExact (txs.erase txid)
      (if tx.transaction.isTrade then deleteTradeOrder order txid else order) counter := by
  have hrows : ∀ (n : UInt64) (txid' : Txid), (if tx.transaction.isTrade then
      deleteTradeOrder order txid else order)[n]? = some txid' ↔
      order[n]? = some txid' ∧ txid' ≠ txid := by
    intro n txid'
    by_cases htrade : tx.transaction.isTrade = true
    · obtain ⟨m, hm⟩ := hexact.row txid tx htx htrade
      have hfind : deleteTradeOrder order txid = order.erase m := by
        unfold deleteTradeOrder
        split
        · rename_i row hrow
          have hmem := mem_toList_iff.mp (List.mem_of_find?_eq_some hrow)
          have hval : row.2 = txid := by simpa using List.find?_some hrow
          rw [hval] at hmem
          rw [hexact.once m row.1 txid hm hmem]
        · rename_i hnone
          have := List.find?_eq_none.mp hnone (m, txid) (mem_toList_iff.mpr hm)
          simp at this
      have := hexact.once n m txid
      rw [if_pos htrade, hfind]
      grind
    · have hne : order[n]? = some txid' → txid' ≠ txid := by
        rintro hrow rfl
        obtain ⟨tx', htx', htrade'⟩ := hexact.trade n txid' hrow
        rw [htx, Option.some.injEq] at htx'
        exact htrade (htx' ▸ htrade')
      simp only [htrade, Bool.false_eq_true, if_false]
      exact ⟨fun h => ⟨h, hne h⟩, And.left⟩
  constructor
  · intro n txid' hrow
    obtain ⟨hrow, hne⟩ := (hrows n txid').mp hrow
    obtain ⟨tx', htx', htrade'⟩ := hexact.trade n txid' hrow
    exact ⟨tx', by grind, htrade'⟩
  · intro txid' tx' htx' htrade'
    obtain ⟨n, hn⟩ := hexact.row txid' tx' (by grind) htrade'
    exact ⟨n, (hrows n txid').mpr ⟨hn, by grind⟩⟩
  · intro n n' txid' hrow hrow'
    exact hexact.once n n' txid' ((hrows n txid').mp hrow).1 ((hrows n' txid').mp hrow').1
  · intro n hn
    obtain ⟨txid', hrow⟩ : ∃ txid', (if tx.transaction.isTrade then
        deleteTradeOrder order txid else order)[n]? = some txid' :=
      ⟨_, ExtTreeMap.getElem?_eq_some_getElem hn⟩
    have := ((hrows n txid').mp hrow).1
    exact hexact.given n (by grind)

section

variable {L : Library F} {p : MemPool F}

/-- Transactions are pooled under their ids, and every index holds exactly the entries of
the pooled transactions. -/
structure Indexed (L : Library F) (p : MemPool F) : Prop where
  keyed : ∀ (txid : Txid) (tx : AuthorizedTransaction F),
    p.transactions[txid]? = some tx → L.txid tx.transaction = txid
  spent : SpentExact p.transactions p.spentUtxos
  claims : ClaimsExact p.transactions p.pendingDecisionClaims
  addresses : AddressesExact L p.transactions p.addressToTxs
  order : OrderExact p.transactions p.tradeInsertionOrder p.tradeOrderCounter

/-- A put to a pool with room does not resubmit a pooled transaction without inputs that
is a trade or that loses an address. -/
def ResubmitsNothing (L : Library F) (p : MemPool F) : Op F → Prop
  | .put tx => ∀ old, p.transactions.size < maxMempoolTransactions →
      p.transactions[L.txid tx.transaction]? = some old → tx.transaction.inputs = [] →
      tx.transaction.isTrade = false ∧ old.relevantAddresses L ⊆ tx.relevantAddresses L
  | _ => True

theorem indexed_empty : Indexed L (MemPool.empty : MemPool F) where
  keyed := by simp [MemPool.empty]
  spent := by
    intro o i
    simp [MemPool.empty, SpentBy]
  claims := by
    intro d txid
    simp [MemPool.empty]
  addresses := ⟨by simp [MemPool.empty, txidsOf], by simp [MemPool.empty]⟩
  order := ⟨by simp [MemPool.empty], by simp [MemPool.empty], by simp [MemPool.empty],
    by simp [MemPool.empty]⟩

theorem Indexed.put {p' : MemPool F} (hbinds : TxidBinds L) (h : Indexed L p)
    (hok : ResubmitsNothing L p (.put tx)) (hput : p.put L tx = .ok p') : Indexed L p' := by
  have hsame : ∀ old, p.transactions[L.txid tx.transaction]? = some old →
      writtenTransaction L.scriptPubkey old.transaction =
        writtenTransaction L.scriptPubkey tx.transaction :=
    fun old hold => hbinds (h.keyed _ old hold)
  have hinputs := fun old hold => inputs_of_written (hsame old hold)
  have hids := fun old hold => claimedIds_of_written (hsame old hold)
  simp only [MemPool.put, bind_eq_ok_iff, ensure_eq_ok_iff, exists_const] at hput
  obtain ⟨hroom, claims, hclaims, spent, hspent, hput⟩ := hput
  have hempty : ∀ old, p.transactions[L.txid tx.transaction]? = some old →
      tx.transaction.inputs = [] :=
    fun old hold => absent_of_putStxos h.spent hspent hold (hinputs old hold)
  have hkeyed : ∀ (txid : Txid) (tx' : AuthorizedTransaction F),
      (p.transactions.insert (L.txid tx.transaction) tx)[txid]? = some tx' →
        L.txid tx'.transaction = txid := by
    intro txid tx' htx'
    have := h.keyed txid tx'
    grind
  have hkeeps : ∀ old, p.transactions[L.txid tx.transaction]? = some old →
      old.relevantAddresses L ⊆ tx.relevantAddresses L :=
    fun old hold => (hok old hroom hold (hempty old hold)).2
  split at hput
  · rename_i htrade
    simp only [putTradeOrder, bind_eq_ok_iff] at hput
    obtain ⟨next, hnext, hput⟩ := hput
    obtain rfl := Except.ok.inj hput
    have hnew : p.transactions[L.txid tx.transaction]? = none := by
      cases hold : p.transactions[L.txid tx.transaction]? with
      | none => rfl
      | some old =>
          have hother := (hok old hroom hold (hempty old hold)).1
          rw [htrade] at hother
          cases hother
    exact ⟨hkeyed, h.spent.put hinputs hspent, h.claims.put hids hclaims,
      h.addresses.put hkeeps, h.order.putTrade hnext hnew htrade⟩
  · rename_i htrade
    obtain rfl := Except.ok.inj hput
    exact ⟨hkeyed, h.spent.put hinputs hspent, h.claims.put hids hclaims,
      h.addresses.put hkeeps, 
        h.order.putOther (fun old hold => isTrade_of_written (hsame old hold))
          (by simpa using htrade)⟩

theorem Indexed.remove (h : Indexed L p) (htx : p.transactions[txid]? = some tx) :
    Indexed L (p.remove L txid tx) where
  keyed txid' tx' htx' := by
    have hold : p.transactions[txid']? = some tx' := by
      simp only [MemPool.remove] at htx'
      grind
    exact h.keyed txid' tx' hold
  spent := h.spent.remove htx
  claims := h.claims.remove htx
  addresses := h.addresses.remove htx
  order := h.order.remove htx

theorem deleteAll_preserves {P : MemPool F → Prop}
    (hremove : ∀ (p : MemPool F) (txid : Txid) (tx : AuthorizedTransaction F), P p →
      p.transactions[txid]? = some tx → P (p.remove L txid tx))
    (pending : List Txid) (h : P p) : P (p.deleteAll L pending) := by
  fun_induction MemPool.deleteAll L p pending with
  | case1 p => exact h
  | case2 p txid pending hnone ih => exact ih h
  | case3 p txid pending tx hsome ih => exact ih (hremove p txid tx h hsome)

theorem evict_preserves {P : MemPool F → Prop}
    (hdelete : ∀ (p : MemPool F) (txid : Txid), P p → P (p.delete L txid))
    (confirmedTx : Transaction F) (h : P p) :
    P (p.evictDecisionClaimConflicts L confirmedTx).1 := by
  unfold MemPool.evictDecisionClaimConflicts
  refine List.foldlRecOn (motive := fun acc : MemPool F × List Txid => P acc.1) _ _ h ?_
  intro acc hacc d _
  unfold evictClaimant
  split
  · split
    · exact hacc
    · exact hdelete acc.1 _ hacc
  · exact hacc

theorem step_preserves {P : MemPool F → Prop} {op : Op F}
    (hput : ∀ tx p', op = .put tx → p.put L tx = .ok p' → P p')
    (hremove : ∀ (p : MemPool F) (txid : Txid) (tx : AuthorizedTransaction F), P p →
      p.transactions[txid]? = some tx → P (p.remove L txid tx))
    (h : P p) : P (p.step L op) := by
  cases op with
  | put tx =>
      cases hresult : p.put L tx with
      | error e => simpa [MemPool.step, hresult, Except.toOption] using h
      | ok p' => simpa [MemPool.step, hresult, Except.toOption] using hput tx p' rfl hresult
  | delete txid => exact deleteAll_preserves hremove [txid] h
  | evictDecisionClaimConflicts confirmedTx =>
      exact evict_preserves (fun p txid hp => deleteAll_preserves hremove [txid] hp)
        confirmedTx h

theorem Indexed.step {op : Op F} (hbinds : TxidBinds L) (h : Indexed L p)
    (hok : ResubmitsNothing L p op) : Indexed L (p.step L op) := by
  refine step_preserves ?_ (fun p txid tx hp htx => hp.remove htx) h
  rintro tx p' rfl hput
  exact h.put hbinds hok hput

/-- In every history whose puts resubmit nothing the indexes are exact, and no two pooled
transactions spend the same output. -/
theorem indexed_of_history (hbinds : TxidBinds L) {queue : List Txid}
    (h : History L (ResubmitsNothing L) queue p) :
    Indexed L p ∧ ∀ (txid txid' : Txid) (tx tx' : AuthorizedTransaction F) (o : OutPoint),
      p.transactions[txid]? = some tx → p.transactions[txid']? = some tx' →
        o ∈ tx.transaction.inputs → o ∈ tx'.transaction.inputs → txid = txid' := by
  have hindexed : Indexed L p := by
    induction h with
    | start => exact indexed_empty
    | step _ hok ih => exact ih.step hbinds hok
  refine ⟨hindexed, ?_⟩
  intro txid txid' tx tx' o htx htx' ho ho'
  exact hindexed.spent.unique htx htx' ho ho'

theorem step_put_inputless (hinputs : tx.transaction.inputs = [])
    (htrade : tx.transaction.isTrade = true)
    (hroom : p.transactions.size < maxMempoolTransactions) {next : UInt64}
    (hnext : nextSequence p.tradeOrderCounter = .ok next) :
    p.step L (.put tx) =
      ⟨p.transactions.insert (L.txid tx.transaction) tx, p.spentUtxos,
        indexTxAddresses L (L.txid tx.transaction) p.addressToTxs tx, p.pendingDecisionClaims,
        p.tradeInsertionOrder.insert next (L.txid tx.transaction), some next⟩ := by
  have hclaims : tx.transaction.claimedIds = [] := by
    unfold Transaction.isTrade at htrade
    unfold Transaction.claimedIds Transaction.claimPayloads
    split at htrade <;> simp_all
  have hnoClaims : putDecisionClaims (L.txid tx.transaction) p.pendingDecisionClaims [] =
      .ok p.pendingDecisionClaims := rfl
  have hnoStxos : putStxos p.spentUtxos (stxosOf (L.txid tx.transaction) []) =
      .ok p.spentUtxos := rfl
  simp only [MemPool.step, MemPool.put, hclaims, hinputs, hnoClaims, hnoStxos,
    ensure_pos hroom, ok_bind, htrade, if_true, putTradeOrder, hnext, Except.toOption,
    Option.getD_some]

/-- The queue and the pool after a list of operations on the empty pool. -/
def afterOps (L : Library F) (ops : List (Op F)) : List Txid × MemPool F :=
  ops.foldl (fun s op => (queueAfter L s.2 op s.1, s.2.step L op)) ([], .empty)

theorem afterOps_snoc (ops : List (Op F)) (op : Op F) :
    afterOps L (ops ++ [op]) =
      (queueAfter L (afterOps L ops).2 op (afterOps L ops).1,
        (afterOps L ops).2.step L op) := by
  rw [afterOps, List.foldl_append]
  rfl

theorem history_snoc {Q : MemPool F → Op F → Prop} (ops : List (Op F)) {op : Op F}
    (h : History L Q (afterOps L ops).1 (afterOps L ops).2) (hok : Q (afterOps L ops).2 op) :
    History L Q (afterOps L (ops ++ [op])).1 (afterOps L (ops ++ [op])).2 := by
  rw [afterOps_snoc]
  exact h.step hok

/-- A pooled transaction was put, and is pooled under its id. -/
theorem put_of_pooled (ops : List (Op F)) {txid : Txid} {tx : AuthorizedTransaction F}
    (h : (afterOps L ops).2.transactions[txid]? = some tx) :
    txid = L.txid tx.transaction ∧ .put tx ∈ ops := by
  induction ops using List.reverseRecOn generalizing txid tx with
  | nil => simp [afterOps, MemPool.empty] at h
  | append_singleton ops op ih =>
      rw [afterOps_snoc] at h
      refine step_preserves (P := fun p => ∀ (txid : Txid) (tx : AuthorizedTransaction F),
        p.transactions[txid]? = some tx →
          txid = L.txid tx.transaction ∧ .put tx ∈ ops ++ [op]) ?_ ?_ ?_ txid tx h
      · rintro put p' rfl hput txid tx htx
        simp only [MemPool.put, bind_eq_ok_iff, ensure_eq_ok_iff, exists_const] at hput
        obtain ⟨-, claims, -, spent, -, hput⟩ := hput
        have hinsert : ((afterOps L ops).2.transactions.insert (L.txid put.transaction)
            put)[txid]? = some tx := by
          split at hput
          · simp only [putTradeOrder, bind_eq_ok_iff] at hput
            obtain ⟨next, -, hput⟩ := hput
            obtain rfl := Except.ok.inj hput
            exact htx
          · obtain rfl := Except.ok.inj hput
            exact htx
        rw [lookup_insert] at hinsert
        split at hinsert
        · rename_i heq
          obtain rfl := Option.some.inj hinsert
          exact ⟨heq, by simp⟩
        · have := ih hinsert
          exact ⟨this.1, List.mem_append_left _ this.2⟩
      · intro q x old hq hold txid tx htx
        refine hq txid tx ?_
        simp only [MemPool.remove, lookup_erase] at htx
        split at htx
        · cases htx
        · exact htx
      · intro txid tx htx
        have := ih htx
        exact ⟨this.1, List.mem_append_left _ this.2⟩

end

/-- A sale authenticated by the proof of its actor needs no input. -/
def sale : AuthorizedTransaction Rat :=
  ⟨⟨[], [], [], some (.trade ⟨0, 0, ⟨-1, by decide⟩, 1, 0, none, 0⟩)⟩, [], some ⟨1, 0⟩⟩

/-- A library whose transaction ids are distinct. -/
noncomputable def poolLibrary : Library Rat := sampleLibrary numbering

theorem collisionFree_poolLibrary : CollisionFree poolLibrary :=
  collisionFree_sampleLibrary numbering_injective

/-- A payment. -/
def payment : AuthorizedTransaction Rat :=
  ⟨⟨[.deposit 1 0], [⟨1, .bitcoin 4, []⟩], [], none⟩, [⟨1, 0⟩], none⟩

/-- An output for another owner that no input pays for. -/
def gift : AuthorizedTransaction Rat := ⟨⟨[], [⟨2, .bitcoin 4, []⟩], [], none⟩, [], none⟩

/-- A payment and a gift are put twice, a sale is put and deleted. -/
noncomputable def busyOps : List (Op Rat) :=
  [.put sale, .put payment, .put gift, .put payment, .put gift,
    .delete (poolLibrary.txid sale.transaction)]

theorem resubmitsNothing_of_pooled {p : MemPool Rat}
    (hpooled : ∀ (txid : Txid) old, p.transactions[txid]? = some old →
      txid = poolLibrary.txid old.transaction ∧ old ∈ [sale, payment, gift])
    {tx : AuthorizedTransaction Rat} (hmem : tx ∈ [payment, gift]) :
    ResubmitsNothing poolLibrary p (.put tx) := by
  intro old _ hold hinputs
  obtain ⟨hsame, hput⟩ := hpooled _ old hold
  have htx : tx.transaction = old.transaction := numbering_injective hsame
  simp only [List.mem_cons, List.not_mem_nil, or_false] at hmem hput
  rcases hmem with rfl | rfl
  · exact absurd hinputs (by decide)
  · rcases hput with rfl | rfl | rfl
    · exact absurd htx (by decide)
    · exact absurd htx (by decide)
    · exact ⟨rfl, List.Subset.refl _⟩

theorem history_busyOps :
    History poolLibrary (ResubmitsNothing poolLibrary) (afterOps poolLibrary busyOps).1
      (afterOps poolLibrary busyOps).2 := by
  have hok (ops : List (Op Rat)) {tx : AuthorizedTransaction Rat} (hmem : tx ∈ [payment, gift])
      (hputs : ∀ old, .put old ∈ ops → old ∈ [sale, payment, gift]) :
      ResubmitsNothing poolLibrary (afterOps poolLibrary ops).2 (.put tx) := by
    refine resubmitsNothing_of_pooled ?_ hmem
    intro txid old hold
    obtain ⟨hsame, hput⟩ := put_of_pooled ops hold
    exact ⟨hsame, hputs old hput⟩
  have hsale : ResubmitsNothing poolLibrary (afterOps poolLibrary []).2 (.put sale) := by
    intro old _ hold
    simp [afterOps, MemPool.empty] at hold
  refine history_snoc [.put sale, .put payment, .put gift, .put payment, .put gift]
    (history_snoc [.put sale, .put payment, .put gift, .put payment]
      (history_snoc [.put sale, .put payment, .put gift]
        (history_snoc [.put sale, .put payment]
          (history_snoc [.put sale] (history_snoc [] .start hsale) ?_) ?_) ?_) ?_) trivial
  all_goals exact hok _ (by simp) (by simp)

theorem indexed_of_history_busy :
    History poolLibrary (ResubmitsNothing poolLibrary) (afterOps poolLibrary busyOps).1
        (afterOps poolLibrary busyOps).2 ∧
      Indexed poolLibrary (afterOps poolLibrary busyOps).2 :=
  ⟨history_busyOps, (indexed_of_history collisionFree_poolLibrary.txid history_busyOps).1⟩

/-- A sale that is put twice holds two places in the order of the trades. -/
theorem resubmitted_sale_twice_in_order :
    ¬ ∀ (queue : List Txid) (p : MemPool Rat),
      History poolLibrary (fun _ _ => True) queue p → Indexed poolLibrary p := by
  intro hall
  have hone : nextSequence none = .ok 1 := rfl
  have htwo : nextSequence (some 1) = .ok 2 := rfl
  have hfirst : MemPool.empty.step poolLibrary (.put sale) = _ :=
    step_put_inputless rfl rfl (by decide) hone
  have hstart : History poolLibrary (fun _ _ => True) _
      ((MemPool.empty.step poolLibrary (.put sale)).step poolLibrary (.put sale)) :=
    (History.start.step trivial).step trivial
  have honce := (hall _ _ hstart).order.once 1 2 (poolLibrary.txid sale.transaction)
  rw [hfirst, step_put_inputless rfl rfl (by decide) htwo] at honce
  simp only [MemPool.empty] at honce
  exact absurd (honce (by grind) (by grind)) (by decide)

end Truthcoin.MempoolIndexes
