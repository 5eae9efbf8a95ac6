import Truthcoin.AddressIndex
import Truthcoin.Reordering
import Truthcoin.SampleMarkets
import Truthcoin.ShareAccounts

/-!
# The order of hash maps

Writing the changes of a block walks hash maps and hash sets, whose order is not
fixed. The steps for two markets and for two positions can be exchanged, so every
order of the entries leads to the same state, with the same undo data up to the order
of its entries, or fails in every order.
-/

namespace Truthcoin.MapOrder

open Truthcoin.Types Truthcoin.Table Truthcoin.Fallible Truthcoin.Arithmetic
open Truthcoin.Decisions Truthcoin.Markets Truthcoin.Voting Truthcoin.Blocks
open Truthcoin.Validation Truthcoin.Settlement Truthcoin.Apply Truthcoin.Consolidation
open Truthcoin.Connect Truthcoin.ConnectTrace Truthcoin.BlockRun Truthcoin.MarketSteps
open Truthcoin.MarketRecords Truthcoin.ShareAccounts Truthcoin.Commitments
open Truthcoin.TagConnect Truthcoin.AddressIndex Truthcoin.Reordering

variable {F : Type} {L : Library F}

/-- Orders of the hash maps and hash sets that are walked when the collected changes
are written. -/
structure Orders (u : StateUpdate F) where
  updated : List MarketId
  amplified : List MarketId
  changes : List (ShareKey × I64)
  traded : List MarketId
  consolidated : List MarketId
  updated_perm : updated.Perm (updatedMarkets u)
  amplified_perm : amplified.Perm (amplifiedMarkets u)
  changes_perm : changes.Perm u.shareAccountChanges.toList
  traded_perm : traded.Perm (tradedMarkets u)
  consolidated_perm : consolidated.Perm
    (u.pendingSellPayouts.map PendingSellPayout.marketId ++
      u.pendingBuySettlements.map PendingBuySettlement.marketId).dedup

/-- The orders in which the maps of the library are walked. -/
def Orders.ofLibrary (L : Library F) (u : StateUpdate F) : Orders u where
  updated := L.order (updatedMarkets u)
  amplified := L.order (amplifiedMarkets u)
  changes := L.order u.shareAccountChanges.toList
  traded := L.order (tradedMarkets u)
  consolidated := marketsToConsolidate L u.pendingSellPayouts u.pendingBuySettlements
  updated_perm := L.order_perm _
  amplified_perm := L.order_perm _
  changes_perm := L.order_perm _
  traded_perm := L.order_perm _
  consolidated_perm := L.order_perm _

def writeMarketsIn (u : StateUpdate F) (o : Orders u) (height : Nat)
    (db : MarketsDatabase F) : Except Error (MarketsDatabase F) := do
  let db := u.marketCreations.foldl MarketsDatabase.addMarket db
  let db ← o.updated.foldlM (applyMarketUpdates u height) db
  let db ← o.amplified.foldlM (applyAmplifications u) db
  let db ← o.changes.foldlM (applyShareChange height) db
  o.traded.forM db.verifyShareInvariant
  .ok db

def consolidateIn (L : Library F) (u : StateUpdate F) (o : Orders u) (height : Nat)
    (f : Funds) : Except Error (Funds × Option ConsolidationUndoData) := do
  if o.consolidated = [] ∧ u.pendingSellInputChanges = [] then
    .ok (f, none)
  else
    let (f, entries) ← o.consolidated.foldlM
      (consolidateMarket L u.pendingSellPayouts u.pendingBuySettlements height) (f, [])
    let changeRows := u.pendingSellInputChanges.filterMap (sellInputChangeRow L)
    .ok ({ f with coins := insertRows f.coins changeRows },
      some ⟨entries, changeRows.map Prod.fst⟩)

/-- `applyAllChanges` with its maps walked in the given orders. -/
def applyAllChangesIn (L : Library F) (u : StateUpdate F) (o : Orders u) (s : State F)
    (height : Nat) : Except Error (State F) := do
  let markets ← writeMarketsIn u o height s.markets
  let voting := u.voteSubmissions.foldl VotingDatabases.putVote s.voting
  let s := { s with markets, voting }
  let (funds, undo) ← consolidateIn L u o height (fundsOf s)
  let s := withFunds s funds
  .ok { s with
    consolidationUndo := undo.elim s.consolidationUndo
      fun data => s.consolidationUndo.insert height data }

theorem applyAllChanges_eq_in (u : StateUpdate F) (s : State F) (height : Nat) :
    applyAllChanges L u s height = applyAllChangesIn L u (.ofLibrary L u) s height := rfl

section

variable {db db' : MarketsDatabase F} {height : Nat} {u : StateUpdate F}

theorem rewrites_exchange {f : MarketsDatabase F → MarketId → Except Error (MarketsDatabase F)}
    {record : MarketId → Market F → Except Error (Market F)}
    (after : MarketsDatabase F → MarketId → MarketsDatabase F)
    (hiff : ∀ {d d' : MarketsDatabase F} {m : MarketId}, Keyed d → (f d m = .ok d' ↔
      ∃ old new, d.getMarket m = some old ∧ record m old = .ok new ∧
        d' = after (putRecord d new) m))
    (hlisting : ∀ {m : MarketId} {old new : Market F}, record m old = .ok new →
      SameListing old new)
    (hafter : ∀ d m, (after d m).markets = d.markets)
    (hcomm : ∀ d x y m n, x.id = m → y.id = n → m ≠ n →
      after (putRecord (after (putRecord d x) m) y) n =
        after (putRecord (after (putRecord d y) n) x) m)
    (hdb : Keyed db) {m n : MarketId} (hne : m ≠ n) (h : (f db m >>= (f · n)) = .ok db') :
    (f db n >>= (f · m)) = .ok db' := by
  obtain ⟨d, hd, h⟩ := bind_eq_ok_iff.mp h
  obtain ⟨x, x', hx, hx', rfl⟩ := (hiff hdb).mp hd
  have hxid : x'.id = m := (hlisting hx').id.trans (hdb m x hx)
  have hkeyed : ∀ (r : Market F) (k : MarketId), Keyed (after (putRecord db r) k) :=
    fun r k => keyed_of_insert hdb (by rw [hafter]; rfl)
  obtain ⟨y, y', hy, hy', rfl⟩ := (hiff (hkeyed x' m)).mp h
  have hother : ∀ (r : Market F) (k k' : MarketId), r.id = k → k ≠ k' →
      (after (putRecord db r) k).getMarket k' = db.getMarket k' := by
    rintro r k k' rfl hk
    unfold MarketsDatabase.getMarket
    rw [hafter]
    simp [putRecord, Std.ExtTreeMap.getElem?_insert, hk]
  rw [hother x' m n hxid hne] at hy
  have hyid : y'.id = n := (hlisting hy').id.trans (hdb n y hy)
  refine bind_eq_ok_iff.mpr ⟨_, (hiff hdb).mpr ⟨y, y', hy, hy', rfl⟩, ?_⟩
  refine (hiff (hkeyed y' n)).mpr ⟨x, x', ?_, hx', hcomm db x' y' m n hxid hyid hne⟩
  rw [hother y' n m hyid hne.symm, hx]

theorem putRecord_comm (d : MarketsDatabase F) {x y : Market F} (hne : x.id ≠ y.id) :
    (d.markets.insert x.id x).insert y.id y = (d.markets.insert y.id y).insert x.id x := by
  apply ext_lookup
  intro k
  grind

theorem applyMarketUpdates_exchange (hdb : Keyed db) {m n : MarketId} (hne : m ≠ n)
    (h : (applyMarketUpdates u height db m >>= (applyMarketUpdates u height · n)) = .ok db') :
    (applyMarketUpdates u height db n >>= (applyMarketUpdates u height · m)) = .ok db' := by
  refine rewrites_exchange MarketsDatabase.clearMempoolShares
    (fun hd => applyMarketUpdates_iff hd) tradedRecord_listing (fun _ _ => rfl) ?_ hdb hne h
  rintro d x y _ _ rfl rfl hne
  have hmempool : (d.mempoolShares.erase x.id).erase y.id =
      (d.mempoolShares.erase y.id).erase x.id := by
    apply ext_lookup
    intro k
    grind
  simp only [MarketsDatabase.clearMempoolShares, putRecord, putRecord_comm d hne, hmempool]

theorem applyAmplifications_exchange (hdb : Keyed db) {m n : MarketId} (hne : m ≠ n)
    (h : (applyAmplifications u db m >>= (applyAmplifications u · n)) = .ok db') :
    (applyAmplifications u db n >>= (applyAmplifications u · m)) = .ok db' := by
  refine rewrites_exchange (fun d _ => d) (fun hd => applyAmplifications_iff hd)
    amplifiedRecord_listing (fun _ _ => rfl) ?_ hdb hne h
  rintro d x y _ _ rfl rfl hne
  simp only [putRecord, putRecord_comm d hne]

theorem writeMarketsIn_alike (o o' : Orders u) (hdb : Keyed db) :
    Alike (· = ·) (writeMarketsIn u o height db) (writeMarketsIn u o' height db) := by
  unfold writeMarketsIn
  have hcreated := hdb.addMarkets u.marketCreations
  have hdistinct : Std.Symm fun m n : MarketId => m ≠ n := ⟨fun _ _ h => h.symm⟩
  refine Alike.bind (foldlM_perm_eq hdistinct
    (fun _ _ _ hd hstep => hd.applyMarketUpdates hstep)
    (fun m n d hne hd => Alike.of_exchange
      (fun _ h => applyMarketUpdates_exchange hd hne h)
      (fun _ h => applyMarketUpdates_exchange hd hne.symm h))
    (o.updated_perm.trans o'.updated_perm.symm)
    (o.updated_perm.nodup_iff.mpr (List.nodup_dedup _)) hcreated) ?_
  rintro d _ hd - rfl
  have hupdated : Keyed d :=
    foldlM_preserves (P := Keyed) (fun _ _ _ _ hd hstep => hd.applyMarketUpdates hstep) hd hcreated
  refine Alike.bind (foldlM_perm_eq hdistinct
    (fun _ _ _ hd hstep => hd.applyAmplifications hstep)
    (fun m n d hne hd => Alike.of_exchange
      (fun _ h => applyAmplifications_exchange hd hne h)
      (fun _ h => applyAmplifications_exchange hd hne.symm h))
    (o.amplified_perm.trans o'.amplified_perm.symm)
    (o.amplified_perm.nodup_iff.mpr (List.nodup_dedup _)) hupdated) ?_
  rintro d _ - - rfl
  have hkeys : Std.Symm fun c c' : ShareKey × I64 => c.1 ≠ c'.1 := ⟨fun _ _ h => h.symm⟩
  have hpair : o.changes.Pairwise fun c c' => c.1 ≠ c'.1 :=
    (o.changes_perm.pairwise_iff fun h => h.symm).mpr
      (List.pairwise_map.mp (toList_keys_nodup _))
  refine Alike.bind (foldlM_perm_eq (I := fun _ => True) hkeys (fun _ _ _ _ _ => trivial)
    (fun c c' d hne _ => Alike.of_exchange
      (fun _ h => applyShareChange_exchange hne h)
      (fun _ h => applyShareChange_exchange hne.symm h))
    (o.changes_perm.trans o'.changes_perm.symm) hpair trivial) ?_
  rintro d _ - - rfl
  refine (forM_alike (o.traded_perm.trans o'.traded_perm.symm)).bind ?_
  rintro _ _ - - -
  exact .ok rfl

end

/-- The single changes that a consolidation makes. -/
inductive FundsOp where
  | delete (outpoint : OutPoint)
  | insert (row : CoinRow)
  | point (key : FundsKey) (outpoint : Option OutPoint)

namespace FundsOp

def run (f : Funds) : FundsOp → Funds
  | .delete outpoint => { f with coins := (f.coins.deleteUtxo outpoint).1 }
  | .insert row => { f with coins := insertRow f.coins row }
  | .point key outpoint => f.restorePointer key outpoint

/-- The two changes concern different outputs or different pointers. -/
def Apart : FundsOp → FundsOp → Prop
  | .delete o, .delete o' => o ≠ o'
  | .delete o, .insert row' => o ≠ row'.1
  | .insert row, .delete o' => row.1 ≠ o'
  | .insert row, .insert row' => row.1 ≠ row'.1
  | .point key _, .point key' _ => key ≠ key'
  | _, _ => True

end FundsOp

def runOps (f : Funds) (ops : List FundsOp) : Funds :=
  ops.foldl FundsOp.run f

theorem restorePointer_comm (f : Funds) {key key' : FundsKey} (hne : key ≠ key')
    (o o' : Option OutPoint) :
    (f.restorePointer key o).restorePointer key' o' =
      (f.restorePointer key' o').restorePointer key o := by
  have hrows : ∀ rows : Table FundsKey OutPoint,
      o'.elim ((o.elim (rows.erase key) (rows.insert key)).erase key')
          ((o.elim (rows.erase key) (rows.insert key)).insert key') =
        o.elim ((o'.elim (rows.erase key') (rows.insert key')).erase key)
          ((o'.elim (rows.erase key') (rows.insert key')).insert key) := by
    intro rows
    apply ext_lookup
    intro k
    cases o <;> cases o' <;> simp only [Option.elim_none, Option.elim_some] <;> grind
  have hpointers : ∀ (g : Funds) (k : FundsKey) (p : Option OutPoint),
      g.restorePointer k p =
        { g with pointers := p.elim (g.pointers.erase k) (g.pointers.insert k) } := by
    intro g k p
    cases p <;> rfl
  simp only [hpointers, hrows]

theorem FundsOp.run_comm (f : Funds) {a b : FundsOp} (hapart : a.Apart b) :
    b.run (a.run f) = a.run (b.run f) := by
  cases a with
  | delete o =>
      cases b with
      | delete o' => simp only [run, Coins.deleteUtxo_deleteUtxo_comm]
      | insert row =>
          simp only [run, insertRow, Coins.deleteUtxo_insertUtxo_comm (Ne.symm hapart)]
      | point key o' => cases o' <;> rfl
  | insert row =>
      cases b with
      | delete o => simp only [run, insertRow, Coins.deleteUtxo_insertUtxo_comm hapart]
      | insert row' => simp only [run, insertRow, Coins.insertUtxo_insertUtxo_comm hapart]
      | point key o => cases o <;> rfl
  | point key o =>
      cases b with
      | delete o' => cases o <;> rfl
      | insert row => cases o <;> rfl
      | point key' o' => exact restorePointer_comm f hapart o o'

theorem runOps_comm (f : Funds) {ops ops' : List FundsOp}
    (hapart : ∀ a ∈ ops, ∀ b ∈ ops', a.Apart b) :
    runOps (runOps f ops) ops' = runOps (runOps f ops') ops := by
  have hone : ∀ (f : Funds) (a : FundsOp), (∀ b ∈ ops', a.Apart b) →
      runOps (a.run f) ops' = a.run (runOps f ops') := by
    clear hapart
    intro f a ha
    induction ops' generalizing f with
    | nil => rfl
    | cons b ops' ih =>
        have hfirst := FundsOp.run_comm f (ha b (by simp))
        calc runOps (b.run (a.run f)) ops' = runOps (a.run (b.run f)) ops' := by rw [hfirst]
          _ = a.run (runOps (b.run f) ops') := ih _ fun b' hb' => ha b' (by simp [hb'])
  induction ops generalizing f with
  | nil => rfl
  | cons a ops ih =>
      change runOps (runOps (a.run f) ops) ops' = runOps (a.run (runOps f ops')) ops
      rw [ih _ fun a' ha' => hapart a' (by simp [ha']), hone f a (hapart a (by simp))]

section

variable {T : Tags} {m n : MarketId}

/-- The outpoint holds funds of the market or a payment to one of its traders. -/
def Mine (L : Library F) (T : Tags) (m : MarketId) (o : OutPoint) : Prop :=
  (∃ isFee, (T o).funds = some ⟨m, isFee⟩) ∨
    (∃ seller txid, o = sellPayoutOutpoint L m seller txid) ∨
    ∃ trader txid, o = buyChangeOutpoint L m trader txid

theorem Mine.ne (hL : CollisionFree L) (hT : TagsOf L T) (hne : m ≠ n) {o o' : OutPoint}
    (ho : Mine L T m o) (ho' : Mine L T n o') : o ≠ o' := by
  rintro rfl
  rcases ho with ⟨isFee, ho⟩ | ⟨seller, txid, rfl⟩ | ⟨trader, txid, rfl⟩
  · rcases ho' with ⟨isFee', ho'⟩ | ⟨seller, txid, rfl⟩ | ⟨trader, txid, rfl⟩
    · rw [ho, Option.some.injEq, FundsKey.mk.injEq] at ho'
      exact hne ho'.1
    · simp [hT.sellPayout] at ho
    · simp [hT.buyChange] at ho
  · rcases ho' with ⟨isFee', ho'⟩ | ⟨seller', txid', heq⟩ | ⟨trader', txid', heq⟩
    · simp [hT.sellPayout] at ho'
    · have hsource : PayoutSource.sellPayout m seller txid = .sellPayout n seller' txid' :=
        hL.payoutHash (OutPoint.payout.inj heq).1
      exact hne (PayoutSource.sellPayout.inj hsource).1
    · have hsource : PayoutSource.sellPayout m seller txid = .buyChange n trader' txid' :=
        hL.payoutHash (OutPoint.payout.inj heq).1
      cases hsource
  · rcases ho' with ⟨isFee', ho'⟩ | ⟨seller', txid', heq⟩ | ⟨trader', txid', heq⟩
    · simp [hT.buyChange] at ho'
    · have hsource : PayoutSource.buyChange m trader txid = .sellPayout n seller' txid' :=
        hL.payoutHash (OutPoint.payout.inj heq).1
      cases hsource
    · have hsource : PayoutSource.buyChange m trader txid = .buyChange n trader' txid' :=
        hL.payoutHash (OutPoint.payout.inj heq).1
      exact hne (PayoutSource.buyChange.inj hsource).1

/-- The change concerns an output or a pointer of the market. -/
def FundsOp.Belongs (L : Library F) (T : Tags) (m : MarketId) : FundsOp → Prop
  | .delete o => Mine L T m o
  | .insert row => Mine L T m row.1
  | .point key _ => key.marketId = m

theorem FundsOp.Belongs.apart (hL : CollisionFree L) (hT : TagsOf L T) (hne : m ≠ n)
    {a b : FundsOp} (ha : a.Belongs L T m) (hb : b.Belongs L T n) : a.Apart b := by
  have hkeys : ∀ {key key' : FundsKey}, key.marketId = m → key'.marketId = n → key ≠ key' := by
    rintro key _ rfl hkey' rfl
    exact hne hkey'
  cases a <;> cases b <;>
    first
      | exact trivial
      | exact Mine.ne hL hT hne ha hb
      | exact hkeys ha hb

/-- The pointers of a market and the outputs they refer to are the same. -/
def SameView (m : MarketId) (f g : Funds) : Prop :=
  ∀ isFee, f.pointers[(⟨m, isFee⟩ : FundsKey)]? = g.pointers[(⟨m, isFee⟩ : FundsKey)]? ∧
    f.rows ⟨m, isFee⟩ = g.rows ⟨m, isFee⟩

theorem rows_congr {f g : Funds} {key : FundsKey} (hpointer : f.pointers[key]? = g.pointers[key]?)
    (hutxos : ∀ o, g.pointers[key]? = some o → f.coins.utxos[o]? = g.coins.utxos[o]?) :
    f.rows key = g.rows key := by
  unfold Funds.rows
  rw [hpointer]
  split
  · rfl
  · rename_i o ho
    rw [hutxos o ho]

theorem FundsOp.Belongs.sameView (hL : CollisionFree L) (hT : TagsOf L T) (hne : m ≠ n)
    {f : Funds} (hf : ∀ isFee o, f.pointers[(⟨n, isFee⟩ : FundsKey)]? = some o → Mine L T n o)
    {a : FundsOp} (ha : a.Belongs L T m) : SameView n (a.run f) f := by
  intro isFee
  have hmine : ∀ {o o' : OutPoint}, Mine L T m o → f.pointers[(⟨n, isFee⟩ : FundsKey)]? = some o' →
      o ≠ o' := fun ho ho' => Mine.ne hL hT hne ho (hf isFee _ ho')
  cases a with
  | delete o =>
      refine ⟨rfl, rows_congr rfl ?_⟩
      intro o' ho'
      have hdiff := hmine ha ho'
      simp [run, Coins.deleteUtxo_utxos, hdiff]
  | insert row =>
      refine ⟨rfl, rows_congr rfl ?_⟩
      intro o' ho'
      have hdiff := hmine ha ho'
      simp [run, insertRow, Coins.insertUtxo_utxos, hdiff]
  | point key o =>
      have hkey : key ≠ ⟨n, isFee⟩ := by
        rintro rfl
        exact hne ha.symm
      have hpointer : ((FundsOp.point key o).run f).pointers[(⟨n, isFee⟩ : FundsKey)]? =
          f.pointers[(⟨n, isFee⟩ : FundsKey)]? := by
        cases o <;>
          simp [run, Funds.restorePointer, Funds.clearPointer, Funds.setPointer,
            Std.ExtTreeMap.getElem?_erase, Std.ExtTreeMap.getElem?_insert, hkey]
      refine ⟨hpointer, rows_congr hpointer ?_⟩
      intro o' _
      cases o <;> rfl

theorem sameView_runOps (hL : CollisionFree L) (hT : TagsOf L T) (hne : m ≠ n) {f : Funds}
    (hf : ∀ isFee o, f.pointers[(⟨n, isFee⟩ : FundsKey)]? = some o → Mine L T n o)
    {ops : List FundsOp} (hops : ∀ a ∈ ops, a.Belongs L T m) : SameView n (runOps f ops) f := by
  induction ops generalizing f with
  | nil => exact fun _ => ⟨rfl, rfl⟩
  | cons a ops ih =>
      have hfirst := (hops a (by simp)).sameView hL hT hne hf
      have hrest : SameView n (runOps (a.run f) ops) (a.run f) := by
        refine ih ?_ fun b hb => hops b (by simp [hb])
        intro isFee o ho
        exact hf isFee o ((hfirst isFee).1 ▸ ho)
      intro isFee
      exact ⟨(hrest isFee).1.trans (hfirst isFee).1, (hrest isFee).2.trans (hfirst isFee).2⟩

theorem runOps_delete (f : Funds) (os : List OutPoint) :
    runOps f (os.map .delete) = { f with coins := deleteOutpoints f.coins os } := by
  induction os generalizing f with
  | nil => rfl
  | cons o os ih => exact ih _

theorem runOps_insert (f : Funds) (rows : List CoinRow) :
    runOps f (rows.map .insert) = { f with coins := insertRows f.coins rows } := by
  induction rows generalizing f with
  | nil => rfl
  | cons row rows ih => exact ih _

theorem runOps_append (f : Funds) (ops ops' : List FundsOp) :
    runOps f (ops ++ ops') = runOps (runOps f ops) ops' :=
  List.foldl_append

/-- Renewing the funds of a key: the old outputs go, the new one and its pointer come. -/
def renewOps (L : Library F) (key : FundsKey) (height : Nat) (old : List CoinRow)
    (payments : List CoinRow) (amount : Nat) : List FundsOp :=
  (old.map Prod.fst).map .delete ++ payments.map .insert ++ [.point key none] ++
    if amount > 0 then
      [.insert (fundsRow L key height amount),
        .point key (some (.marketFunds key.marketId height key.isFee))]
    else []

theorem runOps_renewOps (f : Funds) (key : FundsKey) (height : Nat) (old payments : List CoinRow)
    (amount : Nat) :
    runOps f (renewOps L key height old payments amount) =
      let g := { f with
        coins := insertRows (deleteOutpoints f.coins (old.map Prod.fst)) payments }.clearPointer key
      if amount > 0 then g.put L key height amount else g := by
  unfold renewOps
  simp only [runOps_append, runOps_delete, runOps_insert]
  split <;> rfl

theorem renewOps_belong (hT : TagsOf L T) {key : FundsKey} (hkey : key.marketId = m)
    {height amount : Nat} {old payments : List CoinRow} (hold : ∀ row ∈ old, Mine L T m row.1)
    (hpayments : ∀ row ∈ payments, Mine L T m row.1) :
    ∀ a ∈ renewOps L key height old payments amount, a.Belongs L T m := by
  have hfunds : Mine L T m (.marketFunds key.marketId height key.isFee) := by
    refine .inl ⟨key.isFee, ?_⟩
    rw [hT.marketFunds key height, ← hkey]
  intro a ha
  simp only [renewOps, List.mem_append, List.mem_map, List.mem_singleton] at ha
  rcases ha with ((⟨o, ⟨row, hrow, rfl⟩, rfl⟩ | ⟨row, hrow, rfl⟩) | rfl) | ha
  · exact hold row hrow
  · exact hpayments row hrow
  · exact hkey
  · split at ha
    · simp only [List.mem_cons, List.not_mem_nil, or_false] at ha
      rcases ha with rfl | rfl
      · exact hfunds
      · exact hkey
    · cases ha

/-- The treasury of a market is renewed by changes of its own. -/
theorem consolidateTreasury_local (hT : TagsOf L T) {height : Nat} {w : MarketWork} {f : Funds}
    {t : TreasuryStep} (hrows : ∀ row ∈ w.treasuryRows, Mine L T m row.1)
    (hsells : ∀ p ∈ w.sells, p.marketId = m) (hbuys : ∀ b ∈ w.buys, b.marketId = m)
    (h : consolidateTreasury L height m w f = .ok t) :
    ∃ ops, (∀ a ∈ ops, a.Belongs L T m) ∧
      ∀ g, consolidateTreasury L height m w g = .ok { t with funds := runOps g ops } := by
  unfold consolidateTreasury at h ⊢
  split at h
  · rename_i hwork
    simp only [bind_eq_ok_iff, Except.ok.injEq] at h
    obtain ⟨changes, hchanges, remaining, hremaining, rfl⟩ := h
    refine ⟨renewOps L ⟨m, false⟩ height w.treasuryRows
      (w.sells.map (sellPayoutRow L) ++ changes.reduceOption) remaining,
      renewOps_belong hT rfl hrows ?_, ?_⟩
    · intro row hrow
      rcases List.mem_append.mp hrow with hsell | hchange
      · obtain ⟨p, hp, rfl⟩ := List.mem_map.mp hsell
        refine .inr (.inl ⟨p.sellerAddress, p.transactionId, ?_⟩)
        rw [← hsells p hp]
        rfl
      · obtain ⟨b, hb, hrow⟩ := exists_of_mem_mapM hchanges (List.reduceOption_mem_iff.mp hchange)
        simp only [buyChangeRow, bind_eq_ok_iff, Except.ok.injEq] at hrow
        obtain ⟨change, -, hrow⟩ := hrow
        split at hrow
        · refine .inr (.inr ⟨b.traderAddress, b.transactionId, ?_⟩)
          rw [← Option.some.inj hrow, ← hbuys b hb]
        · cases hrow
    · intro g
      rw [if_pos hwork, runOps_renewOps, hchanges, ok_bind, hremaining]
      rfl
  · rename_i hwork
    rw [← Except.ok.inj h]
    refine ⟨[], by simp, ?_⟩
    intro g
    rw [if_neg hwork]
    rfl

theorem consolidateFees_local (hT : TagsOf L T) (height : Nat) {w : MarketWork}
    (hrows : ∀ row ∈ w.feeRows, Mine L T m row.1) :
    ∃ ops new, (∀ a ∈ ops, a.Belongs L T m) ∧
      ∀ g, consolidateFees L height m w g = (runOps g ops, new) := by
  unfold consolidateFees
  split
  · rename_i hwork
    refine ⟨renewOps L ⟨m, true⟩ height w.feeRows [] w.feeTotal,
      some (.marketFunds m height true), renewOps_belong hT rfl hrows (by simp), ?_⟩
    intro g
    rw [runOps_renewOps]
    simp only [if_pos hwork.2, Coins.insertRows_nil]
  · exact ⟨[], none, by simp, fun g => rfl⟩

theorem marketWork_rows {sells : List PendingSellPayout} {buys : List PendingBuySettlement}
    {f : Funds} {w : MarketWork} (h : marketWork sells buys f m = .ok w) :
    w.treasuryRows = f.rows ⟨m, false⟩ ∧ w.feeRows = f.rows ⟨m, true⟩ ∧
      (∀ p ∈ w.sells, p.marketId = m) ∧ ∀ b ∈ w.buys, b.marketId = m := by
  simp only [marketWork, bind_eq_ok_iff, Except.ok.injEq] at h
  obtain ⟨_, -, _, -, _, -, _, -, _, -, _, -, _, -, rfl⟩ := h
  refine ⟨rfl, rfl, ?_, ?_⟩
  · intro p hp
    simpa using (List.mem_filter.mp hp).2
  · intro b hb
    simpa using (List.mem_filter.mp hb).2

theorem mine_of_rows {f : Funds} {isFee : Bool}
    (hf : ∀ isFee o, f.pointers[(⟨m, isFee⟩ : FundsKey)]? = some o → Mine L T m o) :
    ∀ row ∈ f.rows ⟨m, isFee⟩, Mine L T m row.1 := by
  intro row hrow
  unfold Funds.rows at hrow
  split at hrow
  · cases hrow
  · rename_i o ho
    cases hlookup : f.coins.utxos[o]? with
    | none => simp [hlookup] at hrow
    | some output =>
        simp only [hlookup, Option.elim_some, List.mem_singleton] at hrow
        subst hrow
        exact hf isFee o ho

theorem consolidateMarket_local (hT : TagsOf L T) {sells : List PendingSellPayout}
    {buys : List PendingBuySettlement} {height : Nat} {f : Funds}
    {entries : List ConsolidationUndoEntry} {acc : Funds × List ConsolidationUndoEntry}
    (hf : ∀ isFee o, f.pointers[(⟨m, isFee⟩ : FundsKey)]? = some o → Mine L T m o)
    (h : consolidateMarket L sells buys height (f, entries) m = .ok acc) :
    ∃ ops entry, (∀ a ∈ ops, a.Belongs L T m) ∧ acc = (runOps f ops, entries ++ [entry]) ∧
      ∀ g entries', SameView m g f →
        consolidateMarket L sells buys height (g, entries') m =
          .ok (runOps g ops, entries' ++ [entry]) := by
  simp only [consolidateMarket, bind_eq_ok_iff, Except.ok.injEq] at h
  obtain ⟨w, hwork, t, ht, rfl⟩ := h
  obtain ⟨htreasury, hfees, hsells, hbuys⟩ := marketWork_rows hwork
  obtain ⟨ops, hops, hall⟩ := consolidateTreasury_local hT
    (htreasury ▸ mine_of_rows hf) hsells hbuys ht
  obtain ⟨feeOps, new, hfeeOps, hfeeAll⟩ :=
    consolidateFees_local hT height (hfees ▸ mine_of_rows hf)
  have hfunds : t.funds = runOps f ops :=
    congrArg TreasuryStep.funds (Except.ok.inj (ht.symm.trans (hall f)))
  refine ⟨ops ++ feeOps, ⟨m, w.treasuryRows, w.feeRows,
    f.pointers[(⟨m, false⟩ : FundsKey)]?, f.pointers[(⟨m, true⟩ : FundsKey)]?,
    t.newTreasuryUtxo, new, t.sellPayoutUtxos, t.buyChangeUtxos⟩, ?_, ?_, ?_⟩
  · intro a ha
    rcases List.mem_append.mp ha with ha | ha
    · exact hops a ha
    · exact hfeeOps a ha
  · rw [hfeeAll, hfunds, runOps_append]
  · intro g entries' hview
    have hsame : marketWork sells buys g m = marketWork sells buys f m := by
      simp only [marketWork, (hview false).2, (hview true).2]
    simp only [consolidateMarket, hsame, hwork, ok_bind, hall g, hfeeAll, runOps_append,
      (hview false).1, (hview true).1]

end

section

variable {T : Tags} {u : StateUpdate F} {height : Nat}

/-- The same funds, with the undo entries in any order. -/
def SameFunds (acc acc' : Funds × List ConsolidationUndoEntry) : Prop :=
  acc.1 = acc'.1 ∧ acc.2.Perm acc'.2

theorem consolidateMarket_exchange (hL : CollisionFree L) (hT : TagsOf L T)
    {sells : List PendingSellPayout} {buys : List PendingBuySettlement}
    {acc acc' : Funds × List ConsolidationUndoEntry} {m n : MarketId} (hne : m ≠ n)
    (hacc : PointersTagged T acc.1.pointers)
    (h : (consolidateMarket L sells buys height acc m >>=
      (consolidateMarket L sells buys height · n)) = .ok acc') :
    ∃ acc'', (consolidateMarket L sells buys height acc n >>=
      (consolidateMarket L sells buys height · m)) = .ok acc'' ∧ SameFunds acc' acc'' := by
  obtain ⟨f, entries⟩ := acc
  have hmine : ∀ k isFee o, f.pointers[(⟨k, isFee⟩ : FundsKey)]? = some o → Mine L T k o :=
    fun k isFee o ho => .inl ⟨isFee, hacc _ _ ho⟩
  obtain ⟨mid, hfirst, hsecond⟩ := bind_eq_ok_iff.mp h
  obtain ⟨ops, e, hops, rfl, hall⟩ := consolidateMarket_local hT (hmine m) hfirst
  have hview : SameView n (runOps f ops) f := sameView_runOps hL hT hne (hmine n) hops
  obtain ⟨ops', e', hops', rfl, hall'⟩ := consolidateMarket_local hT
    (fun isFee o ho => hmine n isFee o ((hview isFee).1 ▸ ho)) hsecond
  have hback : SameView n f (runOps f ops) :=
    fun isFee => ⟨(hview isFee).1.symm, (hview isFee).2.symm⟩
  have hview' : SameView m (runOps f ops') f :=
    sameView_runOps hL hT hne.symm (hmine m) hops'
  refine ⟨_, bind_eq_ok_iff.mpr ⟨_, hall' f entries hback, hall _ _ hview'⟩, ?_, ?_⟩
  · exact runOps_comm f fun a ha b hb => (hops a ha).apart hL hT hne (hops' b hb)
  · simp only [List.append_assoc, List.cons_append, List.nil_append]
    exact (List.Perm.swap _ _ []).append_left entries

theorem consolidateMarket_congr {sells : List PendingSellPayout}
    {buys : List PendingBuySettlement} {acc acc' : Funds × List ConsolidationUndoEntry}
    (m : MarketId) (hsame : SameFunds acc acc') :
    Alike SameFunds (consolidateMarket L sells buys height acc m)
      (consolidateMarket L sells buys height acc' m) := by
  obtain ⟨f, entries⟩ := acc
  obtain ⟨f', entries'⟩ := acc'
  obtain ⟨rfl, hperm⟩ := hsame
  unfold consolidateMarket
  refine Alike.bind (R := (· = ·)) (.refl (fun _ => rfl) _) ?_
  rintro w _ - - rfl
  refine Alike.bind (R := (· = ·)) (.refl (fun _ => rfl) _) ?_
  rintro t _ - - rfl
  exact .ok ⟨rfl, hperm.append_right _⟩

/-- The same undo data, with the entries in any order. -/
def SameUndo (d d' : ConsolidationUndoData) : Prop :=
  d.entries.Perm d'.entries ∧ d.sellInputChangeUtxos = d'.sellInputChangeUtxos

theorem consolidateIn_alike (hL : CollisionFree L) (hT : TagsOf L T) {f : Funds}
    (hf : FundsTagged T f) (o o' : Orders u) :
    Alike (fun r r' => r.1 = r'.1 ∧ Option.Rel SameUndo r.2 r'.2)
      (consolidateIn L u o height f) (consolidateIn L u o' height f) := by
  have hperm := o.consolidated_perm.trans o'.consolidated_perm.symm
  have hnone : o.consolidated = [] ↔ o'.consolidated = [] := by
    rw [← List.length_eq_zero_iff, ← List.length_eq_zero_iff, hperm.length_eq]
  unfold consolidateIn
  by_cases hidle : o.consolidated = [] ∧ u.pendingSellInputChanges = []
  · rw [if_pos hidle, if_pos ⟨hnone.mp hidle.1, hidle.2⟩]
    exact .ok ⟨rfl, .none⟩
  · rw [if_neg hidle, if_neg fun h => hidle ⟨hnone.mpr h.1, h.2⟩]
    have hloop := foldlM_perm (R := SameFunds)
      (I := fun acc : Funds × List ConsolidationUndoEntry =>
        FundsTagged T acc.1 ∧ ∀ e ∈ acc.2, ConsolidationTagged T e)
      (f := consolidateMarket L u.pendingSellPayouts u.pendingBuySettlements height)
      (⟨fun _ _ h => Ne.symm h⟩ : Std.Symm fun m n : MarketId => m ≠ n)
      (fun _ => ⟨rfl, .refl _⟩)
      (fun _ _ _ h h' => ⟨h.1.trans h'.1, h.2.trans h'.2⟩)
      (fun m _ _ _ _ hsame => consolidateMarket_congr m hsame)
      (fun _ _ _ hacc hstep => consolidateMarket_tagged hT hacc hstep)
      ?_ hperm (o.consolidated_perm.nodup_iff.mpr (List.nodup_dedup _))
      (s := (f, [])) ⟨hf, by simp⟩
    · refine hloop.bind ?_
      rintro ⟨f₁, entries⟩ ⟨f₂, entries'⟩ - - ⟨rfl, hentries⟩
      exact .ok ⟨rfl, .some ⟨hentries, rfl⟩⟩
    · intro m n acc hne hacc
      refine .of_ok (fun acc' h => consolidateMarket_exchange hL hT hne hacc.1.pointers h) ?_
      intro acc' h
      obtain ⟨acc'', h, -⟩ := consolidateMarket_exchange hL hT hne.symm hacc.1.pointers h
      exact ⟨acc'', h⟩

/-- The same state, but for the order of the entries in the undo data of the
consolidations. -/
structure SameState (s s' : State F) : Prop where
  rest : s' = { s with consolidationUndo := s'.consolidationUndo }
  undo : ∀ h : Nat, Option.Rel SameUndo s.consolidationUndo[h]? s'.consolidationUndo[h]?

theorem writeMarketsIn_funds {o : Orders u} {db db' : MarketsDatabase F}
    (h : writeMarketsIn u o height db = .ok db') :
    db'.marketFundsUtxos = db.marketFundsUtxos := by
  simp only [writeMarketsIn, bind_eq_ok_iff, Except.ok.injEq] at h
  obtain ⟨db₁, h₁, db₂, h₂, db₃, h₃, _, -, rfl⟩ := h
  exact writes_funds h₁ h₂ h₃

theorem applyAllChangesIn_alike (hL : CollisionFree L) (hT : TagsOf L T) {s : State F}
    (hkeyed : Keyed s.markets) (hs : FundsTagged T (fundsOf s)) (o o' : Orders u) :
    Alike SameState (applyAllChangesIn L u o s height) (applyAllChangesIn L u o' s height) := by
  unfold applyAllChangesIn
  refine (writeMarketsIn_alike o o' hkeyed).bind ?_
  rintro db _ hdb - rfl
  have hfunds : FundsTagged T ⟨s.coins, db.marketFundsUtxos⟩ := by
    rw [writeMarketsIn_funds hdb]
    exact hs
  refine (consolidateIn_alike hL hT hfunds o o').bind ?_
  rintro ⟨f, undo⟩ ⟨f', undo'⟩ - - ⟨rfl, hundo⟩
  refine .ok ⟨rfl, ?_⟩
  intro h
  have hrefl : Option.Rel SameUndo s.consolidationUndo[h]? s.consolidationUndo[h]? := by
    cases s.consolidationUndo[h]? with
    | none => exact .none
    | some d => exact .some ⟨.refl _, rfl⟩
  cases hundo with
  | none => exact hrefl
  | some hsame =>
      simp only [withFunds, Option.elim_some, Std.ExtTreeMap.getElem?_insert]
      split
      · exact .some hsame
      · exact hrefl

end

section

variable [F64 F] [DecidableEq F] {config : DecisionConfig} {lib : WithdrawalBundle.BundleLib}
  {ok : State F → Block F → Prop} {okPeg : State F → TwoWayPegData → Prop}
  {chain : List (Block F)} {s : State F} {archive : Archive} {block : Block F}
  {c : Collected F}

theorem orderable_of_collect {T : Tags} (hT : TagsOf L T) (hs : Tagged T s)
    (hkeyed : Keyed s.markets) (h : collect L config archive s block = .ok c) :
    Keyed c.state.markets ∧ FundsTagged T (fundsOf c.state) := by
  simp only [collect, bind_eq_ok_iff, Except.ok.injEq] at h
  obtain ⟨pre, hpre, period, -, voting, -, _, -, applied, happlied, _, -, _, -, spent, hspent,
    rfl⟩ := h
  let t : Trace F := ⟨pre, period, voting, applied, spent, applied.state.markets,
    fundsOf applied.state, none, voting, consensusTables s, [], s, []⟩
  have hcoins := congrArg State.coins
    (startBlock_eq s block.body pre.nextHeight block.mainchainTimestamp)
  dsimp only at hcoins
  rw [hcoins] at happlied
  have happlied' : applyTransactions L (t.opened L s block) t.pre.filledTransactions t.height =
      .ok t.applied := happlied
  exact ⟨keyed_applied hkeyed happlied',
    spent_tagged hT (merkleRoot_of_prevalidate hpre) happlied' hspent hs⟩

/-- Whatever the order in which the hash maps are walked, the changes of a block lead to
the same state, with the same undo data up to the order of its entries, or they all fail. -/
theorem applyAllChanges_any_order (hL : CollisionFree L) {main : MainOutputs}
    (hrun : Run L config lib ok (fun _ data => DepositsFrom main data) chain s)
    (hcollect : collect L config archive s block = .ok c) (o : Orders c.update) :
    Alike SameState (applyAllChanges L c.update c.state c.height)
      (applyAllChangesIn L c.update o c.state c.height) := by
  have hT := tagsOf_tags hL main
  have hs : Tagged (tags L main) s :=
    tagged_of_run hT (fun _ _ h => depositsTagged_of_depositsFrom hL h) hrun
  obtain ⟨hkeyed, hfunds⟩ := orderable_of_collect hT hs (keyed_of_run hrun) hcollect
  rw [applyAllChanges_eq_in]
  exact applyAllChangesIn_alike hL hT hkeyed hfunds _ o

end

open Truthcoin.SampleMarkets

/-- Two markets are traded in one block. -/
theorem applyAllChanges_any_order_two_markets :
    ∃ s c, Run marketLibrary marketConfig sampleBundleLib (fun _ _ => True)
        (fun _ data => DepositsFrom sampleMain data)
        [marketBlock 2 createTxs, marketBlock 1 claimTxs, marketBlock 0 []] s ∧
      collect marketLibrary marketConfig heightArchive s (marketBlock 3 tradeTxs) = .ok c ∧
      (updatedMarkets c.update).length = 2 ∧
      (∃ s', applyAllChanges marketLibrary c.update c.state c.height = .ok s') ∧
      ∀ o : Orders c.update,
        Alike SameState (applyAllChanges marketLibrary c.update c.state c.height)
          (applyAllChangesIn marketLibrary c.update o c.state c.height) := by
  have hcomputed : holds marketStart (fun s =>
      holds (collect marketLibrary marketConfig heightArchive s (marketBlock 3 tradeTxs))
        fun c => decide ((updatedMarkets c.update).length = 2) &&
          holds (applyAllChanges marketLibrary c.update c.state c.height) fun _ => true) =
      true := by
    decide +kernel
  obtain ⟨s, hstart, htest⟩ := holds_iff.mp hcomputed
  obtain ⟨c, hcollect, htest⟩ := holds_iff.mp htest
  rw [Bool.and_eq_true, decide_eq_true_eq] at htest
  obtain ⟨s', happly, -⟩ := holds_iff.mp htest.2
  have hrun := (chain_of_marketStart hstart).run
  exact ⟨s, c, hrun, hcollect, htest.1, ⟨s', happly⟩,
    applyAllChanges_any_order (collisionFree_knownLibrary _) hrun hcollect⟩

end Truthcoin.MapOrder
