import Truthcoin.MarketRecords

/-!
# The indexes of the markets

The indexes by state, by expiry and by decision list the ids of the stored markets,
each once. Adding a market that is not stored, rewriting one that is, and deleting one
keep them that way.
-/

namespace Truthcoin.MarketIndexes

open Truthcoin.Types Truthcoin.Table Truthcoin.Fallible Truthcoin.Arithmetic
open Truthcoin.Decisions Truthcoin.Markets Truthcoin.Markets.MarketsDatabase
open Truthcoin.Blocks Truthcoin.Settlement
open Truthcoin.Apply Truthcoin.Connect Truthcoin.MarketSteps Truthcoin.SettlementSteps
open Truthcoin.MarketRecords

section Index

variable {K : Type} [TableKey K] {index : Table K (List MarketId)} {k key : K}
  {id marketId : MarketId}

/-- The ids that an index lists under a key. -/
def listed (index : Table K (List MarketId)) (key : K) : List MarketId :=
  index[key]?.getD []

theorem listed_insert_self (ids : List MarketId) : listed (index.insert key ids) key = ids := by
  simp [listed]

theorem listed_insert_of_ne (h : k ≠ key) (ids : List MarketId) :
    listed (index.insert key ids) k = listed index k := by
  have hne : ¬ keyCmp key k = .eq := by
    rw [Std.LawfulEqCmp.compare_eq_iff_eq]
    exact Ne.symm h
  simp [listed, Std.ExtTreeMap.getElem?_insert, hne]

theorem listed_erase_self : listed (index.erase key) key = [] := by
  simp [listed]

theorem listed_erase_of_ne (h : k ≠ key) : listed (index.erase key) k = listed index k := by
  have hne : ¬ keyCmp key k = .eq := by
    rw [Std.LawfulEqCmp.compare_eq_iff_eq]
    exact Ne.symm h
  simp [listed, Std.ExtTreeMap.getElem?_erase, hne]

theorem listed_indexRemove_self :
    listed (indexRemove index key marketId) key = (listed index key).filter (· ≠ marketId) := by
  unfold indexRemove
  dsimp only
  split
  · rename_i hempty
    rw [listed_erase_self]
    exact (List.isEmpty_iff.mp hempty).symm
  · rw [listed_insert_self]
    rfl

theorem listed_indexRemove_of_ne (h : k ≠ key) :
    listed (indexRemove index key marketId) k = listed index k := by
  unfold indexRemove
  dsimp only
  split
  · exact listed_erase_of_ne h
  · exact listed_insert_of_ne h _

theorem listed_indexAdd_self :
    listed (indexAdd index key marketId) key =
      if marketId ∈ listed index key then listed index key
      else listed index key ++ [marketId] := by
  have hadd : indexAdd index key marketId =
      if marketId ∈ listed index key then index
      else index.insert key (listed index key ++ [marketId]) := rfl
  rw [hadd]
  split
  · rfl
  · rw [listed_insert_self]

theorem listed_indexAdd_of_ne (h : k ≠ key) :
    listed (indexAdd index key marketId) k = listed index k := by
  unfold indexAdd
  dsimp only
  split
  · rfl
  · exact listed_insert_of_ne h _

theorem mem_indexRemove :
    id ∈ listed (indexRemove index key marketId) k ↔
      id ∈ listed index k ∧ ¬ (k = key ∧ id = marketId) := by
  by_cases hk : k = key
  · subst hk
    rw [listed_indexRemove_self]
    simp
  · rw [listed_indexRemove_of_ne hk]
    simp [hk]

theorem mem_indexAdd :
    id ∈ listed (indexAdd index key marketId) k ↔
      id ∈ listed index k ∨ k = key ∧ id = marketId := by
  by_cases hk : k = key
  · subst hk
    rw [listed_indexAdd_self]
    split
    · rename_i hmem
      constructor
      · exact Or.inl
      · rintro (hid | ⟨-, rfl⟩)
        · exact hid
        · exact hmem
    · simp
  · rw [listed_indexAdd_of_ne hk]
    simp [hk]

theorem nodup_indexRemove (h : (listed index k).Nodup) :
    (listed (indexRemove index key marketId) k).Nodup := by
  by_cases hk : k = key
  · subst hk
    rw [listed_indexRemove_self]
    exact h.filter _
  · rw [listed_indexRemove_of_ne hk]
    exact h

theorem nodup_indexAdd (h : (listed index k).Nodup) :
    (listed (indexAdd index key marketId) k).Nodup := by
  by_cases hk : k = key
  · subst hk
    rw [listed_indexAdd_self]
    split
    · exact h
    · rename_i hnew
      exact h.append (List.nodup_singleton _) (by simpa using hnew)
  · rw [listed_indexAdd_of_ne hk]
    exact h

/-- Take a market off the lists of some keys. -/
def removeFrom (marketId : MarketId) (keys : List K) (index : Table K (List MarketId)) :
    Table K (List MarketId) :=
  keys.foldl (fun index key => indexRemove index key marketId) index

/-- Put a market on the lists of some keys. -/
def addTo (marketId : MarketId) (keys : List K) (index : Table K (List MarketId)) :
    Table K (List MarketId) :=
  keys.foldl (fun index key => indexAdd index key marketId) index

theorem mem_removeFrom {keys : List K} :
    id ∈ listed (removeFrom marketId keys index) k ↔
      id ∈ listed index k ∧ ¬ (k ∈ keys ∧ id = marketId) := by
  induction keys generalizing index with
  | nil => simp [removeFrom]
  | cons key keys ih =>
      have hstep : removeFrom marketId (key :: keys) index =
          removeFrom marketId keys (indexRemove index key marketId) := rfl
      rw [hstep, ih, mem_indexRemove, List.mem_cons]
      tauto

theorem mem_addTo {keys : List K} :
    id ∈ listed (addTo marketId keys index) k ↔
      id ∈ listed index k ∨ k ∈ keys ∧ id = marketId := by
  induction keys generalizing index with
  | nil => simp [addTo]
  | cons key keys ih =>
      have hstep : addTo marketId (key :: keys) index =
          addTo marketId keys (indexAdd index key marketId) := rfl
      rw [hstep, ih, mem_indexAdd, List.mem_cons]
      tauto

theorem nodup_removeFrom {keys : List K} (h : (listed index k).Nodup) :
    (listed (removeFrom marketId keys index) k).Nodup := by
  induction keys generalizing index with
  | nil => exact h
  | cons key keys ih => exact ih (nodup_indexRemove h)

theorem nodup_addTo {keys : List K} (h : (listed index k).Nodup) :
    (listed (addTo marketId keys index) k).Nodup := by
  induction keys generalizing index with
  | nil => exact h
  | cons key keys ih => exact ih (nodup_indexAdd h)

theorem indexMove_eq (old new : Option K) :
    indexMove index marketId old new =
      addTo marketId new.toList (removeFrom marketId old.toList index) := by
  cases old <;> cases new <;> rfl

end Index

section Lists

variable {F K : Type} [TableKey K] {index : Table K (List MarketId)}
  {records : Table MarketId (Market F)} {has : Market F → K → Prop} {marketId : MarketId}
  {old : Market F}

/-- An index lists under each key the ids of the stored markets that have the key, each
once, and no other id. -/
structure Lists (index : Table K (List MarketId)) (records : Table MarketId (Market F))
    (has : Market F → K → Prop) : Prop where
  nodup : ∀ key, (listed index key).Nodup
  mem : ∀ key id, id ∈ listed index key ↔ ∃ m, records[id]? = some m ∧ has m key

theorem lists_empty : Lists (∅ : Table K (List MarketId)) (∅ : Table MarketId (Market F)) has where
  nodup key := by simp [listed]
  mem key id := by simp [listed]

theorem lookup_insert_of_ne {new : Market F} {id : MarketId} (h : id ≠ marketId) :
    (records.insert marketId new)[id]? = records[id]? := by
  have hne : ¬ keyCmp marketId id = .eq := by
    rw [Std.LawfulEqCmp.compare_eq_iff_eq]
    exact Ne.symm h
  simp [Std.ExtTreeMap.getElem?_insert, hne]

theorem lookup_erase_of_ne {id : MarketId} (h : id ≠ marketId) :
    (records.erase marketId)[id]? = records[id]? := by
  have hne : ¬ keyCmp marketId id = .eq := by
    rw [Std.LawfulEqCmp.compare_eq_iff_eq]
    exact Ne.symm h
  simp [Std.ExtTreeMap.getElem?_erase, hne]

theorem Lists.write (new : Market F) (removed added : List K) (h : Lists index records has)
    (hkeys : ∀ key, has new key ↔
      ((∃ m, records[marketId]? = some m ∧ has m key) ∧ key ∉ removed) ∨ key ∈ added) :
    Lists (addTo marketId added (removeFrom marketId removed index))
      (records.insert marketId new) has where
  nodup key := nodup_addTo (nodup_removeFrom (h.nodup key))
  mem key id := by
    rw [mem_addTo, mem_removeFrom, h.mem]
    by_cases hid : id = marketId
    · subst hid
      simp only [Std.ExtTreeMap.getElem?_insert_self, Option.some.injEq, exists_eq_left',
        and_true, hkeys]
    · simp [lookup_insert_of_ne hid, hid]

theorem Lists.add (new : Market F) (added : List K) (h : Lists index records has)
    (habsent : records[marketId]? = none)
    (hkeys : ∀ key, has new key ↔ key ∈ added) :
    Lists (addTo marketId added index) (records.insert marketId new) has := by
  apply Lists.write new [] added h
  intro key
  simp [habsent, hkeys]

theorem Lists.delete (removed : List K) (h : Lists index records has)
    (hold : records[marketId]? = some old)
    (hkeys : ∀ key, has old key → key ∈ removed) :
    Lists (removeFrom marketId removed index) (records.erase marketId) has where
  nodup key := nodup_removeFrom (h.nodup key)
  mem key id := by
    rw [mem_removeFrom, h.mem]
    by_cases hid : id = marketId
    · subst hid
      simp only [hold, Option.some.injEq, exists_eq_left', and_true,
        Std.ExtTreeMap.getElem?_erase_self, reduceCtorEq, false_and, exists_false, iff_false]
      rintro ⟨hhas, hkey⟩
      exact hkey (hkeys key hhas)
    · simp [lookup_erase_of_ne hid, hid]

theorem Lists.rewrite (new : Market F) (removed added : List K) (h : Lists index records has)
    (hold : records[marketId]? = some old)
    (hkeys : ∀ key, has new key ↔ has old key ∧ key ∉ removed ∨ key ∈ added) :
    Lists (addTo marketId added (removeFrom marketId removed index))
      (records.insert marketId new) has := by
  apply Lists.write new removed added h
  intro key
  simp [hold, hkeys]

end Lists

variable {F : Type} {L : Library F} {db db' : MarketsDatabase F} {market : Market F}

/-- The three indexes list exactly the ids of the stored markets: by the state of a
market, by its expiry and by the decisions it refers to. -/
structure IndexesExact (db : MarketsDatabase F) : Prop where
  state : Lists db.stateIndex db.markets fun m state => m.marketState = state
  expiry : Lists db.expiryIndex db.markets fun m height => m.expiresAtHeight = some height
  decision : Lists db.decisionIndex db.markets fun m d => d ∈ m.decisionIds

theorem indexesExact_empty : IndexesExact (MarketsDatabase.empty F) where
  state := lists_empty
  expiry := lists_empty
  decision := lists_empty

/-- What the indexes and the records are left with. -/
structure SameIndexes (db db' : MarketsDatabase F) : Prop where
  markets : db'.markets = db.markets
  stateIndex : db'.stateIndex = db.stateIndex
  expiryIndex : db'.expiryIndex = db.expiryIndex
  decisionIndex : db'.decisionIndex = db.decisionIndex

theorem IndexesExact.framed (hdb : IndexesExact db) (h : SameIndexes db db') :
    IndexesExact db' where
  state := by
    rw [h.stateIndex, h.markets]
    exact hdb.state
  expiry := by
    rw [h.expiryIndex, h.markets]
    exact hdb.expiry
  decision := by
    rw [h.decisionIndex, h.markets]
    exact hdb.decision

theorem IndexesExact.addMarket (hdb : IndexesExact db)
    (habsent : db.getMarket market.id = none) : IndexesExact (db.addMarket market) where
  state := by
    have hadd := hdb.state.add market [market.marketState] habsent (by simp [eq_comm])
    exact hadd
  expiry := by
    have hadd := hdb.expiry.add market market.expiresAtHeight.toList habsent (by simp)
    rw [MarketsDatabase.addMarket]
    dsimp only
    rw [indexMove_eq]
    exact hadd
  decision := hdb.decision.add market market.decisionIds habsent fun _ => Iff.rfl

theorem IndexesExact.writeMarketAndIndexes (hdb : IndexesExact db) {old : Market F}
    (hold : db.getMarket market.id = some old) :
    IndexesExact (db.writeMarketAndIndexes market) := by
  unfold MarketsDatabase.writeMarketAndIndexes
  rw [hold]
  dsimp only
  refine ⟨?_, ?_, ?_⟩
  · dsimp only
    split
    · rename_i hsame
      have hkept := hdb.state.rewrite market [] [] hold (by simp [hsame])
      exact hkept
    · rename_i hmoved
      have hmove := hdb.state.rewrite market [old.marketState] [market.marketState] hold
        (by grind)
      exact hmove
  · dsimp only
    split
    · rename_i hsame
      have hkept := hdb.expiry.rewrite market [] [] hold (by simp [hsame])
      exact hkept
    · rename_i hmoved
      rw [indexMove_eq]
      exact hdb.expiry.rewrite market _ _ hold (by grind)
  · refine hdb.decision.rewrite market _ _ hold ?_
    intro d
    simp only [List.mem_filter, decide_eq_true_eq]
    tauto

theorem IndexesExact.deleteMarket (hdb : IndexesExact db) (marketId : MarketId) :
    IndexesExact (db.deleteMarket marketId) := by
  unfold MarketsDatabase.deleteMarket
  split
  · exact hdb
  · rename_i old hold
    refine ⟨?_, ?_, ?_⟩
    · exact hdb.state.delete [old.marketState] hold (by grind)
    · dsimp only
      rw [indexMove_eq]
      exact hdb.expiry.delete _ hold (by simp)
    · exact hdb.decision.delete _ hold fun _ hd => hd

theorem IndexesExact.updateMarket (hdb : IndexesExact db) {old : Market F}
    (hold : db.getMarket market.id = some old) (h : db.updateMarket market = .ok db') :
    IndexesExact db' := by
  obtain ⟨-, rfl⟩ := updateMarket_eq_ok_iff.mp h
  exact hdb.writeMarketAndIndexes hold

end Truthcoin.MarketIndexes
