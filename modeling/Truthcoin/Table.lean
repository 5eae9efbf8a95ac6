import Mathlib

/-!
# Ordered key-value tables

A table is a finite map whose rows are ordered by the encoding of their keys,
as in an LMDB database: `last` returns the row with the greatest encoded key.
-/

namespace Truthcoin

open Std

/-- A key type with the byte string its values are stored under. -/
class TableKey (K : Type) where
  encode : K → List Nat
  encode_injective : Function.Injective encode

/-- The order of two keys is the lexicographic order of their encodings. -/
def keyCmp {K : Type} [TableKey K] (a b : K) : Ordering :=
  compare (TableKey.encode a) (TableKey.encode b)

instance {K : Type} [TableKey K] : TransCmp (keyCmp (K := K)) :=
  inferInstanceAs (TransCmp (compareOn (TableKey.encode (K := K))))

instance {K : Type} [TableKey K] : LawfulEqCmp (keyCmp (K := K)) where
  compare_self := by
    intro a
    simp [keyCmp]
  eq_of_compare := by
    intro a b h
    exact TableKey.encode_injective (by simpa [keyCmp] using h)

/-- A table with keys `K` and values `V`. -/
abbrev Table (K V : Type) [TableKey K] := ExtTreeMap K V keyCmp

namespace Table

variable {K V : Type} [TableKey K]

instance : TableKey Nat where
  encode n := [n]
  encode_injective := by
    intro a b h
    simpa using h

/-- The row with the greatest key. -/
def last (m : Table K V) : Option (K × V) :=
  m.toList.getLast?

theorem mem_iff_lookup {m : Table K V} {k : K} : k ∈ m ↔ ∃ v, m[k]? = some v := by
  constructor
  · intro hmem
    exact ⟨m[k], by grind⟩
  · rintro ⟨v, hv⟩
    grind

theorem lookup_insert [DecidableEq K] {m : Table K V} {k k' : K} {v : V} :
    (m.insert k v)[k']? = if k' = k then some v else m[k']? := by
  grind

theorem lookup_erase [DecidableEq K] {m : Table K V} {k k' : K} :
    (m.erase k)[k']? = if k' = k then none else m[k']? := by
  grind

theorem size_erase_lt {m : Table K V} {k : K} (hmem : k ∈ m) : (m.erase k).size < m.size := by
  have hpos : m.size ≠ 0 := by
    intro hzero
    have hempty := ExtTreeMap.eq_empty_iff_size_eq_zero.mpr hzero
    simp [hempty] at hmem
  have hcontains : m.contains k = true := hmem
  rw [ExtTreeMap.size_erase, if_pos hcontains]
  omega

theorem ext_lookup {m n : Table K V} (h : ∀ k : K, m[k]? = n[k]?) : m = n :=
  ExtTreeMap.ext_getElem? fun k => h k

theorem erase_insert_of_absent {m : Table K V} {k : K} (v : V)
    (h : m[k]? = none) : (m.insert k v).erase k = m := by
  apply ext_lookup
  intro k'
  grind

theorem insert_erase_of_lookup {m : Table K V} {k : K} {v : V}
    (h : m[k]? = some v) : (m.erase k).insert k v = m := by
  apply ext_lookup
  intro k'
  grind

theorem erase_of_absent {m : Table K V} {k : K} (h : m[k]? = none) :
    m.erase k = m := by
  apply ext_lookup
  intro k'
  grind

theorem insert_of_lookup {m : Table K V} {k : K} {v : V}
    (h : m[k]? = some v) : m.insert k v = m := by
  apply ext_lookup
  intro k'
  grind

/-- Sum of a weight over the values of a table. -/
def total (w : V → Nat) (m : Table K V) : Nat :=
  (m.toList.map fun row => w row.2).sum

theorem mem_toList_iff {m : Table K V} {row : K × V} :
    row ∈ m.toList ↔ m[row.1]? = some row.2 :=
  ExtTreeMap.mem_toList_iff_getElem?_eq_some

@[simp]
theorem last_empty : last (∅ : Table K V) = none := rfl

theorem isLE_last_of_mem {m : Table K V} {row : K × V} (h : last m = some row) {k : K}
    (hk : k ∈ m) : (keyCmp k row.1).isLE := by
  obtain ⟨rows, hrows⟩ := List.getLast?_eq_some_iff.mp h
  have hmem : (k, m[k]) ∈ m.toList := mem_toList_iff.mpr (by grind)
  have hsorted := ExtTreeMap.ordered_keys_toList (t := m)
  rw [hrows, List.pairwise_append] at hsorted
  rw [hrows, List.mem_append, List.mem_singleton] at hmem
  rcases hmem with hmem | hmem
  · rw [hsorted.2.2 _ hmem row (by simp)]
    rfl
  · rw [← hmem]
    exact ReflCmp.isLE_rfl

theorem last_eq_some_iff {m : Table K V} {k : K} {v : V} :
    last m = some (k, v) ↔
      m[k]? = some v ∧ ∀ k' ∈ m, (keyCmp k' k).isLE := by
  constructor
  · intro h
    exact ⟨mem_toList_iff.mp (List.mem_of_getLast? h), fun k' hk' => isLE_last_of_mem h hk'⟩
  · rintro ⟨hv, hmax⟩
    cases hlast : last m with
    | none =>
        have hempty : m.toList = [] := List.getLast?_eq_none_iff.mp hlast
        have hmem : (k, v) ∈ m.toList := mem_toList_iff.mpr hv
        simp [hempty] at hmem
    | some row =>
        obtain ⟨k', v'⟩ := row
        have hrow : m[k']? = some v' := mem_toList_iff.mp (List.mem_of_getLast? hlast)
        have hle := isLE_last_of_mem hlast (k := k) (by grind)
        have hge := hmax k' (by grind)
        obtain rfl : k' = k :=
          LawfulEqCmp.eq_of_compare (OrientedCmp.isLE_antisymm hge hle)
        rw [hrow, Option.some.injEq] at hv
        rw [hv]

theorem toList_keys_nodup (m : Table K V) : (m.toList.map Prod.fst).Nodup := by
  rw [List.nodup_iff_pairwise_ne, List.pairwise_map]
  refine ExtTreeMap.distinct_keys_toList.imp ?_
  intro a b hne heq
  simp [heq] at hne

theorem toList_nodup (m : Table K V) : m.toList.Nodup :=
  (toList_keys_nodup m).of_map _

theorem toList_insert_perm {m : Table K V} {k : K} (v : V)
    (h : m[k]? = none) : (m.insert k v).toList.Perm ((k, v) :: m.toList) := by
  rw [List.perm_ext_iff_of_nodup (toList_nodup _)]
  · rintro ⟨k', v'⟩
    simp only [ExtTreeMap.mem_toList_iff_getElem?_eq_some, List.mem_cons,
      Prod.mk.injEq]
    grind
  · refine List.nodup_cons.mpr ⟨?_, toList_nodup _⟩
    simp [ExtTreeMap.mem_toList_iff_getElem?_eq_some, h]

theorem total_insert_of_absent (w : V → Nat) {m : Table K V} {k : K} (v : V)
    (h : m[k]? = none) : total w (m.insert k v) = total w m + w v := by
  have hperm := ((toList_insert_perm v h).map fun row => w row.2).sum_eq
  simpa [total, Nat.add_comm] using hperm

theorem total_erase_of_lookup (w : V → Nat) {m : Table K V} {k : K} {v : V}
    (h : m[k]? = some v) : total w (m.erase k) + w v = total w m := by
  have habsent : (m.erase k)[k]? = none := by grind
  rw [← total_insert_of_absent w v habsent, insert_erase_of_lookup h]

theorem total_insert_le (w : V → Nat) (m : Table K V) (k : K) (v : V) :
    total w (m.insert k v) ≤ total w m + w v := by
  cases h : m[k]? with
  | none => exact (total_insert_of_absent w v h).le
  | some v' =>
      have hins : m.insert k v = (m.erase k).insert k v := by
        apply ext_lookup
        intro k'
        grind
      have herase := total_erase_of_lookup w h
      have habsent : (m.erase k)[k]? = none := by grind
      rw [hins, total_insert_of_absent w v habsent]
      omega

theorem sum_toList_row [DecidableEq K] {M : Type} [AddCommMonoid M] (m : Table K V) (k : K)
    (f : V → M) :
    (m.toList.map fun row => if row.1 = k then f row.2 else 0).sum = m[k]?.elim 0 f := by
  have : DecidableEq (K × V) := Classical.decEq _
  cases hrow : m[k]? with
  | none =>
      refine List.sum_eq_zero ?_
      intro x hx
      obtain ⟨row, hmem, rfl⟩ := List.mem_map.mp hx
      refine if_neg ?_
      rintro rfl
      rw [mem_toList_iff.mp hmem] at hrow
      cases hrow
  | some v =>
      have hmem : (k, v) ∈ m.toList := mem_toList_iff.mpr hrow
      rw [List.sum_map_eq_nsmul_single (k, v), List.count_eq_one_of_mem (toList_nodup m) hmem,
        one_nsmul, if_pos rfl, Option.elim_some]
      intro row hne hrow'
      refine if_neg ?_
      rintro rfl
      have hv : v = row.2 := Option.some.inj (hrow.symm.trans (mem_toList_iff.mp hrow'))
      exact hne (Prod.ext rfl hv.symm)

/-- In an order in which `p` holds up to a point, taking while it holds filters by it. -/
theorem takeWhile_eq_filter {α : Type} {p : α → Bool} {l : List α}
    (h : l.Pairwise fun a b => p b = true → p a = true) : l.takeWhile p = l.filter p := by
  induction l with
  | nil => rfl
  | cons a l ih =>
      obtain ⟨hhead, htail⟩ := List.pairwise_cons.mp h
      rw [List.takeWhile_cons, List.filter_cons]
      split
      · rw [ih htail]
      · rename_i ha
        refine (List.filter_eq_nil_iff.mpr ?_).symm
        exact fun b hb hpb => ha (hhead b hb hpb)

theorem toList_eq_of_sorted {m : Table K V} {rows : List (K × V)}
    (hsorted : rows.Pairwise fun a b => keyCmp a.1 b.1 = .lt)
    (hmem : ∀ row : K × V, row ∈ rows ↔ m[row.1]? = some row.2) : m.toList = rows := by
  have hsorted' : m.toList.Pairwise fun a b => keyCmp a.1 b.1 = .lt :=
    ExtTreeMap.ordered_keys_toList
  have hnodup : rows.Nodup := by
    refine hsorted.imp ?_
    rintro a b hlt rfl
    simp [keyCmp] at hlt
  have hperm : m.toList.Perm rows := by
    rw [List.perm_ext_iff_of_nodup (toList_nodup m) hnodup]
    intro row
    rw [mem_toList_iff, hmem]
  refine hperm.eq_of_pairwise ?_ hsorted' hsorted
  intro a b _ _ hab hba
  have hgt := OrientedCmp.gt_of_lt hab
  rw [hba] at hgt
  cases hgt

theorem toList_insert_last {m : Table K V} {k : K} {v : V}
    (hlast : ∀ k' ∈ m, keyCmp k' k = .lt) : (m.insert k v).toList = m.toList ++ [(k, v)] := by
  have hkey : ∀ row ∈ m.toList, keyCmp row.1 k = .lt := by
    intro row hrow
    have hlookup := mem_toList_iff.mp hrow
    exact hlast row.1 (by grind)
  have habsent : m[k]? = none := by
    by_contra hsome
    have hlt := hlast k (by grind)
    simp [keyCmp] at hlt
  refine toList_eq_of_sorted ?_ ?_
  · rw [List.pairwise_append]
    refine ⟨ExtTreeMap.ordered_keys_toList, List.pairwise_singleton _ _, ?_⟩
    intro row hrow row' hrow'
    rw [List.mem_singleton.mp hrow']
    exact hkey row hrow
  · rintro ⟨k', v'⟩
    simp only [List.mem_append, mem_toList_iff, List.mem_singleton, Prod.mk.injEq]
    grind

theorem toList_eq_filter {m m' : Table K V} {q : K × V → Bool}
    (h : ∀ k v, m'[k]? = some v ↔ m[k]? = some v ∧ q (k, v) = true) :
    m'.toList = m.toList.filter q := by
  refine toList_eq_of_sorted (ExtTreeMap.ordered_keys_toList.filter q) ?_
  rintro ⟨k, v⟩
  rw [List.mem_filter, mem_toList_iff, h]

theorem lookup_foldl [DecidableEq K] {f : Table K V → K → Table K V} {g : Option V → Option V}
    (hf : ∀ t k k', (f t k)[k']? = if k' = k then g t[k']? else t[k']?)
    (hg : ∀ x, g (g x) = g x) (l : List K) (t : Table K V) (k : K) :
    (l.foldl f t)[k]? = if k ∈ l then g t[k]? else t[k]? := by
  induction l generalizing t with
  | nil => simp
  | cons a l ih =>
      rw [List.foldl_cons, ih, hf]
      by_cases hka : k = a
      · simp [hka, hg]
      · simp [hka]

theorem lookup_foldl_insert [DecidableEq K] (v : V) (l : List K)
    (t : Table K V) (k : K) :
    (l.foldl (fun t k => t.insert k v) t)[k]? = if k ∈ l then some v else t[k]? := by
  refine lookup_foldl (g := fun _ => some v) ?_ (fun _ => rfl) l t k
  intro t k k'
  grind

theorem lookup_foldl_erase [DecidableEq K] (l : List K)
    (t : Table K V) (k : K) :
    (l.foldl (fun t k => t.erase k) t)[k]? = if k ∈ l then none else t[k]? := by
  refine lookup_foldl (g := fun _ => none) ?_ (fun _ => rfl) l t k
  intro t k k'
  grind

section

variable {W : Type} {f : Table K V → K × W → Table K V} {g : W → Option V → Option V}

theorem lookup_foldl_absent
    (hf : ∀ t row k, k ≠ row.1 → (f t row)[k]? = t[k]?) {rows : List (K × W)} {k : K}
    (hk : k ∉ rows.map Prod.fst) (t : Table K V) : (rows.foldl f t)[k]? = t[k]? := by
  induction rows generalizing t with
  | nil => rfl
  | cons row rows ih =>
      rw [List.map_cons, List.mem_cons, not_or] at hk
      rw [List.foldl_cons, ih hk.2, hf t row k hk.1]

theorem lookup_foldl_row
    (hf : ∀ t row k, k ≠ row.1 → (f t row)[k]? = t[k]?)
    (hg : ∀ t row, (f t row)[row.1]? = g row.2 t[row.1]?) {rows : List (K × W)}
    (hnodup : (rows.map Prod.fst).Nodup) {k : K} {w : W} (hrow : (k, w) ∈ rows)
    (t : Table K V) : (rows.foldl f t)[k]? = g w t[k]? := by
  induction rows generalizing t with
  | nil => exact absurd hrow List.not_mem_nil
  | cons row rows ih =>
      rw [List.map_cons, List.nodup_cons] at hnodup
      rw [List.foldl_cons]
      rcases List.mem_cons.mp hrow with rfl | hrow
      · rw [lookup_foldl_absent hf hnodup.1, hg]
      · have hne : k ≠ row.1 := by
          rintro rfl
          exact hnodup.1 (List.mem_map.mpr ⟨(row.1, w), hrow, rfl⟩)
        rw [ih hnodup.2 hrow, hf t row k hne]

theorem lookup_foldl_toList
    (hf : ∀ t row k, k ≠ row.1 → (f t row)[k]? = t[k]?)
    (hg : ∀ t row, (f t row)[row.1]? = g row.2 t[row.1]?) (updates : Table K W)
    (t : Table K V) (k : K) :
    (updates.toList.foldl f t)[k]? =
      match updates[k]? with
      | some w => g w t[k]?
      | none => t[k]? := by
  cases hupdate : updates[k]? with
  | some w =>
      have hrow : (k, w) ∈ updates.toList := mem_toList_iff.mpr hupdate
      exact lookup_foldl_row hf hg (toList_keys_nodup updates) hrow t
  | none =>
      refine lookup_foldl_absent hf ?_ t
      intro hmem
      obtain ⟨row, hrow, rfl⟩ := List.mem_map.mp hmem
      rw [mem_toList_iff.mp hrow] at hupdate
      cases hupdate

end

end Table

end Truthcoin
