import Truthcoin.Table

/-!
# Append logs keyed by a sequence number

A log appends a row under the successor of its last key and pops its last row.
The keys are 32-bit numbers stored as little-endian bytes, so their order agrees
with the numeric order only as long as the low byte tells them apart.
-/

namespace Truthcoin.AppendLog

open Std Truthcoin.Table

/-- The four bytes of a 32-bit number, least significant first. -/
def leBytes (n : Nat) : List Nat :=
  [n % 256, n / 256 % 256, n / 65536 % 256, n / 16777216 % 256]

theorem leBytes_injOn {a b : Nat} (ha : a < 2 ^ 32) (hb : b < 2 ^ 32)
    (h : leBytes a = leBytes b) : a = b := by
  simp only [leBytes, List.cons.injEq, and_true] at h
  omega

instance : TableKey UInt32 where
  encode n := leBytes n.toNat
  encode_injective := by
    intro a b h
    exact UInt32.toNat_inj.mp (leBytes_injOn a.toNat_lt b.toNat_lt h)

variable {V : Type}

/-- The sequence number for the next row. -/
def nextIdx (m : Table UInt32 V) : UInt32 :=
  match last m with
  | none => 0
  | some (seqIdx, _) => seqIdx + 1

/-- Put a row under the next sequence number. -/
def append (m : Table UInt32 V) (v : V) : Table UInt32 V :=
  m.insert (nextIdx m) v

/-- The log holding the given rows, newest row first. -/
def ofRows : List V → Table UInt32 V
  | [] => ∅
  | v :: vs => (ofRows vs).insert (UInt32.ofNat vs.length) v

theorem ofNat_inj_of_small {i j : Nat} (hi : i < 2 ^ 32) (hj : j < 2 ^ 32)
    (h : UInt32.ofNat i = UInt32.ofNat j) : i = j := by
  have hval := congrArg UInt32.toNat h
  rwa [UInt32.toNat_ofNat_of_lt' hi, UInt32.toNat_ofNat_of_lt' hj] at hval

theorem mem_ofRows {vs : List V} {k : UInt32} (h : k ∈ ofRows vs) :
    ∃ i < vs.length, k = UInt32.ofNat i := by
  induction vs with
  | nil => simp [ofRows] at h
  | cons v vs ih =>
      rw [ofRows, ExtTreeMap.mem_insert] at h
      rcases h with h | h
      · exact ⟨vs.length, by simp, (LawfulEqCmp.eq_of_compare h).symm⟩
      · obtain ⟨i, hi, rfl⟩ := ih h
        exact ⟨i, by simp; omega, rfl⟩

theorem ofRows_absent {vs : List V} {n : Nat} (hn : vs.length ≤ n)
    (hsmall : n < 2 ^ 32) : (ofRows vs)[UInt32.ofNat n]? = none := by
  refine getElem?_neg _ _ ?_
  intro hmem
  obtain ⟨i, hi, heq⟩ := mem_ofRows hmem
  have := ofNat_inj_of_small hsmall (by omega) heq
  omega

theorem keyCmp_isLE_of_le {i j : Nat} (hij : i ≤ j) (hj : j < 256) :
    (keyCmp (UInt32.ofNat i) (UInt32.ofNat j)).isLE := by
  have hi : i < 256 := by omega
  rcases Nat.eq_or_lt_of_le hij with rfl | hlt
  · simp [keyCmp]
  · have hcmp : compare i j = .lt := Nat.compare_eq_lt.mpr hlt
    simp [keyCmp, TableKey.encode, leBytes, List.compare_cons_cons,
      Nat.mod_eq_of_lt, hi, hj, hcmp]

theorem last_ofRows {v : V} {vs : List V} (hlen : vs.length < 256) :
    last (ofRows (v :: vs)) = some (UInt32.ofNat vs.length, v) := by
  rw [last_eq_some_iff]
  refine ⟨by simp [ofRows], ?_⟩
  intro k hk
  obtain ⟨i, hi, rfl⟩ := mem_ofRows hk
  exact keyCmp_isLE_of_le (by simpa using Nat.lt_succ_iff.mp hi) hlen

theorem append_ofRows {v : V} {vs : List V} (hlen : vs.length < 256) :
    append (ofRows vs) v = ofRows (v :: vs) := by
  cases vs with
  | nil => simp [append, nextIdx, ofRows]
  | cons w ws =>
      have hlast : last (ofRows (w :: ws)) = some (UInt32.ofNat ws.length, w) :=
        last_ofRows (by simp at hlen; omega)
      simp only [append, nextIdx, hlast]
      conv_rhs => rw [ofRows]
      congr 1
      rw [List.length_cons, UInt32.ofNat_add]
      rfl

theorem erase_last_ofRows {v : V} {vs : List V} (hlen : vs.length < 256) :
    (ofRows (v :: vs)).erase (UInt32.ofNat vs.length) = ofRows vs :=
  erase_insert_of_absent v (ofRows_absent le_rfl (by omega))

theorem size_ofRows {vs : List V} (hlen : vs.length ≤ 256) :
    (ofRows vs).size = vs.length := by
  induction vs with
  | nil => simp [ofRows]
  | cons v vs ih =>
      simp only [List.length_cons] at hlen ⊢
      have hlookup : (ofRows vs)[UInt32.ofNat vs.length]? = none :=
        ofRows_absent le_rfl (by omega)
      have habsent : (ofRows vs).contains (UInt32.ofNat vs.length) = false := by
        grind
      rw [ofRows, ExtTreeMap.size_insert, habsent, if_neg (by simp),
        ih (by omega)]

/-- Past the first byte boundary the new row sorts before the old last row, so
`last` keeps returning the row with sequence number 255. -/
theorem last_append_full {v w : V} {vs : List V} (hlen : vs.length = 255) :
    last (append (ofRows (w :: vs)) v) = some (255, w) := by
  have hlast : last (ofRows (w :: vs)) = some (UInt32.ofNat vs.length, w) :=
    last_ofRows (by omega)
  have happend : append (ofRows (w :: vs)) v = (ofRows (w :: vs)).insert 256 v := by
    simp only [append, nextIdx, hlast, hlen]
    rfl
  rw [happend, last_eq_some_iff]
  constructor
  · rw [ExtTreeMap.getElem?_insert, if_neg (by decide), ofRows, hlen]
    simp
  · intro k hk
    rw [ExtTreeMap.mem_insert] at hk
    rcases hk with hk | hk
    · rw [← LawfulEqCmp.eq_of_compare hk]
      decide
    · obtain ⟨i, hi, rfl⟩ := mem_ofRows hk
      exact keyCmp_isLE_of_le (j := 255) (by simp at hi; omega) (by omega)

end Truthcoin.AppendLog
