import Truthcoin.Types
import Truthcoin.Fallible

/-!
# Machine arithmetic

Plain operators on fixed-width integers abort the call when they overflow, as an
index out of range does.
-/

namespace Truthcoin.Arithmetic

open Truthcoin.Types Truthcoin.Fallible

/-- `a + b` on `u64`. -/
def addU64 (a b : Nat) : Except Error Nat :=
  okOr (checkedAdd a b) .panic

/-- `checked_sub` on unsigned integers. -/
def checkedSub (a b : Nat) : Option Nat :=
  if b ≤ a then some (a - b) else none

/-- `sum` of an iterator of `u64` values. -/
def sumU64 (values : List Nat) : Except Error Nat :=
  values.foldlM addU64 0

def u32Max : Nat := 2 ^ 32 - 1

/-- `a + b` on `u32`. -/
def addU32 (a b : Nat) : Except Error Nat :=
  if a + b ≤ u32Max then .ok (a + b) else .error .panic

def i64Max : Int := 2 ^ 63 - 1
def i64Min : Int := -2 ^ 63

/-- A 64-bit signed integer. -/
abbrev I64 := {n : Int // i64Min ≤ n ∧ n ≤ i64Max}

/-- The result of an operation on `i64`. -/
def toI64 (n : Int) : Except Error I64 :=
  if h : i64Min ≤ n ∧ n ≤ i64Max then .ok ⟨n, h⟩ else .error .panic

def I64.zero : I64 := ⟨0, by decide⟩

/-- `a + b` on `i64`. -/
def addI64 (a b : I64) : Except Error I64 :=
  toI64 (a.val + b.val)

/-- `a - b` on `i64`. -/
def subI64 (a b : I64) : Except Error I64 :=
  toI64 (a.val - b.val)

/-- `-a` on `i64`. -/
def negI64 (a : I64) : Except Error I64 :=
  toI64 (-a.val)

/-- `n as i64` for a `u64` value, which keeps the bits. -/
def asI64 (n : Nat) : I64 :=
  ⟨(n : Int).bmod (2 ^ 64), by
    have hlow := Int.le_bmod (x := n) (m := 2 ^ 64) (by decide)
    have hhigh := Int.bmod_lt (x := n) (m := 2 ^ 64) (by decide)
    norm_num [i64Min, i64Max] at hlow hhigh ⊢
    omega⟩

/-- `xs[i]`. -/
def index {α : Type} (xs : List α) (i : Nat) : Except Error α :=
  okOr xs[i]? .panic

/-- `xs[i] += delta` on a vector of `i64` values. -/
def addAt (xs : List I64) (i : Nat) (delta : I64) : Except Error (List I64) := do
  let x ← index xs i
  let y ← addI64 x delta
  .ok (xs.set i y)

/-- `xs[i] -= delta` on a vector of `i64` values. -/
def subAt (xs : List I64) (i : Nat) (delta : I64) : Except Error (List I64) := do
  let x ← index xs i
  let y ← subI64 x delta
  .ok (xs.set i y)

theorem checkedAdd_eq_some_iff {a b c : Nat} :
    checkedAdd a b = some c ↔ a + b ≤ amountMax ∧ c = a + b := by
  unfold checkedAdd
  split <;> simp_all [eq_comm]

theorem addU64_eq_ok_iff {a b c : Nat} :
    addU64 a b = .ok c ↔ a + b ≤ amountMax ∧ c = a + b := by
  rw [addU64, okOr_eq_ok_iff, checkedAdd_eq_some_iff]

theorem addU32_eq_ok_iff {a b c : Nat} :
    addU32 a b = .ok c ↔ a + b ≤ u32Max ∧ c = a + b := by
  unfold addU32
  split <;> simp_all [eq_comm]

theorem checkedSub_eq_some_iff {a b c : Nat} :
    checkedSub a b = some c ↔ b ≤ a ∧ c = a - b := by
  unfold checkedSub
  split <;> simp_all [eq_comm]

theorem toI64_eq_ok_iff {n : Int} {a : I64} : toI64 n = .ok a ↔ a.val = n := by
  unfold toI64
  constructor
  · intro h
    split at h
    · rw [← Except.ok.inj h]
    · cases h
  · rintro rfl
    rw [dif_pos a.property]

theorem addI64_eq_ok_iff {a b c : I64} : addI64 a b = .ok c ↔ c.val = a.val + b.val :=
  toI64_eq_ok_iff

theorem subI64_eq_ok_iff {a b c : I64} : subI64 a b = .ok c ↔ c.val = a.val - b.val :=
  toI64_eq_ok_iff

theorem negI64_eq_ok_iff {a c : I64} : negI64 a = .ok c ↔ c.val = -a.val :=
  toI64_eq_ok_iff

theorem foldlM_addU64 {values : List Nat} {start total : Nat}
    (h : values.foldlM addU64 start = .ok total) : total = start + values.sum := by
  induction values generalizing start with
  | nil => simpa [eq_comm] using h
  | cons v values ih =>
      rw [List.foldlM_cons, bind_eq_ok_iff] at h
      obtain ⟨next, hnext, hrest⟩ := h
      obtain ⟨-, rfl⟩ := addU64_eq_ok_iff.mp hnext
      rw [ih hrest, List.sum_cons]
      omega

theorem sumU64_eq {values : List Nat} {total : Nat} (h : sumU64 values = .ok total) :
    total = values.sum := by
  rw [foldlM_addU64 h, Nat.zero_add]

theorem sumU64_ok {values : List Nat} (h : values.sum ≤ amountMax) :
    sumU64 values = .ok values.sum := by
  have hfold : ∀ start, start + values.sum ≤ amountMax →
      values.foldlM addU64 start = .ok (start + values.sum) := by
    clear h
    induction values with
    | nil => exact fun _ _ => rfl
    | cons v values ih =>
        intro start h
        rw [List.sum_cons] at h ⊢
        have hfirst : addU64 start v = .ok (start + v) := addU64_eq_ok_iff.mpr ⟨by omega, rfl⟩
        rw [List.foldlM_cons, hfirst, ok_bind, ih (start + v) (by omega), Nat.add_assoc]
  rw [sumU64, hfold 0 (by omega), Nat.zero_add]

theorem sumU64_eq_ok_iff {values : List Nat} {total : Nat} :
    sumU64 values = .ok total ↔ values.sum ≤ amountMax ∧ total = values.sum := by
  constructor
  · intro h
    have hle : ∀ start ≤ amountMax, values.foldlM addU64 start = .ok total →
        total ≤ amountMax := by
      intro start hstart hfold
      refine foldlM_preserves (P := (· ≤ amountMax)) ?_ hfold hstart
      intro v _ sum sum' _ hadd
      obtain ⟨hmax, rfl⟩ := addU64_eq_ok_iff.mp hadd
      exact hmax
    have htotal := sumU64_eq h
    exact ⟨htotal ▸ hle 0 (Nat.zero_le _) h, htotal⟩
  · rintro ⟨hle, rfl⟩
    exact sumU64_ok hle

theorem checkedSum_eq {values : List Nat} {total : Nat}
    (h : checkedSum values = some total) : total = values.sum := by
  suffices hgen : ∀ start, values.foldlM checkedAdd start = some total →
      total = start + values.sum by
    rw [hgen 0 h, Nat.zero_add]
  clear h
  induction values with
  | nil =>
      intro start h
      simpa [eq_comm] using h
  | cons v values ih =>
      intro start h
      rw [List.foldlM_cons] at h
      obtain ⟨next, hnext, hrest⟩ := Option.bind_eq_some_iff.mp h
      obtain ⟨-, rfl⟩ := checkedAdd_eq_some_iff.mp hnext
      rw [ih _ hrest, List.sum_cons]
      omega

theorem checkedSum_le {values : List Nat} {total : Nat}
    (h : checkedSum values = some total) : total ≤ amountMax := by
  suffices hgen : ∀ start ≤ amountMax, values.foldlM checkedAdd start = some total →
      total ≤ amountMax from hgen 0 (Nat.zero_le _) h
  clear h
  induction values with
  | nil =>
      intro start hstart h
      rwa [← Option.some.inj h]
  | cons v values ih =>
      intro start hstart h
      rw [List.foldlM_cons] at h
      obtain ⟨next, hnext, hrest⟩ := Option.bind_eq_some_iff.mp h
      obtain ⟨hle, rfl⟩ := checkedAdd_eq_some_iff.mp hnext
      exact ih _ hle hrest

theorem index_eq_ok_iff {α : Type} {xs : List α} {i : Nat} {x : α} :
    index xs i = .ok x ↔ xs[i]? = some x := by
  rw [index, okOr_eq_ok_iff]

theorem addAt_eq_ok_iff {xs ys : List I64} {i : Nat} {delta : I64} :
    addAt xs i delta = .ok ys ↔
      ∃ x y, xs[i]? = some x ∧ y.val = x.val + delta.val ∧ ys = xs.set i y := by
  simp only [addAt, bind_eq_ok_iff, index_eq_ok_iff, addI64_eq_ok_iff, Except.ok.injEq]
  grind

theorem subAt_eq_ok_iff {xs ys : List I64} {i : Nat} {delta : I64} :
    subAt xs i delta = .ok ys ↔
      ∃ x y, xs[i]? = some x ∧ y.val = x.val - delta.val ∧ ys = xs.set i y := by
  simp only [subAt, bind_eq_ok_iff, index_eq_ok_iff, subI64_eq_ok_iff, Except.ok.injEq]
  grind

end Truthcoin.Arithmetic
