import Mathlib

/-!
# Permutations by number

In the factorial number system the first digit of a number below `n!` picks one of `n` items
and the rest of the number orders the others. So the numbers below `n!` are the permutations
of a list of `n` items: each number gives one, and no permutation is left out.
-/

namespace Truthcoin.Lehmer

open Nat

variable {α : Type}

/-- The permutation with a number, of a list of the given length. -/
def permute : Nat → List α → Nat → List α
  | 0, _, _ => []
  | n + 1, xs, k =>
      xs[k / n !]?.elim [] fun x => x :: permute n (xs.eraseIdx (k / n !)) (k % n !)

theorem div_factorial_lt {n k : Nat} (hk : k < (n + 1)!) : k / n ! < n + 1 := by
  rw [factorial_succ] at hk
  exact Nat.div_lt_of_lt_mul (by rwa [mul_comm])

theorem permute_succ {n k : Nat} {xs : List α} (hlength : xs.length = n + 1)
    (hk : k < (n + 1)!) :
    ∃ x, xs[k / n !]? = some x ∧
      permute (n + 1) xs k = x :: permute n (xs.eraseIdx (k / n !)) (k % n !) := by
  have hlt : k / n ! < xs.length := hlength ▸ div_factorial_lt hk
  refine ⟨xs[k / n !], List.getElem?_eq_getElem hlt, ?_⟩
  rw [permute, List.getElem?_eq_getElem hlt, Option.elim_some]

theorem length_eraseIdx_succ {n i : Nat} {xs : List α} (hlength : xs.length = n + 1)
    (hi : i < n + 1) : (xs.eraseIdx i).length = n := by
  rw [List.length_eraseIdx_of_lt (hlength ▸ hi), hlength, Nat.add_sub_cancel]

theorem permute_perm {n k : Nat} {xs : List α} (hlength : xs.length = n) (hk : k < n !) :
    (permute n xs k).Perm xs := by
  induction n generalizing xs k with
  | zero => rw [List.length_eq_zero_iff.mp hlength, permute]
  | succ n ih =>
      obtain ⟨x, hx, hpermute⟩ := permute_succ hlength hk
      obtain ⟨hlt, rfl⟩ := List.getElem?_eq_some_iff.mp hx
      have hrest := ih (length_eraseIdx_succ hlength (div_factorial_lt hk))
        (Nat.mod_lt k (factorial_pos n))
      rw [hpermute]
      exact (hrest.cons _).trans (List.getElem_cons_eraseIdx_perm hlt)

theorem permute_injective {n k k' : Nat} {xs : List α} (hlength : xs.length = n)
    (hnodup : xs.Nodup) (hk : k < n !) (hk' : k' < n !)
    (h : permute n xs k = permute n xs k') : k = k' := by
  induction n generalizing xs k k' with
  | zero =>
      rw [factorial_zero] at hk hk'
      omega
  | succ n ih =>
      obtain ⟨x, hx, hpermute⟩ := permute_succ hlength hk
      obtain ⟨x', hx', hpermute'⟩ := permute_succ hlength hk'
      rw [hpermute, hpermute', List.cons.injEq] at h
      obtain ⟨rfl, hrest⟩ := h
      have hlt : k / n ! < xs.length := (List.getElem?_eq_some_iff.mp hx).1
      have hdigit : k / n ! = k' / n ! :=
        (List.getElem?_inj hlt hnodup).mp (hx.trans hx'.symm)
      rw [← hdigit] at hrest
      have hmod : k % n ! = k' % n ! :=
        ih (length_eraseIdx_succ hlength (div_factorial_lt hk)) (hnodup.eraseIdx _)
          (Nat.mod_lt k (factorial_pos n)) (Nat.mod_lt k' (factorial_pos n)) hrest
      rw [← Nat.div_add_mod k (n !), ← Nat.div_add_mod k' (n !), hdigit, hmod]

theorem exists_permute {n : Nat} {xs ys : List α} (hlength : xs.length = n)
    (h : ys.Perm xs) : ∃ k < n !, permute n xs k = ys := by
  induction n generalizing xs ys with
  | zero =>
      rw [List.length_eq_zero_iff.mp hlength, List.perm_nil] at h
      exact ⟨0, factorial_pos 0, h.symm⟩
  | succ n ih =>
      cases ys with
      | nil =>
          rw [List.nil_perm.mp h] at hlength
          cases hlength
      | cons y ys =>
          obtain ⟨i, hi, rfl⟩ := List.getElem_of_mem (h.subset List.mem_cons_self)
          have hrest : ys.Perm (xs.eraseIdx i) :=
            (h.trans (List.getElem_cons_eraseIdx_perm hi).symm).cons_inv
          obtain ⟨k, hk, rfl⟩ := ih (length_eraseIdx_succ hlength (hlength ▸ hi)) hrest
          have hdiv : (i * n ! + k) / n ! = i := by
            rw [mul_comm, Nat.mul_add_div (factorial_pos n), Nat.div_eq_of_lt hk, add_zero]
          have hmod : (i * n ! + k) % n ! = k := by
            rw [mul_comm, Nat.mul_add_mod, Nat.mod_eq_of_lt hk]
          refine ⟨i * n ! + k, ?_, ?_⟩
          · have hi' : i ≤ n := by omega
            rw [factorial_succ]
            calc i * n ! + k < i * n ! + n ! := by omega
              _ = (i + 1) * n ! := (Nat.succ_mul i (n !)).symm
              _ ≤ (n + 1) * n ! := Nat.mul_le_mul_right _ (by omega)
          · rw [permute, hdiv, hmod, List.getElem?_eq_getElem hi, Option.elim_some]

end Truthcoin.Lehmer
