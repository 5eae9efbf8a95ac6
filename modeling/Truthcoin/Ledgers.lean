import Mathlib

/-!
# Ledgers

A ledger keeps, for each item, the amount that was issued and the amounts that the accounts
hold. It is balanced when the holdings of each item add up to what was issued.
-/

namespace Truthcoin.Ledgers

@[ext]
structure Ledger (A K : Type) where
  issued : K → ℤ
  held : A → K → ℤ

theorem sum_filter_map {α : Type} (p : α → Prop) [DecidablePred p] (f : α → ℤ) (l : List α) :
    ((l.filter p).map f).sum = (l.map fun a => if p a then f a else 0).sum := by
  rw [List.sum_map_ite]
  simp

namespace Ledger

variable {A K : Type} {l : Ledger A K}

structure Balanced (l : Ledger A K) : Prop where
  finite : ∀ k, (Function.support fun a => l.held a k).Finite
  total : ∀ k, l.issued k = ∑ᶠ a, l.held a k

theorem Balanced.held_le (h : l.Balanced) {k : K} (hnonneg : ∀ a, 0 ≤ l.held a k) (a : A) :
    l.held a k ≤ l.issued k := by
  rw [h.total k]
  exact single_le_finsum a (h.finite k) hnonneg

section

variable [DecidableEq A] [DecidableEq K]

/-- Issue an amount to an account; a negative amount is taken back from it. -/
def post (l : Ledger A K) (a : A) (k : K) (amount : ℤ) : Ledger A K where
  issued k' := l.issued k' + if k = k' then amount else 0
  held a' k' := l.held a' k' + if a = a' ∧ k = k' then amount else 0

theorem Balanced.post (h : l.Balanced) (a : A) (k : K) (amount : ℤ) :
    (l.post a k amount).Balanced := by
  have hfinite : ∀ k', (Function.support fun a' =>
      if a = a' ∧ k = k' then amount else 0).Finite := by
    intro k'
    refine (Set.finite_singleton a).subset ?_
    intro a' ha'
    have hne := Function.mem_support.mp ha'
    by_contra hother
    exact hne (if_neg fun heq => hother heq.1.symm)
  constructor
  · exact fun k' => ((h.finite k').union (hfinite k')).subset (Function.support_add _ _)
  · intro k'
    have hposted : ∑ᶠ a', (if a = a' ∧ k = k' then amount else 0) =
        if k = k' then amount else 0 := by
      rw [finsum_eq_single _ a fun a' hne => if_neg fun heq => hne heq.1.symm]
      exact if_congr (and_iff_right rfl) rfl rfl
    rw [Ledger.post]
    dsimp only
    rw [finsum_add_distrib (h.finite k') (hfinite k'), hposted, h.total k']

def postAll (l : Ledger A K) (posts : List (A × K × ℤ)) : Ledger A K :=
  posts.foldl (fun l p => l.post p.1 p.2.1 p.2.2) l

theorem Balanced.postAll (h : l.Balanced) (posts : List (A × K × ℤ)) :
    (l.postAll posts).Balanced := by
  refine List.foldlRecOn (motive := Balanced) _ _ h ?_
  exact fun l hl p _ => hl.post p.1 p.2.1 p.2.2

/-- What is issued of an item by a list of postings. -/
def issuedBy (posts : List (A × K × ℤ)) (k : K) : ℤ :=
  (posts.map fun p => if p.2.1 = k then p.2.2 else 0).sum

/-- What an account gets of an item by a list of postings. -/
def heldBy (posts : List (A × K × ℤ)) (a : A) (k : K) : ℤ :=
  (posts.map fun p => if p.1 = a ∧ p.2.1 = k then p.2.2 else 0).sum

theorem heldBy_flatMap {α : Type} (l : List α) (posts : α → List (A × K × ℤ)) (a : A) (k : K) :
    heldBy (l.flatMap posts) a k = (l.map fun x => heldBy (posts x) a k).sum := by
  unfold heldBy
  rw [List.map_flatMap, List.flatMap_def, List.sum_flatten, List.map_map]
  rfl

omit [DecidableEq A] in
theorem issuedBy_perm {posts posts' : List (A × K × ℤ)} (h : posts.Perm posts') :
    issuedBy posts = issuedBy posts' := by
  funext k
  exact (h.map _).sum_eq

theorem heldBy_perm {posts posts' : List (A × K × ℤ)} (h : posts.Perm posts') :
    heldBy posts = heldBy posts' := by
  funext a k
  exact (h.map _).sum_eq

/-- Postings that take postings back. -/
def back (posts : List (A × K × ℤ)) : List (A × K × ℤ) :=
  posts.map fun p => (p.1, p.2.1, -p.2.2)

theorem sum_ite_neg {α : Type} (p : α → Prop) [DecidablePred p] (f : α → ℤ) (l : List α) :
    (l.map fun x => if p x then -f x else 0).sum =
      -(l.map fun x => if p x then f x else 0).sum := by
  rw [List.sum_neg, List.map_map]
  refine congrArg List.sum (List.map_congr_left fun x _ => ?_)
  rw [Function.comp_apply]
  split
  · rfl
  · exact neg_zero.symm

omit [DecidableEq A] in
theorem issuedBy_back (posts : List (A × K × ℤ)) (k : K) :
    issuedBy (back posts) k = -issuedBy posts k := by
  rw [issuedBy, back, List.map_map]
  exact sum_ite_neg (fun p : A × K × ℤ => p.2.1 = k) (fun p => p.2.2) posts

theorem heldBy_back (posts : List (A × K × ℤ)) (a : A) (k : K) :
    heldBy (back posts) a k = -heldBy posts a k := by
  rw [heldBy, back, List.map_map]
  exact sum_ite_neg (fun p : A × K × ℤ => p.1 = a ∧ p.2.1 = k) (fun p => p.2.2) posts

theorem postAll_eq (l : Ledger A K) (posts : List (A × K × ℤ)) :
    l.postAll posts =
      ⟨fun k => l.issued k + issuedBy posts k, fun a k => l.held a k + heldBy posts a k⟩ := by
  unfold postAll issuedBy heldBy
  induction posts generalizing l with
  | nil => simp
  | cons p posts ih =>
      rw [List.foldl_cons, ih]
      simp only [post, List.map_cons, List.sum_cons, add_assoc]

theorem issuedBy_eq_finsum (posts : List (A × K × ℤ)) (k : K) :
    issuedBy posts k = ∑ᶠ a, heldBy posts a k := by
  have hempty : (⟨fun _ => 0, fun _ _ => 0⟩ : Ledger A K).Balanced :=
    ⟨fun _ => by simp, fun _ => finsum_zero.symm⟩
  have htotal := (hempty.postAll posts).total k
  rw [postAll_eq] at htotal
  simpa using htotal

omit [DecidableEq A] in
theorem sum_priced {R : Type*} [CommRing R] {items : Finset K} {posts : List (A × K × ℤ)}
    (hitems : ∀ p ∈ posts, p.2.1 ∈ items) (price : K → R) :
    (posts.map fun p => (p.2.2 : R) * price p.2.1).sum =
      ∑ k ∈ items, (issuedBy posts k : R) * price k := by
  induction posts with
  | nil => simp [issuedBy]
  | cons p posts ih =>
      have hrest := ih fun q hq => hitems q (List.mem_cons_of_mem p hq)
      have hfirst : (p.2.2 : R) * price p.2.1 =
          ∑ k ∈ items, ((if p.2.1 = k then p.2.2 else 0 : ℤ) : R) * price k := by
        rw [Finset.sum_eq_single_of_mem p.2.1 (hitems p List.mem_cons_self)]
        · rw [if_pos rfl]
        · intro k _ hne
          rw [if_neg (Ne.symm hne), Int.cast_zero, zero_mul]
      rw [List.map_cons, List.sum_cons, hrest, hfirst, ← Finset.sum_add_distrib]
      refine Finset.sum_congr rfl fun k _ => ?_
      have hcons : issuedBy (p :: posts) k =
          (if p.2.1 = k then p.2.2 else 0) + issuedBy posts k := by
        rw [issuedBy, List.map_cons, List.sum_cons]
        rfl
      rw [hcons, Int.cast_add, add_mul]

omit [DecidableEq A] in
theorem sum_priced_le {R : Type*} [CommRing R] [LinearOrder R] [IsStrictOrderedRing R]
    {items : Finset K} {posts : List (A × K × ℤ)}
    (hitems : ∀ p ∈ posts, p.2.1 ∈ items) {price : K → R} (hprice : ∀ k ∈ items, 0 ≤ price k)
    (hsum : ∑ k ∈ items, price k ≤ 1) {bound : ℤ} (hnonneg : 0 ≤ bound)
    (hbound : ∀ k ∈ items, issuedBy posts k ≤ bound) :
    (posts.map fun p => (p.2.2 : R) * price p.2.1).sum ≤ bound := by
  have hbound' : (0 : R) ≤ bound := by exact_mod_cast hnonneg
  calc (posts.map fun p => (p.2.2 : R) * price p.2.1).sum
      = ∑ k ∈ items, (issuedBy posts k : R) * price k := sum_priced hitems price
    _ ≤ ∑ k ∈ items, (bound : R) * price k :=
        Finset.sum_le_sum fun k hk =>
          mul_le_mul_of_nonneg_right (by exact_mod_cast hbound k hk) (hprice k hk)
    _ = bound * ∑ k ∈ items, price k := (Finset.mul_sum ..).symm
    _ ≤ bound := mul_le_of_le_one_right hbound' hsum

end

/-- Take some items off the ledger. -/
def close (l : Ledger A K) (items : K → Prop) [DecidablePred items] : Ledger A K where
  issued k := if items k then 0 else l.issued k
  held a k := if items k then 0 else l.held a k

theorem Balanced.close (h : l.Balanced) (items : K → Prop) [DecidablePred items] :
    (l.close items).Balanced := by
  constructor
  · intro k
    refine (h.finite k).subset ?_
    intro a ha
    have hne : (if items k then 0 else l.held a k) ≠ 0 := Function.mem_support.mp ha
    rw [Function.mem_support]
    intro hzero
    rw [hzero, ite_self] at hne
    exact hne rfl
  · intro k
    rw [Ledger.close]
    dsimp only
    split
    · exact finsum_zero.symm
    · exact h.total k

end Ledger

end Truthcoin.Ledgers
