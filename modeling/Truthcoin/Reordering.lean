import Truthcoin.Fallible

/-!
# Loops in any order

A fallible loop whose steps commute has the same outcome for every order of its
items: it fails in all orders, or it returns related results in all of them.
-/

namespace Truthcoin.Reordering

open Truthcoin.Fallible

variable {ε α β σ : Type}

/-- Both computations fail, or both return and their results are related. -/
inductive Alike (R : σ → σ → Prop) : Except ε σ → Except ε σ → Prop where
  | ok {s s' : σ} (h : R s s') : Alike R (.ok s) (.ok s')
  | error {e e' : ε} : Alike R (.error e) (.error e')

namespace Alike

variable {R : σ → σ → Prop} {x y z : Except ε σ}

theorem refl (hR : ∀ s, R s s) (x : Except ε σ) : Alike R x x := by
  cases x with
  | ok s => exact .ok (hR s)
  | error e => exact .error

theorem trans (hR : ∀ s s' s'', R s s' → R s' s'' → R s s'') (h : Alike R x y)
    (h' : Alike R y z) : Alike R x z := by
  cases h with
  | error =>
      cases h'
      exact .error
  | ok h =>
      cases h' with
      | ok h' => exact .ok (hR _ _ _ h h')

theorem bind {Q : β → β → Prop} {f g : σ → Except ε β} (h : Alike R x y)
    (hnext : ∀ s s', x = .ok s → y = .ok s' → R s s' → Alike Q (f s) (g s')) :
    Alike Q (x >>= f) (y >>= g) := by
  cases h with
  | error => exact .error
  | ok h => exact hnext _ _ rfl rfl h

theorem of_eq (hR : ∀ s, R s s) (h : x = y) : Alike R x y :=
  h ▸ refl hR x

theorem of_ok (h : ∀ s, x = .ok s → ∃ s', y = .ok s' ∧ R s s')
    (h' : ∀ s', y = .ok s' → ∃ s, x = .ok s) : Alike R x y := by
  cases x with
  | ok s =>
      obtain ⟨s', rfl, hR⟩ := h s rfl
      exact .ok hR
  | error e =>
      cases y with
      | ok s' => exact absurd (h' s' rfl) (by simp)
      | error e' => exact .error

theorem of_ok_iff (h : ∀ s, x = .ok s ↔ y = .ok s) : Alike (· = ·) x y :=
  of_ok (fun s hx => ⟨s, (h s).mp hx, rfl⟩) (fun s hy => ⟨s, (h s).mpr hy⟩)

theorem of_exchange {f : σ → α → Except ε σ} {a b : α} {s : σ}
    (h : ∀ s', (f s a >>= (f · b)) = .ok s' → (f s b >>= (f · a)) = .ok s')
    (h' : ∀ s', (f s b >>= (f · a)) = .ok s' → (f s a >>= (f · b)) = .ok s') :
    Alike (· = ·) (f s a >>= (f · b)) (f s b >>= (f · a)) :=
  of_ok_iff fun s' => ⟨h s', h' s'⟩

end Alike

theorem forM_alike {f : α → Except ε Unit} {l l' : List α} (h : l.Perm l') :
    Alike (· = ·) (l.forM f) (l'.forM f) := by
  refine .of_ok_iff ?_
  intro u
  rw [forM_eq_ok_iff, forM_eq_ok_iff]
  exact forall_congr' fun a => by rw [h.mem_iff]

section

variable {f : σ → α → Except ε σ} {R : σ → σ → Prop} {I : σ → Prop}

theorem foldlM_congr (hcongr : ∀ a s s', I s → I s' → R s s' → Alike R (f s a) (f s' a))
    (hinv : ∀ a s s', I s → f s a = .ok s' → I s') {l : List α} {s s' : σ}
    (hs : I s) (hs' : I s') (hR : R s s') : Alike R (l.foldlM f s) (l.foldlM f s') := by
  induction l generalizing s s' with
  | nil => exact .ok hR
  | cons a l ih =>
      rw [List.foldlM_cons, List.foldlM_cons]
      refine (hcongr a s s' hs hs' hR).bind ?_
      intro s₁ s₁' h₁ h₁' hR₁
      exact ih (hinv a s s₁ hs h₁) (hinv a s' s₁' hs' h₁') hR₁

theorem foldlM_perm {P : α → α → Prop} (hsymm : Std.Symm P) (hrefl : ∀ s, R s s)
    (htrans : ∀ s s' s'', R s s' → R s' s'' → R s s'')
    (hcongr : ∀ a s s', I s → I s' → R s s' → Alike R (f s a) (f s' a))
    (hinv : ∀ a s s', I s → f s a = .ok s' → I s')
    (hcomm : ∀ a b s, P a b → I s → Alike R (f s a >>= (f · b)) (f s b >>= (f · a)))
    {l l' : List α} (hperm : l.Perm l') (hpair : l.Pairwise P) {s : σ} (hs : I s) :
    Alike R (l.foldlM f s) (l'.foldlM f s) := by
  induction hperm generalizing s with
  | nil => exact .ok (hrefl s)
  | cons a hperm ih =>
      rw [List.foldlM_cons, List.foldlM_cons]
      refine (Alike.refl hrefl (f s a)).bind ?_
      intro s₁ s₁' h₁ h₁' hR₁
      have hrest := ih (List.pairwise_cons.mp hpair).2 (hinv a s s₁ hs h₁)
      exact hrest.trans htrans
        (foldlM_congr hcongr hinv (hinv a s s₁ hs h₁) (hinv a s s₁' hs h₁') hR₁)
  | swap a b l =>
      have hba : P b a := (List.pairwise_cons.mp hpair).1 a (by simp)
      simp only [List.foldlM_cons, ← bind_assoc]
      refine (hcomm b a s hba hs).bind ?_
      intro s₁ s₁' h₁ h₁' hR₁
      obtain ⟨t, ht, h₁⟩ := bind_eq_ok_iff.mp h₁
      obtain ⟨t', ht', h₁'⟩ := bind_eq_ok_iff.mp h₁'
      exact foldlM_congr hcongr hinv (hinv _ _ _ (hinv _ _ _ hs ht) h₁)
        (hinv _ _ _ (hinv _ _ _ hs ht') h₁') hR₁
  | trans h₁ _ ih₁ ih₂ =>
      have hpair' := (h₁.pairwise_iff fun {a b} hab => hsymm.symm a b hab).mp hpair
      exact (ih₁ hpair hs).trans htrans (ih₂ hpair' hs)

theorem foldlM_perm_eq {P : α → α → Prop} (hsymm : Std.Symm P)
    (hinv : ∀ a s s', I s → f s a = .ok s' → I s')
    (hcomm : ∀ a b s, P a b → I s → Alike (· = ·) (f s a >>= (f · b)) (f s b >>= (f · a)))
    {l l' : List α} (hperm : l.Perm l') (hpair : l.Pairwise P) {s : σ} (hs : I s) :
    Alike (· = ·) (l.foldlM f s) (l'.foldlM f s) := by
  refine foldlM_perm hsymm (fun _ => rfl) (fun _ _ _ h h' => h.trans h') ?_ hinv hcomm hperm
    hpair hs
  rintro a s s' - - rfl
  exact .refl (fun _ => rfl) _

end

end Truthcoin.Reordering
