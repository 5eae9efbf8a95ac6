import Mathlib

/-!
# Fallible computations

Inversion rules for `Except`, and invariant rules for fallible loops over a list.
-/

namespace Truthcoin.Fallible

variable {ε α β σ : Type}

/-- Fail with `e` unless the condition holds. -/
def ensure (c : Prop) [Decidable c] (e : ε) : Except ε Unit :=
  if c then .ok () else .error e

@[simp]
theorem ensure_eq_ok_iff {c : Prop} [Decidable c] {e : ε} {u : Unit} :
    ensure c e = .ok u ↔ c := by
  unfold ensure
  split <;> simp_all

@[simp]
theorem ok_bind (a : α) (f : α → Except ε β) : (Except.ok a >>= f) = f a := rfl

@[simp]
theorem error_bind (e : ε) (f : α → Except ε β) :
    ((Except.error e : Except ε α) >>= f) = .error e := rfl

@[simp]
theorem pure_eq_ok (a : α) : (pure a : Except ε α) = .ok a := rfl

theorem bind_eq_ok_iff {x : Except ε α} {f : α → Except ε β} {b : β} :
    x >>= f = .ok b ↔ ∃ a, x = .ok a ∧ f a = .ok b := by
  cases x <;> simp

theorem ensure_pos {p : Prop} [Decidable p] (h : p) (e : ε) : ensure p e = .ok () :=
  ensure_eq_ok_iff.mpr h

/-- Turn a missing value into an error. -/
def okOr (x : Option α) (e : ε) : Except ε α :=
  match x with
  | some a => .ok a
  | none => .error e

@[simp]
theorem okOr_eq_ok_iff {x : Option α} {e : ε} {a : α} :
    okOr x e = .ok a ↔ x = some a := by
  cases x <;> simp [okOr]

@[simp]
theorem okOr_some (a : α) (e : ε) : okOr (some a) e = .ok a := rfl

@[simp]
theorem mapError_eq_ok_iff {ε' : Type} {x : Except ε α} {f : ε → ε'} {a : α} :
    x.mapError f = .ok a ↔ x = .ok a := by
  cases x <;> simp [Except.mapError]

@[simp]
theorem forM_eq_ok_iff {l : List α} {f : α → Except ε Unit} {u : Unit} :
    l.forM f = .ok u ↔ ∀ a ∈ l, f a = .ok () := by
  induction l with
  | nil => simp
  | cons a l ih =>
      rw [List.forM_eq_forM] at ih ⊢
      rw [List.forM_cons, bind_eq_ok_iff]
      simp only [ih, List.mem_cons, forall_eq_or_imp]
      constructor
      · rintro ⟨_, ha, hl⟩
        exact ⟨ha, hl⟩
      · rintro ⟨ha, hl⟩
        exact ⟨(), ha, hl⟩

@[simp]
theorem option_forM_eq_ok_iff {x : Option α} {f : α → Except ε Unit} {u : Unit} :
    x.forM f = .ok u ↔ ∀ a, x = some a → f a = .ok () := by
  cases x <;> simp [Option.forM]

theorem mapM_eq_ok_iff {f : α → Except ε β} {l : List α} {l' : List β} :
    l.mapM f = .ok l' ↔ List.Forall₂ (fun a b => f a = .ok b) l l' := by
  induction l generalizing l' with
  | nil => cases l' <;> simp
  | cons a l ih =>
      simp only [List.mapM_cons, bind_eq_ok_iff, pure_eq_ok, Except.ok.injEq,
        List.forall₂_cons_left_iff, ih]
      grind

theorem exists_of_mem_mapM {f : α → Except ε β} {l : List α} {l' : List β}
    (h : l.mapM f = .ok l') {b : β} (hb : b ∈ l') : ∃ a ∈ l, f a = .ok b := by
  have hpairs := mapM_eq_ok_iff.mp h
  clear h
  induction hpairs with
  | nil => cases hb
  | @cons a b' l l' hfirst _ ih =>
      rcases List.mem_cons.mp hb with rfl | hrest
      · exact ⟨a, by simp, hfirst⟩
      · obtain ⟨a', ha', hstep⟩ := ih hrest
        exact ⟨a', by simp [ha'], hstep⟩

theorem ok_of_mem_mapM {f : α → Except ε β} {l : List α} {l' : List β}
    (h : l.mapM f = .ok l') {a : α} (ha : a ∈ l) : ∃ b, f a = .ok b := by
  have hpairs := mapM_eq_ok_iff.mp h
  clear h
  induction hpairs with
  | nil => cases ha
  | @cons a' b _ _ hfirst _ ih =>
      rcases List.mem_cons.mp ha with rfl | hrest
      · exact ⟨b, hfirst⟩
      · exact ih hrest

theorem mapM_eq_map {f : α → Except ε β} {g : α → β} {l : List α}
    (h : ∀ x ∈ l, f x = .ok (g x)) : l.mapM f = .ok (l.map g) := by
  rw [mapM_eq_ok_iff, List.forall₂_map_right_iff]
  exact List.forall₂_same.mpr h

theorem map_of_mapM {γ : Type} {f : α → Except ε β} {g : β → γ} {g' : α → γ} {l : List α}
    {l' : List β} (hstep : ∀ a ∈ l, ∀ b, f a = .ok b → g b = g' a) (h : l.mapM f = .ok l') :
    l'.map g = l.map g' := by
  have hpairs := mapM_eq_ok_iff.mp h
  clear h
  induction hpairs with
  | nil => rfl
  | cons hfirst _ ih =>
      rw [List.map_cons, List.map_cons, hstep _ List.mem_cons_self _ hfirst,
        ih fun a ha => hstep a (List.mem_cons_of_mem _ ha)]

theorem foldlM_preserves {f : σ → α → Except ε σ} {P : σ → Prop} {l : List α}
    (hstep : ∀ a ∈ l, ∀ s s', P s → f s a = .ok s' → P s')
    {s s' : σ} (hrun : l.foldlM f s = .ok s') (hs : P s) : P s' := by
  induction l generalizing s with
  | nil =>
      simp only [List.foldlM_nil, pure_eq_ok, Except.ok.injEq] at hrun
      exact hrun ▸ hs
  | cons a l ih =>
      rw [List.foldlM_cons, bind_eq_ok_iff] at hrun
      obtain ⟨s₁, hfirst, hrest⟩ := hrun
      exact ih (fun b hb => hstep b (by simp [hb])) hrest
        (hstep a (by simp) s s₁ hs hfirst)

theorem foldlM_succeeds {f : σ → α → Except ε σ} {I : List α → σ → Prop}
    (hstep : ∀ a l s, I (a :: l) s → ∃ s', f s a = .ok s' ∧ I l s')
    {l : List α} {s : σ} (hs : I l s) : ∃ s', l.foldlM f s = .ok s' := by
  induction l generalizing s with
  | nil => exact ⟨s, rfl⟩
  | cons a l ih =>
      obtain ⟨s₁, hfirst, hs₁⟩ := hstep a l s hs
      obtain ⟨s', hrest⟩ := ih hs₁
      exact ⟨s', bind_eq_ok_iff.mpr ⟨s₁, hfirst, hrest⟩⟩

theorem foldlM_sets {κ : Type} [DecidableEq κ] {f : σ → α → Except ε σ} {key : α → κ}
    {get : σ → κ → β} {v : β}
    (hstep : ∀ a s s', f s a = .ok s' → ∀ k, get s' k = if k = key a then v else get s k)
    {l : List α} {s s' : σ} (h : l.foldlM f s = .ok s') (k : κ) :
    get s' k = if k ∈ l.map key then v else get s k := by
  induction l generalizing s with
  | nil =>
      rw [← Except.ok.inj h]
      simp
  | cons a l ih =>
      obtain ⟨s₁, hfirst, hrest⟩ := bind_eq_ok_iff.mp h
      rw [ih hrest, hstep a s s₁ hfirst k]
      by_cases hk : k = key a <;> simp [hk]

theorem toOption_bind {x : Except ε α} {f : α → Except ε β} :
    (x >>= f).toOption = x.toOption.bind fun a => (f a).toOption := by
  cases x with
  | error e => rfl
  | ok a => rfl

theorem toOption_eq_some_iff {x : Except ε α} {a : α} :
    x.toOption = some a ↔ x = .ok a := by
  cases x with
  | error e => simp [Except.toOption]
  | ok b => simp [Except.toOption]

theorem exists_eq_ok {r : Except ε α} (h : r.toOption.isSome = true) :
    ∃ a, r = .ok a := by
  cases r with
  | error e => cases h
  | ok a => exact ⟨a, rfl⟩

theorem isOk_eq_true_iff {x : Except ε α} : x.isOk = true ↔ ∃ a, x = .ok a := by
  cases x with
  | error e => exact ⟨fun h => absurd h Bool.false_ne_true, fun ⟨_, h⟩ => by cases h⟩
  | ok a => exact ⟨fun _ => ⟨a, rfl⟩, fun _ => rfl⟩

/-- The computation returns a value of which the test is true. -/
def holds (x : Except ε α) (test : α → Bool) : Bool :=
  match x with
  | .ok a => test a
  | .error _ => false

theorem holds_iff {x : Except ε α} {test : α → Bool} :
    holds x test = true ↔ ∃ a, x = .ok a ∧ test a = true := by
  cases x with
  | error e => simp [holds]
  | ok a => simp [holds]

end Truthcoin.Fallible
