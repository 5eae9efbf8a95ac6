import Truthcoin.Fallible

/-!
# Errors of fallible computations

Which errors a computation can fail with, put together from those of its parts.
-/

namespace Truthcoin.Fallible

variable {ε ε' α β σ : Type} {P : ε → Prop}

/-- Every error of the computation has the property. -/
def Reports (P : ε → Prop) (x : Except ε α) : Prop :=
  ∀ e, x = .error e → P e

@[simp]
theorem reports_ok (a : α) : Reports P (.ok a : Except ε α) := nofun

@[simp]
theorem reports_error {e : ε} : Reports P (.error e : Except ε α) ↔ P e := by
  constructor
  · exact fun h => h e rfl
  · rintro h e' ⟨⟩
    exact h

@[simp]
theorem reports_bind {x : Except ε α} {f : α → Except ε β} :
    Reports P (x >>= f) ↔ Reports P x ∧ ∀ a, x = .ok a → Reports P (f a) := by
  cases x with
  | error e => simp
  | ok a => simp

@[simp]
theorem reports_ensure {c : Prop} [Decidable c] {e : ε} :
    Reports P (ensure c e) ↔ (¬ c → P e) := by
  unfold ensure
  split <;> simp_all

@[simp]
theorem reports_okOr {x : Option α} {e : ε} : Reports P (okOr x e) ↔ (x = none → P e) := by
  cases x <;> simp [okOr]

@[simp]
theorem reports_mapError {x : Except ε' α} {f : ε' → ε} :
    Reports P (x.mapError f) ↔ Reports (fun e => P (f e)) x := by
  cases x <;> simp [Except.mapError]

@[simp]
theorem reports_ite {c : Prop} [Decidable c] {x y : Except ε α} :
    Reports P (if c then x else y) ↔ (c → Reports P x) ∧ (¬ c → Reports P y) := by
  split <;> simp_all

@[simp]
theorem reports_option_forM {x : Option α} {f : α → Except ε Unit} :
    Reports P (forM x f) ↔ ∀ a, x = some a → Reports P (f a) := by
  cases x <;> simp

@[simp]
theorem reports_true {x : Except ε α} : Reports (fun _ => True) x := fun _ _ => trivial

theorem reports_foldlM {f : σ → α → Except ε σ} {l : List α} {s : σ}
    (hstep : ∀ s, ∀ a ∈ l, Reports P (f s a)) : Reports P (l.foldlM f s) := by
  induction l generalizing s with
  | nil => exact reports_ok s
  | cons a l ih =>
      rw [List.foldlM_cons, reports_bind]
      exact ⟨hstep s a List.mem_cons_self,
        fun s' _ => ih fun s a' ha' => hstep s a' (List.mem_cons_of_mem _ ha')⟩

theorem reports_foldlM_of {f : σ → α → Except ε σ} {I : List α → σ → Prop}
    (hstep : ∀ a l s, I (a :: l) s → Reports P (f s a) ∧ ∀ s', f s a = .ok s' → I l s')
    {l : List α} {s : σ} (hs : I l s) : Reports P (l.foldlM f s) := by
  induction l generalizing s with
  | nil => exact reports_ok s
  | cons a l ih =>
      obtain ⟨hfirst, hkept⟩ := hstep a l s hs
      rw [List.foldlM_cons, reports_bind]
      exact ⟨hfirst, fun s' hs' => ih (hkept s' hs')⟩

theorem reports_forM {f : α → Except ε Unit} {l : List α}
    (hstep : ∀ a ∈ l, Reports P (f a)) : Reports P (l.forM f) := by
  induction l with
  | nil => exact reports_ok ()
  | cons a l ih =>
      rw [List.forM_eq_forM] at ih ⊢
      rw [List.forM_cons, reports_bind]
      exact ⟨hstep a List.mem_cons_self, fun _ _ =>
        ih fun a' ha' => hstep a' (List.mem_cons_of_mem _ ha')⟩

theorem reports_mapM {f : α → Except ε β} {l : List α}
    (hstep : ∀ a ∈ l, Reports P (f a)) : Reports P (l.mapM f) := by
  induction l with
  | nil => exact reports_ok []
  | cons a l ih =>
      simp only [List.mapM_cons, reports_bind]
      exact ⟨hstep a List.mem_cons_self, fun b _ =>
        ⟨ih fun a' ha' => hstep a' (List.mem_cons_of_mem _ ha'), fun _ _ => reports_ok _⟩⟩

section

variable {f : ε → ε'}

theorem mapError_bind {x : Except ε α} {g : α → Except ε β} :
    (x >>= g).mapError f = x.mapError f >>= fun a => (g a).mapError f := by
  cases x <;> rfl

theorem mapError_okOr {x : Option α} {e : ε} : (okOr x e).mapError f = okOr x (f e) := by
  cases x <;> rfl

theorem mapError_foldlM {g : σ → α → Except ε σ} {l : List α} {s : σ} :
    (l.foldlM g s).mapError f = l.foldlM (fun s a => (g s a).mapError f) s := by
  induction l generalizing s with
  | nil => rfl
  | cons a l ih =>
      rw [List.foldlM_cons, List.foldlM_cons, mapError_bind]
      congr 1
      funext s
      exact ih

theorem mapError_mapM {g : α → Except ε β} {l : List α} :
    (l.mapM g).mapError f = l.mapM fun a => (g a).mapError f := by
  induction l with
  | nil => rfl
  | cons a l ih =>
      rw [List.mapM_cons, List.mapM_cons, mapError_bind]
      congr 1
      funext b
      rw [mapError_bind, ih]
      congr 1

end

end Truthcoin.Fallible
