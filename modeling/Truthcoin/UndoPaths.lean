import Truthcoin.Fallible

/-!
# Steps and their undoing

A path is a sequence of labelled steps. When every step can be undone, undoing the labels in
the opposite order leads from a state that simulates the end of the path to one that simulates
its start. A loop that logs an entry for each of its steps follows the path of its log.
-/

namespace Truthcoin.UndoPaths

open Truthcoin.Fallible

variable {α β σ τ ε : Type} {step : β → σ → σ → Prop} {entries entries' : List β}
  {s s₁ s' : σ}

/-- The steps of a list of labels, first to last, lead from one state to another. -/
inductive Path (step : β → σ → σ → Prop) : List β → σ → σ → Prop where
  | nil (s : σ) : Path step [] s s
  | cons {b : β} {entries : List β} {s s₁ s' : σ} (hstep : step b s s₁)
      (hrest : Path step entries s₁ s') : Path step (b :: entries) s s'

theorem Path.single {b : β} (h : step b s s') : Path step [b] s s' :=
  .cons h (.nil s')

theorem Path.append (h : Path step entries s s₁) (h' : Path step entries' s₁ s') :
    Path step (entries ++ entries') s s' := by
  induction h with
  | nil s => exact h'
  | cons hstep _ ih => exact .cons hstep (ih h')

theorem Path.split (h : Path step (entries ++ entries') s s') :
    ∃ s₁, Path step entries s s₁ ∧ Path step entries' s₁ s' := by
  induction entries generalizing s with
  | nil => exact ⟨s, .nil s, h⟩
  | cons b entries ih =>
      cases h with
      | cons hstep hrest =>
          obtain ⟨s₁, hfirst, hsecond⟩ := ih hrest
          exact ⟨s₁, .cons hstep hfirst, hsecond⟩

theorem Path.mono {step' : β → σ → σ → Prop} (h : Path step entries s s')
    (hstep : ∀ b ∈ entries, ∀ s s', step b s s' → step' b s s') :
    Path step' entries s s' := by
  induction h with
  | nil s => exact .nil s
  | cons hfirst _ ih =>
      exact .cons (hstep _ List.mem_cons_self _ _ hfirst)
        (ih fun b hb => hstep b (List.mem_cons_of_mem _ hb))

theorem Path.exists_step (h : Path step entries s s') :
    ∀ b ∈ entries, ∃ s₁ s₂, step b s₁ s₂ := by
  induction h with
  | nil s => simp
  | cons hfirst _ ih =>
      intro b hb
      rcases List.mem_cons.mp hb with rfl | hb
      · exact ⟨_, _, hfirst⟩
      · exact ih b hb

theorem path_of_foldlM {f : σ → β → Except ε σ} (h : entries.foldlM f s = .ok s') :
    Path (fun b s s' => f s b = .ok s') entries s s' := by
  induction entries generalizing s with
  | nil =>
      rw [← Except.ok.inj h]
      exact .nil s
  | cons b entries ih =>
      obtain ⟨s₁, hfirst, hrest⟩ := bind_eq_ok_iff.mp h
      exact .cons hfirst (ih hrest)

theorem path_foldl (f : σ → β → σ) (entries : List β) (s : σ) :
    Path (fun b s s' => s' = f s b) entries s (entries.foldl f s) := by
  induction entries generalizing s with
  | nil => exact .nil s
  | cons b entries ih => exact .cons rfl (ih (f s b))

/-- A loop over items is a path when every item finds what it needs. `Ready` is what the items
that are left need. -/
theorem path_of_ready {f : σ → α → Except ε σ} (label : α → β) (Ready : List α → σ → Prop)
    (hstep : ∀ a l s s', Ready (a :: l) s → f s a = .ok s' → Ready l s' ∧ step (label a) s s')
    {l : List α} (hready : Ready l s) (h : l.foldlM f s = .ok s') :
    Path step (l.map label) s s' := by
  induction l generalizing s with
  | nil =>
      rw [← Except.ok.inj h]
      exact .nil s
  | cons a l ih =>
      obtain ⟨mid, hfirst, hrest⟩ := bind_eq_ok_iff.mp h
      obtain ⟨hready', hlabel⟩ := hstep a l s mid hready hfirst
      exact .cons hlabel (ih hready' hrest)

/-- A loop over items appends its entries to a log. `Ready` is what the items that are left
need. -/
theorem path_of_logged {f : σ × List β → α → Except ε (σ × List β)}
    (Ready : List α → σ → Prop)
    (hstep : ∀ a l acc acc', Ready (a :: l) acc.1 → f acc a = .ok acc' →
      Ready l acc'.1 ∧ ∃ new, acc'.2 = acc.2 ++ new ∧ Path step new acc.1 acc'.1)
    {l : List α} {acc acc' : σ × List β} (hready : Ready l acc.1)
    (h : l.foldlM f acc = .ok acc') :
    ∃ new, acc'.2 = acc.2 ++ new ∧ Path step new acc.1 acc'.1 := by
  induction l generalizing acc with
  | nil =>
      rw [← Except.ok.inj h]
      exact ⟨[], by simp, .nil _⟩
  | cons a l ih =>
      obtain ⟨mid, hfirst, hrest⟩ := bind_eq_ok_iff.mp h
      obtain ⟨hready', new, hlog, hpath⟩ := hstep a l acc mid hready hfirst
      obtain ⟨new', hlog', hpath'⟩ := ih hready' hrest
      exact ⟨new ++ new', by rw [hlog', hlog, List.append_assoc], hpath.append hpath'⟩

theorem Path.undo {back : β → τ → τ → Prop} (Sim : σ → τ → Prop) {t t' : τ}
    (hundo : ∀ b s s' t t', step b s s' → Sim s' t → back b t t' → Sim s t')
    (h : Path step entries s s') (hback : Path back entries.reverse t t') (hsim : Sim s' t) :
    Sim s t' := by
  induction h generalizing t' with
  | nil s =>
      cases hback
      exact hsim
  | cons hstep _ ih =>
      rw [List.reverse_cons] at hback
      obtain ⟨t₁, hrest, hlast⟩ := hback.split
      cases hlast with
      | cons hfirst hnil =>
          cases hnil
          exact hundo _ _ _ _ _ hstep (ih hrest hsim) hfirst

end Truthcoin.UndoPaths
