import Truthcoin.OracleWeights
import Truthcoin.RationalRounding

/-!
# Reputations that consensus writes back

The new reputations are rounded to ten decimals, and what rounding leaves over is given
to the greatest voter, rounded as well. So the voters have the total they had before
exactly when that total has no more than ten decimals, and otherwise a total that is as
close to it as such a number can be.
-/

namespace Truthcoin.OracleUpdates

open Truthcoin.Types Truthcoin.Table Truthcoin.Fallible Truthcoin.Decisions Truthcoin.Voting
open Truthcoin.Trading Truthcoin.Reputation Truthcoin.ReputationTotal Truthcoin.Oracle
open Truthcoin.OracleWeights Truthcoin.RationalRounding

/-- A number with at most ten decimals. -/
def Rounded (x : Rat) : Prop :=
  ∃ k : ℤ, x = k / 10 ^ 10

theorem roundReputation_eq (x : Rat) : roundReputation x = roundRat (x * 10 ^ 10) / 10 ^ 10 :=
  rfl

theorem rounded_roundReputation (x : Rat) : Rounded (roundReputation x) := by
  obtain ⟨k, hk⟩ := exists_roundRat_eq (x * 10 ^ 10)
  exact ⟨k, by rw [roundReputation_eq, hk]⟩

theorem roundReputation_eq_self_iff (x : Rat) : roundReputation x = x ↔ Rounded x := by
  constructor
  · intro h
    rw [← h]
    exact rounded_roundReputation x
  · rintro ⟨k, rfl⟩
    rw [roundReputation_eq, div_mul_cancel₀ _ (by norm_num), roundRat_intCast]

theorem abs_roundReputation_sub_le (x : Rat) : |roundReputation x - x| ≤ 1 / 2 / 10 ^ 10 := by
  have hscaled : roundReputation x - x = (roundRat (x * 10 ^ 10) - x * 10 ^ 10) / 10 ^ 10 := by
    rw [roundReputation_eq]
    ring
  rw [hscaled, abs_div, abs_of_pos (by norm_num : (0 : Rat) < 10 ^ 10)]
  exact div_le_div_of_nonneg_right (abs_roundRat_sub_le _) (by norm_num)

theorem rounded_zero : Rounded 0 := ⟨0, by simp⟩

theorem Rounded.add {x y : Rat} (hx : Rounded x) (hy : Rounded y) : Rounded (x + y) := by
  obtain ⟨k, rfl⟩ := hx
  obtain ⟨l, rfl⟩ := hy
  exact ⟨k + l, by push_cast; ring⟩

theorem Rounded.neg {x : Rat} (hx : Rounded x) : Rounded (-x) := by
  obtain ⟨k, rfl⟩ := hx
  exact ⟨-k, by push_cast; ring⟩

theorem rounded_sub_iff {x y : Rat} (hy : Rounded y) : Rounded (x - y) ↔ Rounded x := by
  constructor
  · intro h
    have hsum := h.add hy
    rwa [sub_add_cancel] at hsum
  · intro h
    rw [sub_eq_add_neg]
    exact h.add hy.neg

theorem rounded_total {t : Table Address Rat}
    (h : ∀ (address : Address) (rep : Rat), t[address]? = some rep → Rounded rep) :
    Rounded (totalReputation t) := by
  rw [totalReputation_eq_sum]
  have hrows : ∀ rows : List (Address × Rat), (∀ row ∈ rows, Rounded row.2) →
      Rounded (rows.map Prod.snd).sum := by
    intro rows hrows
    induction rows with
    | nil => exact rounded_zero
    | cons row rows ih =>
        rw [List.map_cons, List.sum_cons]
        exact (hrows row List.mem_cons_self).add
          (ih fun row' hrow' => hrows row' (List.mem_cons_of_mem row hrow'))
  exact hrows t.toList fun row hrow => h row.1 row.2 (mem_toList_iff.mp hrow)

theorem foldl_maxVoter_spec (rows : List (Address × Rat)) (row : Address × Rat) :
    ∃ best ∈ row :: rows, rows.foldl
      (fun best row =>
        match best with
        | none => some row
        | some best => if best.2 < row.2 then some row else some best)
      (some row) = some best ∧ ∀ row' ∈ row :: rows, row'.2 ≤ best.2 := by
  induction rows generalizing row with
  | nil =>
      refine ⟨row, List.mem_cons_self, rfl, ?_⟩
      intro row' hrow'
      rw [List.mem_singleton.mp hrow']
  | cons next rows ih =>
      rw [List.foldl_cons]
      show ∃ best ∈ row :: next :: rows,
        rows.foldl _ (if row.2 < next.2 then some next else some row) = some best ∧ _
      split
      · rename_i hlt
        obtain ⟨best, hbest, hfold, hmax⟩ := ih next
        refine ⟨best, List.mem_cons_of_mem row hbest, hfold, ?_⟩
        rintro row' (_ | ⟨_, hrow'⟩)
        · exact hlt.le.trans (hmax next List.mem_cons_self)
        · exact hmax row' hrow'
      · rename_i hge
        obtain ⟨best, hbest, hfold, hmax⟩ := ih row
        have hrow := hmax row List.mem_cons_self
        refine ⟨best, ?_, hfold, ?_⟩
        · rcases List.mem_cons.mp hbest with rfl | hbest
          · exact List.mem_cons_self
          · exact List.mem_cons_of_mem row (List.mem_cons_of_mem next hbest)
        · rintro row' (_ | ⟨_, _ | ⟨_, hrow'⟩⟩)
          · exact hrow
          · exact (not_lt.mp hge).trans hrow
          · exact hmax row' (List.mem_cons_of_mem row hrow')

theorem maxVoter_spec {rows : List (Address × Rat)} (h : rows ≠ []) :
    ∃ best ∈ rows, maxVoter rows = some best ∧ ∀ row ∈ rows, row.2 ≤ best.2 := by
  cases rows with
  | nil => exact absurd rfl h
  | cons row rows => exact foldl_maxVoter_spec rows row

theorem foldl_insert_spec (rows : List (Address × Rat)) (t : Table Address Rat) :
    (∀ (address : Address) (rep : Rat),
        (rows.foldl (fun t row => t.insert row.1 row.2) t)[address]? = some rep →
          t[address]? = some rep ∨ (address, rep) ∈ rows) ∧
      ∀ address ∈ rows.map Prod.fst,
        ∃ rep, (rows.foldl (fun t row => t.insert row.1 row.2) t)[address]? = some rep := by
  induction rows using List.reverseRecOn with
  | nil => exact ⟨fun _ _ h => .inl h, fun _ h => absurd h List.not_mem_nil⟩
  | append_singleton rows row ih =>
      rw [List.foldl_append, List.foldl_cons, List.foldl_nil]
      constructor
      · intro address rep h
        by_cases heq : address = row.1
        · grind
        · have hbefore := ih.1 address rep (by grind)
          rcases hbefore with hbefore | hbefore
          · exact .inl hbefore
          · exact .inr (List.mem_append_left _ hbefore)
      · intro address haddress
        by_cases heq : address = row.1
        · exact ⟨row.2, by grind⟩
        · rw [List.map_append, List.mem_append] at haddress
          have hbefore := ih.2 address (by simpa [heq] using haddress)
          obtain ⟨rep, hrep⟩ := hbefore
          exact ⟨rep, by grind⟩

section

variable {rows : List (Address × Rat)} (hnodup : (rows.map Prod.fst).Nodup)

include hnodup

theorem lookup_of_rows {row : Address × Rat} (hrow : row ∈ rows) :
    (rows.foldl (fun t row => t.insert row.1 row.2) (∅ : Table Address Rat))[row.1]? =
      some row.2 := by
  obtain ⟨rep, hrep⟩ := (foldl_insert_spec rows ∅).2 row.1 (List.mem_map_of_mem hrow)
  rcases (foldl_insert_spec rows ∅).1 row.1 rep hrep with habsent | hmem
  · simp at habsent
  · rw [hrep, ← List.inj_on_of_nodup_map hnodup hmem hrow rfl]

theorem total_of_rows :
    totalReputation (rows.foldl (fun t row => t.insert row.1 row.2) ∅) =
      (rows.map Prod.snd).sum := by
  induction rows using List.reverseRecOn with
  | nil => rfl
  | append_singleton rows row ih =>
      rw [List.map_append, List.nodup_append] at hnodup
      have habsent : (rows.foldl (fun t row => t.insert row.1 row.2)
          (∅ : Table Address Rat))[row.1]? = none := by
        by_contra hsome
        obtain ⟨rep, hrep⟩ := Option.ne_none_iff_exists'.mp hsome
        rcases (foldl_insert_spec rows ∅).1 row.1 rep hrep with hempty | hmem
        · simp at hempty
        · exact hnodup.2.2 row.1 (List.mem_map.mpr ⟨_, hmem, rfl⟩) row.1 (by simp) rfl
      rw [List.foldl_append, List.foldl_cons, List.foldl_nil, total_insert_of_absent row.2 habsent,
        ih hnodup.1, List.map_append, List.sum_append]
      simp

end

theorem total_adjustResidual (total : Rat) {rows : List (Address × Rat)} (hne : rows ≠ [])
    (hrows : ∀ row ∈ rows, Rounded row.2) :
    ∃ others, Rounded others ∧
      totalReputation (adjustResidual total rows) = others + roundReputation (total - others) := by
  obtain ⟨best, hbest, hmax, -⟩ := maxVoter_spec hne
  have hspec := foldl_insert_spec rows ∅
  set updated : Table Address Rat := rows.foldl (fun t row => t.insert row.1 row.2) ∅ with hupdated
  have hrounded : ∀ (address : Address) (rep : Rat), updated[address]? = some rep →
      Rounded rep := by
    intro address rep hrep
    rcases hspec.1 address rep hrep with habsent | hmem
    · simp at habsent
    · exact hrows (address, rep) hmem
  obtain ⟨rep, hrep⟩ := hspec.2 best.1 (List.mem_map_of_mem hbest)
  have hrest : Rounded (totalReputation updated - rep) :=
    (rounded_sub_iff (hrounded best.1 rep hrep)).mpr (rounded_total hrounded)
  have hgiven : total - (totalReputation updated - rep) =
      rep + (total - totalReputation updated) := by
    ring
  refine ⟨totalReputation updated - rep, hrest, ?_⟩
  simp only [adjustResidual, ← hupdated, hmax, hrep]
  rw [hgiven]
  split
  · have hlookup : getReputation updated best.1 = rep := by
      rw [getReputation, hrep, Option.getD_some]
    rw [total_insert, hlookup]
  · rename_i hzero
    have hresidual : total - totalReputation updated = 0 := by
      simpa using hzero
    rw [hresidual, add_zero, (roundReputation_eq_self_iff rep).mpr (hrounded best.1 rep hrep)]
    ring

theorem total_adjustResidual_iff {total : Rat} {rows : List (Address × Rat)} (hne : rows ≠ [])
    (hrows : ∀ row ∈ rows, Rounded row.2) :
    (totalReputation (adjustResidual total rows) = total ↔ Rounded total) ∧
      |totalReputation (adjustResidual total rows) - total| ≤ 1 / 2 / 10 ^ 10 := by
  obtain ⟨others, hothers, htotal⟩ := total_adjustResidual total hne hrows
  rw [htotal]
  constructor
  · rw [← eq_sub_iff_add_eq', roundReputation_eq_self_iff, rounded_sub_iff hothers]
  · have hclose := abs_roundReputation_sub_le (total - others)
    rwa [sub_sub_eq_add_sub, add_comm (roundReputation _)] at hclose

section

variable {prinComp : PrinComp} {matrix : SparseVoteMatrix Rat}
  {reputationVector : Table Address Rat} {scaledDecisions : List DecisionId}
  {categoricalDecisions : List (DecisionId × Nat)} {result : DetailedConsensusResult Rat}

theorem total_updatedReputations_iff (hvoters : matrix.voters ≠ [])
    (smoothRep : DVector matrix.voters.length) :
    (totalReputation (updatedReputations matrix reputationVector smoothRep) =
        originalTotal matrix reputationVector ↔
          Rounded (originalTotal matrix reputationVector)) ∧
      |totalReputation (updatedReputations matrix reputationVector smoothRep) -
        originalTotal matrix reputationVector| ≤ 1 / 2 / 10 ^ 10 := by
  refine total_adjustResidual_iff ?_ ?_
  · simpa [scaledReputations] using hvoters
  · intro row hrow
    obtain ⟨i, rfl⟩ := (List.mem_ofFn' _ _).mp hrow
    exact rounded_roundReputation _

theorem total_of_runConsensus
    (h : runConsensus prinComp matrix reputationVector scaledDecisions categoricalDecisions =
      .ok result) :
    (totalReputation result.updatedReputations = originalTotal matrix reputationVector ↔
        Rounded (originalTotal matrix reputationVector)) ∧
      |totalReputation result.updatedReputations - originalTotal matrix reputationVector| ≤
        1 / 2 / 10 ^ 10 := by
  obtain ⟨factory, hfactory, hresult⟩ := bind_eq_ok_iff.mp h
  rw [← Except.ok.inj hresult]
  exact total_updatedReputations_iff (nonempty_of_runFactory hfactory).1 _

end

end Truthcoin.OracleUpdates
