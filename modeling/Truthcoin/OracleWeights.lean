import Truthcoin.ReputationTotal
import Truthcoin.Oracle

/-!
# Weights of the consensus algorithm

Every vector of weights the algorithm computes is a point of the standard simplex: its
entries are nonnegative and sum to one. Normalising gives such a point whatever it is
applied to, and smoothing mixes such points.
-/

namespace Truthcoin.OracleWeights

open Truthcoin.Types Truthcoin.Table Truthcoin.Fallible Truthcoin.Decisions Truthcoin.Voting
open Truthcoin.ReputationTotal Truthcoin.Oracle

variable {n m : Nat}

theorem div_sum_mem {v : DVector n} (hv : ∀ i, 0 ≤ v i) (hsum : ∑ i, v i ≠ 0) :
    (fun i => v i / ∑ j, v j) ∈ stdSimplex ℚ (Fin n) := by
  constructor
  · intro i
    exact div_nonneg (hv i) (Finset.sum_nonneg fun j _ => hv j)
  · rw [← Finset.sum_div]
    exact div_self hsum

theorem const_mem (hn : n ≠ 0) : (fun _ => 1 / n : DVector n) ∈ stdSimplex ℚ (Fin n) := by
  constructor
  · intro i
    positivity
  · rw [Finset.sum_const, Finset.card_univ, Fintype.card_fin, nsmul_eq_mul]
    exact mul_one_div_cancel (Nat.cast_ne_zero.mpr hn)

theorem normalizeWeights_mem (hn : n ≠ 0) (v : DVector n) :
    normalizeWeights v ∈ stdSimplex ℚ (Fin n) := by
  unfold normalizeWeights
  refine div_sum_mem ?_ ?_
  · intro i
    split
    · exact zero_le_one
    · exact abs_nonneg (v i)
  · split
    · rw [Finset.sum_const, Finset.card_univ, Fintype.card_fin, nsmul_eq_mul, mul_one]
      exact Nat.cast_ne_zero.mpr hn
    · assumption

theorem mix_mem {v w : DVector n} (hv : v ∈ stdSimplex ℚ (Fin n)) (hw : w ∈ stdSimplex ℚ (Fin n))
    {t : Rat} (ht : 0 ≤ t) (ht' : t ≤ 1) :
    (fun i => v i * t + w i * (1 - t)) ∈ stdSimplex ℚ (Fin n) := by
  have hmix := convex_stdSimplex ℚ (Fin n) hv hw ht (sub_nonneg.mpr ht') (by ring)
  convert hmix using 1
  funext i
  simp only [Pi.add_apply, Pi.smul_apply, smul_eq_mul]
  ring

theorem smoothReputation_mem (hn : n ≠ 0) {newRep voterParticipation : DVector n}
    (oldRep : DVector n) {alpha participationTotal : Rat}
    (hnew : newRep ∈ stdSimplex ℚ (Fin n)) (halpha : 0 ≤ alpha) (halpha' : alpha ≤ 1)
    (hvoter : ∀ i, 0 ≤ voterParticipation i) (htotal : 0 ≤ participationTotal)
    (htotal' : participationTotal ≤ 1) :
    smoothReputation newRep oldRep alpha voterParticipation participationTotal ∈
      stdSimplex ℚ (Fin n) := by
  have hrel : (fun i => if f64Epsilon < ∑ i, voterParticipation i then
      voterParticipation i / ∑ i, voterParticipation i else 1 / n) ∈ stdSimplex ℚ (Fin n) := by
    by_cases hsum : f64Epsilon < ∑ i, voterParticipation i
    · simp only [if_pos hsum]
      refine div_sum_mem hvoter (ne_of_gt (lt_trans ?_ hsum))
      norm_num [f64Epsilon]
    · simp only [if_neg hsum]
      exact const_mem hn
  exact mix_mem (mix_mem hnew hrel htotal htotal') (normalizeWeights_mem hn oldRep) halpha halpha'

theorem castCount_le (votes : VoteMatrix n m) (i : Fin n) : castCount votes i ≤ m := by
  calc castCount votes i ≤ (List.finRange m).length := List.length_filter_le _ _
    _ = m := List.length_finRange

theorem voterParticipation_nonneg (votes : VoteMatrix n m) (rep : DVector n) (catchP : Rat)
    (i : Fin n) : 0 ≤ (fillNa votes rep catchP).voterParticipation i := by
  simp only [fillNa]
  split
  · exact le_rfl
  · positivity

theorem participationTotal_nonneg (votes : VoteMatrix n m) (rep : DVector n) (catchP : Rat) :
    0 ≤ (fillNa votes rep catchP).participationTotal := by
  simp only [fillNa]
  split
  · exact le_rfl
  · positivity

theorem participationTotal_le_one (votes : VoteMatrix n m) (rep : DVector n) (catchP : Rat) :
    (fillNa votes rep catchP).participationTotal ≤ 1 := by
  have hcast : ∑ i, castCount votes i ≤ n * m := by
    calc ∑ i, castCount votes i ≤ ∑ _i : Fin n, m :=
          Finset.sum_le_sum fun i _ => castCount_le votes i
      _ = n * m := by simp
  simp only [fillNa]
  split
  · exact zero_le_one
  · refine div_le_one_of_le₀ ?_ (Nat.cast_nonneg _)
    exact_mod_cast hcast

section

variable {rep : DVector n}

theorem weightedMedian_succeeds (hn : n ≠ 0) (hrep : rep ∈ stdSimplex ℚ (Fin n))
    (values : DVector n) : ∃ median, weightedMedian values rep = .ok median := by
  have hne : (List.ofFn fun i => (values i, rep i)).insertionSort (fun a b => a.1 ≤ b.1) ≠ [] := by
    intro hempty
    have hlength := congrArg List.length hempty
    rw [List.length_insertionSort, List.length_ofFn] at hlength
    exact hn hlength
  simp only [weightedMedian, hrep.2, List.getLast?_eq_some_getLast hne]
  rw [if_neg (by norm_num)]
  exact ⟨_, rfl⟩

theorem scoreReflect_succeeds (hrep : rep ∈ stdSimplex ℚ (Fin n)) (component : DVector n) :
    ∃ score, scoreReflect component rep = .ok score := by
  unfold scoreReflect
  split
  · exact ⟨_, rfl⟩
  · obtain ⟨median, hmedian⟩ := weightedMedian_succeeds (by omega) hrep component
    rw [hmedian]
    exact ⟨_, rfl⟩

theorem newReputation_succeeds (hn : n ≠ 0) (hrep : rep ∈ stdSimplex ℚ (Fin n))
    (votes : FilledMatrix n m) (firstScore : DVector n) (firstLoading : DVector m) :
    ∃ newRep ∈ stdSimplex ℚ (Fin n),
      newReputation votes rep firstScore firstLoading = .ok newRep := by
  obtain ⟨score1, hscore1⟩ :=
    scoreReflect_succeeds hrep fun i => firstScore i + |vecMin firstScore|
  obtain ⟨score2, hscore2⟩ :=
    scoreReflect_succeeds hrep fun i => |firstScore i - vecMax firstScore|
  have hmean : 0 < (∑ i, rep i) / n := by
    rw [hrep.2]
    positivity
  unfold newReputation
  split
  · refine ⟨_, ?_, bind_eq_ok_iff.mpr ⟨score1, hscore1, bind_eq_ok_iff.mpr
      ⟨score2, hscore2, if_pos hmean⟩⟩⟩
    split
    · exact normalizeWeights_mem hn _
    · exact normalizeWeights_mem hn _
  · exact ⟨rep, hrep, rfl⟩

theorem getRewardWeights_succeeds (hn : n ≠ 0) (hrep : rep ∈ stdSimplex ℚ (Fin n))
    (prinComp : PrinComp) (votes : FilledMatrix n m) {alpha participationTotal : Rat}
    {voterParticipation : DVector n} (halpha : 0 ≤ alpha) (halpha' : alpha ≤ 1)
    (hvoter : ∀ i, 0 ≤ voterParticipation i) (htotal : 0 ≤ participationTotal)
    (htotal' : participationTotal ≤ 1) :
    ∃ agents, getRewardWeights prinComp votes rep alpha voterParticipation participationTotal =
      .ok agents ∧ agents.smoothRep ∈ stdSimplex ℚ (Fin n) := by
  have hprin : weightedPrinComp prinComp votes rep = .ok (prinComp n m votes rep) := by
    rw [weightedPrinComp, hrep.2, if_neg (by norm_num)]
  obtain ⟨newRep, hnew, hscored⟩ := newReputation_succeeds hn hrep votes
    (prinComp n m votes rep).1 (prinComp n m votes rep).2
  refine ⟨_, bind_eq_ok_iff.mpr ⟨_, hprin, bind_eq_ok_iff.mpr ⟨newRep, hscored, rfl⟩⟩, ?_⟩
  exact smoothReputation_mem hn rep hnew halpha halpha' hvoter htotal htotal'

theorem factory_succeeds (hn : n ≠ 0) (hm : m ≠ 0) (hrep : rep ∈ stdSimplex ℚ (Fin n))
    (prinComp : PrinComp) (votes : VoteMatrix n m) (catchP : Rat) (scaledFlags : Fin m → Bool) :
    ∃ result, factory prinComp votes rep catchP scaledFlags = .ok result ∧
      result.agents.smoothRep ∈ stdSimplex ℚ (Fin n) := by
  have halpha : 0 ≤ smoothingAlpha := by norm_num [smoothingAlpha]
  have halpha' : smoothingAlpha ≤ 1 := by norm_num [smoothingAlpha]
  obtain ⟨agents, hagents, hmem⟩ := getRewardWeights_succeeds hn hrep prinComp
    (fillNa votes rep catchP).filled halpha halpha' (voterParticipation_nonneg votes rep catchP)
    (participationTotal_nonneg votes rep catchP) (participationTotal_le_one votes rep catchP)
  have hnonempty : ¬ (m = 0 ∨ n = 0) := fun h => h.elim hm hn
  rw [factory, if_neg hnonempty]
  exact ⟨_, bind_eq_ok_iff.mpr ⟨agents, hagents, rfl⟩, hmem⟩

end

section

variable {matrix : SparseVoteMatrix Rat} {reputationVector : Table Address Rat}

theorem repVector_mem (hvoters : matrix.voters ≠ []) (h : Nonneg reputationVector) :
    repVector matrix reputationVector ∈ stdSimplex ℚ (Fin matrix.voters.length) := by
  simp only [repVector]
  split
  · rename_i hsum
    exact div_sum_mem (fun i => getReputation_nonneg h _) (ne_of_gt hsum)
  · exact const_mem (by simpa using hvoters)

theorem runFactory_succeeds (hvoters : matrix.voters ≠ []) (hdecisions : matrix.decisions ≠ [])
    (h : Nonneg reputationVector) (prinComp : PrinComp) (scaledDecisions : List DecisionId)
    (categoricalColumns : Fin matrix.decisions.length → Option Nat) :
    ∃ result, runFactory matrix reputationVector prinComp scaledDecisions categoricalColumns =
      .ok result ∧ result.agents.smoothRep ∈ stdSimplex ℚ (Fin matrix.voters.length) :=
  factory_succeeds (by simpa using hvoters) (by simpa using hdecisions)
    (repVector_mem hvoters h) prinComp _ _ _

theorem nonempty_of_runFactory {prinComp : PrinComp} {scaledDecisions : List DecisionId}
    {categoricalColumns : Fin matrix.decisions.length → Option Nat}
    {result : FactoryResult matrix.voters.length matrix.decisions.length}
    (h : runFactory matrix reputationVector prinComp scaledDecisions categoricalColumns =
      .ok result) : matrix.voters ≠ [] ∧ matrix.decisions ≠ [] := by
  unfold runFactory factory at h
  split at h
  · cases h
  · rename_i hnonempty
    simpa [not_or, and_comm] using hnonempty

end

end Truthcoin.OracleWeights
