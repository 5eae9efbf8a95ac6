import Truthcoin.OracleUpdates

/-!
# What a count gives

The algorithm, in exact arithmetic, on the matrix of a period, whose voters are the holders
of reputation. It has an outcome for every decision, and none is negative when no vote is.
The reputations that it writes back have the total of the old ones, up to the tolerance of a
commit, unless rounding adds more to the shares of the holders than the greatest of them
can give back.
-/

namespace Truthcoin.OracleCounts

open Truthcoin.Types Truthcoin.Table Truthcoin.Fallible Truthcoin.Decisions Truthcoin.Voting
open Truthcoin.Trading Truthcoin.Reputation Truthcoin.ReputationTotal Truthcoin.Oracle
open Truthcoin.OracleWeights Truthcoin.OracleUpdates Truthcoin.RationalRounding

section

variable {n m : Nat}

theorem catchTl_nonneg (x tolerance : Rat) : 0 ≤ catchTl x tolerance := by
  unfold catchTl
  split
  · exact le_rfl
  · split
    · exact zero_le_one
    · norm_num [neutralValue]

theorem roundToPrecision_nonneg {x : Rat} (hx : 0 ≤ x) (decimals : Nat) :
    0 ≤ roundToPrecision x decimals := by
  have hscaled : 0 ≤ x * 10 ^ decimals := by positivity
  have hfloor : 0 ≤ ⌊x * 10 ^ decimals + 1 / 2⌋ := Int.floor_nonneg.mpr (by positivity)
  have hround : 0 ≤ roundRat (x * 10 ^ decimals) := by
    rw [roundRat_eq_floor hscaled]
    exact_mod_cast hfloor
  show 0 ≤ if true = true then roundRat (x * 10 ^ decimals) / 10 ^ decimals else x
  rw [if_pos rfl]
  positivity

theorem medianLoop_nonneg {rows : List (Rat × Rat)} {halfWeight cumulativeWeight median : Rat}
    (hrows : ∀ row ∈ rows, 0 ≤ row.1)
    (h : medianLoop halfWeight cumulativeWeight rows = some median) : 0 ≤ median := by
  induction rows generalizing cumulativeWeight with
  | nil => cases h
  | cons row rows ih =>
      have hrow := hrows row List.mem_cons_self
      have hrest : ∀ row' ∈ rows, 0 ≤ row'.1 := fun row' hrow' =>
        hrows row' (List.mem_cons_of_mem row hrow')
      unfold medianLoop at h
      dsimp only at h
      split at h
      · split at h
        · rwa [← Option.some.inj h]
        · rename_i next _
          have hnext := hrest next List.mem_cons_self
          split at h
          · rw [← Option.some.inj h]
            linarith
          · rwa [← Option.some.inj h]
      · exact ih hrest h

theorem weightedMedian_nonneg {values weights : DVector n} {median : Rat}
    (hvalues : ∀ i, 0 ≤ values i) (h : weightedMedian values weights = .ok median) :
    0 ≤ median := by
  have hsorted : ∀ row ∈ (List.ofFn fun i => (values i, weights i)).insertionSort
      (fun a b => a.1 ≤ b.1), 0 ≤ row.1 := by
    intro row hrow
    rw [List.mem_insertionSort] at hrow
    obtain ⟨i, rfl⟩ := (List.mem_ofFn' _ _).mp hrow
    exact hvalues i
  unfold weightedMedian at h
  dsimp only at h
  split at h
  · cases h
  · rename_i last hlast
    split at h
    · cases h
    · rw [← Except.ok.inj h]
      cases hloop : medianLoop ((∑ i, weights i) / 2) 0
          ((List.ofFn fun i => (values i, weights i)).insertionSort fun a b => a.1 ≤ b.1) with
      | none => exact hsorted last (List.mem_of_getLast? hlast)
      | some median => exact medianLoop_nonneg hsorted hloop

theorem decisionOutcome_nonneg {filled : FilledMatrix n m} (hfilled : ∀ i j, 0 ≤ filled i j)
    (smoothRep : DVector n) (catchP : Rat) (isScaled : Bool) (j : Fin m) :
    0 ≤ decisionOutcome filled smoothRep catchP isScaled j := by
  unfold decisionOutcome
  split
  · split
    · rename_i hmedian
      exact weightedMedian_nonneg (fun i => hfilled i j) hmedian
    · norm_num [neutralValue]
  · exact catchTl_nonneg _ _

/-- No vote of the matrix is negative. -/
def NonnegVotes (votes : VoteMatrix n m) : Prop :=
  ∀ i j v, votes i j = some v → 0 ≤ v

theorem NonnegVotes.resolveCategoricalPlurality {votes : VoteMatrix n m} (h : NonnegVotes votes)
    (categoricalColumns : Fin m → Option Nat) :
    NonnegVotes (resolveCategoricalPlurality votes categoricalColumns).1 := by
  intro i j v hv
  simp only [Oracle.resolveCategoricalPlurality] at hv
  cases hcolumn : categoricalColumns j with
  | none =>
      rw [hcolumn] at hv
      exact h i j v hv
  | some optionCount =>
      simp only [hcolumn, rewriteColumn] at hv
      cases hwinner : winningOption (fun row => votes row j) optionCount with
      | none =>
          rw [hwinner] at hv
          exact h i j v hv
      | some winner =>
          rw [hwinner] at hv
          obtain ⟨val, -, rfl⟩ := Option.map_eq_some_iff.mp hv
          split
          · exact zero_le_one
          · exact le_rfl

theorem NonnegVotes.fillNa {votes : VoteMatrix n m} (h : NonnegVotes votes) (rep : DVector n)
    (catchP : Rat) (i : Fin n) (j : Fin m) : 0 ≤ (fillNa votes rep catchP).filled i j := by
  simp only [Oracle.fillNa]
  cases hvote : votes i j with
  | none => exact catchTl_nonneg _ _
  | some v => exact h i j v hvote

theorem NonnegVotes.factory {prinComp : PrinComp} {votes : VoteMatrix n m} {rep : DVector n}
    {catchP : Rat} {scaledFlags : Fin m → Bool} {result : FactoryResult n m}
    (hvotes : NonnegVotes votes)
    (h : factory prinComp votes rep catchP scaledFlags = .ok result) (j : Fin m) :
    0 ≤ result.decisions j := by
  unfold Oracle.factory at h
  split at h
  · cases h
  · obtain ⟨agents, -, h⟩ := bind_eq_ok_iff.mp h
    rw [← Except.ok.inj h]
    exact decisionOutcome_nonneg (hvotes.fillNa rep catchP) _ _ _ _

end

section

variable {prinComp : PrinComp} {matrix : SparseVoteMatrix Rat} {reputations : Table Address Rat}
  {scaledDecisions : List DecisionId} {categoricalDecisions : List (DecisionId × Nat)}
  {result : DetailedConsensusResult Rat}

theorem nonnegVotes_denseMatrix (h : ∀ entry ∈ matrix.entries, 0 ≤ entry.2) :
    NonnegVotes (denseMatrix matrix) := by
  intro i j v hv
  obtain ⟨entry, hentry, rfl⟩ := Option.map_eq_some_iff.mp hv
  exact h entry (List.mem_reverse.mp (List.mem_of_find?_eq_some hentry))

theorem runConsensus_of_calculateConsensus
    (h : calculateConsensus prinComp matrix reputations scaledDecisions categoricalDecisions =
      some result) :
    runConsensus prinComp matrix (fromReputationMap reputations) scaledDecisions
      categoricalDecisions = .ok result := by
  unfold calculateConsensus at h
  cases hrun : runConsensus prinComp matrix (fromReputationMap reputations) scaledDecisions
      categoricalDecisions with
  | error e =>
      rw [hrun] at h
      cases h
  | ok result' =>
      rw [hrun] at h
      rw [Option.some.inj h]

theorem nonneg_fromReputationMap (reputations : Table Address Rat) :
    Nonneg (fromReputationMap reputations) := by
  intro address rep hrow
  rw [fromReputationMap, Std.ExtTreeMap.getElem?_map] at hrow
  obtain ⟨old, -, rfl⟩ := Option.map_eq_some_iff.mp hrow
  exact le_max_left _ _

theorem calculateConsensus_isSome (prinComp : PrinComp) (reputations : Table Address Rat)
    (scaledDecisions : List DecisionId) (categoricalDecisions : List (DecisionId × Nat))
    (hvoters : matrix.voters ≠ []) (hdecisions : matrix.decisions ≠ []) :
    ∃ result, calculateConsensus prinComp matrix reputations scaledDecisions
      categoricalDecisions = some result := by
  obtain ⟨factory, hfactory, -⟩ := runFactory_succeeds hvoters hdecisions
    (nonneg_fromReputationMap reputations) prinComp scaledDecisions fun j =>
      (categoricalDecisions.find? fun entry => entry.1 = matrix.decisions.get j).map Prod.snd
  obtain ⟨result, hresult⟩ : ∃ result, runConsensus prinComp matrix
      (fromReputationMap reputations) scaledDecisions categoricalDecisions = .ok result :=
    ⟨_, bind_eq_ok_iff.mpr ⟨factory, hfactory, rfl⟩⟩
  refine ⟨result, ?_⟩
  rw [calculateConsensus, hresult]
  rfl

theorem outcomes_of_calculateConsensus
    (h : calculateConsensus prinComp matrix reputations scaledDecisions categoricalDecisions =
      some result) : result.outcomes.map Prod.fst = matrix.decisions := by
  obtain ⟨factory, -, hresult⟩ := bind_eq_ok_iff.mp (runConsensus_of_calculateConsensus h)
  rw [← Except.ok.inj hresult, List.map_ofFn]
  exact List.ofFn_getElem

theorem outcome_nonneg_of_calculateConsensus (hvotes : ∀ entry ∈ matrix.entries, 0 ≤ entry.2)
    (h : calculateConsensus prinComp matrix reputations scaledDecisions categoricalDecisions =
      some result) {outcome : DecisionId × Option Rat} (houtcome : outcome ∈ result.outcomes)
    {value : Rat} (hvalue : outcome.2 = some value) : 0 ≤ value := by
  obtain ⟨factory, hfactory, hresult⟩ :=
    bind_eq_ok_iff.mp (runConsensus_of_calculateConsensus h)
  rw [← Except.ok.inj hresult] at houtcome
  obtain ⟨j, rfl⟩ := (List.mem_ofFn' _ _).mp houtcome
  have hneutral : (0 : Rat) ≤ neutralValue := by norm_num [neutralValue]
  dsimp only at hvalue
  split at hvalue
  · split at hvalue
    · rw [← Option.some.inj hvalue]
      split
      · exact Nat.cast_nonneg _
      · exact hneutral
    · rwa [← Option.some.inj hvalue]
  · split at hvalue
    · rw [← Option.some.inj hvalue]
      exact roundToPrecision_nonneg
        (((nonnegVotes_denseMatrix hvotes).resolveCategoricalPlurality _).factory hfactory j) 8
    · cases hvalue

end

section

variable {rows : List (Address × Rat)} {total : Rat}

theorem sum_le_of_max {best : Address × Rat} (h : ∀ row ∈ rows, row.2 ≤ best.2) :
    (rows.map Prod.snd).sum ≤ rows.length * best.2 := by
  have hsum := List.sum_le_card_nsmul (rows.map Prod.snd) best.2 (List.forall_mem_map.mpr h)
  simpa using hsum

theorem nonneg_adjustResidual (hne : rows ≠ []) (hnodup : (rows.map Prod.fst).Nodup)
    (hrows : ∀ row ∈ rows, 0 ≤ row.2)
    (hshare : ((rows.length : Rat) - 1) * (rows.map Prod.snd).sum ≤ rows.length * total) :
    Nonneg (adjustResidual total rows) := by
  obtain ⟨best, hbest, hmax, hgreatest⟩ := maxVoter_spec hne
  have hlength : (0 : Rat) < rows.length := by
    exact_mod_cast List.length_pos_of_ne_nil hne
  have hgiven : 0 ≤ best.2 + (total - (rows.map Prod.snd).sum) := by
    have hsum := sum_le_of_max hgreatest
    refine nonneg_of_mul_nonneg_right ?_ hlength
    linarith
  have hupdated : Nonneg (rows.foldl (fun t row => t.insert row.1 row.2) ∅) := by
    intro address rep hrep
    rcases (foldl_insert_spec rows ∅).1 address rep hrep with habsent | hmem
    · simp at habsent
    · exact hrows _ hmem
  simp only [adjustResidual, hmax, lookup_of_rows hnodup hbest, total_of_rows hnodup]
  split
  · exact hupdated.insert (roundToPrecision_nonneg hgiven 10)
  · exact hupdated

theorem keys_adjustResidual (hne : rows ≠ []) (hnodup : (rows.map Prod.fst).Nodup)
    {address : Address} (haddress : address ∈ rows.map Prod.fst) :
    ∃ rep, (adjustResidual total rows)[address]? = some rep := by
  obtain ⟨best, hbest, hmax, -⟩ := maxVoter_spec hne
  obtain ⟨rep, hrep⟩ := (foldl_insert_spec rows ∅).2 address haddress
  simp only [adjustResidual, hmax, lookup_of_rows hnodup hbest]
  split
  · rw [Std.ExtTreeMap.getElem?_insert, hrep]
    split
    · exact ⟨_, rfl⟩
    · exact ⟨_, rfl⟩
  · exact ⟨rep, hrep⟩

end

section

variable {matrix : SparseVoteMatrix Rat} {reputations : Table Address Rat}

theorem clampUnit_le {x : Rat} (hx : 0 ≤ x) : clampUnit x ≤ x :=
  max_le hx (min_le_right _ _)

theorem lookup_fromReputationMap (h : Positive reputations) (address : Address) :
    (fromReputationMap reputations)[address]? = (reputations[address]?).map clampUnit := by
  rw [fromReputationMap, Std.ExtTreeMap.getElem?_map, Std.ExtTreeMap.getElem?_filter]
  cases hrow : reputations[address]? with
  | none => rfl
  | some rep =>
      have hpos : 0 < rep := lt_rat.mp (h address rep hrow)
      simp [Option.filter, hpos]

theorem toList_fromReputationMap (h : Positive reputations) :
    (fromReputationMap reputations).toList =
      reputations.toList.map fun row => (row.1, clampUnit row.2) := by
  rw [← Std.ExtTreeMap.toList_map (f := fun _ rep => clampUnit rep)]
  congr 1
  apply ext_lookup
  intro address
  rw [lookup_fromReputationMap h, Std.ExtTreeMap.getElem?_map]

theorem originalTotal_of_holders (hvoters : matrix.voters = reputations.toList.map Prod.fst)
    (h : Positive reputations) :
    originalTotal matrix (fromReputationMap reputations) =
      totalReputation (fromReputationMap reputations) := by
  rw [originalTotal, totalReputation_eq_sum, hvoters, toList_fromReputationMap h, List.map_map,
    List.map_map]
  congr 1
  refine List.map_congr_left fun row hrow => ?_
  show getReputation (fromReputationMap reputations) row.1 = clampUnit row.2
  rw [getReputation, lookup_fromReputationMap h, mem_toList_iff.mp hrow]
  rfl

theorem total_fromReputationMap_pos (hpositive : Positive reputations)
    (hne : reputations.toList ≠ []) : 0 < totalReputation (fromReputationMap reputations) := by
  rw [totalReputation_eq_sum, toList_fromReputationMap hpositive, List.map_map]
  refine List.sum_pos _ ?_ (by simpa using hne)
  intro x hx
  obtain ⟨row, hrow, rfl⟩ := List.mem_map.mp hx
  have hpos : 0 < row.2 := lt_rat.mp (hpositive row.1 row.2 (mem_toList_iff.mp hrow))
  exact lt_max_of_lt_right (lt_min one_pos hpos)

theorem total_fromReputationMap_le (hpositive : Positive reputations) :
    totalReputation (fromReputationMap reputations) ≤ totalReputation reputations := by
  rw [totalReputation_eq_sum, totalReputation_eq_sum, toList_fromReputationMap hpositive,
    List.map_map]
  refine List.sum_le_sum fun row hrow => ?_
  have hpos : 0 < row.2 := lt_rat.mp (hpositive row.1 row.2 (mem_toList_iff.mp hrow))
  exact clampUnit_le hpos.le

theorem sum_scaledReputations_le {weights : Table Address Rat}
    {smoothRep : DVector matrix.voters.length}
    (hsmooth : smoothRep ∈ stdSimplex ℚ (Fin matrix.voters.length))
    (htotal : 0 < originalTotal matrix weights) :
    ((scaledReputations matrix weights smoothRep).map Prod.snd).sum ≤
      originalTotal matrix weights + matrix.voters.length * (1 / 2 / 10 ^ 10) := by
  have hscale : scaleFactor matrix weights smoothRep = originalTotal matrix weights := by
    simp only [scaleFactor, hsmooth.2, one_pos, htotal, and_self, if_true, div_one]
  rw [scaledReputations, List.map_ofFn, List.sum_ofFn, hscale]
  calc ∑ i, roundReputation (smoothRep i * originalTotal matrix weights)
      ≤ ∑ i, (smoothRep i * originalTotal matrix weights + 1 / 2 / 10 ^ 10) :=
        Finset.sum_le_sum fun i _ =>
          sub_le_iff_le_add'.mp (abs_le.mp (abs_roundReputation_sub_le _)).2
    _ = originalTotal matrix weights + matrix.voters.length * (1 / 2 / 10 ^ 10) := by
        rw [Finset.sum_add_distrib, ← Finset.sum_mul, hsmooth.2, one_mul]
        simp

theorem map_fst_scaledReputations (matrix : SparseVoteMatrix Rat) (weights : Table Address Rat)
    (smoothRep : DVector matrix.voters.length) :
    (scaledReputations matrix weights smoothRep).map Prod.fst = matrix.voters := by
  rw [scaledReputations, List.map_ofFn]
  exact List.ofFn_getElem

theorem nonneg_updatedReputations {weights : Table Address Rat}
    {smoothRep : DVector matrix.voters.length} (hnodup : matrix.voters.Nodup)
    (hsmooth : smoothRep ∈ stdSimplex ℚ (Fin matrix.voters.length))
    (htotal : 0 < originalTotal matrix weights)
    (hrounding : (matrix.voters.length : Rat) * (matrix.voters.length - 1) * (1 / 2 / 10 ^ 10) ≤
      originalTotal matrix weights) :
    Nonneg (updatedReputations matrix weights smoothRep) := by
  have hfst := map_fst_scaledReputations matrix weights smoothRep
  have hlength : (scaledReputations matrix weights smoothRep).length = matrix.voters.length :=
    List.length_ofFn
  have hne : matrix.voters ≠ [] := by
    intro hempty
    rw [originalTotal, hempty] at htotal
    exact lt_irrefl 0 htotal
  have hone : (1 : Rat) ≤ matrix.voters.length := by
    exact_mod_cast List.length_pos_of_ne_nil hne
  refine nonneg_adjustResidual ?_ (hfst ▸ hnodup) ?_ ?_
  · intro hempty
    rw [hempty] at hfst
    exact hne hfst.symm
  · intro row hrow
    obtain ⟨i, rfl⟩ := (List.mem_ofFn' _ _).mp hrow
    refine roundToPrecision_nonneg (mul_nonneg (hsmooth.1 i) ?_) 10
    simp only [scaleFactor, hsmooth.2, one_pos, htotal, and_self, if_true, div_one]
    exact htotal.le
  · have hsum := sum_scaledReputations_le hsmooth htotal
    rw [hlength]
    calc ((matrix.voters.length : Rat) - 1) *
          ((scaledReputations matrix weights smoothRep).map Prod.snd).sum
        ≤ ((matrix.voters.length : Rat) - 1) *
            (originalTotal matrix weights + matrix.voters.length * (1 / 2 / 10 ^ 10)) :=
          mul_le_mul_of_nonneg_left hsum (sub_nonneg.mpr hone)
      _ ≤ matrix.voters.length * originalTotal matrix weights := by linarith

/-- What rounding can add to the shares of all holders but one is at most their total, and
to count a reputation above one as one takes almost nothing from it. -/
@[mk_iff]
structure Absorbable (reputations : Table Address Rat) : Prop where
  rounding : (reputations.size : Rat) * (reputations.size - 1) * (1 / 2 / 10 ^ 10) ≤
    totalReputation (fromReputationMap reputations)
  clamping : totalReputation reputations - totalReputation (fromReputationMap reputations) ≤
    19 / 20 / 10 ^ 9

instance (reputations : Table Address Rat) : Decidable (Absorbable reputations) :=
  decidable_of_iff' _ (absorbable_iff reputations)

/-- The reputations that a count writes back have the total of the old ones, up to the
tolerance of a commit. -/
theorem total_of_calculateConsensus {prinComp : PrinComp} {scaledDecisions : List DecisionId}
    {categoricalDecisions : List (DecisionId × Nat)} {result : DetailedConsensusResult Rat}
    (hvoters : matrix.voters = reputations.toList.map Prod.fst)
    (hpositive : Positive reputations) (habsorbable : Absorbable reputations)
    (h : calculateConsensus prinComp matrix reputations scaledDecisions categoricalDecisions =
      some result) :
    |totalReputation (computePostConsensusReputation reputations result.updatedReputations) -
      totalReputation reputations| ≤ 1 / 10 ^ 9 := by
  have hrun := runConsensus_of_calculateConsensus h
  obtain ⟨factory, hfactory, hresult⟩ := bind_eq_ok_iff.mp hrun
  obtain ⟨hvotersne, hdecisions⟩ := nonempty_of_runFactory hfactory
  obtain ⟨factory', hfactory', hsmooth⟩ := runFactory_succeeds hvotersne hdecisions
    (nonneg_fromReputationMap reputations) prinComp scaledDecisions _
  obtain rfl : factory = factory' := Except.ok.inj (hfactory.symm.trans hfactory')
  have hlength : matrix.voters.length = reputations.size := by
    rw [hvoters, List.length_map, Std.ExtTreeMap.length_toList]
  have htotal := originalTotal_of_holders hvoters hpositive
  have hpos := total_fromReputationMap_pos hpositive (by simpa [hvoters] using hvotersne)
  have hnodup : matrix.voters.Nodup := by
    rw [hvoters]
    exact toList_keys_nodup reputations
  have hnonneg : Nonneg result.updatedReputations := by
    rw [← Except.ok.inj hresult]
    refine nonneg_updatedReputations hnodup hsmooth (htotal ▸ hpos) ?_
    rw [hlength, htotal]
    exact habsorbable.rounding
  have hkeys : ∀ (address : Address) (rep : Rat), reputations[address]? = some rep →
      ∃ rep', result.updatedReputations[address]? = some rep' := by
    intro address rep hrow
    have hvoter : address ∈ matrix.voters := by
      rw [hvoters]
      exact List.mem_map.mpr ⟨(address, rep), mem_toList_iff.mpr hrow, rfl⟩
    have hfst := map_fst_scaledReputations matrix (fromReputationMap reputations)
      factory.agents.smoothRep
    rw [← Except.ok.inj hresult]
    rw [← hfst] at hnodup hvoter hvotersne
    refine keys_adjustResidual ?_ hnodup hvoter
    intro hempty
    rw [hempty] at hvotersne
    exact hvotersne rfl
  have hclose := (total_of_runConsensus hrun).2
  have hle := total_fromReputationMap_le hpositive
  rw [htotal] at hclose
  rw [total_computePostConsensusReputation hnonneg hkeys, abs_le]
  obtain ⟨hlower, hupper⟩ := abs_le.mp hclose
  have hclamping := habsorbable.clamping
  constructor
  · linarith
  · linarith

end

end Truthcoin.OracleCounts
