import Truthcoin.OracleUpdates

/-!
# Conservation of reputation

Consensus moves reputation between voters and transfers move it between holders. The
weights that consensus computes sum to one, and what it writes back is rounded to ten
decimals. With very many holders the rounded reputations have more over one than the
greatest holder can give, and then a commit does not leave a total of one.
-/

namespace Truthcoin.ReputationConserved

open Truthcoin.Types Truthcoin.Table Truthcoin.Fallible Truthcoin.Decisions Truthcoin.Voting
open Truthcoin.Blocks Truthcoin.Reputation Truthcoin.ReputationTotal Truthcoin.Oracle
open Truthcoin.OracleWeights Truthcoin.OracleUpdates Truthcoin.Validation Truthcoin.Apply

/-- Whatever the first score is: the smoothed reputations are nonnegative and sum to one;
the updated reputations sum to the total of the voters exactly when that total has at most
ten decimals, and never differ from it by more than rounding does; and the total stays one
over commits and transfers, as long as some holder can give what a commit has over one. -/
theorem reputation_conserved (prinComp : PrinComp) :
    (∀ (matrix : SparseVoteMatrix Rat) (reputationVector : Table Address Rat)
        (scaledDecisions : List DecisionId)
        (categoricalColumns : Fin matrix.decisions.length → Option Nat),
      matrix.voters ≠ [] → matrix.decisions ≠ [] → Nonneg reputationVector →
        ∃ result, runFactory matrix reputationVector prinComp scaledDecisions
            categoricalColumns = .ok result ∧
          (∀ i, 0 ≤ result.agents.smoothRep i) ∧ ∑ i, result.agents.smoothRep i = 1) ∧
    (∀ (matrix : SparseVoteMatrix Rat) (reputationVector : Table Address Rat)
        (scaledDecisions : List DecisionId) (categoricalDecisions : List (DecisionId × Nat))
        (result : DetailedConsensusResult Rat),
      runConsensus prinComp matrix reputationVector scaledDecisions categoricalDecisions =
          .ok result →
        (totalReputation result.updatedReputations = originalTotal matrix reputationVector ↔
            ∃ k : ℤ, originalTotal matrix reputationVector = k / 10 ^ 10) ∧
          |totalReputation result.updatedReputations - originalTotal matrix reputationVector| ≤
            1 / 2 / 10 ^ 10) ∧
    ∀ start reputation : Table Address Rat, Nonneg start → totalReputation start = 1 →
      ReputationRun AbsorbedAt start reputation → totalReputation reputation = 1 := by
  refine ⟨?_, ?_, ?_⟩
  · intro matrix reputationVector scaledDecisions categoricalColumns hvoters hdecisions hnonneg
    obtain ⟨result, hresult, hmem⟩ := runFactory_succeeds hvoters hdecisions hnonneg prinComp
      scaledDecisions categoricalColumns
    exact ⟨result, hresult, hmem.1, hmem.2⟩
  · intro matrix reputationVector scaledDecisions categoricalDecisions result h
    exact total_of_runConsensus h
  · intro start reputation hstart htotal hrun
    exact (total_of_run hstart htotal hrun).1

/-- A first score of a matrix whose rows are equal. -/
def equalRows : PrinComp := fun _ _ _ _ => (fun _ => 0, fun _ => 1)

section

variable {n m : Nat}

theorem normalizeWeights_of_mem {v : DVector n} (h : v ∈ stdSimplex ℚ (Fin n)) :
    normalizeWeights v = v := by
  have habs : ∀ i, |v i| = v i := fun i => abs_of_nonneg (h.1 i)
  funext i
  simp only [normalizeWeights, habs, h.2, if_neg one_ne_zero, div_one]

theorem smoothReputation_self {rep : DVector n} (h : rep ∈ stdSimplex ℚ (Fin n)) (alpha : Rat)
    (voterParticipation : DVector n) :
    smoothReputation rep rep alpha voterParticipation 1 = rep := by
  funext i
  simp only [smoothReputation, normalizeWeights_of_mem h]
  ring

theorem castCount_of_all_cast {votes : VoteMatrix n m} (h : ∀ i j, (votes i j).isSome = true)
    (i : Fin n) : castCount votes i = m := by
  have hall : (List.finRange m).filter (fun j => (votes i j).isSome) = List.finRange m :=
    List.filter_eq_self.mpr fun j _ => h i j
  rw [castCount, hall, List.length_finRange]

theorem participationTotal_of_all_cast {votes : VoteMatrix n m}
    (h : ∀ i j, (votes i j).isSome = true) (hn : n ≠ 0) (hm : m ≠ 0) (rep : DVector n)
    (catchP : Rat) : (fillNa votes rep catchP).participationTotal = 1 := by
  have hnm : n * m ≠ 0 := Nat.mul_ne_zero hn hm
  simp only [fillNa, if_neg hnm, castCount_of_all_cast h, Finset.sum_const, Finset.card_univ,
    Fintype.card_fin, smul_eq_mul]
  exact div_self (Nat.cast_ne_zero.mpr hnm)

theorem factory_of_all_cast {votes : VoteMatrix n m} (h : ∀ i j, (votes i j).isSome = true)
    (hn : n ≠ 0) (hm : m ≠ 0) {rep : DVector n} (hrep : rep ∈ stdSimplex ℚ (Fin n))
    (catchP : Rat) (scaledFlags : Fin m → Bool) :
    ∃ result, factory equalRows votes rep catchP scaledFlags = .ok result ∧
      result.agents.smoothRep = rep := by
  have hprin : ∀ filled : FilledMatrix n m, weightedPrinComp equalRows filled rep =
      .ok (fun _ => 0, fun _ => 1) := by
    intro filled
    rw [weightedPrinComp, hrep.2, if_neg (by norm_num)]
    rfl
  have hnew : ∀ filled : FilledMatrix n m,
      newReputation filled rep (fun _ => 0) (fun _ => 1) = .ok rep := by
    intro filled
    rw [newReputation, if_neg]
    simp
  have hnonempty : ¬ (m = 0 ∨ n = 0) := fun hempty => hempty.elim hm hn
  rw [factory, if_neg hnonempty]
  refine ⟨_, bind_eq_ok_iff.mpr ⟨_, bind_eq_ok_iff.mpr ⟨_, hprin _, bind_eq_ok_iff.mpr
    ⟨rep, hnew _, rfl⟩⟩, rfl⟩, ?_⟩
  show smoothReputation _ _ _ _ _ = rep
  rw [participationTotal_of_all_cast h hn hm]
  exact smoothReputation_self hrep _ _

end

/-- Holders of the same reputation at the addresses below a number. -/
def equalHolders (count : Nat) (rep : Rat) : Table Address Rat :=
  (List.range count).foldl (fun t address => t.insert address rep) ∅

/-- Every holder votes one on the only decision. -/
def unanimous (count : Nat) (d : DecisionId) : SparseVoteMatrix Rat :=
  ⟨List.range count, [d], (List.range count).map fun address => ((address, d), 1)⟩

section

variable {count : Nat} {rep : Rat} {d : DecisionId}

theorem lookup_equalHolders (count : Nat) (rep : Rat) (address : Address) :
    (equalHolders count rep)[address]? = if address < count then some rep else none := by
  rw [equalHolders, lookup_foldl_insert]
  simp

theorem nonneg_equalHolders (hrep : 0 ≤ rep) : Nonneg (equalHolders count rep) := by
  intro address rep' hrow
  rw [lookup_equalHolders] at hrow
  split at hrow
  · rwa [← Option.some.inj hrow]
  · cases hrow

theorem total_of_consecutive (first : Nat) {t : Table Address Rat}
    (h : ∀ address : Address,
      t[address]? = if first ≤ address ∧ address < first + count then some rep else none) :
    totalReputation t = count * rep := by
  have hrows : t.toList = (List.range' first count).map fun address => (address, rep) := by
    refine toList_eq_of_sorted ?_ ?_
    · rw [List.pairwise_map]
      refine (List.pairwise_lt_range' 1 one_pos).imp ?_
      intro a b hlt
      simpa [keyCmp, TableKey.encode, Nat.compare_eq_lt] using hlt
    · rintro ⟨address, rep'⟩
      rw [h, List.mem_map]
      constructor
      · rintro ⟨a, ha, heq⟩
        obtain ⟨rfl, rfl⟩ := Prod.mk.inj heq
        rw [if_pos (by simpa using ha)]
      · intro hrow
        split at hrow
        · rename_i hmem
          refine ⟨address, by simpa using hmem, ?_⟩
          rw [Option.some.inj hrow]
        · cases hrow
  rw [totalReputation_eq_sum, hrows, List.map_map]
  simp [Function.comp_def]

theorem total_equalHolders : totalReputation (equalHolders count rep) = count * rep := by
  refine total_of_consecutive 0 ?_
  intro address
  rw [lookup_equalHolders]
  simp

theorem getVote_unanimous {address : Address} (h : address < count) :
    getVote (unanimous count d) address d = some 1 := by
  unfold getVote
  cases hfind : (unanimous count d).entries.reverse.find?
      (fun entry => entry.1 = (address, d)) with
  | none =>
      rw [List.find?_eq_none] at hfind
      have hmem : ((address, d), (1 : Rat)) ∈ (unanimous count d).entries.reverse := by
        simpa [unanimous] using h
      exact absurd (decide_eq_true rfl) (hfind _ hmem)
  | some entry =>
      have hmem := List.mem_of_find?_eq_some hfind
      rw [List.mem_reverse] at hmem
      obtain ⟨a, -, rfl⟩ := List.mem_map.mp hmem
      rfl

theorem voter_lt (i : Fin (unanimous count d).voters.length) :
    (unanimous count d).voters.get i < count :=
  List.mem_range.mp (List.get_mem (List.range count) i)

theorem getReputation_equalHolders {address : Address} (h : address < count) :
    getReputation (equalHolders count rep) address = rep := by
  rw [getReputation, lookup_equalHolders, if_pos h, Option.getD_some]

theorem originalTotal_unanimous :
    originalTotal (unanimous count d) (equalHolders count rep) = count * rep := by
  have hconst : (List.range count).map (getReputation (equalHolders count rep)) =
      List.replicate count rep := by
    rw [List.eq_replicate_iff]
    refine ⟨by simp, ?_⟩
    intro r hr
    obtain ⟨address, haddress, rfl⟩ := List.mem_map.mp hr
    exact getReputation_equalHolders (List.mem_range.mp haddress)
  show ((List.range count).map (getReputation (equalHolders count rep))).sum = _
  rw [hconst, List.sum_replicate, nsmul_eq_mul]

theorem sum_unanimous (x : Rat) :
    ∑ _i : Fin (unanimous count d).voters.length, x = count * x := by
  have hlength : (unanimous count d).voters.length = count := List.length_range
  rw [Finset.sum_const, Finset.card_univ, Fintype.card_fin, hlength, nsmul_eq_mul]

theorem repVector_unanimous (hcount : count ≠ 0) (hrep : 0 < rep) :
    repVector (unanimous count d) (equalHolders count rep) = fun _ => 1 / (count : Rat) := by
  have hweights : voterWeights (unanimous count d) (equalHolders count rep) = fun _ => rep := by
    funext i
    exact getReputation_equalHolders (voter_lt i)
  have hsum : 0 < (count : Rat) * rep := by positivity
  simp only [repVector, hweights, sum_unanimous, if_pos hsum]
  funext i
  field_simp

theorem runConsensus_unanimous (hcount : count ≠ 0) (hrep : 0 < rep) (d : DecisionId) :
    ∃ result, runConsensus equalRows (unanimous count d) (equalHolders count rep) [] [] =
        .ok result ∧
      result.updatedReputations = adjustResidual (count * rep)
        ((List.range count).map fun address => (address, roundReputation rep)) := by
  have hvoters : (unanimous count d).voters ≠ [] := by
    simpa [unanimous] using hcount
  have hcast : ∀ i j, ((resolveCategoricalPlurality (denseMatrix (unanimous count d))
      fun _ => none).1 i j).isSome = true := by
    intro i j
    have hd : (unanimous count d).decisions.get j = d :=
      List.mem_singleton.mp (List.get_mem [d] j)
    show (getVote _ _ _).isSome = true
    rw [hd, getVote_unanimous (voter_lt i)]
    rfl
  obtain ⟨factory, hfactory, hsmooth⟩ := factory_of_all_cast hcast (by simpa using hvoters)
    one_ne_zero (repVector_mem hvoters (nonneg_equalHolders hrep.le)) catchTolerance
    fun j => decide ((unanimous count d).decisions.get j ∈ ([] : List DecisionId))
  refine ⟨_, bind_eq_ok_iff.mpr ⟨factory, hfactory, rfl⟩, ?_⟩
  have hone : (count : Rat) * (1 / count) = 1 := mul_one_div_cancel (Nat.cast_ne_zero.mpr hcount)
  have htotal : 0 < (count : Rat) * rep := by positivity
  have hscaled : 1 / (count : Rat) * (count * rep) = rep := by field_simp
  show updatedReputations _ _ factory.agents.smoothRep = _
  rw [hsmooth, repVector_unanimous hcount hrep, updatedReputations, originalTotal_unanimous]
  congr 1
  simp only [scaledReputations, scaleFactor, sum_unanimous, originalTotal_unanimous, hone, one_pos,
    htotal, and_self, if_true, div_one, hscaled]
  exact List.ofFn_getElem_eq_map (List.range count) fun address =>
    (address, roundReputation rep)

theorem fromReputationMap_equalHolders (hrep : 0 < rep) (hrep' : rep ≤ 1) :
    fromReputationMap (equalHolders count rep) = equalHolders count rep := by
  apply ext_lookup
  intro address
  have hclamp : clampUnit rep = rep := by
    rw [clampUnit, min_eq_right hrep', max_eq_right hrep.le]
  simp only [fromReputationMap, Std.ExtTreeMap.getElem?_map, Std.ExtTreeMap.getElem?_filter,
    lookup_equalHolders]
  split
  · simp [Option.filter, hrep, hclamp]
  · rfl

theorem maxVoter_equal (hcount : count ≠ 0) :
    maxVoter ((List.range count).map fun address => (address, rep)) = some (0, rep) := by
  obtain ⟨k, rfl⟩ := Nat.exists_eq_succ_of_ne_zero hcount
  rw [List.range_succ_eq_map, List.map_cons, maxVoter, List.foldl_cons]
  refine List.foldlRecOn (motive := fun best => best = some (0, rep)) _ _ rfl ?_
  rintro best rfl row hrow
  obtain ⟨address, -, rfl⟩ := List.mem_map.mp hrow
  exact if_neg (lt_irrefl rep)

theorem lookup_adjustResidual_equal (hcount : count ≠ 0) {total : Rat}
    (htotal : total ≠ count * rep) (address : Address) :
    (adjustResidual total ((List.range count).map fun address => (address, rep)))[address]? =
      if address = 0 then some (roundReputation (rep + (total - count * rep)))
      else if address < count then some rep else none := by
  have hupdated : ((List.range count).map fun address => (address, rep)).foldl
      (fun (t : Table Address Rat) row => t.insert row.1 row.2) ∅ = equalHolders count rep := by
    rw [List.foldl_map]
    rfl
  have hresidual : 0 < |total - count * rep| := abs_pos.mpr (sub_ne_zero.mpr htotal)
  have hfirst : (equalHolders count rep)[0]? = some rep := by
    rw [lookup_equalHolders, if_pos (Nat.pos_of_ne_zero hcount)]
  simp only [adjustResidual, hupdated, total_equalHolders, if_pos hresidual,
    maxVoter_equal hcount, hfirst]
  rw [Std.ExtTreeMap.getElem?_insert, lookup_equalHolders]
  by_cases heq : address = 0
  · simp [heq]
  · simp [heq, Ne.symm heq]

/-- A result that updates nothing but reputations. -/
def updating (updated : Table Address Rat) : ConsensusResult Rat :=
  ⟨0, VotingPeriodStats.new 0 0, [], [], updated, 0⟩

theorem lookup_post_unanimous {least : Rat} (hcount : count ≠ 0) (hrep : 0 < rep) (hrep' : rep ≤ 1)
    (hround : roundReputation rep = least) (hleast : 0 < least)
    (htotal : (count : Rat) * rep ≠ count * least)
    (hfirst : roundReputation (least + (count * rep - count * least)) ≤ 0) (d : DecisionId) :
    ∃ result, calculateConsensus equalRows (unanimous count d) (equalHolders count rep) [] [] =
        some result ∧
      ∀ address : Address,
        (postReputation (equalHolders count rep) (updating result.updatedReputations))[address]? =
          if 1 ≤ address ∧ address < 1 + (count - 1) then some least else none := by
  obtain ⟨result, hresult, hupdated⟩ := runConsensus_unanimous hcount hrep d
  refine ⟨result, ?_, ?_⟩
  · rw [calculateConsensus, fromReputationMap_equalHolders hrep hrep', hresult]
    rfl
  · intro address
    have hdropped : F64.lt F64.zero
        (roundReputation (least + (count * rep - count * least))) = false :=
      lt_rat_false.mpr hfirst
    have hkept : F64.lt F64.zero least = true := lt_rat.mpr hleast
    have hlast : 1 + (count - 1) = count := by omega
    rw [lookup_postReputation, updating, hupdated, hround,
      lookup_adjustResidual_equal hcount htotal, hlast]
    by_cases hzero : address = 0
    · simp [hzero, hdropped]
    · have hone : 1 ≤ address := Nat.one_le_iff_ne_zero.mpr hzero
      by_cases hlt : address < count
      · simp [hzero, hlt, hkept, hone]
      · have hnot : ¬ (1 ≤ address ∧ address < count) := fun h => hlt h.2
        rw [if_neg hzero, if_neg hlt, if_neg hnot]
        simp only [getAllReputations_lookup, lookup_equalHolders, if_neg hlt, Option.filter_none]

theorem commit_of_verified (tables : ConsensusTables Rat) {updated : Table Address Rat}
    (h : verifyReputationConservation (getAllReputations tables.reputation)
      (postReputation tables.reputation (updating updated)) = .ok ()) :
    ∃ tables' entry, commitConsensusResult tables (updating updated) = .ok (tables', entry) :=
  ⟨_, _, bind_eq_ok_iff.mpr ⟨(), rfl, bind_eq_ok_iff.mpr ⟨(), h, bind_eq_ok_iff.mpr
    ⟨tables.decisions, rfl, rfl⟩⟩⟩⟩

theorem getAllReputations_equalHolders (hrep : 0 < rep) :
    getAllReputations (equalHolders count rep) = equalHolders count rep := by
  apply ext_lookup
  intro address
  have hpos : F64.lt F64.zero rep = true := lt_rat.mpr hrep
  rw [getAllReputations_lookup, lookup_equalHolders]
  split
  · simp only [Option.filter_some, hpos, if_true]
  · rfl

/-- Equal holders of whom all but one have together the least reputation twice over
one. -/
theorem commit_unanimous {least : Rat} (hrep : 0 < rep) (hrep' : rep ≤ 1)
    (hround : roundReputation rep = least) (hleast : 0 < least) (hleast' : least ≤ 1 / 10 ^ 10)
    (htotal : (count : Rat) * rep = 1) (hover : ((count - 1 : Nat) : Rat) * least = 1 + 2 * least)
    (hfirst : roundReputation (least + (1 - count * least)) ≤ 0) (d : DecisionId) :
    ∃ result tables' entry,
      calculateConsensus equalRows (unanimous count d) (equalHolders count rep) [] [] =
        some result ∧
      commitConsensusResult ⟨.empty Rat, .empty Rat, equalHolders count rep⟩
        (updating result.updatedReputations) = .ok (tables', entry) ∧
      totalReputation tables'.reputation ≠ 1 := by
  have hcount : count ≠ 0 := by
    rintro rfl
    simp at htotal
  have hne : (count : Rat) * rep ≠ count * least := by
    have hcast : ((count - 1 : Nat) : Rat) = count - 1 := Nat.cast_pred (Nat.pos_of_ne_zero hcount)
    rw [hcast] at hover
    rw [htotal]
    linarith
  obtain ⟨result, hresult, hlookup⟩ := lookup_post_unanimous hcount hrep hrep' hround hleast hne
    (by rwa [htotal]) d
  have hpost := (total_of_consecutive 1 hlookup).trans hover
  have hverified : verifyReputationConservation (getAllReputations (equalHolders count rep))
      (postReputation (equalHolders count rep) (updating result.updatedReputations)) =
        .ok () := by
    have hdrift : |1 + 2 * least - 1| = 2 * least := by
      rw [add_sub_cancel_left, abs_of_pos (by linarith)]
    rw [verified_iff, getAllReputations_equalHolders hrep, total_equalHolders, htotal, hpost,
      hdrift]
    constructor
    · linarith
    · linarith
  obtain ⟨tables', entry, hcommit⟩ :=
    commit_of_verified ⟨.empty Rat, .empty Rat, equalHolders count rep⟩ hverified
  refine ⟨result, tables', entry, hresult, hcommit, ?_⟩
  rw [Ne, total_of_commit_iff hcommit]
  rintro ⟨row, hrow, hle⟩
  have hrow' := mem_toList_iff.mp hrow
  rw [hlookup] at hrow'
  split at hrow'
  · rw [hpost, ← Option.some.inj hrow'] at hle
    linarith
  · cases hrow'

end

/-- Three holders of a third. -/
def thirds : Table Address Rat := equalHolders 3 (1 / 3)

/-- A tenth goes from the first holder to an address without reputation. -/
def tenth : TransferReputation Rat := ⟨0, 7, 1 / 10⟩

def tenthTx : FilledTransaction Rat :=
  ⟨⟨[.deposit 1 0], [], [], some (.transferReputation tenth)⟩, [⟨0, .bitcoin 1000, []⟩], none⟩

def thirdsState : State Rat := { State.empty Rat with reputation := thirds }

/-- The thirds after the transfer, rounded, and one of the holders unchanged. -/
def roundedThirds : Table Address Rat :=
  (((∅ : Table Address Rat).insert 0 (2333333333 / 10 ^ 10)).insert 1
    (3333333333 / 10 ^ 10)).insert 7 (1 / 10)

theorem committed_thirds :
    ∃ s' tables' entry, validateReputationTransfer thirdsState tenthTx tenth = .ok () ∧
      applyTransferReputation thirdsState tenth 5 = .ok s' ∧
      commitConsensusResult ⟨.empty Rat, .empty Rat, s'.reputation⟩ (updating roundedThirds) =
        .ok (tables', entry) ∧
      AbsorbedAt s'.reputation (updating roundedThirds) ∧
      totalReputation (postReputation s'.reputation (updating roundedThirds)) ≠ 1 := by
  have hvalid : (validateReputationTransfer thirdsState tenthTx tenth).toOption = some () := by
    decide +kernel
  have hcomputed : holds (applyTransferReputation thirdsState tenth 5) (fun s' =>
      decide (verifyReputationConservation (getAllReputations s'.reputation)
        (postReputation s'.reputation (updating roundedThirds)) = .ok ()) &&
      decide (∃ row ∈ (postReputation s'.reputation (updating roundedThirds)).toList,
        totalReputation (postReputation s'.reputation (updating roundedThirds)) - 1 ≤ row.2) &&
      decide (totalReputation (postReputation s'.reputation (updating roundedThirds)) ≠ 1)) =
        true := by
    decide +kernel
  obtain ⟨s', happly, htests⟩ := holds_iff.mp hcomputed
  simp only [Bool.and_eq_true, decide_eq_true_eq] at htests
  obtain ⟨⟨hverified, habsorbed⟩, hresidual⟩ := htests
  obtain ⟨tables', entry, hcommit⟩ :=
    commit_of_verified ⟨.empty Rat, .empty Rat, s'.reputation⟩ hverified
  exact ⟨s', tables', entry, toOption_eq_some_iff.mp hvalid, happly, hcommit, habsorbed, hresidual⟩

/-- Three equal holders vote, a transfer moves reputation, and a consensus is committed. -/
theorem reputation_conserved_thirds :
    (∃ result, runFactory (unanimous 3 0) thirds equalRows [] (fun _ => none) =
        .ok result ∧
      (∀ i, 0 ≤ result.agents.smoothRep i) ∧ ∑ i, result.agents.smoothRep i = 1) ∧
    (∃ result, runConsensus equalRows (unanimous 3 0) thirds [] [] = .ok result ∧
      totalReputation result.updatedReputations = originalTotal (unanimous 3 0) thirds) ∧
    ∃ s' tables' entry,
      applyTransferReputation thirdsState tenth 5 = .ok s' ∧
      commitConsensusResult ⟨.empty Rat, .empty Rat, s'.reputation⟩ (updating roundedThirds) =
        .ok (tables', entry) ∧
      totalReputation tables'.reputation = 1 := by
  have hnonneg : Nonneg thirds := nonneg_equalHolders (by norm_num)
  obtain ⟨hsmooth, hupdated, hrun⟩ := reputation_conserved equalRows
  refine ⟨hsmooth _ _ _ _ (List.cons_ne_nil _ _) (List.cons_ne_nil _ _) hnonneg, ?_, ?_⟩
  · have hthird : (0 : Rat) < 1 / 3 := by norm_num
    obtain ⟨result, hresult, -⟩ := runConsensus_unanimous three_ne_zero hthird 0
    refine ⟨result, hresult, (hupdated _ _ _ _ _ hresult).1.mpr ⟨10 ^ 10, ?_⟩⟩
    rw [originalTotal_unanimous]
    norm_num
  · obtain ⟨s', tables', entry, hvalid, happly, hcommit, habsorbed, -⟩ := committed_thirds
    refine ⟨s', tables', entry, happly, hcommit, hrun thirds _ hnonneg ?_ ?_⟩
    · rw [thirds, total_equalHolders]
      norm_num
    · have hstart : ReputationRun AbsorbedAt thirds thirdsState.reputation := .start
      have hmoved := hstart.transfer hvalid happly
      exact ReputationRun.commit hmoved habsorbed hcommit

/-- So many holders that an equal share is rounded up to the least reputation. -/
def manyHolders : Nat := 10 ^ 10 + 3

theorem roundReputation_share : roundReputation (1 / manyHolders) = 1 / 10 ^ 10 := by
  decide +kernel

theorem first_share_dropped :
    roundReputation (1 / 10 ^ 10 + (1 - manyHolders * (1 / 10 ^ 10))) ≤ 0 := by
  decide +kernel

/-- The total of one voter with a third is not kept, and the total of many equal holders
does not stay one. -/
theorem reputation_rounded :
    (∃ result, calculateConsensus equalRows (unanimous 1 0) (equalHolders 1 (1 / 3)) [] [] =
        some result ∧
      totalReputation result.updatedReputations ≠
        originalTotal (unanimous 1 0) (equalHolders 1 (1 / 3))) ∧
    totalReputation (equalHolders manyHolders (1 / manyHolders)) = 1 ∧
    ∃ result tables' entry,
      calculateConsensus equalRows (unanimous manyHolders 0)
        (equalHolders manyHolders (1 / manyHolders)) [] [] = some result ∧
      commitConsensusResult
        ⟨.empty Rat, .empty Rat, equalHolders manyHolders (1 / manyHolders)⟩
        (updating result.updatedReputations) = .ok (tables', entry) ∧
      totalReputation tables'.reputation ≠ 1 := by
  have htotal : (manyHolders : Rat) * (1 / manyHolders) = 1 := by norm_num [manyHolders]
  have hshare : (0 : Rat) < 1 / manyHolders := by norm_num [manyHolders]
  have hshare' : 1 / (manyHolders : Rat) ≤ 1 := by norm_num [manyHolders]
  have hover : ((manyHolders - 1 : Nat) : Rat) * (1 / 10 ^ 10) = 1 + 2 * (1 / 10 ^ 10) := by
    norm_num [manyHolders]
  refine ⟨?_, total_equalHolders.trans htotal, ?_⟩
  · have hthird : (0 : Rat) < 1 / 3 := by norm_num
    have hthird' : (1 : Rat) / 3 ≤ 1 := by norm_num
    obtain ⟨result, hresult, -⟩ := runConsensus_unanimous one_ne_zero hthird 0
    refine ⟨result, ?_, ?_⟩
    · rw [calculateConsensus, fromReputationMap_equalHolders hthird hthird', hresult]
      rfl
    · rw [Ne, (total_of_runConsensus hresult).1, originalTotal_unanimous]
      rintro ⟨k, hk⟩
      have hint : (10 ^ 10 : ℤ) = 3 * k := by
        have hrat : (10 ^ 10 : Rat) = 3 * k := by
          rw [Nat.cast_one, one_mul, eq_div_iff (by norm_num)] at hk
          linarith
        exact_mod_cast hrat
      omega
  · exact commit_unanimous hshare hshare' roundReputation_share (by norm_num) le_rfl htotal hover
      first_share_dropped 0

end Truthcoin.ReputationConserved
