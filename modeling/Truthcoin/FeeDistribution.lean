import Truthcoin.MarketTypes
import Truthcoin.OutcomeSpace
import Truthcoin.ProportionalAllocation
import Truthcoin.SettlementValue

/-!
# Fee distribution

With rational numbers for doubles, the fees of a settled market are paid out exactly: half
to the voters, a quarter to the authors of the decisions, and the rest to the author of the
market, who also gets what no voter can be paid.
-/

namespace Truthcoin.FeeDistribution

open Truthcoin.Types Truthcoin.Table Truthcoin.Fallible Truthcoin.Arithmetic
open Truthcoin.Decisions Truthcoin.Markets Truthcoin.Voting Truthcoin.Blocks Truthcoin.Trading
open Truthcoin.Settlement Truthcoin.SettlementValue Truthcoin.RationalRounding
open Truthcoin.SettlementSteps Truthcoin.ListedMarkets Truthcoin.MarketTypes
open Truthcoin.Connect Truthcoin.ConnectTrace Truthcoin.BlockRun Truthcoin.PricingRun
open Truthcoin.ClaimOnce

section

variable {K : Type}

theorem map_fst_modify {xs : List (K × Nat)} {i : Nat} (remainder : Nat) :
    (xs.modify i fun entry => (entry.1, entry.2 + remainder)).map Prod.fst =
      xs.map Prod.fst := by
  apply List.ext_getElem
  · simp
  · intro j _ _
    simp only [List.getElem_modify, List.getElem_map]
    split
    · rfl
    · rfl

theorem map_fst_takeExcess (xs : List (K × Nat)) (remaining : Nat) :
    (takeExcess xs remaining).1.map Prod.fst = xs.map Prod.fst := by
  induction xs generalizing remaining with
  | nil => rfl
  | cons x xs ih =>
      rw [takeExcess]
      exact congrArg (x.1 :: ·) (ih _)

theorem allocateStep_keys {total : Rat} {pool : Nat} {a a' : AllocationState K Rat}
    {p : K × Rat} (h : allocateStep total pool a p = .ok a') :
    (∃ ks, ks.Sublist [p.1] ∧ a'.allocations.map Prod.fst = a.allocations.map Prod.fst ++ ks) ∧
      ∀ f, a'.fallback = some f → f.1 = p.1 ∨ a.fallback = some f := by
  obtain ⟨key, weight⟩ := p
  have hfallback : ∀ f, betterFallback a.fallback key weight = some f →
      f.1 = key ∨ a.fallback = some f := by
    intro f hf
    obtain ⟨best, hbest, hwhich⟩ := betterFallback_isSome a.fallback key weight
    obtain rfl := Option.some.inj (hbest.symm.trans hf)
    exact hwhich.imp_left fun heq => congrArg Prod.fst heq
  unfold allocateStep at h
  dsimp only at h
  split at h
  · rw [← Except.ok.inj h]
    exact ⟨⟨[], List.nil_sublist _, (List.append_nil _).symm⟩, fun f hf => .inr hf⟩
  · obtain ⟨sats, -, h⟩ := bind_eq_ok_iff.mp h
    split at h
    · obtain ⟨_, -, h⟩ := bind_eq_ok_iff.mp h
      rw [← Except.ok.inj h]
      exact ⟨⟨[key], List.Sublist.refl _, List.map_append⟩, hfallback⟩
    · rw [← Except.ok.inj h]
      exact ⟨⟨[], List.nil_sublist _, (List.append_nil _).symm⟩, hfallback⟩

theorem foldlM_allocateStep_keys {total : Rat} {pool : Nat} {participants : List (K × Rat)}
    {a a' : AllocationState K Rat}
    (h : participants.foldlM (allocateStep total pool) a = .ok a') :
    (∃ ks, ks.Sublist (participants.map Prod.fst) ∧
      a'.allocations.map Prod.fst = a.allocations.map Prod.fst ++ ks) ∧
      ∀ f, a'.fallback = some f → f.1 ∈ participants.map Prod.fst ∨ a.fallback = some f := by
  induction participants generalizing a with
  | nil =>
      rw [← Except.ok.inj h]
      exact ⟨⟨[], List.Sublist.refl _, (List.append_nil _).symm⟩, fun f hf => .inr hf⟩
  | cons p participants ih =>
      obtain ⟨a₁, hfirst, hrest⟩ := bind_eq_ok_iff.mp h
      obtain ⟨⟨first, hsub, hkeys⟩, hstep⟩ := allocateStep_keys hfirst
      obtain ⟨⟨rest, hsub', hkeys'⟩, hfallback⟩ := ih hrest
      constructor
      · refine ⟨first ++ rest, hsub.append hsub', ?_⟩
        rw [hkeys', hkeys, List.append_assoc]
      · intro f hf
        rcases hfallback f hf with hmem | hold
        · exact .inl (List.mem_cons_of_mem _ hmem)
        · refine (hstep f hold).imp_left fun heq => ?_
          rw [heq]
          exact List.mem_cons_self

theorem adjustRemainder_keys {pool : Nat} {a : AllocationState K Rat}
    {result : AllocationResultU64 K} (h : adjustRemainder pool a = .ok result) :
    (result.allocations.map Prod.fst).Perm (a.allocations.map Prod.fst) ∨
      ∃ f, a.fallback = some f ∧ result.allocations.map Prod.fst = [f.1] := by
  unfold adjustRemainder at h
  split at h
  · split at h
    · rw [← Except.ok.inj h]
      refine .inl ?_
      rw [map_fst_modify]
    · rename_i hnone
      obtain ⟨f, hf, h⟩ := bind_eq_ok_iff.mp h
      rw [← Except.ok.inj h]
      refine .inr ⟨f, okOr_eq_ok_iff.mp hf, ?_⟩
      rw [largestIndex_eq_none hnone]
      rfl
  · split at h
    · obtain ⟨_, -, h⟩ := bind_eq_ok_iff.mp h
      rw [← Except.ok.inj h]
      refine .inl ?_
      dsimp only
      rw [map_fst_takeExcess]
      exact (List.perm_insertionSort _ _).map _
    · rw [← Except.ok.inj h]
      exact .inl (.refl _)

/-- An allocation to a positive total weight hands out the pool, to each participant at
most once. -/
theorem allocated_of_ok {participants : List (K × Rat)} {pool : Nat}
    {result : AllocationResultU64 K} (hpositive : 0 < (participants.map Prod.snd).sum)
    (h : allocateProportionallyU64 participants pool = .ok result) :
    allocated result.allocations = pool ∧ ∃ ks, ks.Sublist (participants.map Prod.fst) ∧
      (result.allocations.map Prod.fst).Perm ks := by
  have hnonempty : participants ≠ [] := by
    rintro rfl
    exact absurd hpositive (lt_irrefl 0)
  unfold allocateProportionallyU64 at h
  split at h
  · rename_i hempty
    have hzero : pool = 0 := hempty.resolve_left fun hnil =>
      hnonempty (List.isEmpty_iff.mp hnil)
    rw [← Except.ok.inj h, hzero]
    exact ⟨rfl, [], List.nil_sublist _, .refl _⟩
  · dsimp only at h
    split at h
    · rename_i hle
      rw [sum_eq] at hle
      exact absurd (of_decide_eq_true hle) (not_le.mpr hpositive)
    · obtain ⟨a, hfold, h⟩ := bind_eq_ok_iff.mp h
      obtain ⟨r, hadjust, h⟩ := bind_eq_ok_iff.mp h
      obtain ⟨_, htotal, h⟩ := bind_eq_ok_iff.mp h
      have hinv : allocated a.allocations = a.totalAllocated :=
        foldlM_preserves (fun p _ s s' hs hstep => allocateStep_allocated hstep hs) hfold rfl
      rw [← Except.ok.inj h]
      refine ⟨(adjustRemainder_allocated hadjust hinv).trans (ensure_eq_ok_iff.mp htotal), ?_⟩
      obtain ⟨⟨ks, hsub, hkeys⟩, hfallback⟩ := foldlM_allocateStep_keys hfold
      rcases adjustRemainder_keys hadjust with hperm | ⟨f, hf, hkey⟩
      · exact ⟨ks, hsub, by rw [hkeys] at hperm; exact hperm⟩
      · refine ⟨[f.1], List.singleton_sublist.mpr ?_, hkey ▸ .refl _⟩
        rcases hfallback f hf with hmem | hnone
        · exact hmem
        · cases hnone

theorem sum_pos_of_weights {participants : List (K × Rat)} (hne : participants ≠ [])
    (hweights : ∀ p ∈ participants, 0 < p.2) : 0 < (participants.map Prod.snd).sum := by
  refine List.sum_pos _ ?_ ?_
  · intro w hw
    obtain ⟨p, hp, rfl⟩ := List.mem_map.mp hw
    exact hweights p hp
  · simpa using hne

theorem allocate_succeeds {participants : List (K × Rat)} {pool : Nat}
    (hweights : ∀ p ∈ participants, epsilon ≤ p.2) (hbound : pool < 2 ^ 63) :
    ∃ result, allocateProportionallyU64 participants pool = .ok result := by
  by_cases hempty : participants.isEmpty = true ∨ pool = 0
  · exact ⟨_, if_pos hempty⟩
  · obtain ⟨hne, hpool⟩ := not_or.mp hempty
    obtain ⟨p, hp⟩ := List.exists_mem_of_ne_nil participants fun hnil =>
      hne (List.isEmpty_iff.mpr hnil)
    obtain ⟨result, hresult, -⟩ := allocateProportionallyU64_exact
      (fun p hp => .inr (hweights p hp)) ⟨p, hp, epsilon_pos.trans_le (hweights p hp)⟩
      (Nat.pos_of_ne_zero hpool) hbound
    exact ⟨result, hresult⟩

end

theorem poolOf_cons (a : FeeRole × Nat) (allocations : List (FeeRole × Nat)) (feeRole : FeeRole) :
    poolOf (a :: allocations) feeRole =
      if a.1 = feeRole then a.2 else poolOf allocations feeRole := by
  unfold poolOf
  rw [List.find?_cons]
  by_cases heq : a.1 = feeRole
  · simp [heq]
  · simp [heq]

theorem poolOf_eq_zero {allocations : List (FeeRole × Nat)} {feeRole : FeeRole}
    (h : feeRole ∉ allocations.map Prod.fst) : poolOf allocations feeRole = 0 := by
  induction allocations with
  | nil => rfl
  | cons a allocations ih =>
      rw [List.map_cons, List.mem_cons, not_or] at h
      rw [poolOf_cons, if_neg (Ne.symm h.1), ih h.2]

theorem poolOf_sum {allocations : List (FeeRole × Nat)}
    (h : (allocations.map Prod.fst).Nodup) :
    poolOf allocations .correctVoter + poolOf allocations .decisionAuthor +
      poolOf allocations .marketAuthor = allocated allocations := by
  induction allocations with
  | nil => rfl
  | cons a allocations ih =>
      rw [List.map_cons, List.nodup_cons] at h
      have hrest := ih h.2
      have hfirst := poolOf_eq_zero h.1
      have hsum : allocated (a :: allocations) = a.2 + allocated allocations := by
        simp [allocated]
      obtain ⟨feeRole, amount⟩ := a
      rw [poolOf_cons, poolOf_cons, poolOf_cons, hsum]
      cases feeRole with
      | correctVoter | decisionAuthor | marketAuthor =>
          simp only [reduceCtorEq, if_true, if_false]
          dsimp only at hfirst
          omega

section

variable {decisionIds : List DecisionId} {correctVoters : DecisionId → List (Address × Rat)}
  {voterPool marketAuthorPool : Nat}

theorem distributeToVoters_exact (hvoters : ∀ d, ∀ v ∈ correctVoters d, 0 < v.2)
    {acc acc' : List FeePayoutRecord × Nat} {pool : DecisionId × Nat}
    (h : distributeToVoters correctVoters acc pool = .ok acc') :
    amounts acc'.1 + acc'.2 = amounts acc.1 + acc.2 + pool.2 := by
  unfold distributeToVoters at h
  dsimp only at h
  split at h
  · obtain ⟨total, htotal, h⟩ := bind_eq_ok_iff.mp h
    obtain ⟨-, rfl⟩ := addU64_eq_ok_iff.mp htotal
    rw [← Except.ok.inj h]
    exact (Nat.add_assoc _ _ _).symm
  · rename_i hsome
    obtain ⟨alloc, halloc, h⟩ := bind_eq_ok_iff.mp h
    have hne : correctVoters pool.1 ≠ [] := fun hnil => hsome (List.isEmpty_iff.mpr hnil)
    obtain ⟨hexact, -⟩ := allocated_of_ok (sum_pos_of_weights hne (hvoters pool.1))
      (mapError_eq_ok_iff.mp halloc)
    rw [← Except.ok.inj h, amounts_append, amounts_feeRecords, hexact]
    exact Nat.add_right_comm _ _ _

theorem distributeVoterPool_exact (hdecisions : decisionIds ≠ [])
    (hvoters : ∀ d, ∀ v ∈ correctVoters d, 0 < v.2) {result : List FeePayoutRecord × Nat}
    (h : distributeVoterPool decisionIds correctVoters voterPool marketAuthorPool = .ok result) :
    amounts result.1 + result.2 = voterPool + marketAuthorPool := by
  have hloop : ∀ (pools : List (DecisionId × Nat)) (acc acc' : List FeePayoutRecord × Nat),
      pools.foldlM (distributeToVoters correctVoters) acc = .ok acc' →
        amounts acc'.1 + acc'.2 = amounts acc.1 + acc.2 + allocated pools := by
    intro pools
    induction pools with
    | nil =>
        intro acc acc' hrun
        rw [← Except.ok.inj hrun]
        rfl
    | cons pool pools ih =>
        intro acc acc' hrun
        obtain ⟨acc₁, hfirst, hrest⟩ := bind_eq_ok_iff.mp hrun
        have hcons : allocated (pool :: pools) = pool.2 + allocated pools := by simp [allocated]
        rw [ih acc₁ acc' hrest, distributeToVoters_exact hvoters hfirst, hcons, Nat.add_assoc]
  unfold distributeVoterPool at h
  split at h
  · simp only [bind_eq_ok_iff, mapError_eq_ok_iff] at h
    obtain ⟨split, hsplit, hrun⟩ := h
    have hweights : ∀ p ∈ decisionIds.map fun d => (d, (F64.one : Rat)), 0 < p.2 := by
      intro p hp
      obtain ⟨d, -, rfl⟩ := List.mem_map.mp hp
      exact one_pos
    obtain ⟨hexact, -⟩ := allocated_of_ok
      (sum_pos_of_weights (by simpa using hdecisions) hweights) hsplit
    rw [hloop _ _ _ hrun, hexact]
    show 0 + marketAuthorPool + voterPool = _
    omega
  · rename_i hzero
    rw [← Except.ok.inj h]
    show 0 + marketAuthorPool = _
    omega

end

/-- The authors of the decisions of a market, in order, with equal weights. -/
def authorWeights (decisionIds : List DecisionId) (decisions : DecisionMap Rat) :
    List (Address × Rat) :=
  ((decisionIds.filterMap fun d =>
    (decisions.get d).map Decision.marketMakerPubkeyHash).dedup.insertionSort (· ≤ ·)).map
      fun author => (author, F64.one)

theorem authorWeights_eq_one {decisionIds : List DecisionId} {decisions : DecisionMap Rat} :
    ∀ p ∈ authorWeights decisionIds decisions, p.2 = 1 := by
  intro p hp
  obtain ⟨author, -, rfl⟩ := List.mem_map.mp hp
  rfl

theorem authorWeights_ne_nil {decisionIds : List DecisionId} {decisions : DecisionMap Rat}
    (h : ∃ d ∈ decisionIds, ∃ decision, decisions.get d = some decision) :
    authorWeights decisionIds decisions ≠ [] := by
  obtain ⟨d, hd, decision, hget⟩ := h
  have hauthor : decision.marketMakerPubkeyHash ∈
      decisionIds.filterMap fun d => (decisions.get d).map Decision.marketMakerPubkeyHash :=
    List.mem_filterMap.mpr ⟨d, hd, by rw [hget, Option.map_some]⟩
  exact List.ne_nil_of_mem (List.mem_map.mpr ⟨decision.marketMakerPubkeyHash,
    (List.mem_insertionSort _).mpr (List.mem_dedup.mpr hauthor), rfl⟩)

theorem distributeAuthorPool_exact {decisionIds : List DecisionId} {decisions : DecisionMap Rat}
    {pool : Nat} {records : List FeePayoutRecord}
    (hknown : ∃ d ∈ decisionIds, ∃ decision, decisions.get d = some decision)
    (h : distributeAuthorPool decisionIds decisions pool = .ok records) :
    amounts records = pool := by
  unfold distributeAuthorPool at h
  split at h
  · simp only [bind_eq_ok_iff, mapError_eq_ok_iff, Except.ok.injEq] at h
    obtain ⟨alloc, halloc, rfl⟩ := h
    rw [amounts_feeRecords]
    refine (allocated_of_ok ?_ halloc).1
    refine sum_pos_of_weights (authorWeights_ne_nil hknown) fun p hp => ?_
    rw [authorWeights_eq_one p hp]
    exact one_pos
  · rename_i hzero
    rw [← Except.ok.inj h]
    show 0 = pool
    omega

section

variable {F : Type} [F64 F]

/-- The voters of some votes of a period who voted for an outcome, with their reputation. -/
def correctVotersOf (votes : List (VoteMatrixKey × VoteMatrixEntry F))
    (reputation : Table Address F) (consensus : F) (decision : Decision F)
    (decisionId : DecisionId) : List (Address × F) :=
  let correct := votes.filter fun row =>
    row.1.decisionId = decisionId ∧ isVoteCorrect row.2.value consensus decision
  let voters := correct.map fun row =>
    (row.1.voterAddress, getReputation reputation row.1.voterAddress)
  (voters.filter fun voter => F64.lt F64.zero voter.2).insertionSort fun a b => a.1 ≤ b.1

/-- `findCorrectVoters` with the votes of the period walked in a given order. -/
def findCorrectVotersIn (votes : List (VoteMatrixKey × VoteMatrixEntry F))
    (reputation : Table Address F) (decisionOutcomes : List (DecisionId × F))
    (decisions : DecisionMap F) (decisionId : DecisionId) : List (Address × F) :=
  ((decisionOutcomes.find? fun o => o.1 = decisionId).map Prod.snd).elim [] fun consensus =>
    (decisions.get decisionId).elim [] fun decision =>
      correctVotersOf votes reputation consensus decision decisionId

theorem findCorrectVoters_eq_in (s : State F) (decisionOutcomes : List (DecisionId × F))
    (decisions : DecisionMap F) (decisionId : DecisionId) :
    findCorrectVoters s decisionOutcomes decisions decisionId =
      findCorrectVotersIn (s.voting.getVotesForPeriod decisionId.votingPeriod) s.reputation
        decisionOutcomes decisions decisionId := by
  rw [findCorrectVoters, findCorrectVotersIn]
  cases (decisionOutcomes.find? fun o => o.1 = decisionId).map Prod.snd with
  | none => rfl
  | some consensus =>
      cases decisions.get decisionId with
      | none => rfl
      | some decision => rfl

/-- Sorting by address forgets the order of the votes: an address determines its voter. -/
theorem correctVotersOf_perm {votes votes' : List (VoteMatrixKey × VoteMatrixEntry F)}
    (h : votes.Perm votes') (reputation : Table Address F) (consensus : F)
    (decision : Decision F) (decisionId : DecisionId) :
    correctVotersOf votes reputation consensus decision decisionId =
      correctVotersOf votes' reputation consensus decision decisionId := by
  unfold correctVotersOf
  dsimp only
  have hperm := ((h.filter fun row => decide (row.1.decisionId = decisionId ∧
    isVoteCorrect row.2.value consensus decision)).map fun row =>
      (row.1.voterAddress, getReputation reputation row.1.voterAddress)).filter
        fun voter => F64.lt F64.zero voter.2
  refine List.Perm.eq_of_pairwise ?_ (List.pairwise_insertionSort _ _)
    (List.pairwise_insertionSort _ _) ?_
  · intro a b ha hb hle hge
    have hweight : ∀ {rows : List (VoteMatrixKey × VoteMatrixEntry F)} {p : Address × F},
        p ∈ ((rows.map fun row =>
          (row.1.voterAddress, getReputation reputation row.1.voterAddress)).filter
            fun voter => F64.lt F64.zero voter.2).insertionSort (fun a b => a.1 ≤ b.1) →
          p = (p.1, getReputation reputation p.1) := by
      intro rows p hp
      have hmem := List.mem_of_mem_filter ((List.mem_insertionSort _).mp hp)
      obtain ⟨row, -, rfl⟩ := List.mem_map.mp hmem
      rfl
    rw [hweight ha, hweight hb, le_antisymm hle hge]
  · exact ((List.perm_insertionSort _ _).trans hperm).trans (List.perm_insertionSort _ _).symm

theorem findCorrectVotersIn_perm {votes votes' : List (VoteMatrixKey × VoteMatrixEntry F)}
    (h : votes.Perm votes') (reputation : Table Address F)
    (decisionOutcomes : List (DecisionId × F)) (decisions : DecisionMap F)
    (decisionId : DecisionId) :
    findCorrectVotersIn votes reputation decisionOutcomes decisions decisionId =
      findCorrectVotersIn votes' reputation decisionOutcomes decisions decisionId := by
  unfold findCorrectVotersIn
  congr 1
  funext consensus
  congr 1
  funext decision
  exact correctVotersOf_perm h reputation consensus decision decisionId

/-- `calculateFeeDistribution` with the correct voters of each decision given. -/
def distributeFees (correctVoters : DecisionId → List (Address × F)) (market : Market F)
    (feeSats : Nat) (decisions : DecisionMap F) : Except Error (List FeePayoutRecord) := do
  if feeSats = 0 then
    .ok []
  else
    let weights : List (FeeRole × F) :=
      [(.correctVoter, F64.ofRat 2), (.decisionAuthor, F64.one), (.marketAuthor, F64.one)]
    let split ← (allocateProportionallyU64 weights feeSats).mapError
      (SatoshiError.toError "Fee pool split failed")
    let voterPart ← distributeVoterPool market.decisionIds correctVoters
      (poolOf split.allocations .correctVoter) (poolOf split.allocations .marketAuthor)
    let authorPayouts ← distributeAuthorPool market.decisionIds decisions
      (poolOf split.allocations .decisionAuthor)
    let marketAuthorPayouts :=
      if voterPart.2 > 0 then [⟨market.creatorAddress, voterPart.2, .marketAuthor⟩] else []
    .ok ((voterPart.1 ++ authorPayouts ++ marketAuthorPayouts).insertionSort feeRecordLe)

theorem calculateFeeDistribution_eq (s : State F) (market : Market F) (feeSats : Nat)
    (decisionOutcomes : List (DecisionId × F)) (decisions : DecisionMap F) :
    calculateFeeDistribution s market feeSats decisionOutcomes decisions =
      distributeFees (findCorrectVoters s decisionOutcomes decisions) market feeSats decisions :=
  rfl

theorem distributeFees_of_perm {s : State F} {market : Market F} {feeSats : Nat}
    {decisionOutcomes : List (DecisionId × F)} {decisions : DecisionMap F}
    {votes : DecisionId → List (VoteMatrixKey × VoteMatrixEntry F)}
    (hvotes : ∀ d, (votes d).Perm (s.voting.getVotesForPeriod d.votingPeriod)) :
    distributeFees (fun d => findCorrectVotersIn (votes d) s.reputation decisionOutcomes
        decisions d) market feeSats decisions =
      calculateFeeDistribution s market feeSats decisionOutcomes decisions := by
  rw [calculateFeeDistribution_eq]
  congr 1
  funext d
  rw [findCorrectVoters_eq_in]
  exact findCorrectVotersIn_perm (hvotes d) s.reputation decisionOutcomes decisions d

end

section

variable {s : State Rat} {market : Market Rat} {feeSats : Nat}
  {decisionOutcomes : List (DecisionId × Rat)} {decisions : DecisionMap Rat}

theorem reputation_of_findCorrectVoters {d : DecisionId} {voter : Address × Rat}
    (h : voter ∈ findCorrectVoters s decisionOutcomes decisions d) :
    voter.2 = getReputation s.reputation voter.1 ∧ 0 < voter.2 := by
  rw [findCorrectVoters_eq_in, findCorrectVotersIn] at h
  cases houtcome : (decisionOutcomes.find? fun o => o.1 = d).map Prod.snd with
  | none =>
      rw [houtcome] at h
      cases h
  | some consensus =>
      rw [houtcome, Option.elim_some] at h
      cases hdecision : decisions.get d with
      | none =>
          rw [hdecision] at h
          cases h
      | some decision =>
          rw [hdecision, Option.elim_some] at h
          have hmem := (List.mem_insertionSort _).mp h
          obtain ⟨hvoter, hpositive⟩ := List.mem_filter.mp hmem
          obtain ⟨row, -, rfl⟩ := List.mem_map.mp hvoter
          exact ⟨rfl, of_decide_eq_true hpositive⟩

/-- The weights of the three roles. -/
def roleWeights : List (FeeRole × Rat) :=
  [(.correctVoter, 2), (.decisionAuthor, 1), (.marketAuthor, 1)]

theorem roleWeights_pos : 0 < (roleWeights.map Prod.snd).sum := by
  decide +kernel

/-- The fees are paid out exactly. -/
theorem calculateFeeDistribution_exact
    (hknown : ∃ d ∈ market.decisionIds, ∃ decision, decisions.get d = some decision)
    {records : List FeePayoutRecord}
    (h : calculateFeeDistribution s market feeSats decisionOutcomes decisions = .ok records) :
    amounts records = feeSats := by
  rw [calculateFeeDistribution_eq] at h
  unfold distributeFees at h
  split at h
  · rename_i hzero
    rw [← Except.ok.inj h, hzero]
    rfl
  · simp only [bind_eq_ok_iff, mapError_eq_ok_iff, Except.ok.injEq] at h
    obtain ⟨split, hsplit, voterPart, hvoters, authorPayouts, hauthors, rfl⟩ := h
    have hperm : amounts ((voterPart.1 ++ authorPayouts ++
        if voterPart.2 > 0 then
          [(⟨market.creatorAddress, voterPart.2, .marketAuthor⟩ : FeePayoutRecord)]
        else []).insertionSort feeRecordLe) =
        amounts voterPart.1 + amounts authorPayouts + voterPart.2 := by
      rw [amounts, ((List.perm_insertionSort feeRecordLe _).map _).sum_eq]
      change amounts _ = _
      rw [amounts_append, amounts_append]
      split
      · rfl
      · have hzero : voterPart.2 = 0 := by omega
        rw [hzero]
        rfl
    have hsplit' : allocateProportionallyU64 roleWeights feeSats = .ok split := hsplit
    obtain ⟨hexact, ks, hsub, hkeys⟩ := allocated_of_ok roleWeights_pos hsplit'
    have hroles : (roleWeights.map Prod.fst).Nodup := by decide
    have hpools := poolOf_sum (hkeys.symm.nodup (hsub.nodup hroles))
    have hdecisions : market.decisionIds ≠ [] := by
      obtain ⟨d, hd, -⟩ := hknown
      exact List.ne_nil_of_mem hd
    have hpaid := distributeVoterPool_exact hdecisions
      (fun d voter hvoter => (reputation_of_findCorrectVoters hvoter).2) hvoters
    have hauthor := distributeAuthorPool_exact hknown hauthors
    rw [hperm]
    omega

theorem le_amounts {records : List FeePayoutRecord} {r : FeePayoutRecord} (h : r ∈ records) :
    r.amountSats ≤ amounts records :=
  List.single_le_sum (fun _ _ => Nat.zero_le _) _ (List.mem_map_of_mem h)

theorem epsilon_le_one : (epsilon : Rat) ≤ 1 := by
  change (1 / 2 ^ 52 : Rat) ≤ 1
  norm_num

theorem distributeVoterPool_succeeds (decisionIds : List DecisionId)
    {correctVoters : DecisionId → List (Address × Rat)} {voterPool marketAuthorPool : Nat}
    (hvoters : ∀ d, ∀ v ∈ correctVoters d, epsilon ≤ v.2)
    (hbound : voterPool + marketAuthorPool < 2 ^ 63) :
    ∃ result, distributeVoterPool decisionIds correctVoters voterPool marketAuthorPool =
      .ok result := by
  unfold distributeVoterPool
  split
  · have hweights : ∀ p ∈ decisionIds.map fun d => (d, (F64.one : Rat)), epsilon ≤ p.2 := by
      intro p hp
      obtain ⟨d, -, rfl⟩ := List.mem_map.mp hp
      exact epsilon_le_one
    obtain ⟨split, hsplit⟩ := allocate_succeeds hweights (show voterPool < 2 ^ 63 by omega)
    have hle := allocateProportionallyU64_le hsplit
    dsimp only
    rw [hsplit]
    -- what is still to be handed out fits the pool of the market author
    refine foldlM_succeeds (I := fun pools acc => acc.2 + allocated pools < 2 ^ 63) ?_
      (show marketAuthorPool + allocated split.allocations < 2 ^ 63 by omega)
    intro pool pools acc hacc
    have hcons : allocated (pool :: pools) = pool.2 + allocated pools := by simp [allocated]
    rw [hcons] at hacc
    unfold distributeToVoters
    dsimp only
    split
    · have hadd : addU64 acc.2 pool.2 = .ok (acc.2 + pool.2) :=
        addU64_eq_ok_iff.mpr ⟨by unfold amountMax; omega, rfl⟩
      rw [hadd]
      exact ⟨_, rfl, by dsimp only; omega⟩
    · obtain ⟨alloc, halloc⟩ := allocate_succeeds (hvoters pool.1)
        (show pool.2 < 2 ^ 63 by omega)
      rw [halloc]
      exact ⟨_, rfl, by dsimp only; omega⟩
  · exact ⟨_, rfl⟩

theorem distributeAuthorPool_succeeds (decisionIds : List DecisionId)
    (decisions : DecisionMap Rat) {pool : Nat} (hbound : pool < 2 ^ 63) :
    ∃ records, distributeAuthorPool decisionIds decisions pool = .ok records := by
  unfold distributeAuthorPool
  split
  · have hweights : ∀ p ∈ authorWeights decisionIds decisions, epsilon ≤ p.2 := by
      intro p hp
      rw [authorWeights_eq_one p hp]
      exact epsilon_le_one
    obtain ⟨alloc, halloc⟩ := allocate_succeeds hweights hbound
    dsimp only
    rw [authorWeights] at halloc
    rw [halloc]
    exact ⟨_, rfl⟩
  · exact ⟨_, rfl⟩

theorem calculateFeeDistribution_succeeds (hbound : feeSats < 2 ^ 63)
    (hreputation : ∀ address, 0 < getReputation s.reputation address →
      epsilon ≤ getReputation s.reputation address) :
    ∃ records, calculateFeeDistribution s market feeSats decisionOutcomes decisions =
      .ok records := by
  rw [calculateFeeDistribution_eq]
  unfold distributeFees
  split
  · exact ⟨_, rfl⟩
  · have hroles : ∀ p ∈ roleWeights, epsilon ≤ p.2 := by
      have hone := epsilon_le_one
      intro p hp
      simp only [roleWeights, List.mem_cons, List.not_mem_nil, or_false] at hp
      rcases hp with rfl | rfl | rfl
      · exact hone.trans one_le_two
      · exact hone
      · exact hone
    obtain ⟨split, hsplit⟩ := allocate_succeeds hroles hbound
    have hpools := (poolOf_sum_le split.allocations).trans (allocateProportionallyU64_le hsplit)
    have hvoters : ∀ d, ∀ v ∈ findCorrectVoters s decisionOutcomes decisions d, epsilon ≤ v.2 := by
      intro d v hv
      obtain ⟨hweight, hpositive⟩ := reputation_of_findCorrectVoters hv
      rw [hweight] at hpositive ⊢
      exact hreputation v.1 hpositive
    obtain ⟨voterPart, hvoterPart⟩ := distributeVoterPool_succeeds market.decisionIds hvoters
      (show poolOf split.allocations .correctVoter + poolOf split.allocations .marketAuthor <
        2 ^ 63 by omega)
    obtain ⟨authorPayouts, hauthors⟩ := distributeAuthorPool_succeeds market.decisionIds decisions
      (show poolOf split.allocations .decisionAuthor < 2 ^ 63 by omega)
    exact ⟨_, bind_eq_ok_iff.mpr ⟨split, mapError_eq_ok_iff.mpr hsplit, bind_eq_ok_iff.mpr
      ⟨voterPart, hvoterPart, bind_eq_ok_iff.mpr ⟨authorPayouts, hauthors, rfl⟩⟩⟩⟩

/-- Fee distribution conserves value: the payouts are the fees, in whatever order the votes
are walked, and there are payouts whenever the fees and the reputations are in range. -/
theorem fees_conserved
    (hknown : ∃ d ∈ market.decisionIds, ∃ decision, decisions.get d = some decision) :
    (∀ records, calculateFeeDistribution s market feeSats decisionOutcomes decisions =
        .ok records →
      (records.map FeePayoutRecord.amountSats).sum = feeSats ∧
        ∀ r ∈ records, r.amountSats ≤ feeSats) ∧
    (∀ votes : DecisionId → List (VoteMatrixKey × VoteMatrixEntry Rat),
      (∀ d, (votes d).Perm (s.voting.getVotesForPeriod d.votingPeriod)) →
        distributeFees (fun d => findCorrectVotersIn (votes d) s.reputation decisionOutcomes
            decisions d) market feeSats decisions =
          calculateFeeDistribution s market feeSats decisionOutcomes decisions) ∧
    (feeSats < 2 ^ 63 →
      (∀ address, 0 < getReputation s.reputation address →
        epsilon ≤ getReputation s.reputation address) →
      ∃ records, calculateFeeDistribution s market feeSats decisionOutcomes decisions =
        .ok records) := by
  refine ⟨?_, fun votes hvotes => distributeFees_of_perm hvotes,
    calculateFeeDistribution_succeeds⟩
  intro records h
  have hexact := calculateFeeDistribution_exact hknown h
  exact ⟨hexact, fun r hr => (le_amounts hr).trans hexact.le⟩

end

/-- A voter with all the reputation who has voted for the binary decision. -/
def votedState : State Rat :=
  { State.empty Rat with
    voting := (VotingDatabases.empty Rat).putVote ⟨5, 1, 0, .binary true, 0, 0, 0⟩
    reputation := Std.ExtTreeMap.empty.insert 5 1 }

theorem fees_conserved_voted :
    ∃ m records, sampleBuilder.build (fun _ _ _ _ => 0) 0 sampleDecisions = .ok m ∧
      calculateFeeDistribution votedState m 1001 [(0, 1)] sampleDecisions = .ok records ∧
      (records.map FeePayoutRecord.amountSats).sum = 1001 := by
  have hcomputed : holds (sampleBuilder.build (fun _ _ _ _ => 0) 0 sampleDecisions)
      (fun m => m.decisionIds = [0, 1, 2]) = true := by
    decide +kernel
  obtain ⟨m, hbuild, hdecisions⟩ := holds_iff.mp hcomputed
  replace hdecisions := of_decide_eq_true hdecisions
  have hknown : ∃ d ∈ m.decisionIds, ∃ decision, sampleDecisions.get d = some decision := by
    rw [hdecisions]
    exact ⟨0, by decide, sampleDecision .binary, rfl⟩
  have hreputation : ∀ address, 0 < getReputation votedState.reputation address →
      epsilon ≤ getReputation votedState.reputation address := by
    intro address hpositive
    by_cases haddress : address = 5
    · rw [haddress]
      exact epsilon_le_one
    · have hzero : getReputation votedState.reputation address = 0 := by
        have hother : ¬ keyCmp (5 : Nat) address = .eq := fun heq =>
          haddress (Std.LawfulEqCmp.compare_eq_iff_eq.mp heq).symm
        rw [getReputation, votedState, Std.ExtTreeMap.getElem?_insert, if_neg hother]
        rfl
      rw [hzero] at hpositive
      exact absurd hpositive (lt_irrefl 0)
  obtain ⟨hexact, -, hsucceeds⟩ :=
    @fees_conserved votedState m 1001 [(0, 1)] sampleDecisions hknown
  obtain ⟨records, hrecords⟩ := hsucceeds (by decide) hreputation
  exact ⟨m, records, hbuild, hrecords, (hexact records hrecords).1⟩

section

variable {s s' : State Rat} {market : Market Rat} {height : Nat}

theorem decisionsOf_known (h : Filed s.decisions market)
    (hentries : ∀ spec ∈ market.dimensionSpecs, ∀ entry,
      entry ∈ s.decisions.entriesOf spec.decisionId.periodIndex →
        entry.decisionId = spec.decisionId →
          s.decisions.getDecisionEntry spec.decisionId = some entry) :
    ∃ d ∈ market.decisionIds, ∃ decision, (decisionsOf s market).get d = some decision := by
  obtain ⟨spec, hspec⟩ := List.exists_mem_of_ne_nil _ h.nonempty
  obtain ⟨entry, hentry, hid, decision, hdecision, -⟩ := h.entries spec hspec
  have hd : spec.decisionId ∈ market.decisionIds := by
    rw [h.decisionIds]
    exact List.mem_map_of_mem hspec
  have hrow : (spec.decisionId, decision) ∈ decisionsOf s market := by
    refine List.mem_filterMap.mpr ⟨_, hd, ?_⟩
    rw [hentries spec hspec entry hentry hid, Option.bind_some, hdecision, Option.map_some]
  have hsome : ((decisionsOf s market).find? fun row => row.1 = spec.decisionId).isSome :=
    List.find?_isSome.mpr ⟨_, hrow, decide_eq_true rfl⟩
  obtain ⟨row, hrow⟩ := Option.isSome_iff_exists.mp hsome
  exact ⟨spec.decisionId, hd, row.2, by rw [DecisionMap.get, hrow, Option.map_some]⟩

theorem fees_of_settleMarket {L : Library Rat} {entry : SettlementUndoEntry Rat}
    (hknown : ∃ d ∈ market.decisionIds, ∃ decision, (decisionsOf s market).get d = some decision)
    (h : settleMarket L s market height = .ok (s', entry)) :
    amounts entry.payoutSummary.feePayouts =
      entry.feeUtxo.elim 0 fun utxo => utxo.2.getBitcoinValue := by
  obtain ⟨priced, _, _, hpriced, hsummary, -, -, -, hentry, -⟩ := settleMarket_eq_ok h
  simp only [calculateSharePayouts, bind_eq_ok_iff, okOr_eq_ok_iff, Except.ok.injEq] at hsummary
  obtain ⟨_, -, _, -, _, -, fees, hfees, feePayouts, hpayouts, _, -, hsummary⟩ := hsummary
  have hids : priced.decisionIds = market.decisionIds :=
    (sameDimensions_of_updateState hpriced).decisionIds
  have hid : priced.id = market.id := id_of_updateState hpriced
  have hpaid := calculateFeeDistribution_exact (hids ▸ hknown) hpayouts
  rw [← hsummary]
  dsimp only
  rw [hpaid, hentry]
  dsimp only
  rw [State.getMarketFundsSats, hid] at hfees
  unfold State.marketFundsOutput
  split at hfees
  · rename_i hnone
    rw [← Except.ok.inj hfees, hnone]
    rfl
  · rename_i outpoint hpointer
    simp only [bind_eq_ok_iff, okOr_eq_ok_iff, Except.ok.injEq] at hfees
    obtain ⟨output, houtput, rfl⟩ := hfees
    rw [hpointer, Option.bind_some, houtput]
    rfl

variable {L : Library Rat} {config : DecisionConfig} {archive : Archive} {block : Block Rat}
  {lib : WithdrawalBundle.BundleLib} {ok : State Rat → Block Rat → Prop}
  {okPeg : State Rat → TwoWayPegData → Prop} {chain : List (Block Rat)}

/-- In every chain, each market that a block settles pays out what its fee funds hold. -/
theorem fees_of_chain (hchain : Chain L config lib ok okPeg chain s)
    (h : applyBlock L config archive s block = .ok s') :
    ∃ t, Connects L config archive s block t ∧ s' = t.finished L block ∧
      ∀ entry ∈ t.settled, amounts entry.payoutSummary.feePayouts =
        entry.feeUtxo.elim 0 fun utxo => utxo.2.getBitcoinValue := by
  obtain ⟨hentries, -⟩ := addsClaims_of_applyBlock (recorded_of_chain hchain).entries h
  obtain ⟨t, ht, rfl⟩ := connects_of_applyBlock h
  refine ⟨t, ht, rfl, ?_⟩
  have hfiled := filed_counted hchain ht
  rw [finished_decisions ht] at hentries
  have hsettled := foldlM_preserves
    (P := fun acc : State Rat × List (SettlementUndoEntry Rat) =>
      acc.1.decisions = t.counted.decisions ∧
        ∀ entry ∈ acc.2, amounts entry.payoutSummary.feePayouts =
          entry.feeUtxo.elim 0 fun utxo => utxo.2.getBitcoinValue) ?_ ht.paid ⟨rfl, by simp⟩
  · exact hsettled.2
  · rintro market hmarket ⟨s₁, entries⟩ acc' ⟨hdecisions, hall⟩ hstep
    obtain ⟨marketId, -, hlookup⟩ := List.mem_filterMap.mp hmarket
    unfold transitionMarket at hstep
    split at hstep
    · obtain ⟨⟨s₂, entry⟩, hsettle, hstep⟩ := bind_eq_ok_iff.mp hstep
      rw [← Except.ok.inj hstep]
      obtain ⟨_, _, _, -, -, -, -, -, -, hs₂⟩ := settleMarket_eq_ok hsettle
      constructor
      · dsimp only at hdecisions ⊢
        rw [hs₂]
        exact hdecisions
      · intro e he
        rcases List.mem_append.mp he with hold | hnew
        · exact hall e hold
        · rw [List.mem_singleton.mp hnew]
          refine fees_of_settleMarket (decisionsOf_known ?_ ?_) hsettle
          · dsimp only at hdecisions
            rw [hdecisions]
            exact hfiled marketId market hlookup
          · intro spec _ entry hentry hid
            dsimp only at hdecisions hentry ⊢
            rw [hdecisions] at hentry ⊢
            exact hentries.getDecisionEntry_iff.mpr ⟨hentry, hid⟩
    · rw [← Except.ok.inj hstep]
      exact ⟨hdecisions, hall⟩

end

end Truthcoin.FeeDistribution
