import Truthcoin.OracleWeights
import Truthcoin.PeriodClose
import Truthcoin.RationalRounding

/-!
# Categorical outcomes

A categorical decision resolves to the option that has more voters than every other index,
the index past the last option included, and is inconclusive otherwise. The number of options
is narrowed to 16 bits on the way, so this holds of the decisions with fewer than 65536 options,
and of no others.
-/

namespace Truthcoin.Plurality

open Truthcoin.Types Truthcoin.Table Truthcoin.Fallible Truthcoin.Decisions Truthcoin.Voting
open Truthcoin.Validation Truthcoin.Oracle Truthcoin.OracleWeights Truthcoin.PeriodClose
open Truthcoin.RationalRounding Truthcoin.ReputationTotal

/-- The options with the most votes. -/
def topOptions (votes : List Nat) : List Nat :=
  votes.dedup.filter fun option =>
    votes.count option = (votes.map fun option => votes.count option).foldl max 0

/-- The option `i` alone has the most votes, among the options and the index past them. -/
def Leads (votes : List Nat) (optionCount i : Nat) : Prop :=
  i < optionCount ∧ ∀ k ≤ optionCount, k ≠ i → votes.count k < votes.count i

section

variable {votes : List Nat} {optionCount i k : Nat}

theorem foldl_max_le_iff {l : List Nat} {start bound : Nat} :
    l.foldl max start ≤ bound ↔ start ≤ bound ∧ ∀ x ∈ l, x ≤ bound := by
  induction l generalizing start with
  | nil => simp
  | cons x l ih =>
      rw [List.foldl_cons, ih, max_le_iff]
      simp [and_assoc]

theorem foldl_max_congr {l l' : List Nat} (h : ∀ x, x ∈ l ↔ x ∈ l') :
    l.foldl max 0 = l'.foldl max 0 := by
  refine le_antisymm ?_ ?_
  · exact foldl_max_le_iff.mpr ⟨Nat.zero_le _, fun x hx =>
      (foldl_max_le_iff.mp (le_refl _)).2 x ((h x).mp hx)⟩
  · exact foldl_max_le_iff.mpr ⟨Nat.zero_le _, fun x hx =>
      (foldl_max_le_iff.mp (le_refl _)).2 x ((h x).mpr hx)⟩

theorem mem_topOptions_iff :
    k ∈ topOptions votes ↔ k ∈ votes ∧ ∀ x, votes.count x ≤ votes.count k := by
  have hmax := foldl_max_le_iff.mp
    (le_refl ((votes.map fun option => votes.count option).foldl max 0))
  rw [topOptions, List.mem_filter, List.mem_dedup, decide_eq_true_eq]
  refine and_congr_right fun hk => ?_
  constructor
  · intro heq x
    by_cases hx : x ∈ votes
    · rw [heq]
      exact hmax.2 _ (List.mem_map.mpr ⟨x, hx, rfl⟩)
    · rw [List.count_eq_zero_of_not_mem hx]
      exact Nat.zero_le _
  · intro hle
    refine le_antisymm (hmax.2 _ (List.mem_map.mpr ⟨k, hk, rfl⟩)) ?_
    refine foldl_max_le_iff.mpr ⟨Nat.zero_le _, ?_⟩
    intro x hx
    obtain ⟨option, -, rfl⟩ := List.mem_map.mp hx
    exact hle option

theorem effectiveWinner_eq (votes : List Nat) (optionCount : Nat) :
    effectiveWinner votes optionCount =
      match topOptions votes with
      | [winner] => if winner < optionCount then winner else optionCount
      | _ => optionCount := rfl

theorem topOptions_of_leads (hrange : ∀ v ∈ votes, v ≤ optionCount)
    (h : Leads votes optionCount i) (hi : i ∈ votes) : topOptions votes = [i] := by
  refine List.perm_singleton.mp ?_
  refine (List.perm_ext_iff_of_nodup ((List.nodup_dedup _).filter _)
    (List.nodup_singleton i)).mpr ?_
  intro k
  rw [← topOptions, mem_topOptions_iff, List.mem_singleton]
  constructor
  · rintro ⟨hk, hle⟩
    by_contra hne
    exact absurd (hle i) (Nat.not_le.mpr (h.2 k (hrange k hk) hne))
  · rintro rfl
    refine ⟨hi, fun x => ?_⟩
    by_cases hx : x = k
    · rw [hx]
    · by_cases hxrange : x ≤ optionCount
      · exact (h.2 x hxrange hx).le
      · rw [List.count_eq_zero_of_not_mem fun hmem => hxrange (hrange x hmem)]
        exact Nat.zero_le _

theorem effectiveWinner_of_leads (hrange : ∀ v ∈ votes, v ≤ optionCount)
    (h : Leads votes optionCount i) : effectiveWinner votes optionCount = i := by
  have hvoted : i ∈ votes := by
    have hlt := h.2 optionCount (le_refl _) h.1.ne'
    exact List.count_pos_iff.mp (Nat.zero_lt_of_lt hlt)
  rw [effectiveWinner_eq, topOptions_of_leads hrange h hvoted]
  exact if_pos h.1

theorem effectiveWinner_of_none (h : ∀ i, ¬ Leads votes optionCount i) :
    effectiveWinner votes optionCount = optionCount := by
  rw [effectiveWinner_eq]
  split
  · rename_i winner htop
    by_cases hwinner : winner < optionCount
    · obtain ⟨k, hk⟩ : ∃ k, k ≤ optionCount ∧ k ≠ winner ∧ votes.count winner ≤ votes.count k := by
        by_contra hnone
        refine h winner ⟨hwinner, fun k hk hne => ?_⟩
        by_contra hlt
        exact hnone ⟨k, hk, hne, Nat.not_lt.mp hlt⟩
      -- a second index with as many votes is at the top too
      have hw := mem_topOptions_iff.mp (htop ▸ List.mem_singleton_self winner)
      have hmem : k ∈ topOptions votes := by
        refine mem_topOptions_iff.mpr ⟨?_, fun x => (hw.2 x).trans hk.2.2⟩
        exact List.count_pos_iff.mp ((List.count_pos_iff.mpr hw.1).trans_le hk.2.2)
      rw [htop, List.mem_singleton] at hmem
      exact absurd hmem hk.2.1
    · rw [if_neg hwinner]
  · rfl

/-- The winner when the tally is walked in the given order. -/
def effectiveWinnerIn (order : List Nat → List Nat) (votes : List Nat) (optionCount : Nat) :
    Nat :=
  let tally := order votes.dedup
  let maxCount := (tally.map fun option => votes.count option).foldl max 0
  match tally.filter fun option => votes.count option = maxCount with
  | [winner] => if winner < optionCount then winner else optionCount
  | _ => optionCount

theorem effectiveWinnerIn_eq {order : List Nat → List Nat} (horder : ∀ l, (order l).Perm l)
    (votes : List Nat) (optionCount : Nat) :
    effectiveWinnerIn order votes optionCount = effectiveWinner votes optionCount := by
  have hmax : ((order votes.dedup).map fun option => votes.count option).foldl max 0 =
      (votes.map fun option => votes.count option).foldl max 0 := by
    refine foldl_max_congr fun x => ?_
    simp only [List.mem_map, (horder votes.dedup).mem_iff, List.mem_dedup]
  have hperm : ((order votes.dedup).filter fun option => votes.count option =
      ((order votes.dedup).map fun option => votes.count option).foldl max 0).Perm
        (topOptions votes) := by
    rw [hmax]
    exact (horder votes.dedup).filter _
  rw [effectiveWinner_eq, effectiveWinnerIn]
  generalize ((order votes.dedup).filter fun option => votes.count option =
      ((order votes.dedup).map fun option => votes.count option).foldl max 0) = tops at hperm
  match htops : tops, htop : topOptions votes with
  | [], _ =>
      rw [htop] at hperm
      rw [hperm.nil_eq]
  | [w], _ =>
      rw [htop] at hperm
      rw [List.singleton_perm.mp hperm]
  | a :: b :: rest, [] => rfl
  | a :: b :: rest, [w] =>
      rw [htop] at hperm
      exact absurd hperm.length_eq (by simp)
  | a :: b :: rest, c :: d :: rest' => rfl

end

section

variable {n m : Nat}

def winningOptionIn (order : List Nat → List Nat) (column : Fin n → Option Rat)
    (optionCount : Nat) : Option Nat :=
  let votes := optionVotes column optionCount
  if votes.isEmpty then none else some (effectiveWinnerIn order votes optionCount)

/-- The votes for the winner count as one, the others as zero. -/
def rewriteWith (winner : Option Nat) (column : Fin n → Option Rat) : Fin n → Option Rat :=
  match winner with
  | none => column
  | some winner => fun row =>
      (column row).map fun val => if optionIndex val = winner then 1 else 0

/-- Resolve one categorical column in place. Each column has a tally of its own, walked in
an order of its own. -/
def resolveColumn (order : Fin m → List Nat → List Nat)
    (acc : VoteMatrix n m × (Fin m → Option (Option Nat))) (entry : Fin m × Nat) :
    VoteMatrix n m × (Fin m → Option (Option Nat)) :=
  let column := fun row => acc.1 row entry.1
  let winner := winningOptionIn (order entry.1) column entry.2
  (fun i j => if j = entry.1 then rewriteWith winner column i else acc.1 i j,
    fun j => if j = entry.1 then some winner else acc.2 j)

/-- Resolve the categorical columns in the given order. -/
def resolveCategoricalPluralityIn (order : Fin m → List Nat → List Nat)
    (columns : List (Fin m × Nat)) (denseMatrix : VoteMatrix n m) :
    VoteMatrix n m × (Fin m → Option (Option Nat)) :=
  columns.foldl (resolveColumn order) (denseMatrix, fun _ => none)

theorem winningOptionIn_eq {order : List Nat → List Nat} (horder : ∀ l, (order l).Perm l)
    (column : Fin n → Option Rat) (optionCount : Nat) :
    winningOptionIn order column optionCount = winningOption column optionCount := by
  rw [winningOptionIn, winningOption, effectiveWinnerIn_eq horder]

/-- A column is resolved once, from its own votes. -/
theorem foldl_resolveColumn {order : Fin m → List Nat → List Nat}
    (horder : ∀ j l, (order j l).Perm l) {columns : List (Fin m × Nat)}
    (hnodup : (columns.map Prod.fst).Nodup) (acc : VoteMatrix n m × (Fin m → Option (Option Nat)))
    (j : Fin m) :
    (∀ c, (j, c) ∈ columns →
      (∀ i, (columns.foldl (resolveColumn order) acc).1 i j =
        rewriteColumn (fun row => acc.1 row j) c i) ∧
      (columns.foldl (resolveColumn order) acc).2 j =
        some (winningOption (fun row => acc.1 row j) c)) ∧
    (j ∉ columns.map Prod.fst →
      (∀ i, (columns.foldl (resolveColumn order) acc).1 i j = acc.1 i j) ∧
      (columns.foldl (resolveColumn order) acc).2 j = acc.2 j) := by
  induction columns generalizing acc with
  | nil => simp
  | cons entry columns ih =>
      rw [List.map_cons, List.nodup_cons] at hnodup
      obtain ⟨hin, hout⟩ := ih hnodup.2 (resolveColumn order acc entry)
      rw [List.foldl_cons]
      refine ⟨?_, ?_⟩
      · intro c hc
        rcases List.mem_cons.mp hc with heq | hmem
        · -- the later columns leave this one alone
          obtain rfl := heq
          obtain ⟨hmatrix, hresult⟩ := hout hnodup.1
          refine ⟨fun i => ?_, ?_⟩
          · rw [hmatrix i, resolveColumn, winningOptionIn_eq (horder _)]
            exact if_pos rfl
          · rw [hresult, resolveColumn, winningOptionIn_eq (horder _)]
            exact if_pos rfl
        · have hne : j ≠ entry.1 := by
            rintro rfl
            exact hnodup.1 (List.mem_map.mpr ⟨_, hmem, rfl⟩)
          have hsame : (fun row => (resolveColumn order acc entry).1 row j) =
              fun row => acc.1 row j := funext fun row => if_neg hne
          rw [← hsame]
          exact hin c hmem
      · intro hj
        rw [List.map_cons, List.mem_cons, not_or] at hj
        obtain ⟨hmatrix, hresult⟩ := hout hj.2
        exact ⟨fun i => (hmatrix i).trans (if_neg hj.1), hresult.trans (if_neg hj.1)⟩

theorem resolved_of_none {denseMatrix : VoteMatrix n m} {categoricalColumns : Fin m → Option Nat}
    {j : Fin m} (hj : categoricalColumns j = none) :
    (∀ i, (resolveCategoricalPlurality denseMatrix categoricalColumns).1 i j =
        denseMatrix i j) ∧
      (resolveCategoricalPlurality denseMatrix categoricalColumns).2 j = none := by
  simp [resolveCategoricalPlurality, hj]

theorem resolved_of_some {denseMatrix : VoteMatrix n m} {categoricalColumns : Fin m → Option Nat}
    {j : Fin m} {c : Nat} (hj : categoricalColumns j = some c) :
    (∀ i, (resolveCategoricalPlurality denseMatrix categoricalColumns).1 i j =
        rewriteColumn (fun row => denseMatrix row j) c i) ∧
      (resolveCategoricalPlurality denseMatrix categoricalColumns).2 j =
        some (winningOption (fun row => denseMatrix row j) c) := by
  simp [resolveCategoricalPlurality, hj]

theorem resolveCategoricalPluralityIn_eq {order : Fin m → List Nat → List Nat}
    (horder : ∀ j l, (order j l).Perm l) {columns : List (Fin m × Nat)}
    (hnodup : (columns.map Prod.fst).Nodup) {categoricalColumns : Fin m → Option Nat}
    (hcolumns : ∀ j c, (j, c) ∈ columns ↔ categoricalColumns j = some c)
    (denseMatrix : VoteMatrix n m) :
    resolveCategoricalPluralityIn order columns denseMatrix =
      resolveCategoricalPlurality denseMatrix categoricalColumns := by
  have hcolumn : ∀ j,
      (∀ i, (resolveCategoricalPluralityIn order columns denseMatrix).1 i j =
        (resolveCategoricalPlurality denseMatrix categoricalColumns).1 i j) ∧
      (resolveCategoricalPluralityIn order columns denseMatrix).2 j =
        (resolveCategoricalPlurality denseMatrix categoricalColumns).2 j := by
    intro j
    obtain ⟨hin, hout⟩ := foldl_resolveColumn horder hnodup (denseMatrix, fun _ => none) j
    cases hj : categoricalColumns j with
    | none =>
        have hnotMem : j ∉ columns.map Prod.fst := by
          intro hmem
          obtain ⟨⟨j', c⟩, hentry, rfl⟩ := List.mem_map.mp hmem
          rw [(hcolumns _ c).mp hentry] at hj
          cases hj
        obtain ⟨hmatrix, hresult⟩ := hout hnotMem
        obtain ⟨hmatrix', hresult'⟩ := resolved_of_none hj
        exact ⟨fun i => (hmatrix i).trans (hmatrix' i).symm, hresult.trans hresult'.symm⟩
    | some c =>
        obtain ⟨hmatrix, hresult⟩ := hin c ((hcolumns j c).mpr hj)
        obtain ⟨hmatrix', hresult'⟩ := resolved_of_some hj
        exact ⟨fun i => (hmatrix i).trans (hmatrix' i).symm, hresult.trans hresult'.symm⟩
  exact Prod.ext (funext fun i => funext fun j => (hcolumn j).1 i)
    (funext fun j => (hcolumn j).2)

end

theorem truncRat_natCast {k : Nat} {high : Int} (hk : k ≤ high) :
    truncRat 0 high (k : Rat) = k := by
  have hfloor : ⌊(k : Rat)⌋ = (k : Int) := Int.floor_natCast k
  rw [truncRat_of_nonneg (le_refl 0) (Nat.cast_nonneg k) (by rw [hfloor]; exact hk), hfloor]

theorem roundRat_natCast (k : Nat) : roundRat k = k := by
  exact_mod_cast roundRat_intCast k

theorem optionIndex_natCast {k : Nat} (hk : k < 2 ^ 16) : optionIndex k = k := by
  rw [optionIndex, roundRat_natCast, truncRat_natCast (by omega), Int.toNat_natCast]

/-- The options of a categorical decision. -/
def HasOptions (decision : Decision Rat) (n : Nat) : Prop :=
  decision.optionCount = some n

theorem HasOptions.categorical {decision : Decision Rat} {n : Nat} (h : HasOptions decision n) :
    decision.isCategorical = true ∧ decision.isScaled = false := by
  unfold HasOptions Decision.optionCount at h
  unfold Decision.isCategorical Decision.isScaled
  split at h
  · rename_i options heq
    rw [heq]
    exact ⟨rfl, rfl⟩
  · cases h

theorem validateVoteValue_iff {decision : Decision Rat} {n : Nat} (h : HasOptions decision n)
    {v : Rat} : validateVoteValue decision v = .ok () ↔
      ∃ k : Nat, v = k ∧ k ≤ n ∧ k ≤ 2 ^ 64 - 1 := by
  have hnan : F64.isNan v = false := rfl
  have hvalue : validateVoteValue decision v = .ok () ↔
      0 ≤ v ∧ v = ((truncRat 0 (2 ^ 64 - 1) v).toNat : Rat) ∧ v ≤ n := by
    rw [validateVoteValue, hnan, if_neg (by decide), h.categorical.1, if_pos rfl,
      ensure_eq_ok_iff, show decision.optionCount = some n from h, Option.getD_some]
    exact and_congr decide_eq_true_iff (and_congr decide_eq_true_iff decide_eq_true_iff)
  rw [hvalue]
  constructor
  · rintro ⟨-, hint, hle⟩
    refine ⟨_, hint, ?_, ?_⟩
    · exact_mod_cast hint ▸ hle
    · have hhigh : truncRat 0 (2 ^ 64 - 1) v ≤ 2 ^ 64 - 1 := by
        rw [truncRat]
        exact max_le (by norm_num) (min_le_left _ _)
      omega
  · rintro ⟨k, rfl, hk, hmax⟩
    rw [truncRat_natCast (by omega), Int.toNat_natCast]
    exact ⟨Nat.cast_nonneg k, rfl, by exact_mod_cast hk⟩

theorem convertVoteValue_natCast {decision : Decision Rat} {n : Nat} (h : HasOptions decision n)
    {k : Nat} (hk : k ≤ 2 ^ 64 - 1) :
    convertVoteValueWithDecision (k : Rat) (some decision) =
      .categorical (min k (2 ^ 16 - 1)) := by
  have hnan : F64.isNan (k : Rat) = false := rfl
  have hround : F64.round (k : Rat) = k := roundRat_natCast k
  have htrunc : F64.toU64 (k : Rat) = k := by
    show (truncRat 0 (2 ^ 64 - 1) (k : Rat)).toNat = k
    rw [truncRat_natCast (by omega), Int.toNat_natCast]
  rw [convertVoteValueWithDecision, hnan, if_neg (by decide), Option.elim_some,
    h.categorical.1, if_pos rfl, hround, htrunc]

/-- The stored votes on a decision: abstentions and accepted votes, one for each voter. -/
structure Polled (rows : List (VoteMatrixKey × VoteMatrixEntry Rat)) (d : DecisionId)
    (decision : Decision Rat) (ballots : Address → Option Rat) : Prop where
  cast : ∀ row ∈ rows, row.1.decisionId = d →
    (ballots row.1.voterAddress = none ∧ row.2.value = .abstain) ∨
      ∃ v, ballots row.1.voterAddress = some v ∧ validateVoteValue decision v = .ok () ∧
        row.2.value = convertVoteValueWithDecision v (some decision)
  stored : ∀ a v, ballots a = some v →
    ∃ row ∈ rows, row.1.voterAddress = a ∧ row.1.decisionId = d

section

variable {rows : List (VoteMatrixKey × VoteMatrixEntry Rat)} {d : DecisionId}
  {decision : Decision Rat} {ballots : Address → Option Rat} {n : Nat}

/-- The entry of the matrix that a stored vote makes. -/
def entryOf (row : VoteMatrixKey × VoteMatrixEntry Rat) :
    Option ((Address × DecisionId) × Rat) :=
  row.2.value.toFloatOpt.map fun value => ((row.1.voterAddress, row.1.decisionId), value)

theorem entries_of_setVotes {matrix matrix' : SparseVoteMatrix Rat}
    (h : rows.foldlM setVote matrix = .ok matrix') :
    matrix'.entries = matrix.entries ++ rows.filterMap entryOf := by
  induction rows generalizing matrix with
  | nil =>
      rw [← Except.ok.inj h]
      exact (List.append_nil _).symm
  | cons row rows ih =>
      rw [List.foldlM_cons, bind_eq_ok_iff] at h
      obtain ⟨next, hstep, hrest⟩ := h
      rw [ih hrest]
      unfold setVote at hstep
      cases hvalue : row.2.value.toFloatOpt with
      | none =>
          rw [hvalue] at hstep
          obtain rfl := Except.ok.inj hstep
          rw [List.filterMap_cons_none (by rw [entryOf, hvalue]; rfl)]
      | some value =>
          rw [hvalue] at hstep
          simp only [bind_eq_ok_iff, Except.ok.injEq] at hstep
          obtain ⟨_, -, _, -, rfl⟩ := hstep
          rw [List.filterMap_cons_some (b := ((row.1.voterAddress, row.1.decisionId), value))
            (by rw [entryOf, hvalue]; rfl), List.append_assoc, List.singleton_append]

theorem getVote_eq_some {matrix : SparseVoteMatrix Rat} {a : Address} {x : Rat}
    (hmem : ((a, d), x) ∈ matrix.entries)
    (hall : ∀ y, ((a, d), y) ∈ matrix.entries → y = x) : getVote matrix a d = some x := by
  rw [getVote]
  cases hfind : matrix.entries.reverse.find? fun entry => entry.1 = (a, d) with
  | none =>
      have hnone := List.find?_eq_none.mp hfind _ (List.mem_reverse.mpr hmem)
      simp at hnone
  | some entry =>
      obtain ⟨key, y⟩ := entry
      have hkey : key = (a, d) := by simpa using List.find?_some hfind
      have hentry := List.mem_reverse.mp (List.mem_of_find?_eq_some hfind)
      rw [Option.map_some, hall y (hkey ▸ hentry)]

theorem getVote_eq_none {matrix : SparseVoteMatrix Rat} {a : Address}
    (hall : ∀ y, ((a, d), y) ∉ matrix.entries) : getVote matrix a d = none := by
  rw [getVote, Option.map_eq_none_iff, List.find?_eq_none]
  rintro ⟨key, y⟩ hentry hkey
  have hkey' : key = (a, d) := by simpa using hkey
  exact hall y (hkey' ▸ List.mem_reverse.mp hentry)

/-- The vote in the matrix is the ballot, as far as 16 bits hold it. -/
theorem getVote_of_polled {matrix : SparseVoteMatrix Rat} {voters : List Address}
    {decisionIds : List DecisionId}
    (h : rows.foldlM setVote ⟨voters, decisionIds, []⟩ = .ok matrix)
    (hpolled : Polled rows d decision ballots) (hoptions : HasOptions decision n)
    (a : Address) :
    (ballots a = none ∧ getVote matrix a d = none) ∨
      ∃ k : Nat, ballots a = some (k : Rat) ∧ k ≤ n ∧
        getVote matrix a d = some ((min k (2 ^ 16 - 1) : Nat) : Rat) := by
  have hentries : ∀ y, ((a, d), y) ∈ matrix.entries ↔ ∃ row ∈ rows,
      row.1.voterAddress = a ∧ row.1.decisionId = d ∧ row.2.value.toFloatOpt = some y := by
    intro y
    rw [entries_of_setVotes h, List.nil_append, List.mem_filterMap]
    refine exists_congr fun row => and_congr_right fun _ => ?_
    rw [entryOf, Option.map_eq_some_iff]
    constructor
    · rintro ⟨value, hvalue, heq⟩
      obtain ⟨hkey, rfl⟩ := Prod.mk.inj heq
      obtain ⟨rfl, rfl⟩ := Prod.mk.inj hkey
      exact ⟨rfl, rfl, hvalue⟩
    · rintro ⟨rfl, rfl, hvalue⟩
      exact ⟨y, hvalue, rfl⟩
  cases hballot : ballots a with
  | none =>
      refine .inl ⟨rfl, getVote_eq_none fun y hy => ?_⟩
      obtain ⟨row, hrow, rfl, hd, hvalue⟩ := (hentries y).mp hy
      rcases hpolled.cast row hrow hd with ⟨-, habstain⟩ | ⟨v, hv, -⟩
      · rw [habstain] at hvalue
        cases hvalue
      · rw [hballot] at hv
        cases hv
  | some v =>
      have hcast : ∀ row ∈ rows, row.1.voterAddress = a → row.1.decisionId = d →
          validateVoteValue decision v = .ok () ∧
            row.2.value = convertVoteValueWithDecision v (some decision) := by
        rintro row hrow rfl hd
        rcases hpolled.cast row hrow hd with ⟨hnone, -⟩ | ⟨v', hv', hvalid, hvalue⟩
        · rw [hballot] at hnone
          cases hnone
        · obtain rfl := Option.some.inj (hballot.symm.trans hv')
          exact ⟨hvalid, hvalue⟩
      obtain ⟨row, hrow, ha, hd⟩ := hpolled.stored a v hballot
      obtain ⟨k, rfl, hk, hmax⟩ := (validateVoteValue_iff hoptions).mp (hcast row hrow ha hd).1
      refine .inr ⟨k, rfl, hk, getVote_eq_some ?_ ?_⟩
      · refine (hentries _).mpr ⟨row, hrow, ha, hd, ?_⟩
        rw [(hcast row hrow ha hd).2, convertVoteValue_natCast hoptions hmax]
        rfl
      · intro y hy
        obtain ⟨row', hrow', ha', hd', hvalue⟩ := (hentries y).mp hy
        rw [(hcast row' hrow' ha' hd').2, convertVoteValue_natCast hoptions hmax] at hvalue
        exact (Option.some.inj hvalue).symm

end

/-- How many of the voters chose an index. -/
def votersFor (voters : List Address) (ballots : Address → Option Rat) (k : Nat) : Nat :=
  voters.countP fun a => ballots a = some (k : Rat)

/-- The option alone has the most voters, among the options and the index past them. -/
def Wins (voters : List Address) (ballots : Address → Option Rat) (n i : Nat) : Prop :=
  i < n ∧ ∀ k ≤ n, k ≠ i → votersFor voters ballots k < votersFor voters ballots i

/-- The index whose voters are right: the winner, or the one past the options. -/
def Winning (voters : List Address) (ballots : Address → Option Rat) (n w : Nat) : Prop :=
  Wins voters ballots n w ∨ (∀ i, ¬ Wins voters ballots n i) ∧ w = n

/-- The outcome is the winner, or the neutral value. -/
def Outcome (voters : List Address) (ballots : Address → Option Rat) (n : Nat) (y : Rat) : Prop :=
  (∃ i, Wins voters ballots n i ∧ y = i) ∨
    (∀ i, ¬ Wins voters ballots n i) ∧ y = neutralValue

/-- The matrix of a period in which voters were polled on an accepted decision with the given
number of options. -/
structure Poll (decisions : Dbs Rat) (reputations : Table Address Rat)
    (decisionIds : List DecisionId) (rows : List (VoteMatrixKey × VoteMatrixEntry Rat))
    (matrix : SparseVoteMatrix Rat) (d : DecisionId) (n : Nat)
    (ballots : Address → Option Rat) : Prop where
  matrix_eq : rows.foldlM setVote ⟨reputations.toList.map Prod.fst,
    decisionIds.insertionSort fun a b => a.toNat ≤ b.toNat, []⟩ = .ok matrix
  listed : d ∈ decisionIds
  polled : ∃ decision,
    (∃ maker type header description label0 label1 tags,
      Decision.new maker type header description label0 label1 tags = .ok decision) ∧
    (decisions.getDecisionEntry d).bind DecisionEntry.decision = some decision ∧
    HasOptions decision n ∧ Polled rows d decision ballots

/-- The option counts that are handed to the algorithm. -/
def optionCounts (decisions : Dbs Rat) (matrix : SparseVoteMatrix Rat) :
    List (DecisionId × Nat) :=
  matrix.decisions.filterMap (categoricalOptions decisions)

def categoricalColumns (decisions : Dbs Rat) (matrix : SparseVoteMatrix Rat)
    (j : Fin matrix.decisions.length) : Option Nat :=
  ((optionCounts decisions matrix).find? fun entry =>
    entry.1 = matrix.decisions.get j).map Prod.snd

/-- What is asked of decisions with `n` options: the recorded outcome, the column that goes on
to the reputations, and that no order of a hash map matters. -/
structure Lawful (n : Nat) : Prop where
  outcome : ∀ decisions reputations decisionIds rows matrix d ballots,
    Poll decisions reputations decisionIds rows matrix d n ballots →
    ∀ prinComp result,
      runConsensus prinComp matrix (fromReputationMap reputations)
          (matrix.decisions.filter (isScaledDecision decisions))
          (optionCounts decisions matrix) = .ok result →
        d ∈ result.outcomes.map Prod.fst ∧
          ∀ x, (d, x) ∈ result.outcomes → ∃ y, x = some y ∧ Outcome matrix.voters ballots n y
  column : ∀ decisions reputations decisionIds rows matrix d ballots,
    Poll decisions reputations decisionIds rows matrix d n ballots →
    ∀ j w, matrix.decisions.get j = d → Winning matrix.voters ballots n w →
      ∀ i, (resolveCategoricalPlurality (denseMatrix matrix)
          (categoricalColumns decisions matrix)).1 i j =
        (ballots (matrix.voters.get i)).map fun v => if v = (w : Rat) then (1 : Rat) else 0
  order : ∀ decisions reputations decisionIds rows matrix d ballots,
    Poll decisions reputations decisionIds rows matrix d n ballots →
    ∀ (order : Fin matrix.decisions.length → List Nat → List Nat)
        (columns : List (Fin matrix.decisions.length × Nat)),
      (∀ j l, (order j l).Perm l) → (columns.map Prod.fst).Nodup →
      (∀ j c, (j, c) ∈ columns ↔ categoricalColumns decisions matrix j = some c) →
        resolveCategoricalPluralityIn order columns (denseMatrix matrix) =
          resolveCategoricalPlurality (denseMatrix matrix) (categoricalColumns decisions matrix)

section

variable {decisions : Dbs Rat} {reputations : Table Address Rat} {decisionIds : List DecisionId}
  {rows : List (VoteMatrixKey × VoteMatrixEntry Rat)} {matrix : SparseVoteMatrix Rat}
  {d : DecisionId} {n : Nat} {ballots : Address → Option Rat}

theorem Poll.vote (h : Poll decisions reputations decisionIds rows matrix d n ballots)
    (a : Address) :
    (ballots a = none ∧ getVote matrix a d = none) ∨
      ∃ k : Nat, ballots a = some (k : Rat) ∧ k ≤ n ∧
        getVote matrix a d = some ((min k (2 ^ 16 - 1) : Nat) : Rat) := by
  obtain ⟨decision, -, -, hoptions, hpolled⟩ := h.polled
  exact getVote_of_polled h.matrix_eq hpolled hoptions a

theorem Poll.mem_decisions
    (h : Poll decisions reputations decisionIds rows matrix d n ballots) :
    d ∈ matrix.decisions := by
  rw [(foldlM_setVote_eq_ok h.matrix_eq).2, List.mem_insertionSort]
  exact h.listed

theorem Poll.column (h : Poll decisions reputations decisionIds rows matrix d n ballots)
    {j : Fin matrix.decisions.length} (hj : matrix.decisions.get j = d) :
    categoricalColumns decisions matrix j = some (n % 2 ^ 16) := by
  obtain ⟨decision, -, hdecision, hoptions, -⟩ := h.polled
  have hcount : categoricalOptions decisions d = some (d, n % 2 ^ 16) := by
    rw [categoricalOptions, hdecision]
    show (if decision.isScaled = true then none else
      decision.optionCount.map fun n => (d, n % 2 ^ 16)) = _
    rw [hoptions.categorical.2, if_neg (by decide),
      show decision.optionCount = some n from hoptions, Option.map_some]
  have hfirst : ∀ d' entry, categoricalOptions decisions d' = some entry → entry.1 = d' := by
    intro d' entry hentry
    unfold categoricalOptions at hentry
    split at hentry
    · split at hentry
      · cases hentry
      · obtain ⟨_, -, rfl⟩ := Option.map_eq_some_iff.mp hentry
        rfl
    · cases hentry
  rw [categoricalColumns, hj]
  cases hfind : (optionCounts decisions matrix).find? fun entry => entry.1 = d with
  | none =>
      have hmem : (d, n % 2 ^ 16) ∈ optionCounts decisions matrix :=
        List.mem_filterMap.mpr ⟨d, h.mem_decisions, hcount⟩
      have hnone := List.find?_eq_none.mp hfind _ hmem
      simp at hnone
  | some entry =>
      have hd : entry.1 = d := by simpa using List.find?_some hfind
      obtain ⟨d', -, hentry⟩ := List.mem_filterMap.mp (List.mem_of_find?_eq_some hfind)
      rw [← hfirst d' entry hentry, hd, hcount] at hentry
      rw [Option.map_some, ← Option.some.inj hentry]

theorem Poll.count (h : Poll decisions reputations decisionIds rows matrix d n ballots)
    (hn : n < 2 ^ 16) {j : Fin matrix.decisions.length} (hj : matrix.decisions.get j = d)
    {k : Nat} (hk : k ≤ n) :
    (optionVotes (fun row => denseMatrix matrix row j) n).count k =
      votersFor matrix.voters ballots k := by
  have hcolumn : ∀ i, (denseMatrix matrix i j).map optionIndex = some k ↔
      ballots (matrix.voters.get i) = some (k : Rat) := by
    intro i
    rw [denseMatrix, hj]
    rcases h.vote (matrix.voters.get i) with ⟨hballot, hvote⟩ | ⟨k', hballot, hk', hvote⟩
    · rw [hballot, hvote]
      simp
    · rw [hballot, hvote, Nat.min_eq_left (by omega), Option.map_some,
        optionIndex_natCast (by omega), Option.some.injEq, Option.some.injEq, Nat.cast_inj]
  rw [optionVotes, List.count_filter (by simpa using hk), List.count_filterMap, votersFor]
  conv_rhs => rw [← List.map_get_finRange matrix.voters, List.countP_map]
  refine List.countP_congr fun i _ => ?_
  simpa using hcolumn i

theorem optionVotes_le {n m : Nat} {column : Fin n → Option Rat} :
    ∀ v ∈ optionVotes column m, v ≤ m := by
  intro v hv
  simpa using (List.mem_filter.mp hv).2

theorem Poll.leads_iff (h : Poll decisions reputations decisionIds rows matrix d n ballots)
    (hn : n < 2 ^ 16) {j : Fin matrix.decisions.length} (hj : matrix.decisions.get j = d)
    {i : Nat} :
    Leads (optionVotes (fun row => denseMatrix matrix row j) n) n i ↔
      Wins matrix.voters ballots n i := by
  refine and_congr_right fun hi => forall_congr' fun k => forall_congr' fun hk => ?_
  rw [h.count hn hj hk, h.count hn hj hi.le]

theorem not_wins_of_silent {voters : List Address} (h : ∀ a ∈ voters, ballots a = none) (i : Nat) :
    ¬ Wins voters ballots n i := by
  rintro ⟨hi, hlt⟩
  have hzero : votersFor voters ballots i = 0 := by
    refine List.countP_eq_zero.mpr fun a ha hvote => ?_
    rw [h a ha] at hvote
    simp at hvote
  have hpos := hlt n (le_refl n) hi.ne'
  rw [hzero] at hpos
  exact Nat.not_lt_zero _ hpos

theorem Wins.unique {voters : List Address} {i i' : Nat} (h : Wins voters ballots n i)
    (h' : Wins voters ballots n i') : i = i' := by
  by_contra hne
  exact absurd (h.2 i' h'.1.le (Ne.symm hne)) (Nat.not_lt.mpr (h'.2 i h.1.le hne).le)

theorem Winning.unique {voters : List Address} {w w' : Nat} (h : Winning voters ballots n w)
    (h' : Winning voters ballots n w') : w = w' := by
  rcases h with hw | ⟨hnone, rfl⟩ <;> rcases h' with hw' | ⟨hnone', rfl⟩
  · exact hw.unique hw'
  · exact absurd hw (hnone' w)
  · exact absurd hw' (hnone w')
  · rfl

/-- The winner of a column is right, unless nobody voted. -/
theorem Poll.winningOption (h : Poll decisions reputations decisionIds rows matrix d n ballots)
    (hn : n < 2 ^ 16) {j : Fin matrix.decisions.length} (hj : matrix.decisions.get j = d) :
    (∃ w, Oracle.winningOption (fun row => denseMatrix matrix row j) n = some w ∧
        Winning matrix.voters ballots n w) ∨
      Oracle.winningOption (fun row => denseMatrix matrix row j) n = none ∧
        ∀ a ∈ matrix.voters, ballots a = none := by
  rw [Oracle.winningOption]
  split
  · rename_i hempty
    refine .inr ⟨rfl, fun a ha => ?_⟩
    rcases h.vote a with ⟨hballot, -⟩ | ⟨k, hballot, hk, -⟩
    · exact hballot
    · have hcount := h.count hn hj hk
      rw [List.isEmpty_iff.mp hempty, List.count_nil] at hcount
      exact absurd hballot (by simpa using List.countP_eq_zero.mp hcount.symm a ha)
  · refine .inl ⟨_, rfl, ?_⟩
    by_cases hlead : ∃ i, Leads (optionVotes (fun row => denseMatrix matrix row j) n) n i
    · obtain ⟨i, hi⟩ := hlead
      rw [effectiveWinner_of_leads optionVotes_le hi]
      exact .inl ((h.leads_iff hn hj).mp hi)
    · rw [effectiveWinner_of_none fun i hi => hlead ⟨i, hi⟩]
      exact .inr ⟨fun i hi => hlead ⟨i, (h.leads_iff hn hj).mpr hi⟩, rfl⟩

theorem mem_outcomes_of_mem {prinComp : PrinComp} {reputationVector : Table Address Rat}
    {scaledDecisions : List DecisionId} {categoricalDecisions : List (DecisionId × Nat)}
    {result : DetailedConsensusResult Rat}
    (h : runConsensus prinComp matrix reputationVector scaledDecisions categoricalDecisions =
      .ok result) (hd : d ∈ matrix.decisions) : d ∈ result.outcomes.map Prod.fst := by
  obtain ⟨factory, -, hresult⟩ := bind_eq_ok_iff.mp h
  rw [← Except.ok.inj hresult]
  obtain ⟨j, hj⟩ := List.mem_iff_get.mp hd
  exact List.mem_map.mpr ⟨_, (List.mem_ofFn' _ _).mpr ⟨j, rfl⟩, hj⟩

theorem outcome_of_runConsensus {prinComp : PrinComp} {reputationVector : Table Address Rat}
    {scaledDecisions : List DecisionId} {categoricalDecisions : List (DecisionId × Nat)}
    {result : DetailedConsensusResult Rat} {c : Nat} {x : Option Rat}
    (h : runConsensus prinComp matrix reputationVector scaledDecisions categoricalDecisions =
      .ok result)
    (hc : (categoricalDecisions.find? fun entry => entry.1 = d).map Prod.snd = some c)
    (hx : (d, x) ∈ result.outcomes) :
    ∃ j, matrix.decisions.get j = d ∧
      x = some (match Oracle.winningOption (fun row => denseMatrix matrix row j) c with
        | some w => if w < c then (w : Rat) else neutralValue
        | none => neutralValue) := by
  obtain ⟨factory, -, hresult⟩ := bind_eq_ok_iff.mp h
  rw [← Except.ok.inj hresult] at hx
  obtain ⟨j, hj⟩ := (List.mem_ofFn' _ _).mp hx
  obtain ⟨hd, rfl⟩ := Prod.mk.inj hj
  rw [← hd] at hc
  refine ⟨j, hd, ?_⟩
  have hwinner : (resolveCategoricalPlurality (denseMatrix matrix) fun j =>
      (categoricalDecisions.find? fun entry => entry.1 = matrix.decisions.get j).map Prod.snd).2
        j = some (Oracle.winningOption (fun row => denseMatrix matrix row j) c) :=
    (resolved_of_some hc).2
  simp only [hwinner, hc, Option.getD_some]
  cases Oracle.winningOption (fun row => denseMatrix matrix row j) c <;> rfl

theorem Poll.outcome (h : Poll decisions reputations decisionIds rows matrix d n ballots)
    (hn : n < 2 ^ 16) {prinComp : PrinComp} {result : DetailedConsensusResult Rat}
    (hrun : runConsensus prinComp matrix (fromReputationMap reputations)
      (matrix.decisions.filter (isScaledDecision decisions))
      (optionCounts decisions matrix) = .ok result) {x : Option Rat}
    (hx : (d, x) ∈ result.outcomes) :
    ∃ y, x = some y ∧ Outcome matrix.voters ballots n y := by
  obtain ⟨j, hj⟩ := List.mem_iff_get.mp h.mem_decisions
  have hcolumn := h.column hj
  rw [Nat.mod_eq_of_lt hn, categoricalColumns, hj] at hcolumn
  obtain ⟨j', hj', rfl⟩ := outcome_of_runConsensus hrun hcolumn hx
  refine ⟨_, rfl, ?_⟩
  rcases h.winningOption hn hj' with ⟨w, hw, hwins | ⟨hnone, rfl⟩⟩ | ⟨hnone, hsilent⟩
  · rw [hw]
    exact .inl ⟨w, hwins, if_pos hwins.1⟩
  · rw [hw]
    exact .inr ⟨hnone, if_neg (Nat.lt_irrefl _)⟩
  · rw [hnone]
    exact .inr ⟨not_wins_of_silent hsilent, rfl⟩

theorem Poll.rewritten (h : Poll decisions reputations decisionIds rows matrix d n ballots)
    (hn : n < 2 ^ 16) {j : Fin matrix.decisions.length} (hj : matrix.decisions.get j = d)
    {w : Nat} (hw : Winning matrix.voters ballots n w) (i : Fin matrix.voters.length) :
    (resolveCategoricalPlurality (denseMatrix matrix)
        (categoricalColumns decisions matrix)).1 i j =
      (ballots (matrix.voters.get i)).map fun v => if v = (w : Rat) then (1 : Rat) else 0 := by
  have hcolumn := h.column hj
  rw [Nat.mod_eq_of_lt hn] at hcolumn
  have hvote : denseMatrix matrix i j = getVote matrix (matrix.voters.get i) d := by
    rw [denseMatrix, hj]
  rw [(resolved_of_some hcolumn).1, rewriteColumn]
  rcases h.winningOption hn hj with ⟨w', hw', hwinning⟩ | ⟨hnone, hsilent⟩
  · rw [hw', hwinning.unique hw]
    show (denseMatrix matrix i j).map _ = _
    rw [hvote]
    rcases h.vote (matrix.voters.get i) with ⟨hballot, hget⟩ | ⟨k, hballot, hk, hget⟩
    · rw [hballot, hget]
      rfl
    · rw [hballot, hget, Nat.min_eq_left (by omega), Option.map_some, Option.map_some,
        optionIndex_natCast (by omega)]
      simp only [Nat.cast_inj]
  · rw [hnone, hsilent _ (List.get_mem _ _)]
    show denseMatrix matrix i j = none
    rw [hvote]
    rcases h.vote (matrix.voters.get i) with ⟨-, hget⟩ | ⟨k, hballot, -⟩
    · exact hget
    · rw [hsilent _ (List.get_mem _ _)] at hballot
      cases hballot

end

/-- A decision with `n` options. -/
def crowdedDecision (n : Nat) : Decision Rat :=
  ⟨0, .category (List.replicate n ""), "", "", none, none, []⟩

def crowdedDecisions (n : Nat) : Dbs Rat :=
  { Dbs.empty Rat with
    periodDecisions := (∅ : Table Nat (List (DecisionEntry Rat))).insert 0
      [⟨0, some (crowdedDecision n), 0⟩] }

def oneVoter : Table Address Rat := (∅ : Table Address Rat).insert 0 1

/-- The only vote is for the option that the narrowed count takes for the index past the last. -/
def loneVote (n : Nat) : Rat := (n % 2 ^ 16 : Nat)

def loneBallot (n : Nat) (a : Address) : Option Rat := if a = 0 then some (loneVote n) else none

def loneRow (n : Nat) : VoteMatrixKey × VoteMatrixEntry Rat :=
  (⟨0, 0, 0⟩, ⟨convertVoteValueWithDecision (loneVote n) (some (crowdedDecision n)), 0, 0⟩)

section

variable {n : Nat}

theorem new_crowdedDecision (hn : 2 ≤ n) :
    Decision.new 0 (.category (List.replicate n "")) "" "" none none [] =
      .ok (crowdedDecision n) := by
  have htype : validateDecisionType (.category (List.replicate n "") : DecisionType Rat) =
      .ok () := by
    rw [validateDecisionType, List.length_replicate]
    exact ensure_pos hn _
  simp [Decision.new, htype, crowdedDecision, ensure_pos]

theorem getDecisionEntry_crowded :
    ((crowdedDecisions n).getDecisionEntry 0).bind DecisionEntry.decision =
      some (crowdedDecision n) := by
  have hentries : (crowdedDecisions n).entriesOf (DecisionId.periodIndex 0) =
      [⟨0, some (crowdedDecision n), 0⟩] := by
    rw [Dbs.entriesOf, crowdedDecisions, show DecisionId.periodIndex 0 = 0 by decide]
    simp
  rw [Dbs.getDecisionEntry, hentries]
  rfl

theorem hasOptions_crowded (n : Nat) : HasOptions (crowdedDecision n) n := by
  simp [HasOptions, Decision.optionCount, crowdedDecision]

theorem toList_oneVoter : oneVoter.toList = [(0, 1)] := by
  refine List.perm_singleton.mp ((toList_insert_perm 1 (by simp)).trans ?_)
  simp

theorem exists_poll (hn : 2 ^ 16 ≤ n) : ∃ matrix : SparseVoteMatrix Rat,
    matrix.voters = [0] ∧
      Poll (crowdedDecisions n) oneVoter [0] [loneRow n] matrix 0 n (loneBallot n) := by
  obtain ⟨matrix, hmatrix⟩ : ∃ matrix, [loneRow n].foldlM setVote
      ⟨oneVoter.toList.map Prod.fst,
        [(0 : DecisionId)].insertionSort fun a b => a.toNat ≤ b.toNat, []⟩ = .ok matrix := by
    refine foldlM_setVote_ok fun row hrow _ => ?_
    obtain rfl := List.mem_singleton.mp hrow
    rw [toList_oneVoter]
    exact ⟨List.mem_singleton.mpr rfl, List.mem_singleton.mpr rfl⟩
  have hvalid : validateVoteValue (crowdedDecision n) (loneVote n) = .ok () :=
    (validateVoteValue_iff (hasOptions_crowded n)).mpr
      ⟨n % 2 ^ 16, rfl, by omega, by omega⟩
  refine ⟨matrix, ?_, hmatrix, List.mem_singleton.mpr rfl, crowdedDecision n,
    ⟨0, _, "", "", none, none, [], new_crowdedDecision (by omega)⟩, getDecisionEntry_crowded,
    hasOptions_crowded n, ?_, ?_⟩
  · rw [(foldlM_setVote_eq_ok hmatrix).1, toList_oneVoter]
    rfl
  · intro row hrow _
    obtain rfl := List.mem_singleton.mp hrow
    exact .inr ⟨loneVote n, if_pos rfl, hvalid, rfl⟩
  · intro a v hv
    by_cases ha : a = 0
    · exact ⟨loneRow n, List.mem_singleton.mpr rfl, ha.symm, rfl⟩
    · rw [loneBallot, if_neg ha] at hv
      cases hv

theorem nonneg_fromReputationMap (reputations : Table Address Rat) :
    Nonneg (fromReputationMap reputations) := by
  intro a rep hrep
  rw [fromReputationMap, Std.ExtTreeMap.getElem?_map, Option.map_eq_some_iff] at hrep
  obtain ⟨rep', -, rfl⟩ := hrep
  exact le_max_left 0 _

theorem wins_lone {voters : List Address} (hvoters : voters = [0]) (hn : 2 ^ 16 ≤ n) :
    Wins voters (loneBallot n) n (n % 2 ^ 16) := by
  refine ⟨by omega, fun k hk hne => ?_⟩
  have hself : loneBallot n 0 = some ((n % 2 ^ 16 : Nat) : Rat) := if_pos rfl
  have hother : loneBallot n 0 ≠ some (k : Rat) := by
    rw [hself, Ne, Option.some.injEq, Nat.cast_inj]
    exact Ne.symm hne
  rw [hvoters, votersFor, votersFor, List.countP_singleton, List.countP_singleton,
    if_neg (by simpa), if_pos (by simpa)]
  exact Nat.zero_lt_one

theorem not_leads_lone {matrix : SparseVoteMatrix Rat} (hvoters : matrix.voters = [0])
    (hpoll : Poll (crowdedDecisions n) oneVoter [0] [loneRow n] matrix 0 n (loneBallot n))
    {j : Fin matrix.decisions.length} (hj : matrix.decisions.get j = 0) (i : Nat) :
    ¬ Leads (optionVotes (fun row => denseMatrix matrix row j) (n % 2 ^ 16)) (n % 2 ^ 16) i := by
  rintro ⟨hi, hlt⟩
  have hvoted := List.count_pos_iff.mp (Nat.zero_lt_of_lt (hlt _ (le_refl _) hi.ne'))
  obtain ⟨row, -, hrow⟩ := List.mem_filterMap.mp (List.mem_filter.mp hvoted).1
  change (getVote matrix (matrix.voters.get row) (matrix.decisions.get j)).map optionIndex = _
    at hrow
  have hvoter : matrix.voters.get row = 0 := by
    have hmem : matrix.voters.get row ∈ [0] := hvoters ▸ List.get_mem matrix.voters row
    exact List.mem_singleton.mp hmem
  rw [hj, hvoter] at hrow
  rcases hpoll.vote 0 with ⟨hballot, -⟩ | ⟨k, hballot, -, hget⟩
  · rw [loneBallot, if_pos rfl] at hballot
    cases hballot
  · rw [loneBallot, if_pos rfl, loneVote, Option.some.injEq, Nat.cast_inj] at hballot
    rw [hget, ← hballot, Nat.min_eq_left (by omega), Option.map_some,
      optionIndex_natCast (by omega)] at hrow
    exact hi.ne (Option.some.inj hrow).symm

theorem winningOption_lone {column : Fin n → Option Rat} {c w : Nat}
    (hnone : ∀ i, ¬ Leads (optionVotes column c) c i)
    (h : Oracle.winningOption column c = some w) : w = c := by
  rw [Oracle.winningOption] at h
  split at h
  · cases h
  · rw [effectiveWinner_of_none hnone] at h
    exact (Option.some.inj h).symm

/-- The lone vote wins, but the outcome is neutral. -/
theorem not_lawful_of_le (hn : 2 ^ 16 ≤ n) : ¬ Lawful n := by
  intro hlawful
  obtain ⟨matrix, hvoters, hpoll⟩ := exists_poll hn
  obtain ⟨factory, hfactory, -⟩ := runFactory_succeeds (by simp [hvoters])
    (List.ne_nil_of_mem hpoll.mem_decisions) (nonneg_fromReputationMap oneVoter)
    (fun _ _ _ _ => (fun _ => 0, fun _ => 1))
    (matrix.decisions.filter (isScaledDecision (crowdedDecisions n)))
    (categoricalColumns (crowdedDecisions n) matrix)
  obtain ⟨result, hresult⟩ : ∃ result,
      runConsensus (fun _ _ _ _ => (fun _ => 0, fun _ => 1)) matrix
        (fromReputationMap oneVoter)
        (matrix.decisions.filter (isScaledDecision (crowdedDecisions n)))
        (optionCounts (crowdedDecisions n) matrix) = .ok result :=
    ⟨_, bind_eq_ok_iff.mpr ⟨factory, hfactory, rfl⟩⟩
  obtain ⟨hmem, hall⟩ := hlawful.outcome _ _ _ _ _ _ _ hpoll _ _ hresult
  obtain ⟨⟨d, x⟩, hx, hd⟩ := List.mem_map.mp hmem
  obtain rfl : d = 0 := hd
  obtain ⟨y, rfl, hy⟩ := hall x hx
  obtain ⟨j₀, hj₀⟩ := List.mem_iff_get.mp hpoll.mem_decisions
  have hcolumn := hpoll.column hj₀
  rw [categoricalColumns, hj₀] at hcolumn
  obtain ⟨j, hj, hy'⟩ := outcome_of_runConsensus hresult hcolumn hx
  have hneutral : y = neutralValue := by
    rw [Option.some.inj hy']
    split
    · rename_i w hw
      rw [winningOption_lone (not_leads_lone hvoters hpoll hj) hw, if_neg (Nat.lt_irrefl _)]
    · rfl
  rcases hy with ⟨i, hi, rfl⟩ | ⟨hnone, -⟩
  · -- an option is not one half
    have htwice : ((2 * i : Nat) : Rat) = (1 : Nat) := by
      push_cast
      rw [hneutral]
      norm_num [neutralValue]
    have := Nat.cast_injective htwice
    omega
  · exact hnone _ (wins_lone hvoters hn)

end

/-- The outcomes are those of the plurality for fewer than 65536 options, and only for these. -/
theorem lawful_iff (n : Nat) : Lawful n ↔ n < 2 ^ 16 := by
  refine ⟨fun h => not_le.mp fun hle => not_lawful_of_le hle h, fun hn => ⟨?_, ?_, ?_⟩⟩
  · intro decisions reputations decisionIds rows matrix d ballots hpoll prinComp result hrun
    exact ⟨mem_outcomes_of_mem hrun hpoll.mem_decisions, fun x hx => hpoll.outcome hn hrun hx⟩
  · intro decisions reputations decisionIds rows matrix d ballots hpoll j w hj hw i
    exact hpoll.rewritten hn hj hw i
  · intro decisions reputations decisionIds rows matrix d ballots _ order columns horder hnodup
      hcolumns
    exact resolveCategoricalPluralityIn_eq horder hnodup hcolumns _

theorem not_lawful_crowded : ¬ Lawful (2 ^ 16) :=
  not_lawful_of_le (le_refl _)

end Truthcoin.Plurality
