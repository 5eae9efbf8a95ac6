import Truthcoin.RationalRounding
import Truthcoin.Trading

/-!
# Proportional allocation

With rational numbers for doubles, a pool is split exactly: what rounding leaves over goes to
one recipient and what it hands out too much is taken back, so no participant is further from
its exact share than half a satoshi for each participant and one half more.
-/

namespace Truthcoin.Trading

open Truthcoin.Types Truthcoin.Fallible Truthcoin.Arithmetic Truthcoin.RationalRounding

variable {K : Type}

theorem toSats_nearest {x : Rat} (hx : 0 ≤ x) (hbound : ⌊x + 1 / 2⌋ < 2 ^ 64) :
    toSats x .nearest = .ok ⌊x + 1 / 2⌋.toNat := by
  have hrounded : roundWith .nearest x = ((⌊x + 1 / 2⌋ : ℤ) : Rat) := roundRat_eq_floor hx
  have hfloor : (0 : ℤ) ≤ ⌊x + 1 / 2⌋ := Int.floor_nonneg.mpr (by linarith)
  have hnegative : F64.lt x F64.zero = false := decide_eq_false (not_lt.mpr hx)
  have hsmall : F64.le (F64.ofRat (2 ^ 64)) ((⌊x + 1 / 2⌋ : ℤ) : Rat) = false := by
    refine decide_eq_false (not_le.mpr ?_)
    change ((⌊x + 1 / 2⌋ : ℤ) : Rat) < 2 ^ 64
    exact_mod_cast hbound
  have hsats : F64.toU64 ((⌊x + 1 / 2⌋ : ℤ) : Rat) = ⌊x + 1 / 2⌋.toNat := by
    have hcast : ⌊((⌊x + 1 / 2⌋ : ℤ) : Rat)⌋ = ⌊x + 1 / 2⌋ := Int.floor_intCast _
    have htrunc : truncRat 0 (2 ^ 64 - 1) ((⌊x + 1 / 2⌋ : ℤ) : Rat) = ⌊x + 1 / 2⌋ :=
      (truncRat_of_nonneg (Int.le_refl 0) (by exact_mod_cast hfloor) (by rw [hcast]; omega)).trans
        hcast
    exact congrArg Int.toNat htrunc
  simp only [toSats, bind_eq_ok_iff, ensure_eq_ok_iff, hrounded, Except.ok.injEq]
  exact ⟨(), rfl, (), hnegative, (), hsmall, hsats⟩

/-- The exact share of a weight. -/
def share (total : Rat) (pool : Nat) (weight : Rat) : Rat :=
  weight / total * pool

/-- The share of a weight to the nearest satoshi. -/
def roundedShare (total : Rat) (pool : Nat) (weight : Rat) : Nat :=
  ⌊share total pool weight + 1 / 2⌋.toNat

section

variable {total weight : Rat} (pool : Nat)

theorem share_nonneg (htotal : 0 < total) (hweight : 0 ≤ weight) :
    0 ≤ share total pool weight :=
  mul_nonneg (div_nonneg hweight htotal.le) (Nat.cast_nonneg pool)

theorem roundedShare_cast (htotal : 0 < total) (hweight : 0 ≤ weight) :
    (roundedShare total pool weight : Rat) = (⌊share total pool weight + 1 / 2⌋ : ℤ) := by
  have hfloor : (0 : ℤ) ≤ ⌊share total pool weight + 1 / 2⌋ :=
    Int.floor_nonneg.mpr (by linarith [share_nonneg pool htotal hweight])
  exact_mod_cast congrArg (Int.cast : ℤ → Rat) (Int.toNat_of_nonneg hfloor)

theorem abs_roundedShare_sub_le (htotal : 0 < total) (hweight : 0 ≤ weight) :
    |(roundedShare total pool weight : Rat) - share total pool weight| ≤ 1 / 2 := by
  rw [roundedShare_cast pool htotal hweight]
  exact abs_floor_add_half_sub_le _

theorem roundedShare_le_double (htotal : 0 < total) (hweight : 0 ≤ weight) :
    (roundedShare total pool weight : Rat) ≤ 2 * share total pool weight := by
  have hnear := abs_le.mp (abs_roundedShare_sub_le pool htotal hweight)
  have hnonneg := share_nonneg pool htotal hweight
  rcases Nat.eq_zero_or_pos (roundedShare total pool weight) with hzero | hpos
  · rw [hzero, Nat.cast_zero]
    linarith
  · have hone : (1 : Rat) ≤ roundedShare total pool weight := by exact_mod_cast hpos
    linarith [hnear.2]

theorem roundedShare_zero (total : Rat) : roundedShare total pool 0 = 0 := by
  rw [roundedShare, share, zero_div, zero_mul]
  decide +kernel

end

/-- A weight that the allocation does not pass over by its smallness alone. -/
def Weighs (weight : Rat) : Prop :=
  weight = 0 ∨ epsilon ≤ weight

theorem epsilon_pos : (0 : Rat) < epsilon := by
  change (0 : Rat) < 1 / 2 ^ 52
  norm_num

theorem Weighs.nonneg {weight : Rat} (h : Weighs weight) : 0 ≤ weight := by
  rcases h with rfl | h
  · exact le_refl 0
  · exact epsilon_pos.le.trans h

/-- Participants with the amounts that they have been given. -/
abbrev Chosen (K : Type) := List ((K × Rat) × Nat)

def amountsOf (chosen : Chosen K) : List (K × Nat) :=
  chosen.map fun c => (c.1.1, c.2)

/-- The participants whose shares do not round to zero. -/
def firstPass (total : Rat) (pool : Nat) (participants : List (K × Rat)) : Chosen K :=
  (participants.filter fun p => 0 < roundedShare total pool p.2).map fun p =>
    (p, roundedShare total pool p.2)

/-- The participants whose shares do. -/
def leftOut (total : Rat) (pool : Nat) (participants : List (K × Rat)) : List (K × Rat) :=
  participants.filter fun p => !decide (0 < roundedShare total pool p.2)

def roundedTotal (total : Rat) (pool : Nat) (participants : List (K × Rat)) : Nat :=
  (participants.map fun p => roundedShare total pool p.2).sum

theorem firstPass_cons (total : Rat) (pool : Nat) (p : K × Rat) (ps : List (K × Rat)) :
    firstPass total pool (p :: ps) =
      (if 0 < roundedShare total pool p.2 then [(p, roundedShare total pool p.2)] else []) ++
        firstPass total pool ps := by
  unfold firstPass
  rw [List.filter_cons]
  by_cases hpos : 0 < roundedShare total pool p.2
  · rw [if_pos hpos, if_pos (decide_eq_true hpos)]
    rfl
  · rw [if_neg hpos, if_neg (by simpa using hpos)]
    rfl

theorem allocateStep_eq {total : Rat} {pool : Nat} {a : AllocationState K Rat} {p : K × Rat}
    (htotal : 0 < total) (hweight : Weighs p.2)
    (hfits : a.totalAllocated + roundedShare total pool p.2 ≤ amountMax) :
    allocateStep total pool a p =
      .ok ⟨a.allocations ++ amountsOf (firstPass total pool [p]),
        a.totalAllocated + roundedShare total pool p.2,
        if p.2 = 0 then a.fallback else betterFallback a.fallback p.1 p.2⟩ := by
  obtain ⟨key, weight⟩ := p
  rcases hweight with rfl | hweight
  · have hsmall : F64.lt (0 : Rat) epsilon = true := decide_eq_true epsilon_pos
    rw [allocateStep, if_pos hsmall, firstPass_cons, roundedShare_zero]
    simp [amountsOf, firstPass]
  · have hlarge : ¬ F64.lt weight epsilon = true := fun h =>
      absurd (of_decide_eq_true h) (not_lt.mpr hweight)
    have hpos : 0 < weight := epsilon_pos.trans_le hweight
    have hbound : ⌊share total pool weight + 1 / 2⌋ < 2 ^ 64 := by
      have hle := Int.self_le_toNat ⌊share total pool weight + 1 / 2⌋
      have hmax : roundedShare total pool weight ≤ amountMax :=
        (Nat.le_add_left _ _).trans hfits
      unfold roundedShare amountMax at hmax
      omega
    have hsats : toSats (F64.mul (F64.div weight total) (F64.ofNat pool)) .nearest =
        .ok (roundedShare total pool weight) :=
      toSats_nearest (share_nonneg pool htotal hpos.le) hbound
    rw [allocateStep, if_neg hlarge, if_neg hpos.ne', firstPass_cons]
    dsimp only
    rw [hsats, ok_bind]
    by_cases hzero : 0 < roundedShare total pool weight
    · rw [if_pos hzero, if_pos hzero, (checkedAdd_eq_some_iff.mpr ⟨hfits, rfl⟩)]
      rfl
    · have heq : roundedShare total pool weight = 0 := by omega
      rw [if_neg hzero, if_neg hzero, heq]
      simp [amountsOf, firstPass]

theorem betterFallback_isSome (fallback : Option (K × Rat)) (key : K) (weight : Rat) :
    ∃ p, betterFallback fallback key weight = some p ∧
      (p = (key, weight) ∨ fallback = some p) := by
  unfold betterFallback
  split
  · rename_i k best
    split
    · exact ⟨(k, best), rfl, .inr rfl⟩
    · exact ⟨(key, weight), rfl, .inl rfl⟩
  · exact ⟨(key, weight), rfl, .inl rfl⟩

/-- The first pass hands out every rounded share and remembers some participant. -/
theorem foldlM_allocateStep {total : Rat} (pool : Nat) {participants : List (K × Rat)}
    (htotal : 0 < total) (hweights : ∀ p ∈ participants, Weighs p.2)
    {a : AllocationState K Rat}
    (hfits : a.totalAllocated + roundedTotal total pool participants ≤ amountMax) :
    ∃ fallback, participants.foldlM (allocateStep total pool) a =
        .ok ⟨a.allocations ++ amountsOf (firstPass total pool participants),
          a.totalAllocated + roundedTotal total pool participants, fallback⟩ ∧
      ((∃ p ∈ participants, 0 < p.2) ∨ a.fallback.isSome →
        ∃ p, fallback = some p ∧ (p ∈ participants ∧ 0 < p.2 ∨ a.fallback = some p)) := by
  induction participants generalizing a with
  | nil =>
      refine ⟨a.fallback, ?_, ?_⟩
      · simp [firstPass, amountsOf, roundedTotal]
      · rintro (⟨_, hmem, -⟩ | hsome)
        · cases hmem
        · obtain ⟨p, hp⟩ := Option.isSome_iff_exists.mp hsome
          exact ⟨p, hp, .inr hp⟩
  | cons p ps ih =>
      rw [List.forall_mem_cons] at hweights
      rw [roundedTotal, List.map_cons, List.sum_cons, ← roundedTotal] at hfits
      have hfirst : a.totalAllocated + roundedShare total pool p.2 ≤ amountMax := by omega
      have hstep := allocateStep_eq htotal hweights.1 hfirst
      obtain ⟨fallback, hrest, hfallback⟩ := ih hweights.2
        (a := ⟨a.allocations ++ amountsOf (firstPass total pool [p]),
          a.totalAllocated + roundedShare total pool p.2,
          if p.2 = 0 then a.fallback else betterFallback a.fallback p.1 p.2⟩)
        (by dsimp only; omega)
      refine ⟨fallback, ?_, ?_⟩
      · rw [List.foldlM_cons, hstep, ok_bind, hrest, firstPass_cons, firstPass_cons,
          roundedTotal, roundedTotal, List.map_cons, List.sum_cons]
        simp [amountsOf, firstPass, Nat.add_assoc]
      · intro hsome
        dsimp only at hfallback
        by_cases hzero : p.2 = 0
        · rw [if_pos hzero] at hfallback
          obtain ⟨f, hf, hsource⟩ := hfallback (by
            rcases hsome with ⟨p', hp', hpos⟩ | hsome
            · rcases List.mem_cons.mp hp' with rfl | hp'
              · exact absurd hzero hpos.ne'
              · exact .inl ⟨p', hp', hpos⟩
            · exact .inr hsome)
          exact ⟨f, hf, hsource.imp_left fun h => ⟨List.mem_cons_of_mem _ h.1, h.2⟩⟩
        · rw [if_neg hzero] at hfallback
          obtain ⟨best, hbest, hwhich⟩ := betterFallback_isSome a.fallback p.1 p.2
          obtain ⟨f, hf, hsource⟩ := hfallback (.inr (by rw [hbest]; rfl))
          refine ⟨f, hf, ?_⟩
          rcases hsource with ⟨hmem, hpos⟩ | heq
          · exact .inl ⟨List.mem_cons_of_mem _ hmem, hpos⟩
          · rw [hbest] at heq
            obtain rfl := Option.some.inj heq
            rcases hwhich with rfl | hold
            · have hpos := lt_of_le_of_ne hweights.1.nonneg (Ne.symm hzero)
              exact .inl ⟨List.mem_cons_self, hpos⟩
            · exact .inr hold

theorem amountsOf_modify (chosen : Chosen K) (i remainder : Nat) :
    (amountsOf chosen).modify i (fun entry => (entry.1, entry.2 + remainder)) =
      amountsOf (chosen.modify i fun c => (c.1, c.2 + remainder)) := by
  unfold amountsOf
  apply List.ext_getElem
  · simp
  · intro j _ _
    simp only [List.getElem_modify, List.getElem_map]
    split <;> rfl

theorem fst_modify (chosen : Chosen K) (i remainder : Nat) :
    (chosen.modify i fun c => (c.1, c.2 + remainder)).map Prod.fst = chosen.map Prod.fst := by
  apply List.ext_getElem
  · simp
  · intro j _ _
    simp only [List.getElem_modify, List.getElem_map]
    split <;> rfl

theorem mem_modify {chosen : Chosen K} {i remainder : Nat} {c : (K × Rat) × Nat}
    (h : c ∈ chosen.modify i fun c => (c.1, c.2 + remainder)) :
    ∃ c' ∈ chosen, c = c' ∨ c = (c'.1, c'.2 + remainder) := by
  obtain ⟨j, hj, rfl⟩ := List.mem_iff_getElem.mp h
  have hlt : j < chosen.length := by simpa using hj
  refine ⟨chosen[j], List.getElem_mem hlt, ?_⟩
  rw [List.getElem_modify]
  split
  · exact .inr rfl
  · exact .inl rfl

theorem foldl_isSome {α β : Type} {step : Option β → α → Option β}
    (hstep : ∀ best x, (step best x).isSome) {xs : List α} (hxs : xs ≠ []) (best : Option β) :
    (xs.foldl step best).isSome := by
  induction xs generalizing best with
  | nil => exact absurd rfl hxs
  | cons x xs ih =>
      rw [List.foldl_cons]
      by_cases hnil : xs = []
      · rw [hnil]
        exact hstep best x
      · exact ih hnil _

theorem largestIndex_eq_none {allocations : List (K × Nat)}
    (h : largestIndex allocations = none) : allocations = [] := by
  by_contra hne
  have hsome : (largestIndex allocations).isSome := by
    unfold largestIndex
    rw [Option.isSome_map]
    refine foldl_isSome ?_ (by simpa using hne) none
    intro best entry
    split
    · rfl
    · split <;> rfl
  rw [h] at hsome
  cases hsome

theorem takeExcess_amountsOf (chosen : Chosen K) (remaining : Nat) :
    ∃ reduced : Chosen K,
      takeExcess (amountsOf chosen) remaining =
        (amountsOf reduced, remaining - allocated (amountsOf chosen)) ∧
      reduced.map Prod.fst = chosen.map Prod.fst ∧
      (∀ c ∈ reduced, ∃ c' ∈ chosen, c'.1 = c.1 ∧ c.2 ≤ c'.2 ∧ c'.2 ≤ c.2 + remaining) ∧
      allocated (amountsOf reduced) = allocated (amountsOf chosen) - remaining := by
  induction chosen generalizing remaining with
  | nil => exact ⟨[], by simp [amountsOf, takeExcess, allocated]⟩
  | cons c chosen ih =>
      obtain ⟨reduced, hrun, hfst, hnear, hsum⟩ := ih (remaining - min c.2 remaining)
      refine ⟨(c.1, c.2 - min c.2 remaining) :: reduced, ?_, ?_, ?_, ?_⟩
      · rw [amountsOf, List.map_cons, ← amountsOf, takeExcess]
        dsimp only
        rw [hrun]
        simp only [amountsOf, List.map_cons, allocated, List.sum_cons, Prod.mk.injEq, true_and]
        omega
      · rw [List.map_cons, List.map_cons, hfst]
      · rw [List.forall_mem_cons]
        constructor
        · exact ⟨c, List.mem_cons_self, rfl, Nat.sub_le _ _, by dsimp only; omega⟩
        · intro d hd
          obtain ⟨c', hc', hkey, hle, hge⟩ := hnear d hd
          exact ⟨c', List.mem_cons_of_mem _ hc', hkey, hle, by omega⟩
      · simp only [amountsOf, List.map_cons, allocated, List.sum_cons] at hsum ⊢
        omega

/-- Some participants of positive weight are given amounts and the others nothing, and none
is further from its exact share than half of one more than the participants. -/
def Splits (participants : List (K × Rat)) (pool : Nat) (allocations : List (K × Nat)) : Prop :=
  ∃ (chosen : Chosen K) (rest : List (K × Rat)),
    (chosen.map Prod.fst ++ rest).Perm participants ∧
    allocations = amountsOf chosen ∧
    (∀ c ∈ chosen, 0 < c.1.2 ∧
      |(c.2 : Rat) - share (participants.map Prod.snd).sum pool c.1.2| ≤
        (participants.length + 1) / 2) ∧
    ∀ p ∈ rest, |0 - share (participants.map Prod.snd).sum pool p.2| ≤
      (participants.length + 1) / 2

section

variable {participants : List (K × Rat)} (pool : Nat)

theorem sum_share {total : Rat} (htotal : (participants.map Prod.snd).sum = total)
    (hne : total ≠ 0) : (participants.map fun p => share total pool p.2).sum = pool := by
  have hscaled : (participants.map fun p => share total pool p.2).sum =
      (participants.map Prod.snd).sum * (pool / total) := by
    rw [← List.sum_map_mul_right]
    congr 1
    apply List.map_congr_left
    intro p _
    unfold share
    ring
  rw [hscaled, htotal]
  field_simp

theorem abs_roundedTotal_sub_le {total : Rat} (htotal : 0 < total)
    (hweights : ∀ p ∈ participants, Weighs p.2) :
    |(roundedTotal total pool participants : Rat) -
      (participants.map fun p => share total pool p.2).sum| ≤ participants.length / 2 := by
  induction participants with
  | nil => simp [roundedTotal]
  | cons p ps ih =>
      rw [List.forall_mem_cons] at hweights
      have hfirst := abs_le.mp (abs_roundedShare_sub_le pool htotal hweights.1.nonneg)
      have hrest := abs_le.mp (ih hweights.2)
      have hcast : (roundedTotal total pool (p :: ps) : Rat) =
          roundedShare total pool p.2 + roundedTotal total pool ps := by
        simp [roundedTotal]
      rw [hcast, List.map_cons, List.sum_cons, List.length_cons, Nat.cast_succ, abs_le]
      constructor
      · linarith [hfirst.1, hrest.1]
      · linarith [hfirst.2, hrest.2]

theorem roundedTotal_le_double {total : Rat} (htotal : 0 < total)
    (hweights : ∀ p ∈ participants, Weighs p.2) :
    (roundedTotal total pool participants : Rat) ≤
      2 * (participants.map fun p => share total pool p.2).sum := by
  induction participants with
  | nil => simp [roundedTotal]
  | cons p ps ih =>
      rw [List.forall_mem_cons] at hweights
      have hfirst := roundedShare_le_double pool htotal hweights.1.nonneg
      have hrest := ih hweights.2
      have hcast : (roundedTotal total pool (p :: ps) : Rat) =
          roundedShare total pool p.2 + roundedTotal total pool ps := by
        simp [roundedTotal]
      rw [hcast, List.map_cons, List.sum_cons]
      linarith

end

theorem mem_firstPass {total : Rat} {pool : Nat} {participants : List (K × Rat)}
    {c : (K × Rat) × Nat} (h : c ∈ firstPass total pool participants) :
    c.1 ∈ participants ∧ 0 < roundedShare total pool c.1.2 ∧
      c.2 = roundedShare total pool c.1.2 := by
  obtain ⟨p, hp, rfl⟩ := List.mem_map.mp h
  obtain ⟨hmem, hpos⟩ := List.mem_filter.mp hp
  exact ⟨hmem, of_decide_eq_true hpos, rfl⟩

theorem firstPass_perm (total : Rat) (pool : Nat) (participants : List (K × Rat)) :
    ((firstPass total pool participants).map Prod.fst ++
      leftOut total pool participants).Perm participants := by
  have hfst : (firstPass total pool participants).map Prod.fst =
      participants.filter fun p => 0 < roundedShare total pool p.2 := by
    rw [firstPass, List.map_map]
    exact List.map_id' _
  rw [hfst, leftOut]
  exact List.filter_append_perm _ _

theorem allocated_firstPass (total : Rat) (pool : Nat) (participants : List (K × Rat)) :
    allocated (amountsOf (firstPass total pool participants)) =
      roundedTotal total pool participants := by
  induction participants with
  | nil => rfl
  | cons p ps ih =>
      rw [roundedTotal, List.map_cons, List.sum_cons, ← roundedTotal, ← ih, firstPass_cons,
        amountsOf, List.map_append, allocated_append]
      congr 1
      split
      · exact Nat.add_zero _
      · exact (Nat.eq_zero_of_not_pos ‹_›).symm

section

variable {participants : List (K × Rat)} {pool : Nat} {total : Rat}

/-- Every participant is within half a satoshi of its share after the first pass, and the
total within half a satoshi for each of them. -/
structure Balanced (participants : List (K × Rat)) (pool : Nat) (total : Rat) : Prop where
  weights : ∀ p ∈ participants, Weighs p.2
  sum : (participants.map Prod.snd).sum = total
  positive : 0 < total

theorem Balanced.near (h : Balanced participants pool total) {p : K × Rat}
    (hp : p ∈ participants) :
    |(roundedShare total pool p.2 : Rat) - share total pool p.2| ≤ 1 / 2 :=
  abs_roundedShare_sub_le pool h.positive (h.weights p hp).nonneg

theorem Balanced.total_near (h : Balanced participants pool total) :
    |(roundedTotal total pool participants : Rat) - pool| ≤ participants.length / 2 := by
  have hnear := abs_roundedTotal_sub_le pool h.positive h.weights
  rwa [sum_share pool h.sum h.positive.ne'] at hnear

theorem Balanced.rest (h : Balanced participants pool total) {p : K × Rat}
    (hp : p ∈ leftOut total pool participants) :
    |0 - share total pool p.2| ≤ 1 / 2 := by
  obtain ⟨hmem, hzero⟩ := List.mem_filter.mp hp
  have hnone : roundedShare total pool p.2 = 0 := by simpa using hzero
  have hnear := h.near hmem
  rwa [hnone, Nat.cast_zero] at hnear

theorem Balanced.chosen (h : Balanced participants pool total) {c : (K × Rat) × Nat}
    (hc : c ∈ firstPass total pool participants) :
    0 < c.1.2 ∧ |(c.2 : Rat) - share total pool c.1.2| ≤ 1 / 2 := by
  obtain ⟨hmem, hpos, hamount⟩ := mem_firstPass hc
  rw [hamount]
  refine ⟨lt_of_le_of_ne (h.weights _ hmem).nonneg fun hzero => ?_, h.near hmem⟩
  rw [← hzero, roundedShare_zero] at hpos
  exact absurd hpos (Nat.lt_irrefl 0)

theorem half_le_length (participants : List (K × Rat)) :
    (1 / 2 : Rat) ≤ (participants.length + 1) / 2 := by
  have hlength : (0 : Rat) ≤ participants.length := Nat.cast_nonneg _
  linarith

theorem Balanced.splits_modify (h : Balanced participants pool total) (i : Nat)
    (hlt : roundedTotal total pool participants < pool) :
    Splits participants pool ((amountsOf (firstPass total pool participants)).modify i fun a =>
      (a.1, a.2 + (pool - roundedTotal total pool participants))) := by
  have hall := abs_le.mp h.total_near
  have hremainder : ((pool - roundedTotal total pool participants : Nat) : Rat) ≤
      participants.length / 2 := by
    rw [Nat.cast_sub hlt.le]
    linarith [hall.1]
  refine ⟨_, leftOut total pool participants, ?_, amountsOf_modify _ i _, ?_, ?_⟩
  · rw [fst_modify]
    exact firstPass_perm total pool participants
  · intro c hc
    rw [h.sum]
    obtain ⟨c', hc', rfl | rfl⟩ := mem_modify hc
    · obtain ⟨hpos, hnear⟩ := h.chosen hc'
      exact ⟨hpos, hnear.trans (half_le_length participants)⟩
    · obtain ⟨hpos, hnear⟩ := h.chosen hc'
      refine ⟨hpos, ?_⟩
      have hboth := abs_le.mp hnear
      have hnonneg := Nat.cast_nonneg (α := Rat)
        (pool - roundedTotal total pool participants)
      rw [Nat.cast_add, abs_le]
      constructor
      · linarith [hboth.1, half_le_length participants]
      · linarith [hboth.2]
  · intro p hp
    rw [h.sum]
    exact (h.rest hp).trans (half_le_length participants)

/-- All shares round to zero, and one participant gets the pool. -/
theorem Balanced.splits_of_firstPass_nil (h : Balanced participants pool total)
    {fallback : K × Rat} (hfallback : fallback ∈ participants ∧ 0 < fallback.2)
    (hempty : firstPass total pool participants = []) :
    Splits participants pool [(fallback.1, pool)] := by
  have hzero : roundedTotal total pool participants = 0 := by
    rw [← allocated_firstPass, hempty]
    rfl
  have htotal := abs_le.mp h.total_near
  rw [hzero, Nat.cast_zero] at htotal
  have hall : ∀ p ∈ participants, |0 - share total pool p.2| ≤ 1 / 2 := by
    intro p hp
    have hperm := firstPass_perm total pool participants
    rw [hempty, List.map_nil, List.nil_append] at hperm
    exact h.rest (hperm.mem_iff.mpr hp)
  obtain ⟨before, after, hsplit⟩ := List.append_of_mem hfallback.1
  refine ⟨[(fallback, pool)], before ++ after, ?_, rfl, ?_, ?_⟩
  · rw [hsplit]
    change (fallback :: (before ++ after)).Perm _
    exact List.perm_middle.symm
  · rw [List.forall_mem_singleton, h.sum]
    refine ⟨hfallback.2, ?_⟩
    have hboth := abs_le.mp (hall fallback hfallback.1)
    have hnonneg := Nat.cast_nonneg (α := Rat) pool
    rw [abs_le]
    constructor
    · linarith [hboth.1, half_le_length participants]
    · linarith [htotal.1, share_nonneg pool h.positive hfallback.2.le]
  · intro p hp
    rw [h.sum]
    refine (hall p ?_).trans (half_le_length participants)
    rw [hsplit]
    rcases List.mem_append.mp hp with hp | hp
    · exact List.mem_append_left _ hp
    · exact List.mem_append_right _ (List.mem_cons_of_mem _ hp)

theorem Balanced.splits_of_lt (h : Balanced participants pool total) {fallback : K × Rat}
    (hfallback : fallback ∈ participants ∧ 0 < fallback.2)
    (hlt : roundedTotal total pool participants < pool) :
    ∃ allocations, adjustRemainder pool ⟨amountsOf (firstPass total pool participants),
        roundedTotal total pool participants, some fallback⟩ = .ok ⟨allocations, pool⟩ ∧
      allocated allocations = pool ∧ Splits participants pool allocations := by
  have hpool : roundedTotal total pool participants +
      (pool - roundedTotal total pool participants) = pool := Nat.add_sub_cancel' hlt.le
  rw [adjustRemainder, if_pos hlt]
  dsimp only
  cases hlargest : largestIndex (amountsOf (firstPass total pool participants)) with
  | some i =>
      refine ⟨_, by rw [hpool], ?_, h.splits_modify i hlt⟩
      rw [allocated_modify (largestIndex_lt hlargest), allocated_firstPass, hpool]
  | none =>
      have hnil : amountsOf (firstPass total pool participants) = [] :=
        largestIndex_eq_none hlargest
      have hempty : firstPass total pool participants = [] := List.map_eq_nil_iff.mp hnil
      have hzero : roundedTotal total pool participants = 0 := by
        rw [← allocated_firstPass, hnil]
        rfl
      rw [hnil, hzero, Nat.zero_add, Nat.sub_zero]
      exact ⟨[(fallback.1, pool)], rfl, Nat.add_zero pool,
        h.splits_of_firstPass_nil hfallback hempty⟩

/-- The first pass hands out too much, and the excess is taken off the smallest amounts. -/
theorem Balanced.splits_of_gt (h : Balanced participants pool total)
    {fallback : Option (K × Rat)} (hlt : pool < roundedTotal total pool participants) :
    ∃ allocations, adjustRemainder pool ⟨amountsOf (firstPass total pool participants),
        roundedTotal total pool participants, fallback⟩ = .ok ⟨allocations, pool⟩ ∧
      allocated allocations = pool ∧ Splits participants pool allocations := by
  have hall := abs_le.mp h.total_near
  have hexcess : ((roundedTotal total pool participants - pool : Nat) : Rat) ≤
      participants.length / 2 := by
    rw [Nat.cast_sub hlt.le]
    linarith [hall.2]
  let sorted := (firstPass total pool participants).insertionSort fun x y => x.2 ≤ y.2
  have hperm : sorted.Perm (firstPass total pool participants) := List.perm_insertionSort _ _
  have hsorted : (amountsOf (firstPass total pool participants)).insertionSort
      (fun x y => x.2 ≤ y.2) = amountsOf sorted :=
    (List.map_insertionSort (fun x y : (K × Rat) × Nat => x.2 ≤ y.2)
      (fun x y : K × Nat => x.2 ≤ y.2) (fun c => (c.1.1, c.2)) _ fun _ _ _ _ => Iff.rfl).symm
  have htotal : allocated (amountsOf sorted) = roundedTotal total pool participants := by
    rw [← allocated_firstPass]
    exact ((hperm.map _).map _).sum_eq
  obtain ⟨reduced, hrun, hfst, hnear, hsum⟩ :=
    takeExcess_amountsOf sorted (roundedTotal total pool participants - pool)
  have hleft : roundedTotal total pool participants - pool - allocated (amountsOf sorted) = 0 := by
    omega
  have hreduced : allocated (amountsOf reduced) = pool := by omega
  refine ⟨amountsOf reduced, ?_, hreduced, reduced, leftOut total pool participants, ?_, rfl,
    ?_, ?_⟩
  · rw [adjustRemainder, if_neg (by dsimp only; omega), if_pos hlt]
    dsimp only
    rw [hsorted, hrun, hleft]
    change Except.ok (⟨amountsOf reduced, allocated (amountsOf reduced)⟩ :
      AllocationResultU64 K) = _
    rw [hreduced]
  · rw [hfst]
    exact ((hperm.map _).append_right _).trans (firstPass_perm total pool participants)
  · intro c hc
    obtain ⟨c', hc', hkey, hle, hge⟩ := hnear c hc
    obtain ⟨hpos, hclose⟩ := h.chosen (hperm.mem_iff.mp hc')
    rw [h.sum, ← hkey]
    refine ⟨hpos, ?_⟩
    have hboth := abs_le.mp hclose
    have hleRat : (c.2 : Rat) ≤ c'.2 := by exact_mod_cast hle
    have hgeRat : (c'.2 : Rat) ≤ c.2 + (roundedTotal total pool participants - pool : Nat) := by
      exact_mod_cast hge
    rw [abs_le]
    constructor
    · linarith [hboth.1]
    · linarith [hboth.2, half_le_length participants]
  · intro p hp
    rw [h.sum]
    exact (h.rest hp).trans (half_le_length participants)

theorem Balanced.splits (h : Balanced participants pool total) {fallback : K × Rat}
    (hfallback : fallback ∈ participants ∧ 0 < fallback.2) :
    ∃ allocations, adjustRemainder pool ⟨amountsOf (firstPass total pool participants),
        roundedTotal total pool participants, some fallback⟩ = .ok ⟨allocations, pool⟩ ∧
      allocated allocations = pool ∧ Splits participants pool allocations := by
  rcases Nat.lt_trichotomy (roundedTotal total pool participants) pool with hlt | heq | hgt
  · exact h.splits_of_lt hfallback hlt
  · refine ⟨amountsOf (firstPass total pool participants), ?_, ?_,
      firstPass total pool participants, leftOut total pool participants,
      firstPass_perm total pool participants, rfl, ?_, ?_⟩
    · rw [adjustRemainder, if_neg (by dsimp only; omega), if_neg (by dsimp only; omega), heq]
    · rw [allocated_firstPass, heq]
    · intro c hc
      rw [h.sum]
      obtain ⟨hpos, hclose⟩ := h.chosen hc
      exact ⟨hpos, hclose.trans (half_le_length participants)⟩
    · intro p hp
      rw [h.sum]
      exact (h.rest hp).trans (half_le_length participants)
  · exact h.splits_of_gt hgt

/-- An allocation splits the pool exactly, among participants of positive weight, and keeps
everybody close to the exact share. -/
theorem allocateProportionallyU64_exact
    (hweights : ∀ p ∈ participants, p.2 = 0 ∨ epsilon ≤ p.2)
    (hpositive : ∃ p ∈ participants, 0 < p.2) (hpool : 0 < pool) (hbound : pool < 2 ^ 63) :
    ∃ result, allocateProportionallyU64 participants pool = .ok result ∧
      allocated result.allocations = pool ∧ Splits participants pool result.allocations := by
  obtain ⟨heavy, hheavy, hheavyPos⟩ := hpositive
  have hnonneg : ∀ w ∈ participants.map Prod.snd, (0 : Rat) ≤ w := by
    intro w hw
    obtain ⟨p, hp, rfl⟩ := List.mem_map.mp hw
    exact Weighs.nonneg (hweights p hp)
  have htotal : 0 < (participants.map Prod.snd).sum :=
    hheavyPos.trans_le (List.single_le_sum hnonneg _ (List.mem_map_of_mem hheavy))
  have hbalanced : Balanced participants pool (participants.map Prod.snd).sum :=
    ⟨hweights, rfl, htotal⟩
  have hdouble := roundedTotal_le_double pool htotal hweights
  rw [sum_share pool rfl htotal.ne'] at hdouble
  have hfits : roundedTotal (participants.map Prod.snd).sum pool participants ≤ 2 * pool := by
    exact_mod_cast hdouble
  obtain ⟨fallback, hfold, hfallback⟩ := foldlM_allocateStep pool htotal hweights
    (a := ⟨[], 0, none⟩) (by unfold amountMax; dsimp only; omega)
  obtain ⟨f, rfl, hf⟩ := hfallback (.inl ⟨heavy, hheavy, hheavyPos⟩)
  have hmember : f ∈ participants ∧ 0 < f.2 := by
    rcases hf with hf | hf
    · exact hf
    · cases hf
  obtain ⟨allocations, hadjust, hsum, hsplits⟩ := hbalanced.splits hmember
  refine ⟨⟨allocations, pool⟩, ?_, hsum, hsplits⟩
  have hnonempty : ¬ (participants.isEmpty = true ∨ pool = 0) := by
    rintro (hempty | hzero)
    · rw [List.isEmpty_iff.mp hempty] at hheavy
      cases hheavy
    · exact hpool.ne' hzero
  have hlarge : ¬ F64.le (F64.sum (participants.map Prod.snd)) F64.zero = true := by
    rw [sum_eq]
    exact fun hle => absurd (of_decide_eq_true hle) (not_le.mpr htotal)
  rw [allocateProportionallyU64, if_neg hnonempty]
  dsimp only
  rw [if_neg hlarge, sum_eq, hfold, ok_bind]
  simp only [List.nil_append, Nat.zero_add, hadjust, ok_bind, ensure_pos]

end

/-- A hundred equal weights round a pool of fifty up twofold, and the excess is taken back. -/
theorem allocateProportionallyU64_exact_hundred :
    ∃ result, allocateProportionallyU64 ((List.range 100).map fun i => (i, (1 : Rat))) 50 =
        .ok result ∧
      allocated result.allocations = 50 ∧
      Splits ((List.range 100).map fun i => (i, (1 : Rat))) 50 result.allocations := by
  have hone : (epsilon : Rat) ≤ 1 := by
    change (1 / 2 ^ 52 : Rat) ≤ 1
    norm_num
  refine allocateProportionallyU64_exact ?_ ?_ (by decide) (by decide)
  · intro p hp
    obtain ⟨i, -, rfl⟩ := List.mem_map.mp hp
    exact .inr hone
  · exact ⟨(0, 1), List.mem_map.mpr ⟨0, by decide, rfl⟩, one_pos⟩

end Truthcoin.Trading
