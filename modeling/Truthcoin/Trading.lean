import Truthcoin.Arithmetic
import Truthcoin.Float64

/-!
# Trading and allocation arithmetic

Conversions from double-precision amounts to satoshis, the cost of a buy, the
proceeds of a sell, and the split of a pool in proportion to weights. The market
maker's cost function is a parameter of the market modules.
-/

namespace Truthcoin.Trading

open Truthcoin.Types Truthcoin.Fallible Truthcoin.Arithmetic

inductive SatoshiError where
  | nonFinite
  | negative
  | overflow
  | panic
  deriving DecidableEq, Repr

/-- An aborted call stays one; any other error becomes the caller's. -/
def SatoshiError.toError (reason : String) : SatoshiError → Error
  | .panic => .panic
  | _ => .invalidTransaction reason

inductive Rounding where
  | up
  | down
  | nearest
  deriving DecidableEq, Repr

def minTradingFeeSats : Nat := 1000
def tradeMinerFeeSats : Nat := 1000

structure BuyCost where
  baseCostSats : Nat
  tradingFeeSats : Nat
  totalCostSats : Nat
  deriving DecidableEq, Repr

structure SellProceeds where
  grossProceedsSats : Nat
  tradingFeeSats : Nat
  netProceedsSats : Nat
  deriving DecidableEq, Repr

section

variable {F : Type} [F64 F]

def roundWith (mode : Rounding) (value : F) : F :=
  match mode with
  | .up => F64.ceil value
  | .down => F64.floor value
  | .nearest => F64.round value

def toSats (value : F) (mode : Rounding) : Except SatoshiError Nat := do
  ensure (F64.isFinite value = true) .nonFinite
  ensure (F64.lt value F64.zero = false) .negative
  let rounded := roundWith mode value
  ensure (F64.le (F64.ofRat (2 ^ 64)) rounded = false) .overflow
  .ok (F64.toU64 rounded)

def calculateBuyCost (baseCost tradingFeePct : F) : Except SatoshiError BuyCost := do
  let baseCostSats ← toSats baseCost .up
  let calculatedFeeSats ← toSats (F64.mul baseCost tradingFeePct) .nearest
  let tradingFeeSats := max calculatedFeeSats minTradingFeeSats
  let totalCostSats ← okOr (checkedAdd baseCostSats tradingFeeSats) .panic
  .ok ⟨baseCostSats, tradingFeeSats, totalCostSats⟩

def calculateSellProceeds (grossProceeds tradingFeePct : F) :
    Except SatoshiError SellProceeds := do
  let grossProceedsSats ← toSats grossProceeds .down
  let calculatedFeeSats ← toSats (F64.mul grossProceeds tradingFeePct) .nearest
  let tradingFeeSats := max calculatedFeeSats minTradingFeeSats
  ensure (tradingFeeSats ≤ grossProceedsSats) .overflow
  .ok ⟨grossProceedsSats, tradingFeeSats, grossProceedsSats - tradingFeeSats⟩

/-- `beta = liquidity / ln(num_outcomes)`, or the default beta when the logarithm
is not positive. -/
def deriveBetaFromLiquidity (liquiditySats numOutcomes : Nat) : F :=
  if numOutcomes ≤ 1 then
    F64.ofRat 7
  else
    let lnOutcomes : F := F64.log (F64.ofNat numOutcomes)
    if F64.le lnOutcomes F64.zero then
      F64.ofRat 7
    else
      F64.div (F64.ofNat liquiditySats) lnOutcomes

def roundToPrecision (value : F) (decimals : Nat) : F :=
  if F64.isFinite value then
    let multiplier : F := F64.ofRat (10 ^ decimals)
    F64.div (F64.round (F64.mul value multiplier)) multiplier
  else
    value

end

section

variable {F : Type} [F64 F]

theorem calculateBuyCost_total {baseCost fee : F} {cost : BuyCost}
    (h : calculateBuyCost baseCost fee = .ok cost) :
    cost.totalCostSats = cost.baseCostSats + cost.tradingFeeSats := by
  simp only [calculateBuyCost, bind_eq_ok_iff, okOr_eq_ok_iff, Except.ok.injEq] at h
  obtain ⟨base, -, calculated, -, total, htotal, rfl⟩ := h
  exact (checkedAdd_eq_some_iff.mp htotal).2

theorem calculateSellProceeds_gross {gross fee : F} {proceeds : SellProceeds}
    (h : calculateSellProceeds gross fee = .ok proceeds) :
    proceeds.netProceedsSats + proceeds.tradingFeeSats = proceeds.grossProceedsSats := by
  simp only [calculateSellProceeds, bind_eq_ok_iff, ensure_eq_ok_iff,
    Except.ok.injEq] at h
  obtain ⟨grossSats, -, calculated, -, -, hle, rfl⟩ := h
  exact Nat.sub_add_cancel hle

end

/-- Accumulator of an allocation: the positive allocations in order, their sum,
and the first participant of greatest weight. -/
structure AllocationState (K F : Type) where
  allocations : List (K × Nat)
  totalAllocated : Nat
  fallback : Option (K × F)

section

variable {K F : Type} [F64 F]

def betterFallback (fallback : Option (K × F)) (key : K) (weight : F) : Option (K × F) :=
  match fallback with
  | some (k, best) => if F64.le weight best then some (k, best) else some (key, weight)
  | none => some (key, weight)

/-- `f64::EPSILON`. -/
def epsilon : F := F64.ofRat (1 / 2 ^ 52)

def allocateStep (totalWeight : F) (totalPool : Nat) (a : AllocationState K F)
    (participant : K × F) : Except SatoshiError (AllocationState K F) := do
  let (key, weight) := participant
  if F64.lt weight epsilon then
    .ok a
  else
    let fallback := betterFallback a.fallback key weight
    let proportion := F64.div weight totalWeight
    let allocationSats ← toSats (F64.mul proportion (F64.ofNat totalPool)) .nearest
    if allocationSats > 0 then
      let totalAllocated ← okOr (checkedAdd a.totalAllocated allocationSats) .panic
      .ok ⟨a.allocations ++ [(key, allocationSats)], totalAllocated, fallback⟩
    else
      .ok { a with fallback }

/-- Index of the last greatest amount, as `max_by_key` finds it. -/
def largestIndex (allocations : List (K × Nat)) : Option Nat :=
  let step (best : Option (Nat × Nat)) (entry : (K × Nat) × Nat) : Option (Nat × Nat) :=
    match best with
    | none => some (entry.2, entry.1.2)
    | some (i, amount) =>
        if amount ≤ entry.1.2 then some (entry.2, entry.1.2) else some (i, amount)
  (allocations.zipIdx.foldl step none).map Prod.fst

/-- Take `remaining` off the entries from the left; the second component is what
could not be taken. -/
def takeExcess : List (K × Nat) → Nat → List (K × Nat) × Nat
  | [], remaining => ([], remaining)
  | (key, amount) :: rest, remaining =>
      let take := min amount remaining
      let (rest', left) := takeExcess rest (remaining - take)
      ((key, amount - take) :: rest', left)

/-- Result of an allocation. -/
structure AllocationResultU64 (K : Type) where
  allocations : List (K × Nat)
  totalAllocated : Nat

/-- Settle the difference between the allocated total and the pool. -/
def adjustRemainder (totalPool : Nat) (a : AllocationState K F) :
    Except SatoshiError (AllocationResultU64 K) := do
  if a.totalAllocated < totalPool then
    let remainder := totalPool - a.totalAllocated
    match largestIndex a.allocations with
    | some i =>
        let allocations :=
          a.allocations.modify i fun entry => (entry.1, entry.2 + remainder)
        .ok ⟨allocations, a.totalAllocated + remainder⟩
    | none =>
        let (key, _) ← okOr a.fallback .overflow
        .ok ⟨a.allocations ++ [(key, remainder)], a.totalAllocated + remainder⟩
  else if totalPool < a.totalAllocated then
    let sorted := a.allocations.insertionSort fun x y => x.2 ≤ y.2
    let (allocations, remaining) := takeExcess sorted (a.totalAllocated - totalPool)
    ensure (remaining = 0) .overflow
    .ok ⟨allocations, (allocations.map Prod.snd).sum⟩
  else
    .ok ⟨a.allocations, a.totalAllocated⟩

/-- Split a pool in proportion to weights. Nothing is allocated when there is
nothing to split or nobody to split it among. -/
def allocateProportionallyU64 (participants : List (K × F)) (totalPool : Nat) :
    Except SatoshiError (AllocationResultU64 K) := do
  if participants.isEmpty ∨ totalPool = 0 then
    .ok ⟨[], 0⟩
  else
    let totalWeight := F64.sum (participants.map Prod.snd)
    if F64.le totalWeight F64.zero then
      .ok ⟨[], 0⟩
    else
      let a ← participants.foldlM (allocateStep totalWeight totalPool) ⟨[], 0, none⟩
      let result ← adjustRemainder totalPool a
      ensure (result.totalAllocated = totalPool) .overflow
      .ok result

/-- What a list of allocations hands out. -/
def allocated (allocations : List (K × Nat)) : Nat :=
  (allocations.map Prod.snd).sum

theorem allocated_append (xs ys : List (K × Nat)) :
    allocated (xs ++ ys) = allocated xs + allocated ys := by
  simp [allocated]

theorem allocated_modify {xs : List (K × Nat)} {i : Nat} (hi : i < xs.length)
    (remainder : Nat) :
    allocated (xs.modify i fun entry => (entry.1, entry.2 + remainder)) =
      allocated xs + remainder := by
  induction xs generalizing i with
  | nil => simp at hi
  | cons x xs ih =>
      cases i with
      | zero =>
          simp only [allocated, List.modify_zero_cons, List.map_cons, List.sum_cons]
          omega
      | succ i =>
          have hrest := ih (i := i) (by simpa using hi)
          simp only [allocated, List.modify_succ_cons, List.map_cons,
            List.sum_cons] at hrest ⊢
          omega

theorem allocateStep_allocated {totalWeight : F} {totalPool : Nat}
    {a a' : AllocationState K F} {participant : K × F}
    (h : allocateStep totalWeight totalPool a participant = .ok a')
    (ha : allocated a.allocations = a.totalAllocated) :
    allocated a'.allocations = a'.totalAllocated := by
  obtain ⟨key, weight⟩ := participant
  simp only [allocateStep] at h
  split at h
  · rw [← Except.ok.inj h]
    exact ha
  · obtain ⟨sats, -, h⟩ := bind_eq_ok_iff.mp h
    split at h
    · obtain ⟨total, htotal, h⟩ := bind_eq_ok_iff.mp h
      obtain ⟨-, rfl⟩ := checkedAdd_eq_some_iff.mp (okOr_eq_ok_iff.mp htotal)
      rw [← Except.ok.inj h, allocated_append, ha]
      simp [allocated]
    · rw [← Except.ok.inj h]
      exact ha

theorem foldl_largest_lt {xs : List ((K × Nat) × Nat)} {n : Nat}
    {step : Option (Nat × Nat) → (K × Nat) × Nat → Option (Nat × Nat)}
    (hstep : ∀ best entry r, step best entry = some r → r.1 = entry.2 ∨ best = some r)
    (hxs : ∀ entry ∈ xs, entry.2 < n) {best : Option (Nat × Nat)}
    (hbest : ∀ r, best = some r → r.1 < n) {r : Nat × Nat}
    (h : xs.foldl step best = some r) : r.1 < n := by
  induction xs generalizing best with
  | nil => exact hbest r h
  | cons entry xs ih =>
      refine ih (fun e he => hxs e (by simp [he])) ?_ h
      intro r' hr'
      rcases hstep best entry r' hr' with hentry | hold
      · rw [hentry]
        exact hxs entry (by simp)
      · exact hbest r' hold

theorem largestIndex_lt {allocations : List (K × Nat)} {i : Nat}
    (h : largestIndex allocations = some i) : i < allocations.length := by
  obtain ⟨r, hr, rfl⟩ := Option.map_eq_some_iff.mp h
  refine foldl_largest_lt ?_ ?_ (by simp) hr
  · intro best entry r hbest
    split at hbest
    · exact .inl (by rw [← Option.some.inj hbest])
    · split at hbest
      · exact .inl (by rw [← Option.some.inj hbest])
      · exact .inr hbest
  · rintro ⟨x, j⟩ hmem
    simpa using (List.mem_zipIdx hmem).2.1

omit [F64 F] in
theorem adjustRemainder_allocated {totalPool : Nat} {a : AllocationState K F}
    {result : AllocationResultU64 K} (h : adjustRemainder totalPool a = .ok result)
    (ha : allocated a.allocations = a.totalAllocated) :
    allocated result.allocations = result.totalAllocated := by
  unfold adjustRemainder at h
  split at h
  · split at h
    · rename_i i hi
      rw [← Except.ok.inj h, allocated_modify (largestIndex_lt hi), ha]
    · obtain ⟨⟨key, weight⟩, -, h⟩ := bind_eq_ok_iff.mp h
      rw [← Except.ok.inj h, allocated_append, ha]
      simp [allocated]
  · split at h
    · obtain ⟨-, -, h⟩ := bind_eq_ok_iff.mp h
      rw [← Except.ok.inj h]
      rfl
    · rw [← Except.ok.inj h]
      exact ha

theorem allocateProportionallyU64_le {participants : List (K × F)} {totalPool : Nat}
    {result : AllocationResultU64 K}
    (h : allocateProportionallyU64 participants totalPool = .ok result) :
    allocated result.allocations ≤ totalPool := by
  unfold allocateProportionallyU64 at h
  split at h
  · rw [← Except.ok.inj h]
    simp [allocated]
  · dsimp only at h
    split at h
    · rw [← Except.ok.inj h]
      simp [allocated]
    · obtain ⟨a, hfold, h⟩ := bind_eq_ok_iff.mp h
      obtain ⟨r, hadjust, h⟩ := bind_eq_ok_iff.mp h
      obtain ⟨_, htotal, h⟩ := bind_eq_ok_iff.mp h
      have hinv : allocated a.allocations = a.totalAllocated :=
        foldlM_preserves (fun p _ s s' hs hstep => allocateStep_allocated hstep hs)
          hfold rfl
      rw [← Except.ok.inj h, adjustRemainder_allocated hadjust hinv]
      exact (ensure_eq_ok_iff.mp htotal).le

end

end Truthcoin.Trading
