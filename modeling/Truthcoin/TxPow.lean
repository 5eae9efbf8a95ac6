import Truthcoin.Lehmer
import Truthcoin.Validation

/-!
# The order of the proof-of-work hashes

A market selects some hash functions for the proof of work of its trades, and a number that
puts them in order.
-/

namespace Truthcoin.TxPow

open Nat
open Truthcoin.Types Truthcoin.Fallible Truthcoin.Arithmetic Truthcoin.Blocks
open Truthcoin.Validation Truthcoin.Lehmer

inductive HashFunction where
  | sha256
  | sha512
  | sha3_256
  | sha3_512
  | sha512_256
  | sha384
  | blake3
  | shake256
  deriving DecidableEq, Repr

def allHashFunctions : List HashFunction :=
  [.sha256, .sha512, .sha3_256, .sha3_512, .sha512_256, .sha384, .blake3, .shake256]

section

variable {α : Type}

def usizeMax : Nat := 2 ^ 64 - 1

/-- `a * b` on `usize`. -/
def mulUsize (a b : Nat) : Except Error Nat :=
  if a * b ≤ usizeMax then .ok (a * b) else .error .panic

/-- `(1..=n).product()`. -/
def factorial (n : Nat) : Except Error Nat :=
  (List.range' 1 n).foldlM mulUsize 1

/-- `xs.remove(i)`: the item and the other ones. -/
def remove (xs : List α) (i : Nat) : Except Error (α × List α) := do
  let x ← index xs i
  .ok (x, xs.eraseIdx i)

/-- The last rounds of a permutation, as many as the first argument says. -/
def permutationRounds : Nat → List α → Nat → List α → Except Error (List α)
  | 0, _, _, result => .ok result
  | i + 1, available, permIndex, result => do
      let fact ← factorial i
      let (chosen, available) ← remove available (permIndex / fact)
      permutationRounds i available (permIndex % fact) (result ++ [chosen])

def applyLehmerPermutation (items : List α) (permIndex : Nat) : Except Error (List α) :=
  permutationRounds items.length items permIndex []

theorem factorial_eq_ok {n : Nat} (hn : n ! ≤ usizeMax) : factorial n = .ok (n !) := by
  induction n with
  | zero => rfl
  | succ n ih =>
      have hle : n ! ≤ usizeMax := (factorial_le (Nat.le_succ n)).trans hn
      have hproduct : n ! * (1 + n) = (n + 1)! := by
        rw [factorial_succ, add_comm 1 n, mul_comm]
      unfold factorial at ih ⊢
      rw [List.range'_1_concat, List.foldlM_append, ih hle, ok_bind, List.foldlM_cons,
        mulUsize, hproduct, if_pos hn]
      rfl

theorem permutationRounds_eq_ok {n k : Nat} {available : List α} (hn : n ! ≤ usizeMax)
    (hlength : available.length = n) (hk : k < n !) (result : List α) :
    permutationRounds n available k result = .ok (result ++ permute n available k) := by
  induction n generalizing available k result with
  | zero => rw [permutationRounds, permute, List.append_nil]
  | succ n ih =>
      have hle : n ! ≤ usizeMax := (factorial_le (Nat.le_succ n)).trans hn
      obtain ⟨x, hx, hpermute⟩ := permute_succ hlength hk
      have hremove : remove available (k / n !) = .ok (x, available.eraseIdx (k / n !)) := by
        rw [remove, index, hx]
        rfl
      rw [permutationRounds, factorial_eq_ok hle, ok_bind, hremove, ok_bind]
      dsimp only
      rw [ih hle (length_eraseIdx_succ hlength (div_factorial_lt hk))
          (Nat.mod_lt k (factorial_pos n)), hpermute, List.append_assoc, List.singleton_append]

theorem applyLehmerPermutation_eq_ok {items : List α} (hfits : items.length ! ≤ usizeMax)
    {k : Nat} (hk : k < items.length !) :
    applyLehmerPermutation items k = .ok (permute items.length items k) := by
  rw [applyLehmerPermutation, permutationRounds_eq_ok hfits rfl hk, List.nil_append]

/-- As long as the number of permutations fits, every number below it gives a permutation,
and different numbers give different ones. -/
theorem applyLehmerPermutation_permutes (items : List α) (hnodup : items.Nodup)
    (hfits : items.length ! ≤ usizeMax) :
    (∀ k < items.length !, ∃ ordered, applyLehmerPermutation items k = .ok ordered ∧
      ordered.Perm items) ∧
    ∀ k < items.length !, ∀ k' < items.length !, k ≠ k' →
      applyLehmerPermutation items k ≠ applyLehmerPermutation items k' := by
  constructor
  · intro k hk
    exact ⟨_, applyLehmerPermutation_eq_ok hfits hk, permute_perm rfl hk⟩
  · intro k hk k' hk' hne heq
    rw [applyLehmerPermutation_eq_ok hfits hk, applyLehmerPermutation_eq_ok hfits hk'] at heq
    exact hne (permute_injective rfl hnodup hk hk' (Except.ok.inj heq))

theorem applyLehmerPermutation_permutes_three :
    applyLehmerPermutation [HashFunction.sha256, .sha512, .sha3_256] 3 =
        .ok [.sha512, .sha3_256, .sha256] ∧
      (∀ k < 6, ∃ ordered,
        applyLehmerPermutation [HashFunction.sha256, .sha512, .sha3_256] k = .ok ordered ∧
          ordered.Perm [.sha256, .sha512, .sha3_256]) ∧
      ∀ k < 6, ∀ k' < 6, k ≠ k' →
        applyLehmerPermutation [HashFunction.sha256, .sha512, .sha3_256] k ≠
          applyLehmerPermutation [.sha256, .sha512, .sha3_256] k' :=
  ⟨by decide, applyLehmerPermutation_permutes
    [HashFunction.sha256, .sha512, .sha3_256] (by decide) (by decide)⟩

end

structure TxPowConfig where
  hashSelector : Nat
  ordering : Nat

namespace TxPowConfig

def selectedFunctions (config : TxPowConfig) : List HashFunction :=
  (allHashFunctions.zipIdx.filter fun entry => config.hashSelector.testBit entry.2).map Prod.fst

def orderedFunctions (config : TxPowConfig) : Except Error (List HashFunction) :=
  let selected := config.selectedFunctions
  let n := selected.length
  if n ≤ 1 then .ok selected
  else do
    let fact ← factorial n
    applyLehmerPermutation selected (config.ordering % fact)

/-- The hash functions are those of the machine; each takes what the one before it returns. -/
def computeHash (hash : HashFunction → List UInt8 → List UInt8) (config : TxPowConfig)
    (data : List UInt8) : Except Error (List UInt8) := do
  match ← config.orderedFunctions with
  | [] => .ok (List.replicate 32 0)
  | first :: rest => .ok (rest.foldl (fun current function => hash function current)
      (hash first data))

variable {config : TxPowConfig}

theorem selectedFunctions_sublist (config : TxPowConfig) :
    config.selectedFunctions.Sublist allHashFunctions := by
  have hall : allHashFunctions.zipIdx.map Prod.fst = allHashFunctions := List.zipIdx_map_fst ..
  conv_rhs => rw [← hall]
  exact List.filter_sublist.map _

theorem selectedFunctions_nodup (config : TxPowConfig) : config.selectedFunctions.Nodup :=
  config.selectedFunctions_sublist.nodup (by decide)

theorem selectedFunctions_fits (config : TxPowConfig) :
    config.selectedFunctions.length ! ≤ usizeMax :=
  calc config.selectedFunctions.length ! ≤ 8 ! :=
        factorial_le config.selectedFunctions_sublist.length_le
    _ ≤ usizeMax := by decide

theorem orderedFunctions_eq_ok (config : TxPowConfig) :
    config.orderedFunctions = .ok (permute config.selectedFunctions.length
      config.selectedFunctions
      (config.ordering % config.selectedFunctions.length !)) := by
  have hfits := config.selectedFunctions_fits
  have hlt := Nat.mod_lt config.ordering (factorial_pos config.selectedFunctions.length)
  rw [orderedFunctions]
  split
  · rename_i hle
    -- a list of at most one function is its only permutation
    have hperm := permute_perm rfl hlt
    refine congrArg Except.ok ?_
    symm
    cases hselected : config.selectedFunctions with
    | nil => rfl
    | cons first rest =>
        have hrest : rest = [] := by
          rw [hselected, List.length_cons] at hle
          exact List.eq_nil_of_length_eq_zero (by omega)
        rw [hselected, hrest] at hperm
        rw [hrest]
        exact List.perm_singleton.mp hperm
  · rw [factorial_eq_ok hfits, ok_bind, applyLehmerPermutation_eq_ok hfits hlt]

theorem orderedFunctions_perm (config : TxPowConfig) :
    ∃ functions, config.orderedFunctions = .ok functions ∧
      functions.Perm config.selectedFunctions :=
  ⟨_, config.orderedFunctions_eq_ok,
    permute_perm rfl (Nat.mod_lt _ (factorial_pos _))⟩

theorem orderedFunctions_eq_iff {selector ordering ordering' : Nat} :
    orderedFunctions ⟨selector, ordering⟩ = orderedFunctions ⟨selector, ordering'⟩ ↔
      ordering % (selectedFunctions ⟨selector, ordering⟩).length ! =
        ordering' % (selectedFunctions ⟨selector, ordering⟩).length ! := by
  rw [orderedFunctions_eq_ok, orderedFunctions_eq_ok]
  constructor
  · intro h
    exact permute_injective rfl (selectedFunctions_nodup _) (Nat.mod_lt _ (factorial_pos _))
      (Nat.mod_lt _ (factorial_pos _)) (Except.ok.inj h)
  · intro h
    rw [h]
    rfl

theorem exists_ordering {selector : Nat} {functions : List HashFunction}
    (h : functions.Perm (selectedFunctions ⟨selector, 0⟩)) (hfew : functions.length ≤ 5) :
    ∃ ordering < 2 ^ 8, orderedFunctions ⟨selector, ordering⟩ = .ok functions := by
  obtain ⟨k, hk, rfl⟩ := exists_permute rfl h
  rw [h.length_eq] at hfew
  refine ⟨k, ?_, ?_⟩
  · calc k < (selectedFunctions ⟨selector, 0⟩).length ! := hk
      _ ≤ 5 ! := factorial_le hfew
      _ ≤ 2 ^ 8 := by decide
  · rw [orderedFunctions_eq_ok]
    have hmod : k % (selectedFunctions ⟨selector, k⟩).length ! = k := Nat.mod_eq_of_lt hk
    rw [hmod]
    rfl

theorem computeHash_eq_ok (hash : HashFunction → List UInt8 → List UInt8) (data : List UInt8)
    (hselected : config.selectedFunctions ≠ []) :
    ∃ functions : List HashFunction, functions.Perm config.selectedFunctions ∧
      config.computeHash hash data =
        .ok (functions.foldl (fun current function => hash function current) data) := by
  obtain ⟨functions, hfunctions, hperm⟩ := config.orderedFunctions_perm
  refine ⟨functions, hperm, ?_⟩
  rw [computeHash, hfunctions, ok_bind]
  cases functions with
  | nil => exact absurd (List.nil_perm.mp hperm) hselected
  | cons first rest => rfl

theorem selectedFunctions_ne_nil (hselector : config.hashSelector ≠ 0)
    (hbyte : config.hashSelector < 2 ^ 8) : config.selectedFunctions ≠ [] := by
  obtain ⟨bit, hbit⟩ := Nat.exists_testBit_of_ne_zero hselector
  have hlt : bit < allHashFunctions.length := by
    by_contra hge
    have hhigh : 2 ^ 8 ≤ 2 ^ bit := Nat.pow_le_pow_right (by decide) (not_lt.mp hge)
    rw [Nat.testBit_lt_two_pow (hbyte.trans_le hhigh)] at hbit
    cases hbit
  have hentry : (allHashFunctions[bit], bit) ∈ allHashFunctions.zipIdx :=
    List.mem_zipIdx_iff_getElem?.mpr (List.getElem?_eq_getElem hlt)
  exact List.ne_nil_of_mem (List.mem_map_of_mem (List.mem_filter.mpr ⟨hentry, hbit⟩))

theorem computeHash_of_validateTxPowConfig {F : Type} {creation : MarketCreation F}
    (hvalid : validateTxPowConfig creation = .ok ())
    (hdifficulty : 0 < creation.txPowDifficulty.getD 0)
    (hselector : config.hashSelector = creation.txPowHashSelector.getD 0)
    (hbyte : config.hashSelector < 2 ^ 8)
    (hash : HashFunction → List UInt8 → List UInt8) (data : List UInt8) :
    ∃ functions : List HashFunction, functions ≠ [] ∧
      functions.Perm config.selectedFunctions ∧
      config.computeHash hash data =
        .ok (functions.foldl (fun current function => hash function current) data) := by
  have hne : config.hashSelector ≠ 0 := by
    unfold validateTxPowConfig at hvalid
    rw [hselector]
    cases hfound : creation.txPowDifficulty with
    | none =>
        rw [hfound] at hdifficulty
        exact absurd hdifficulty (lt_irrefl 0)
    | some difficulty =>
        rw [hfound] at hvalid hdifficulty
        rcases ensure_eq_ok_iff.mp hvalid with hzero | ⟨-, hselector⟩
        · rw [hzero] at hdifficulty
          exact absurd hdifficulty (lt_irrefl 0)
        · exact hselector
  have hselected := selectedFunctions_ne_nil hne hbyte
  obtain ⟨functions, hperm, hcompute⟩ := computeHash_eq_ok hash data hselected
  refine ⟨functions, ?_, hperm, hcompute⟩
  rintro rfl
  exact hselected (List.nil_perm.mp hperm)

end TxPowConfig

end Truthcoin.TxPow
