import Truthcoin.Arithmetic
import Truthcoin.MerkleRoot

/-!
# Totals of the coinbase

The tree over the coinbase outputs adds up their values with an operator that panics
when it overflows, and prevalidation builds it before its own checked sum: a body whose
coinbase outputs are worth more than an amount can hold aborts the call.
-/

namespace Truthcoin.CoinbaseTotals

open Truthcoin.Types Truthcoin.Fallible Truthcoin.Decisions Truthcoin.Blocks
open Truthcoin.Validation Truthcoin.Arithmetic Truthcoin.MerkleTrees Truthcoin.MerkleRoot
open Truthcoin.Commitments

/-- How prevalidation ends early; `panic` is a panic of the merge of two nodes. -/
inductive Failure where
  | error (e : Error)
  | panic

section

variable {F : Type} (H : Hashing F)

/-- The parent of two nodes, as far as its assertion holds and its value fits. -/
def mergeChecked (lnode rnode : CoinbaseCbmtNode) : Option CoinbaseCbmtNode :=
  if lnode.index + 1 = rnode.index then
    (checkedAdd lnode.value rnode.value).map fun value =>
      let canonicalSize := lnode.canonicalSize + rnode.canonicalSize
      ⟨H.hash (.coinbaseNode lnode.commitment value canonicalSize rnode.commitment), value,
        canonicalSize, (lnode.index - 1) / 2⟩
  else none

def computeOutputsMerkleRootChecked (outputs : List Output) : Option Nat :=
  (H.buildMerkleRoot (mergeChecked H) (coinbaseLeaves H outputs)).map CoinbaseCbmtNode.commitment

def coinbaseMerkleRootChecked (coinbase : Coinbase) : Option Nat := do
  let outputsCommitment ← computeOutputsMerkleRootChecked H coinbase.outputs
  some (H.hash (.coinbase coinbase.memo outputsCommitment))

def computeMerkleRootChecked (coinbase : Coinbase) (txs : List (Transaction F)) :
    Option MerkleRoot := do
  let coinbaseHash ← coinbaseMerkleRootChecked H coinbase
  some ((treeRoot (pairHash H) (coinbaseHash :: txs.map (txidHash H))).getD 0)

section

variable [F64 F] (L : Library F) (config : DecisionConfig)

/-- The checks of prevalidation that follow the Merkle root. -/
def prevalidateRest (archive : Archive) (s : State F) (header : Header) (body : Body F)
    (merkleRoot : MerkleRoot) : Except Error (PrevalidatedBlock F) := do
  ensure (merkleRoot = header.merkleRoot) (.invalidBody header.merkleRoot merkleRoot)
  let nextHeight ← s.height.elim (.ok 0) fun height => addU32 height 1
  let coinbaseValue ← okOr (checkedSum (body.coinbase.outputs.map Output.getBitcoinValue))
    .amountOverflow
  let filledTxs ← fillTransactions L s body
  ensure (body.transactions.flatMap Transaction.inputs).Nodup .utxoDoubleSpent
  checkDuplicateDecisionClaims body.transactions
  filledTxs.forM fun tx => do
    let _ ← validateFilledTransaction L config archive s tx (some nextHeight)
    .ok ()
  validateAuthorizations L body filledTxs
  .ok ⟨filledTxs, merkleRoot, coinbaseValue, nextHeight⟩

/-- Prevalidation of a block, with the Merkle root computed as the node computes it. -/
def prevalidateChecked (archive : Archive) (s : State F) (header : Header) (body : Body F) :
    Except Failure (PrevalidatedBlock F) := do
  let bodySize ← (okOr (L.bodySize body) (.databaseError "Failed to serialize body")).mapError
    Failure.error
  (ensure (bodySize ≤ maxBodySize) Error.bodyTooLarge).mapError Failure.error
  (ensure (header.prevSideHash = s.tip)
    (Error.invalidHeaderPrevSideHash s.tip header.prevSideHash)).mapError Failure.error
  let merkleRoot ← okOr (computeMerkleRootChecked H body.coinbase body.transactions)
    Failure.panic
  (prevalidateRest (hashedLibrary H L) config archive s header body merkleRoot).mapError
    Failure.error

end

end

section

variable {F : Type} {H : Hashing F}

theorem mergeChecked_eq_some_iff {l r node : CoinbaseCbmtNode} :
    mergeChecked H l r = some node ↔
      l.index + 1 = r.index ∧ (merge H l r).value ≤ amountMax ∧ node = merge H l r := by
  have hvalue : (merge H l r).value = l.value + r.value := rfl
  rw [mergeChecked, hvalue]
  by_cases hindex : l.index + 1 = r.index
  · rw [if_pos hindex, Option.map_eq_some_iff]
    simp only [checkedAdd_eq_some_iff]
    constructor
    · rintro ⟨value, ⟨hle, rfl⟩, rfl⟩
      exact ⟨hindex, hle, rfl⟩
    · rintro ⟨-, hle, rfl⟩
      exact ⟨_, ⟨hle, rfl⟩, rfl⟩
  · rw [if_neg hindex]
    simp [hindex]

theorem heapNodeChecked_leaf {leaf : Nat → CoinbaseCbmtNode} {n i : Nat} (h : n ≤ i + 1) :
    heapNodeChecked (mergeChecked H) leaf n i = some (leaf (i + 1 - n)) := by
  rw [heapNodeChecked, if_pos h]

theorem heapNodeChecked_branch_iff {leaf : Nat → CoinbaseCbmtNode} {n i : Nat} (h : i + 1 < n)
    {node : CoinbaseCbmtNode} :
    heapNodeChecked (mergeChecked H) leaf n i = some node ↔
      ∃ l, heapNodeChecked (mergeChecked H) leaf n (2 * i + 1) = some l ∧
        ∃ r, heapNodeChecked (mergeChecked H) leaf n (2 * i + 2) = some r ∧
          mergeChecked H l r = some node := by
  rw [heapNodeChecked, if_neg (by omega)]
  simp only [Option.bind_eq_bind, Option.bind_eq_some_iff]

/-- The leaves of the tree over some outputs. -/
def leafAt (H : Hashing F) (outputs : List Output) (k : Nat) : CoinbaseCbmtNode :=
  (coinbaseLeaves H outputs).getD k .default

theorem heapNode_of_heapNodeChecked {outputs : List Output} {i : Nat} {node : CoinbaseCbmtNode}
    (h : heapNodeChecked (mergeChecked H) (leafAt H outputs) outputs.length i = some node) :
    node = heapNode (merge H) (leafAt H outputs) outputs.length i ∧
      (i + 1 < outputs.length → node.value ≤ amountMax) := by
  induction hn : outputs.length - i using Nat.strong_induction_on generalizing i node with
  | _ n ih =>
      subst hn
      by_cases hbranch : i + 1 < outputs.length
      · obtain ⟨l, hl, r, hr, hmerge⟩ := (heapNodeChecked_branch_iff hbranch).mp h
        obtain ⟨-, hfits, rfl⟩ := mergeChecked_eq_some_iff.mp hmerge
        have hleft := (ih (outputs.length - (2 * i + 1)) (by omega) hl rfl).1
        have hright := (ih (outputs.length - (2 * i + 2)) (by omega) hr rfl).1
        refine ⟨?_, fun _ => hfits⟩
        rw [heapNode_branch hbranch, hleft, hright]
      · rw [heapNodeChecked_leaf (by omega), Option.some.injEq] at h
        exact ⟨by rw [heapNode_leaf (by omega), h], fun hlt => absurd hlt hbranch⟩

/-- A place whose value fits is built: the values below it are no larger. -/
theorem heapNodeChecked_of_fits {outputs : List Output} {i : Nat}
    (hi : i < 2 * outputs.length - 1)
    (hfits : i + 1 < outputs.length →
      (heapNode (merge H) (leafAt H outputs) outputs.length i).value ≤ amountMax) :
    heapNodeChecked (mergeChecked H) (leafAt H outputs) outputs.length i =
      some (heapNode (merge H) (leafAt H outputs) outputs.length i) := by
  induction hn : outputs.length - i using Nat.strong_induction_on generalizing i with
  | _ n ih =>
      subst hn
      by_cases hbranch : i + 1 < outputs.length
      · have hvalue : (heapNode (merge H) (leafAt H outputs) outputs.length (2 * i + 1)).value +
            (heapNode (merge H) (leafAt H outputs) outputs.length (2 * i + 2)).value ≤
              amountMax := by
          have hle := hfits hbranch
          rw [heapNode_branch hbranch] at hle
          exact hle
        have hindex : (heapNode (merge H) (leafAt H outputs) outputs.length (2 * i + 1)).index + 1 =
            (heapNode (merge H) (leafAt H outputs) outputs.length (2 * i + 2)).index := by
          have hleft : (heapNode (merge H) (leafAt H outputs) outputs.length (2 * i + 1)).index =
              _ := index_heapNode (2 * i + 1) (by omega)
          have hright : (heapNode (merge H) (leafAt H outputs) outputs.length (2 * i + 2)).index =
              _ := index_heapNode (2 * i + 2) (by omega)
          exact (congrArg (· + 1) hleft).trans hright.symm
        have hleft := ih (outputs.length - (2 * i + 1)) (by omega) (i := 2 * i + 1) (by omega)
          (fun _ => (Nat.le_add_right _ _).trans hvalue) rfl
        have hright := ih (outputs.length - (2 * i + 2)) (by omega) (i := 2 * i + 2) (by omega)
          (fun _ => (Nat.le_add_left _ _).trans hvalue) rfl
        refine (heapNodeChecked_branch_iff hbranch).mpr ⟨_, hleft, _, hright, ?_⟩
        rw [mergeChecked_eq_some_iff, heapNode_branch hbranch]
        exact ⟨hindex, hvalue, rfl⟩
      · rw [heapNodeChecked_leaf (by omega), heapNode_leaf (by omega)]

theorem value_root {outputs : List Output} (hpos : 0 < outputs.length) :
    (heapNode (merge H) (leafAt H outputs) outputs.length 0).value =
      (outputs.map Output.getBitcoinValue).sum := by
  have hleaf : ∀ k (hk : k < outputs.length),
      (leafAt H outputs k).value = outputs[k].getBitcoinValue := by
    intro k hk
    simp only [leafAt, coinbaseLeaves, List.getD_eq_getElem?_getD, List.getElem?_map,
      List.getElem?_zipIdx, List.getElem?_eq_getElem hk, Option.map_some, Option.getD_some]
  calc (heapNode (merge H) (leafAt H outputs) outputs.length 0).value
      = ∑ k ∈ Finset.range outputs.length, (leafAt H outputs k).value :=
        sum_heapNode (f := CoinbaseCbmtNode.value) (fun _ _ => rfl) hpos
    _ = ∑ k : Fin outputs.length, (leafAt H outputs k).value :=
        (Fin.sum_univ_eq_sum_range (fun k => (leafAt H outputs k).value) _).symm
    _ = ∑ k : Fin outputs.length, outputs[k].getBitcoinValue :=
        Finset.sum_congr rfl fun k _ => hleaf k k.isLt
    _ = (outputs.map Output.getBitcoinValue).sum := Fin.sum_univ_fun_getElem _ _

/-- The tree over the outputs is built unless it has a branch and their values
add up to more than an amount holds. -/
theorem computeOutputsMerkleRootChecked_eq (hcbmt : H.CompleteTree) (outputs : List Output) :
    computeOutputsMerkleRootChecked H outputs =
      if 1 < outputs.length ∧ amountMax < (outputs.map Output.getBitcoinValue).sum then none
      else some (computeOutputsMerkleRoot H outputs) := by
  rcases Nat.eq_zero_or_pos outputs.length with hempty | hpos
  · rw [List.length_eq_zero_iff.mp hempty, computeOutputsMerkleRootChecked,
      computeOutputsMerkleRoot_nil hcbmt, hcbmt]
    rfl
  · have hroot : computeOutputsMerkleRootChecked H outputs =
        (heapNodeChecked (mergeChecked H) (leafAt H outputs) outputs.length 0).map
          CoinbaseCbmtNode.commitment := by
      rw [computeOutputsMerkleRootChecked, hcbmt, completeRoot, isEmpty_coinbaseLeaves hpos,
        if_neg (by decide), length_coinbaseLeaves]
      rfl
    rw [hroot]
    split
    · rename_i hover
      rw [Option.map_eq_none_iff, Option.eq_none_iff_forall_ne_some]
      intro node hnode
      obtain ⟨rfl, hfits⟩ := heapNode_of_heapNodeChecked hnode
      have hle := hfits hover.1
      rw [value_root hpos] at hle
      exact absurd hover.2 (Nat.not_lt.mpr hle)
    · rename_i hover
      have hfits : 0 + 1 < outputs.length →
          (heapNode (merge H) (leafAt H outputs) outputs.length 0).value ≤ amountMax := by
        intro hbranch
        rw [value_root hpos]
        exact Nat.not_lt.mp fun hlt => hover ⟨hbranch, hlt⟩
      rw [heapNodeChecked_of_fits (by omega) hfits, Option.map_some,
        computeOutputsMerkleRoot_of_pos hcbmt hpos]
      rfl

theorem computeMerkleRootChecked_eq (hcbmt : H.CompleteTree) (coinbase : Coinbase)
    (txs : List (Transaction F)) :
    computeMerkleRootChecked H coinbase txs =
      if 1 < coinbase.outputs.length ∧
          amountMax < (coinbase.outputs.map Output.getBitcoinValue).sum then none
      else some (computeMerkleRoot H coinbase txs) := by
  rw [computeMerkleRootChecked, coinbaseMerkleRootChecked,
    computeOutputsMerkleRootChecked_eq hcbmt]
  split <;> rfl

section

variable [F64 F] {L : Library F} {config : DecisionConfig} {archive : Archive} {s : State F}
  {header : Header} {body : Body F}

theorem prevalidateChecked_of_root
    (h : computeMerkleRootChecked H body.coinbase body.transactions =
      some (computeMerkleRoot H body.coinbase body.transactions)) :
    prevalidateChecked H L config archive s header body =
      (prevalidate (hashedLibrary H L) config archive s header body).mapError Failure.error := by
  have hrest : prevalidate (hashedLibrary H L) config archive s header body = (do
      let bodySize ← okOr (L.bodySize body) (.databaseError "Failed to serialize body")
      ensure (bodySize ≤ maxBodySize) .bodyTooLarge
      ensure (header.prevSideHash = s.tip)
        (.invalidHeaderPrevSideHash s.tip header.prevSideHash)
      prevalidateRest (hashedLibrary H L) config archive s header body
        (computeMerkleRoot H body.coinbase body.transactions)) := rfl
  rw [hrest, prevalidateChecked, h]
  rcases hsize : L.bodySize body with _ | size
  · rfl
  · by_cases hbound : size ≤ maxBodySize
    · by_cases htip : header.prevSideHash = s.tip
      · simp only [ensure, if_pos hbound, if_pos htip, okOr_some, Except.mapError, ok_bind]
      · simp only [ensure, if_pos hbound, if_neg htip, okOr_some, Except.mapError, ok_bind,
          error_bind]
    · simp only [ensure, if_neg hbound, okOr_some, Except.mapError, ok_bind, error_bind]

theorem prevalidateChecked_of_overflow (hcbmt : H.CompleteTree) {size : Nat}
    (hsize : L.bodySize body = some size) (hbound : size ≤ maxBodySize)
    (htip : header.prevSideHash = s.tip)
    (hbranch : 1 < body.coinbase.outputs.length)
    (hover : amountMax < (body.coinbase.outputs.map Output.getBitcoinValue).sum) :
    prevalidateChecked H L config archive s header body = .error .panic := by
  have hfits : ensure (size ≤ maxBodySize) Error.bodyTooLarge = .ok () := ensure_pos hbound _
  simp only [prevalidateChecked, hsize, okOr_some, Except.mapError, ok_bind, hfits,
    ensure_pos htip, computeMerkleRootChecked_eq hcbmt, if_pos (And.intro hbranch hover)]
  rfl

theorem panic_of_bind {α β : Type} {x : Except Error α} {f : α → Except Failure β}
    (h : x.mapError Failure.error >>= f = .error .panic) :
    ∃ a, x = .ok a ∧ f a = .error .panic := by
  cases x with
  | error e => cases h
  | ok a => exact ⟨a, rfl, h⟩

theorem of_prevalidateChecked_panic (hcbmt : H.CompleteTree)
    (h : prevalidateChecked H L config archive s header body = .error .panic) :
    (∃ size, L.bodySize body = some size ∧ size ≤ maxBodySize) ∧ header.prevSideHash = s.tip ∧
      1 < body.coinbase.outputs.length ∧
      amountMax < (body.coinbase.outputs.map Output.getBitcoinValue).sum := by
  obtain ⟨size, hsize, h⟩ := panic_of_bind h
  obtain ⟨_, hbound, h⟩ := panic_of_bind h
  obtain ⟨_, htip, h⟩ := panic_of_bind h
  refine ⟨⟨size, okOr_eq_ok_iff.mp hsize, ensure_eq_ok_iff.mp hbound⟩,
    ensure_eq_ok_iff.mp htip, ?_⟩
  rw [computeMerkleRootChecked_eq hcbmt] at h
  by_contra hover
  rw [if_neg hover, okOr_some, ok_bind] at h
  cases hrest : prevalidateRest (hashedLibrary H L) config archive s header body
    (computeMerkleRoot H body.coinbase body.transactions) <;>
  · rw [hrest] at h
    cases h

/-- Prevalidation returns a block or an error exactly when the body is turned away before
the tree over its coinbase, or that tree has no branch, or all values fit one amount. -/
theorem prevalidate_total_iff (hcbmt : H.CompleteTree) :
    prevalidateChecked H L config archive s header body ≠ .error .panic ↔
      (∀ size, L.bodySize body = some size → maxBodySize < size) ∨
        header.prevSideHash ≠ s.tip ∨ body.coinbase.outputs.length ≤ 1 ∨
        (body.coinbase.outputs.map Output.getBitcoinValue).sum ≤ amountMax := by
  constructor
  · intro htotal
    by_contra hnone
    simp only [not_or, not_forall, not_lt, not_not, not_le, exists_prop] at hnone
    obtain ⟨⟨size, hsize, hbound⟩, htip, hbranch, hover⟩ := hnone
    exact htotal (prevalidateChecked_of_overflow hcbmt hsize hbound htip hbranch hover)
  · intro hsafe hpanic
    obtain ⟨⟨size, hsize, hbound⟩, htip, hbranch, hover⟩ := of_prevalidateChecked_panic hcbmt hpanic
    rcases hsafe with hlarge | hother | hsingle | hfits
    · exact absurd (hlarge size hsize) (Nat.not_lt.mpr hbound)
    · exact hother htip
    · exact absurd hbranch (Nat.not_lt.mpr hsingle)
    · exact absurd hover (Nat.not_lt.mpr hfits)

end

end

/-- A body without transactions and with two coinbase outputs of a value. -/
def craftedBody (value : Nat) : Body Rat :=
  ⟨⟨[], [⟨0, .bitcoin value, []⟩, ⟨0, .bitcoin value, []⟩]⟩, [], [], []⟩

theorem prevalidate_total_iff_crafted :
    prevalidateChecked sampleHashing (sampleLibrary fun _ => 0) ⟨true, 2⟩ emptyArchive
        (State.empty Rat) ⟨0, none, 0⟩ (craftedBody (2 ^ 62)) ≠ .error .panic := by
  have hfits : ((craftedBody (2 ^ 62)).coinbase.outputs.map Output.getBitcoinValue).sum ≤
      amountMax := by decide
  exact (prevalidate_total_iff completeTree_sampleHashing).mpr (.inr (.inr (.inr hfits)))

/-- Two outputs of `2 ^ 63` panic on an empty chain, under whatever Merkle root the header
has. -/
theorem prevalidate_crafted_panics :
    ¬ ∀ (header : Header) (body : Body Rat),
      prevalidateChecked sampleHashing (sampleLibrary fun _ => 0) ⟨true, 2⟩ emptyArchive
        (State.empty Rat) header body ≠ .error .panic := by
  intro htotal
  refine htotal ⟨0, none, 0⟩ (craftedBody (2 ^ 63)) ?_
  have hsize : (sampleLibrary fun _ => 0).bodySize (craftedBody (2 ^ 63)) = some 1000 := rfl
  exact prevalidateChecked_of_overflow completeTree_sampleHashing hsize (by decide) rfl
    (by decide) (by decide)

end Truthcoin.CoinbaseTotals
