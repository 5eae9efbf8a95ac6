import Truthcoin.BlockChecks
import Truthcoin.MerkleTrees
import Truthcoin.SampleLibrary

/-!
# What the Merkle root of a body binds

The root of a body is hashed level by level over the commitment to its coinbase and the ids of
its transactions, and the commitment to the coinbase is the root of a complete binary tree over
its outputs. Neither says how many leaves there are: a level of odd length repeats its last
node. A mainchain address is hashed by its script, which does not name its network.
-/

namespace Truthcoin.MerkleRoot

open Truthcoin.Types Truthcoin.Fallible Truthcoin.Decisions Truthcoin.Blocks
open Truthcoin.Validation Truthcoin.BlockChecks Truthcoin.MerkleTrees Truthcoin.Commitments

/-- The records that are hashed. -/
inductive Record where
  | pair
  | transaction
  | coinbase
  | coinbaseLeaf
  | coinbaseNode

/-- What is hashed for the Merkle root of a body. -/
inductive Preimage (F : Type) where
  | pair (left right : Nat)
  | transaction (tx : WrittenTransaction F)
  | coinbase (memo : List UInt8) (outputsCommitment : Nat)
  | coinbaseLeaf (value canonicalSize : Nat) (output : WrittenOutput)
  | coinbaseNode (leftCommitment value canonicalSize rightCommitment : Nat)

def Preimage.record {F : Type} : Preimage F → Record
  | .pair .. => .pair
  | .transaction _ => .transaction
  | .coinbase .. => .coinbase
  | .coinbaseLeaf .. => .coinbaseLeaf
  | .coinbaseNode .. => .coinbaseNode

structure CoinbaseCbmtNode where
  commitment : Nat
  value : Amount
  canonicalSize : Nat
  index : Nat

def CoinbaseCbmtNode.default : CoinbaseCbmtNode := ⟨0, 0, 0, 0⟩

/-- The hash function and what the libraries for encodings, mainchain addresses and trees
compute. A mainchain address is its script on a network. -/
structure Hashing (F : Type) where
  digest : List UInt8 → Nat
  /-- The bytes of a record: two hashes one after the other, or what borsh writes. -/
  encode : Preimage F → List UInt8
  scriptPubkey : MainAddress → List UInt8
  network : MainAddress → Nat
  address_ext : ∀ {a b : MainAddress}, scriptPubkey a = scriptPubkey b → network a = network b →
    a = b
  canonicalSize : WrittenOutput → Nat
  /-- The root over some leaves, unless a merge panics. -/
  buildMerkleRoot : (CoinbaseCbmtNode → CoinbaseCbmtNode → Option CoinbaseCbmtNode) →
    List CoinbaseCbmtNode → Option CoinbaseCbmtNode

namespace Hashing

variable {F : Type}

def hash (H : Hashing F) (x : Preimage F) : Nat :=
  H.digest (H.encode x)

/-- Distinct bytes have distinct hashes, and distinct records of one kind have distinct
bytes. -/
structure CollisionFree (H : Hashing F) : Prop where
  digest : Function.Injective H.digest
  encode : ∀ {x y : Preimage F}, x.record = y.record → H.encode x = H.encode y → x = y

/-- The library builds the complete binary tree. -/
def CompleteTree (H : Hashing F) : Prop :=
  ∀ merge leaves, H.buildMerkleRoot merge leaves = completeRoot merge .default leaves

/-- Records of different kinds are not hashed alike, and none has the all-zero hash, which
stands for the tree without leaves. -/
structure Separated (H : Hashing F) : Prop where
  record : ∀ {x y : Preimage F}, H.hash x = H.hash y → x.record = y.record
  ne_zero : ∀ x, H.hash x ≠ 0

theorem CollisionFree.hash {H : Hashing F} (hH : H.CollisionFree) {x y : Preimage F}
    (h : H.hash x = H.hash y) (hrecord : x.record = y.record) : x = y :=
  hH.encode hrecord (hH.digest h)

end Hashing

section

variable {F : Type} (H : Hashing F)

/-- The parent of two nodes, with the totals of their values and sizes. -/
def merge (lnode rnode : CoinbaseCbmtNode) : CoinbaseCbmtNode :=
  let value := lnode.value + rnode.value
  let canonicalSize := lnode.canonicalSize + rnode.canonicalSize
  ⟨H.hash (.coinbaseNode lnode.commitment value canonicalSize rnode.commitment), value,
    canonicalSize, (lnode.index - 1) / 2⟩

def coinbaseLeaves (outputs : List Output) : List CoinbaseCbmtNode :=
  outputs.zipIdx.map fun entry =>
    let value := entry.1.getBitcoinValue
    let output := writtenOutput H.scriptPubkey entry.1
    let canonicalSize := H.canonicalSize output
    ⟨H.hash (.coinbaseLeaf value canonicalSize output), value, canonicalSize,
      entry.2 + outputs.length - 1⟩

def computeOutputsMerkleRoot (outputs : List Output) : Nat :=
  ((H.buildMerkleRoot (fun lnode rnode => some (merge H lnode rnode))
    (coinbaseLeaves H outputs)).getD .default).commitment

def coinbaseMerkleRoot (coinbase : Coinbase) : Nat :=
  H.hash (.coinbase coinbase.memo (computeOutputsMerkleRoot H coinbase.outputs))

def txidHash (tx : Transaction F) : Txid :=
  H.hash (.transaction (writtenTransaction H.scriptPubkey tx))

def pairHash (left right : Nat) : Nat :=
  H.hash (.pair left right)

/-- The commitment to the coinbase is the first leaf, so there is always a root. -/
def bodyLeaves (coinbase : Coinbase) (txs : List (Transaction F)) : List Nat :=
  coinbaseMerkleRoot H coinbase :: txs.map (txidHash H)

def computeMerkleRoot (coinbase : Coinbase) (txs : List (Transaction F)) : MerkleRoot :=
  (treeRoot (pairHash H) (bodyLeaves H coinbase txs)).getD 0

/-- The library with the ids of transactions and the Merkle roots that the hash
function gives. -/
def hashedLibrary (L : Library F) : Library F :=
  { L with
    txid := txidHash H
    scriptPubkey := H.scriptPubkey
    merkleRoot := computeMerkleRoot H }

/-- The networks of the mainchain addresses that outputs withdraw to, in order. -/
def networks (outputs : List Output) : List Nat :=
  outputs.filterMap fun output =>
    match output.content with
    | .withdrawal w => some (H.network w.mainAddress)
    | _ => none

end

/-- All outputs of a body, those of the coinbase first. -/
def bodyOutputs {F : Type} (body : Body F) : List Output :=
  body.coinbase.outputs ++ body.transactions.flatMap Transaction.outputs

section

variable {F : Type} {H : Hashing F}

theorem outputs_ext {outputs outputs' : List Output}
    (hwritten : outputs.map (writtenOutput H.scriptPubkey) =
      outputs'.map (writtenOutput H.scriptPubkey))
    (hnetworks : networks H outputs = networks H outputs') : outputs = outputs' := by
  induction outputs generalizing outputs' with
  | nil => exact (List.map_eq_nil_iff.mp hwritten.symm).symm
  | cons output outputs ih =>
      rcases outputs' with _ | ⟨output', outputs'⟩
      · cases hwritten
      · rw [List.map_cons, List.map_cons, List.cons.injEq] at hwritten
        obtain ⟨address, content, memo⟩ := output
        obtain ⟨address', content', memo'⟩ := output'
        obtain ⟨rfl, hcontent, rfl⟩ := WrittenOutput.mk.inj hwritten.1
        dsimp only at hcontent
        cases content with
        | bitcoin value | marketFunds marketId value isFee =>
            cases content' <;> cases hcontent
            rw [ih hwritten.2 hnetworks]
        | withdrawal w =>
            cases content' with
            | bitcoin | marketFunds => cases hcontent
            | withdrawal w' =>
                obtain ⟨value, mainFee, mainAddress⟩ := w
                obtain ⟨value', mainFee', mainAddress'⟩ := w'
                obtain ⟨rfl, rfl, hscript⟩ := WrittenContent.withdrawal.inj hcontent
                obtain ⟨hnetwork, hrest⟩ := List.cons.inj hnetworks
                obtain rfl := H.address_ext hscript hnetwork
                rw [ih hwritten.2 hrest]

theorem transactions_ext {scriptPubkey : MainAddress → List UInt8} {txs txs' : List (Transaction F)}
    (hwritten : txs.map (writtenTransaction scriptPubkey) =
      txs'.map (writtenTransaction scriptPubkey))
    (houtputs : txs.flatMap Transaction.outputs = txs'.flatMap Transaction.outputs) :
    txs = txs' := by
  induction txs generalizing txs' with
  | nil => exact (List.map_eq_nil_iff.mp hwritten.symm).symm
  | cons tx txs ih =>
      rcases txs' with _ | ⟨tx', txs'⟩
      · cases hwritten
      · rw [List.map_cons, List.map_cons, List.cons.injEq] at hwritten
        rw [List.flatMap_cons, List.flatMap_cons] at houtputs
        obtain ⟨hown, hrest⟩ :=
          List.append_inj houtputs (length_outputs_of_written hwritten.1)
        obtain ⟨inputs, outputs, memo, data⟩ := tx
        obtain ⟨inputs', outputs', memo', data'⟩ := tx'
        obtain ⟨rfl, -, rfl, rfl⟩ := WrittenTransaction.mk.inj hwritten.1
        obtain rfl : outputs = outputs' := hown
        rw [ih hwritten.2 hrest]

theorem index_heapNode {outputs : List Output} (i : Nat) (hi : i < 2 * outputs.length - 1) :
    (heapNode (merge H) (fun k => (coinbaseLeaves H outputs).getD k .default)
      outputs.length i).index = i := by
  induction hn : outputs.length - i using Nat.strong_induction_on generalizing i with
  | _ n ih =>
      subst hn
      by_cases hbranch : i + 1 < outputs.length
      · rw [heapNode_branch hbranch, merge,
          ih (outputs.length - (2 * i + 1)) (by omega) (2 * i + 1) (by omega) rfl]
        show (2 * i + 1 - 1) / 2 = i
        omega
      · rw [heapNode_leaf (by omega)]
        simp only [coinbaseLeaves, List.getD_eq_getElem?_getD, List.getElem?_map,
          List.getElem?_zipIdx]
        rw [List.getElem?_eq_getElem (by omega)]
        simp only [Option.map_some, Option.getD_some]
        omega

theorem commitment_coinbaseLeaves {outputs : List Output} {k : Nat} (hk : k < outputs.length) :
    ((coinbaseLeaves H outputs).getD k .default).commitment =
      H.hash (.coinbaseLeaf outputs[k].getBitcoinValue
        (H.canonicalSize (writtenOutput H.scriptPubkey outputs[k]))
        (writtenOutput H.scriptPubkey outputs[k])) := by
  simp only [coinbaseLeaves, List.getD_eq_getElem?_getD, List.getElem?_map,
    List.getElem?_zipIdx, List.getElem?_eq_getElem hk, Option.map_some, Option.getD_some]

theorem length_coinbaseLeaves (outputs : List Output) :
    (coinbaseLeaves H outputs).length = outputs.length := by
  simp [coinbaseLeaves]

theorem isEmpty_coinbaseLeaves {outputs : List Output} (hpos : 0 < outputs.length) :
    (coinbaseLeaves H outputs).isEmpty = false := by
  rw [List.isEmpty_eq_false_iff, ← List.length_pos_iff, length_coinbaseLeaves]
  exact hpos

section

variable (hcbmt : H.CompleteTree)

include hcbmt

theorem computeOutputsMerkleRoot_nil : computeOutputsMerkleRoot H [] = 0 := by
  rw [computeOutputsMerkleRoot, hcbmt]
  rfl

theorem computeOutputsMerkleRoot_of_pos {outputs : List Output} (hpos : 0 < outputs.length) :
    computeOutputsMerkleRoot H outputs =
      (heapNode (merge H) (fun k => (coinbaseLeaves H outputs).getD k .default)
        outputs.length 0).commitment := by
  rw [computeOutputsMerkleRoot, hcbmt, completeRoot, isEmpty_coinbaseLeaves hpos,
    if_neg (by decide), heapNodeChecked_some, Option.getD_some, length_coinbaseLeaves]

end

theorem bodyLeaves_ne_nil (coinbase : Coinbase) (txs : List (Transaction F)) :
    bodyLeaves H coinbase txs ≠ [] :=
  List.cons_ne_nil _ _

theorem treeRoot_of_computeMerkleRoot {coinbase coinbase' : Coinbase}
    {txs txs' : List (Transaction F)}
    (h : computeMerkleRoot H coinbase txs = computeMerkleRoot H coinbase' txs') :
    treeRoot (pairHash H) (bodyLeaves H coinbase txs) =
      treeRoot (pairHash H) (bodyLeaves H coinbase' txs') := by
  obtain ⟨r, hr⟩ := exists_treeRoot (pairHash H) (bodyLeaves_ne_nil coinbase txs)
  obtain ⟨r', hr'⟩ := exists_treeRoot (pairHash H) (bodyLeaves_ne_nil coinbase' txs')
  rw [computeMerkleRoot, computeMerkleRoot, hr, hr'] at h
  rw [hr, hr', show r = r' from h]

section

variable (hH : H.CollisionFree)

include hH

theorem pairHash_injective {a b a' b' : Nat} (h : pairHash H a b = pairHash H a' b') :
    a = a' ∧ b = b' :=
  Preimage.pair.inj (hH.hash h rfl)

theorem merge_commitment_injective {a b a' b' : CoinbaseCbmtNode}
    (h : (merge H a b).commitment = (merge H a' b').commitment) :
    a.commitment = a'.commitment ∧ b.commitment = b'.commitment := by
  have hpre := Preimage.coinbaseNode.inj (hH.hash h rfl)
  exact ⟨hpre.1, hpre.2.2.2⟩

theorem written_of_commitment {outputs outputs' : List Output} {k : Nat}
    (hk : k < outputs.length) (hk' : k < outputs'.length)
    (h : ((coinbaseLeaves H outputs).getD k .default).commitment =
      ((coinbaseLeaves H outputs').getD k .default).commitment) :
    writtenOutput H.scriptPubkey outputs[k] = writtenOutput H.scriptPubkey outputs'[k] := by
  rw [commitment_coinbaseLeaves hk, commitment_coinbaseLeaves hk'] at h
  exact (Preimage.coinbaseLeaf.inj (hH.hash h rfl)).2.2

theorem written_of_txidHash {txs txs' : List (Transaction F)}
    (h : txs.map (txidHash H) = txs'.map (txidHash H)) :
    txs.map (writtenTransaction H.scriptPubkey) = txs'.map (writtenTransaction H.scriptPubkey) := by
  have hinj : Function.Injective fun tx : WrittenTransaction F => H.hash (.transaction tx) :=
    fun _ _ heq => Preimage.transaction.inj (hH.hash heq rfl)
  refine List.map_injective_iff.mpr hinj ?_
  rw [List.map_map, List.map_map]
  exact h

variable (hcbmt : H.CompleteTree)

include hcbmt

theorem written_of_computeOutputsMerkleRoot {outputs outputs' : List Output}
    (hlen : outputs.length = outputs'.length)
    (h : computeOutputsMerkleRoot H outputs = computeOutputsMerkleRoot H outputs') :
    outputs.map (writtenOutput H.scriptPubkey) = outputs'.map (writtenOutput H.scriptPubkey) := by
  rcases Nat.eq_zero_or_pos outputs.length with hempty | hpos
  · rw [List.length_eq_zero_iff.mp hempty, List.length_eq_zero_iff.mp (hlen.symm.trans hempty)]
  · rw [computeOutputsMerkleRoot_of_pos hcbmt hpos,
      computeOutputsMerkleRoot_of_pos hcbmt (hlen ▸ hpos), ← hlen] at h
    have hleaves := leaves_of_heapRoot_of_length (merge_commitment_injective hH) h
    refine List.ext_getElem (by simpa using hlen) ?_
    intro k hk hk'
    rw [List.length_map] at hk hk'
    rw [List.getElem_map, List.getElem_map]
    exact written_of_commitment hH hk hk' (hleaves k hk)

theorem written_of_coinbaseMerkleRoot {coinbase coinbase' : Coinbase}
    (hlen : coinbase.outputs.length = coinbase'.outputs.length)
    (h : coinbaseMerkleRoot H coinbase = coinbaseMerkleRoot H coinbase') :
    writtenCoinbase H.scriptPubkey coinbase = writtenCoinbase H.scriptPubkey coinbase' := by
  obtain ⟨hmemo, houtputs⟩ := Preimage.coinbase.inj (hH.hash h rfl)
  rw [writtenCoinbase, writtenCoinbase, hmemo,
    written_of_computeOutputsMerkleRoot hH hcbmt hlen houtputs]

end

section

variable [F64 F] {L : Library F} {config : DecisionConfig} {archive : Archive} {s : State F}
  {header : Header} {body body' : Body F} {pre pre' : PrevalidatedBlock F}

/-- Two accepted bodies under one header are the same exactly when they have equally many
transactions and coinbase outputs, and withdraw to the same networks. -/
theorem same_body_iff (hH : H.CollisionFree) (hcbmt : H.CompleteTree)
    (h : prevalidate (hashedLibrary H L) config archive s header body = .ok pre)
    (h' : prevalidate (hashedLibrary H L) config archive s header body' = .ok pre') :
    body.coinbase = body'.coinbase ∧ body.transactions = body'.transactions ↔
      body.transactions.length = body'.transactions.length ∧
        body.coinbase.outputs.length = body'.coinbase.outputs.length ∧
        networks H (bodyOutputs body) = networks H (bodyOutputs body') := by
  constructor
  · rintro ⟨hcoinbase, htxs⟩
    rw [bodyOutputs, bodyOutputs, hcoinbase, htxs]
    exact ⟨rfl, rfl, rfl⟩
  · rintro ⟨hlength, houtputs, hnetworks⟩
    have hroot := treeRoot_of_computeMerkleRoot ((prevalidated_of_prevalidate h).merkleRoot.trans
      (prevalidated_of_prevalidate h').merkleRoot.symm)
    have hleaves := eq_of_treeRoot_of_length (pairHash_injective hH)
      (by simpa [bodyLeaves] using hlength) hroot
    obtain ⟨hfirst, hrest⟩ := List.cons.inj hleaves
    have hcoinbase := written_of_coinbaseMerkleRoot hH hcbmt houtputs hfirst
    have htxs := written_of_txidHash hH hrest
    obtain ⟨hmemo, hwritten⟩ := WrittenCoinbase.mk.inj hcoinbase
    have hall : (bodyOutputs body).map (writtenOutput H.scriptPubkey) =
        (bodyOutputs body').map (writtenOutput H.scriptPubkey) := by
      have houtputs := congrArg (List.flatMap WrittenTransaction.outputs) htxs
      simp only [List.flatMap_map, writtenTransaction] at houtputs
      simp only [bodyOutputs, List.map_append, List.map_flatMap]
      rw [hwritten, houtputs]
    obtain ⟨hown, htheirs⟩ := List.append_inj (outputs_ext hall hnetworks) houtputs
    refine ⟨?_, transactions_ext htxs htheirs⟩
    cases hbody : body.coinbase with
    | mk memo outputs =>
        cases hbody' : body'.coinbase with
        | mk memo' outputs' =>
            rw [hbody, hbody'] at hmemo hown
            obtain rfl : memo = memo' := hmemo
            obtain rfl : outputs = outputs' := hown
            rfl

end

theorem nodup_written_of_inputs {scriptPubkey : MainAddress → List UInt8}
    {txs : List (Transaction F)} (hinputs : (txs.flatMap Transaction.inputs).Nodup)
    (hempty : ((txs.filter fun tx => tx.inputs.isEmpty).map
      (writtenTransaction scriptPubkey)).Nodup) :
    (txs.map (writtenTransaction scriptPubkey)).Nodup := by
  induction txs with
  | nil => exact List.nodup_nil
  | cons tx txs ih =>
      rw [List.flatMap_cons, List.nodup_append] at hinputs
      have hrest : ((txs.filter fun tx => tx.inputs.isEmpty).map
          (writtenTransaction scriptPubkey)).Nodup :=
        hempty.sublist (((List.sublist_cons_self tx txs).filter _).map _)
      refine List.nodup_cons.mpr ⟨fun hmem => ?_, ih hinputs.2.1 hrest⟩
      obtain ⟨tx', htx', heq⟩ := List.mem_map.mp hmem
      have hsame := inputs_of_written heq
      by_cases hnone : tx.inputs.isEmpty = true
      · rw [List.filter_cons, if_pos hnone, List.map_cons, List.nodup_cons] at hempty
        refine hempty.1 (List.mem_map.mpr ⟨tx', List.mem_filter.mpr ⟨htx', ?_⟩, heq⟩)
        rw [hsame, hnone]
      · obtain ⟨o, ho⟩ := List.exists_mem_of_ne_nil tx.inputs (by simpa using hnone)
        exact hinputs.2.2 o ho o (List.mem_flatMap.mpr ⟨tx', htx', hsame ▸ ho⟩) rfl

section

variable (hS : H.Separated)

include hS

theorem commitment_leaf_ne_merge {outputs : List Output} (k : Nat) (a b : CoinbaseCbmtNode) :
    ((coinbaseLeaves H outputs).getD k .default).commitment ≠ (merge H a b).commitment := by
  by_cases hk : k < outputs.length
  · rw [commitment_coinbaseLeaves hk]
    intro heq
    cases hS.record heq
  · have hnone : (coinbaseLeaves H outputs)[k]? = none := by
      rw [List.getElem?_eq_none_iff, length_coinbaseLeaves]
      exact Nat.le_of_not_lt hk
    rw [List.getD_eq_getElem?_getD, hnone, Option.getD_none]
    exact (hS.ne_zero _).symm

variable (hcbmt : H.CompleteTree)

include hcbmt

theorem computeOutputsMerkleRoot_ne_zero {outputs : List Output} (hpos : 0 < outputs.length) :
    computeOutputsMerkleRoot H outputs ≠ 0 := by
  rw [computeOutputsMerkleRoot_of_pos hcbmt hpos]
  by_cases hbranch : 0 + 1 < outputs.length
  · rw [heapNode_branch hbranch]
    exact hS.ne_zero _
  · rw [heapNode_leaf (by omega), commitment_coinbaseLeaves (by omega)]
    exact hS.ne_zero _

variable (hH : H.CollisionFree)

include hH

theorem length_of_computeOutputsMerkleRoot {outputs outputs' : List Output}
    (h : computeOutputsMerkleRoot H outputs = computeOutputsMerkleRoot H outputs') :
    outputs.length = outputs'.length := by
  rcases Nat.eq_zero_or_pos outputs.length with hempty | hpos
  · rcases Nat.eq_zero_or_pos outputs'.length with hempty' | hpos'
    · rw [hempty, hempty']
    · rw [List.length_eq_zero_iff.mp hempty, computeOutputsMerkleRoot_nil hcbmt] at h
      exact absurd h.symm (computeOutputsMerkleRoot_ne_zero hS hcbmt hpos')
  · rcases Nat.eq_zero_or_pos outputs'.length with hempty' | hpos'
    · rw [List.length_eq_zero_iff.mp hempty', computeOutputsMerkleRoot_nil hcbmt] at h
      exact absurd h (computeOutputsMerkleRoot_ne_zero hS hcbmt hpos)
    · rw [computeOutputsMerkleRoot_of_pos hcbmt hpos,
        computeOutputsMerkleRoot_of_pos hcbmt hpos'] at h
      exact length_of_heapRoot (merge_commitment_injective hH) (commitment_leaf_ne_merge hS)
        (commitment_leaf_ne_merge hS) hpos hpos' h

theorem coinbase_and_depth_of_root {coinbase coinbase' : Coinbase}
    {txs txs' : List (Transaction F)}
    (h : treeRoot (pairHash H) (bodyLeaves H coinbase txs) =
      treeRoot (pairHash H) (bodyLeaves H coinbase' txs')) :
    writtenCoinbase H.scriptPubkey coinbase = writtenCoinbase H.scriptPubkey coinbase' ∧
      depth (pairHash H) (bodyLeaves H coinbase txs) =
        depth (pairHash H) (bodyLeaves H coinbase' txs') := by
  have hnode : ∀ c x y, coinbaseMerkleRoot H c ≠ pairHash H x y := by
    intro c x y heq
    cases hS.record heq
  obtain ⟨hfirst, hdepth⟩ := head_and_depth_of_treeRoot (pairHash_injective hH) rfl rfl
    (hnode coinbase) (hnode coinbase') h
  have houtputs := (Preimage.coinbase.inj (hH.hash hfirst rfl)).2
  exact ⟨written_of_coinbaseMerkleRoot hH hcbmt
    (length_of_computeOutputsMerkleRoot hS hcbmt hH houtputs) hfirst, hdepth⟩

omit hcbmt in
theorem nodup_bodyLeaves {coinbase : Coinbase} {txs : List (Transaction F)}
    (h : (txs.map (writtenTransaction H.scriptPubkey)).Nodup) :
    (bodyLeaves H coinbase txs).Nodup := by
  refine List.nodup_cons.mpr ⟨?_, ?_⟩
  · intro hmem
    obtain ⟨tx, -, heq⟩ := List.mem_map.mp hmem
    cases hS.record heq
  · have hinj : Function.Injective fun tx : WrittenTransaction F => H.hash (.transaction tx) :=
      fun _ _ heq => Preimage.transaction.inj (hH.hash heq rfl)
    have hhashes := h.map hinj
    rwa [List.map_map] at hhashes

end

section

variable [F64 F] {L : Library F} {config : DecisionConfig} {archive : Archive} {s : State F}
  {header : Header} {body body' : Body F} {pre pre' : PrevalidatedBlock F}

/-- Where records of different kinds are not hashed alike, two accepted bodies under one header
have coinbases that are written alike, and so are their transactions if neither repeats one
without inputs. -/
theorem written_of_separated (hH : H.CollisionFree) (hS : H.Separated) (hcbmt : H.CompleteTree)
    (h : prevalidate (hashedLibrary H L) config archive s header body = .ok pre)
    (h' : prevalidate (hashedLibrary H L) config archive s header body' = .ok pre') :
    writtenCoinbase H.scriptPubkey body.coinbase = writtenCoinbase H.scriptPubkey body'.coinbase ∧
      (((body.transactions.filter fun tx => tx.inputs.isEmpty).map
          (writtenTransaction H.scriptPubkey)).Nodup →
        ((body'.transactions.filter fun tx => tx.inputs.isEmpty).map
            (writtenTransaction H.scriptPubkey)).Nodup →
          body.transactions.map (writtenTransaction H.scriptPubkey) =
            body'.transactions.map (writtenTransaction H.scriptPubkey)) := by
  have hpre := prevalidated_of_prevalidate h
  have hpre' := prevalidated_of_prevalidate h'
  have hroot := treeRoot_of_computeMerkleRoot (hpre.merkleRoot.trans hpre'.merkleRoot.symm)
  obtain ⟨hcoinbase, hdepth⟩ := coinbase_and_depth_of_root hS hcbmt hH hroot
  refine ⟨hcoinbase, fun hnodup hnodup' => ?_⟩
  have hleaves := eq_of_treeRoot_of_nodup (pairHash_injective hH)
    (nodup_bodyLeaves hS hH (nodup_written_of_inputs hpre.inputs hnodup))
    (nodup_bodyLeaves hS hH (nodup_written_of_inputs hpre'.inputs hnodup')) hdepth
    (bodyLeaves_ne_nil _ _) (bodyLeaves_ne_nil _ _) hroot
  exact written_of_txidHash hH (List.cons.inj hleaves).2

end

end

deriving instance Countable for WrittenContent
deriving instance Countable for WrittenOutput
deriving instance Countable for WrittenTransaction
deriving instance Countable for Preimage

/-- A hash function without collisions; a mainchain address is a script of zeros on one of two
networks. -/
noncomputable def sampleHashing : Hashing Rat where
  digest bytes := Encodable.encode bytes + 1
  encode x := List.replicate ((exists_injective_nat (Preimage Rat)).choose x) 0
  scriptPubkey address := List.replicate (address / 2) 0
  network address := address % 2
  address_ext {a b} hscript hnetwork := by
    have hhalf : a / 2 = b / 2 := by simpa using congrArg List.length hscript
    have hparity : a % 2 = b % 2 := hnetwork
    rw [← Nat.div_add_mod a 2, hhalf, hparity, Nat.div_add_mod]
  canonicalSize _ := 0
  buildMerkleRoot merge leaves := completeRoot merge .default leaves

theorem collisionFree_sampleHashing : sampleHashing.CollisionFree where
  digest _ _ h := Encodable.encode_injective (Nat.succ.inj h)
  encode _ h := (exists_injective_nat (Preimage Rat)).choose_spec (by
    simpa [sampleHashing] using congrArg List.length h)

theorem completeTree_sampleHashing : sampleHashing.CompleteTree :=
  fun _ _ => rfl

noncomputable def rootLibrary : Library Rat :=
  hashedLibrary sampleHashing (sampleLibrary fun _ => 0)

/-- A transaction that spends and creates nothing. -/
def memoTx (memo : List UInt8) : Transaction Rat := ⟨[], [], memo, none⟩

def memoBody (memos : List (List UInt8)) : Body Rat :=
  ⟨⟨[], []⟩, memos.map memoTx, [], memos.map fun _ => none⟩

noncomputable def headerOf (body : Body Rat) : Header :=
  ⟨rootLibrary.merkleRoot body.coinbase body.transactions, none, 0⟩

/-- A body with a coinbase that withdraws nothing to a mainchain address. -/
def networkBody (mainAddress : MainAddress) : Body Rat :=
  ⟨⟨[], [⟨0, .withdrawal ⟨0, 0, mainAddress⟩, []⟩]⟩, [], [], []⟩

theorem headerOf_memoBody :
    headerOf (memoBody [[0], [1], [1]]) = headerOf (memoBody [[0], [1]]) := by
  have hroot : computeMerkleRoot sampleHashing ⟨[], []⟩ [memoTx [0], memoTx [1], memoTx [1]] =
      computeMerkleRoot sampleHashing ⟨[], []⟩ [memoTx [0], memoTx [1]] := by
    simp only [computeMerkleRoot, bodyLeaves, List.map_cons, List.map_nil, treeRoot, nextLevel]
  exact congrArg (fun root => (⟨root, none, 0⟩ : Header)) hroot

theorem headerOf_networkBody : headerOf (networkBody 11) = headerOf (networkBody 10) := rfl

theorem prevalidate_of_root {header : Header} (body : Body Rat)
    (hroot : header = headerOf body)
    (hbody : body ∈ [memoBody [[0], [1]], memoBody [[0], [1], [1]], networkBody 10,
      networkBody 11]) :
    ∃ pre, prevalidate rootLibrary ⟨true, 2⟩ emptyArchive (State.empty Rat) header body =
      .ok pre := by
  have hcheck : ∀ e : Error, ensure (rootLibrary.merkleRoot body.coinbase
      body.transactions = header.merkleRoot) e = .ok () := ensure_pos (by rw [hroot]; rfl)
  subst hroot
  simp only [prevalidate, hcheck, ok_bind]
  simp only [List.mem_cons, List.not_mem_nil, or_false] at hbody
  rcases hbody with rfl | rfl | rfl | rfl
  · exact ⟨_, rfl⟩
  · exact ⟨_, rfl⟩
  · exact ⟨_, rfl⟩
  · exact ⟨_, rfl⟩

theorem same_body_iff_memos :
    ∃ pre pre' : PrevalidatedBlock Rat,
      prevalidate rootLibrary ⟨true, 2⟩ emptyArchive (State.empty Rat)
          (headerOf (memoBody [[0], [1]])) (memoBody [[0], [1]]) = .ok pre ∧
        prevalidate rootLibrary ⟨true, 2⟩ emptyArchive (State.empty Rat)
          (headerOf (memoBody [[0], [1]])) (memoBody [[0], [1], [1]]) = .ok pre' ∧
        ((memoBody [[0], [1]]).coinbase = (memoBody [[0], [1], [1]]).coinbase ∧
            (memoBody [[0], [1]]).transactions = (memoBody [[0], [1], [1]]).transactions ↔
          (memoBody [[0], [1]]).transactions.length =
              (memoBody [[0], [1], [1]]).transactions.length ∧
            (memoBody [[0], [1]]).coinbase.outputs.length =
              (memoBody [[0], [1], [1]]).coinbase.outputs.length ∧
            networks sampleHashing (bodyOutputs (memoBody [[0], [1]])) =
              networks sampleHashing (bodyOutputs (memoBody [[0], [1], [1]]))) := by
  obtain ⟨pre, hshort⟩ := prevalidate_of_root (memoBody [[0], [1]]) rfl (by simp)
  obtain ⟨pre', hlong⟩ :=
    prevalidate_of_root (memoBody [[0], [1], [1]]) headerOf_memoBody.symm (by simp)
  exact ⟨pre, pre', hshort, hlong,
    same_body_iff collisionFree_sampleHashing completeTree_sampleHashing hshort hlong⟩

/-- Two accepted bodies under one header, with two and with three transactions. -/
theorem repeated_transaction_same_header :
    ¬ ∀ (header : Header) (pre pre' : PrevalidatedBlock Rat) (body body' : Body Rat),
      prevalidate rootLibrary ⟨true, 2⟩ emptyArchive (State.empty Rat) header body = .ok pre →
        prevalidate rootLibrary ⟨true, 2⟩ emptyArchive (State.empty Rat) header body' =
          .ok pre' →
        body.coinbase = body'.coinbase ∧ body.transactions = body'.transactions := by
  intro hall
  obtain ⟨pre, hshort⟩ := prevalidate_of_root (memoBody [[0], [1]]) rfl (by simp)
  obtain ⟨pre', hlong⟩ :=
    prevalidate_of_root (memoBody [[0], [1], [1]]) headerOf_memoBody.symm (by simp)
  have hlen := congrArg List.length (hall _ _ _ _ _ hshort hlong).2
  simp [memoBody] at hlen

theorem other_network_same_header :
    ∃ pre pre' : PrevalidatedBlock Rat,
      prevalidate rootLibrary ⟨true, 2⟩ emptyArchive (State.empty Rat)
          (headerOf (networkBody 10)) (networkBody 10) = .ok pre ∧
        prevalidate rootLibrary ⟨true, 2⟩ emptyArchive (State.empty Rat)
          (headerOf (networkBody 10)) (networkBody 11) = .ok pre' ∧
        (networkBody 10).coinbase ≠ (networkBody 11).coinbase := by
  obtain ⟨pre, hpre⟩ := prevalidate_of_root (networkBody 10) rfl (by simp)
  obtain ⟨pre', hpre'⟩ := prevalidate_of_root (networkBody 11) headerOf_networkBody.symm (by simp)
  exact ⟨pre, pre', hpre, hpre', by decide⟩

end Truthcoin.MerkleRoot
