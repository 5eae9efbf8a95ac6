import Truthcoin.BlockChecks
import Truthcoin.BlockTemplate

/-!
# The signatures of a block

The authorizations and the actor proofs of a block are flat lists. The address check, the
batches of signatures and the actor proofs each match them to the transactions by a count of
their own. All three agree, so nobody's signature serves for another transaction.
-/

namespace Truthcoin.Authorizing

open Truthcoin.Types Truthcoin.Table Truthcoin.Fallible Truthcoin.Blocks Truthcoin.Decisions
open Truthcoin.Markets Truthcoin.Mempool Truthcoin.Validation Truthcoin.BlockChecks

section Chunks

variable {α β γ : Type}

/-- Consecutive parts of a list, all of the given positive size but the last. -/
def parChunks (size : Nat) : List α → List (List α)
  | [] => []
  | a :: l => (a :: l.take (size - 1)) :: parChunks size (l.drop (size - 1))
  termination_by l => l.length
  decreasing_by rw [List.length_drop, List.length_cons]; omega

theorem flatten_parChunks (size : Nat) (l : List α) : (parChunks size l).flatten = l := by
  fun_induction parChunks size l with
  | case1 => rfl
  | case2 a l ih => rw [List.flatten_cons, ih, List.cons_append, List.take_append_drop]

theorem ne_nil_of_mem_parChunks {size : Nat} {l chunk : List α}
    (h : chunk ∈ parChunks size l) : chunk ≠ [] := by
  fun_induction parChunks size l with
  | case1 => cases h
  | case2 a l ih =>
      rcases List.mem_cons.mp h with rfl | h
      · exact List.cons_ne_nil _ _
      · exact ih h

theorem zip_take_drop {l : List α} {first rest : List β} {n : Nat} (hfirst : first.length = n)
    (hl : n ≤ l.length) :
    l.zip (first ++ rest) = (l.take n).zip first ++ (l.drop n).zip rest := by
  have hlength : (l.take n).length = first.length := by
    rw [List.length_take, hfirst, Nat.min_eq_left hl]
  rw [← List.zip_append hlength, List.take_append_drop]

end Chunks

/-- Why the signatures of a block are refused. -/
inductive AuthorizationError where
  | borshSerialize
  | signatureVerification
  | signatureCountMismatch (expected actual : Nat)
  deriving DecidableEq, Repr

/-- Keys, signatures and the encoding of transactions. A batch that is not empty verifies if
and only if all its items do. -/
structure SignatureScheme (F : Type) where
  getAddress : Nat → Address
  serialize : Transaction F → Option (List UInt8)
  verify : Authorization → List UInt8 → Bool
  verifyBatch : List (Authorization × List UInt8) → Bool
  verifyBatch_iff : ∀ items, verifyBatch items = true ↔
    items ≠ [] ∧ ∀ item ∈ items, verify item.1 item.2 = true

/-- Domain separation tag of the messages that are transactions. -/
def dstTransaction : UInt8 := 0

/-- Number of signatures that are verified as one batch. -/
def chunkSize : Nat := 2 ^ 14

variable {F : Type}

/-- Give each transaction the authorizations for its inputs and its actor proof. There is no
answer if the authorizations run out. -/
def authorize : List (Transaction F) → List Authorization → List (Option Authorization) →
    Option (List (AuthorizedTransaction F))
  | [], _, _ => some []
  | tx :: txs, authorizations, actorProofs =>
      if authorizations.length < tx.inputs.length then none
      else do
        let rest ← authorize txs (authorizations.drop tx.inputs.length) actorProofs.tail
        some (⟨tx, authorizations.take tx.inputs.length, actorProofs.head?.join⟩ :: rest)

def authorizedTransactions (body : Body F) : Option (List (AuthorizedTransaction F)) :=
  authorize body.transactions body.authorizations body.actorProofs

namespace SignatureScheme

section

variable (S : SignatureScheme F)

/-- Canonical message to sign a transaction. -/
def txMsgCanonical (tx : Transaction F) : Except AuthorizationError (List UInt8) := do
  let bytes ← okOr (S.serialize tx) .borshSerialize
  .ok (dstTransaction :: bytes)

def verifyActorProof (tx : AuthorizedTransaction F) : Except AuthorizationError Unit :=
  tx.actorProof.forM fun proof => do
    let msg ← S.txMsgCanonical tx.transaction
    ensure (S.verify proof msg = true) .signatureVerification

/-- The message of each transaction, once for each of its inputs. -/
def messages (transactions : List (Transaction F)) :
    Except AuthorizationError (List (List UInt8)) := do
  let serialized ← transactions.mapM S.txMsgCanonical
  .ok (((transactions.map fun tx => tx.inputs.length).zip serialized).flatMap fun entry =>
    List.replicate entry.1 entry.2)

def verifyAuthorizations (body : Body F) : Except AuthorizationError Unit := do
  let totalInputs := (body.transactions.map fun tx => tx.inputs.length).sum
  ensure (body.authorizations.length = totalInputs)
    (.signatureCountMismatch totalInputs body.authorizations.length)
  if totalInputs = 0 then .ok ()
  else do
    let messages ← S.messages body.transactions
    (parChunks chunkSize (body.authorizations.zip messages)).forM fun chunk =>
      ensure (S.verifyBatch chunk = true) .signatureVerification

def verifyBody (body : Body F) : Except AuthorizationError Unit := do
  S.verifyAuthorizations body
  let txs ← okOr (authorizedTransactions body) (.signatureCountMismatch 0 0)
  txs.forM S.verifyActorProof

/-- A library with the addresses and the signatures of the scheme. -/
def library (L : Library F) : Library F :=
  { L with
    getAddress := fun authorization => S.getAddress authorization.verifyingKey
    verifyBody := fun body => (S.verifyBody body).isOk }

/-- The key of an address has signed a transaction. -/
structure Signs (tx : Transaction F) (address : Address) (authorization : Authorization) :
    Prop where
  address : S.getAddress authorization.verifyingKey = address
  verified : ∃ msg, S.txMsgCanonical tx = .ok msg ∧ S.verify authorization msg = true

end

end SignatureScheme

section

variable {txs : List (Transaction F)} {authorizations : List Authorization}
  {actorProofs : List (Option Authorization)} {authorized : List (AuthorizedTransaction F)}

theorem authorize_cons_eq_some {tx : Transaction F}
    (h : authorize (tx :: txs) authorizations actorProofs = some authorized) :
    tx.inputs.length ≤ authorizations.length ∧ ∃ rest,
      authorize txs (authorizations.drop tx.inputs.length) actorProofs.tail = some rest ∧
        authorized =
          ⟨tx, authorizations.take tx.inputs.length, actorProofs.head?.join⟩ :: rest := by
  rw [authorize] at h
  split at h
  · cases h
  · rename_i hle
    obtain ⟨rest, hrest, heq⟩ := Option.bind_eq_some_iff.mp h
    exact ⟨Nat.le_of_not_lt hle, rest, hrest, (Option.some.inj heq).symm⟩

theorem zip_flatMap_of_authorize {β : Type}
    (h : authorize txs authorizations actorProofs = some authorized)
    {items : Transaction F → List β} (hitems : ∀ tx ∈ txs, (items tx).length = tx.inputs.length) :
    authorizations.zip (txs.flatMap items) =
      authorized.flatMap fun tx => tx.authorizations.zip (items tx.transaction) := by
  induction txs generalizing authorizations actorProofs authorized with
  | nil =>
      obtain rfl := Option.some.inj h
      rw [List.flatMap_nil, List.zip_nil_right, List.flatMap_nil]
  | cons tx txs ih =>
      obtain ⟨hle, rest, hrest, rfl⟩ := authorize_cons_eq_some h
      rw [List.flatMap_cons, zip_take_drop (hitems tx List.mem_cons_self) hle, List.flatMap_cons,
        ih hrest fun tx' htx' => hitems tx' (List.mem_cons_of_mem _ htx')]

/-- A transaction of a body with what the body holds for it. -/
structure AuthorizedAt (authorizations : List Authorization)
    (actorProofs : List (Option Authorization)) (i : Nat) (tx : Transaction F)
    (found : AuthorizedTransaction F) : Prop where
  transaction : found.transaction = tx
  actorProof : found.actorProof = actorProofs[i]?.join
  length : found.authorizations.length = tx.inputs.length
  mem : ∀ authorization ∈ found.authorizations, authorization ∈ authorizations

theorem authorizedAt_of_authorize
    (h : authorize txs authorizations actorProofs = some authorized) {i : Nat}
    {tx : Transaction F} (hi : txs[i]? = some tx) :
    ∃ found ∈ authorized, AuthorizedAt authorizations actorProofs i tx found := by
  induction txs generalizing authorizations actorProofs authorized i with
  | nil => cases hi
  | cons first txs ih =>
      obtain ⟨hle, rest, hrest, rfl⟩ := authorize_cons_eq_some h
      cases i with
      | zero =>
          obtain rfl := Option.some.inj hi
          refine ⟨_, List.mem_cons_self, rfl, ?_, ?_, ?_⟩
          · rw [List.head?_eq_getElem?]
          · rw [List.length_take, Nat.min_eq_left hle]
          · exact fun authorization hmem => List.mem_of_mem_take hmem
      | succ i =>
          obtain ⟨found, hfound, hat⟩ := ih hrest hi
          refine ⟨found, List.mem_cons_of_mem _ hfound, hat.transaction, ?_, hat.length, ?_⟩
          · rw [hat.actorProof, List.getElem?_tail]
          · exact fun authorization hmem => List.mem_of_mem_drop (hat.mem _ hmem)

end

/-- The outputs of a state that a transaction spends. -/
def spentBy (s : State F) (tx : Transaction F) : List FilledOutput :=
  tx.inputs.filterMap fun o => s.coins.utxos[o]?

theorem spent_eq_spentBy {s : State F} {tx : Transaction F} {filled : FilledTransaction F}
    (h : FilledFrom s tx filled) : filled.spentUtxos = spentBy s tx := by
  have hspent := h.spent
  unfold spentBy
  generalize tx.inputs = inputs, filled.spentUtxos = spent at hspent
  induction hspent with
  | nil => rfl
  | cons hfirst _ ih => rw [List.filterMap_cons_some hfirst, ih]

theorem flatMap_spentBy {s : State F} {txs : List (Transaction F)}
    {filledTxs : List (FilledTransaction F)} (h : List.Forall₂ (FilledFrom s) txs filledTxs) :
    filledTxs.flatMap FilledTransaction.spentUtxos = txs.flatMap (spentBy s) := by
  induction h with
  | nil => rfl
  | cons hfirst _ ih => rw [List.flatMap_cons, List.flatMap_cons, ih, spent_eq_spentBy hfirst]

theorem length_spentBy {s : State F} {tx : Transaction F} {filled : FilledTransaction F}
    (h : FilledFrom s tx filled) : (spentBy s tx).length = tx.inputs.length := by
  rw [← spent_eq_spentBy h, h.spent.length_eq]

namespace SignatureScheme

variable {S : SignatureScheme F} {body : Body F} {authorized : List (AuthorizedTransaction F)}

theorem messages_eq_ok {txs : List (Transaction F)} {messages : List (List UInt8)}
    (h : S.messages txs = .ok messages) :
    ∃ msg : Transaction F → List UInt8, (∀ tx ∈ txs, S.txMsgCanonical tx = .ok (msg tx)) ∧
      messages = txs.flatMap fun tx => List.replicate tx.inputs.length (msg tx) := by
  simp only [SignatureScheme.messages, bind_eq_ok_iff, mapM_eq_ok_iff, Except.ok.injEq] at h
  obtain ⟨serialized, hserialized, rfl⟩ := h
  refine ⟨fun tx => dstTransaction :: (S.serialize tx).getD [], ?_⟩
  induction hserialized with
  | nil => exact ⟨by simp, rfl⟩
  | @cons tx bytes txs serialized hfirst _ ih =>
      have hmsg : bytes = dstTransaction :: (S.serialize tx).getD [] := by
        simp only [txMsgCanonical, bind_eq_ok_iff, okOr_eq_ok_iff, Except.ok.injEq] at hfirst
        obtain ⟨_, hbytes, rfl⟩ := hfirst
        rw [hbytes, Option.getD_some]
      constructor
      · intro tx' htx'
        rcases List.mem_cons.mp htx' with rfl | htx'
        · rw [hfirst, hmsg]
        · exact ih.1 tx' htx'
      · rw [List.map_cons, List.zip_cons_cons, List.flatMap_cons, List.flatMap_cons, ih.2, hmsg]

theorem forall_verifyBatch_iff {size : Nat} {items : List (Authorization × List UInt8)} :
    (∀ chunk ∈ parChunks size items, S.verifyBatch chunk = true) ↔
      ∀ item ∈ items, S.verify item.1 item.2 = true := by
  constructor
  · intro h item hitem
    rw [← flatten_parChunks size items] at hitem
    obtain ⟨chunk, hchunk, hitem⟩ := List.mem_flatten.mp hitem
    exact ((S.verifyBatch_iff chunk).mp (h chunk hchunk)).2 item hitem
  · intro h chunk hchunk
    refine (S.verifyBatch_iff chunk).mpr ⟨ne_nil_of_mem_parChunks hchunk, ?_⟩
    intro item hitem
    apply h
    rw [← flatten_parChunks size items]
    exact List.mem_flatten.mpr ⟨chunk, hchunk, hitem⟩

/-- Every authorization of a transaction has signed its message. -/
theorem verified_of_verifyAuthorizations (h : S.verifyAuthorizations body = .ok ())
    (hsplit : authorizedTransactions body = some authorized)
    {i : Nat} {tx : Transaction F} {found : AuthorizedTransaction F}
    (htx : tx ∈ body.transactions) (hfound : found ∈ authorized)
    (hat : AuthorizedAt body.authorizations body.actorProofs i tx found)
    {authorization : Authorization} (hmem : authorization ∈ found.authorizations) :
    ∃ msg, S.txMsgCanonical tx = .ok msg ∧ S.verify authorization msg = true := by
  simp only [verifyAuthorizations, bind_eq_ok_iff, ensure_eq_ok_iff] at h
  obtain ⟨_, hlength, h⟩ := h
  split at h
  · -- a body without inputs has no authorizations
    rename_i htotal
    rw [htotal] at hlength
    have hnone := hat.mem authorization hmem
    rw [List.length_eq_zero_iff.mp hlength] at hnone
    cases hnone
  · simp only [bind_eq_ok_iff, forM_eq_ok_iff, ensure_eq_ok_iff, forall_verifyBatch_iff] at h
    obtain ⟨messages, hmessages, hverified⟩ := h
    obtain ⟨msg, hmsg, rfl⟩ := messages_eq_ok hmessages
    refine ⟨msg tx, hmsg tx htx, ?_⟩
    have hpair : (authorization, msg tx) ∈
        found.authorizations.zip (List.replicate tx.inputs.length (msg tx)) := by
      obtain ⟨j, hj, rfl⟩ := List.getElem_of_mem hmem
      have hj' : j < (found.authorizations.zip
          (List.replicate tx.inputs.length (msg tx))).length := by
        rw [List.length_zip, List.length_replicate, hat.length, Nat.min_self, ← hat.length]
        exact hj
      have hget := List.getElem_mem hj'
      rwa [List.getElem_zip, List.getElem_replicate] at hget
    refine hverified (authorization, msg tx) ?_
    rw [zip_flatMap_of_authorize hsplit fun tx _ => List.length_replicate]
    refine List.mem_flatMap.mpr ⟨found, hfound, ?_⟩
    rw [hat.transaction]
    exact hpair

theorem verified_of_verifyActorProof {tx : AuthorizedTransaction F}
    (h : S.verifyActorProof tx = .ok ()) {proof : Authorization}
    (hproof : tx.actorProof = some proof) :
    ∃ msg, S.txMsgCanonical tx.transaction = .ok msg ∧ S.verify proof msg = true := by
  have hverified := option_forM_eq_ok_iff.mp h proof hproof
  simp only [bind_eq_ok_iff, ensure_eq_ok_iff] at hverified
  exact hverified

end SignatureScheme

/-- The addresses that the data of a transaction act for. -/
def actors : TxData F → List Address
  | .submitVote vote => [vote.voter]
  | .submitBallot ballot => [ballot.voter]
  | .trade trade => if trade.isBuy then [] else [trade.trader]
  | .amplifyBeta amplify => [amplify.marketAuthor]
  | .transferReputation transfer => [transfer.sender]
  | .claimDecision _ | .createMarket _ => []

/-- The owners of all inputs of a transaction have signed it, and so has everyone its data act
for, as such an owner or by the actor proof. -/
structure SignedByAll (S : SignatureScheme F) (s : State F) (body : Body F)
    (tx : Transaction F) (actorProof : Option Authorization) : Prop where
  owners : ∀ o ∈ tx.inputs, ∃ output, s.coins.utxos[o]? = some output ∧
    ∃ authorization ∈ body.authorizations, S.Signs tx output.address authorization
  actors : ∀ data, tx.data = some data → ∀ address ∈ actors data,
    (∃ o ∈ tx.inputs, ∃ output, s.coins.utxos[o]? = some output ∧ output.address = address ∧
      ∃ authorization ∈ body.authorizations, S.Signs tx address authorization) ∨
    ∃ proof, actorProof = some proof ∧ S.Signs tx address proof

variable [F64 F]

/-- Valid data prove the identity of their actors. -/
theorem provesIdentity_of_valid {L : Library F} {config : DecisionConfig} {archive : Archive}
    {s : State F} {tx : FilledTransaction F} {height : Option Nat} {data : TxData F}
    (h : validateTxData L config archive s tx height data = .ok ()) {address : Address}
    (ha : address ∈ actors data) : provesIdentity tx address := by
  cases data with
  | claimDecision payload => cases ha
  | createMarket creation => cases ha
  | trade trade =>
      rw [actors] at ha
      split at ha
      · cases ha
      · rename_i hsell
        obtain rfl := List.mem_singleton.mp ha
        simp only [validateTxData, validateTrade, bind_eq_ok_iff, if_neg hsell, validateSell,
          ensure_eq_ok_iff] at h
        obtain ⟨_, -, _, -, _, -, _, -, _, -, _, -, _, -, _, -, _, hproves, -⟩ := h
        exact hproves
  | submitVote vote =>
      obtain rfl := List.mem_singleton.mp ha
      simp only [validateTxData, validateVoteSubmission, validateVoter, bind_eq_ok_iff,
        ensure_eq_ok_iff] at h
      obtain ⟨_, ⟨_, hproves, -⟩, -⟩ := h
      exact hproves
  | submitBallot ballot =>
      obtain rfl := List.mem_singleton.mp ha
      simp only [validateTxData, validateBallot, validateVoter, bind_eq_ok_iff,
        ensure_eq_ok_iff] at h
      obtain ⟨_, ⟨_, hproves, -⟩, -⟩ := h
      exact hproves
  | transferReputation transfer =>
      obtain rfl := List.mem_singleton.mp ha
      simp only [validateTxData, validateReputationTransfer, bind_eq_ok_iff,
        ensure_eq_ok_iff] at h
      obtain ⟨_, hsender, -⟩ := h
      exact Or.inl hsender
  | amplifyBeta amplify =>
      obtain rfl := List.mem_singleton.mp ha
      simp only [validateTxData, validateAmplifyBeta, bind_eq_ok_iff, ensure_eq_ok_iff] at h
      obtain ⟨_, -, _, -, _, -, _, hproves, -⟩ := h
      exact hproves

omit [F64 F] in
/-- The address check and the batches agree on whose signature belongs to an input. -/
theorem owner_signed {S : SignatureScheme F} {s : State F} {body : Body F}
    {filledTxs : List (FilledTransaction F)} {authorized : List (AuthorizedTransaction F)}
    (hfilled : List.Forall₂ (FilledFrom s) body.transactions filledTxs)
    (haddresses : ∀ entry ∈ body.authorizations.zip
      (filledTxs.flatMap FilledTransaction.spentUtxos),
        S.getAddress entry.1.verifyingKey = entry.2.address)
    (hverified : S.verifyAuthorizations body = .ok ())
    (hsplit : authorizedTransactions body = some authorized)
    {i : Nat} {tx : Transaction F} {found : AuthorizedTransaction F}
    (htx : tx ∈ body.transactions) (hfound : found ∈ authorized)
    (hat : AuthorizedAt body.authorizations body.actorProofs i tx found)
    {o : OutPoint} (ho : o ∈ tx.inputs) :
    ∃ output, s.coins.utxos[o]? = some output ∧
      ∃ authorization ∈ body.authorizations, S.Signs tx output.address authorization := by
  have hfrom : ∀ tx ∈ body.transactions, ∃ filled, FilledFrom s tx filled := by
    intro tx htx
    obtain ⟨k, hk, rfl⟩ := List.getElem_of_mem htx
    exact ⟨_, hfilled.get hk (hfilled.length_eq ▸ hk)⟩
  obtain ⟨filled, hfilledTx⟩ := hfrom tx htx
  have hlength := length_spentBy hfilledTx
  obtain ⟨j, hj, rfl⟩ := List.getElem_of_mem ho
  have hj' : j < (spentBy s tx).length := hlength ▸ hj
  have hj'' : j < found.authorizations.length := hat.length ▸ hj
  have houtput : s.coins.utxos[tx.inputs[j]]? = some (spentBy s tx)[j] := by
    have hspent := hfilledTx.spent
    rw [spent_eq_spentBy hfilledTx] at hspent
    exact hspent.get hj hj'
  have hpair : (found.authorizations[j], (spentBy s tx)[j]) ∈
      found.authorizations.zip (spentBy s tx) := by
    have hlt : j < (found.authorizations.zip (spentBy s tx)).length := by
      rw [List.length_zip]
      exact Nat.lt_min.mpr ⟨hj'', hj'⟩
    have hget := List.getElem_mem hlt
    rwa [List.getElem_zip] at hget
  have hflat : (found.authorizations[j], (spentBy s tx)[j]) ∈
      body.authorizations.zip (filledTxs.flatMap FilledTransaction.spentUtxos) := by
    rw [flatMap_spentBy hfilled, zip_flatMap_of_authorize hsplit]
    · refine List.mem_flatMap.mpr ⟨found, hfound, ?_⟩
      rw [hat.transaction]
      exact hpair
    · intro tx' htx'
      obtain ⟨filled', hfilled'⟩ := hfrom tx' htx'
      exact length_spentBy hfilled'
  have hauthorization : found.authorizations[j] ∈ found.authorizations := List.getElem_mem hj''
  exact ⟨_, houtput, _, hat.mem _ hauthorization, haddresses _ hflat,
    SignatureScheme.verified_of_verifyAuthorizations hverified hsplit htx hfound hat
      hauthorization⟩

omit [F64 F] in
theorem filled_at {L : Library F} {s : State F} {body : Body F}
    {filledTxs : List (FilledTransaction F)} (h : fillTransactions L s body = .ok filledTxs)
    {i : Nat} {tx : Transaction F} (hi : body.transactions[i]? = some tx) :
    ∃ filled ∈ filledTxs, FilledFrom s tx filled ∧
      filled.actorAddress = body.actorProofs[i]?.join.map L.getAddress := by
  simp only [fillTransactions, bind_eq_ok_iff, mapM_eq_ok_iff, Except.ok.injEq] at h
  obtain ⟨filled, hfilled, rfl⟩ := h
  obtain ⟨hlt, rfl⟩ := List.getElem?_eq_some_iff.mp hi
  have hlt' : i < filled.length := hfilled.length_eq ▸ hlt
  have hfrom := filledFrom_of_fillTransaction (hfilled.get hlt hlt')
  refine ⟨_, List.mem_mapIdx.mpr ⟨i, hlt', rfl⟩, ⟨hfrom.transaction, hfrom.spent⟩, ?_⟩
  rw [actorAddress]
  cases body.actorProofs[i]? <;> rfl

theorem verified_of_prevalidate {S : SignatureScheme F} {L : Library F}
    {config : DecisionConfig} {archive : Archive} {s : State F} {header : Header}
    {body : Body F} {pre : PrevalidatedBlock F}
    (h : prevalidate (S.library L) config archive s header body = .ok pre) :
    fillTransactions (S.library L) s body = .ok pre.filledTransactions ∧
      S.verifyBody body = .ok () := by
  simp only [prevalidate, validateAuthorizations, bind_eq_ok_iff, ensure_eq_ok_iff,
    forM_eq_ok_iff, Except.ok.injEq] at h
  obtain ⟨_, -, _, -, _, -, _, -, _, -, _, -, filledTxs, hfills, _, -, _, -, _, -, _,
    ⟨_, -, _, -, hverified⟩, rfl⟩ := h
  refine ⟨hfills, ?_⟩
  obtain ⟨_, hbody⟩ := isOk_eq_true_iff.mp hverified
  exact hbody

/-- In a validated block, every owner of an input and everyone a transaction acts for has signed
that very transaction. -/
theorem signed_of_prevalidate {S : SignatureScheme F} {L : Library F} {config : DecisionConfig}
    {archive : Archive} {s : State F} {header : Header} {body : Body F}
    {pre : PrevalidatedBlock F}
    (h : prevalidate (S.library L) config archive s header body = .ok pre) :
    ∀ (i : Nat) (tx : Transaction F), body.transactions[i]? = some tx →
      SignedByAll S s body tx body.actorProofs[i]?.join := by
  have hpre := prevalidated_of_prevalidate h
  obtain ⟨hfills, hbody⟩ := verified_of_prevalidate h
  simp only [SignatureScheme.verifyBody, bind_eq_ok_iff, okOr_eq_ok_iff, forM_eq_ok_iff] at hbody
  obtain ⟨_, hverified, authorized, hsplit, hproofs⟩ := hbody
  intro i tx hi
  obtain ⟨found, hfound, hat⟩ := authorizedAt_of_authorize hsplit hi
  have howners : ∀ o ∈ tx.inputs, ∃ output, s.coins.utxos[o]? = some output ∧
      ∃ authorization ∈ body.authorizations, S.Signs tx output.address authorization := by
    intro o ho
    exact owner_signed hpre.filled hpre.signed hverified hsplit (List.mem_of_getElem? hi) hfound
      hat ho
  refine ⟨howners, ?_⟩
  intro data hdata address ha
  obtain ⟨filled, hmem, hfrom, hactor⟩ := filled_at hfills hi
  have hvalid := hpre.validTxData hmem (hfrom.transaction ▸ hdata)
  rcases provesIdentity_of_valid hvalid ha with ⟨utxo, hutxo, rfl⟩ | hproof
  · left
    rw [spent_eq_spentBy hfrom] at hutxo
    obtain ⟨o, ho, hlookup⟩ := List.mem_filterMap.mp hutxo
    obtain ⟨output, houtput, hsigned⟩ := howners o ho
    obtain rfl := Option.some.inj (hlookup.symm.trans houtput)
    exact ⟨o, ho, utxo, houtput, rfl, hsigned⟩
  · right
    rw [hactor, Option.map_eq_some_iff] at hproof
    obtain ⟨proof, hproof, haddress⟩ := hproof
    have hsigned := SignatureScheme.verified_of_verifyActorProof (hproofs found hfound)
      (hat.actorProof.trans hproof)
    rw [hat.transaction] at hsigned
    exact ⟨proof, hproof, haddress, hsigned⟩

section

open Truthcoin.SampleChain Truthcoin.SampleMarkets Truthcoin.Commitments Truthcoin.BlockTemplate

/-- Addresses are keys, and a message is signed by its length. -/
def lengthScheme : SignatureScheme Rat where
  getAddress key := key
  serialize tx := some tx.memo
  verify authorization msg := authorization.signature = msg.length
  verifyBatch items :=
    decide (items ≠ [] ∧ ∀ item ∈ items, decide (item.1.signature = item.2.length) = true)
  verifyBatch_iff _ := decide_eq_true_iff

/-- The owner signs the amplification as the owner of its input, and as the author. -/
def signedBody : Body Rat :=
  { (blockAt 3 [amplifying]).body with
    authorizations := [⟨owner, 4⟩]
    actorProofs := [some ⟨owner, 4⟩] }

theorem signed_of_prevalidate_amplifying :
    ∃ (s : State Rat) (pre : PrevalidatedBlock Rat),
      runBlocks marketConfig 5 amplifyBlocks = .ok s ∧
      prevalidate (lengthScheme.library chainLibrary) marketConfig emptyArchive s
        (blockAt 3 [amplifying]).header signedBody = .ok pre ∧
      SignedByAll lengthScheme s signedBody amplifying (some ⟨owner, 4⟩) := by
  have hcomputed : holds (runBlocks marketConfig 5 amplifyBlocks) (fun s =>
      holds (prevalidate (lengthScheme.library chainLibrary) marketConfig emptyArchive s
        (blockAt 3 [amplifying]).header signedBody) fun _ => true) = true := by
    decide +kernel
  obtain ⟨s, hs, htest⟩ := holds_iff.mp hcomputed
  obtain ⟨pre, hpre, -⟩ := holds_iff.mp htest
  exact ⟨s, pre, hs, hpre, signed_of_prevalidate hpre 0 amplifying rfl⟩

end

end Truthcoin.Authorizing
