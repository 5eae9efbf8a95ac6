import Truthcoin.Authorizations
import Truthcoin.ClaimPaths

/-!
# Admission and inclusion

A transaction enters the pool through `validateTransaction`, and a block through
`prevalidate`. The checks are the same but for the height that claims are checked at, the
outputs that the transaction spends twice and the size of the block.
-/

namespace Truthcoin.Authorizing

open Truthcoin.Types Truthcoin.Fallible Truthcoin.Blocks Truthcoin.Mempool

variable {F : Type}

/-- The block whose only transaction is the given one. -/
def bodyOf (memo : List UInt8) (tx : AuthorizedTransaction F) : Body F :=
  ⟨⟨memo, []⟩, [tx.transaction], tx.authorizations, [tx.actorProof]⟩

namespace SignatureScheme

section

variable (S : SignatureScheme F)

/-- Verify the signatures of a transaction as one batch. -/
def verifyAuthorizedTransaction (tx : AuthorizedTransaction F) :
    Except AuthorizationError Unit := do
  ensure (tx.authorizations.length = tx.transaction.inputs.length)
    (.signatureCountMismatch tx.transaction.inputs.length tx.authorizations.length)
  if tx.authorizations = [] then .ok ()
  else do
    let msg ← S.txMsgCanonical tx.transaction
    ensure (S.verifyBatch (tx.authorizations.map fun authorization => (authorization, msg)) = true)
      .signatureVerification

def verifyTransaction (tx : AuthorizedTransaction F) : Except AuthorizationError Unit := do
  S.verifyAuthorizedTransaction tx
  S.verifyActorProof tx

/-- There is a signature of the transaction for each of its inputs. -/
def SignedInputs (tx : AuthorizedTransaction F) : Prop :=
  tx.authorizations.length = tx.transaction.inputs.length ∧
    (tx.authorizations ≠ [] → ∃ msg, S.txMsgCanonical tx.transaction = .ok msg ∧
      ∀ authorization ∈ tx.authorizations, S.verify authorization msg = true)

end

variable {S : SignatureScheme F} {tx : AuthorizedTransaction F} {memo : List UInt8}

theorem verifyAuthorizedTransaction_eq_ok_iff :
    S.verifyAuthorizedTransaction tx = .ok () ↔ S.SignedInputs tx := by
  rw [verifyAuthorizedTransaction, SignedInputs]
  simp only [bind_eq_ok_iff, ensure_eq_ok_iff, exists_const]
  apply and_congr_right
  intro _
  split
  · rename_i hnone
    exact ⟨fun _ hne => absurd hnone hne, fun _ => rfl⟩
  · rename_i hne
    simp only [bind_eq_ok_iff, ensure_eq_ok_iff, S.verifyBatch_iff, ne_eq, List.map_eq_nil_iff,
      List.forall_mem_map, hne, not_false_eq_true, true_and, forall_const]

theorem messages_singleton (tx : Transaction F) :
    S.messages [tx] = (S.txMsgCanonical tx).map (List.replicate tx.inputs.length) := by
  rw [messages, List.mapM_cons, List.mapM_nil]
  cases S.txMsgCanonical tx with
  | error e => rfl
  | ok msg => exact congrArg Except.ok (List.append_nil _)

theorem verifyAuthorizations_bodyOf_iff :
    S.verifyAuthorizations (bodyOf memo tx) = .ok () ↔ S.SignedInputs tx := by
  have htotal : ((bodyOf memo tx).transactions.map fun tx => tx.inputs.length).sum =
      tx.transaction.inputs.length := Nat.add_zero _
  rw [verifyAuthorizations, SignedInputs, htotal]
  simp only [bind_eq_ok_iff, ensure_eq_ok_iff, exists_const]
  apply and_congr_right
  intro hlength
  have hlength : tx.authorizations.length = tx.transaction.inputs.length := hlength
  split
  · rename_i hnone
    have hempty := List.length_eq_zero_iff.mp (hlength.trans hnone)
    exact ⟨fun _ hne => absurd hempty hne, fun _ => rfl⟩
  · rename_i hsome
    have hne : tx.authorizations ≠ [] := by
      rintro hempty
      rw [hempty] at hlength
      exact hsome hlength.symm
    have hzip : ∀ msg : List UInt8, tx.authorizations.zip
        (List.replicate tx.transaction.inputs.length msg) =
          tx.authorizations.map fun authorization => (authorization, msg) := by
      intro msg
      rw [← hlength, ← List.map_const', List.zip_map_right, List.zip_eq_zipWith]
      simp [List.zipWith_self]
    simp only [bind_eq_ok_iff, forM_eq_ok_iff, ensure_eq_ok_iff, forall_verifyBatch_iff]
    show (∃ messages, S.messages [tx.transaction] = _ ∧
      ∀ item ∈ tx.authorizations.zip messages, _) ↔ _
    rw [messages_singleton]
    constructor
    · rintro ⟨messages, hmessages, hverified⟩ -
      cases hmsg : S.txMsgCanonical tx.transaction with
      | error e =>
          rw [hmsg] at hmessages
          cases hmessages
      | ok msg =>
          rw [hmsg] at hmessages
          obtain rfl := Except.ok.inj hmessages
          rw [hzip] at hverified
          exact ⟨msg, rfl, fun authorization hmem =>
            hverified _ (List.mem_map.mpr ⟨authorization, hmem, rfl⟩)⟩
    · intro h
      obtain ⟨msg, hmsg, hverified⟩ := h hne
      refine ⟨_, by rw [hmsg]; rfl, ?_⟩
      rw [hzip]
      intro item hitem
      obtain ⟨authorization, hmem, rfl⟩ := List.mem_map.mp hitem
      exact hverified authorization hmem

theorem verifyBody_bodyOf_iff :
    S.verifyBody (bodyOf memo tx) = .ok () ↔ S.verifyTransaction tx = .ok () := by
  rw [verifyBody, verifyTransaction]
  simp only [bind_eq_ok_iff, okOr_eq_ok_iff, forM_eq_ok_iff]
  constructor
  · rintro ⟨_, hinputs, txs, hsplit, hproofs⟩
    have hsigned := verifyAuthorizations_bodyOf_iff.mp hinputs
    refine ⟨(), verifyAuthorizedTransaction_eq_ok_iff.mpr hsigned, ?_⟩
    obtain ⟨hle, rest, hrest, rfl⟩ := authorize_cons_eq_some hsplit
    have htake : (bodyOf memo tx).authorizations.take tx.transaction.inputs.length =
        tx.authorizations := List.take_of_length_le hsigned.1.le
    rw [htake] at hproofs
    exact hproofs _ List.mem_cons_self
  · rintro ⟨_, hinputs, hproof⟩
    have hsigned := verifyAuthorizedTransaction_eq_ok_iff.mp hinputs
    have hsplit : authorizedTransactions (bodyOf memo tx) = some [tx] := by
      show authorize [tx.transaction] tx.authorizations [tx.actorProof] = _
      rw [authorize, if_neg hsigned.1.not_lt, List.take_of_length_le hsigned.1.le]
      rfl
    refine ⟨(), verifyAuthorizations_bodyOf_iff.mpr hsigned, [tx], hsplit, ?_⟩
    intro tx' htx'
    rw [List.mem_singleton.mp htx']
    exact hproof

end SignatureScheme

end Truthcoin.Authorizing

namespace Truthcoin.Admission

open Truthcoin.Types Truthcoin.Table Truthcoin.Fallible Truthcoin.Arithmetic
open Truthcoin.Decisions Truthcoin.Markets Truthcoin.Voting Truthcoin.Blocks
open Truthcoin.Mempool Truthcoin.Validation Truthcoin.Authorizing Truthcoin.ClaimPaths
open Truthcoin.BlockChecks

variable {F : Type} [F64 F]

section

variable (S : SignatureScheme F) (L : Library F) (config : DecisionConfig) (archive : Archive)

/-- Fill a transaction, with the address that its actor proof authenticates. -/
def fillAuthorized (s : State F) (tx : AuthorizedTransaction F) :
    Except Error (FilledTransaction F) := do
  let filled ← s.fillTransaction tx.transaction
  .ok { filled with actorAddress := tx.actorProof.map (S.library L).getAddress }

/-- Check a transaction for the pool and return its fee. -/
def validateTransaction (s : State F) (tx : AuthorizedTransaction F) : Except Error Nat := do
  let filled ← fillAuthorized S L s tx
  ensure (tx.authorizations.length = filled.spentUtxos.length) .authorizationError
  (tx.authorizations.zip filled.spentUtxos).forM fun entry =>
    ensure ((S.library L).getAddress entry.1 = entry.2.address) .wrongPubKeyForAddress
  ensure ((S.verifyTransaction tx).isOk = true) .authorizationError
  validateFilledTransaction (S.library L) config archive s filled none

/-- A header that matches the block whose only transaction is the given one. -/
def headerOf (s : State F) (memo : List UInt8) (tx : AuthorizedTransaction F)
    (prevMainHash : MainBlockHash) : Header :=
  ⟨L.merkleRoot ⟨memo, []⟩ [tx.transaction], s.tip, prevMainHash⟩

/-- The pool accepts a transaction if and only if it can be the only one of the next block,
and it pays the same fee in both. -/
structure AdmittedAsIncluded (s : State F) (memo : List UInt8) (prevMainHash : MainBlockHash)
    (tx : AuthorizedTransaction F) : Prop where
  accepted : (∃ fee, validateTransaction S L config archive s tx = .ok fee) ↔
    ∃ pre, prevalidate (S.library L) config archive s (headerOf L s memo tx prevMainHash)
      (bodyOf memo tx) = .ok pre
  fee : ∀ fee pre, validateTransaction S L config archive s tx = .ok fee →
    prevalidate (S.library L) config archive s (headerOf L s memo tx prevMainHash)
      (bodyOf memo tx) = .ok pre →
    pre.filledTransactions.map FilledTransaction.blockFee = [.ok fee]

end

section

variable {L : Library F} {config : DecisionConfig} {archive : Archive} {db : Dbs F} {s : State F}
  {tx : FilledTransaction F} {maker : Address} {ctx : ClaimContext}
  {acc acc' : PendingTypes F × Nat} {payload : ClaimDecisionPayload F}

/-- The checks of a new claim that do not ask for the current period. -/
structure NewClaim (db : Dbs F) (maker : Address) (acc : PendingTypes F × Nat)
    (payload : ClaimDecisionPayload F) (acc' : PendingTypes F × Nat) (fee : Nat) : Prop where
  claimable : Claimable db maker payload fee
  total : checkedAdd acc.2 fee = some acc'.2
  pending : payload.decisions.foldlM (addPendingClaim db payload.decisionType) acc.1 = .ok acc'.1

/-- The checks of all new claims of a market, from one pending state to another. -/
def NewClaims (db : Dbs F) (maker : Address) : List (ClaimDecisionPayload F) →
    PendingTypes F × Nat → PendingTypes F × Nat → Prop
  | [], acc, acc' => acc = acc'
  | payload :: payloads, acc, acc' =>
      ∃ mid fee, NewClaim db maker acc payload mid fee ∧ NewClaims db maker payloads mid acc'

theorem validateNewClaim_iff :
    validateNewClaim config db ctx maker acc payload = .ok acc' ↔
      (∃ fee, NewClaim db maker acc payload acc' fee) ∧ PayloadOpen config ctx payload := by
  simp only [validateNewClaim, bind_eq_ok_iff, okOr_eq_ok_iff, Except.ok.injEq,
    validateClaimPayload_eq_ok_iff]
  constructor
  · rintro ⟨fee, ⟨hclaim, hopen⟩, total, htotal, pending, hpending, rfl⟩
    exact ⟨⟨fee, hclaim, htotal, hpending⟩, hopen⟩
  · rintro ⟨⟨fee, hclaim, htotal, hpending⟩, hopen⟩
    exact ⟨fee, ⟨hclaim, hopen⟩, _, htotal, _, hpending, rfl⟩

theorem foldlM_validateNewClaim_iff {payloads : List (ClaimDecisionPayload F)} :
    payloads.foldlM (validateNewClaim config db ctx maker) acc = .ok acc' ↔
      NewClaims db maker payloads acc acc' ∧ ∀ p ∈ payloads, PayloadOpen config ctx p := by
  induction payloads generalizing acc with
  | nil => simp [NewClaims]
  | cons payload payloads ih =>
      rw [List.foldlM_cons, bind_eq_ok_iff, List.forall_mem_cons]
      simp only [validateNewClaim_iff, ih]
      constructor
      · rintro ⟨mid, ⟨⟨fee, hfirst⟩, hopen⟩, hrest, hopens⟩
        exact ⟨⟨mid, fee, hfirst, hrest⟩, hopen, hopens⟩
      · rintro ⟨⟨mid, fee, hfirst, hrest⟩, hopen, hopens⟩
        exact ⟨mid, ⟨⟨fee, hfirst⟩, hopen⟩, hrest, hopens⟩

/-- The checks of a claim of its own that do not ask for the current period. -/
def ClaimTerms (s : State F) (tx : FilledTransaction F) (payload : ClaimDecisionPayload F) :
    Prop :=
  ∃ maker fee, validateMakerAuth tx = .ok maker ∧ Claimable s.decisions maker payload fee ∧
    PaysListingFee tx fee

/-- The checks of a new market that do not ask for the current period. -/
structure MarketTerms (L : Library F) (s : State F) (tx : FilledTransaction F)
    (creation : MarketCreation F) (maker : Address) (acc : PendingTypes F × Nat) : Prop where
  made : validateMakerAuth tx = .ok maker
  claims : NewClaims s.decisions maker creation.newClaims ([], 0) acc
  dimensions : creation.dimensionSpecs ≠ []
  valid : ∀ spec ∈ creation.dimensionSpecs, validateDimension s.decisions acc.1 spec = .ok ()
  tradingFee : ∀ fee, creation.tradingFee = some fee → inUnitInterval fee = true
  pow : validateTxPowConfig creation = .ok ()
  treasury : ∃ amount, tx.transaction.outputs.findSome? (treasuryAmount
    (L.computeMarketId creation.title creation.description maker creation.dimensionSpecs)) =
      some amount ∧ amount ≠ 0
  fee : PaysListingFee tx acc.2

theorem validateMarketCreation_iff {creation : MarketCreation F} {overrideHeight : Option Nat} :
    validateMarketCreation L config s tx creation overrideHeight = .ok () ↔
      (∃ maker acc, MarketTerms L s tx creation maker acc) ∧
        ∀ p ∈ creation.newClaims, PayloadOpen config (ClaimContext.ofDbs overrideHeight) p := by
  simp only [validateMarketCreation, bind_eq_ok_iff, foldlM_validateNewClaim_iff,
    ensure_eq_ok_iff, forM_eq_ok_iff, option_forM_eq_ok_iff, okOr_eq_ok_iff,
    checkListingFee_eq_ok_iff]
  constructor
  · rintro ⟨maker, hmaker, acc, ⟨hclaims, hopen⟩, _, hdims, _, hvalid, _, hfee, _, hpow,
      amount, hamount, _, hpositive, hpaid⟩
    exact ⟨⟨maker, acc, hmaker, hclaims, hdims, hvalid, hfee, hpow, ⟨amount, hamount, hpositive⟩,
      hpaid⟩, hopen⟩
  · rintro ⟨⟨maker, acc, h⟩, hopen⟩
    obtain ⟨amount, hamount, hpositive⟩ := h.treasury
    exact ⟨maker, h.made, acc, ⟨h.claims, hopen⟩, (), h.dimensions, (), h.valid, (),
      h.tradingFee, (), h.pow, amount, hamount, (), hpositive, h.fee⟩

theorem validateCompleteDecisionClaim_iff {overrideHeight : Option Nat} :
    validateCompleteDecisionClaim config s tx payload overrideHeight = .ok () ↔
      ClaimTerms s tx payload ∧
        PayloadOpen config (ClaimContext.ofState s overrideHeight) payload := by
  simp only [validateCompleteDecisionClaim_eq_ok_iff, AcceptedAlone,
    validateClaimPayload_eq_ok_iff]
  constructor
  · rintro ⟨fee, ⟨maker, hmaker, hclaim, hopen⟩, hpaid⟩
    exact ⟨⟨maker, fee, hmaker, hclaim, hpaid⟩, hopen⟩
  · rintro ⟨⟨maker, fee, hmaker, hclaim, hpaid⟩, hopen⟩
    exact ⟨fee, ⟨maker, hmaker, hclaim, hopen⟩, hpaid⟩

/-- The checks of a transaction's data that do not ask for the current period. -/
def Terms (L : Library F) (archive : Archive) (s : State F) (tx : FilledTransaction F) :
    TxData F → Prop
  | .claimDecision payload => ClaimTerms s tx payload
  | .createMarket creation => ∃ maker acc, MarketTerms L s tx creation maker acc
  | .trade trade => validateTrade L archive s tx trade = .ok ()
  | .submitVote vote => validateVoteSubmission s tx vote = .ok ()
  | .submitBallot ballot => validateBallot s tx ballot = .ok ()
  | .transferReputation transfer => validateReputationTransfer s tx transfer = .ok ()
  | .amplifyBeta amplify => validateAmplifyBeta s tx amplify = .ok ()

/-- The decisions that a transaction claims are all in open periods, as the height is known to
the state for a claim, and as it is known to the decisions database for the new claims of a
market. -/
def ClaimsOpen (config : DecisionConfig) (s : State F) (overrideHeight : Option Nat) :
    TxData F → Prop
  | .claimDecision payload => PayloadOpen config (ClaimContext.ofState s overrideHeight) payload
  | .createMarket creation =>
      ∀ p ∈ creation.newClaims, PayloadOpen config (ClaimContext.ofDbs overrideHeight) p
  | _ => True

theorem validateTxData_iff {overrideHeight : Option Nat} {data : TxData F} :
    validateTxData L config archive s tx overrideHeight data = .ok () ↔
      Terms L archive s tx data ∧ ClaimsOpen config s overrideHeight data := by
  cases data with
  | claimDecision payload => exact validateCompleteDecisionClaim_iff
  | createMarket creation => exact validateMarketCreation_iff
  | trade trade => exact (and_iff_left trivial).symm
  | submitVote vote => exact (and_iff_left trivial).symm
  | submitBallot ballot => exact (and_iff_left trivial).symm
  | transferReputation transfer => exact (and_iff_left trivial).symm
  | amplifyBeta amplify => exact (and_iff_left trivial).symm

omit [F64 F] in
theorem get_cons_eq_none_iff {d d' : DecisionId} {decisionType : DecisionType F}
    {pending : PendingTypes F} :
    PendingTypes.get ((d, decisionType) :: pending) d' = none ↔ d ≠ d' ∧ pending.get d' = none := by
  simp [PendingTypes.get, List.find?_eq_none]

omit [F64 F] in
theorem addPendingClaim_eq_ok {pending pending' : PendingTypes F} {decisionType : DecisionType F}
    {entry : DecisionClaimEntry}
    (h : addPendingClaim db decisionType pending entry = .ok pending') :
    pending.get entry.decisionIdBytes = none ∧
      pending' = (entry.decisionIdBytes, decisionType) :: pending := by
  simp only [addPendingClaim, DecisionId.fromBytes_eq, ok_bind, bind_eq_ok_iff, ensure_eq_ok_iff,
    Except.ok.injEq] at h
  obtain ⟨_, hfresh, _, -, rfl⟩ := h
  exact ⟨hfresh, rfl⟩

theorem NewClaims.fresh {payloads : List (ClaimDecisionPayload F)}
    (h : NewClaims db maker payloads acc acc') :
    (payloads.flatMap fun p => p.decisions.map DecisionClaimEntry.decisionIdBytes).Nodup ∧
      ∀ d ∈ payloads.flatMap fun p => p.decisions.map DecisionClaimEntry.decisionIdBytes,
        acc.1.get d = none := by
  induction payloads generalizing acc with
  | nil => exact ⟨List.nodup_nil, by simp⟩
  | cons payload payloads ih =>
      obtain ⟨mid, fee, hfirst, hrest⟩ := h
      obtain ⟨hnodup, hfresh⟩ := ih hrest
      obtain ⟨entry, hentry⟩ := single_of_validateClaimShape hfirst.claimable.shape
      have hpending := hfirst.pending
      rw [hentry, List.foldlM_cons, bind_eq_ok_iff] at hpending
      obtain ⟨pending, hadd, hmid⟩ := hpending
      obtain ⟨hnew, rfl⟩ := addPendingClaim_eq_ok hadd
      rw [← Except.ok.inj hmid] at hfresh
      have hrest' : ∀ d ∈ payloads.flatMap fun p =>
          p.decisions.map DecisionClaimEntry.decisionIdBytes,
          entry.decisionIdBytes ≠ d ∧ acc.1.get d = none :=
        fun d hd => get_cons_eq_none_iff.mp (hfresh d hd)
      rw [List.flatMap_cons, hentry, List.map_cons, List.map_nil, List.singleton_append]
      constructor
      · exact List.nodup_cons.mpr ⟨fun hmem => (hrest' _ hmem).1 rfl, hnodup⟩
      · intro d hd
        rcases List.mem_cons.mp hd with rfl | hd
        · exact hnew
        · exact (hrest' d hd).2

theorem Terms.nodup {transaction : Transaction F}
    (h : ∀ data, transaction.data = some data → Terms L archive s tx data) :
    transaction.claimedIds.Nodup := by
  obtain ⟨inputs, outputs, memo, data⟩ := transaction
  cases data with
  | none => exact List.nodup_nil
  | some data =>
      have hterms := h data rfl
      cases data with
      | claimDecision payload =>
          obtain ⟨maker, fee, -, hclaim, -⟩ := hterms
          obtain ⟨entry, hentry⟩ := single_of_validateClaimShape hclaim.shape
          show ([payload].flatMap _).Nodup
          rw [List.flatMap_singleton, hentry]
          exact List.nodup_singleton _
      | createMarket creation =>
          obtain ⟨maker, acc, hmarket⟩ := hterms
          exact hmarket.claims.fresh.1
      | trade _ | submitVote _ | submitBallot _ | transferReputation _ | amplifyBeta _ =>
          exact List.nodup_nil

end

omit [F64 F] in
theorem checkDuplicateDecisionClaims_of_nodup {txs : List (Transaction F)}
    (h : (txs.flatMap Transaction.claimedIds).Nodup) :
    checkDuplicateDecisionClaims txs = .ok () := by
  simp only [checkDuplicateDecisionClaims, bind_eq_ok_iff, and_true]
  generalize txs.flatMap Transaction.claimedIds = ids at h
  suffices hgen : ∀ start : List DecisionId, (∀ d ∈ ids, d ∉ start) →
      ∃ seen, ids.foldlM (fun seen d => do
        ensure (d ∉ seen) (Error.duplicateDecisionClaim d.toNat)
        Except.ok (d :: seen)) start = .ok seen from
    hgen [] fun _ _ => List.not_mem_nil
  induction ids with
  | nil => exact fun start _ => ⟨start, rfl⟩
  | cons d ids ih =>
      intro start hstart
      obtain ⟨hd, hids⟩ := List.nodup_cons.mp h
      rw [List.foldlM_cons, ensure_pos (hstart d List.mem_cons_self), ok_bind, ok_bind]
      apply ih hids
      intro d' hd' hmem
      rcases List.mem_cons.mp hmem with rfl | hmem
      · exact hd hd'
      · exact hstart d' (List.mem_cons_of_mem _ hd') hmem

section

variable (S : SignatureScheme F) (L : Library F) (config : DecisionConfig) (archive : Archive)
  (s : State F) (tx : AuthorizedTransaction F)

/-- The checks of a transaction that depend neither on the height nor on the block. -/
structure Sound (filled : FilledTransaction F) (fee : Nat) : Prop where
  fills : fillAuthorized S L s tx = .ok filled
  authorized : tx.authorizations.length = filled.spentUtxos.length
  owners : ∀ entry ∈ tx.authorizations.zip filled.spentUtxos,
    (S.library L).getAddress entry.1 = entry.2.address
  verified : S.verifyTransaction tx = .ok ()
  plain : ∀ entry ∈ tx.transaction.inputs.zip filled.spentUtxos,
    entry.2.content.isWithdrawal = false
  terms : ∀ data, tx.transaction.data = some data → Terms (S.library L) archive s filled data
  fee : filled.blockFee = .ok fee

/-- The claims of the transaction are open at the given height. -/
def OpenAtHeight (overrideHeight : Option Nat) : Prop :=
  ∀ data, tx.transaction.data = some data → ClaimsOpen config s overrideHeight data

/-- What only a block checks: the transaction spends no output twice, the block is not too
large, and the claims are open at its height. -/
structure FitsNextBlock (memo : List UInt8) : Prop where
  inputs : tx.transaction.inputs.Nodup
  size : ∃ size, L.bodySize (bodyOf memo tx) = some size ∧ size ≤ maxBodySize
  claims : ∃ height, s.height.elim (.ok 0) (fun height => addU32 height 1) = .ok height ∧
    OpenAtHeight config s tx (some height)

end

section

variable {S : SignatureScheme F} {L : Library F} {config : DecisionConfig} {archive : Archive}
  {s : State F} {tx : AuthorizedTransaction F} {filled : FilledTransaction F} {fee : Nat}
  {memo : List UInt8} {prevMainHash : MainBlockHash}

omit [F64 F] in
theorem transaction_of_fillAuthorized (h : fillAuthorized S L s tx = .ok filled) :
    filled.transaction = tx.transaction := by
  simp only [fillAuthorized, bind_eq_ok_iff, Except.ok.injEq] at h
  obtain ⟨found, hfound, rfl⟩ := h
  exact (filledFrom_of_fillTransaction hfound).transaction

theorem validateFilledTransaction_iff {overrideHeight : Option Nat}
    (hfilled : filled.transaction = tx.transaction) :
    validateFilledTransaction (S.library L) config archive s filled overrideHeight = .ok fee ↔
      (∀ entry ∈ tx.transaction.inputs.zip filled.spentUtxos,
        entry.2.content.isWithdrawal = false) ∧
      (∀ data, tx.transaction.data = some data → Terms (S.library L) archive s filled data) ∧
      OpenAtHeight config s tx overrideHeight ∧ filled.blockFee = .ok fee := by
  simp only [validateFilledTransaction, bind_eq_ok_iff, forM_eq_ok_iff, ensure_eq_ok_iff,
    option_forM_eq_ok_iff, validateTxData_iff, hfilled, OpenAtHeight]
  constructor
  · rintro ⟨_, hplain, _, hdata, hfee⟩
    exact ⟨hplain, fun data h => (hdata data h).1, fun data h => (hdata data h).2, hfee⟩
  · rintro ⟨hplain, hterms, hopen, hfee⟩
    exact ⟨(), hplain, (), fun data h => ⟨hterms data h, hopen data h⟩, hfee⟩

theorem validateTransaction_eq_ok_iff :
    validateTransaction S L config archive s tx = .ok fee ↔
      (∃ filled, Sound S L archive s tx filled fee) ∧ OpenAtHeight config s tx none := by
  simp only [validateTransaction, bind_eq_ok_iff, forM_eq_ok_iff, ensure_eq_ok_iff,
    isOk_eq_true_iff]
  constructor
  · rintro ⟨filled, hfilled, _, hlength, _, howners, _, ⟨_, hverified⟩, hvalid⟩
    obtain ⟨hplain, hterms, hopen, hfee⟩ :=
      (validateFilledTransaction_iff (transaction_of_fillAuthorized hfilled)).mp hvalid
    exact ⟨⟨filled, hfilled, hlength, howners, hverified, hplain, hterms, hfee⟩, hopen⟩
  · rintro ⟨⟨filled, h⟩, hopen⟩
    exact ⟨filled, h.fills, (), h.authorized, (), h.owners, (), ⟨(), h.verified⟩,
      (validateFilledTransaction_iff (transaction_of_fillAuthorized h.fills)).mpr
        ⟨h.plain, h.terms, hopen, h.fee⟩⟩

omit [F64 F] in
theorem fillTransactions_bodyOf :
    fillTransactions (S.library L) s (bodyOf memo tx) =
      (fillAuthorized S L s tx).map fun filled => [filled] := by
  have hactor : ((bodyOf memo tx).actorProofs[0]?.bind id) = tx.actorProof := rfl
  rw [fillTransactions, fillAuthorized]
  show ([tx.transaction].mapM s.fillTransaction >>= _) = _
  rw [List.mapM_cons, List.mapM_nil]
  cases s.fillTransaction tx.transaction with
  | error e => rfl
  | ok filled => rfl

omit [F64 F] in
theorem verifyBody_library_iff :
    (S.library L).verifyBody (bodyOf memo tx) = true ↔ S.verifyTransaction tx = .ok () := by
  rw [← S.verifyBody_bodyOf_iff]
  show (S.verifyBody (bodyOf memo tx)).isOk = true ↔ _
  rw [isOk_eq_true_iff]
  exact ⟨fun ⟨_, h⟩ => h, fun h => ⟨(), h⟩⟩

omit [F64 F] in
theorem length_of_fillAuthorized (h : fillAuthorized S L s tx = .ok filled) :
    filled.spentUtxos.length = tx.transaction.inputs.length := by
  simp only [fillAuthorized, bind_eq_ok_iff, Except.ok.injEq] at h
  obtain ⟨found, hfound, rfl⟩ := h
  exact (filledFrom_of_fillTransaction hfound).spent.length_eq.symm

theorem sound_of_prevalidate {pre : PrevalidatedBlock F}
    (h : prevalidate (S.library L) config archive s (headerOf L s memo tx prevMainHash)
      (bodyOf memo tx) = .ok pre) :
    (∃ filled fee, Sound S L archive s tx filled fee ∧ pre.filledTransactions = [filled]) ∧
      FitsNextBlock L config s tx memo := by
  simp only [prevalidate, validateAuthorizations, bind_eq_ok_iff, ensure_eq_ok_iff,
    forM_eq_ok_iff, okOr_eq_ok_iff, Except.ok.injEq, fillTransactions_bodyOf,
    verifyBody_library_iff] at h
  obtain ⟨size, hsize, _, hmax, _, -, _, -, height, hheight, _, -, filledTxs, hfilled, _, hinputs,
    _, -, _, hvalid, _, ⟨_, hlength, _, howners, hverified⟩, rfl⟩ := h
  cases hfill : fillAuthorized S L s tx with
  | error e =>
      rw [hfill] at hfilled
      cases hfilled
  | ok filled =>
      rw [hfill] at hfilled
      obtain rfl := Except.ok.inj hfilled
      obtain ⟨fee, hfee, -⟩ := hvalid filled List.mem_cons_self
      obtain ⟨hplain, hterms, hopen, hfee⟩ :=
        (validateFilledTransaction_iff (transaction_of_fillAuthorized hfill)).mp hfee
      have hspent : [filled].flatMap FilledTransaction.spentUtxos = filled.spentUtxos :=
        List.append_nil _
      have hsingle : (bodyOf memo tx).transactions.flatMap Transaction.inputs =
          tx.transaction.inputs := List.append_nil _
      rw [hspent] at howners
      rw [hsingle] at hlength hinputs
      refine ⟨⟨filled, fee, ⟨hfill, ?_, howners, hverified, hplain, hterms, hfee⟩, rfl⟩,
        hinputs, ⟨size, hsize, hmax⟩, height, hheight, hopen⟩
      exact hlength.trans (length_of_fillAuthorized hfill).symm

theorem exists_prevalidate (h : Sound S L archive s tx filled fee)
    (hfits : FitsNextBlock L config s tx memo) :
    ∃ pre, prevalidate (S.library L) config archive s (headerOf L s memo tx prevMainHash)
      (bodyOf memo tx) = .ok pre := by
  obtain ⟨size, hsize, hmax⟩ := hfits.size
  obtain ⟨height, hheight, hopen⟩ := hfits.claims
  have htransaction := transaction_of_fillAuthorized h.fills
  have hspent : [filled].flatMap FilledTransaction.spentUtxos = filled.spentUtxos :=
    List.append_nil _
  have hsingle : (bodyOf memo tx).transactions.flatMap Transaction.inputs =
      tx.transaction.inputs := List.append_nil _
  have hclaims : checkDuplicateDecisionClaims (bodyOf memo tx).transactions = .ok () := by
    apply checkDuplicateDecisionClaims_of_nodup
    show ([tx.transaction].flatMap _).Nodup
    rw [List.flatMap_singleton]
    exact Terms.nodup h.terms
  have hvalid : validateFilledTransaction (S.library L) config archive s filled (some height) =
      .ok fee :=
    (validateFilledTransaction_iff htransaction).mpr ⟨h.plain, h.terms, hopen, h.fee⟩
  refine ⟨⟨[filled], L.merkleRoot ⟨memo, []⟩ [tx.transaction], 0, height⟩, ?_⟩
  simp only [prevalidate, validateAuthorizations, bind_eq_ok_iff, ensure_eq_ok_iff,
    forM_eq_ok_iff, okOr_eq_ok_iff, Except.ok.injEq, fillTransactions_bodyOf,
    verifyBody_library_iff]
  refine ⟨size, hsize, (), hmax, (), rfl, (), rfl, height, hheight, 0, rfl, [filled], ?_, (), ?_,
    (), hclaims, (), ?_, (), ⟨(), ?_, (), ?_, h.verified⟩, rfl⟩
  · rw [h.fills]
    rfl
  · rw [hsingle]
    exact hfits.inputs
  · intro filled' hfilled'
    rw [List.mem_singleton.mp hfilled']
    exact ⟨fee, hvalid, trivial⟩
  · rw [hsingle]
    exact h.authorized.trans (length_of_fillAuthorized h.fills)
  · rw [hspent]
    exact h.owners

/-- A transaction is treated alike by the pool and by the next block exactly when it fails a
check that has nothing to do with either, or its claims are open at the height of the pool if
and only if it fits in the next block. -/
theorem admittedAsIncluded_iff :
    AdmittedAsIncluded S L config archive s memo prevMainHash tx ↔
      ((∃ filled fee, Sound S L archive s tx filled fee) →
        (OpenAtHeight config s tx none ↔ FitsNextBlock L config s tx memo)) := by
  constructor
  · rintro h ⟨filled, fee, hsound⟩
    constructor
    · intro hopen
      obtain ⟨pre, hpre⟩ :=
        h.accepted.mp ⟨fee, validateTransaction_eq_ok_iff.mpr ⟨⟨filled, hsound⟩, hopen⟩⟩
      exact (sound_of_prevalidate hpre).2
    · intro hfits
      obtain ⟨fee', hfee'⟩ := h.accepted.mpr (exists_prevalidate hsound hfits)
      exact (validateTransaction_eq_ok_iff.mp hfee').2
  · intro h
    constructor
    · constructor
      · rintro ⟨fee, hfee⟩
        obtain ⟨⟨filled, hsound⟩, hopen⟩ := validateTransaction_eq_ok_iff.mp hfee
        exact exists_prevalidate hsound ((h ⟨filled, fee, hsound⟩).mp hopen)
      · rintro ⟨pre, hpre⟩
        obtain ⟨⟨filled, fee, hsound, -⟩, hfits⟩ := sound_of_prevalidate hpre
        exact ⟨fee, validateTransaction_eq_ok_iff.mpr
          ⟨⟨filled, hsound⟩, (h ⟨filled, fee, hsound⟩).mpr hfits⟩⟩
    · intro fee pre hfee hpre
      obtain ⟨⟨filled, hsound⟩, -⟩ := validateTransaction_eq_ok_iff.mp hfee
      obtain ⟨⟨filled', fee', hsound', hfilled'⟩, -⟩ := sound_of_prevalidate hpre
      obtain rfl := Except.ok.inj (hsound.fills.symm.trans hsound'.fills)
      rw [hfilled', List.map_singleton, hsound.fee]

end

section

open Truthcoin.SampleChain Truthcoin.Commitments Truthcoin.BlockRun Truthcoin.Connect

/-- Every block is a period of its own. -/
def blockPeriods : DecisionConfig := ⟨true, 1⟩

/-- The genesis block and one deposit. -/
def signedGenesis : Except Error (State Rat) := do
  let s ← applyBlock (lengthScheme.library chainLibrary) blockPeriods emptyArchive
    (State.empty Rat) (blockAt 0 [])
  s.connectTwoWayPegData sampleBundleLib (deposits 1)

/-- The deposit pays twice. -/
def spendingTwice : AuthorizedTransaction Rat :=
  ⟨⟨[.deposit 0 0, .deposit 0 0], [], [], none⟩, [⟨owner, 1⟩, ⟨owner, 1⟩], none⟩

/-- A claim for the last period of the window that opens with the next block. -/
def claimingAhead : AuthorizedTransaction Rat :=
  ⟨claiming 0 (BitVec.ofNat 24 (21 * 2 ^ 16)), [⟨owner, 1⟩], none⟩

/-- After the genesis block, the pool accepts a transaction that spends an output twice, and
refuses a claim that the next block may hold. -/
theorem not_admittedAsIncluded :
    ∃ (chain : List (Block Rat)) (s : State Rat),
      Chain (lengthScheme.library chainLibrary) blockPeriods sampleBundleLib (fun _ _ => True)
        (fun _ _ => True) chain s ∧ s.tip.isSome = true ∧
      ¬ AdmittedAsIncluded lengthScheme chainLibrary blockPeriods emptyArchive s [] 1
        spendingTwice ∧
      ¬ AdmittedAsIncluded lengthScheme chainLibrary blockPeriods emptyArchive s [] 1
        claimingAhead := by
  let pool (s : State Rat) (tx : AuthorizedTransaction Rat) : Bool :=
    (validateTransaction lengthScheme chainLibrary blockPeriods emptyArchive s tx).isOk
  let block (s : State Rat) (tx : AuthorizedTransaction Rat) : Bool :=
    (prevalidate (lengthScheme.library chainLibrary) blockPeriods emptyArchive s
      (headerOf chainLibrary s [] tx 1) (bodyOf [] tx)).isOk
  have hcomputed : holds signedGenesis (fun s => s.tip.isSome && (pool s spendingTwice &&
      !block s spendingTwice) && (!pool s claimingAhead && block s claimingAhead)) = true := by
    decide +kernel
  obtain ⟨s, hrun, hfacts⟩ := holds_iff.mp hcomputed
  simp only [Bool.and_eq_true, Bool.not_eq_true'] at hfacts
  obtain ⟨⟨htip, htwice, hspent⟩, hahead, hopen⟩ := hfacts
  obtain ⟨s₁, hblock, hpeg⟩ := bind_eq_ok_iff.mp hrun
  refine ⟨_, s, (Chain.start.connect emptyArchive trivial hblock).connectPeg trivial hpeg, htip,
    ?_, ?_⟩
  · intro h
    obtain ⟨pre, hpre⟩ := h.accepted.mp (isOk_eq_true_iff.mp htwice)
    exact Bool.false_ne_true (hspent.symm.trans (isOk_eq_true_iff.mpr ⟨pre, hpre⟩))
  · intro h
    obtain ⟨fee, hfee⟩ := h.accepted.mpr (isOk_eq_true_iff.mp hopen)
    exact Bool.false_ne_true (hahead.symm.trans (isOk_eq_true_iff.mpr ⟨fee, hfee⟩))

end

end Truthcoin.Admission
