import Truthcoin.ConnectTrace

/-!
# What validation says about a block

The transactions of a validated block spend outputs of the state before it, no
output twice, claim no decision twice, and each of them is valid in that state.
-/

namespace Truthcoin.BlockChecks

open Truthcoin.Types Truthcoin.Table Truthcoin.Fallible Truthcoin.Arithmetic
open Truthcoin.Decisions Truthcoin.Markets Truthcoin.Voting Truthcoin.Blocks
open Truthcoin.Validation Truthcoin.Apply Truthcoin.ApplySteps Truthcoin.Connect
open Truthcoin.ConnectTrace

variable {F : Type} {L : Library F} {config : DecisionConfig} {archive : Archive}
  {s : State F} {header : Header} {body : Body F}

/-- A transaction with the outputs of a state that it spends. -/
structure FilledFrom (s : State F) (tx : Transaction F) (filled : FilledTransaction F) :
    Prop where
  transaction : filled.transaction = tx
  spent : List.Forall₂ (fun o output => s.coins.utxos[o]? = some output) tx.inputs
    filled.spentUtxos

theorem FilledFrom.mem_utxos {tx : Transaction F} {filled : FilledTransaction F}
    (h : FilledFrom s tx filled) {o : OutPoint} (ho : o ∈ tx.inputs) :
    ∃ output, s.coins.utxos[o]? = some output := by
  obtain ⟨i, hi, rfl⟩ := List.getElem_of_mem ho
  have hlen := h.spent.length_eq
  exact ⟨filled.spentUtxos[i], h.spent.get hi (by omega)⟩

theorem filledFrom_of_fillTransaction {tx : Transaction F} {filled : FilledTransaction F}
    (h : s.fillTransaction tx = .ok filled) : FilledFrom s tx filled := by
  simp only [State.fillTransaction, bind_eq_ok_iff, mapM_eq_ok_iff, okOr_eq_ok_iff,
    Except.ok.injEq] at h
  obtain ⟨spent, hspent, rfl⟩ := h
  exact ⟨rfl, hspent⟩

theorem filledFrom_of_fillTransactions {filledTxs : List (FilledTransaction F)}
    (h : fillTransactions L s body = .ok filledTxs) :
    List.Forall₂ (FilledFrom s) body.transactions filledTxs := by
  simp only [fillTransactions, bind_eq_ok_iff, mapM_eq_ok_iff, Except.ok.injEq] at h
  obtain ⟨txs, htxs, rfl⟩ := h
  rw [List.forall₂_iff_get] at htxs ⊢
  refine ⟨by simpa using htxs.1, ?_⟩
  intro i hi hi'
  have hfilled := filledFrom_of_fillTransaction (htxs.2 i hi (by simpa using hi'))
  simp only [List.get_eq_getElem, List.getElem_mapIdx] at hfilled ⊢
  exact ⟨hfilled.transaction, hfilled.spent⟩

theorem nodup_of_checkDuplicateDecisionClaims {txs : List (Transaction F)}
    (h : checkDuplicateDecisionClaims txs = .ok ()) :
    (txs.flatMap Transaction.claimedIds).Nodup := by
  simp only [checkDuplicateDecisionClaims, bind_eq_ok_iff, and_true] at h
  obtain ⟨seen, h⟩ := h
  generalize txs.flatMap Transaction.claimedIds = ids at h
  -- the ids that are still to come are new, and none of them comes twice
  suffices hgen : ∀ (start : List DecisionId), (ids.foldlM
      (fun seen d => do
        ensure (d ∉ seen) (Error.duplicateDecisionClaim d.toNat)
        Except.ok (d :: seen)) start = .ok seen) → ids.Nodup ∧ ∀ d ∈ ids, d ∉ start from
    (hgen [] h).1
  clear h
  induction ids with
  | nil => exact fun _ _ => ⟨List.nodup_nil, by simp⟩
  | cons d ids ih =>
      intro start h
      obtain ⟨_, hstep, hrest⟩ := bind_eq_ok_iff.mp h
      simp only [bind_eq_ok_iff, ensure_eq_ok_iff, Except.ok.injEq] at hstep
      obtain ⟨_, hfresh, rfl⟩ := hstep
      obtain ⟨hnodup, hnew⟩ := ih _ hrest
      refine ⟨List.nodup_cons.mpr ⟨fun hmem => hnew d hmem (by simp), hnodup⟩, ?_⟩
      intro d' hd'
      rcases List.mem_cons.mp hd' with rfl | hd'
      · exact hfresh
      · exact fun hmem => hnew d' hd' (by simp [hmem])

variable [F64 F]

/-- What the validation of a block has found. -/
structure Prevalidated (L : Library F) (config : DecisionConfig) (archive : Archive)
    (s : State F) (header : Header) (body : Body F) (pre : PrevalidatedBlock F) : Prop where
  tip : header.prevSideHash = s.tip
  merkleRoot : L.merkleRoot body.coinbase body.transactions = header.merkleRoot
  height : s.height.elim (.ok 0) (fun height => addU32 height 1) = .ok pre.nextHeight
  filled : List.Forall₂ (FilledFrom s) body.transactions pre.filledTransactions
  inputs : (body.transactions.flatMap Transaction.inputs).Nodup
  claims : (body.transactions.flatMap Transaction.claimedIds).Nodup
  valid : ∀ tx ∈ pre.filledTransactions, ∃ fee,
    validateFilledTransaction L config archive s tx (some pre.nextHeight) = .ok fee
  signed : ∀ entry ∈ body.authorizations.zip
    (pre.filledTransactions.flatMap FilledTransaction.spentUtxos),
    L.getAddress entry.1 = entry.2.address

theorem prevalidated_of_prevalidate {pre : PrevalidatedBlock F}
    (h : prevalidate L config archive s header body = .ok pre) :
    Prevalidated L config archive s header body pre := by
  simp only [prevalidate, validateAuthorizations, bind_eq_ok_iff, ensure_eq_ok_iff,
    forM_eq_ok_iff, Except.ok.injEq] at h
  obtain ⟨_, -, _, -, _, htip, _, hroot, nextHeight, hheight, _, -, filledTxs, hfilled, _,
    hinputs, _, hclaims, _, hvalid, _, ⟨_, -, _, hsigned, -⟩, rfl⟩ := h
  refine ⟨htip, hroot, hheight, filledFrom_of_fillTransactions hfilled, hinputs,
    nodup_of_checkDuplicateDecisionClaims hclaims, ?_, hsigned⟩
  intro tx htx
  obtain ⟨fee, hfee, -⟩ := hvalid tx htx
  exact ⟨fee, hfee⟩

namespace Prevalidated

variable {pre : PrevalidatedBlock F}

theorem map_transaction (h : Prevalidated L config archive s header body pre) :
    pre.filledTransactions.map FilledTransaction.transaction = body.transactions := by
  have hfilled := h.filled
  generalize body.transactions = txs, pre.filledTransactions = filled at hfilled
  induction hfilled with
  | nil => rfl
  | cons hfirst _ ih => rw [List.map_cons, hfirst.transaction, ih]

theorem exists_filledFrom (h : Prevalidated L config archive s header body pre)
    {tx : FilledTransaction F} (htx : tx ∈ pre.filledTransactions) :
    FilledFrom s tx.transaction tx := by
  have hfilled := h.filled
  generalize body.transactions = txs, pre.filledTransactions = filled at hfilled htx
  induction hfilled with
  | nil => cases htx
  | cons hfirst _ ih =>
      rcases List.mem_cons.mp htx with rfl | htx
      · exact ⟨rfl, by rw [hfirst.transaction]; exact hfirst.spent⟩
      · exact ih htx

theorem validTxData (h : Prevalidated L config archive s header body pre)
    {tx : FilledTransaction F} (htx : tx ∈ pre.filledTransactions) {data : TxData F}
    (hdata : tx.transaction.data = some data) :
    validateTxData L config archive s tx (some pre.nextHeight) data = .ok () := by
  obtain ⟨fee, hfee⟩ := h.valid tx htx
  simp only [validateFilledTransaction, bind_eq_ok_iff, option_forM_eq_ok_iff] at hfee
  obtain ⟨_, -, _, hvalid, -⟩ := hfee
  exact hvalid data hdata

end Prevalidated

/-- The period in which a block is connected. -/
def blockPeriod (config : DecisionConfig) (s : State F) (block : Block F) : Except Error Nat :=
  let height := s.height.elim 0 (· + 1)
  getCurrentPeriod config block.mainchainTimestamp (some height)
    ((startBlock s block.body height block.mainchainTimestamp).genesisTimestamp.getD 0)

theorem blockPeriod_of_prepares [DecidableEq F] {block : Block F} {t : Trace F}
    (ht : Prepares L config archive s block t) :
    blockPeriod config s block = .ok t.currentPeriod := by
  have hnext := (prevalidated_of_prevalidate ht.prevalidated).height
  have hheight : s.height.elim 0 (· + 1) = t.height := by
    cases hs : s.height with
    | none =>
        rw [hs] at hnext
        exact Except.ok.inj hnext
    | some height =>
        rw [hs] at hnext
        exact (addU32_eq_ok_iff.mp hnext).2.symm
  rw [blockPeriod, hheight]
  exact ht.period

omit [F64 F] in
theorem notSkipped_sublist (filledTxs : List (FilledTransaction F)) (skipped : List Nat) :
    (notSkipped filledTxs skipped).Sublist filledTxs := by
  have hfilter : (filledTxs.zipIdx.filter fun entry => entry.2 ∉ skipped).Sublist
      filledTxs.zipIdx := List.filter_sublist
  have hmap := hfilter.map Prod.fst
  rwa [List.zipIdx_map_fst] at hmap

/-- A claim of a decision, with what is recorded of it. -/
structure Claim (F : Type) where
  decisionId : DecisionId
  decision : Decision F
  txid : Txid

variable [DecidableEq F]

/-- The decision and the transaction that claims it. -/
def Claim.source (c : Claim F) : DecisionId × Txid := (c.decisionId, c.txid)

def Claim.apply (height : Nat) (db : Dbs F) (c : Claim F) : Except Error (Dbs F) :=
  db.claimDecision c.decisionId c.decision c.txid height

/-- The claims of a payload, with their decisions. -/
def payloadClaims (creator : Address) (txid : Txid) (payload : ClaimDecisionPayload F) :
    List (Claim F) :=
  payload.decisions.filterMap fun entry =>
    (decisionOf creator payload.decisionType entry).toOption.map fun decision =>
      ⟨entry.decisionIdBytes, decision, txid⟩

theorem claims_of_claimPayload {creator : Address} {txid : Txid} {height : Nat}
    {db db' : Dbs F} {payload : ClaimDecisionPayload F}
    (h : claimPayload creator txid height db payload = .ok db') :
    (payloadClaims creator txid payload).foldlM (Claim.apply height) db = .ok db' ∧
      (payloadClaims creator txid payload).map Claim.source =
        payload.decisions.map fun entry => (entry.decisionIdBytes, txid) := by
  unfold claimPayload at h
  unfold payloadClaims
  generalize payload.decisions = entries at h
  induction entries generalizing db with
  | nil => exact ⟨h, rfl⟩
  | cons entry entries ih =>
      obtain ⟨db₁, hfirst, hrest⟩ := bind_eq_ok_iff.mp h
      simp only [bind_eq_ok_iff, DecisionId.fromBytes_eq, Except.ok.injEq,
        exists_eq_left'] at hfirst
      obtain ⟨decision, hdecision, hclaim⟩ := hfirst
      obtain ⟨hclaims, hids⟩ := ih hrest
      rw [List.filterMap_cons_some (by rw [hdecision]; rfl)]
      constructor
      · rw [List.foldlM_cons, Claim.apply, hclaim]
        exact hclaims
      · rw [List.map_cons, hids]
        rfl

theorem claims_of_claimPayloads {creator : Address} {txid : Txid} {height : Nat}
    {db db' : Dbs F} {payloads : List (ClaimDecisionPayload F)}
    (h : payloads.foldlM (claimPayload creator txid height) db = .ok db') :
    (payloads.flatMap (payloadClaims creator txid)).foldlM (Claim.apply height) db = .ok db' ∧
      (payloads.flatMap (payloadClaims creator txid)).map Claim.source =
        payloads.flatMap fun payload =>
          payload.decisions.map fun entry => (entry.decisionIdBytes, txid) := by
  induction payloads generalizing db with
  | nil => exact ⟨h, rfl⟩
  | cons payload payloads ih =>
      obtain ⟨db₁, hfirst, hrest⟩ := bind_eq_ok_iff.mp h
      obtain ⟨hfirst, hfirstIds⟩ := claims_of_claimPayload hfirst
      obtain ⟨hrest, hrestIds⟩ := ih hrest
      constructor
      · rw [List.flatMap_cons, List.foldlM_append, hfirst]
        exact hrest
      · rw [List.flatMap_cons, List.map_append, hfirstIds, hrestIds, List.flatMap_cons]

/-- The claims of a transaction. Their maker is the owner of the first output it spends. -/
def claimsBy (L : Library F) (maker : Option FilledOutput) (tx : Transaction F) :
    List (Claim F) :=
  match maker with
  | none => []
  | some output => tx.claimPayloads.flatMap (payloadClaims output.address (L.txid tx))

def txClaims (L : Library F) (tx : FilledTransaction F) : List (Claim F) :=
  claimsBy L tx.spentUtxos.head? tx.transaction

omit [DecidableEq F] in
theorem txClaims_of_creator {tx : FilledTransaction F} {creator : Address}
    (h : extractCreatorAddress tx = .ok creator) :
    txClaims L tx =
      tx.transaction.claimPayloads.flatMap (payloadClaims creator (L.txid tx.transaction)) := by
  rw [extractCreatorAddress, okOr_eq_ok_iff, Option.map_eq_some_iff] at h
  obtain ⟨output, houtput, rfl⟩ := h
  rw [txClaims, houtput]
  rfl

omit [DecidableEq F] in
theorem txClaims_of_no_claims {tx : FilledTransaction F}
    (h : tx.transaction.claimPayloads = []) : txClaims L tx = [] := by
  unfold txClaims claimsBy
  rw [h]
  split <;> rfl

/-- The decisions that a transaction claims, with its id. -/
def claimSources (L : Library F) (tx : Transaction F) : List (DecisionId × Txid) :=
  tx.claimedIds.map fun d => (d, L.txid tx)

theorem claims_of_effect {height : Nat} {s s' : State F} {u u' : StateUpdate F}
    {tx : FilledTransaction F} (h : Effect L height s u tx s' u') :
    (txClaims L tx).foldlM (Claim.apply height) s.decisions = .ok s'.decisions ∧
      (txClaims L tx).map Claim.source = claimSources L tx.transaction := by
  have hnone : tx.transaction.claimPayloads = [] →
      (txClaims L tx).foldlM (Claim.apply height) s.decisions = .ok s.decisions ∧
        (txClaims L tx).map Claim.source = claimSources L tx.transaction := by
    intro hclaims
    rw [txClaims_of_no_claims hclaims, claimSources, Transaction.claimedIds, hclaims]
    exact ⟨rfl, rfl⟩
  have hsources : ∀ payloads, tx.transaction.claimPayloads = payloads →
      claimSources L tx.transaction = payloads.flatMap fun payload =>
        payload.decisions.map fun entry => (entry.decisionIdBytes, L.txid tx.transaction) := by
    intro payloads hpayloads
    rw [claimSources, Transaction.claimedIds, hpayloads, List.map_flatMap]
    simp only [List.map_map, Function.comp_def]
  cases h with
  | plain hdata | trade _ hdata _ | submitVote _ hdata _ | submitBallot _ hdata _
  | amplifyBeta _ hdata _ =>
      exact hnone (by rw [Transaction.claimPayloads, hdata])
  | createMarket creation hdata h =>
      obtain ⟨creator, decisions, market, _, hcreator, hclaims, -, -, hs'⟩ :=
        applyMarketCreation_eq_ok h
      have hdecisions : s'.decisions = decisions := by
        rcases hs' with rfl | ⟨_, rfl⟩ <;> rfl
      have hpayloads : tx.transaction.claimPayloads = creation.newClaims := by
        rw [Transaction.claimPayloads, hdata]
      rw [txClaims_of_creator hcreator, hsources _ hpayloads, hpayloads, hdecisions]
      exact claims_of_claimPayloads hclaims
  | claimDecision payload hdata h =>
      simp only [applyDecisionClaim, bind_eq_ok_iff, Except.ok.injEq] at h
      obtain ⟨creator, hcreator, decisions, hclaims, rfl⟩ := h
      have hpayloads : tx.transaction.claimPayloads = [payload] := by
        rw [Transaction.claimPayloads, hdata]
      rw [txClaims_of_creator hcreator, hsources _ hpayloads, hpayloads, List.flatMap_singleton,
        List.flatMap_singleton]
      exact claims_of_claimPayload hclaims
  | transferReputation transfer hdata h =>
      simp only [applyTransferReputation, bind_eq_ok_iff, Except.ok.injEq] at h
      obtain ⟨_, _, rfl⟩ := h
      exact hnone (by rw [Transaction.claimPayloads, hdata])

theorem claims_of_effects {height : Nat} {txs : List (FilledTransaction F)} {s s' : State F}
    {u u' : StateUpdate F} (h : txs.foldlM (applyEffect L height) (s, u) = .ok (s', u')) :
    (txs.flatMap (txClaims L)).foldlM (Claim.apply height) s.decisions = .ok s'.decisions ∧
      (txs.flatMap (txClaims L)).map Claim.source =
        txs.flatMap fun tx => claimSources L tx.transaction := by
  induction txs generalizing s u with
  | nil =>
      obtain ⟨rfl, -⟩ := Prod.mk.inj (Except.ok.inj h)
      exact ⟨rfl, rfl⟩
  | cons tx txs ih =>
      obtain ⟨⟨s₁, u₁⟩, hfirst, hrest⟩ := bind_eq_ok_iff.mp h
      obtain ⟨hfirst, hfirstIds⟩ := claims_of_effect (effect_of_applyEffect hfirst)
      obtain ⟨hrest, hrestIds⟩ := ih hrest
      constructor
      · rw [List.flatMap_cons, List.foldlM_append, hfirst]
        exact hrest
      · rw [List.flatMap_cons, List.map_append, hfirstIds, hrestIds, List.flatMap_cons]

end Truthcoin.BlockChecks
