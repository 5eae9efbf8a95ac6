import Truthcoin.Authorizations

/-!
# Packing transactions into a body

A body keeps the transactions, their authorizations and their actor proofs in three flat
lists. The number of inputs of a transaction says how many authorizations are its own, so the
lists can be taken apart again.
-/

namespace Truthcoin.BodyPacking

open Truthcoin.Types Truthcoin.Fallible Truthcoin.Blocks Truthcoin.Mempool
open Truthcoin.Authorizing

variable {F : Type}

/-- Put a transaction, its authorizations and its actor proof behind the others. -/
def pushTransaction (body : Body F) (tx : AuthorizedTransaction F) : Body F :=
  { body with
    authorizations := body.authorizations ++ tx.authorizations
    actorProofs := body.actorProofs ++ [tx.actorProof]
    transactions := body.transactions ++ [tx.transaction] }

def Body.new (txs : List (AuthorizedTransaction F)) (coinbase : Coinbase) : Body F :=
  txs.foldl pushTransaction ⟨coinbase, [], [], []⟩

/-- A transaction has an authorization for each of its inputs. -/
def Covered (tx : AuthorizedTransaction F) : Prop :=
  tx.authorizations.length = tx.transaction.inputs.length

instance (tx : AuthorizedTransaction F) : Decidable (Covered tx) :=
  inferInstanceAs (Decidable (_ = _))

/-- A body has an authorization for each input of its transactions. -/
def CountsMatch (body : Body F) : Prop :=
  body.authorizations.length = (body.transactions.map fun tx => tx.inputs.length).sum

theorem foldl_pushTransaction (txs : List (AuthorizedTransaction F)) (body : Body F) :
    txs.foldl pushTransaction body =
      { body with
        authorizations := body.authorizations ++ txs.flatMap AuthorizedTransaction.authorizations
        actorProofs := body.actorProofs ++ txs.map AuthorizedTransaction.actorProof
        transactions := body.transactions ++ txs.map AuthorizedTransaction.transaction } := by
  induction txs generalizing body with
  | nil => simp
  | cons tx txs ih =>
      rw [List.foldl_cons, ih]
      simp [pushTransaction]

theorem new_eq (txs : List (AuthorizedTransaction F)) (coinbase : Coinbase) :
    Body.new txs coinbase =
      ⟨coinbase, txs.map AuthorizedTransaction.transaction,
        txs.flatMap AuthorizedTransaction.authorizations,
        txs.map AuthorizedTransaction.actorProof⟩ :=
  foldl_pushTransaction txs ⟨coinbase, [], [], []⟩

theorem authorize_packed {txs : List (AuthorizedTransaction F)} (htxs : ∀ tx ∈ txs, Covered tx) :
    authorize (txs.map AuthorizedTransaction.transaction)
      (txs.flatMap AuthorizedTransaction.authorizations)
      (txs.map AuthorizedTransaction.actorProof) = some txs := by
  induction txs with
  | nil => rfl
  | cons tx txs ih =>
      have hcovered : tx.authorizations.length = tx.transaction.inputs.length :=
        htxs tx List.mem_cons_self
      have henough : ¬ (tx.authorizations ++
          txs.flatMap AuthorizedTransaction.authorizations).length <
            tx.transaction.inputs.length := by
        rw [List.length_append, hcovered]
        omega
      rw [List.map_cons, List.flatMap_cons, List.map_cons, authorize, if_neg henough,
        List.take_left' hcovered, List.drop_left' hcovered, List.tail_cons,
        ih fun other hother => htxs other (List.mem_cons_of_mem _ hother)]
      rfl

section

variable {txs : List (Transaction F)} {authorizations : List Authorization}
  {actorProofs : List (Option Authorization)} {authorized : List (AuthorizedTransaction F)}

theorem exists_authorize (actorProofs : List (Option Authorization))
    (h : (txs.map fun tx => tx.inputs.length).sum ≤ authorizations.length) :
    ∃ authorized, authorize txs authorizations actorProofs = some authorized := by
  induction txs generalizing authorizations actorProofs with
  | nil => exact ⟨[], rfl⟩
  | cons tx txs ih =>
      rw [List.map_cons, List.sum_cons] at h
      have hrest : (txs.map fun tx => tx.inputs.length).sum ≤
          (authorizations.drop tx.inputs.length).length := by
        rw [List.length_drop]
        omega
      obtain ⟨rest, hrest⟩ := ih actorProofs.tail hrest
      rw [authorize, if_neg (by omega), hrest]
      exact ⟨_, rfl⟩

theorem transactions_of_authorize
    (h : authorize txs authorizations actorProofs = some authorized) :
    authorized.map AuthorizedTransaction.transaction = txs := by
  induction txs generalizing authorizations actorProofs authorized with
  | nil =>
      obtain rfl := Option.some.inj h
      rfl
  | cons tx txs ih =>
      obtain ⟨-, rest, hrest, rfl⟩ := authorize_cons_eq_some h
      rw [List.map_cons, ih hrest]

theorem authorizations_of_authorize
    (h : authorize txs authorizations actorProofs = some authorized) :
    authorized.flatMap AuthorizedTransaction.authorizations =
      authorizations.take (txs.map fun tx => tx.inputs.length).sum := by
  induction txs generalizing authorizations actorProofs authorized with
  | nil =>
      obtain rfl := Option.some.inj h
      rfl
  | cons tx txs ih =>
      obtain ⟨-, rest, hrest, rfl⟩ := authorize_cons_eq_some h
      rw [List.flatMap_cons, ih hrest, List.map_cons, List.sum_cons, List.take_add]

theorem actorProofs_of_authorize (hproofs : actorProofs.length = txs.length)
    (h : authorize txs authorizations actorProofs = some authorized) :
    authorized.map AuthorizedTransaction.actorProof = actorProofs := by
  induction txs generalizing authorizations actorProofs authorized with
  | nil =>
      obtain rfl := Option.some.inj h
      exact (List.eq_nil_of_length_eq_zero hproofs).symm
  | cons tx txs ih =>
      obtain ⟨-, rest, hrest, rfl⟩ := authorize_cons_eq_some h
      cases actorProofs with
      | nil => cases hproofs
      | cons proof proofs =>
          rw [List.map_cons, ih (Nat.succ.inj hproofs) hrest]
          rfl

theorem covered_of_authorize
    (h : authorize txs authorizations actorProofs = some authorized) :
    ∀ tx ∈ authorized, Covered tx := by
  induction txs generalizing authorizations actorProofs authorized with
  | nil =>
      obtain rfl := Option.some.inj h
      exact fun tx htx => absurd htx List.not_mem_nil
  | cons tx txs ih =>
      obtain ⟨hle, rest, hrest, rfl⟩ := authorize_cons_eq_some h
      intro found hfound
      rcases List.mem_cons.mp hfound with rfl | hfound
      · exact List.length_take_of_le hle
      · exact ih hrest found hfound

end

/-- Packing transactions and taking the body apart gives them back, each with its own
authorizations and its own actor proof; taking a body apart whose counts match and packing it
again gives its transactions and its authorizations back. -/
theorem packing_round_trip :
    (∀ (txs : List (AuthorizedTransaction F)) (coinbase : Coinbase), (∀ tx ∈ txs, Covered tx) →
      authorizedTransactions (Body.new txs coinbase) = some txs) ∧
    ∀ body : Body F, CountsMatch body →
      ∃ txs, authorizedTransactions body = some txs ∧
        (Body.new txs body.coinbase).transactions = body.transactions ∧
        (Body.new txs body.coinbase).authorizations = body.authorizations := by
  constructor
  · intro txs coinbase htxs
    rw [new_eq]
    exact authorize_packed htxs
  · intro body hcounts
    obtain ⟨txs, htxs⟩ := exists_authorize body.actorProofs hcounts.ge
    refine ⟨txs, htxs, ?_, ?_⟩
    · rw [new_eq]
      exact transactions_of_authorize htxs
    · rw [new_eq]
      dsimp only
      rw [authorizations_of_authorize htxs, ← hcounts, List.take_length]

def sampleTxs : List (AuthorizedTransaction Rat) :=
  [⟨⟨[.regular 1 0, .regular 1 1], [], [], none⟩, [⟨7, 1⟩, ⟨8, 2⟩], none⟩,
    ⟨⟨[.regular 2 0], [], [], none⟩, [⟨9, 3⟩], some ⟨9, 4⟩⟩]

theorem packing_round_trip_two :
    authorizedTransactions (Body.new sampleTxs ⟨[], []⟩) = some sampleTxs ∧
      ∃ txs, authorizedTransactions (Body.new sampleTxs ⟨[], []⟩) = some txs ∧
        (Body.new txs ⟨[], []⟩).transactions = (Body.new sampleTxs ⟨[], []⟩).transactions ∧
        (Body.new txs ⟨[], []⟩).authorizations = (Body.new sampleTxs ⟨[], []⟩).authorizations :=
  ⟨packing_round_trip.1 sampleTxs ⟨[], []⟩ (by decide),
    packing_round_trip.2 (Body.new sampleTxs ⟨[], []⟩) rfl⟩

theorem new_authorizedTransactions {body : Body F} {txs : List (AuthorizedTransaction F)}
    (hcounts : CountsMatch body) (hproofs : body.actorProofs.length = body.transactions.length)
    (h : authorizedTransactions body = some txs) : Body.new txs body.coinbase = body := by
  rw [new_eq, transactions_of_authorize h, authorizations_of_authorize h,
    actorProofs_of_authorize hproofs h, ← hcounts, List.take_length]

theorem countsMatch_new {txs : List (AuthorizedTransaction F)} (htxs : ∀ tx ∈ txs, Covered tx)
    (coinbase : Coinbase) : CountsMatch (Body.new txs coinbase) := by
  have hlengths : txs.map (fun tx => tx.authorizations.length) =
      txs.map fun tx => tx.transaction.inputs.length :=
    List.map_congr_left htxs
  rw [CountsMatch, new_eq]
  dsimp only
  rw [List.length_flatMap, hlengths, List.map_map]
  rfl

theorem packed_iff (body : Body F) :
    (∃ txs, (∀ tx ∈ txs, Covered tx) ∧ Body.new txs body.coinbase = body) ↔
      CountsMatch body ∧ body.actorProofs.length = body.transactions.length := by
  constructor
  · rintro ⟨txs, htxs, hbody⟩
    have hcounts := countsMatch_new htxs body.coinbase
    have hproofs : (Body.new txs body.coinbase).actorProofs.length =
        (Body.new txs body.coinbase).transactions.length := by
      rw [new_eq, List.length_map, List.length_map]
    rw [hbody] at hcounts hproofs
    exact ⟨hcounts, hproofs⟩
  · rintro ⟨hcounts, hproofs⟩
    obtain ⟨txs, htxs⟩ := exists_authorize body.actorProofs hcounts.ge
    exact ⟨txs, covered_of_authorize htxs, new_authorizedTransactions hcounts hproofs htxs⟩

theorem countsMatch_of_verifyBody {S : SignatureScheme F} {body : Body F}
    (h : S.verifyBody body = .ok ()) : CountsMatch body := by
  obtain ⟨_, hverified, -⟩ := bind_eq_ok_iff.mp h
  obtain ⟨_, hcount, -⟩ := bind_eq_ok_iff.mp hverified
  have hlength := ensure_eq_ok_iff.mp hcount
  exact hlength

end Truthcoin.BodyPacking
