import Truthcoin.DecisionStates

/-!
# Votes of a block

The votes that the transactions of a block cast, what validation knows of them in the
state before the block, and what is submitted for them.
-/

namespace Truthcoin.VoteRecords

open Truthcoin.Types Truthcoin.Table Truthcoin.Fallible Truthcoin.Decisions Truthcoin.Voting
open Truthcoin.Blocks Truthcoin.Validation Truthcoin.Apply Truthcoin.ApplySteps
open Truthcoin.Connect Truthcoin.ConnectTrace Truthcoin.BlockChecks Truthcoin.SlotLedger
open Truthcoin.PricingRun Truthcoin.DecisionStates

/-- A vote as a transaction casts it, alone or in a ballot. -/
structure CastVote (F : Type) where
  voter : Address
  decisionId : DecisionId
  value : F

section

variable {F : Type}

def castVotes (tx : Transaction F) : List (CastVote F) :=
  match tx.data with
  | some (.submitVote vote) => [⟨vote.voter, vote.decisionIdBytes, vote.voteValue⟩]
  | some (.submitBallot ballot) =>
      ballot.votes.map fun item => ⟨ballot.voter, item.decisionIdBytes, item.voteValue⟩
  | _ => []

/-- The votes of a block in the order of its transactions. -/
def castIn (block : Block F) : List (CastVote F) :=
  block.body.transactions.flatMap castVotes

def CastVote.key (c : CastVote F) : Address × DecisionId := (c.voter, c.decisionId)

/-- The vote that is stored for a decision by a voter. -/
def CastVote.lookup (c : CastVote F) (voting : VotingDatabases F) :
    Option (VoteMatrixEntry F) :=
  voting.getVote c.decisionId.votingPeriod c.voter c.decisionId

def submittedKey (vote : Vote F) : Address × DecisionId := (vote.voterAddress, vote.decisionId)

end

variable {F : Type} [F64 F]

/-- The value that is stored for a vote, given what is known of its decision. -/
def storedValue (db : Dbs F) (c : CastVote F) : VoteValue F :=
  convertVoteValueWithDecision c.value
    ((db.getDecisionEntry c.decisionId).bind DecisionEntry.decision)

def submission (db : Dbs F) (timestamp height : Nat) (txid : Txid) (c : CastVote F) : Vote F :=
  ⟨c.voter, c.decisionId.votingPeriod, c.decisionId, storedValue db c, timestamp, height, txid⟩

section

variable [DecidableEq F] {L : Library F} {s s' : State F} {u u' : StateUpdate F} {height : Nat}
  {tx : FilledTransaction F}

omit [DecidableEq F] in
theorem submissions_of_ballot {ballot : SubmitBallot F} {timestamp : Nat}
    {items : List (BallotItem F)} {acc acc' : StateUpdate F × Option Nat}
    (h : items.foldlM (applyBallotItem L s tx ballot timestamp height) acc = .ok acc') :
    acc'.1.voteSubmissions = acc.1.voteSubmissions ++ items.map fun item =>
      submission s.decisions timestamp height (L.txid tx.transaction)
        ⟨ballot.voter, item.decisionIdBytes, item.voteValue⟩ := by
  induction items generalizing acc with
  | nil =>
      rw [← Except.ok.inj h]
      simp
  | cons item items ih =>
      obtain ⟨acc₁, hfirst, hrest⟩ := bind_eq_ok_iff.mp h
      have hitem : acc₁.1.voteSubmissions = acc.1.voteSubmissions ++
          [submission s.decisions timestamp height (L.txid tx.transaction)
            ⟨ballot.voter, item.decisionIdBytes, item.voteValue⟩] := by
        simp only [applyBallotItem, DecisionId.fromBytes_eq, ok_bind] at hfirst
        split at hfirst
        · obtain ⟨_, -, hfirst⟩ := bind_eq_ok_iff.mp hfirst
          rw [← Except.ok.inj hfirst]
          rfl
        · obtain ⟨_, -, hfirst⟩ := bind_eq_ok_iff.mp hfirst
          rw [← Except.ok.inj hfirst]
          rfl
      rw [ih hrest, hitem, List.append_assoc]
      rfl

theorem submissions_of_effect (h : Effect L height s u tx s' u') :
    ∃ timestamp, u'.voteSubmissions = u.voteSubmissions ++
      (castVotes tx.transaction).map
        (submission s.decisions timestamp height (L.txid tx.transaction)) := by
  cases h with
  | plain hdata => exact ⟨0, by simp [castVotes, hdata]⟩
  | trade trade hdata h =>
      rw [applyTrade_voteSubmissions h]
      exact ⟨0, by simp [castVotes, hdata]⟩
  | createMarket creation hdata h =>
      obtain ⟨_, _, _, _, -, -, -, rfl, -⟩ := applyMarketCreation_eq_ok h
      exact ⟨0, by simp [castVotes, hdata]⟩
  | claimDecision payload hdata h => exact ⟨0, by simp [castVotes, hdata]⟩
  | submitVote vote hdata h =>
      simp only [applySubmitVote, DecisionId.fromBytes_eq, ok_bind, bind_eq_ok_iff,
        Except.ok.injEq] at h
      obtain ⟨_, -, timestamp, -, rfl⟩ := h
      refine ⟨timestamp, ?_⟩
      rw [castVotes, hdata]
      rfl
  | submitBallot ballot hdata h =>
      simp only [applySubmitBallot, bind_eq_ok_iff, Except.ok.injEq] at h
      obtain ⟨timestamp, -, ⟨u₁, last⟩, hfold, rfl⟩ := h
      refine ⟨timestamp, ?_⟩
      rw [castVotes, hdata, List.map_map]
      exact submissions_of_ballot hfold
  | transferReputation transfer hdata h => exact ⟨0, by simp [castVotes, hdata]⟩
  | amplifyBeta amplify hdata h =>
      obtain ⟨_, -, h⟩ := bind_eq_ok_iff.mp h
      rw [← Except.ok.inj h]
      exact ⟨0, by simp [castVotes, hdata]⟩

theorem keys_of_effects {txs : List (FilledTransaction F)}
    (h : txs.foldlM (applyEffect L height) (s, u) = .ok (s', u')) :
    u'.voteSubmissions.map submittedKey = u.voteSubmissions.map submittedKey ++
      (txs.flatMap fun tx => castVotes tx.transaction).map CastVote.key := by
  induction txs generalizing s u with
  | nil =>
      obtain ⟨-, rfl⟩ := Prod.mk.inj (Except.ok.inj h)
      simp
  | cons tx txs ih =>
      obtain ⟨⟨s₁, u₁⟩, hfirst, hrest⟩ := bind_eq_ok_iff.mp h
      obtain ⟨timestamp, hvotes⟩ := submissions_of_effect (effect_of_applyEffect hfirst)
      have hkeys : submittedKey ∘ submission s.decisions timestamp height
          (L.txid tx.transaction) = CastVote.key := rfl
      rw [ih hrest, hvotes, List.map_append, List.map_map, hkeys, List.flatMap_cons,
        List.map_append, List.append_assoc]

end

/-- A vote on a claimed decision that is in voting, by a voter who has not voted on it. -/
structure Votable (s : State F) (c : CastVote F) : Prop where
  voting : s.decisions.getDecisionCurrentState c.decisionId = .voting
  unvoted : c.lookup s.voting = none
  entry : ∃ entry, s.decisions.getDecisionEntry c.decisionId = some entry

/-- The value of a vote is one that its decision admits. -/
def CastVote.Valid (c : CastVote F) : Prop :=
  ∃ decision, validateVoteValue decision c.value = .ok ()

section

variable {s : State F} {tx : FilledTransaction F} {c : CastVote F}

theorem votable_of_validateVote {voter : Address} {d : DecisionId} {value : F}
    {wrap : Error → Error} {u : Unit} (h : validateVote s voter d value wrap = .ok u) :
    Votable s ⟨voter, d, value⟩ ∧ CastVote.Valid ⟨voter, d, value⟩ := by
  simp only [validateVote, validateVotingPeriod, validateNoDuplicateVote, validateDecisionEntry,
    bind_eq_ok_iff, mapError_eq_ok_iff, ensure_eq_ok_iff, okOr_eq_ok_iff] at h
  obtain ⟨decision, ⟨entry, hentry, -⟩, _, hvalue, _, hvoting, hunvoted⟩ := h
  refine ⟨⟨?_, ?_, entry, hentry⟩, decision, hvalue⟩
  · simpa [Dbs.isDecisionInVoting] using hvoting
  · simpa [CastVote.lookup] using hunvoted

theorem votable_of_validateBallot {ballot : SubmitBallot F} {u : Unit}
    (h : validateBallot s tx ballot = .ok u) {item : BallotItem F} (hitem : item ∈ ballot.votes) :
    Votable s ⟨ballot.voter, item.decisionIdBytes, item.voteValue⟩ ∧
      CastVote.Valid ⟨ballot.voter, item.decisionIdBytes, item.voteValue⟩ := by
  simp only [validateBallot, bind_eq_ok_iff] at h
  obtain ⟨_, -, seen, hfold, -⟩ := h
  obtain ⟨i, hi, rfl⟩ := List.getElem_of_mem hitem
  have hzip : (ballot.votes[i], i) ∈ ballot.votes.zipIdx := by
    rw [List.mem_zipIdx_iff_getElem?]
    simp
  obtain ⟨before, after, hsplit⟩ := List.append_of_mem hzip
  rw [hsplit, List.foldlM_append, bind_eq_ok_iff] at hfold
  obtain ⟨seen', -, hfold⟩ := hfold
  obtain ⟨seen'', hstep, -⟩ := bind_eq_ok_iff.mp hfold
  simp only [validateBallotItem, bind_eq_ok_iff, DecisionId.fromBytes_eq, Except.ok.injEq,
    exists_eq_left'] at hstep
  obtain ⟨_, -, _, hvote, -⟩ := hstep
  exact votable_of_validateVote hvote

variable [DecidableEq F] {L : Library F} {config : DecisionConfig} {archive : Archive}
  {block : Block F} {t : Trace F}

theorem votable_of_prepares (ht : Prepares L config archive s block t)
    (htx : tx ∈ t.pre.filledTransactions) (hc : c ∈ castVotes tx.transaction) :
    Votable s c ∧ c.Valid := by
  have hpre := prevalidated_of_prevalidate ht.prevalidated
  cases hdata : tx.transaction.data with
  | none => simp [castVotes, hdata] at hc
  | some data =>
      have hvalid := hpre.validTxData htx hdata
      rw [castVotes, hdata] at hc
      cases data with
      | submitVote vote =>
          obtain rfl := List.mem_singleton.mp hc
          obtain ⟨_, -, hvote⟩ := bind_eq_ok_iff.mp hvalid
          rw [DecisionId.fromBytes_eq, ok_bind] at hvote
          exact votable_of_validateVote hvote
      | submitBallot ballot =>
          obtain ⟨item, hitem, rfl⟩ := List.mem_map.mp hc
          exact votable_of_validateBallot hvalid hitem
      | claimDecision _ | createMarket _ | trade _ | transferReputation _ | amplifyBeta _ =>
          cases hc

theorem valid_of_prepares (ht : Prepares L config archive s block t) (hc : c ∈ castIn block) :
    c.Valid := by
  have hpre := prevalidated_of_prevalidate ht.prevalidated
  rw [castIn, ← hpre.map_transaction, List.flatMap_map] at hc
  obtain ⟨tx, htx, hc⟩ := List.mem_flatMap.mp hc
  exact (votable_of_prepares ht htx hc).2

end

section

variable {α : Type} {r : α → α → Prop} [DecidableRel r]

theorem find?_orderedInsert {a : α} {p : α → Bool} (ha : p a = false) (l : List α) :
    (l.orderedInsert r a).find? p = l.find? p := by
  induction l with
  | nil => simp [ha]
  | cons b l ih =>
      rw [List.orderedInsert_cons]
      split
      · simp [List.find?_cons, ha]
      · rw [List.find?_cons, List.find?_cons, ih]

end

section

variable [DecidableEq F] {L : Library F} {config : DecisionConfig} {archive : Archive}
  {s : State F} {block : Block F} {t : Trace F}

omit [F64 F] in
theorem getDecisionEntry_claims {claims : List (Claim F)} {height : Nat} {db db' : Dbs F}
    (h : claims.foldlM (Claim.apply height) db = .ok db') {d : DecisionId}
    (hd : d ∉ claims.map Claim.decisionId) : db'.getDecisionEntry d = db.getDecisionEntry d := by
  refine foldlM_preserves (P := fun db₁ : Dbs F =>
    db₁.getDecisionEntry d = db.getDecisionEntry d) ?_ h rfl
  intro c hc db₁ db₂ hsame hstep
  have hne : c.decisionId ≠ d := by
    rintro rfl
    exact hd (List.mem_map_of_mem hc)
  rw [← hsame, Dbs.getDecisionEntry, entriesOf_claimDecision hstep]
  split
  · rename_i hperiod
    rw [Dbs.getDecisionEntry, hperiod, Dbs.insertEntry]
    split
    · rfl
    · exact find?_orderedInsert (by simpa using hne) _
  · rfl

/-- A submission for a vote, with the value that is stored for it. -/
structure SubmittedFor (db : Dbs F) (vote : Vote F) (c : CastVote F) : Prop where
  key : submittedKey vote = c.key
  period : vote.periodId = c.decisionId.votingPeriod
  value : vote.value = storedValue db c

/-- Every submission of a block is for a vote that it casts. -/
theorem submittedFor_of_prepares (ht : Prepares L config archive s block t) :
    ∀ vote ∈ t.applied.update.voteSubmissions, ∃ c ∈ castIn block,
      Votable s c ∧ SubmittedFor s.decisions vote c := by
  have hpre := prevalidated_of_prevalidate ht.prevalidated
  have hinvariant := effects_preserve
    (P := fun s₁ u₁ => (∀ d, s.decisions.getDecisionCurrentState d = .voting →
        s₁.decisions.getDecisionEntry d = s.decisions.getDecisionEntry d) ∧
      ∀ vote ∈ u₁.voteSubmissions, ∃ c ∈ castIn block,
        Votable s c ∧ SubmittedFor s.decisions vote c) ?_
    (effects_of_applyTransactions ht.applied) ⟨?_, by simp [StateUpdate.new]⟩
  · exact hinvariant.2
  · rintro tx htx s₁ u₁ s₂ u₂ ⟨hentries, hvotes⟩ heffect
    have htx' := (notSkipped_sublist _ _).subset htx
    constructor
    · -- a decision in voting cannot be claimed
      intro d hd
      obtain ⟨hclaims, hsources⟩ := claims_of_effect heffect
      rw [← hentries d hd]
      refine getDecisionEntry_claims hclaims fun hmem => ?_
      have hids : (txClaims L tx).map Claim.decisionId = Transaction.claimedIds tx.transaction := by
        have hfirst := congrArg (List.map Prod.fst) hsources
        rw [List.map_map, claimSources, List.map_map] at hfirst
        simpa [Function.comp_def, Claim.source] using hfirst
      rw [hids] at hmem
      obtain ⟨⟨hvoting, -⟩, -⟩ := available_of_prepares ht htx' hmem
      simp [Dbs.isDecisionInVoting, hd] at hvoting
    · intro vote hvote
      obtain ⟨timestamp, hsubmitted⟩ := submissions_of_effect heffect
      rw [hsubmitted] at hvote
      rcases List.mem_append.mp hvote with hold | hnew
      · exact hvotes vote hold
      · obtain ⟨c, hc, rfl⟩ := List.mem_map.mp hnew
        obtain ⟨hvotable, -⟩ := votable_of_prepares ht htx' hc
        have hmem : c ∈ castIn block := by
          rw [castIn, ← hpre.map_transaction, List.flatMap_map]
          exact List.mem_flatMap.mpr ⟨tx, htx', hc⟩
        refine ⟨c, hmem, hvotable, rfl, rfl, ?_⟩
        show storedValue s₁.decisions c = storedValue s.decisions c
        rw [storedValue, storedValue, hentries _ hvotable.voting]
  · intro d _
    have hrows := (sameSlots_voting ht).1
    show t.voting.getDecisionEntry d = s.decisions.getDecisionEntry d
    rw [Dbs.getDecisionEntry, Dbs.entriesOf, hrows, Dbs.getDecisionEntry, Dbs.entriesOf]

theorem exists_submitted (ht : Prepares L config archive s block t) {c : CastVote F}
    (hc : c ∈ castIn block) :
    ∃ vote ∈ t.applied.update.voteSubmissions, submittedKey vote = c.key := by
  have hpre := prevalidated_of_prevalidate ht.prevalidated
  have hkeys := keys_of_effects (effects_of_applyTransactions ht.applied)
  have hnone : ∀ (tx : FilledTransaction F) (trade : Trade),
      tx.transaction.data = some (.trade trade) → castVotes tx.transaction = [] := by
    intro tx trade hdata
    rw [castVotes, hdata]
  rw [notSkipped_flatMap ht.applied hnone] at hkeys
  have hmem : c.key ∈ t.applied.update.voteSubmissions.map submittedKey := by
    rw [hkeys]
    refine List.mem_append_right _ (List.mem_map_of_mem ?_)
    rw [castIn, ← hpre.map_transaction, List.flatMap_map] at hc
    exact hc
  exact List.mem_map.mp hmem

end

def voteKeyOf (vote : Vote F) : VoteMatrixKey :=
  VotingDatabases.voteKey vote.periodId vote.voterAddress vote.decisionId

def entryOf (vote : Vote F) : VoteMatrixEntry F := ⟨vote.value, vote.timestamp, vote.blockHeight⟩

omit [F64 F] in
theorem lookup_putVotes_cases (votes : List (Vote F)) (voting : VotingDatabases F)
    (key : VoteMatrixKey) :
    ((∀ vote ∈ votes, voteKeyOf vote ≠ key) ∧
        (votes.foldl VotingDatabases.putVote voting).votes[key]? = voting.votes[key]?) ∨
      ∃ vote ∈ votes, voteKeyOf vote = key ∧
        (votes.foldl VotingDatabases.putVote voting).votes[key]? = some (entryOf vote) := by
  induction votes generalizing voting with
  | nil => exact .inl ⟨by simp, rfl⟩
  | cons vote votes ih =>
      rcases ih (voting.putVote vote) with ⟨hnone, hsame⟩ | ⟨vote', hvote', hkey, hlookup⟩
      · by_cases hkey : voteKeyOf vote = key
        · refine .inr ⟨vote, by simp, hkey, ?_⟩
          rw [List.foldl_cons, hsame, ← hkey]
          exact Std.ExtTreeMap.getElem?_insert_self
        · refine .inl ⟨?_, ?_⟩
          · intro vote' hvote'
            rcases List.mem_cons.mp hvote' with rfl | hvote'
            · exact hkey
            · exact hnone vote' hvote'
          · have hother : ¬ keyCmp (voteKeyOf vote) key = .eq :=
              fun heq => hkey (Std.LawfulEqCmp.compare_eq_iff_eq.mp heq)
            rw [List.foldl_cons, hsame, VotingDatabases.putVote, Std.ExtTreeMap.getElem?_insert]
            exact if_neg hother
      · exact .inr ⟨vote', by simp [hvote'], hkey, hlookup⟩

end Truthcoin.VoteRecords
