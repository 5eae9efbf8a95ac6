import Truthcoin.ClaimPaths
import Truthcoin.PricingRun
import Truthcoin.Reputation
import Truthcoin.UndoTables

/-!
# The chain metadata over a reorganisation

Connecting a block and disconnecting it again restores the tip, the height and the
reputation that it has moved: the transfers are taken back one by one, and the counting of
votes leaves the reputation before it. Nothing takes back the two timestamps and the
reputation that the genesis block hands out.
-/

namespace Truthcoin.ChainMetadata

open Truthcoin.Types Truthcoin.Table Truthcoin.Fallible Truthcoin.Decisions Truthcoin.Voting
open Truthcoin.Blocks Truthcoin.Validation Truthcoin.Apply Truthcoin.ApplySteps
open Truthcoin.Connect Truthcoin.ConnectTrace Truthcoin.BlockChecks Truthcoin.Disconnect
open Truthcoin.BlockRun Truthcoin.TagConnect Truthcoin.PricingRun Truthcoin.ListedRuns
open Truthcoin.SettlementSteps Truthcoin.UndoTables Truthcoin.Reputation Truthcoin.SampleChain
open Truthcoin.SampleMarkets
open Truthcoin.Commitments

variable {F : Type} [F64 F]

theorem lookup_setReputation (reputation : Table Address F) (address address' : Address) (r : F) :
    (setReputation reputation address r)[address']? =
      if address' = address then if F64.le r F64.zero = true then none else some r
      else reputation[address']? := by
  unfold setReputation
  split
  · rw [lookup_erase]
  · rw [lookup_insert]

theorem stored_getReputation (laws : SignLaws F) {reputation : Table Address F}
    (h : Positive reputation) (address : Address) :
    (if F64.le (getReputation reputation address) F64.zero = true then none
      else some (getReputation reputation address)) = reputation[address]? := by
  unfold getReputation
  cases hrow : reputation[address]? with
  | none => rw [Option.getD_none, if_pos laws.zero_le]
  | some r =>
      have hpositive := laws.not_le_of_pos r (h address r hrow)
      rw [Option.getD_some, if_neg (by simp [hpositive])]

theorem revertReputationTransfer_of_set (laws : SignLaws F) {reputation : Table Address F}
    (h : Positive reputation) (sender receiver : Address) (r r' : F) :
    revertReputationTransfer (setReputation (setReputation reputation sender r) receiver r')
      ⟨sender, getReputation reputation sender, receiver, getReputation reputation receiver⟩ =
        reputation := by
  apply ext_lookup
  intro address
  simp only [revertReputationTransfer, lookup_setReputation]
  by_cases hreceiver : address = receiver
  · rw [if_pos hreceiver, hreceiver, stored_getReputation laws h]
  · rw [if_neg hreceiver]
    by_cases hsender : address = sender
    · rw [if_pos hsender, hsender, stored_getReputation laws h]
    · rw [if_neg hsender, if_neg hreceiver, if_neg hsender]

/-- Writing the reputations of an entry back leaves positive reputations positive. -/
def Settable (entry : ReputationTransferUndoEntry F) : Prop :=
  ∀ r ∈ [entry.senderPreReputation, entry.receiverPreReputation],
    F64.le r F64.zero = false → F64.lt F64.zero r = true

theorem settable_getReputation (laws : SignLaws F) {reputation : Table Address F}
    (h : Positive reputation) (sender receiver : Address) :
    Settable ⟨sender, getReputation reputation sender, receiver,
      getReputation reputation receiver⟩ := by
  have hread (address : Address)
      (hle : F64.le (getReputation reputation address) F64.zero = false) :
      F64.lt F64.zero (getReputation reputation address) = true := by
    rcases getReputation_cases h address with hzero | hpositive
    · rw [hzero, laws.zero_le] at hle
      cases hle
    · exact hpositive
  intro r hr
  rcases List.mem_cons.mp hr with rfl | hr
  · exact hread sender
  · obtain rfl := List.mem_singleton.mp hr
    exact hread receiver

theorem positive_revertReputationTransfers {reputation : Table Address F}
    {entries : List (ReputationTransferUndoEntry F)} (h : Positive reputation)
    (hentries : ∀ entry ∈ entries, Settable entry) :
    Positive (revertReputationTransfers reputation entries) := by
  refine List.foldlRecOn (motive := Positive) _ _ h ?_
  intro reputation hpositive entry hentry
  have hsettable := hentries entry (List.mem_reverse.mp hentry)
  refine (hpositive.setReputation ?_).setReputation ?_
  · exact hsettable _ List.mem_cons_self
  · exact hsettable _ (List.mem_cons_of_mem _ List.mem_cons_self)

/-- The transfers since `reputation` was stored can be taken back. -/
structure Transferred (reputation : Table Address F)
    (rows : Table Nat (List (ReputationTransferUndoEntry F))) (height : Nat) (s : State F) :
    Prop where
  positive : Positive s.reputation
  settable : ∀ entry ∈ s.reputationTransferUndo[height]?.getD [], Settable entry
  reverted : revertReputationTransfers s.reputation
    (s.reputationTransferUndo[height]?.getD []) = reputation
  others : ∀ below, below ≠ height → s.reputationTransferUndo[below]? = rows[below]?

section

variable {reputation : Table Address F}
  {rows : Table Nat (List (ReputationTransferUndoEntry F))} {height : Nat} {s s' : State F}

theorem Transferred.congr (h : Transferred reputation rows height s)
    (hreputation : s'.reputation = s.reputation)
    (hrows : s'.reputationTransferUndo = s.reputationTransferUndo) :
    Transferred reputation rows height s' := by
  refine ⟨?_, ?_, ?_, ?_⟩
  · rw [hreputation]
    exact h.positive
  · rw [hrows]
    exact h.settable
  · rw [hreputation, hrows]
    exact h.reverted
  · rw [hrows]
    exact h.others

theorem Transferred.transfer [DecidableEq F] (laws : SignLaws F)
    {transfer : TransferReputation F} (hs : Transferred reputation rows height s)
    (hamount : F64.le transfer.amount F64.zero = false)
    (hfinite : F64.isFinite transfer.amount = true)
    (h : applyTransferReputation s transfer height = .ok s') :
    Transferred reputation rows height s' := by
  have hpositive := (sound_of_transfer laws hs.positive hamount hfinite h).1
  simp only [applyTransferReputation, bind_eq_ok_iff, Except.ok.injEq] at h
  obtain ⟨_, -, rfl⟩ := h
  have hentries : (s.reputationTransferUndo.insert height
      (s.reputationTransferUndo[height]?.getD [] ++ [⟨transfer.sender,
        getReputation s.reputation transfer.sender, transfer.dest,
        getReputation s.reputation transfer.dest⟩]))[height]?.getD [] =
      s.reputationTransferUndo[height]?.getD [] ++ [⟨transfer.sender,
        getReputation s.reputation transfer.sender, transfer.dest,
        getReputation s.reputation transfer.dest⟩] := by
    rw [lookup_insert, if_pos rfl, Option.getD_some]
  refine ⟨hpositive, ?_, ?_, ?_⟩
  · rw [hentries]
    intro entry hentry
    rcases List.mem_append.mp hentry with hold | hnew
    · exact hs.settable entry hold
    · obtain rfl := List.mem_singleton.mp hnew
      exact settable_getReputation laws hs.positive _ _
  · -- the newest entry is taken back first
    rw [hentries, revertReputationTransfers, List.reverse_append, List.reverse_singleton,
      List.singleton_append, List.foldl_cons, revertReputationTransfer_of_set laws hs.positive]
    exact hs.reverted
  · intro below hne
    rw [lookup_insert, if_neg hne]
    exact hs.others below hne

end

/-- The reputation before the votes of some periods were counted. -/
def uncounted (entries : List (ConsensusUndoEntry F)) (reputation : Table Address F) :
    Table Address F :=
  entries.reverse.foldl (fun _ entry => clearAndRestore entry.preConsensusReputation) reputation

theorem positive_uncounted {entries : List (ConsensusUndoEntry F)}
    {reputation : Table Address F} (h : Positive reputation) :
    Positive (uncounted entries reputation) :=
  List.foldlRecOn (motive := Positive) _ _ h fun _ _ _ _ => positive_clearAndRestore _

theorem reputation_revertConsensus (s : State F) (entries : List (ConsensusUndoEntry F)) :
    (revertConsensus s entries).reputation = uncounted entries s.reputation := by
  unfold revertConsensus uncounted
  generalize entries.reverse = entries
  induction entries generalizing s with
  | nil => rfl
  | cons entry entries ih =>
      rw [List.foldl_cons, ih, List.foldl_cons]
      rfl

theorem getAllReputations_of_positive {reputation : Table Address F} (h : Positive reputation) :
    getAllReputations reputation = reputation := by
  apply ext_lookup
  intro address
  rw [getAllReputations_lookup]
  cases hrow : reputation[address]? with
  | none => rfl
  | some r => simp [Option.filter, h address r hrow]

theorem reputation_resolvePeriod {L : Library F} {config : DecisionConfig}
    {genesisTs height : Nat} {period : Nat × List DecisionId} {reputation : Table Address F}
    {acc acc' : ConsensusTables F × List (ConsensusUndoEntry F)}
    (hs : Positive acc.1.reputation ∧ uncounted acc.2 acc.1.reputation = reputation)
    (h : resolvePeriod L config genesisTs height acc period = .ok acc') :
    Positive acc'.1.reputation ∧ uncounted acc'.2 acc'.1.reputation = reputation := by
  simp only [resolvePeriod, calculateAndStoreConsensus, bind_eq_ok_iff, Except.ok.injEq] at h
  obtain ⟨_, -, ⟨tables, entry⟩, ⟨result, -, hstore⟩, rfl⟩ := h
  cases result with
  | none =>
      obtain ⟨rfl, rfl⟩ := Prod.mk.inj (Except.ok.inj hstore)
      simpa using hs
  | some result =>
      obtain ⟨⟨tables', entry'⟩, hcommit, hpair⟩ := bind_eq_ok_iff.mp hstore
      obtain ⟨rfl, rfl⟩ := Prod.mk.inj (Except.ok.inj hpair)
      simp only [commitConsensusResult, bind_eq_ok_iff, Except.ok.injEq, Prod.mk.injEq] at hcommit
      obtain ⟨_, -, _, -, _, -, rfl, rfl⟩ := hcommit
      refine ⟨positive_clearAndRestore _, ?_⟩
      have hrestored : clearAndRestore (getAllReputations acc.1.reputation) =
          acc.1.reputation := by
        rw [getAllReputations_of_positive hs.1, clearAndRestore_of_positive hs.1]
      rw [Option.toList_some, uncounted, List.reverse_append, List.reverse_singleton,
        List.singleton_append, List.foldl_cons, hrestored]
      exact hs.2

/-- The metadata of a state that is not its tip, with their undo rows. -/
structure Metadata (F : Type) where
  mainchainTimestamp : Option Nat
  genesisTimestamp : Option Nat
  reputation : Table Address F
  consensusUndo : Table Nat (List (ConsensusUndoEntry F))
  reputationTransferUndo : Table Nat (List (ReputationTransferUndoEntry F))

def metadataOf (s : State F) : Metadata F :=
  ⟨s.mainchainTimestamp, s.genesisTimestamp, s.reputation, s.consensusUndo,
    s.reputationTransferUndo⟩

def Metadata.uncount (m : Metadata F) (height : Nat) : Metadata F :=
  { m with
    reputation := uncounted (m.consensusUndo[height]?.getD []) m.reputation
    consensusUndo := m.consensusUndo.erase height }

def Metadata.untransfer (m : Metadata F) (height : Nat) : Metadata F :=
  { m with
    reputation :=
      revertReputationTransfers m.reputation (m.reputationTransferUndo[height]?.getD [])
    reputationTransferUndo := m.reputationTransferUndo.erase height }

section

variable [DecidableEq F] {L : Library F} {config : DecisionConfig} {archive : Archive}
  {s s' : State F} {block : Block F} {t : Trace F}

/-- The transactions of a block move reputation by transfers only. -/
theorem transferred_applied (laws : SignLaws F) (ht : Connects L config archive s block t)
    (hs : Positive s.reputation) (hrow : s.reputationTransferUndo[t.height]? = none) :
    Transferred (t.opened L s block).reputation s.reputationTransferUndo t.height
      t.applied.state := by
  have hpre := prevalidated_of_prevalidate ht.prevalidated
  have hrows : (t.opened L s block).reputationTransferUndo = s.reputationTransferUndo := by
    rw [opened_eq]
  have hstart : Transferred (t.opened L s block).reputation s.reputationTransferUndo t.height
      (t.opened L s block) := by
    refine ⟨(sound_startBlock laws block.body t.height block.mainchainTimestamp hs).1, ?_, ?_, ?_⟩
    · rw [hrows, hrow]
      exact fun entry hentry => absurd hentry List.not_mem_nil
    · rw [hrows, hrow]
      rfl
    · exact fun below _ => by rw [hrows]
  refine effects_preserve
    (P := fun s' _ => Transferred (t.opened L s block).reputation s.reputationTransferUndo
      t.height s') ?_ (effects_of_applyTransactions ht.applied) hstart
  intro tx htx s₁ u₁ s₂ u₂ hs₁ heffect
  cases heffect with
  | plain _ | trade _ _ _ | submitVote _ _ _ | submitBallot _ _ _ | amplifyBeta _ _ _ => exact hs₁
  | createMarket creation hdata h =>
      obtain ⟨_, _, _, _, -, -, -, -, rfl | ⟨_, rfl⟩⟩ := applyMarketCreation_eq_ok h
      · exact hs₁.congr rfl rfl
      · exact hs₁.congr rfl rfl
  | claimDecision payload hdata h =>
      simp only [applyDecisionClaim, bind_eq_ok_iff, Except.ok.injEq] at h
      obtain ⟨_, -, _, -, rfl⟩ := h
      exact hs₁.congr rfl rfl
  | transferReputation transfer hdata h =>
      have hchecks := hpre.validTxData ((notSkipped_sublist _ _).subset htx) hdata
      simp only [validateTxData, validateReputationTransfer, bind_eq_ok_iff,
        ensure_eq_ok_iff] at hchecks
      obtain ⟨_, -, _, hamount, _, hfinite, -⟩ := hchecks
      exact hs₁.transfer laws hamount hfinite h

theorem metadataOf_finished (ht : Connects L config archive s block t) :
    metadataOf (t.finished L block) =
      ⟨some block.mainchainTimestamp, (t.opened L s block).genesisTimestamp, t.tables.reputation,
        putUndo s.consensusUndo t.height t.resolved,
        t.applied.state.reputationTransferUndo⟩ := by
  have hframe := transitionAndPayoutResolvedMarkets_framed ht.paid
  have hpaid : metadataOf t.paid = metadataOf t.counted := by rw [hframe]; rfl
  have happlied := framed_of_applyTransactions ht.applied
  unfold Framed at happlied
  have hgenesis := congrArg State.genesisTimestamp happlied
  dsimp only at hgenesis
  have hconsensus : t.applied.state.consensusUndo = s.consensusUndo := by
    rw [applied_eq ht.applied]
  calc metadataOf (t.finished L block)
      = { metadataOf t.paid with mainchainTimestamp := some block.mainchainTimestamp } := rfl
    _ = { metadataOf t.counted with mainchainTimestamp := some block.mainchainTimestamp } := by
        rw [hpaid]
    _ = ⟨some block.mainchainTimestamp, t.applied.state.genesisTimestamp, t.tables.reputation,
          putUndo t.applied.state.consensusUndo t.height t.resolved,
          t.applied.state.reputationTransferUndo⟩ := rfl
    _ = _ := by rw [hgenesis, hconsensus]

theorem uncounted_resolved (ht : Connects L config archive s block t)
    (hs : Positive t.applied.state.reputation) :
    Positive t.tables.reputation ∧
      uncounted t.resolved t.tables.reputation = t.applied.state.reputation :=
  foldlM_preserves
    (P := fun acc : ConsensusTables F × List (ConsensusUndoEntry F) =>
      Positive acc.1.reputation ∧ uncounted acc.2 acc.1.reputation = t.applied.state.reputation)
    (fun _ _ _ _ => reputation_resolvePeriod) ht.tables ⟨hs, rfl⟩

end

section

variable {L : Library F} {s s' : State F} {header : Header} {body : Body F} {height : Nat}

theorem metadataOf_undoConsensus (s : State F) (height : Nat) :
    metadataOf (undoConsensus s height) = (metadataOf s).uncount height := by
  unfold undoConsensus
  split
  · rename_i hnone
    have hrow : (metadataOf s).consensusUndo[height]? = none := hnone
    rw [Metadata.uncount, hrow, erase_of_absent hrow]
    rfl
  · rename_i entries hentries
    have hrow : (metadataOf s).consensusUndo[height]? = some entries := hentries
    have hframe : metadataOf (revertConsensus s entries) =
        { metadataOf s with reputation := (revertConsensus s entries).reputation } := by
      refine List.foldlRecOn (motive := fun s' : State F =>
        metadataOf s' = { metadataOf s with reputation := s'.reputation }) _ _ rfl ?_
      intro s' hs' entry _
      exact congrArg (fun m : Metadata F =>
        { m with reputation := clearAndRestore entry.preConsensusReputation }) hs'
    rw [Metadata.uncount, hrow]
    exact congrArg (fun m : Metadata F =>
      { m with consensusUndo := m.consensusUndo.erase height })
      (hframe.trans (by rw [reputation_revertConsensus]))

theorem metadataOf_undoReputationTransfers (s : State F) (height : Nat) :
    metadataOf (undoReputationTransfers s height) = (metadataOf s).untransfer height := by
  unfold undoReputationTransfers
  split
  · rename_i hnone
    have hrow : (metadataOf s).reputationTransferUndo[height]? = none := hnone
    rw [Metadata.untransfer, hrow, erase_of_absent hrow]
    rfl
  · rename_i entries hentries
    have hrow : (metadataOf s).reputationTransferUndo[height]? = some entries := hentries
    rw [Metadata.untransfer, hrow]
    rfl

variable [DecidableEq F]

theorem metadataOf_disconnectTip (hheight : s.height = some height)
    (h : disconnectTip L s header body = .ok s') :
    metadataOf s' = ((metadataOf s).uncount height).untransfer height := by
  obtain ⟨t, ht⟩ := disconnectTip_eq_ok_iff.mp h
  obtain rfl : t.height = height := height_of_checkTip hheight ht.tip
  have hsettled : metadataOf t.unsettled = metadataOf s := by
    rw [undoSettlement_eq ht.unsettled]
    rfl
  have hbefore : metadataOf t.beforeTxs = metadataOf (undoConsensus t.unsettled t.height) := by
    rw [UndoTrace.beforeTxs, undoConsolidation_eq]
    rfl
  have hundone : metadataOf t.undone = metadataOf t.beforeTxs := by
    have hundone := ht.undone
    simp only [undoTransactions, bind_eq_ok_iff, Except.ok.injEq, Prod.mk.injEq] at hundone
    obtain ⟨⟨s₁, deltas⟩, hfold, hstate, -⟩ := hundone
    rw [← hstate, (undoing_foldlM hfold).frame]
    rfl
  have hend : metadataOf s' = metadataOf t.reverted := by
    rw [setPreviousTip_eq ht.previous]
    rfl
  calc metadataOf s'
      = metadataOf (undoReputationTransfers { t.undone with markets := t.markets } t.height) :=
        hend
    _ = (metadataOf t.undone).untransfer t.height := metadataOf_undoReputationTransfers _ _
    _ = ((metadataOf s).uncount t.height).untransfer t.height := by
        rw [hundone, hbefore, metadataOf_undoConsensus, hsettled]

end

/-- Reputations are positive, and so is what the undo rows write back. There are no rows for
blocks that are not connected. -/
structure MetadataKept (chain : List (Block F)) (s : State F) : Prop where
  positive : Positive s.reputation
  settable : ∀ (height : Nat) (entries : List (ReputationTransferUndoEntry F)),
    s.reputationTransferUndo[height]? = some entries → ∀ entry ∈ entries, Settable entry
  transfers : ∀ height, chain.length ≤ height → s.reputationTransferUndo[height]? = none
  counted : ∀ height, chain.length ≤ height → s.consensusUndo[height]? = none

section

variable [DecidableEq F] {L : Library F} {config : DecisionConfig}
  {lib : WithdrawalBundle.BundleLib} {ok : State F → Block F → Prop}
  {okPeg : State F → TwoWayPegData → Prop} {archive : Archive} {chain : List (Block F)}
  {s s' s'' : State F} {block : Block F} {t : Trace F}

omit [DecidableEq F] in
theorem MetadataKept.congr (h : MetadataKept chain s) (hsame : metadataOf s' = metadataOf s) :
    MetadataKept chain s' := by
  have hreputation : s'.reputation = s.reputation := congrArg Metadata.reputation hsame
  have htransfers : s'.reputationTransferUndo = s.reputationTransferUndo :=
    congrArg Metadata.reputationTransferUndo hsame
  have hcounted : s'.consensusUndo = s.consensusUndo := congrArg Metadata.consensusUndo hsame
  refine ⟨?_, ?_, ?_, ?_⟩
  · rw [hreputation]
    exact h.positive
  · rw [htransfers]
    exact h.settable
  · rw [htransfers]
    exact h.transfers
  · rw [hcounted]
    exact h.counted

theorem MetadataKept.connect (laws : SignLaws F) (hs : MetadataKept chain s)
    (hheight : t.height = chain.length) (ht : Connects L config archive s block t) :
    MetadataKept (block :: chain) (t.finished L block) := by
  have htransferred := transferred_applied laws ht hs.positive (hs.transfers _ hheight.ge)
  have hmetadata := metadataOf_finished ht
  have hreputation : (t.finished L block).reputation = t.tables.reputation :=
    congrArg Metadata.reputation hmetadata
  have htransfers : (t.finished L block).reputationTransferUndo =
      t.applied.state.reputationTransferUndo :=
    congrArg Metadata.reputationTransferUndo hmetadata
  have hcounted : (t.finished L block).consensusUndo =
      putUndo s.consensusUndo t.height t.resolved := congrArg Metadata.consensusUndo hmetadata
  refine ⟨?_, ?_, ?_, ?_⟩
  · rw [hreputation]
    exact (uncounted_resolved ht htransferred.positive).1
  · intro height entries hrow
    rw [htransfers] at hrow
    by_cases heq : height = t.height
    · have hsettable := htransferred.settable
      rw [← heq, hrow] at hsettable
      exact hsettable
    · rw [htransferred.others height heq] at hrow
      exact hs.settable height entries hrow
  · intro height hle
    rw [List.length_cons] at hle
    rw [htransfers, htransferred.others height (by omega)]
    exact hs.transfers height (by omega)
  · intro height hle
    rw [List.length_cons] at hle
    rw [hcounted, lookup_putUndo_ne (by omega)]
    exact hs.counted height (by omega)

theorem MetadataKept.disconnect (hs : MetadataKept (block :: chain) s)
    (hheight : s.height = some chain.length)
    (h : disconnectTip L s block.header block.body = .ok s') : MetadataKept chain s' := by
  have hmetadata := metadataOf_disconnectTip hheight h
  have htransfers : s'.reputationTransferUndo = s.reputationTransferUndo.erase chain.length :=
    congrArg Metadata.reputationTransferUndo hmetadata
  have hcounted : s'.consensusUndo = s.consensusUndo.erase chain.length :=
    congrArg Metadata.consensusUndo hmetadata
  refine ⟨?_, ?_, ?_, ?_⟩
  · rw [show s'.reputation = _ from congrArg Metadata.reputation hmetadata]
    refine positive_revertReputationTransfers (positive_uncounted hs.positive) ?_
    intro entry hentry
    cases hrow : s.reputationTransferUndo[chain.length]? with
    | none =>
        rw [show ((metadataOf s).uncount chain.length).reputationTransferUndo[chain.length]? =
          none from hrow] at hentry
        exact absurd hentry List.not_mem_nil
    | some entries =>
        rw [show ((metadataOf s).uncount chain.length).reputationTransferUndo[chain.length]? =
          some entries from hrow] at hentry
        exact hs.settable _ entries hrow entry hentry
  · intro height entries hrow
    rw [htransfers, lookup_erase] at hrow
    split at hrow
    · cases hrow
    · exact hs.settable height entries hrow
  · intro height hle
    rw [htransfers, lookup_erase]
    split
    · rfl
    · rename_i hne
      exact hs.transfers height (by rw [List.length_cons]; omega)
  · intro height hle
    rw [hcounted, lookup_erase]
    split
    · rfl
    · rename_i hne
      exact hs.counted height (by rw [List.length_cons]; omega)

theorem metadataKept_of_run (laws : SignLaws F) (hrun : Run L config lib ok okPeg chain s) :
    MetadataKept chain s := by
  induction hrun with
  | start =>
      refine ⟨positive_empty, ?_, fun _ _ => rfl, fun _ _ => rfl⟩
      intro height entries hrow
      cases hrow
  | connect archive hrun _ h ih =>
      obtain ⟨t, ht, rfl⟩ := connects_of_applyBlock h
      exact ih.connect laws (height_of_prepares (height_of_run hrun) ht.toPrepares) ht
  | disconnect hrun h ih => exact ih.disconnect (height_of_run hrun) h
  | connectPeg _ _ h ih | disconnectPeg _ h ih =>
      obtain ⟨p, -, h⟩ := bind_eq_ok_iff.mp h
      rw [← Except.ok.inj h]
      exact ih.congr rfl

/-- The metadata of the chain, and with them the period, are the same in two states. -/
structure SameMetadata (config : DecisionConfig) (s s' : State F) : Prop where
  tip : s'.tip = s.tip
  height : s'.height = s.height
  mainchainTimestamp : s'.mainchainTimestamp = s.mainchainTimestamp
  genesisTimestamp : s'.genesisTimestamp = s.genesisTimestamp
  reputation : s'.reputation = s.reputation
  period : currentPeriod config s' = currentPeriod config s

/-- A block writes the timestamps that are stored already, and a genesis block gives its
reputation to an address that has it. -/
def WritesSame (s : State F) (block : Block F) : Prop :=
  s.mainchainTimestamp = some block.mainchainTimestamp ∧
    (s.height = none → s.genesisTimestamp = some block.mainchainTimestamp ∧
      ∀ output, block.body.coinbase.outputs.head? = some output →
        s.reputation[output.address]? = some F64.one)

theorem tip_of_roundTrip (hheight : s.height = tipHeight chain)
    (ht : Connects L config archive s block t)
    (h : disconnectTip L (t.finished L block) block.header block.body = .ok s') :
    s'.tip = s.tip ∧ s'.height = s.height := by
  have htip := (prevalidated_of_prevalidate ht.prevalidated).tip
  have hnext : (t.finished L block).height = some chain.length :=
    congrArg some (height_of_prepares hheight ht.toPrepares)
  refine ⟨?_, (height_of_disconnectTip hnext h).trans hheight.symm⟩
  obtain ⟨u, hu⟩ := disconnectTip_eq_ok_iff.mp h
  have hprevious := hu.previous
  rw [← htip]
  unfold setPreviousTip at hprevious
  split at hprevious
  · rename_i hprev _
    rw [← Except.ok.inj hprevious, hprev]
  · rename_i hprev _
    rw [← Except.ok.inj hprevious, hprev]
  · cases hprevious

theorem metadataOf_roundTrip (laws : SignLaws F) (hs : MetadataKept chain s)
    (hheight : s.height = tipHeight chain) (ht : Connects L config archive s block t)
    (h : disconnectTip L (t.finished L block) block.header block.body = .ok s') :
    s'.mainchainTimestamp = some block.mainchainTimestamp ∧
      s'.genesisTimestamp = (t.opened L s block).genesisTimestamp ∧
      s'.reputation = (t.opened L s block).reputation := by
  have hlength : t.height = chain.length := height_of_prepares hheight ht.toPrepares
  have htransferred := transferred_applied laws ht hs.positive (hs.transfers _ hlength.ge)
  have hfinished : (t.finished L block).height = some t.height := rfl
  have hmetadata := metadataOf_disconnectTip hfinished h
  rw [metadataOf_finished ht] at hmetadata
  refine ⟨congrArg Metadata.mainchainTimestamp hmetadata,
    congrArg Metadata.genesisTimestamp hmetadata, ?_⟩
  have hrow : (putUndo s.consensusUndo t.height t.resolved)[t.height]?.getD [] = t.resolved := by
    unfold putUndo
    split
    · rename_i hempty
      rw [hs.counted _ hlength.ge, List.isEmpty_iff.mp hempty, Option.getD_none]
    · rw [lookup_insert, if_pos rfl, Option.getD_some]
  have huncounted := (uncounted_resolved ht htransferred.positive).2
  rw [← hrow] at huncounted
  have hreputation := congrArg Metadata.reputation hmetadata
  refine hreputation.trans ?_
  rw [← htransferred.reverted, ← huncounted]
  rfl

omit [DecidableEq F] in
/-- Opening a block leaves the genesis data exactly if it writes what is there. -/
theorem opened_genesis_iff (laws : SignLaws F) (L : Library F) (block : Block F)
    (hzero : t.height = 0 ↔ s.height = none) :
    ((t.opened L s block).genesisTimestamp = s.genesisTimestamp ∧
        (t.opened L s block).reputation = s.reputation) ↔
      (s.height = none → s.genesisTimestamp = some block.mainchainTimestamp ∧
        ∀ output, block.body.coinbase.outputs.head? = some output →
          s.reputation[output.address]? = some F64.one) := by
  have hopened : ((t.opened L s block).genesisTimestamp = if t.height = 0 then
        some block.mainchainTimestamp else s.genesisTimestamp) ∧
      (t.opened L s block).reputation = if t.height = 0 then
        (block.body.coinbase.outputs.head?).elim s.reputation
          fun output => setReputation s.reputation output.address F64.one
        else s.reputation := by
    unfold Trace.opened startBlock
    split
    · exact ⟨rfl, rfl⟩
    · exact ⟨rfl, rfl⟩
  rw [hopened.1, hopened.2]
  by_cases hnone : s.height = none
  · have hset (output : Output) : setReputation s.reputation output.address F64.one =
        s.reputation ↔ s.reputation[output.address]? = some F64.one := by
      rw [setReputation, if_neg (by simp [laws.not_le_of_pos _ laws.one_pos])]
      constructor
      · intro hsame
        rw [← hsame, lookup_insert, if_pos rfl]
      · exact insert_of_lookup
    rw [if_pos (hzero.mpr hnone), if_pos (hzero.mpr hnone)]
    simp only [hnone, true_implies]
    refine and_congr eq_comm ?_
    cases hhead : block.body.coinbase.outputs.head? with
    | none => simp
    | some output => simpa using hset output
  · rw [if_neg (mt hzero.mp hnone), if_neg (mt hzero.mp hnone)]
    simp [hnone]

/-- In every state of a run, connecting a block and disconnecting it restores the metadata
exactly if the block writes the timestamps, and the genesis reputation, that are stored. -/
theorem sameMetadata_iff (laws : SignLaws F) (hrun : Run L config lib ok okPeg chain s)
    (hconnect : applyBlock L config archive s block = .ok s')
    (hdisconnect : disconnectTip L s' block.header block.body = .ok s'') :
    SameMetadata config s s'' ↔ WritesSame s block := by
  have hheight := height_of_run hrun
  obtain ⟨t, ht, rfl⟩ := connects_of_applyBlock hconnect
  have hlength : t.height = chain.length := height_of_prepares hheight ht.toPrepares
  obtain ⟨htip, hback⟩ := tip_of_roundTrip hheight ht hdisconnect
  obtain ⟨htimestamp, hgenesis, hreputation⟩ :=
    metadataOf_roundTrip laws (metadataKept_of_run laws hrun) hheight ht hdisconnect
  have hzero : t.height = 0 ↔ s.height = none := by
    rw [hlength, hheight]
    cases chain with
    | nil => exact ⟨fun _ => rfl, fun _ => rfl⟩
    | cons b chain => simp [tipHeight]
  have hopened := opened_genesis_iff laws L block hzero
  constructor
  · intro hsame
    refine ⟨hsame.mainchainTimestamp.symm.trans htimestamp, hopened.mp ⟨?_, ?_⟩⟩
    · exact hgenesis.symm.trans hsame.genesisTimestamp
    · exact hreputation.symm.trans hsame.reputation
  · rintro ⟨hstored, hstart⟩
    obtain ⟨hgenesis', hreputation'⟩ := hopened.mpr hstart
    have htimestamp' := htimestamp.trans hstored.symm
    refine ⟨htip, hback, htimestamp', hgenesis.trans hgenesis',
      hreputation.trans hreputation', ?_⟩
    rw [currentPeriod, currentPeriod, htimestamp', hback, hgenesis, hgenesis']

end

/-- A block with one coinbase output for the owner. -/
def timedBlock (prev : Option Header) (timestamp : Nat) : Block Rat :=
  sampleBlock ClaimPaths.timeLibrary prev ⟨[], [⟨owner, .bitcoin 0, []⟩]⟩ [] [] timestamp

def timedGenesis : Block Rat := timedBlock none 1000

/-- A block that is connected to the genesis block and disconnected again. -/
def roundTrip (block : Block Rat) : Except Error (State Rat × State Rat × State Rat) := do
  let apply := applyBlock ClaimPaths.timeLibrary ClaimPaths.timeConfig emptyArchive
  let s ← apply (State.empty Rat) timedGenesis
  let s' ← apply s block
  let s'' ← disconnectTip ClaimPaths.timeLibrary s' block.header block.body
  .ok (s, s', s'')

theorem run_of_roundTrip {block : Block Rat} {s s' s'' : State Rat}
    (h : roundTrip block = .ok (s, s', s'')) :
    Run ClaimPaths.timeLibrary ClaimPaths.timeConfig sampleBundleLib (fun _ _ => True)
        (fun _ _ => True) [timedGenesis] s ∧
      applyBlock ClaimPaths.timeLibrary ClaimPaths.timeConfig emptyArchive s block = .ok s' ∧
      disconnectTip ClaimPaths.timeLibrary s' block.header block.body = .ok s'' := by
  simp only [roundTrip, bind_eq_ok_iff, Except.ok.injEq, Prod.mk.injEq] at h
  obtain ⟨_, hgenesis, _, hconnect, _, hdisconnect, rfl, rfl, rfl⟩ := h
  exact ⟨Run.start.connect emptyArchive trivial hgenesis, hconnect, hdisconnect⟩

/-- A block that begins a period is connected and disconnected: the period has begun. -/
theorem not_sameMetadata_of_later :
    ∃ s s' s'', Run ClaimPaths.timeLibrary ClaimPaths.timeConfig sampleBundleLib
        (fun _ _ => True) (fun _ _ => True) [timedGenesis] s ∧
      applyBlock ClaimPaths.timeLibrary ClaimPaths.timeConfig emptyArchive s
        (timedBlock (some timedGenesis.header) 1100) = .ok s' ∧
      disconnectTip ClaimPaths.timeLibrary s' (timedBlock (some timedGenesis.header) 1100).header
        (timedBlock (some timedGenesis.header) 1100).body = .ok s'' ∧
      currentPeriod ClaimPaths.timeConfig s = .ok 1 ∧
      currentPeriod ClaimPaths.timeConfig s'' = .ok 2 ∧
      ¬ SameMetadata ClaimPaths.timeConfig s s'' := by
  have hcomputed : holds (roundTrip (timedBlock (some timedGenesis.header) 1100)) (fun states =>
      decide (states.1.mainchainTimestamp = some 1000) &&
      decide (states.1.genesisTimestamp = some 1000) &&
      decide (states.2.2.mainchainTimestamp = some 1100) &&
      decide (states.2.2.genesisTimestamp = some 1000)) = true := by
    decide +kernel
  obtain ⟨⟨s, s', s''⟩, htrip, htests⟩ := holds_iff.mp hcomputed
  simp only [Bool.and_eq_true, decide_eq_true_eq] at htests
  obtain ⟨⟨⟨htime, hgenesis⟩, htime'⟩, hgenesis'⟩ := htests
  obtain ⟨hrun, hconnect, hdisconnect⟩ := run_of_roundTrip htrip
  refine ⟨s, s', s'', hrun, hconnect, hdisconnect, ?_, ?_, ?_⟩
  · rw [currentPeriod, htime, hgenesis]
    rfl
  · rw [currentPeriod, htime', hgenesis']
    rfl
  · intro hsame
    have heq := hsame.mainchainTimestamp
    rw [htime, htime'] at heq
    cases heq

/-- A block in a later period than the genesis block. -/
def laterBlock : Block Rat := timedBlock (some timedGenesis.header) 1100

/-- A block with a claim and the timestamp of the block before it. -/
def claimingBlock : Block Rat :=
  sampleBlock ClaimPaths.timeLibrary (some laterBlock.header) ⟨[], [⟨owner, .bitcoin 0, []⟩]⟩
    [⟨[.deposit 11 0], [], [], some (.claimDecision ClaimPaths.blockClaim)⟩] [owner] 1100

/-- The claim is connected to a chain of two blocks and a deposit, and disconnected again. -/
def claimTrip : Except Error (State Rat × State Rat × State Rat) := do
  let apply := applyBlock ClaimPaths.timeLibrary ClaimPaths.timeConfig emptyArchive
  let s ← apply (State.empty Rat) timedGenesis
  let s ← s.connectTwoWayPegData sampleBundleLib ClaimPaths.timeDeposit
  let s ← apply s laterBlock
  let s' ← apply s claimingBlock
  let s'' ← disconnectTip ClaimPaths.timeLibrary s' claimingBlock.header claimingBlock.body
  .ok (s, s', s'')

theorem sameMetadata_iff_claiming :
    ∃ s s' s'', Run ClaimPaths.timeLibrary ClaimPaths.timeConfig sampleBundleLib
        (fun _ _ => True) (fun _ _ => True) [laterBlock, timedGenesis] s ∧
      applyBlock ClaimPaths.timeLibrary ClaimPaths.timeConfig emptyArchive s claimingBlock =
        .ok s' ∧
      disconnectTip ClaimPaths.timeLibrary s' claimingBlock.header claimingBlock.body = .ok s'' ∧
      SameMetadata ClaimPaths.timeConfig s s'' := by
  have hcomputed : holds claimTrip (fun states =>
      decide (states.1.mainchainTimestamp = some 1100) &&
      decide (states.1.height = some 1)) = true := by
    decide +kernel
  obtain ⟨⟨s, s', s''⟩, htrip, htests⟩ := holds_iff.mp hcomputed
  simp only [Bool.and_eq_true, decide_eq_true_eq] at htests
  simp only [claimTrip, bind_eq_ok_iff, Except.ok.injEq, Prod.mk.injEq] at htrip
  obtain ⟨_, hgenesis, _, hpeg, _, hlater, _, hconnect, _, hdisconnect, rfl, rfl, rfl⟩ := htrip
  have hrun : Run ClaimPaths.timeLibrary ClaimPaths.timeConfig sampleBundleLib
      (fun _ _ => True) (fun _ _ => True) [laterBlock, timedGenesis] _ :=
    ((Run.start.connect emptyArchive trivial hgenesis).connectPeg trivial hpeg).connect
      emptyArchive trivial hlater
  refine ⟨_, _, _, hrun, hconnect, hdisconnect, ?_⟩
  refine (sameMetadata_iff signLaws_rat hrun hconnect hdisconnect).mpr ⟨htests.1, ?_⟩
  intro hnone
  rw [htests.2] at hnone
  cases hnone

end Truthcoin.ChainMetadata
