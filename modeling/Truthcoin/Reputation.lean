import Truthcoin.BlockChecks

/-!
# Reputation does not run out

Stored reputations are positive, transfers and the commit of a consensus keep them
so, and once somebody has reputation, somebody always has. The arithmetic that this
takes is a short list of facts about doubles.
-/

namespace Truthcoin.Reputation

open Truthcoin.Types Truthcoin.Table Truthcoin.Fallible Truthcoin.Arithmetic
open Truthcoin.Decisions Truthcoin.Voting Truthcoin.Blocks Truthcoin.Apply
open Truthcoin.Validation Truthcoin.Connect Truthcoin.ApplySteps Truthcoin.ConnectTrace
open Truthcoin.BlockChecks

/-- Facts about the signs of sums and differences of doubles. None of them is about
the size of a rounding error: results are rounded to the nearest double, so the sum of
two positive numbers is not rounded down to zero. -/
structure SignLaws (F : Type) [F64 F] : Prop where
  zero_le : F64.le (F64.zero : F) F64.zero = true
  one_pos : F64.lt F64.zero (F64.one : F) = true
  not_le_of_pos : ∀ x : F, F64.lt F64.zero x = true → F64.le x F64.zero = false
  pos_of_finite : ∀ x : F, F64.isFinite x = true → F64.le x F64.zero = false →
    F64.lt F64.zero x = true
  zero_add_pos : ∀ x : F, F64.lt F64.zero x = true → F64.lt F64.zero (F64.add F64.zero x) = true
  add_pos : ∀ x y : F, F64.lt F64.zero x = true → F64.lt F64.zero y = true →
    F64.lt F64.zero (F64.add x y) = true
  sub_pos : ∀ x y : F, F64.lt F64.zero x = true → F64.isFinite y = true →
    F64.le (F64.sub x y) F64.zero = false → F64.lt F64.zero (F64.sub x y) = true
  zero_off_anchor : F64.lt (F64.ofRat (1 / 10 ^ 6) : F) (F64.abs (F64.sub F64.zero F64.one)) =
    true
  /-- The only holder keeps a positive reputation when it is corrected to the total. -/
  reanchored_pos : ∀ x : F, F64.lt F64.zero x = true →
    F64.lt (F64.ofRat (1 / 10 ^ 6)) (F64.abs (F64.sub (F64.add F64.zero x) F64.one)) = false →
    F64.lt F64.zero (F64.add x (F64.sub F64.one (F64.add F64.zero x))) = true

theorem lt_rat {x y : Rat} : F64.lt x y = true ↔ x < y := decide_eq_true_iff

theorem lt_rat_false {x y : Rat} : F64.lt x y = false ↔ y ≤ x :=
  decide_eq_false_iff_not.trans not_lt

theorem le_rat {x y : Rat} : F64.le x y = false ↔ y < x :=
  decide_eq_false_iff_not.trans not_le

theorem signLaws_rat : SignLaws Rat where
  zero_le := by decide +kernel
  one_pos := by decide +kernel
  not_le_of_pos _ h := le_rat.mpr (lt_rat.mp h)
  pos_of_finite _ _ h := lt_rat.mpr (le_rat.mp h)
  zero_add_pos x h := by
    rw [lt_rat] at *
    change (0 : Rat) < 0 + x
    rw [zero_add]
    exact h
  add_pos x y hx hy := by
    rw [lt_rat] at *
    exact lt_of_lt_of_le hx (le_add_of_nonneg_right hy.le)
  sub_pos _ _ _ _ h := lt_rat.mpr (le_rat.mp h)
  zero_off_anchor := by decide +kernel
  reanchored_pos x hx _ := by
    rw [lt_rat]
    change (0 : Rat) < x + (1 - (0 + x))
    simp

variable {F : Type} [F64 F]

/-- All stored reputations are positive. -/
def Positive (reputation : Table Address F) : Prop :=
  ∀ (address : Address) (r : F), reputation[address]? = some r → F64.lt F64.zero r = true

/-- Somebody has reputation. -/
def Held (reputation : Table Address F) : Prop :=
  ∃ (address : Address) (r : F), reputation[address]? = some r ∧ F64.lt F64.zero r = true

theorem positive_empty : Positive (∅ : Table Address F) := by
  intro address r h
  simp at h

theorem Positive.insert {reputation : Table Address F} (h : Positive reputation)
    {address : Address} {r : F} (hr : F64.lt F64.zero r = true) :
    Positive (reputation.insert address r) := by
  intro address' r' hrow
  rw [Std.ExtTreeMap.getElem?_insert] at hrow
  split at hrow
  · exact Option.some.inj hrow ▸ hr
  · exact h address' r' hrow

theorem Positive.erase {reputation : Table Address F} (h : Positive reputation)
    (address : Address) : Positive (reputation.erase address) := by
  intro address' r' hrow
  rw [Std.ExtTreeMap.getElem?_erase] at hrow
  split at hrow
  · cases hrow
  · exact h address' r' hrow

theorem held_insert {reputation : Table Address F} {address : Address} {r : F}
    (hr : F64.lt F64.zero r = true) : Held (reputation.insert address r) :=
  ⟨address, r, by simp, hr⟩

theorem Positive.held {reputation : Table Address F} (h : Positive reputation)
    (hne : reputation.toList ≠ []) : Held reputation := by
  obtain ⟨row, hrow⟩ := List.exists_mem_of_ne_nil _ hne
  exact ⟨row.1, row.2, mem_toList_iff.mp hrow, h _ _ (mem_toList_iff.mp hrow)⟩

theorem foldl_add_pos (laws : SignLaws F) {xs : List F}
    (hxs : ∀ x ∈ xs, F64.lt F64.zero x = true) {a : F} (ha : F64.lt F64.zero a = true) :
    F64.lt F64.zero (xs.foldl F64.add a) = true := by
  induction xs generalizing a with
  | nil => exact ha
  | cons x xs ih =>
      exact ih (fun y hy => hxs y (by simp [hy])) (laws.add_pos a x ha (hxs x (by simp)))

theorem sum_pos (laws : SignLaws F) {xs : List F}
    (hxs : ∀ x ∈ xs, F64.lt F64.zero x = true) (hne : xs ≠ []) :
    F64.lt F64.zero (F64.sum xs) = true := by
  cases xs with
  | nil => exact absurd rfl hne
  | cons x xs =>
      rw [F64.sum, List.foldl_cons]
      exact foldl_add_pos laws (fun y hy => hxs y (by simp [hy]))
        (laws.zero_add_pos x (hxs x (by simp)))

theorem getAllReputations_lookup (reputation : Table Address F) (address : Address) :
    (getAllReputations reputation)[address]? =
      reputation[address]?.filter fun r => F64.lt F64.zero r := by
  simp [getAllReputations]

theorem positive_getAllReputations (reputation : Table Address F) :
    Positive (getAllReputations reputation) := by
  intro address r hrow
  rw [getAllReputations_lookup, Option.filter_eq_some_iff] at hrow
  exact hrow.2

theorem total_pos (laws : SignLaws F) {reputation : Table Address F} (h : Held reputation) :
    (getAllReputations reputation).isEmpty = false ∧
      F64.le (totalReputation (getAllReputations reputation)) F64.zero = false := by
  obtain ⟨address, r, hrow, hr⟩ := h
  have hlookup : (getAllReputations reputation)[address]? = some r := by
    rw [getAllReputations_lookup, hrow]
    simp [hr]
  have hmem : (address, r) ∈ (getAllReputations reputation).toList := mem_toList_iff.mpr hlookup
  constructor
  · refine Bool.eq_false_iff.mpr fun hempty => ?_
    rw [Std.ExtTreeMap.isEmpty_iff.mp hempty] at hlookup
    simp at hlookup
  · refine laws.not_le_of_pos _ (sum_pos laws ?_ ?_)
    · intro x hx
      obtain ⟨row, hrow, rfl⟩ := List.mem_map.mp hx
      exact positive_getAllReputations reputation _ _ (mem_toList_iff.mp hrow)
    · exact List.ne_nil_of_mem (List.mem_map_of_mem hmem)

/-- Somebody has reputation, and nobody's is stored as zero or less. -/
def Sound (reputation : Table Address F) : Prop :=
  Positive reputation ∧ Held reputation

theorem Positive.setReputation {reputation : Table Address F} (h : Positive reputation)
    {address : Address} {r : F}
    (hr : F64.le r F64.zero = false → F64.lt F64.zero r = true) :
    Positive (setReputation reputation address r) := by
  unfold Voting.setReputation
  split
  · exact h.erase address
  · rename_i hle
    exact h.insert (hr (Bool.eq_false_iff.mpr hle))

theorem held_setReputation (laws : SignLaws F) {reputation : Table Address F}
    {address : Address} {r : F} (hr : F64.lt F64.zero r = true) :
    Held (setReputation reputation address r) := by
  rw [Voting.setReputation, if_neg (by simp [laws.not_le_of_pos r hr])]
  exact held_insert hr

theorem getReputation_cases {reputation : Table Address F} (h : Positive reputation)
    (address : Address) :
    getReputation reputation address = F64.zero ∨
      F64.lt F64.zero (getReputation reputation address) = true := by
  unfold getReputation
  cases hrow : reputation[address]? with
  | none => exact .inl rfl
  | some r => exact .inr (h address r hrow)

theorem sound_of_transfer (laws : SignLaws F) [DecidableEq F] {s s' : State F}
    {transfer : TransferReputation F} {height : Nat} (hs : Positive s.reputation)
    (hamount : F64.le transfer.amount F64.zero = false)
    (hfinite : F64.isFinite transfer.amount = true)
    (h : applyTransferReputation s transfer height = .ok s') : Sound s'.reputation := by
  simp only [applyTransferReputation, bind_eq_ok_iff, ensure_eq_ok_iff, Except.ok.injEq] at h
  obtain ⟨_, henough, rfl⟩ := h
  have hpos := laws.pos_of_finite _ hfinite hamount
  have hsender : F64.lt F64.zero (getReputation s.reputation transfer.sender) = true := by
    rcases getReputation_cases hs transfer.sender with hzero | hsender
    · rw [hzero, hpos] at henough
      cases henough
    · exact hsender
  have hreceiver : F64.lt F64.zero
      (F64.add (getReputation s.reputation transfer.dest) transfer.amount) = true := by
    rcases getReputation_cases hs transfer.dest with hzero | hdest
    · rw [hzero]
      exact laws.zero_add_pos _ hpos
    · exact laws.add_pos _ _ hdest hpos
  refine ⟨?_, held_setReputation laws hreceiver⟩
  exact (hs.setReputation (laws.sub_pos _ _ hsender hfinite)).setReputation fun _ => hreceiver

theorem positive_clearAndRestore (snapshot : Table Address F) :
    Positive (clearAndRestore snapshot) := by
  unfold clearAndRestore
  refine List.foldlRecOn _ _ positive_empty ?_
  intro rows hrows row _
  split
  · rename_i hpos
    exact hrows.insert hpos
  · exact hrows

theorem lookup_clearAndRestore (snapshot : Table Address F) (address : Address) :
    (clearAndRestore snapshot)[address]? =
      snapshot[address]?.filter fun rep => F64.lt F64.zero rep := by
  rw [clearAndRestore, lookup_foldl_toList
    (g := fun rep old => if F64.lt F64.zero rep then some rep else old)]
  · cases snapshot[address]? with
    | none => rfl
    | some rep => simp [Option.filter]
  · intro rows row address' hne
    split
    · grind
    · rfl
  · intro rows row
    split
    · grind
    · rfl

theorem clearAndRestore_of_positive {reputation : Table Address F} (h : Positive reputation) :
    clearAndRestore reputation = reputation := by
  apply ext_lookup
  intro address
  rw [lookup_clearAndRestore]
  cases hrow : reputation[address]? with
  | none => rfl
  | some rep => simp [Option.filter, h address rep hrow]

theorem held_clearAndRestore {snapshot : Table Address F} (h : Held snapshot) :
    Held (clearAndRestore snapshot) := by
  obtain ⟨address, r, hrow, hr⟩ := h
  obtain ⟨before, after, hsplit⟩ := List.append_of_mem (mem_toList_iff.mpr hrow : (address, r) ∈ _)
  rw [clearAndRestore, hsplit, List.foldl_append, List.foldl_cons, if_pos hr]
  refine List.foldlRecOn (motive := Held) _ _ (held_insert hr) ?_
  rintro rows ⟨a, x, hx, hpos⟩ row _
  split
  · rename_i hrow
    exact held_insert hrow
  · exact ⟨a, x, hx, hpos⟩

theorem positive_computePostConsensusReputation {pre : Table Address F} (h : Positive pre)
    (updates : Table Address F) :
    Positive (computePostConsensusReputation pre updates) := by
  unfold computePostConsensusReputation
  refine List.foldlRecOn _ _ h ?_
  intro rows hrows row _
  split
  · rename_i hpos
    exact hrows.insert hpos
  · exact hrows.erase row.1

theorem held_insert_of_two {post : Table Address F} (h : Positive post) {row row' : Address × F}
    {rows : List (Address × F)} (hrows : post.toList = row :: row' :: rows)
    (address : Address) (r : F) : Held (post.insert address r) := by
  have hdistinct := toList_keys_nodup post
  rw [hrows, List.map_cons, List.map_cons, List.nodup_cons, List.mem_cons, not_or] at hdistinct
  obtain ⟨other, hother, hne⟩ : ∃ other ∈ post.toList, other.1 ≠ address := by
    by_cases hfirst : row.1 = address
    · exact ⟨row', by simp [hrows], fun heq => hdistinct.1.1 (hfirst.trans heq.symm)⟩
    · exact ⟨row, by simp [hrows], hfirst⟩
  have hlookup := mem_toList_iff.mp hother
  refine ⟨other.1, other.2, ?_, h _ _ hlookup⟩
  rw [Std.ExtTreeMap.getElem?_insert, if_neg (by simpa using hne.symm)]
  exact hlookup

theorem held_reanchorToInitialTotal (laws : SignLaws F) {pre post : Table Address F}
    (hpost : Positive post) (hverified : verifyReputationConservation pre post = .ok ()) :
    Held (reanchorToInitialTotal post) := by
  simp only [verifyReputationConservation, bind_eq_ok_iff, ensure_eq_ok_iff] at hverified
  obtain ⟨-, -, hanchor⟩ := hverified
  have hne : post.toList ≠ [] := by
    intro hempty
    rw [totalReputation, hempty] at hanchor
    exact absurd (laws.zero_off_anchor.symm.trans hanchor) (by simp)
  simp only [reanchorToInitialTotal]
  split
  · exact hpost.held hne
  cases hrows : post.toList with
  | nil => exact absurd hrows hne
  | cons row rows =>
      cases rows with
      | nil =>
          have hpos := hpost _ _ (mem_toList_iff.mp (hrows ▸ List.mem_singleton_self row))
          rw [totalReputation, hrows] at hanchor ⊢
          exact held_insert (laws.reanchored_pos row.2 hpos hanchor)
      | cons row' rows => exact held_insert_of_two hpost hrows _ _

theorem sound_of_commitConsensusResult (laws : SignLaws F) {tables tables' : ConsensusTables F}
    {result : ConsensusResult F} {entry : ConsensusUndoEntry F}
    (h : commitConsensusResult tables result = .ok (tables', entry)) :
    Sound tables'.reputation := by
  simp only [commitConsensusResult, bind_eq_ok_iff, Except.ok.injEq, Prod.mk.injEq] at h
  obtain ⟨_, -, _, hverified, _, -, rfl, -⟩ := h
  refine ⟨positive_clearAndRestore _, held_clearAndRestore ?_⟩
  refine held_reanchorToInitialTotal laws ?_ hverified
  exact positive_computePostConsensusReputation (positive_getAllReputations _) _

/-- Reputations are positive, and where there are votes there is reputation. -/
structure Backed (votes : Table VoteMatrixKey (VoteMatrixEntry F))
    (reputation : Table Address F) : Prop where
  positive : Positive reputation
  held : votes = ∅ ∨ Held reputation

theorem held_of_validateVoter (laws : SignLaws F) {s : State F} {tx : FilledTransaction F}
    {voter : Address} {u : Unit} (hs : Positive s.reputation)
    (h : validateVoter s tx voter = .ok u) : Held s.reputation := by
  simp only [validateVoter, validateVoterEligibility, bind_eq_ok_iff, ensure_eq_ok_iff] at h
  obtain ⟨-, -, hle⟩ := h
  cases hrow : s.reputation[voter]? with
  | some r => exact ⟨voter, r, hrow, hs voter r hrow⟩
  | none =>
      rw [getReputation, hrow, Option.getD_none, laws.zero_le] at hle
      cases hle

variable [DecidableEq F] {L : Library F} {config : DecisionConfig} {archive : Archive}
  {s : State F} {block : Block F} {t : Trace F}

omit [DecidableEq F] in
theorem sound_startBlock (laws : SignLaws F) (body : Body F) (height timestamp : Nat)
    (hs : Positive s.reputation) :
    Positive (startBlock s body height timestamp).reputation ∧
      (Held s.reputation → Held (startBlock s body height timestamp).reputation) := by
  unfold startBlock recordMinting startGenesis
  split
  · cases body.coinbase.outputs.head? with
    | none => exact ⟨hs, id⟩
    | some output =>
        exact ⟨hs.setReputation fun _ => laws.one_pos,
          fun _ => held_setReputation laws laws.one_pos⟩
  · exact ⟨hs, id⟩

/-- After the transactions of a block, votes are backed by reputation if they were
before it. -/
theorem Backed.changed (laws : SignLaws F) (ht : Prepares L config archive s block t)
    (hs : Backed s.voting.votes s.reputation) :
    Backed t.changed.voting.votes t.applied.state.reputation := by
  have hpre := prevalidated_of_prevalidate ht.prevalidated
  obtain ⟨hstart, hheld⟩ :=
    sound_startBlock laws block.body t.height block.mainchainTimestamp hs.positive
  have hopened : Positive (t.opened L s block).reputation ∧
      (Held s.reputation → Held (t.opened L s block).reputation) := ⟨hstart, hheld⟩
  have heffects := effects_preserve
    (P := fun s' u' => Positive s'.reputation ∧ (Held s.reputation → Held s'.reputation) ∧
      (u'.voteSubmissions ≠ [] → Held s.reputation)) ?_
    (effects_of_applyTransactions ht.applied) ⟨hopened.1, hopened.2, by simp [StateUpdate.new]⟩
  · obtain ⟨hpositive, hkept, hvotes⟩ := heffects
    refine ⟨hpositive, ?_⟩
    by_cases hsubmitted : t.applied.update.voteSubmissions = []
    · rcases hs.held with hempty | hheld
      · left
        have hframe := congrArg State.voting (applied_eq ht.applied)
        simp only at hframe
        simp [Trace.changed, hsubmitted, hframe, hempty]
      · exact .inr (hkept hheld)
    · exact .inr (hkept (hvotes hsubmitted))
  · rintro tx htx s₁ u₁ s₂ u₂ ⟨hpositive, hkept, hvotes⟩ heffect
    have hvalid : ∀ data, tx.transaction.data = some data →
        validateTxData L config archive s tx (some t.pre.nextHeight) data = .ok () := fun data =>
      hpre.validTxData ((notSkipped_sublist _ _).subset htx)
    cases heffect with
    | plain hdata => exact ⟨hpositive, hkept, hvotes⟩
    | trade trade hdata h =>
        rw [← applyTrade_voteSubmissions h] at hvotes
        exact ⟨hpositive, hkept, hvotes⟩
    | createMarket creation hdata h =>
        obtain ⟨_, _, _, _, -, -, -, rfl, rfl | ⟨_, rfl⟩⟩ := applyMarketCreation_eq_ok h
        all_goals exact ⟨hpositive, hkept, hvotes⟩
    | claimDecision payload hdata h =>
        simp only [applyDecisionClaim, bind_eq_ok_iff, Except.ok.injEq] at h
        obtain ⟨_, -, _, -, rfl⟩ := h
        exact ⟨hpositive, hkept, hvotes⟩
    | submitVote vote hdata h =>
        obtain ⟨_, hvoter, -⟩ := bind_eq_ok_iff.mp (hvalid _ hdata)
        exact ⟨hpositive, hkept, fun _ => held_of_validateVoter laws hs.positive hvoter⟩
    | submitBallot ballot hdata h =>
        obtain ⟨_, hvoter, -⟩ := bind_eq_ok_iff.mp (hvalid _ hdata)
        exact ⟨hpositive, hkept, fun _ => held_of_validateVoter laws hs.positive hvoter⟩
    | transferReputation transfer hdata h =>
        have hchecks := hvalid _ hdata
        simp only [validateTxData, validateReputationTransfer, bind_eq_ok_iff,
          ensure_eq_ok_iff] at hchecks
        obtain ⟨_, -, _, hamount, _, hfinite, -⟩ := hchecks
        obtain ⟨hpositive', hheld'⟩ := sound_of_transfer laws hpositive hamount hfinite h
        exact ⟨hpositive', fun _ => hheld', hvotes⟩
    | amplifyBeta amplify hdata h =>
        obtain ⟨_, -, h⟩ := bind_eq_ok_iff.mp h
        rw [← Except.ok.inj h]
        exact ⟨hpositive, hkept, hvotes⟩

end Truthcoin.Reputation
