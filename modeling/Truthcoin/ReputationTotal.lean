import Truthcoin.RationalRounding
import Truthcoin.Reputation

/-!
# The total of all reputations

In exact arithmetic. A transfer keeps the total. A commit gives the difference between
the new total and one to the greatest holder, so the total is one afterwards, unless
there is more to take away than the greatest holder has.
-/

namespace Truthcoin.ReputationTotal

open Truthcoin.Types Truthcoin.Table Truthcoin.Fallible Truthcoin.Voting Truthcoin.Blocks
open Truthcoin.Apply Truthcoin.Validation Truthcoin.Reputation Truthcoin.RationalRounding

variable {t : Table Address Rat}

theorem totalReputation_eq_sum (t : Table Address Rat) :
    totalReputation t = (t.toList.map Prod.snd).sum := by
  rw [List.sum_eq_foldl]
  rfl

theorem total_insert_of_absent {address : Address} (rep : Rat) (h : t[address]? = none) :
    totalReputation (t.insert address rep) = totalReputation t + rep := by
  rw [totalReputation_eq_sum, totalReputation_eq_sum,
    ((toList_insert_perm rep h).map Prod.snd).sum_eq, List.map_cons, List.sum_cons, add_comm]

theorem total_erase (t : Table Address Rat) (address : Address) :
    totalReputation (t.erase address) = totalReputation t - getReputation t address := by
  unfold getReputation
  cases h : t[address]? with
  | none =>
      rw [erase_of_absent h]
      exact (sub_zero _).symm
  | some rep =>
      have habsent : (t.erase address)[address]? = none := by grind
      rw [eq_sub_iff_add_eq]
      exact (total_insert_of_absent rep habsent).symm.trans (by rw [insert_erase_of_lookup h])

theorem total_insert (t : Table Address Rat) (address : Address) (rep : Rat) :
    totalReputation (t.insert address rep) =
      totalReputation t - getReputation t address + rep := by
  have habsent : (t.erase address)[address]? = none := by grind
  have hinsert : t.insert address rep = (t.erase address).insert address rep := by
    apply ext_lookup
    intro address'
    grind
  rw [hinsert, total_insert_of_absent rep habsent, total_erase]

theorem total_setReputation (t : Table Address Rat) (address : Address) {rep : Rat}
    (hrep : 0 ≤ rep) :
    totalReputation (setReputation t address rep) =
      totalReputation t - getReputation t address + rep := by
  unfold setReputation
  split
  · rename_i hle
    have hzero : rep ≤ 0 := of_decide_eq_true hle
    rw [total_erase, le_antisymm hzero hrep, add_zero]
  · exact total_insert t address rep

theorem getReputation_setReputation_of_ne {address address' : Address} (hne : address' ≠ address)
    (rep : Rat) : getReputation (setReputation t address rep) address' =
      getReputation t address' := by
  unfold getReputation setReputation
  split
  · grind
  · grind

/-- No reputation is negative. -/
def Nonneg (reputation : Table Address Rat) : Prop :=
  ∀ (address : Address) (rep : Rat), reputation[address]? = some rep → 0 ≤ rep

theorem getReputation_nonneg (h : Nonneg t) (address : Address) :
    0 ≤ getReputation t address := by
  unfold getReputation
  cases hrep : t[address]? with
  | none => exact le_rfl
  | some rep => exact h address rep hrep

theorem Nonneg.insert (h : Nonneg t) {address : Address} {rep : Rat} (hrep : 0 ≤ rep) :
    Nonneg (t.insert address rep) := by
  intro address' rep' hrow
  by_cases heq : address' = address
  · grind
  · exact h address' rep' (by grind)

theorem Nonneg.erase (h : Nonneg t) (address : Address) : Nonneg (t.erase address) := by
  intro address' rep hrow
  exact h address' rep (by grind)

theorem Nonneg.setReputation (h : Nonneg t) (address : Address) {rep : Rat} (hrep : 0 ≤ rep) :
    Nonneg (setReputation t address rep) := by
  unfold Voting.setReputation
  split
  · exact h.erase address
  · exact h.insert hrep

theorem sum_filter_pos {rows : List (Address × Rat)} (h : ∀ row ∈ rows, 0 ≤ row.2) :
    ((rows.filter fun row => decide (0 < row.2)).map Prod.snd).sum =
      (rows.map Prod.snd).sum := by
  induction rows with
  | nil => rfl
  | cons row rows ih =>
      have hrest := ih fun row' hrow' => h row' (List.mem_cons_of_mem row hrow')
      rw [List.filter_cons, List.map_cons, List.sum_cons]
      split
      · rw [List.map_cons, List.sum_cons, hrest]
      · rename_i hzero
        rw [decide_eq_true_eq, not_lt] at hzero
        rw [hrest, le_antisymm hzero (h row List.mem_cons_self), zero_add]

theorem nonneg_of_positive (h : Positive t) : Nonneg t :=
  fun address rep hrow => (of_decide_eq_true (h address rep hrow)).le

theorem total_restore_insert (h : Positive t) (address : Address) (rep : Rat) :
    totalReputation (clearAndRestore (t.insert address rep)) =
      totalReputation t - getReputation t address + max 0 rep := by
  by_cases hpos : 0 < rep
  · rw [clearAndRestore_of_positive (h.insert (lt_rat.mpr hpos)), total_insert,
      max_eq_right hpos.le]
  · have herase : clearAndRestore (t.insert address rep) = t.erase address := by
      apply ext_lookup
      intro address'
      rw [lookup_clearAndRestore]
      by_cases heq : address' = address
      · have hneg : F64.lt F64.zero rep = false := lt_rat_false.mpr (not_lt.mp hpos)
        simp [heq, Option.filter, hneg]
      · have hlookup := congrArg (·[address']?) (clearAndRestore_of_positive h)
        simp only [lookup_clearAndRestore] at hlookup
        grind
    rw [herase, total_erase, max_eq_left (not_lt.mp hpos), add_zero]

theorem greaterHolder_spec (best row : Address × Rat) :
    (greaterHolder best row = best ∨ greaterHolder best row = row) ∧
      best.2 ≤ (greaterHolder best row).2 ∧ row.2 ≤ (greaterHolder best row).2 := by
  unfold greaterHolder
  split
  · rename_i hlt
    exact ⟨.inl rfl, le_rfl, (lt_rat.mp hlt).le⟩
  · rename_i hge
    have hle : best.2 ≤ row.2 := lt_rat_false.mp (Bool.eq_false_iff.mpr hge)
    split
    · exact ⟨.inr rfl, hle, le_rfl⟩
    · rename_i hge'
      have hle' : row.2 ≤ best.2 := lt_rat_false.mp (Bool.eq_false_iff.mpr hge')
      split
      · exact ⟨.inr rfl, hle, le_rfl⟩
      · exact ⟨.inl rfl, le_rfl, hle'⟩

theorem foldl_greaterHolder_spec (rows : List (Address × Rat)) (best : Address × Rat) :
    rows.foldl greaterHolder best ∈ best :: rows ∧
      ∀ row ∈ best :: rows, row.2 ≤ (rows.foldl greaterHolder best).2 := by
  induction rows generalizing best with
  | nil =>
      refine ⟨List.mem_cons_self, ?_⟩
      intro row hrow
      rw [List.mem_singleton.mp hrow]
      exact le_rfl
  | cons row rows ih =>
      obtain ⟨hmem, hmax⟩ := ih (greaterHolder best row)
      obtain ⟨hchosen, hbest, hrow⟩ := greaterHolder_spec best row
      have hgreater := hmax _ List.mem_cons_self
      rw [List.foldl_cons]
      constructor
      · rcases List.mem_cons.mp hmem with heq | hmem
        · rw [heq]
          rcases hchosen with hchosen | hchosen
          · rw [hchosen]
            exact List.mem_cons_self
          · rw [hchosen]
            exact List.mem_cons_of_mem best List.mem_cons_self
        · exact List.mem_cons_of_mem best (List.mem_cons_of_mem row hmem)
      · intro row' hrow'
        rcases List.mem_cons.mp hrow' with rfl | hrow'
        · exact hbest.trans hgreater
        rcases List.mem_cons.mp hrow' with rfl | hrow'
        · exact hrow.trans hgreater
        · exact hmax row' (List.mem_cons_of_mem _ hrow')

theorem greatestHolder_spec {rows : List (Address × Rat)} (h : rows ≠ []) :
    ∃ best ∈ rows, greatestHolder rows = some best ∧ ∀ row ∈ rows, row.2 ≤ best.2 := by
  cases rows with
  | nil => exact absurd rfl h
  | cons row rows =>
      obtain ⟨hmem, hmax⟩ := foldl_greaterHolder_spec rows row
      exact ⟨_, hmem, rfl, hmax⟩

/-- Some holder has at least what the total is over one. -/
def Absorbed (post : Table Address Rat) : Prop :=
  ∃ row ∈ post.toList, totalReputation post - 1 ≤ row.2

theorem verified_iff {pre post : Table Address Rat} :
    verifyReputationConservation pre post = .ok () ↔
      |totalReputation post - totalReputation pre| ≤ 1 / 10 ^ 9 ∧
        |totalReputation post - 1| ≤ 1 / 10 ^ 6 := by
  simp only [verifyReputationConservation, bind_eq_ok_iff, ensure_eq_ok_iff, abs_eq]
  constructor
  · rintro ⟨-, hdrift, hanchor⟩
    exact ⟨lt_rat_false.mp hdrift, lt_rat_false.mp hanchor⟩
  · rintro ⟨hdrift, hanchor⟩
    exact ⟨(), lt_rat_false.mpr hdrift, lt_rat_false.mpr hanchor⟩

theorem toList_ne_nil_of_total {post : Table Address Rat} (h : totalReputation post ≠ 0) :
    post.toList ≠ [] := by
  intro hempty
  rw [totalReputation_eq_sum, hempty] at h
  exact h rfl

theorem reanchored_eq {post : Table Address Rat} {best : Address × Rat}
    (hgreatest : greatestHolder post.toList = some best) :
    reanchorToInitialTotal post =
      if totalReputation post = 1 then post
      else post.insert best.1 (best.2 + (1 - totalReputation post)) := by
  have hzero : F64.eq (F64.sub F64.one (totalReputation post)) F64.zero = true ↔
      totalReputation post = 1 := by
    show decide (1 - totalReputation post = 0) = true ↔ _
    rw [decide_eq_true_iff, sub_eq_zero, eq_comm]
  simp only [reanchorToInitialTotal, hzero, hgreatest]
  rfl

theorem total_reanchored_iff {post : Table Address Rat} (h : Positive post)
    (hne : post.toList ≠ []) :
    totalReputation (clearAndRestore (reanchorToInitialTotal post)) = 1 ↔ Absorbed post := by
  obtain ⟨best, hbest, hgreatest, hmax⟩ := greatestHolder_spec hne
  have hlookup : getReputation post best.1 = best.2 := by
    rw [getReputation, mem_toList_iff.mp hbest, Option.getD_some]
  have habsorbed : Absorbed post ↔ totalReputation post - 1 ≤ best.2 := by
    constructor
    · rintro ⟨row, hrow, hle⟩
      exact hle.trans (hmax row hrow)
    · intro hle
      exact ⟨best, hbest, hle⟩
  rw [habsorbed, reanchored_eq hgreatest]
  split
  · -- nothing is over, and nothing changes
    rename_i hone
    have hpos : 0 < best.2 := lt_rat.mp (h _ _ (mem_toList_iff.mp hbest))
    rw [clearAndRestore_of_positive h, hone, sub_self]
    exact ⟨fun _ => hpos.le, fun _ => rfl⟩
  · rw [total_restore_insert h, hlookup]
    constructor
    · intro htotal
      by_contra hover
      rw [max_eq_left (by linarith)] at htotal
      linarith
    · intro hle
      rw [max_eq_right (by linarith)]
      ring

section

variable {tables tables' : ConsensusTables Rat} {result : ConsensusResult Rat}
  {entry : ConsensusUndoEntry Rat}

theorem lookup_computePostConsensusReputation (pre updates : Table Address Rat)
    (address : Address) :
    (computePostConsensusReputation pre updates)[address]? =
      match updates[address]? with
      | some rep => if F64.lt F64.zero rep then some rep else none
      | none => pre[address]? := by
  rw [computePostConsensusReputation, lookup_foldl_toList
    (g := fun rep _ => if F64.lt F64.zero rep then some rep else none)]
  · cases updates[address]? with
    | none => rfl
    | some rep => rfl
  · intro rows row address' hne
    split
    · grind
    · grind
  · intro rows row
    split
    · grind
    · grind

theorem total_computePostConsensusReputation {pre updates : Table Address Rat}
    (hupdates : Nonneg updates)
    (hkeys : ∀ (address : Address) (rep : Rat), pre[address]? = some rep →
      ∃ rep', updates[address]? = some rep') :
    totalReputation (computePostConsensusReputation pre updates) = totalReputation updates := by
  have hrows : (computePostConsensusReputation pre updates).toList =
      updates.toList.filter fun row => decide (0 < row.2) := by
    refine toList_eq_filter fun address rep => ?_
    rw [lookup_computePostConsensusReputation, decide_eq_true_eq]
    cases hupdate : updates[address]? with
    | none =>
        cases hpre : pre[address]? with
        | none => simp
        | some rep' =>
            obtain ⟨rep'', hrep''⟩ := hkeys address rep' hpre
            rw [hupdate] at hrep''
            cases hrep''
    | some rep' =>
        have hpos : F64.lt F64.zero rep' = decide (0 < rep') := rfl
        simp only [hpos, decide_eq_true_eq]
        split
        · grind
        · grind
  rw [totalReputation_eq_sum, totalReputation_eq_sum, hrows]
  refine sum_filter_pos fun row hrow => ?_
  exact hupdates row.1 row.2 (mem_toList_iff.mp hrow)

/-- The reputations that a commit anchors. -/
def postReputation (reputation : Table Address Rat) (result : ConsensusResult Rat) :
    Table Address Rat :=
  computePostConsensusReputation (getAllReputations reputation) result.updatedReputations

theorem positive_postReputation (reputation : Table Address Rat) (result : ConsensusResult Rat) :
    Positive (postReputation reputation result) :=
  positive_computePostConsensusReputation (positive_getAllReputations reputation) _

theorem lookup_postReputation (reputation : Table Address Rat) (result : ConsensusResult Rat)
    (address : Address) :
    (postReputation reputation result)[address]? =
      match result.updatedReputations[address]? with
      | some rep => if F64.lt F64.zero rep then some rep else none
      | none => (getAllReputations reputation)[address]? :=
  lookup_computePostConsensusReputation _ _ address

theorem reputation_of_commit (h : commitConsensusResult tables result = .ok (tables', entry)) :
    tables'.reputation =
        clearAndRestore (reanchorToInitialTotal (postReputation tables.reputation result)) ∧
      (postReputation tables.reputation result).toList ≠ [] := by
  simp only [commitConsensusResult, bind_eq_ok_iff, Except.ok.injEq, Prod.mk.injEq] at h
  obtain ⟨_, -, _, hverified, _, -, rfl, -⟩ := h
  refine ⟨rfl, toList_ne_nil_of_total ?_⟩
  intro hzero
  have hanchor := (verified_iff.mp hverified).2
  rw [postReputation] at hzero
  rw [hzero] at hanchor
  norm_num at hanchor

theorem total_of_commit_iff (h : commitConsensusResult tables result = .ok (tables', entry)) :
    totalReputation tables'.reputation = 1 ↔
      Absorbed (postReputation tables.reputation result) := by
  obtain ⟨hreputation, hne⟩ := reputation_of_commit h
  rw [hreputation]
  exact total_reanchored_iff (positive_postReputation _ _) hne

theorem nonneg_of_commit (h : commitConsensusResult tables result = .ok (tables', entry)) :
    Nonneg tables'.reputation := by
  rw [(reputation_of_commit h).1]
  exact nonneg_of_positive (positive_clearAndRestore _)

end

section

variable {s₀ s s' : State Rat} {tx : FilledTransaction Rat} {transfer : TransferReputation Rat}
  {height : Nat}

theorem total_of_transfer (hs : Nonneg s.reputation)
    (hvalid : validateReputationTransfer s₀ tx transfer = .ok ())
    (h : applyTransferReputation s transfer height = .ok s') :
    totalReputation s'.reputation = totalReputation s.reputation ∧ Nonneg s'.reputation := by
  simp only [validateReputationTransfer, bind_eq_ok_iff, ensure_eq_ok_iff] at hvalid
  obtain ⟨-, -, -, hpositive, -, -, -, -, -, hne, -⟩ := hvalid
  simp only [applyTransferReputation, bind_eq_ok_iff, ensure_eq_ok_iff, Except.ok.injEq] at h
  obtain ⟨-, henough, rfl⟩ := h
  have hamount : 0 < transfer.amount := le_rat.mp hpositive
  have hsender : 0 ≤ getReputation s.reputation transfer.sender - transfer.amount :=
    sub_nonneg.mpr (lt_rat_false.mp henough)
  have hdest : 0 ≤ getReputation s.reputation transfer.dest + transfer.amount :=
    add_nonneg (getReputation_nonneg hs _) hamount.le
  constructor
  · show totalReputation (setReputation (setReputation s.reputation transfer.sender
      (getReputation s.reputation transfer.sender - transfer.amount)) transfer.dest
      (getReputation s.reputation transfer.dest + transfer.amount)) = _
    rw [total_setReputation _ _ hdest, total_setReputation _ _ hsender,
      getReputation_setReputation_of_ne (Ne.symm hne)]
    ring
  · exact (hs.setReputation _ hsender).setReputation _ hdest

end

/-- The reputations after commits and transfers. The transfers of a block are checked
against the state before the block. -/
inductive ReputationRun (ok : Table Address Rat → ConsensusResult Rat → Prop)
    (start : Table Address Rat) : Table Address Rat → Prop
  | start : ReputationRun ok start start
  | commit {tables tables' : ConsensusTables Rat} {result : ConsensusResult Rat}
      {entry : ConsensusUndoEntry Rat} (hrun : ReputationRun ok start tables.reputation)
      (hok : ok tables.reputation result)
      (h : commitConsensusResult tables result = .ok (tables', entry)) :
      ReputationRun ok start tables'.reputation
  | transfer {s₀ s s' : State Rat} {tx : FilledTransaction Rat}
      {transfer : TransferReputation Rat} {height : Nat}
      (hrun : ReputationRun ok start s.reputation)
      (hvalid : validateReputationTransfer s₀ tx transfer = .ok ())
      (h : applyTransferReputation s transfer height = .ok s') :
      ReputationRun ok start s'.reputation

/-- At a commit, some holder can give what the new reputations have over one. -/
def AbsorbedAt (reputation : Table Address Rat) (result : ConsensusResult Rat) : Prop :=
  Absorbed (postReputation reputation result)

theorem total_of_run {start reputation : Table Address Rat} (hstart : Nonneg start)
    (htotal : totalReputation start = 1) (h : ReputationRun AbsorbedAt start reputation) :
    totalReputation reputation = 1 ∧ Nonneg reputation := by
  induction h with
  | start => exact ⟨htotal, hstart⟩
  | commit _ hok h _ => exact ⟨(total_of_commit_iff h).mpr hok, nonneg_of_commit h⟩
  | transfer _ hvalid h ih =>
      obtain ⟨hsame, hnonneg⟩ := total_of_transfer ih.2 hvalid h
      exact ⟨hsame.trans ih.1, hnonneg⟩

end Truthcoin.ReputationTotal
