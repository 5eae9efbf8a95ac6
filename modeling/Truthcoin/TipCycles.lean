import Truthcoin.TipOrder

/-!
# No cycles of preferred tips

On one mainchain lineage a verified tip that is preferred is higher, or as high and
verified at an earlier mainchain block. That is a strict order, so no sequence of such
tips leads back to its start. Across forks of the mainchain there are cycles of three.
-/

namespace Truthcoin.Archiving

open Truthcoin.Types Truthcoin.Table Truthcoin.Fallible Truthcoin.Blocks
open Truthcoin.Mainchain Truthcoin.Lineage

variable {B : Type}

namespace ArchiveDb

section

variable (db : ArchiveDb B)

/-- The archive prefers the second tip to the first one. -/
def Prefers (tip0 tip1 : Tip) : Prop :=
  db.betterTip tip0 tip1 = .ok (some tip1)

instance {tip0 tip1 : Tip} : Decidable (db.Prefers tip0 tip1) :=
  inferInstanceAs (Decidable (_ = _))

instance {block : BlockHash} {main : MainBlockHash} : Decidable (db.Verified block main) :=
  inferInstanceAs (Decidable (_ = _))

/-- The second tip is higher, or as high and committed to by an earlier mainchain block. -/
def Below (tip0 tip1 : Tip) : Prop :=
  ∃ height0 height1 main0 main1, db.blockHashToHeight[tip0.blockHash]? = some height0 ∧
    db.blockHashToHeight[tip1.blockHash]? = some height1 ∧
    db.mainBlockHashToHeight[tip0.mainBlockHash]? = some main0 ∧
    db.mainBlockHashToHeight[tip1.mainBlockHash]? = some main1 ∧
    (height0 < height1 ∨ height0 = height1 ∧ main1 < main0)

/-- The tip is verified at its mainchain block, which is on the chain that ends at `main`. -/
def VerifiedOn (main : MainBlockHash) (tip : Tip) : Prop :=
  db.Verified tip.blockHash tip.mainBlockHash ∧ tip.mainBlockHash ∈ db.mainIndex.ancestors main

end

variable {hashes : Hashes} {db : ArchiveDb B} {tip0 tip1 tip2 : Tip}

theorem Below.trans (h : db.Below tip0 tip1) (h' : db.Below tip1 tip2) : db.Below tip0 tip2 := by
  obtain ⟨n0, n1, m0, m1, hn0, hn1, hm0, hm1, hlt⟩ := h
  obtain ⟨n1', n2, m1', m2, hn1', hn2, hm1', hm2, hlt'⟩ := h'
  obtain rfl := Option.some.inj (hn1.symm.trans hn1')
  obtain rfl := Option.some.inj (hm1.symm.trans hm1')
  exact ⟨n0, n2, m0, m2, hn0, hn2, hm0, hm2, by omega⟩

instance : Trans db.Below db.Below db.Below := ⟨Below.trans⟩

theorem Below.irrefl : ¬ db.Below tip0 tip0 := by
  rintro ⟨n0, n1, m0, m1, hn0, hn1, hm0, hm1, hlt⟩
  obtain rfl := Option.some.inj (hn0.symm.trans hn1)
  obtain rfl := Option.some.inj (hm0.symm.trans hm1)
  omega

theorem MainSound.totalWork_mono (hdb : db.MainSound hashes) {a d : MainBlockHash}
    {height worka workd : Nat} (hd : db.mainIndex.height d = some height)
    (hmem : a ∈ db.mainIndex.ancestors d) (ha : db.totalWork[a]? = some worka)
    (hwork : db.totalWork[d]? = some workd) : worka ≤ workd := by
  revert hmem workd
  refine Index.rooted_induction hdb.rooted (P := fun d => ∀ {workd : Nat},
    a ∈ db.mainIndex.ancestors d → db.totalWork[d]? = some workd → worka ≤ workd) ?_ ?_ hd
  · intro d hfirst workd hmem hwork
    rw [Index.ancestors_first hfirst, List.mem_singleton] at hmem
    rw [hmem, hwork, Option.some.injEq] at ha
    exact ha.ge
  · intro d p hchild ih workd hmem hwork
    rw [Index.ancestors_child hdb.rooted hchild] at hmem
    rcases List.mem_cons.mp hmem with rfl | hmem
    · rw [hwork, Option.some.injEq] at ha
      exact ha.ge
    · obtain ⟨info, hinfo, hparent⟩ := exists_info_of_parent hchild
      obtain ⟨w, hw, hafter⟩ := hdb.work hinfo
      rw [hwork, Option.some.injEq] at hw
      subst hw
      have hprev : info.prevBlockHash ≠ allZeros ∧ info.prevBlockHash = p := by
        unfold mainParent at hparent
        split at hparent
        · cases hparent
        · rename_i hne
          exact ⟨hne, Option.some.inj hparent⟩
      rw [totalWorkAfter, if_pos hprev.1, hprev.2] at hafter
      obtain ⟨prevWork, hprevWork, hsum⟩ := bind_eq_ok_iff.mp hafter
      have hle := ih hmem (okOr_eq_ok_iff.mp hprevWork)
      have := Except.ok.inj hsum
      omega

theorem MainSound.lastCommon_of_mem (hdb : db.MainSound hashes) {a d : MainBlockHash}
    {height : Nat} (hd : db.mainIndex.height d = some height)
    (hmem : a ∈ db.mainIndex.ancestors d) :
    db.lastCommonMainAncestor a d = .ok a ∧ db.lastCommonMainAncestor d a = .ok a := by
  obtain ⟨n, -, ha⟩ := Index.height_of_mem hdb.rooted hd hmem
  have hself := Index.mem_ancestors_self hdb.rooted ha
  have hlast := Index.lastCommon_of_mem hself hmem
  constructor
  · obtain ⟨c, hc, -, hcommon⟩ := Index.lastCommonAncestor_eq mainFaults hdb.rooted ha hd
      (hdb.rows_of_ancestors ha) (hdb.rows_of_ancestors hd)
    rcases hcommon with hcommon | ⟨-, hdisjoint⟩
    · rw [lastCommonMainAncestor, hc, hcommon.unique hdb.rooted ha hlast]
    · exact absurd hmem (hdisjoint a hself)
  · obtain ⟨c, hc, -, hcommon⟩ := Index.lastCommonAncestor_eq mainFaults hdb.rooted hd ha
      (hdb.rows_of_ancestors hd) (hdb.rows_of_ancestors ha)
    rcases hcommon with hcommon | ⟨-, hdisjoint⟩
    · rw [lastCommonMainAncestor, hc, hcommon.symm.unique hdb.rooted ha hlast]
    · exact absurd hself (hdisjoint a hmem)

section

variable {b : BlockHash} {header : Header} {main c : MainBlockHash} {height : Nat}

theorem firstRecord_eq_some {α : Type} {f : BlockHash → Option (Option α)}
    {l : List BlockHash} {a : α} (h : firstRecord f l = some (some a)) :
    ∃ b ∈ l, f b = some (some a) := by
  induction l with
  | nil => cases h
  | cons b rest ih =>
      rw [firstRecord] at h
      rcases hb : f b with - | - | a'
      · rw [hb] at h
        cases h
      · rw [hb] at h
        obtain ⟨b', hmem, hb'⟩ := ih h
        exact ⟨b', List.mem_cons_of_mem _ hmem, hb'⟩
      · rw [hb] at h
        exact ⟨b, List.mem_cons_self, hb.trans h⟩

theorem height_of_record {r : Nat × Nat} (h : db.record main b = some (some r)) :
    db.blockHashToHeight[b]? = some r.1 := by
  obtain ⟨header, -, h⟩ := Option.bind_eq_some_iff.mp h
  split at h
  · cases h
  · split at h
    · obtain ⟨height, hheight, h⟩ := Option.bind_eq_some_iff.mp h
      obtain ⟨work, -, h⟩ := Option.bind_eq_some_iff.mp h
      rw [← Option.some.inj (Option.some.inj h)]
      exact hheight
    · cases Option.some.inj h

theorem MainSound.prev_before (hdb : db.MainSound hashes) {info : MainHeaderInfo}
    (hinfo : db.mainHeaderInfos[main]? = some info)
    (hknown : info.prevBlockHash ∈ db.mainHeaderInfos) :
    db.mainIndex.parent main = some (some info.prevBlockHash) := by
  obtain ⟨pinfo, hpinfo⟩ := mem_iff_lookup.mp hknown
  rw [mainIndex_parent hinfo, mainParent, if_neg (hdb.header hpinfo).2.2]

theorem MainSound.record_of_named (hdb : db.MainSound hashes)
    (hheader : db.headers[b]? = some header) (hheight : db.blockHashToHeight[b]? = some height)
    (hnamed : db.NamedBy header main) :
    db.record main b = none ∨ ∃ work, db.record main b = some (some (height, work)) := by
  obtain ⟨info, hinfo, hprev⟩ := hnamed
  rw [record, hheader, Option.bind_eq_bind, Option.bind_some]
  by_cases hknown : header.prevMainHash ∈ db.mainHeaderInfos
  · right
    have hparent := hdb.prev_before hinfo (hprev ▸ hknown)
    rw [hprev] at hparent
    obtain ⟨n, hn, hmain⟩ := hdb.rooted.child hparent
    have hmem : header.prevMainHash ∈ db.mainIndex.ancestors main := by
      rw [Index.ancestors_child hdb.rooted hparent]
      exact List.mem_cons_of_mem _ (Index.mem_ancestors_self hdb.rooted hn)
    have hne : header.prevMainHash ≠ main := by
      intro heq
      rw [heq, hmain, Option.some.injEq] at hn
      omega
    obtain ⟨-, -, work, -, -, -, hafter⟩ := hdb.workAfter_eq hmain hmem hne
    rw [if_neg (not_not_intro hknown), if_pos ⟨hmem, hne⟩, hheight, hafter]
    exact ⟨work, rfl⟩
  · exact .inl (if_pos hknown)

theorem MainSound.record_of_named_after (hdb : db.MainSound hashes)
    (hheader : db.headers[b]? = some header) (hnamed : db.NamedBy header main)
    (hmem : c ∈ db.mainIndex.ancestors main) (hne : c ≠ main) :
    db.record c b = none ∨ db.record c b = some none := by
  obtain ⟨info, hinfo, hprev⟩ := hnamed
  rw [record, hheader, Option.bind_eq_bind, Option.bind_some]
  by_cases hknown : header.prevMainHash ∈ db.mainHeaderInfos
  · right
    have hparent := hdb.prev_before hinfo (hprev ▸ hknown)
    rw [hprev] at hparent
    obtain ⟨n, hn, -⟩ := hdb.rooted.child hparent
    rw [Index.ancestors_child hdb.rooted hparent] at hmem
    have hc := (List.mem_cons.mp hmem).resolve_left hne
    obtain ⟨m, hle, hm⟩ := Index.height_of_mem hdb.rooted hn hc
    rw [if_neg (not_not_intro hknown), if_neg]
    rintro ⟨hbefore, hnot⟩
    obtain ⟨k, hk, hkprev⟩ := Index.height_of_mem hdb.rooted hm hbefore
    rw [hn, Option.some.injEq] at hkprev
    obtain rfl : n = m := by omega
    exact hnot (Index.eq_of_mem_of_height hdb.rooted hm hn hbefore)
  · exact .inl (if_pos hknown)

variable (main) in
theorem SideSound.standing_cons (hdb : db.SideSound hashes)
    (hb : db.sideIndex.height b = some height) :
    ∃ rest, db.standing main b = firstRecord (db.record main) (b :: rest) ∧
      ∀ a ∈ rest, ∃ n < height, db.blockHashToHeight[a]? = some n := by
  obtain ⟨q, hq⟩ := hdb.rooted.stored hb
  cases q with
  | none =>
      refine ⟨[], ?_, fun a ha => absurd ha List.not_mem_nil⟩
      rw [standing, Index.ancestors_first hq]
  | some p =>
      refine ⟨db.sideIndex.ancestors p, ?_, fun a ha => ?_⟩
      · rw [standing, Index.ancestors_child hdb.rooted hq]
      · obtain ⟨n, hn, hheight⟩ := hdb.rooted.child hq
        rw [hb, Option.some.injEq] at hheight
        obtain ⟨m, hle, hm⟩ := Index.height_of_mem hdb.rooted hn ha
        exact ⟨m, by omega, hm⟩

end

section

variable {main : MainBlockHash} {height0 height1 main0 main1 work0 work1 : Nat}

theorem BmmInvariant.eq_of_verified (hdb : db.BmmInvariant hashes) {b0 b1 : BlockHash}
    {header0 header1 : Header} {a : MainBlockHash} (h0 : db.headers[b0]? = some header0)
    (h1 : db.headers[b1]? = some header1) (hv0 : db.Verified b0 a) (hv1 : db.Verified b1 a) :
    b0 = b1 := by
  obtain rfl := (hdb.side.header h0).1
  obtain rfl := (hdb.side.header h1).1
  obtain ⟨⟨block, hblock, hc0⟩, -⟩ := hdb.bmm.sound hv0
  obtain ⟨⟨block', hblock', hc1⟩, -⟩ := hdb.bmm.sound hv1
  obtain rfl := Option.some.inj (hblock.symm.trans hblock')
  exact Option.some.inj (hc0.symm.trans hc1)

theorem BmmInvariant.named_of_verified (hdb : db.BmmInvariant hashes) {b : BlockHash}
    {header : Header} {a : MainBlockHash} (h : db.headers[b]? = some header)
    (hv : db.Verified b a) : db.NamedBy header a := by
  obtain rfl := (hdb.side.header h).1
  exact (hdb.bmm.sound hv).2.1

theorem BmmInvariant.standing_of_verified (hdb : db.BmmInvariant hashes) {b : BlockHash}
    {a : MainBlockHash} (hb : db.sideIndex.height b = some height0) (hv : db.Verified b a)
    {r : Option (Nat × Nat)} (h : db.standing a b = some r) : ∃ work, r = some (height0, work) := by
  obtain ⟨header, hheader⟩ := hdb.side.header_of_height hb
  obtain ⟨rest, hstanding, -⟩ := hdb.side.standing_cons a hb
  rw [hstanding, firstRecord] at h
  rcases hdb.main.record_of_named hheader hb (hdb.named_of_verified hheader hv) with
    hrecord | ⟨work, hrecord⟩
  · rw [hrecord] at h
    cases h
  · rw [hrecord] at h
    exact ⟨work, (Option.some.inj h).symm⟩

theorem BmmInvariant.standing_of_verified_after (hdb : db.BmmInvariant hashes) {b : BlockHash}
    {a c : MainBlockHash} (hb : db.sideIndex.height b = some height0) (hv : db.Verified b a)
    (hmem : c ∈ db.mainIndex.ancestors a) (hne : c ≠ a) {r : Option (Nat × Nat)}
    (h : db.standing c b = some r) : ∀ r', r = some r' → r'.1 < height0 := by
  rintro r' rfl
  obtain ⟨header, hheader⟩ := hdb.side.header_of_height hb
  obtain ⟨rest, hstanding, hrest⟩ := hdb.side.standing_cons c hb
  rw [hstanding, firstRecord] at h
  rcases hdb.main.record_of_named_after hheader (hdb.named_of_verified hheader hv) hmem hne with
    hrecord | hrecord
  · rw [hrecord] at h
    cases h
  · rw [hrecord] at h
    obtain ⟨b', hb', hr'⟩ := firstRecord_eq_some h
    obtain ⟨n, hlt, hn⟩ := hrest b' hb'
    rw [height_of_record hr', Option.some.injEq] at hn
    omega

theorem preferRecord_of_higher {record0 record1 : Option (Nat × Nat)}
    (h : optionRank (record1.map Prod.fst) < optionRank (record0.map Prod.fst)) :
    preferRecord tip0 tip1 record0 record1 = tip0 := by
  rw [preferRecord, Nat.compare_eq_gt.mpr h]
  cases compare (optionRank (record0.map Prod.snd)) (optionRank (record1.map Prod.snd)) <;> rfl

theorem BmmInvariant.ne_betterByWork_of_gt (hdb : db.BmmInvariant hashes) (hne : tip0 ≠ tip1)
    (hb0 : db.sideIndex.height tip0.blockHash = some height0)
    (hv0 : db.Verified tip0.blockHash tip0.mainBlockHash)
    (hd : db.mainIndex.height tip1.mainBlockHash = some main1)
    (hmem : tip0.mainBlockHash ∈ db.mainIndex.ancestors tip1.mainBlockHash)
    (hw : work0 < work1) (hh : height1 < height0) :
    db.betterByWork tip0 tip1 height0 height1 work0 work1 ≠ .ok tip1 := by
  intro h
  have h := toOption_eq_some_iff.mpr h
  obtain ⟨m, -, hm⟩ := Index.height_of_mem hdb.main.rooted hd hmem
  rw [betterByWork, Nat.compare_eq_lt.mpr hw, Nat.compare_eq_gt.mpr hh] at h
  simp only [(hdb.main.lastCommon_of_mem hd hmem).1, ok_bind] at h
  rw [toOption_bind, hdb.toOption_findAncestor_height hm hb0] at h
  cases hstanding : db.standing tip0.mainBlockHash tip0.blockHash with
  | none =>
      rw [hstanding] at h
      cases h
  | some r =>
      obtain ⟨work, rfl⟩ := hdb.standing_of_verified hb0 hv0 hstanding
      rw [hstanding, Option.map_some, Option.map_some, Option.bind_some, if_pos] at h
      · exact hne (Option.some.inj h)
      · show height1 + 1 ≤ height0 + 1
        omega

/-- A verified tip at an earlier mainchain block is preferred to one of the same height and
total work. -/
theorem BmmInvariant.ne_betterAncestor (hdb : db.BmmInvariant hashes) (hne : tip0 ≠ tip1)
    (hb0 : db.sideIndex.height tip0.blockHash = some height0)
    (hb1 : db.sideIndex.height tip1.blockHash = some height0)
    (hv0 : db.Verified tip0.blockHash tip0.mainBlockHash)
    (hv1 : db.Verified tip1.blockHash tip1.mainBlockHash)
    (hd : db.mainIndex.height tip1.mainBlockHash = some main1)
    (hmem : tip0.mainBlockHash ∈ db.mainIndex.ancestors tip1.mainBlockHash)
    (hmains : tip0.mainBlockHash ≠ tip1.mainBlockHash) :
    db.betterAncestor tip0 tip1 height0 ≠ .ok tip1 := by
  intro h
  have h := toOption_eq_some_iff.mpr h
  obtain ⟨m, -, hm⟩ := Index.height_of_mem hdb.main.rooted hd hmem
  have hheight : db.getMainHeight tip0.mainBlockHash = .ok m := okOr_eq_ok_iff.mpr hm
  rw [betterAncestor, (hdb.main.lastCommon_of_mem hd hmem).1, ok_bind, hheight, ok_bind,
    toOption_bind, hdb.toOption_findAncestor hm hb0] at h
  cases hs0 : db.standing tip0.mainBlockHash tip0.blockHash with
  | none =>
      rw [hs0] at h
      cases h
  | some r0 =>
      rw [hs0, Option.bind_some, toOption_bind, hdb.toOption_findAncestor hm hb1] at h
      cases hs1 : db.standing tip0.mainBlockHash tip1.blockHash with
      | none =>
          rw [hs1] at h
          cases h
      | some r1 =>
          rw [hs1, Option.bind_some] at h
          obtain ⟨work, rfl⟩ := hdb.standing_of_verified hb0 hv0 hs0
          have hlow := hdb.standing_of_verified_after hb1 hv1 hmem hmains hs1
          have hlt : optionRank (r1.map Prod.fst) <
              optionRank ((some (height0, work)).map Prod.fst) := by
            cases r1 with
            | none => exact Nat.succ_pos height0
            | some r => exact Nat.succ_lt_succ (hlow r rfl)
          rw [preferRecord_of_higher hlt] at h
          exact hne (Option.some.inj h)

/-- On one lineage a verified tip is preferred to a verified tip below it alone. -/
theorem BmmInvariant.below_of_betterByWork (hdb : db.BmmInvariant hashes) (hne : tip0 ≠ tip1)
    (hb0 : db.sideIndex.height tip0.blockHash = some height0)
    (hb1 : db.sideIndex.height tip1.blockHash = some height1)
    (hw0 : db.totalWork[tip0.mainBlockHash]? = some work0)
    (hw1 : db.totalWork[tip1.mainBlockHash]? = some work1)
    (hv0 : db.VerifiedOn main tip0) (hv1 : db.VerifiedOn main tip1)
    (h : db.betterByWork tip0 tip1 height0 height1 work0 work1 = .ok tip1) :
    ∃ main0 main1, db.mainIndex.height tip0.mainBlockHash = some main0 ∧
      db.mainIndex.height tip1.mainBlockHash = some main1 ∧
        (height0 < height1 ∨ height0 = height1 ∧ main1 < main0) := by
  obtain ⟨n, hn⟩ := Index.height_of_ancestor hdb.main.rooted hv0.2
  obtain ⟨main0, -, hm0⟩ := Index.height_of_mem hdb.main.rooted hn hv0.2
  obtain ⟨main1, -, hm1⟩ := Index.height_of_mem hdb.main.rooted hn hv1.2
  refine ⟨main0, main1, hm0, hm1, ?_⟩
  have hbefore (hle : main0 ≤ main1) :
      tip0.mainBlockHash ∈ db.mainIndex.ancestors tip1.mainBlockHash :=
    Index.mem_ancestors_total hdb.main.rooted hn hv0.2 hv1.2 hm0 hm1 hle
  have hafter (hlt : work0 < work1) : main0 ≤ main1 := by
    by_contra hgt
    have hmem := Index.mem_ancestors_total hdb.main.rooted hn hv1.2 hv0.2 hm1 hm0 (by omega)
    have := hdb.main.totalWork_mono hm0 hmem hw1 hw0
    omega
  have htip0 : Except.ok tip0 ≠ (Except.ok tip1 : Except ArchiveDbError Tip) :=
    fun heq => hne (Except.ok.inj heq)
  rcases Nat.lt_trichotomy height0 height1 with hh | rfl | hh
  · exact .inl hh
  · refine .inr ⟨rfl, ?_⟩
    by_contra hle
    have hmem := hbefore (by omega)
    have hwork := hdb.main.totalWork_mono hm1 hmem hw0 hw1
    rcases hwork.lt_or_eq with hw | rfl
    · rw [betterByWork, Nat.compare_eq_lt.mpr hw, Nat.compare_eq_eq.mpr rfl] at h
      simp only [sharedMainchainLineage, Index.sharedLineage_eq hdb.main.rooted hm0 hm1
        (hdb.main.rows_of_ancestors hm0) (hdb.main.rows_of_ancestors hm1), hmem, true_or,
        decide_true, ok_bind, if_pos] at h
      exact htip0 h
    · rw [betterByWork, Nat.compare_eq_eq.mpr rfl, Nat.compare_eq_eq.mpr rfl] at h
      by_cases hsame : tip0.blockHash = tip1.blockHash
      · simp only [if_pos hsame] at h
        exact htip0 h
      · simp only [if_neg hsame] at h
        refine hdb.ne_betterAncestor hne hb0 hb1 hv0.1 hv1.1 hm1 hmem ?_ h
        intro heq
        obtain ⟨header0, hheader0⟩ := hdb.side.header_of_height hb0
        obtain ⟨header1, hheader1⟩ := hdb.side.header_of_height hb1
        exact hsame (hdb.eq_of_verified hheader0 hheader1 hv0.1 (heq ▸ hv1.1))
  · exfalso
    rcases Nat.lt_trichotomy work0 work1 with hw | rfl | hw
    · exact hdb.ne_betterByWork_of_gt hne hb0 hv0.1 hm1 (hbefore (hafter hw)) hw hh h
    · rw [betterByWork, Nat.compare_eq_eq.mpr rfl, Nat.compare_eq_gt.mpr hh] at h
      exact htip0 h
    · rw [betterByWork, Nat.compare_eq_gt.mpr hw, Nat.compare_eq_gt.mpr hh] at h
      exact htip0 h

theorem BmmInvariant.below_of_prefers (hdb : db.BmmInvariant hashes)
    (hv0 : db.VerifiedOn main tip0) (hv1 : db.VerifiedOn main tip1) (h : db.Prefers tip0 tip1) :
    db.Below tip0 tip1 := by
  obtain ⟨n, hn⟩ := Index.height_of_ancestor hdb.main.rooted hv0.2
  obtain ⟨m0, -, hm0⟩ := Index.height_of_mem hdb.main.rooted hn hv0.2
  obtain ⟨m1, -, hm1⟩ := Index.height_of_mem hdb.main.rooted hn hv1.2
  rw [Prefers, betterTip] at h
  split at h
  · cases h
  · rename_i hne
    simp only [bind_eq_ok_iff, getHeight, okOr_eq_ok_iff] at h
    obtain ⟨height0, hb0, height1, hb1, h⟩ := h
    split at h
    · cases h
    · rename_i hpos
      exact ⟨0, height1, m0, m1, hb0, hb1, hm0, hm1, .inl (Nat.pos_of_ne_zero hpos)⟩
    · exact absurd (Option.some.inj (Except.ok.inj h)) hne
    · simp only [bind_eq_ok_iff, getTotalWork, okOr_eq_ok_iff] at h
      obtain ⟨work0, hw0, work1, hw1, tip, hbetter, htip⟩ := h
      obtain rfl := Option.some.inj (Except.ok.inj htip)
      obtain ⟨main0, main1, hmain0, hmain1, hlt⟩ :=
        hdb.below_of_betterByWork hne hb0 hb1 hw0 hw1 hv0 hv1 hbetter
      exact ⟨_, _, main0, main1, hb0, hb1, hmain0, hmain1, hlt⟩

end

theorem BmmInvariant.not_prefers_of_prefers (hdb : db.BmmInvariant hashes)
    (h : db.Prefers tip0 tip1) : ¬ db.Prefers tip1 tip0 := by
  intro h'
  have hne : tip0 ≠ tip1 := by
    rintro rfl
    rw [Prefers, betterTip, if_pos rfl] at h
    cases h
  have hstored {tip0 tip1 : Tip} (hne : tip0 ≠ tip1) (h : db.Prefers tip0 tip1) :
      tip0.blockHash ∈ db.headers := by
    rw [Prefers, betterTip, if_neg hne] at h
    obtain ⟨height, hheight, -⟩ := bind_eq_ok_iff.mp h
    exact mem_iff_lookup.mpr (hdb.side.header_of_height (okOr_eq_ok_iff.mp hheight))
  by_cases htied : db.Tied tip0 tip1
  · have hfirst := hdb.betterTip_of_tied hne htied
    exact hne (Option.some.inj (Except.ok.inj (hfirst.symm.trans h)))
  · have hsame := (hdb.same_better_iff_not_tied hne (hstored hne h)
      (hstored hne.symm h')).mpr htied
    rw [toOption_eq_some_iff.mpr h, toOption_eq_some_iff.mpr h'] at hsame
    exact hne (Option.some.inj (Option.some.inj hsame)).symm

/-- No two tips are preferred to each other. Nor do preferences lead in any number of steps
from a tip back to itself, as long as the tips are verified on one mainchain lineage. -/
theorem no_preference_cycle (hdb : Reachable hashes db) :
    (∀ tip0 tip1, ¬ (db.Prefers tip0 tip1 ∧ db.Prefers tip1 tip0)) ∧
      ∀ (main : MainBlockHash) (tip : Tip) (rest : List Tip),
        (∀ t ∈ tip :: rest, db.VerifiedOn main t) →
          ¬ (tip :: (rest ++ [tip])).IsChain db.Prefers := by
  have hdb := hdb.invariant
  refine ⟨fun tip0 tip1 h => hdb.not_prefers_of_prefers h.1 h.2, ?_⟩
  intro main tip rest hverified hchain
  have hall : ∀ t ∈ tip :: (rest ++ [tip]), db.VerifiedOn main t := by
    intro t ht
    rw [← List.cons_append, List.mem_append, List.mem_singleton] at ht
    rcases ht with ht | rfl
    · exact hverified t ht
    · exact hverified t List.mem_cons_self
  have hbelow : (tip :: (rest ++ [tip])).IsChain db.Below :=
    hchain.imp_of_mem_imp fun t0 t1 h0 h1 h => hdb.below_of_prefers (hall t0 h0) (hall t1 h1) h
  have hpairwise := List.pairwise_cons.mp hbelow.pairwise
  exact Below.irrefl (hpairwise.1 tip (List.mem_append_right _ (List.mem_singleton_self tip)))

end ArchiveDb

/-- A first sidechain block with a child that has a child, a child on a fork of the mainchain and
a late child. -/
def cycleFirst : Header := headerOn none 1
def cycleChild : Header := headerOn (some (pairHash cycleFirst)) 2
def cycleUpperTip : Header := headerOn (some (pairHash cycleChild)) 3
def cycleForkTip : Header := { cycleChild with merkleRoot := 1 }
def cycleLateTip : Header := headerOn (some (pairHash cycleFirst)) 4

/-- The mainchain `1, …, 5` and the fork 6 on block 2. -/
def cycleRows : List MainRow :=
  [⟨0, 0, 1, none⟩, ⟨1, 1, 1, some (pairHash cycleFirst)⟩,
    ⟨2, 2, 1, some (pairHash cycleChild)⟩, ⟨3, 3, 1, some (pairHash cycleUpperTip)⟩,
    ⟨4, 4, 5, some (pairHash cycleLateTip)⟩, ⟨2, 2, 5, some (pairHash cycleForkTip)⟩]

def cycleArchive : ArchiveDb Unit :=
  treeArchive cycleRows [cycleFirst, cycleChild, cycleUpperTip, cycleForkTip, cycleLateTip]

/-- Three tips, each verified at its mainchain block, of which each is preferred to the one
before: on one lineage the higher one, then the one with more work that was as high before the
fork, then the one with more work among tips of the same height. -/
theorem preference_cycles :
    ArchiveDb.Reachable (treeHashes cycleRows) cycleArchive ∧
      (cycleArchive.Verified (pairHash cycleLateTip) 5 ∧
        cycleArchive.Verified (pairHash cycleUpperTip) 4 ∧
        cycleArchive.Verified (pairHash cycleForkTip) 6) ∧
      cycleArchive.Prefers ⟨pairHash cycleLateTip, 5⟩ ⟨pairHash cycleUpperTip, 4⟩ ∧
      cycleArchive.Prefers ⟨pairHash cycleUpperTip, 4⟩ ⟨pairHash cycleForkTip, 6⟩ ∧
      cycleArchive.Prefers ⟨pairHash cycleForkTip, 6⟩ ⟨pairHash cycleLateTip, 5⟩ := by
  refine ⟨reachable_treeArchive _ _, ?_, ?_⟩
  · decide +kernel
  · decide +kernel

theorem unverified_preference_cycle :
    cycleArchive.Prefers ⟨pairHash cycleChild, 1⟩ ⟨pairHash cycleUpperTip, 1⟩ ∧
      cycleArchive.Prefers ⟨pairHash cycleUpperTip, 1⟩ ⟨pairHash cycleChild, 2⟩ ∧
      cycleArchive.Prefers ⟨pairHash cycleChild, 2⟩ ⟨pairHash cycleChild, 1⟩ := by
  decide +kernel

/-- In the same archive no preferences of verified tips on the chain of block 5 go around. -/
theorem no_preference_cycle_verified :
    (∀ tip0 tip1, ¬ (cycleArchive.Prefers tip0 tip1 ∧ cycleArchive.Prefers tip1 tip0)) ∧
      ∀ (main : MainBlockHash) (tip : Tip) (rest : List Tip),
        (∀ t ∈ tip :: rest, cycleArchive.VerifiedOn main t) →
          ¬ (tip :: (rest ++ [tip])).IsChain cycleArchive.Prefers :=
  ArchiveDb.no_preference_cycle (reachable_treeArchive _ _)

end Truthcoin.Archiving
