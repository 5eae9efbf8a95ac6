import Truthcoin.TipCycles
import Truthcoin.SideTipsRuns

/-!
# Two rankings of the tips

The best tip of the table of tips is the highest one, with the most work among those. The
comparison of two tips prefers less work among tips of one height on the same mainchain. So
the rankings agree exactly when the best tip is a first block, or alone at its height.
-/

namespace Truthcoin.Archiving

open Truthcoin.Types Truthcoin.Table Truthcoin.Fallible Truthcoin.Blocks
open Truthcoin.Mainchain Truthcoin.Lineage

variable {B : Type}

/-- A tip of the table with the mainchain block that is recorded with it. -/
def SidechainTip.tip (tip : SidechainTip) : Tip :=
  ⟨tip.blockHash, tip.info.mainBlockHash⟩

namespace ArchiveDb

section

variable (db : ArchiveDb B)

/-- No other tip of the table is preferred to the given one, in whichever order the two are
compared. -/
def Preferred (best : SidechainTip) : Prop :=
  ∀ (b : BlockHash) (info : SidechainTipInfo), db.sideTips.sidechainTips[b]? = some info →
    b ≠ best.blockHash →
      db.betterTip best.tip (SidechainTip.mk b info).tip ≠
          .ok (some (SidechainTip.mk b info).tip) ∧
        db.betterTip (SidechainTip.mk b info).tip best.tip ≠
          .ok (some (SidechainTip.mk b info).tip)

/-- The tip is a first block, or no other tip of the table has its height. -/
def AloneAtHeight (best : SidechainTip) : Prop :=
  best.info.sidechainHeight = 0 ∨
    ∀ (b : BlockHash) (info : SidechainTipInfo), db.sideTips.sidechainTips[b]? = some info →
      b ≠ best.blockHash → info.sidechainHeight ≠ best.info.sidechainHeight

end

variable {hashes : Hashes} {db : ArchiveDb B} {best : SidechainTip} {b : BlockHash}
  {info : SidechainTipInfo}

theorem le_of_keyCmp {info info' : SidechainTipInfo} (h : (keyCmp info info').isLE) :
    info.sidechainHeight < info'.sidechainHeight ∨
      info.sidechainHeight = info'.sidechainHeight ∧ info.work ≤ info'.work := by
  rcases Nat.lt_trichotomy info.sidechainHeight info'.sidechainHeight with hlt | heq | hgt
  · exact .inl hlt
  · refine .inr ⟨heq, ?_⟩
    by_contra hwork
    have hgt := Nat.compare_eq_gt.mpr (Nat.lt_of_not_le hwork)
    simp [keyCmp, TableKey.encode, List.compare_cons_cons, heq, hgt] at h
  · have hgt := Nat.compare_eq_gt.mpr hgt
    simp [keyCmp, TableKey.encode, List.compare_cons_cons, hgt] at h

theorem TipsInvariant.lookup_best (h : db.TipsInvariant hashes)
    (hbest : db.sideTips.bestSideTip = some best) :
    db.sideTips.sidechainTips[best.blockHash]? = some best.info := by
  obtain ⟨row, hrow, rfl⟩ := Option.map_eq_some_iff.mp hbest
  exact (h.exact.inverse _ _).mp (last_eq_some_iff.mp hrow).1

theorem TipsInvariant.le_best (h : db.TipsInvariant hashes)
    (hbest : db.sideTips.bestSideTip = some best)
    (hb : db.sideTips.sidechainTips[b]? = some info) :
    info.sidechainHeight < best.info.sidechainHeight ∨
      info.sidechainHeight = best.info.sidechainHeight ∧ info.work ≤ best.info.work := by
  obtain ⟨row, hrow, rfl⟩ := Option.map_eq_some_iff.mp hbest
  have hmem := mem_iff_lookup.mpr ⟨b, (h.exact.inverse info b).mpr hb⟩
  exact le_of_keyCmp ((last_eq_some_iff.mp hrow).2 info hmem)

theorem TipsInvariant.verifiedOn (h : db.TipsInvariant hashes)
    (hb : db.sideTips.sidechainTips[b]? = some info) :
    db.VerifiedOn db.sideTips.mainchainTip.blockHash (SidechainTip.mk b info).tip := by
  have hrecord := h.exact.recorded b info hb
  exact ⟨hrecord.verified, hrecord.main⟩

theorem TipsInvariant.height_eq_of_prefers (h : db.TipsInvariant hashes)
    (hbest : db.sideTips.bestSideTip = some best)
    (hb : db.sideTips.sidechainTips[b]? = some info)
    (hprefers : db.Prefers best.tip (SidechainTip.mk b info).tip) :
    info.sidechainHeight = best.info.sidechainHeight := by
  have hlookup := h.lookup_best hbest
  obtain ⟨n0, n1, m0, m1, hn0, hn1, -, -, hlt⟩ :=
    h.base.below_of_prefers (h.verifiedOn hlookup) (h.verifiedOn hb) hprefers
  have hheight := (h.exact.recorded _ _ hlookup).height
  have hheight' := (h.exact.recorded _ _ hb).height
  obtain rfl := Option.some.inj (hn0.symm.trans hheight)
  obtain rfl := Option.some.inj (hn1.symm.trans hheight')
  have hle := h.le_best hbest hb
  omega

theorem BmmInvariant.prefers_of_first (hdb : db.BmmInvariant hashes) {tip0 tip1 : Tip}
    {height0 height1 : Nat} (hne : tip0 ≠ tip1)
    (h0 : db.blockHashToHeight[tip0.blockHash]? = some height0)
    (h1 : db.blockHashToHeight[tip1.blockHash]? = some height1) (hheights : height0 ≠ height1)
    (h : db.betterTip tip1 tip0 = .ok (some tip1)) : db.Prefers tip0 tip1 := by
  have hstored {tip : Tip} {height : Nat}
      (hheight : db.blockHashToHeight[tip.blockHash]? = some height) :
      tip.blockHash ∈ db.headers :=
    mem_iff_lookup.mpr (hdb.side.header_of_height hheight)
  have hnot : ¬ db.Tied tip0 tip1 := by
    rintro ⟨height, work, -, h0', h1', -⟩
    obtain rfl := Option.some.inj (h0.symm.trans h0')
    exact hheights (Option.some.inj (h1.symm.trans h1')).symm
  have hsame := (hdb.same_better_iff_not_tied hne (hstored h0) (hstored h1)).mpr hnot
  rw [toOption_eq_some_iff.mpr h] at hsame
  cases hbetter : db.betterTip tip0 tip1 with
  | error e =>
      rw [hbetter] at hsame
      cases hsame
  | ok better =>
      rw [hbetter] at hsame
      rw [Prefers, hbetter, Option.some.inj hsame]

theorem TipsInvariant.preferred (h : db.TipsInvariant hashes)
    (hbest : db.sideTips.bestSideTip = some best) (halone : db.AloneAtHeight best) :
    db.Preferred best := by
  intro b info hb hne
  have hlookup := h.lookup_best hbest
  have hheight := (h.exact.recorded _ _ hlookup).height
  have hheight' := (h.exact.recorded _ _ hb).height
  have htips : best.tip ≠ (SidechainTip.mk b info).tip :=
    fun heq => hne (congrArg Tip.blockHash heq).symm
  rcases halone with hzero | halone
  · -- then the other tip is a first block, too
    have hzero' : info.sidechainHeight = 0 := by
      have := h.le_best hbest hb
      omega
    rw [hzero] at hheight
    rw [hzero'] at hheight'
    constructor
    · intro hbetter
      rw [betterTip, if_neg htips, getHeight, SidechainTip.tip, hheight, okOr, ok_bind, getHeight,
        SidechainTip.tip, hheight', okOr, ok_bind] at hbetter
      cases Except.ok.inj hbetter
    · intro hbetter
      rw [betterTip, if_neg htips.symm, getHeight, SidechainTip.tip, hheight', okOr, ok_bind,
        getHeight, SidechainTip.tip, hheight, okOr, ok_bind] at hbetter
      cases Except.ok.inj hbetter
  · have hheights := halone b info hb hne
    constructor
    · intro hbetter
      exact hheights (h.height_eq_of_prefers hbest hb hbetter)
    · intro hbetter
      exact hheights (h.height_eq_of_prefers hbest hb
        (h.base.prefers_of_first htips hheight hheight' hheights.symm hbetter))

theorem MainSound.totalWork_lt (hdb : db.MainSound hashes)
    (hwork : ∀ a, 0 < (hashes.mainHeader a).work) {a d : MainBlockHash} {height worka workd : Nat}
    (hd : db.mainIndex.height d = some height) (hmem : a ∈ db.mainIndex.ancestors d)
    (hne : a ≠ d) (ha : db.totalWork[a]? = some worka) (hworkd : db.totalWork[d]? = some workd) :
    worka < workd := by
  obtain ⟨dinfo, hdinfo⟩ := hdb.info_of_height hd
  obtain ⟨w, hw, hafter⟩ := hdb.work hdinfo
  obtain rfl := Option.some.inj (hworkd.symm.trans hw)
  obtain ⟨hinfo, -, -⟩ := hdb.header hdinfo
  have hparent := mainIndex_parent hdinfo
  by_cases hfirst : dinfo.prevBlockHash = allZeros
  · rw [mainParent, if_pos hfirst] at hparent
    rw [Index.ancestors_first hparent, List.mem_singleton] at hmem
    exact absurd hmem hne
  · rw [mainParent, if_neg hfirst] at hparent
    rw [Index.ancestors_child hdb.rooted hparent] at hmem
    obtain ⟨n, hn, -⟩ := hdb.rooted.child hparent
    have hbefore := (List.mem_cons.mp hmem).resolve_left hne
    rw [totalWorkAfter, if_pos hfirst] at hafter
    obtain ⟨prevWork, hprevWork, hsum⟩ := bind_eq_ok_iff.mp hafter
    have hle := hdb.totalWork_mono hn hbefore ha (okOr_eq_ok_iff.mp hprevWork)
    have hsum := Except.ok.inj hsum
    have hpos := hwork d
    rw [← hinfo] at hpos
    omega

/-- Among tips of one height the best one has the most work, and any other is preferred. -/
theorem TipsInvariant.prefers_of_height_eq (h : db.TipsInvariant hashes)
    (hwork : ∀ a, 0 < (hashes.mainHeader a).work)
    (hbest : db.sideTips.bestSideTip = some best) (hpos : best.info.sidechainHeight ≠ 0)
    (hb : db.sideTips.sidechainTips[b]? = some info) (hne : b ≠ best.blockHash)
    (hheights : info.sidechainHeight = best.info.sidechainHeight) :
    db.Prefers best.tip (SidechainTip.mk b info).tip := by
  have hmain := h.base.main
  have hlookup := h.lookup_best hbest
  have hrecord := h.exact.recorded _ _ hlookup
  have hrecord' := h.exact.recorded _ _ hb
  have htips : best.tip ≠ (SidechainTip.mk b info).tip :=
    fun heq => hne (congrArg Tip.blockHash heq).symm
  obtain ⟨n, hn⟩ := Index.height_of_ancestor hmain.rooted hrecord.main
  obtain ⟨m0, -, hm0⟩ := Index.height_of_mem hmain.rooted hn hrecord.main
  obtain ⟨m1, -, hm1⟩ := Index.height_of_mem hmain.rooted hn hrecord'.main
  -- different blocks are verified at different mainchain blocks
  have hmains : info.mainBlockHash ≠ best.info.mainBlockHash := by
    intro heq
    obtain ⟨header, hheader⟩ := h.base.side.header_of_height hrecord.height
    obtain ⟨header', hheader'⟩ := h.base.side.header_of_height hrecord'.height
    exact hne (h.base.eq_of_verified hheader' hheader hrecord'.verified
      (heq ▸ hrecord.verified))
  have hle : info.work ≤ best.info.work := by
    have := h.le_best hbest hb
    omega
  -- so the other one comes first on the mainchain
  have hmem : info.mainBlockHash ∈ db.mainIndex.ancestors best.info.mainBlockHash := by
    rcases Nat.le_total m1 m0 with hm | hm
    · exact Index.mem_ancestors_total hmain.rooted hn hrecord'.main hrecord.main hm1 hm0 hm
    · have hmem := Index.mem_ancestors_total hmain.rooted hn hrecord.main hrecord'.main hm0 hm1 hm
      have hlt := hmain.totalWork_lt hwork hm1 hmem hmains.symm hrecord.work hrecord'.work
      omega
  have hlt := hmain.totalWork_lt hwork hm0 hmem hmains hrecord'.work hrecord.work
  have hheight := hrecord.height
  have hheight' := hrecord'.height
  rw [hheights] at hheight'
  obtain ⟨k, hk⟩ := Nat.exists_eq_succ_of_ne_zero hpos
  rw [hk] at hheight hheight'
  rw [Prefers, betterTip, if_neg htips, getHeight, SidechainTip.tip, hheight, okOr, ok_bind,
    getHeight, SidechainTip.tip, hheight', okOr, ok_bind]
  simp only [getTotalWork, hrecord.work, hrecord'.work, okOr_some, ok_bind]
  rw [betterByWork, Nat.compare_eq_gt.mpr hlt, Nat.compare_eq_eq.mpr rfl]
  simp only [sharedMainchainLineage, Index.sharedLineage_eq hmain.rooted hm0 hm1
    (hmain.rows_of_ancestors hm0) (hmain.rows_of_ancestors hm1), hmem, or_true, decide_true,
    ok_bind, Bool.not_true, Bool.false_eq_true, if_false]

/-- After a run that leaves no tip behind, the rankings agree if the best tip is a first block
or alone at its height. If every mainchain block has work, they agree in no other case. -/
theorem bestSideTip_preferred_iff (hashes : Hashes) (ops : List (NodeOp B))
    (hauth : ∀ op ∈ ops, op.Authentic hashes) (hsafe : NodeOp.SafeRun hashes .new ops)
    {best : SidechainTip} (hbest : (NodeOp.run hashes ops).sideTips.bestSideTip = some best) :
    ((NodeOp.run hashes ops).AloneAtHeight best → (NodeOp.run hashes ops).Preferred best) ∧
      ((∀ a, 0 < (hashes.mainHeader a).work) → (NodeOp.run hashes ops).Preferred best →
        (NodeOp.run hashes ops).AloneAtHeight best) := by
  have h := NodeOp.tipsInvariant_foldl tipsInvariant_new hauth hsafe
  refine ⟨h.preferred hbest, fun hwork hpreferred => ?_⟩
  by_cases hzero : best.info.sidechainHeight = 0
  · exact .inl hzero
  · refine .inr fun b info hb hne hheights => ?_
    exact (hpreferred b info hb hne).1
      (h.prefers_of_height_eq hwork hbest hzero hb hne hheights)

end ArchiveDb

/-- A first sidechain block with two children. -/
def rankFirst : Header := headerOn none 1
def rankEarly : Header := headerOn (some (pairHash rankFirst)) 2
def rankLate : Header := headerOn (some (pairHash rankFirst)) 3

/-- The mainchain `1, …, 4` commits to the first block, then to one child after the other. -/
def rankRows : List MainRow :=
  [⟨0, 0, 1, none⟩, ⟨1, 1, 1, some (pairHash rankFirst)⟩,
    ⟨2, 2, 1, some (pairHash rankEarly)⟩, ⟨3, 3, 1, some (pairHash rankLate)⟩]

def rankHashes : Hashes := treeHashes rankRows

open NodeOp in
/-- The mainchain arrives first, then the given sidechain blocks. -/
def rankOps (headers : List Header) : List (NodeOp Unit) :=
  (List.range 4).map (fun h =>
      connectBlock (rankHashes.mainHeader (h + 1)) (rankHashes.mainBlock (h + 1))) ++
    headers.flatMap fun header => [putHeader header, putBody (pairHash header) ()]

theorem rankOps_authentic (headers : List Header) :
    ∀ op ∈ rankOps headers, op.Authentic rankHashes := by
  intro op hop
  rcases List.mem_append.mp hop with hop | hop
  · obtain ⟨h, -, rfl⟩ := List.mem_map.mp hop
    exact ⟨⟨rfl, Nat.succ_ne_zero h⟩, rfl⟩
  · obtain ⟨header, -, hop⟩ := List.mem_flatMap.mp hop
    simp only [List.mem_cons, List.not_mem_nil, or_false] at hop
    rcases hop with rfl | rfl
    · trivial
    · trivial

/-- The child that is committed to later is the best tip of the table, and the comparison
prefers the other child. -/
theorem rankings_disagree :
    let db := NodeOp.run rankHashes (rankOps [rankFirst, rankEarly, rankLate])
    (∀ op ∈ rankOps [rankFirst, rankEarly, rankLate], op.Authentic rankHashes) ∧
      db.sideTips.bestSideTip = some ⟨pairHash rankLate, ⟨1, 4, 4⟩⟩ ∧
        db.sideTips.sidechainTips[pairHash rankEarly]? = some ⟨1, 3, 3⟩ ∧
          db.betterTip ⟨pairHash rankLate, 4⟩ ⟨pairHash rankEarly, 3⟩ =
            .ok (some ⟨pairHash rankEarly, 3⟩) :=
  ⟨rankOps_authentic _, by decide +kernel, by decide +kernel, by decide +kernel⟩

/-- Without the later child no tip is preferred to the best one. -/
theorem bestSideTip_preferred_early :
    (NodeOp.run rankHashes (rankOps [rankFirst, rankEarly])).Preferred
      ⟨pairHash rankEarly, ⟨1, 3, 3⟩⟩ := by
  refine (ArchiveDb.bestSideTip_preferred_iff rankHashes (rankOps [rankFirst, rankEarly])
    (rankOps_authentic _) ?_ (by decide +kernel)).1 (.inr fun b info hb hne => ?_)
  · exact ⟨trivial, trivial, trivial, trivial, trivial, trivial, trivial, trivial, trivial⟩
  · have hrow : (b, info) ∈
        (NodeOp.run rankHashes (rankOps [rankFirst, rankEarly])).sideTips.sidechainTips.toList :=
      mem_toList_iff.mpr hb
    have hrows :
        (NodeOp.run rankHashes (rankOps [rankFirst, rankEarly])).sideTips.sidechainTips.toList =
          [(pairHash rankFirst, ⟨0, 2, 2⟩), (pairHash rankEarly, ⟨1, 3, 3⟩)] := by
      decide +kernel
    rw [hrows] at hrow
    simp only [List.mem_cons, List.not_mem_nil, or_false, Prod.mk.injEq] at hrow
    rcases hrow with ⟨rfl, rfl⟩ | ⟨rfl, rfl⟩
    · decide
    · exact absurd rfl hne

end Truthcoin.Archiving
