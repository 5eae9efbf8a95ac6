import Truthcoin.BetterTip

/-!
# Ties between tips

Two tips of the same height and total work are compared by their newest ancestors that
name a mainchain block before the last common one. When these agree too, the tip that is
given first is preferred.
-/

namespace Truthcoin.Archiving

open Truthcoin.Types Truthcoin.Table Truthcoin.Fallible Truthcoin.Blocks
open Truthcoin.Mainchain Truthcoin.Lineage

variable {B : Type}

namespace ArchiveDb

section

variable (db : ArchiveDb B)

/-- The total work of the block after `prev` on the chain that ends at `main`. -/
def workAfter (main prev : MainBlockHash) : Option Nat := do
  let height ← db.mainBlockHashToHeight[main]?
  let prevHeight ← db.mainBlockHashToHeight[prev]?
  let next ← (db.mainIndex.ancestors main)[height - (prevHeight + 1)]?
  db.totalWork[next]?

/-- The height of a block that names a mainchain block before `main`, with the total work of
the mainchain block after that. There is no answer for a block that names a mainchain block
that is not stored. -/
def record (main : MainBlockHash) (b : BlockHash) : Option (Option (Nat × Nat)) := do
  let header ← db.headers[b]?
  if header.prevMainHash ∉ db.mainHeaderInfos then none
  else if header.prevMainHash ∈ db.mainIndex.ancestors main ∧ header.prevMainHash ≠ main then
    let height ← db.blockHashToHeight[b]?
    let work ← db.workAfter main header.prevMainHash
    some (some (height, work))
  else some none

/-- The first record of a list of blocks. -/
def firstRecord {α : Type} (f : BlockHash → Option (Option α)) :
    List BlockHash → Option (Option α)
  | [] => some none
  | b :: rest =>
      match f b with
      | none => none
      | some (some a) => some (some a)
      | some none => firstRecord f rest

/-- The record of the newest ancestor that has one. -/
def standing (main : MainBlockHash) (b : BlockHash) : Option (Option (Nat × Nat)) :=
  firstRecord (db.record main) (db.sideIndex.ancestors b)

/-- Neither of two tips stands out: they have the same height and the same total work, and
are the same block or stand at the same height and work before the last common mainchain
ancestor. -/
def Tied (tip0 tip1 : Tip) : Prop :=
  ∃ height work, 0 < height ∧
    db.blockHashToHeight[tip0.blockHash]? = some height ∧
    db.blockHashToHeight[tip1.blockHash]? = some height ∧
    db.totalWork[tip0.mainBlockHash]? = some work ∧
    db.totalWork[tip1.mainBlockHash]? = some work ∧
    (tip0.blockHash = tip1.blockHash ∨
      ∃ ancestor, db.lastCommonMainAncestor tip0.mainBlockHash tip1.mainBlockHash = .ok ancestor ∧
        ∃ record, db.standing ancestor tip0.blockHash = some record ∧
          db.standing ancestor tip1.blockHash = some record)

end

variable {hashes : Hashes} {db : ArchiveDb B}

theorem MainSound.isMainDescendant_of_unknown (hdb : db.MainSound hashes)
    {a d : MainBlockHash} {info : MainHeaderInfo} (hd : db.mainHeaderInfos[d]? = some info)
    (ha : a ∉ db.mainHeaderInfos) : ∃ e, db.isMainDescendant a d = .error e := by
  have hne : a ≠ d := by
    rintro rfl
    exact ha (mem_iff_lookup.mpr ⟨info, hd⟩)
  have hheight : db.mainIndex.height a = none := by
    cases hrow : db.mainIndex.height a with
    | none => rfl
    | some n => exact absurd (mem_iff_lookup.mpr (hdb.info_of_height hrow)) ha
  refine ⟨.noMainHeight a, ?_⟩
  show db.mainIndex.isDescendant mainFaults a d = _
  rw [Index.isDescendant, if_neg hne, Index.getHeight, hheight]
  rfl

theorem MainSound.workAfter_eq (hdb : db.MainSound hashes) {main prev : MainBlockHash}
    {height : Nat} (hmain : db.mainIndex.height main = some height)
    (hmem : prev ∈ db.mainIndex.ancestors main) (hne : prev ≠ main) :
    ∃ prevHeight next work, db.mainIndex.height prev = some prevHeight ∧
      db.getNthMainAncestor main (height - (prevHeight + 1)) = .ok next ∧
        db.totalWork[next]? = some work ∧ db.workAfter main prev = some work := by
  obtain ⟨prevHeight, hle, hprev⟩ := Index.height_of_mem hdb.rooted hmain hmem
  have hlt : prevHeight < height := by
    refine lt_of_le_of_ne hle ?_
    rintro rfl
    exact hne (Index.eq_of_mem_of_height hdb.rooted hmain hprev hmem)
  obtain ⟨next, hnext, hplace⟩ := Index.nthAncestor_eq mainFaults hdb.rooted hmain
    (hdb.rows_of_ancestors hmain) (show height - (prevHeight + 1) ≤ height by omega)
  obtain ⟨info, hinfo⟩ := hdb.info_of_height (Index.height_of_place hdb.rooted hmain hplace).2
  obtain ⟨work, hwork, -⟩ := hdb.work hinfo
  refine ⟨prevHeight, next, work, hprev, hnext, hwork, ?_⟩
  change db.mainBlockHashToHeight[main]? = some height at hmain
  change db.mainBlockHashToHeight[prev]? = some prevHeight at hprev
  simp only [workAfter, hmain, hprev, hplace, hwork, Option.bind_eq_bind, Option.bind_some]

theorem MainSound.toOption_heightWorkBefore (hdb : db.MainSound hashes) {main : MainBlockHash}
    {mainHeight height : Nat} {b : BlockHash} {header : Header}
    (hmain : db.mainIndex.height main = some mainHeight) (hheader : db.headers[b]? = some header)
    (hheight : db.blockHashToHeight[b]? = some height) :
    (db.heightWorkBefore main mainHeight b).toOption = db.record main b := by
  obtain ⟨info, hinfo⟩ := hdb.info_of_height hmain
  rw [heightWorkBefore, getHeader, hheader, okOr_some, ok_bind, record, hheader,
    Option.bind_eq_bind, Option.bind_some]
  by_cases hknown : header.prevMainHash ∈ db.mainHeaderInfos
  · obtain ⟨pinfo, hpinfo⟩ := mem_iff_lookup.mp hknown
    rw [if_neg (not_not_intro hknown), hdb.isMainDescendant_eq hpinfo hinfo, ok_bind]
    by_cases hmem : header.prevMainHash ∈ db.mainIndex.ancestors main
    · rw [decide_eq_true hmem, Bool.not_true, if_neg Bool.false_ne_true]
      by_cases heq : header.prevMainHash = main
      · rw [if_pos heq, if_neg fun h => h.2 heq]
        rfl
      · obtain ⟨prevHeight, next, work, hprev, hnext, hwork, hafter⟩ :=
          hdb.workAfter_eq hmain hmem heq
        change db.mainBlockHashToHeight[header.prevMainHash]? = some prevHeight at hprev
        rw [if_neg heq, if_pos ⟨hmem, heq⟩, hafter, getHeight, hheight, okOr_some, ok_bind,
          getMainHeight, hprev, okOr_some, ok_bind, hnext, ok_bind, getTotalWork, hwork, okOr_some,
          ok_bind]
        rfl
    · rw [decide_eq_false hmem, Bool.not_false, if_pos rfl, if_neg fun h => hmem h.1]
      rfl
  · obtain ⟨e, he⟩ := hdb.isMainDescendant_of_unknown hinfo hknown
    rw [if_pos hknown, he]
    rfl

theorem MainSound.toOption_heightBefore (hdb : db.MainSound hashes) {main : MainBlockHash}
    {mainHeight height : Nat} {b : BlockHash} {header : Header}
    (hmain : db.mainIndex.height main = some mainHeight) (hheader : db.headers[b]? = some header)
    (hheight : db.blockHashToHeight[b]? = some height) :
    (db.heightBefore main b).toOption = (db.record main b).map (Option.map Prod.fst) := by
  obtain ⟨info, hinfo⟩ := hdb.info_of_height hmain
  rw [heightBefore, getHeader, hheader, okOr_some, ok_bind, record, hheader,
    Option.bind_eq_bind, Option.bind_some]
  by_cases hknown : header.prevMainHash ∈ db.mainHeaderInfos
  · obtain ⟨pinfo, hpinfo⟩ := mem_iff_lookup.mp hknown
    rw [if_neg (not_not_intro hknown), hdb.isMainDescendant_eq hpinfo hinfo, ok_bind]
    by_cases hmem : header.prevMainHash ∈ db.mainIndex.ancestors main
    · rw [decide_eq_true hmem, Bool.not_true, if_neg Bool.false_ne_true]
      by_cases heq : header.prevMainHash = main
      · rw [if_pos heq, if_neg fun h => h.2 heq]
        rfl
      · obtain ⟨prevHeight, next, work, -, -, -, hafter⟩ := hdb.workAfter_eq hmain hmem heq
        rw [if_neg heq, if_pos ⟨hmem, heq⟩, hafter, getHeight, hheight, okOr_some, ok_bind]
        rfl
    · rw [decide_eq_false hmem, Bool.not_false, if_pos rfl, if_neg fun h => hmem h.1]
      rfl
  · obtain ⟨e, he⟩ := hdb.isMainDescendant_of_unknown hinfo hknown
    rw [if_pos hknown, he]
    rfl

theorem firstRecord_congr {α : Type} {f g : BlockHash → Option (Option α)}
    {l : List BlockHash} (h : ∀ b ∈ l, f b = g b) : firstRecord f l = firstRecord g l := by
  induction l with
  | nil => rfl
  | cons b rest ih =>
      rw [firstRecord, firstRecord, h b List.mem_cons_self,
        ih fun b' hb' => h b' (List.mem_cons_of_mem _ hb')]

theorem firstRecord_map {α β : Type} {f : BlockHash → Option (Option α)} {g : α → β}
    {l : List BlockHash} :
    firstRecord (fun b => (f b).map (Option.map g)) l = (firstRecord f l).map (Option.map g) := by
  induction l with
  | nil => rfl
  | cons b rest ih =>
      rw [firstRecord, firstRecord]
      rcases f b with - | - | a
      · rfl
      · exact ih
      · rfl

theorem SideSound.toOption_findAncestor (hdb : db.SideSound hashes) {α : Type}
    {f : BlockHash → Except ArchiveDbError (Option α)} {height : Nat} {b : BlockHash}
    (hb : db.sideIndex.height b = some height) :
    (db.findAncestor f (height + 1) (some b)).toOption =
      firstRecord (fun b => (f b).toOption) (db.sideIndex.ancestors b) := by
  induction height generalizing b with
  | zero =>
      obtain ⟨header, hheader⟩ := hdb.header_of_height hb
      have hparent := sideIndex_parent hheader
      cases hprev : header.prevSideHash with
      | none =>
          rw [hprev] at hparent
          rw [Index.ancestors_first hparent, findAncestor, getHeader, hheader, okOr_some, ok_bind,
            hprev, firstRecord, firstRecord]
          rcases f b with e | - | a
          · rfl
          · rfl
          · rfl
      | some p =>
          rw [hprev] at hparent
          obtain ⟨n, -, hn⟩ := hdb.rooted.child hparent
          rw [hb] at hn
          cases hn
  | succ height ih =>
      obtain ⟨header, hheader⟩ := hdb.header_of_height hb
      have hparent := sideIndex_parent hheader
      cases hprev : header.prevSideHash with
      | none =>
          rw [hprev] at hparent
          rw [hdb.rooted.first hparent] at hb
          cases hb
      | some p =>
          rw [hprev] at hparent
          obtain ⟨n, hp, hn⟩ := hdb.rooted.child hparent
          rw [hb, Option.some.injEq, Nat.add_right_cancel_iff] at hn
          rw [Index.ancestors_child hdb.rooted hparent, findAncestor, getHeader, hheader,
            okOr_some, ok_bind, hprev, firstRecord, ← ih (hn ▸ hp)]
          rcases f b with e | - | a
          · rfl
          · rfl
          · rfl

section

variable {main : MainBlockHash} {mainHeight height : Nat} {b : BlockHash}

theorem SideSound.stored_of_mem (hdb : db.SideSound hashes)
    (hb : db.sideIndex.height b = some height) {a : BlockHash}
    (ha : a ∈ db.sideIndex.ancestors b) :
    ∃ header n, db.headers[a]? = some header ∧ db.blockHashToHeight[a]? = some n := by
  obtain ⟨n, -, hn⟩ := Index.height_of_mem hdb.rooted hb ha
  obtain ⟨header, hheader⟩ := hdb.header_of_height hn
  exact ⟨header, n, hheader, hn⟩

theorem BmmInvariant.toOption_findAncestor (hdb : db.BmmInvariant hashes)
    (hmain : db.mainIndex.height main = some mainHeight)
    (hb : db.sideIndex.height b = some height) :
    (db.findAncestor (db.heightWorkBefore main mainHeight) (height + 1) (some b)).toOption =
      db.standing main b := by
  rw [hdb.side.toOption_findAncestor hb, standing]
  apply firstRecord_congr
  intro a ha
  obtain ⟨header, n, hheader, hn⟩ := hdb.side.stored_of_mem hb ha
  exact hdb.main.toOption_heightWorkBefore hmain hheader hn

theorem BmmInvariant.toOption_findAncestor_height (hdb : db.BmmInvariant hashes)
    (hmain : db.mainIndex.height main = some mainHeight)
    (hb : db.sideIndex.height b = some height) :
    (db.findAncestor (db.heightBefore main) (height + 1) (some b)).toOption =
      (db.standing main b).map (Option.map Prod.fst) := by
  rw [hdb.side.toOption_findAncestor hb, standing, ← firstRecord_map]
  apply firstRecord_congr
  intro a ha
  obtain ⟨header, n, hheader, hn⟩ := hdb.side.stored_of_mem hb ha
  exact hdb.main.toOption_heightBefore hmain hheader hn

/-- Before a first mainchain block there is nothing to name, so all first blocks are alike. -/
theorem MainSound.standing_of_first (hdb : db.MainSound hashes) {main' : MainBlockHash}
    (h : db.mainIndex.height main = some 0) (h' : db.mainIndex.height main' = some 0) :
    db.standing main b = db.standing main' b := by
  have hnone {main prev : MainBlockHash} (h : db.mainIndex.height main = some 0) :
      ¬ (prev ∈ db.mainIndex.ancestors main ∧ prev ≠ main) := by
    rintro ⟨hmem, hne⟩
    obtain ⟨n, hn, hprev⟩ := Index.height_of_mem hdb.rooted h hmem
    obtain rfl : n = 0 := by omega
    exact hne (Index.eq_of_mem_of_height hdb.rooted h hprev hmem)
  apply firstRecord_congr
  intro a ha
  rw [record, record]
  congr 1
  funext header
  rw [if_neg (hnone h), if_neg (hnone h')]

end

section

variable {tip0 tip1 : Tip}

theorem MainSound.lastCommon_comm (hdb : db.MainSound hashes) {main0 main1 : MainBlockHash}
    {info0 info1 : MainHeaderInfo} (h0 : db.mainHeaderInfos[main0]? = some info0)
    (h1 : db.mainHeaderInfos[main1]? = some info1) :
    ∃ c c' n n', db.lastCommonMainAncestor main0 main1 = .ok c ∧
      db.lastCommonMainAncestor main1 main0 = .ok c' ∧ db.mainIndex.height c = some n ∧
        db.mainIndex.height c' = some n' ∧ (c = c' ∨ n = 0 ∧ n' = 0) := by
  obtain ⟨n0, hn0⟩ := hdb.height h0
  obtain ⟨n1, hn1⟩ := hdb.height h1
  obtain ⟨c, hc, hmem, hlast⟩ := Index.lastCommonAncestor_eq mainFaults hdb.rooted
    hn0 hn1 (hdb.rows_of_ancestors hn0) (hdb.rows_of_ancestors hn1)
  obtain ⟨c', hc', hmem', hlast'⟩ := Index.lastCommonAncestor_eq mainFaults hdb.rooted
    hn1 hn0 (hdb.rows_of_ancestors hn1) (hdb.rows_of_ancestors hn0)
  obtain ⟨n, -, hn⟩ := Index.height_of_mem hdb.rooted hn0 hmem
  obtain ⟨n', -, hn'⟩ := Index.height_of_mem hdb.rooted hn1 hmem'
  refine ⟨c, c', n, n', hc, hc', hn, hn', ?_⟩
  rcases hlast with hlast | ⟨hzero, hdisjoint⟩
  · rcases hlast' with hlast' | ⟨-, hdisjoint'⟩
    · exact .inl (Lineage.Index.LastCommon.unique hdb.rooted hn0 hlast hlast'.symm)
    · exact absurd hlast.1 (hdisjoint' c hlast.2.1)
  · rcases hlast' with hlast' | ⟨hzero', -⟩
    · exact absurd hlast'.1 (hdisjoint c' hlast'.2.1)
    · rw [hn, Option.some.injEq] at hzero
      rw [hn', Option.some.injEq] at hzero'
      exact .inr ⟨hzero, hzero'⟩

theorem MainSound.sharedMainchainLineage_comm (hdb : db.MainSound hashes)
    {main0 main1 : MainBlockHash} {info0 info1 : MainHeaderInfo}
    (h0 : db.mainHeaderInfos[main0]? = some info0)
    (h1 : db.mainHeaderInfos[main1]? = some info1) :
    ∃ shared, db.sharedMainchainLineage main0 main1 = .ok shared ∧
      db.sharedMainchainLineage main1 main0 = .ok shared := by
  obtain ⟨n0, hn0⟩ := hdb.height h0
  obtain ⟨n1, hn1⟩ := hdb.height h1
  refine ⟨_, Index.sharedLineage_eq hdb.rooted hn0 hn1 (hdb.rows_of_ancestors hn0)
    (hdb.rows_of_ancestors hn1), ?_⟩
  rw [sharedMainchainLineage, Index.sharedLineage_eq hdb.rooted hn1 hn0
    (hdb.rows_of_ancestors hn1) (hdb.rows_of_ancestors hn0)]
  congr 1
  rw [decide_eq_decide, or_comm]

theorem preferRecord_comm_iff (hne : tip0 ≠ tip1) {record0 record1 : Option (Nat × Nat)} :
    preferRecord tip0 tip1 record0 record1 = preferRecord tip1 tip0 record1 record0 ↔
      record0 ≠ record1 := by
  have heq : record0 = record1 ↔
      optionRank (record0.map Prod.fst) = optionRank (record1.map Prod.fst) ∧
        optionRank (record0.map Prod.snd) = optionRank (record1.map Prod.snd) := by
    rcases record0 with - | ⟨n0, w0⟩ <;> rcases record1 with - | ⟨n1, w1⟩ <;>
      simp [optionRank]
  rw [ne_eq, heq, preferRecord, preferRecord]
  rcases Nat.lt_trichotomy (optionRank (record0.map Prod.fst))
    (optionRank (record1.map Prod.fst)) with hlt | hfst | hgt
  · rw [Nat.compare_eq_lt.mpr hlt, Nat.compare_eq_gt.mpr hlt]
    simp [hlt.ne]
  · rw [Nat.compare_eq_eq.mpr hfst, Nat.compare_eq_eq.mpr hfst.symm]
    rcases Nat.lt_trichotomy (optionRank (record0.map Prod.snd))
      (optionRank (record1.map Prod.snd)) with hlt | hsnd | hgt
    · rw [Nat.compare_eq_lt.mpr hlt, Nat.compare_eq_gt.mpr hlt]
      simp [hlt.ne]
    · rw [Nat.compare_eq_eq.mpr hsnd, Nat.compare_eq_eq.mpr hsnd.symm]
      simp [hne, hfst, hsnd]
    · rw [Nat.compare_eq_lt.mpr hgt, Nat.compare_eq_gt.mpr hgt]
      simp [hgt.ne']
  · rw [Nat.compare_eq_lt.mpr hgt, Nat.compare_eq_gt.mpr hgt]
    simp [hgt.ne']

theorem MainSound.standing_comm (hdb : db.MainSound hashes) {main0 main1 : MainBlockHash}
    {info0 info1 : MainHeaderInfo} (h0 : db.mainHeaderInfos[main0]? = some info0)
    (h1 : db.mainHeaderInfos[main1]? = some info1) :
    ∃ c c' n n', db.lastCommonMainAncestor main0 main1 = .ok c ∧
      db.lastCommonMainAncestor main1 main0 = .ok c' ∧ db.mainIndex.height c = some n ∧
        db.mainIndex.height c' = some n' ∧ ∀ b, db.standing c b = db.standing c' b := by
  obtain ⟨c, c', n, n', hc, hc', hn, hn', hsame⟩ := hdb.lastCommon_comm h0 h1
  refine ⟨c, c', n, n', hc, hc', hn, hn', fun b => ?_⟩
  rcases hsame with rfl | ⟨rfl, rfl⟩
  · rfl
  · exact hdb.standing_of_first hn hn'

variable {height0 height1 work0 work1 : Nat}

theorem BmmInvariant.betterByWork_comm_lt_gt (hdb : db.BmmInvariant hashes)
    (hb : db.sideIndex.height tip0.blockHash = some height0)
    {info0 info1 : MainHeaderInfo} (h0 : db.mainHeaderInfos[tip0.mainBlockHash]? = some info0)
    (h1 : db.mainHeaderInfos[tip1.mainBlockHash]? = some info1) (hw : work0 < work1)
    (hh : height1 < height0) :
    (db.betterByWork tip0 tip1 height0 height1 work0 work1).toOption =
      (db.betterByWork tip1 tip0 height1 height0 work1 work0).toOption := by
  obtain ⟨c, c', n, n', hc, hc', hn, hn', hstanding⟩ := hdb.main.standing_comm h0 h1
  rw [betterByWork, betterByWork, Nat.compare_eq_lt.mpr hw, Nat.compare_eq_gt.mpr hh,
    Nat.compare_eq_gt.mpr hw, Nat.compare_eq_lt.mpr hh]
  simp only [hc, hc', ok_bind]
  rw [toOption_bind, toOption_bind, hdb.toOption_findAncestor_height hn hb,
    hdb.toOption_findAncestor_height hn' hb, hstanding]
  congr 1
  funext ancestor
  by_cases hle : optionRank (some height1) ≤ optionRank ancestor
  · rw [if_pos hle, if_neg (by omega)]
  · rw [if_neg hle, if_pos (by omega)]

theorem BmmInvariant.betterByWork_comm (hdb : db.BmmInvariant hashes)
    (hb0 : db.sideIndex.height tip0.blockHash = some height0)
    (hb1 : db.sideIndex.height tip1.blockHash = some height1)
    {info0 info1 : MainHeaderInfo} (h0 : db.mainHeaderInfos[tip0.mainBlockHash]? = some info0)
    (h1 : db.mainHeaderInfos[tip1.mainBlockHash]? = some info1)
    (hne : ¬ (height0 = height1 ∧ work0 = work1)) :
    (db.betterByWork tip0 tip1 height0 height1 work0 work1).toOption =
      (db.betterByWork tip1 tip0 height1 height0 work1 work0).toOption := by
  obtain ⟨shared, hshared, hshared'⟩ := hdb.main.sharedMainchainLineage_comm h0 h1
  rcases Nat.lt_trichotomy work0 work1 with hw | hw | hw
  · rcases Nat.lt_trichotomy height0 height1 with hh | hh | hh
    · rw [betterByWork, betterByWork, Nat.compare_eq_lt.mpr hw, Nat.compare_eq_lt.mpr hh,
        Nat.compare_eq_gt.mpr hw, Nat.compare_eq_gt.mpr hh]
    · rw [betterByWork, betterByWork, Nat.compare_eq_lt.mpr hw, Nat.compare_eq_eq.mpr hh,
        Nat.compare_eq_gt.mpr hw, Nat.compare_eq_eq.mpr hh.symm]
      simp only [hshared, hshared', ok_bind]
      cases shared <;> rfl
    · exact hdb.betterByWork_comm_lt_gt hb0 h0 h1 hw hh
  · rcases Nat.lt_trichotomy height0 height1 with hh | hh | hh
    · rw [betterByWork, betterByWork, Nat.compare_eq_eq.mpr hw, Nat.compare_eq_lt.mpr hh,
        Nat.compare_eq_eq.mpr hw.symm, Nat.compare_eq_gt.mpr hh]
    · exact absurd ⟨hh, hw⟩ hne
    · rw [betterByWork, betterByWork, Nat.compare_eq_eq.mpr hw, Nat.compare_eq_gt.mpr hh,
        Nat.compare_eq_eq.mpr hw.symm, Nat.compare_eq_lt.mpr hh]
  · rcases Nat.lt_trichotomy height0 height1 with hh | hh | hh
    · exact (hdb.betterByWork_comm_lt_gt hb1 h1 h0 hw hh).symm
    · rw [betterByWork, betterByWork, Nat.compare_eq_gt.mpr hw, Nat.compare_eq_eq.mpr hh,
        Nat.compare_eq_lt.mpr hw, Nat.compare_eq_eq.mpr hh.symm]
      simp only [hshared, hshared', ok_bind]
      cases shared <;> rfl
    · rw [betterByWork, betterByWork, Nat.compare_eq_gt.mpr hw, Nat.compare_eq_gt.mpr hh,
        Nat.compare_eq_lt.mpr hw, Nat.compare_eq_lt.mpr hh]

theorem BmmInvariant.betterAncestor_comm_iff (hdb : db.BmmInvariant hashes)
    (hne : tip0 ≠ tip1) (hb0 : db.sideIndex.height tip0.blockHash = some height0)
    (hb1 : db.sideIndex.height tip1.blockHash = some height0)
    {info0 info1 : MainHeaderInfo} (h0 : db.mainHeaderInfos[tip0.mainBlockHash]? = some info0)
    (h1 : db.mainHeaderInfos[tip1.mainBlockHash]? = some info1) :
    (db.betterAncestor tip0 tip1 height0).toOption =
        (db.betterAncestor tip1 tip0 height0).toOption ↔
      ¬ ∃ ancestor, db.lastCommonMainAncestor tip0.mainBlockHash tip1.mainBlockHash = .ok ancestor ∧
        ∃ record, db.standing ancestor tip0.blockHash = some record ∧
          db.standing ancestor tip1.blockHash = some record := by
  obtain ⟨c, c', n, n', hc, hc', hn, hn', hstanding⟩ := hdb.main.standing_comm h0 h1
  change db.mainBlockHashToHeight[c]? = some n at hn
  change db.mainBlockHashToHeight[c']? = some n' at hn'
  rw [betterAncestor, betterAncestor]
  simp only [hc, hc', ok_bind, getMainHeight, hn, hn', okOr_some, toOption_bind,
    hdb.toOption_findAncestor hn hb0, hdb.toOption_findAncestor hn hb1,
    hdb.toOption_findAncestor hn' hb0, hdb.toOption_findAncestor hn' hb1, ← hstanding,
    Except.ok.injEq, exists_eq_left']
  cases hs0 : db.standing c tip0.blockHash with
  | none => cases hs1 : db.standing c tip1.blockHash <;> simp
  | some record0 =>
      cases hs1 : db.standing c tip1.blockHash with
      | none => simp
      | some record1 =>
          simp only [Option.bind_some, Except.toOption, Option.some.injEq, exists_eq_left',
            preferRecord_comm_iff hne, ne_eq, eq_comm]

end

theorem betterTip_of_heights {tip0 tip1 : Tip} (hne : tip0 ≠ tip1) {height0 height1 : Nat}
    (hb0 : db.blockHashToHeight[tip0.blockHash]? = some (height0 + 1))
    (hb1 : db.blockHashToHeight[tip1.blockHash]? = some (height1 + 1)) :
    (db.betterTip tip0 tip1).toOption =
      db.totalWork[tip0.mainBlockHash]?.bind fun work0 =>
        db.totalWork[tip1.mainBlockHash]?.bind fun work1 =>
          (db.betterByWork tip0 tip1 (height0 + 1) (height1 + 1) work0 work1).toOption.map
            some := by
  rw [betterTip, if_neg hne, getHeight, hb0, okOr_some, ok_bind, getHeight, hb1, okOr_some,
    ok_bind]
  simp only [getTotalWork]
  cases db.totalWork[tip0.mainBlockHash]? with
  | none => rfl
  | some work0 =>
      cases db.totalWork[tip1.mainBlockHash]? with
      | none => rfl
      | some work1 =>
          rw [okOr_some, ok_bind, okOr_some, ok_bind, Option.bind_some, Option.bind_some]
          cases db.betterByWork tip0 tip1 (height0 + 1) (height1 + 1) work0 work1 <;> rfl

theorem BmmInvariant.betterByWork_comm_iff (hdb : db.BmmInvariant hashes) {tip0 tip1 : Tip}
    (hne : tip0 ≠ tip1) {height work : Nat}
    (hb0 : db.sideIndex.height tip0.blockHash = some height)
    (hb1 : db.sideIndex.height tip1.blockHash = some height)
    {info0 info1 : MainHeaderInfo} (h0 : db.mainHeaderInfos[tip0.mainBlockHash]? = some info0)
    (h1 : db.mainHeaderInfos[tip1.mainBlockHash]? = some info1) :
    (db.betterByWork tip0 tip1 height height work work).toOption =
        (db.betterByWork tip1 tip0 height height work work).toOption ↔
      ¬ (tip0.blockHash = tip1.blockHash ∨
        ∃ ancestor, db.lastCommonMainAncestor tip0.mainBlockHash tip1.mainBlockHash = .ok ancestor ∧
          ∃ record, db.standing ancestor tip0.blockHash = some record ∧
            db.standing ancestor tip1.blockHash = some record) := by
  rw [betterByWork, betterByWork, Nat.compare_eq_eq.mpr rfl, Nat.compare_eq_eq.mpr rfl]
  by_cases hsame : tip0.blockHash = tip1.blockHash
  · simp only [if_pos hsame, if_pos hsame.symm]
    simp [hsame, hne, Except.toOption]
  · simp only [if_neg hsame, if_neg fun h : tip1.blockHash = _ => hsame h.symm]
    rw [hdb.betterAncestor_comm_iff hne hb0 hb1 h0 h1]
    simp only [hsame, false_or]

theorem BmmInvariant.same_better_iff_not_tied (hdb : db.BmmInvariant hashes) {tip0 tip1 : Tip}
    (hne : tip0 ≠ tip1) (h0 : tip0.blockHash ∈ db.headers) (h1 : tip1.blockHash ∈ db.headers) :
    (db.betterTip tip0 tip1).toOption = (db.betterTip tip1 tip0).toOption ↔
      ¬ db.Tied tip0 tip1 := by
  obtain ⟨header0, hheader0⟩ := mem_iff_lookup.mp h0
  obtain ⟨header1, hheader1⟩ := mem_iff_lookup.mp h1
  obtain ⟨height0, hb0⟩ := hdb.side.height hheader0
  obtain ⟨height1, hb1⟩ := hdb.side.height hheader1
  have hwork {main : MainBlockHash} {work : Nat} (hw : db.totalWork[main]? = some work) :
      ∃ info, db.mainHeaderInfos[main]? = some info :=
    mem_iff_lookup.mp (hdb.main.workKnown (mem_iff_lookup.mpr ⟨work, hw⟩))
  have hn0 : db.blockHashToHeight[tip0.blockHash]? = some height0 := hb0
  have hn1 : db.blockHashToHeight[tip1.blockHash]? = some height1 := hb1
  -- both are errors or none when a first block or an unknown work is involved
  rcases height0 with - | height0
  · rw [iff_true_right (by rintro ⟨n, w, hpos, hh, -⟩; rw [hn0] at hh; simp at hh; omega)]
    rw [betterTip, betterTip, if_neg hne, if_neg hne.symm]
    simp only [getHeight, hn0, hn1, okOr_some, ok_bind]
    rcases height1 with - | height1 <;> rfl
  rcases height1 with - | height1
  · rw [iff_true_right (by rintro ⟨n, w, hpos, -, hh, -⟩; rw [hn1] at hh; simp at hh; omega)]
    rw [betterTip, betterTip, if_neg hne, if_neg hne.symm]
    simp only [getHeight, hn0, hn1, okOr_some, ok_bind]
  rw [betterTip_of_heights hne hn0 hn1, betterTip_of_heights hne.symm hn1 hn0, Tied]
  simp only [hn0, hn1, Option.some.injEq]
  cases hw0 : db.totalWork[tip0.mainBlockHash]? with
  | none => cases db.totalWork[tip1.mainBlockHash]? <;> simp
  | some work0 =>
      cases hw1 : db.totalWork[tip1.mainBlockHash]? with
      | none => simp
      | some work1 =>
          obtain ⟨info0, hinfo0⟩ := hwork hw0
          obtain ⟨info1, hinfo1⟩ := hwork hw1
          simp only [Option.bind_some, Option.some.injEq]
          rw [(Option.map_injective (Option.some_injective Tip)).eq_iff]
          by_cases htie : height0 + 1 = height1 + 1 ∧ work0 = work1
          · obtain ⟨hheights, rfl⟩ := htie
            rw [hheights] at hb0 ⊢
            rw [hdb.betterByWork_comm_iff hne hb0 hb1 hinfo0 hinfo1]
            simp
          · rw [iff_true_left (hdb.betterByWork_comm hb0 hb1 hinfo0 hinfo1 htie)]
            rintro ⟨n, w, -, rfl, hn, rfl, hw, -⟩
            exact htie ⟨hn.symm, hw.symm⟩

theorem BmmInvariant.betterTip_of_tied (hdb : db.BmmInvariant hashes) {tip0 tip1 : Tip}
    (hne : tip0 ≠ tip1) (h : db.Tied tip0 tip1) : db.betterTip tip0 tip1 = .ok (some tip0) := by
  obtain ⟨height, work, hpos, hn0, hn1, hw0, hw1, hsame⟩ := h
  obtain ⟨height, rfl⟩ := Nat.exists_eq_add_one_of_ne_zero hpos.ne'
  have hbetter : (db.betterTip tip0 tip1).toOption = some (some tip0) := by
    rw [betterTip_of_heights hne hn0 hn1, hw0, hw1, Option.bind_some, Option.bind_some,
      betterByWork, Nat.compare_eq_eq.mpr rfl, Nat.compare_eq_eq.mpr rfl]
    by_cases heq : tip0.blockHash = tip1.blockHash
    · simp only [if_pos heq]
      rfl
    · obtain ⟨c, hc, record, hr0, hr1⟩ := hsame.resolve_left heq
      obtain ⟨info0, hinfo0⟩ := mem_iff_lookup.mp
        (hdb.main.workKnown (mem_iff_lookup.mpr ⟨work, hw0⟩))
      obtain ⟨info1, hinfo1⟩ := mem_iff_lookup.mp
        (hdb.main.workKnown (mem_iff_lookup.mpr ⟨work, hw1⟩))
      obtain ⟨c', -, n, -, hc', -, hn, -⟩ := hdb.main.standing_comm hinfo0 hinfo1
      obtain rfl := Except.ok.inj (hc.symm.trans hc')
      have hheight : db.getMainHeight c = .ok n := okOr_eq_ok_iff.mpr hn
      simp only [if_neg heq]
      rw [betterAncestor, hc, ok_bind, hheight, ok_bind, toOption_bind,
        hdb.toOption_findAncestor hn hn0, hr0, Option.bind_some, toOption_bind,
        hdb.toOption_findAncestor hn hn1, hr1, Option.bind_some, preferRecord,
        Nat.compare_eq_eq.mpr rfl, Nat.compare_eq_eq.mpr rfl]
      rfl
  cases hresult : db.betterTip tip0 tip1 with
  | error e =>
      rw [hresult] at hbetter
      cases hbetter
  | ok better =>
      rw [hresult] at hbetter
      rw [Option.some.inj hbetter]

/-- Which of two known tips is better depends on their order exactly when they are tied. -/
theorem betterTip_comm_iff (hdb : Reachable hashes db) (tip0 tip1 : Tip) (hne : tip0 ≠ tip1)
    (h0 : tip0.blockHash ∈ db.headers) (h1 : tip1.blockHash ∈ db.headers) :
    (db.betterTip tip0 tip1).toOption = (db.betterTip tip1 tip0).toOption ↔
      ¬ db.Tied tip0 tip1 :=
  hdb.invariant.same_better_iff_not_tied hne h0 h1

end ArchiveDb

/-- A first sidechain block, its children on the second and the third mainchain block, and
another child on the second one. -/
def forkFirst : Header := headerOn none 1
def forkLeft : Header := headerOn (some (pairHash forkFirst)) 2
def forkLater : Header := headerOn (some (pairHash forkFirst)) 3
def forkRight : Header := { forkLeft with merkleRoot := 1 }

/-- The mainchain `1, 2, 3, 4` with the fork `5` of the given work on block 2. -/
def forkRows (work : Nat) : List MainRow :=
  [⟨0, 0, 1, none⟩, ⟨1, 1, 1, some (pairHash forkFirst)⟩, ⟨2, 2, 1, some (pairHash forkLeft)⟩,
    ⟨3, 3, 1, some (pairHash forkLater)⟩, ⟨2, 2, work, some (pairHash forkRight)⟩]

def forkArchive (work : Nat) : ArchiveDb Unit :=
  treeArchive (forkRows work) [forkFirst, forkLeft, forkLater, forkRight]

def leftTip : Tip := ⟨pairHash forkLeft, 3⟩
def rightTip : Tip := ⟨pairHash forkRight, 5⟩

/-- With the same work on both sides of the fork, the tip given first is preferred. -/
theorem betterTip_depends_on_order :
    ArchiveDb.Reachable (treeHashes (forkRows 1)) (forkArchive 1) ∧
      leftTip ≠ rightTip ∧ leftTip.blockHash ∈ (forkArchive 1).headers ∧
        rightTip.blockHash ∈ (forkArchive 1).headers ∧
          (forkArchive 1).betterTip leftTip rightTip = .ok (some leftTip) ∧
            (forkArchive 1).betterTip rightTip leftTip = .ok (some rightTip) :=
  ⟨reachable_treeArchive _ _, by decide, by decide +kernel, by decide +kernel,
    by decide +kernel, by decide +kernel⟩

/-- Without a tie the order does not matter. -/
theorem betterTip_comm_iff_fork :
    ((forkArchive 2).betterTip leftTip rightTip).toOption =
        ((forkArchive 2).betterTip rightTip leftTip).toOption ↔
      ¬ (forkArchive 2).Tied leftTip rightTip :=
  ArchiveDb.betterTip_comm_iff (reachable_treeArchive _ _) leftTip rightTip (by decide)
    (by decide +kernel) (by decide +kernel)

end Truthcoin.Archiving
