import Truthcoin.SideTipsExact

/-!
# Exact tips while the archive fills

What is stored keeps the tables of tips exact: headers and mainchain blocks change no
result on the active chain, and bodies let blocks join and leave.
-/

namespace Truthcoin.Archiving

open Truthcoin.Types Truthcoin.Table Truthcoin.Fallible Truthcoin.Blocks
open Truthcoin.Mainchain Truthcoin.Lineage

variable {B : Type}

namespace ArchiveDb

section

variable (db : ArchiveDb B)

/-- The mainchain tip is stored with its block, and its total work is the cumulative work. -/
structure TipKnown (tip : MainchainTip) : Prop where
  first : tip.tipInfo = none → tip.cumulativeWork = 0
  stored : ∀ info : MainHeaderInfo, tip.tipInfo = some info →
    db.mainHeaderInfos[info.blockHash]? = some info ∧ info.blockHash ∈ db.mainBlockInfos ∧
      db.totalWork[info.blockHash]? = some tip.cumulativeWork

/-- What holds of an archive and its tips while no tip is orphaned. -/
structure TipsInvariant (hashes : Hashes) : Prop where
  base : db.BmmInvariant hashes
  known : db.TipKnown db.sideTips.mainchainTip
  exact : db.TipsExact db.sideTips (fun _ => False) (fun _ => False)

end

variable {hashes : Hashes} {db db' : ArchiveDb B}

theorem MainSound.ancestors_allZeros (hdb : db.MainSound hashes) :
    db.mainIndex.ancestors allZeros = [] := by
  rw [List.eq_nil_iff_forall_not_mem]
  intro a ha
  obtain ⟨n, hn⟩ := Index.height_of_ancestor hdb.rooted ha
  obtain ⟨info, hinfo⟩ := hdb.info_of_height hn
  exact (hdb.header hinfo).2.2 rfl

theorem MainSound.ancestors_cons (hdb : db.MainSound hashes) {info : MainHeaderInfo}
    (hinfo : db.mainHeaderInfos[info.blockHash]? = some info) :
    db.mainIndex.ancestors info.blockHash =
      info.blockHash :: db.mainIndex.ancestors info.prevBlockHash := by
  have hparent := mainIndex_parent hinfo
  by_cases hfirst : info.prevBlockHash = allZeros
  · rw [mainParent, if_pos hfirst] at hparent
    rw [Index.ancestors_first hparent, hfirst, hdb.ancestors_allZeros]
  · rw [mainParent, if_neg hfirst] at hparent
    rw [Index.ancestors_child hdb.rooted hparent]

theorem TipsInvariant.block_of_active (h : db.TipsInvariant hashes) {a : MainBlockHash}
    (ha : a ∈ db.activeChain db.sideTips) : a ∈ db.mainBlockInfos := by
  rw [activeChain, MainchainTip.blockHash] at ha
  cases htip : db.sideTips.mainchainTip.tipInfo with
  | none =>
      rw [htip] at ha
      rw [h.base.main.ancestors_allZeros] at ha
      exact absurd ha List.not_mem_nil
  | some info =>
      rw [htip] at ha
      exact h.base.main.block_of_mem (h.known.stored info htip).2.1 ha

/-- What is stored stays, and the bodies and the tips are the same. -/
structure Grows (db db' : ArchiveDb B) : Prop where
  headers : ∀ (b : BlockHash) (header : Header), db.headers[b]? = some header →
    db'.headers[b]? = some header
  heights : ∀ (b : BlockHash) (n : Nat), db.blockHashToHeight[b]? = some n →
    db'.blockHashToHeight[b]? = some n
  infos : ∀ (a : MainBlockHash) (info : MainHeaderInfo), db.mainHeaderInfos[a]? = some info →
    db'.mainHeaderInfos[a]? = some info
  blocks : ∀ (a : MainBlockHash) (block : MainBlockInfo), db.mainBlockInfos[a]? = some block →
    db'.mainBlockInfos[a]? = some block
  work : ∀ (a : MainBlockHash) (w : Nat), db.totalWork[a]? = some w → db'.totalWork[a]? = some w
  bodies : db'.bodies = db.bodies
  sideTips : db'.sideTips = db.sideTips

theorem Grows.trans {db1 db2 : ArchiveDb B} (h : Grows db db1) (h' : Grows db1 db2) :
    Grows db db2 where
  headers b header hrow := h'.headers b header (h.headers b header hrow)
  heights b n hrow := h'.heights b n (h.heights b n hrow)
  infos a info hrow := h'.infos a info (h.infos a info hrow)
  blocks a block hrow := h'.blocks a block (h.blocks a block hrow)
  work a w hrow := h'.work a w (h.work a w hrow)
  bodies := h'.bodies.trans h.bodies
  sideTips := h'.sideTips.trans h.sideTips

theorem Grows.ancestors (h : Grows db db') (hdb : db.MainSound hashes)
    (hdb' : db'.MainSound hashes) {a : MainBlockHash} {n : Nat}
    (ha : db.mainIndex.height a = some n) :
    db'.mainIndex.ancestors a = db.mainIndex.ancestors a := by
  refine Index.ancestors_mono hdb.rooted hdb'.rooted (fun b q hq => ?_) ha
  obtain ⟨info, hinfo, rfl⟩ := exists_info_of_parent hq
  exact mainIndex_parent (h.infos b info hinfo)

theorem Grows.named_iff (h : Grows db db') {header : Header} {a : MainBlockHash}
    (ha : a ∈ db.mainHeaderInfos) : db'.NamedBy header a ↔ db.NamedBy header a := by
  obtain ⟨info, hinfo⟩ := mem_iff_lookup.mp ha
  rw [NamedBy, NamedBy, h.infos a info hinfo, hinfo]

theorem Grows.commits_iff (h : Grows db db') {b : BlockHash} {a : MainBlockHash}
    (ha : a ∈ db.mainBlockInfos) : db'.Commits a b ↔ db.Commits a b := by
  obtain ⟨block, hblock⟩ := mem_iff_lookup.mp ha
  rw [Commits, Commits, h.blocks a block hblock, hblock]

theorem BmmInvariant.verified_iff (hdb : db.BmmInvariant hashes) {b : BlockHash}
    {header : Header} {a : MainBlockHash} (hheader : db.headers[b]? = some header) :
    db.Verified b a ↔ db.Expected b header a := by
  constructor
  · intro hv
    obtain rfl := (hdb.side.header hheader).1
    exact hdb.bmm.sound hv
  · exact hdb.bmm.complete hheader

theorem Grows.verified_iff (h : Grows db db') (hdb : db.BmmInvariant hashes)
    (hdb' : db'.BmmInvariant hashes) {b : BlockHash} {n : Nat} {a : MainBlockHash}
    (hb : db.sideIndex.height b = some n) (ha : a ∈ db.mainBlockInfos) :
    db'.Verified b a ↔ db.Verified b a := by
  have hinfo {a : MainBlockHash} (ha : a ∈ db.mainBlockInfos) :
      ∃ info, db.mainHeaderInfos[a]? = some info := by
    obtain ⟨block, hblock⟩ := mem_iff_lookup.mp ha
    obtain ⟨-, info, hinfo, -⟩ := hdb.main.block hblock
    exact ⟨info, hinfo⟩
  revert a
  refine Index.rooted_induction hdb.side.rooted (P := fun b => ∀ {a : MainBlockHash},
    a ∈ db.mainBlockInfos → (db'.Verified b a ↔ db.Verified b a)) ?_ ?_ hb
  · intro b hfirst a ha
    obtain ⟨header, hheader, hprev⟩ := exists_header_of_parent hfirst
    rw [hdb.verified_iff hheader, hdb'.verified_iff (h.headers b header hheader), Expected,
      Expected, h.commits_iff ha, h.named_iff (mem_iff_lookup.mpr (hinfo ha)), hprev]
    simp only [ParentVerified, reduceCtorEq, false_imp_iff, implies_true]
  · intro b p hchild ih a ha
    obtain ⟨header, hheader, hprev⟩ := exists_header_of_parent hchild
    obtain ⟨info, hstored⟩ := hinfo ha
    obtain ⟨n, hn⟩ := hdb.main.height hstored
    have hparent : db'.ParentVerified (some p) a ↔ db.ParentVerified (some p) a := by
      rw [ParentVerified, ParentVerified, h.ancestors hdb.main hdb'.main hn]
      refine forall₂_congr fun q hq => exists_congr fun a' => ?_
      obtain rfl := Option.some.inj hq
      exact and_congr_right fun ha' => ih (hdb.main.block_of_mem ha ha')
    rw [hdb.verified_iff hheader, hdb'.verified_iff (h.headers b header hheader), Expected,
      Expected, h.commits_iff ha, h.named_iff (mem_iff_lookup.mpr ⟨info, hstored⟩), hprev,
      hparent]

theorem TipKnown.grows {tip : MainchainTip} (h : db.TipKnown tip) (hgrow : Grows db db') :
    db'.TipKnown tip := by
  refine ⟨h.first, fun info hinfo => ?_⟩
  obtain ⟨hstored, hblock, hwork⟩ := h.stored info hinfo
  obtain ⟨block, hblock⟩ := mem_iff_lookup.mp hblock
  exact ⟨hgrow.infos _ info hstored, mem_iff_lookup.mpr ⟨block, hgrow.blocks _ block hblock⟩,
    hgrow.work _ _ hwork⟩

theorem TipsInvariant.grows (h : db.TipsInvariant hashes) (hgrow : Grows db db')
    (hbase : db'.BmmInvariant hashes) : db'.TipsInvariant hashes := by
  have hchain : db'.activeChain db.sideTips = db.activeChain db.sideTips := by
    rw [activeChain, activeChain, MainchainTip.blockHash]
    cases htip : db.sideTips.mainchainTip.tipInfo with
    | none => exact hbase.main.ancestors_allZeros.trans h.base.main.ancestors_allZeros.symm
    | some info =>
        obtain ⟨n, hn⟩ := h.base.main.height (h.known.stored info htip).1
        exact hgrow.ancestors h.base.main hbase.main hn
  have hverified {b : BlockHash} {header : Header} {a : MainBlockHash}
      (hheader : db.headers[b]? = some header) (ha : a ∈ db.activeChain db.sideTips) :
      db'.Verified b a ↔ db.Verified b a := by
    obtain ⟨n, hn⟩ := h.base.side.height hheader
    exact hgrow.verified_iff h.base hbase hn (h.block_of_active ha)
  have hcan (b : BlockHash) : db'.CanJoin db.sideTips b ↔ db.CanJoin db.sideTips b := by
    constructor
    · rintro ⟨header', hheader', hbody, ⟨a, ha, hv⟩, hparent⟩
      rw [hgrow.bodies] at hbody
      rw [hchain] at ha
      obtain ⟨header, hheader⟩ := mem_iff_lookup.mp (h.base.side.body hbody)
      obtain rfl := Option.some.inj (hheader'.symm.trans (hgrow.headers b header hheader))
      exact ⟨header', hheader, hbody, ⟨a, ha, (hverified hheader ha).mp hv⟩, hparent⟩
    · rintro ⟨header, hheader, hbody, ⟨a, ha, hv⟩, hparent⟩
      refine ⟨header, hgrow.headers b header hheader, by rwa [hgrow.bodies], ⟨a, ?_, ?_⟩, hparent⟩
      · rwa [hchain]
      · exact (hverified hheader ha).mpr hv
  refine ⟨hbase, ?_, ?_⟩
  · rw [hgrow.sideTips]
    exact h.known.grows hgrow
  · rw [hgrow.sideTips]
    constructor
    · intro b hb
      exact (h.exact.joined b hb).imp_left (hcan b).mpr
    · intro b hb
      exact h.exact.complete b ((hcan b).mp hb)
    · intro b info hb
      have hrecord := h.exact.recorded b info hb
      obtain ⟨header, hheader⟩ := hrecord.stored h.base
      exact ⟨by rw [hchain]; exact hrecord.main, (hverified hheader hrecord.main).mpr
        hrecord.verified, hgrow.work _ _ hrecord.work, hgrow.heights _ _ hrecord.height⟩
    · exact h.exact.inverse

theorem BmmInvariant.grows_putHeader (hdb : db.BmmInvariant hashes) {header : Header}
    (h : db.putHeader hashes.headerHash header = .ok db') : Grows db db' := by
  obtain ⟨height, pred, row, mains, results, hheight, -, -, -, -, rfl⟩ := putHeader_eq_ok h
  have hlink := hdb.side.linkable hheight
  refine ⟨fun b stored hstored => hdb.side.headers_insert hstored, fun b n hn => ?_,
    fun a info hinfo => hinfo, fun a block hblock => hblock, fun a w hw => hw, rfl, rfl⟩
  exact lookup_insert.trans (Index.height_link hdb.side.rooted hlink hn)

theorem BmmInvariant.grows_putMainHeaderInfo (hdb : db.BmmInvariant hashes)
    {info : MainHeaderInfo} (hauth : AuthenticHeader hashes info)
    (h : db.putMainHeaderInfo info = .ok db') : Grows db db' := by
  obtain ⟨-, height, work, pred, row, -, hwork, -, -, rfl⟩ := putMainHeaderInfo_eq_ok h
  refine ⟨fun b stored hstored => hstored, fun b n hn => hn,
    fun a stored hstored => hdb.main.mainHeaderInfos_insert hauth hstored,
    fun a block hblock => hblock, fun a w hw => ?_, rfl, rfl⟩
  show (db.totalWork.insert info.blockHash work)[a]? = some w
  rw [lookup_insert]
  split
  · rename_i heq
    obtain ⟨stored, hstored⟩ := mem_iff_lookup.mp
      (hdb.main.workKnown (mem_iff_lookup.mpr ⟨w, hw⟩))
    obtain ⟨w', hw', hafter⟩ := hdb.main.work hstored
    rw [heq] at hstored
    rw [hdb.main.stored_again hauth hstored, hwork] at hafter
    rw [Except.ok.inj hafter, ← hw', hw]
  · exact hw

theorem BmmInvariant.grows_putMainBlockInfo (hdb : db.BmmInvariant hashes)
    {main : MainBlockHash} {block : MainBlockInfo} (hauth : block = hashes.mainBlock main)
    (h : db.putMainBlockInfo main block = .ok db') : Grows db db' := by
  obtain ⟨results, rfl⟩ := exists_results_of_putMainBlockInfo h
  refine ⟨fun b stored hstored => hstored, fun b n hn => hn, fun a info hinfo => hinfo,
    fun a stored hstored => ?_, fun a w hw => hw, rfl, rfl⟩
  show (db.mainBlockInfos.insert main block)[a]? = some stored
  rw [lookup_insert]
  split
  · rename_i heq
    rw [hauth, (hdb.main.block hstored).1, heq]
  · exact hstored

/-- What the update of the tips above `b` has visited, and what it still has to visit: blocks
above `b`, each of them once, whose parents were visited. -/
structure Visits (db : ArchiveDb B) (b : BlockHash) (visited queue : List BlockHash) : Prop where
  nodup : (visited ++ queue).Nodup
  parent : ∀ x ∈ visited ++ queue, ∃ header p, db.headers[x]? = some header ∧
    header.prevSideHash = some p ∧ (p = b ∨ p ∈ visited)
  above : ∀ x ∈ visited ++ queue, ∃ m n, db.sideIndex.height b = some m ∧
    db.sideIndex.height x = some n ∧ m < n

section

variable {b x : BlockHash} {visited queue l : List BlockHash}

theorem Visits.child_new (h : Visits db b visited (x :: queue)) {c : BlockHash} {header : Header}
    (hheader : db.headers[c]? = some header) (hprev : header.prevSideHash = some x) :
    c ∉ visited ++ x :: queue := by
  intro hc
  obtain ⟨stored, p, hstored, hp, hvisited⟩ := h.parent c hc
  obtain rfl := Option.some.inj (hheader.symm.trans hstored)
  obtain rfl := Option.some.inj (hprev.symm.trans hp)
  rcases hvisited with rfl | hvisited
  · obtain ⟨m, n, hm, hn, hlt⟩ := h.above x (by simp)
    obtain rfl := Option.some.inj (hm.symm.trans hn)
    exact lt_irrefl m hlt
  · exact List.disjoint_of_nodup_append h.nodup hvisited List.mem_cons_self

theorem Visits.skip (h : Visits db b visited (x :: queue)) :
    Visits db b (visited ++ [x]) queue := by
  have hsame : visited ++ [x] ++ queue = visited ++ x :: queue := by simp
  refine ⟨hsame ▸ h.nodup, fun y hy => ?_, fun y hy => h.above y (hsame ▸ hy)⟩
  obtain ⟨header, p, hheader, hp, hvisited⟩ := h.parent y (hsame ▸ hy)
  exact ⟨header, p, hheader, hp, hvisited.imp_right (List.mem_append_left _)⟩

theorem Visits.visit (hdb : db.SideSound hashes) (h : Visits db b visited (x :: queue))
    (hl : db.successors[some x]? = some l) : Visits db b (visited ++ [x]) (queue ++ l) := by
  have hsame : visited ++ [x] ++ (queue ++ l) = visited ++ [x] ++ queue ++ l := by simp
  have hold : visited ++ [x] ++ queue = visited ++ x :: queue := by simp
  obtain ⟨hnodup, hchild⟩ := hdb.successors hl
  refine ⟨?_, fun y hy => ?_, fun y hy => ?_⟩
  · rw [hsame, hold, List.nodup_append]
    refine ⟨h.nodup, hnodup, fun y hy c hc heq => ?_⟩
    obtain ⟨header, hheader, hprev⟩ := (hchild c).mp hc
    exact h.child_new hheader hprev (heq ▸ hy)
  · rw [hsame] at hy
    rcases List.mem_append.mp hy with hy | hy
    · exact h.skip.parent y hy
    · obtain ⟨header, hheader, hprev⟩ := (hchild y).mp hy
      exact ⟨header, x, hheader, hprev, .inr (by simp)⟩
  · rw [hsame] at hy
    rcases List.mem_append.mp hy with hy | hy
    · exact h.skip.above y hy
    · obtain ⟨header, hheader, hprev⟩ := (hchild y).mp hy
      have hparent := sideIndex_parent hheader
      rw [hprev] at hparent
      obtain ⟨n, hx, hy⟩ := hdb.rooted.child hparent
      obtain ⟨m, n', hm, hn', hlt⟩ := h.above x (by simp)
      obtain rfl := Option.some.inj (hx.symm.trans hn')
      exact ⟨m, n + 1, hm, hy, Nat.lt_succ_of_lt hlt⟩

theorem Visits.length_le (h : Visits db b visited queue) :
    visited.length + queue.length ≤ db.headers.size := by
  have hsub : visited ++ queue ⊆ db.headers.keys := by
    intro y hy
    obtain ⟨header, -, hheader, -⟩ := h.parent y hy
    exact Std.ExtTreeMap.mem_keys.mpr (mem_iff_lookup.mpr ⟨header, hheader⟩)
  have hle := (h.nodup.subperm hsub).length_le
  rwa [List.length_append, Std.ExtTreeMap.length_keys] at hle

theorem queue_of_updateSideTips {mainTip : MainBlockHash} {tips tips' : SideTips}
    {header : Header} (h : db.updateSideTips mainTip tips x header = .ok (tips', l)) :
    l = [] ∨ db.successors[some x]? = some l := by
  obtain ⟨⟨tips₁, connected⟩, -, h⟩ := bind_eq_ok_iff.mp h
  cases connected with
  | false =>
      obtain ⟨-, rfl⟩ := Prod.mk.inj (Except.ok.inj h)
      exact .inl rfl
  | true =>
      obtain ⟨successors, hsuccessors, h⟩ := bind_eq_ok_iff.mp h
      obtain ⟨-, rfl⟩ := Prod.mk.inj (Except.ok.inj h)
      exact .inr (okOr_eq_ok_iff.mp hsuccessors)

/-- Further rounds change nothing once there are as many as blocks that are not visited. -/
theorem updateQueue_extra (hdb : db.SideSound hashes) {mainTip : MainBlockHash} {tips : SideTips}
    {rounds : Nat} (h : Visits db b visited queue)
    (hrounds : db.headers.size ≤ rounds + visited.length) (extra : Nat) :
    db.updateQueue mainTip (rounds + extra) tips queue =
      db.updateQueue mainTip rounds tips queue := by
  induction rounds generalizing visited queue tips with
  | zero =>
      cases queue with
      | nil => rw [updateQueue, updateQueue]
      | cons x queue =>
          have hle := h.length_le
          rw [List.length_cons] at hle
          omega
  | succ rounds ih =>
      cases queue with
      | nil => rw [updateQueue, updateQueue]
      | cons x queue =>
          have hnext : db.headers.size ≤ rounds + (visited ++ [x]).length := by
            rw [List.length_append, List.length_singleton]
            omega
          rw [Nat.add_right_comm, updateQueue, updateQueue]
          split
          · cases db.getHeader x with
            | error e => rfl
            | ok header =>
                simp only [ok_bind]
                cases hupdate : db.updateSideTips mainTip tips x header with
                | error e => rfl
                | ok result =>
                    rcases queue_of_updateSideTips hupdate with hnone | hsuccessors
                    · rw [ok_bind, ok_bind, hnone, List.append_nil]
                      exact ih h.skip hnext
                    · exact ih (h.visit hdb hsuccessors) hnext
          · exact ih h.skip hnext

theorem updateQueue_rounds (hdb : db.SideSound hashes)
    {mainTip : MainBlockHash} {tips tips' : SideTips} {header : Header}
    (hupdate : db.updateSideTips mainTip tips b header = .ok (tips', queue)) {rounds : Nat}
    (hrounds : db.headers.size ≤ rounds) :
    db.updateQueue mainTip rounds tips' queue =
      db.updateQueue mainTip db.headers.size tips' queue := by
  have hstart : Visits db b [] queue := by
    rcases queue_of_updateSideTips hupdate with rfl | hsuccessors
    · exact ⟨List.nodup_nil, by simp, by simp⟩
    · obtain ⟨hnodup, hchild⟩ := hdb.successors hsuccessors
      refine ⟨hnodup, fun x hx => ?_, fun x hx => ?_⟩
      · obtain ⟨header, hheader, hprev⟩ := (hchild x).mp hx
        exact ⟨header, b, hheader, hprev, .inl rfl⟩
      · obtain ⟨header, hheader, hprev⟩ := (hchild x).mp hx
        have hparent := sideIndex_parent hheader
        rw [hprev] at hparent
        obtain ⟨n, hn, hx⟩ := hdb.rooted.child hparent
        exact ⟨n, n + 1, hn, hx, Nat.lt_succ_self n⟩
  obtain ⟨extra, rfl⟩ := Nat.exists_eq_add_of_le hrounds
  exact updateQueue_extra hdb hstart le_rfl extra

end

theorem TipsInvariant.putBody (h : db.TipsInvariant hashes) {b : BlockHash} {body : B}
    (hput : db.putBody b body = .ok db') : db'.TipsInvariant hashes := by
  have hbase := h.base.putBody hput
  unfold ArchiveDb.putBody at hput
  obtain ⟨header, hheader, hput⟩ := bind_eq_ok_iff.mp hput
  have hheader := okOr_eq_ok_iff.mp hheader
  obtain ⟨⟨tips, queue⟩, hupdate, hput⟩ := bind_eq_ok_iff.mp hput
  obtain ⟨tips', hqueue, hput⟩ := bind_eq_ok_iff.mp hput
  obtain rfl := Except.ok.inj hput
  -- the archive with the body, before any tip is connected
  have hwith : ({ db with bodies := db.bodies.insert b body } : ArchiveDb B).BmmInvariant hashes :=
    hbase.withSideTips db.sideTips
  have hmem (x : BlockHash) : x ∈ db.bodies.insert b body ↔ x = b ∨ x ∈ db.bodies := by
    rw [mem_iff_lookup, mem_iff_lookup]
    simp only [lookup_insert]
    by_cases hx : x = b
    · simp [hx]
    · simp [hx]
  have hstart : ({ db with bodies := db.bodies.insert b body } : ArchiveDb B).TipsExact
      db.sideTips (fun x => x = b) (fun _ => False) := by
    constructor
    · intro x hx
      obtain ⟨header, hheader, hbody, hverified, hparent⟩ :=
        (h.exact.joined x hx).resolve_right id
      exact .inl ⟨header, hheader, (hmem x).mpr (.inr hbody), hverified, hparent⟩
    · rintro x ⟨header, hheader, hbody, hverified, hparent⟩
      rcases (hmem x).mp hbody with rfl | hbody
      · exact .inr rfl
      · exact .inl ((h.exact.complete x
          ⟨header, hheader, hbody, hverified, hparent⟩).resolve_right id)
    · intro x info hx
      exact (h.exact.recorded x info hx).withBodies _
    · exact h.exact.inverse
  obtain ⟨hexact, htip⟩ := hstart.updateSideTips hwith hheader ((hmem b).mpr (.inl rfl)) hupdate
  rw [← htip] at hqueue
  have hnext : ({ db with bodies := db.bodies.insert b body } : ArchiveDb B).TipsExact tips
      (fun x => x ∈ queue) (fun _ => False) :=
    hexact.imp fun x _ hx => hx.resolve_left fun hx => hx.1 hx.2
  obtain ⟨hexact', htip'⟩ := hnext.updateQueue hwith hqueue
  have hknown : db.TipKnown tips'.mainchainTip := by
    rw [htip', htip]
    exact h.known
  exact ⟨hbase, ⟨hknown.first, hknown.stored⟩, hexact'.withTips tips'⟩

theorem TipsInvariant.deleteBody (h : db.TipsInvariant hashes) {b : BlockHash}
    (hdelete : db.deleteBody b = .ok db') : db'.TipsInvariant hashes := by
  have hbase := h.base.deleteBody hdelete
  obtain ⟨tips, hqueue, rfl⟩ := deleteBody_eq_ok hdelete
  have hmem (x : BlockHash) : x ∈ db.bodies.erase b ↔ x ≠ b ∧ x ∈ db.bodies := by
    rw [mem_iff_lookup, mem_iff_lookup]
    simp only [lookup_erase]
    by_cases hx : x = b
    · simp [hx]
    · simp [hx]
  have hstart : ({ db with bodies := db.bodies.erase b } : ArchiveDb B).TipsExact
      db.sideTips (fun _ => False) (fun x => x ∈ [b]) := by
    constructor
    · intro x hx
      obtain ⟨header, hheader, hbody, hverified, hparent⟩ :=
        (h.exact.joined x hx).resolve_right id
      by_cases heq : x = b
      · exact .inr (List.mem_singleton.mpr heq)
      · exact .inl ⟨header, hheader, (hmem x).mpr ⟨heq, hbody⟩, hverified, hparent⟩
    · rintro x ⟨header, hheader, hbody, hverified, hparent⟩
      exact h.exact.complete x ⟨header, hheader, ((hmem x).mp hbody).2, hverified, hparent⟩
    · intro x info hx
      exact (h.exact.recorded x info hx).withBodies _
    · exact h.exact.inverse
  have hgone : ∀ x ∈ [b], x ∉ db.bodies.erase b := by
    intro x hx hbody
    exact ((hmem x).mp hbody).1 (List.mem_singleton.mp hx)
  obtain ⟨hexact, htip⟩ :=
    hstart.disconnectQueue h.base.side (fun x hx => .inl (hgone x hx)) hqueue
  have hknown : db.TipKnown tips.mainchainTip := by
    rw [htip]
    exact h.known
  exact ⟨hbase, ⟨hknown.first, hknown.stored⟩, hexact.withTips tips⟩

theorem TipsInvariant.not_tip_of_pruned (h : db.TipsInvariant hashes) {root : BlockHash}
    {D : BlockHash → Prop} (hpruned : Pruned db db' root D [])
    (hroot : root ∉ db.sideTips.sidechainTips) {x : BlockHash} (hx : D x) :
    x ∉ db.sideTips.sidechainTips := by
  intro hmem
  obtain ⟨header, hheader, -⟩ := (h.exact.joined x hmem).resolve_right id
  obtain ⟨n, hn⟩ := h.base.side.height hheader
  clear header hheader
  revert hx hmem
  refine Index.rooted_induction h.base.side.rooted (P := fun x => D x →
    x ∈ db.sideTips.sidechainTips → False) ?_ ?_ hn
  · intro x hfirst hx hmem
    rcases hpruned.source x (.inl hx) with rfl | ⟨header, p, hheader, hprev, -⟩
    · exact hroot hmem
    · rw [sideIndex_parent hheader, hprev] at hfirst
      cases hfirst
  · intro x p hchild ih hx hmem
    rcases hpruned.source x (.inl hx) with rfl | ⟨header, q, hheader, hprev, hq⟩
    · exact hroot hmem
    · rw [sideIndex_parent hheader, hprev] at hchild
      obtain rfl := Option.some.inj (Option.some.inj hchild)
      obtain ⟨header', hheader', -, -, hparent⟩ := (h.exact.joined x hmem).resolve_right id
      obtain rfl := Option.some.inj (hheader.symm.trans hheader')
      exact ih hq (hparent q hprev)

theorem TipsInvariant.invalidateBlock (h : db.TipsInvariant hashes) {b : BlockHash}
    (hb : b ∉ db.sideTips.sidechainTips) : (db.invalidateBlock b).TipsInvariant hashes := by
  have hbase := h.base.invalidateBlock b
  obtain ⟨D, -, hpruned⟩ := pruned_invalidateBlock h.base.side b
  have hnot {x : BlockHash} (hmem : x ∈ db.sideTips.sidechainTips) : ¬ D x :=
    fun hx => h.not_tip_of_pruned hpruned hb hx hmem
  have hchain : (db.invalidateBlock b).activeChain db.sideTips = db.activeChain db.sideTips := by
    rw [activeChain, activeChain, hpruned.main.mainIndex]
  have hver (x : BlockHash) (a : MainBlockHash) :
      (db.invalidateBlock b).Verified x a ↔ db.Verified x a := by
    rw [Verified, Verified, getBmmResults, getBmmResults, hpruned.bmm]
  have hcan (x : BlockHash) : (db.invalidateBlock b).CanJoin db.sideTips x ↔
      db.CanJoin db.sideTips x ∧ ¬ D x := by
    unfold CanJoin
    simp only [hchain, hver, mem_iff_lookup]
    constructor
    · rintro ⟨header, hheader, hbody, hverified, hparent⟩
      obtain ⟨hD, hold⟩ := hpruned.not_gone hheader
      rw [(hpruned.kept x hD).2.2.2] at hbody
      exact ⟨⟨header, hold, hbody, hverified, hparent⟩, hD⟩
    · rintro ⟨⟨header, hheader, hbody, hverified, hparent⟩, hD⟩
      obtain ⟨hheaders, -, -, hbodies⟩ := hpruned.kept x hD
      exact ⟨header, hheaders.trans hheader, by rwa [hbodies], hverified, hparent⟩
  refine ⟨hbase, ?_, ?_⟩
  · rw [hpruned.tips]
    refine ⟨h.known.first, ?_⟩
    rw [hpruned.main.headerInfos, hpruned.main.blockInfos, hpruned.main.work]
    exact h.known.stored
  · rw [hpruned.tips]
    constructor
    · intro x hx
      exact (h.exact.joined x hx).imp_left fun hjoin => (hcan x).mpr ⟨hjoin, hnot hx⟩
    · intro x hx
      exact h.exact.complete x ((hcan x).mp hx).1
    · intro x info hx
      have hrecord := h.exact.recorded x info hx
      have hD := hnot (mem_iff_lookup.mpr ⟨info, hx⟩)
      exact ⟨by rw [hchain]; exact hrecord.main, (hver x _).mpr hrecord.verified,
        by rw [hpruned.main.work]; exact hrecord.work,
        (hpruned.kept x hD).2.1.trans hrecord.height⟩
    · exact h.exact.inverse

end ArchiveDb

end Truthcoin.Archiving
