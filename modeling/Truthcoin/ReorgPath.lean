import Truthcoin.NetTask
import Truthcoin.ConnectTrace
import Truthcoin.SampleLibrary

/-!
# The path of a re-org

The blocks that a re-org disconnects and connects are those from the current tip down to the
last common ancestor and from there up to the new tip, unless the new tip is on the chain of
the current one. Then the walk down from the new tip starts below the block where it should
stop.
-/

namespace Truthcoin.Archiving

open Truthcoin.Types Truthcoin.Table Truthcoin.Fallible Truthcoin.Blocks
open Truthcoin.Mainchain Truthcoin.Lineage Truthcoin.ConnectTrace Truthcoin.Decisions

variable {F : Type} [F64 F] [DecidableEq F] {L : Library F} {config : DecisionConfig}
  {lib : WithdrawalBundle.BundleLib}
  {iter : Table MainBlockHash BmmResult → List (MainBlockHash × BmmResult)}

/-- The highest common ancestor of the tip and the new tip, or none if there is no tip or it
has another first block. -/
def ArchiveDb.LastCommonOf {B : Type} (db : ArchiveDb B) (tip : Option BlockHash)
    (newTip : BlockHash) : Option BlockHash → Prop
  | some c => ∃ t, tip = some t ∧ db.sideIndex.HighestCommon t newTip c
  | none => ∀ t, tip = some t →
      ∃ g0 g1, db.sideIndex.Genesis g0 t ∧ db.sideIndex.Genesis g1 newTip ∧ g0 ≠ g1

namespace ArchiveDb

variable {B : Type} {db : ArchiveDb B} {hashes : Hashes} {tip common : Option BlockHash}
  {newTip : BlockHash}

theorem SideSound.not_mem_ancestors (hdb : db.SideSound hashes) {h c : BlockHash} {n : Nat}
    (hh : db.sideIndex.height h = some n) (hc : c ∈ db.sideIndex.ancestors h) (hne : h ≠ c) :
    h ∉ db.sideIndex.ancestors c := by
  intro hmem
  obtain ⟨m, hle, hm⟩ := Index.height_of_mem hdb.rooted hh hc
  obtain ⟨l, hle', hl⟩ := Index.height_of_mem hdb.rooted hm hmem
  obtain rfl := Option.some.inj (hh.symm.trans hl)
  obtain rfl := Nat.le_antisymm hle hle'
  exact hne (Index.eq_of_mem_of_height hdb.rooted hm hh hmem)

/-- The walk collects the blocks of a segment. -/
theorem SideSound.segment_of_blocksUntil (hdb : db.SideSound hashes) {h : BlockHash}
    {n rounds : Nat} (stop : Option BlockHash)
    (hh : db.sideIndex.height h = some n) (hrounds : n < rounds)
    (hbodies : ∀ b ∈ db.sideIndex.ancestors h,
      (∀ c, stop = some c → b ∉ db.sideIndex.ancestors c) → b ∈ db.bodies)
    (hstop : ∀ c, stop = some c → c ∈ db.sideIndex.ancestors h) :
    ∃ blocks, db.blocksUntil stop rounds (some h) = .ok blocks ∧
      db.sideIndex.Segment (some h) stop (blocks.map fun block => hashes.headerHash block.1) := by
  induction rounds generalizing h n with
  | zero => omega
  | succ rounds ih =>
      obtain ⟨header, hheader⟩ := hdb.header_of_height hh
      have hparent := sideIndex_parent hheader
      rw [blocksUntil, getHeader, hheader, okOr_some, ok_bind]
      by_cases hend : some h = stop
      · rw [if_pos hend]
        exact ⟨[], rfl, hend ▸ .stop⟩
      · obtain ⟨body, hbody⟩ := mem_iff_lookup.mp
          (hbodies h (Index.mem_ancestors_self hdb.rooted hh) (by
            rintro c rfl
            exact hdb.not_mem_ancestors hh (hstop c rfl) fun heq => hend (congrArg some heq)))
        rw [if_neg hend, getBody, hbody, okOr_some, ok_bind]
        have hhash : hashes.headerHash header = h := (hdb.header hheader).1
        cases hprev : header.prevSideHash with
        | none =>
            rw [hprev] at hparent
            refine ⟨[(header, body)], by cases rounds <;> rfl, ?_⟩
            rw [List.map_singleton, hhash]
            refine .block hparent ?_
            cases stop with
            | none => exact .stop
            | some c =>
                have hc := hstop c rfl
                rw [Index.ancestors_first hparent, List.mem_singleton] at hc
                exact absurd (congrArg some hc.symm) hend
        | some p =>
            rw [hprev] at hparent
            obtain ⟨m, hp, hm⟩ := hdb.rooted.child hparent
            rw [hh, Option.some.injEq] at hm
            have hancestors := Index.ancestors_child hdb.rooted hparent
            obtain ⟨rest, hrest, hseg⟩ := ih hp (by omega)
              (fun b hb => hbodies b (hancestors ▸ List.mem_cons_of_mem _ hb)) (by
                rintro c rfl
                have hc := hstop c rfl
                rw [hancestors] at hc
                rcases List.mem_cons.mp hc with rfl | hc
                · exact absurd rfl hend
                · exact hc)
            refine ⟨(header, body) :: rest, by rw [hrest]; rfl, ?_⟩
            rw [List.map_cons, hhash]
            exact .block hparent hseg

theorem SideSound.not_onChain_of_common (hdb : db.SideSound hashes)
    (htip : ∀ t, tip = some t → t ∈ db.headers) (hnew : newTip ∈ db.headers)
    (hcommon : db.LastCommonOf tip newTip common) {b : BlockHash}
    (hb : b ∈ db.sideIndex.ancestors newTip)
    (hnot : ∀ c, common = some c → b ∉ db.sideIndex.ancestors c) :
    ∀ t, tip = some t → ¬ db.sideIndex.OnChain b t := by
  rintro t rfl hon
  obtain ⟨n, hn⟩ := hdb.height_of_stored (htip t rfl)
  obtain ⟨m, hm⟩ := hdb.height_of_stored hnew
  have hmem := (Index.onChain_iff hdb.rooted hn).mp hon
  cases common with
  | none =>
      obtain ⟨g0, g1, hg0, hg1, hne⟩ := hcommon t rfl
      exact hne (Index.genesis_of_common hdb.rooted hn hm hmem hb hg0 hg1)
  | some c =>
      obtain ⟨t', ht', -, hc, hhighest⟩ := hcommon
      obtain rfl := Option.some.inj ht'
      have hcmem := (Index.onChain_iff hdb.rooted hm).mp hc
      obtain ⟨k, -, hk⟩ := Index.height_of_mem hdb.rooted hm hb
      obtain ⟨l, -, hl⟩ := Index.height_of_mem hdb.rooted hm hcmem
      have hle := hhighest b k l hon ((Index.onChain_iff hdb.rooted hm).mpr hb) hk hl
      exact hnot c rfl (Index.mem_ancestors_total hdb.rooted hm hb hcmem hk hl hle)

theorem SideSound.exists_lastCommonOf (hdb : db.SideSound hashes) {t b : BlockHash}
    (ht : t ∈ db.headers) (hb : b ∈ db.headers) :
    ∃ common, db.lastCommonAncestor t b = .ok common ∧ db.LastCommonOf (some t) b common := by
  obtain ⟨common, hcommon, hsome, hnone⟩ := hdb.lastCommonAncestor_spec ht hb
  refine ⟨common, hcommon, ?_⟩
  cases common with
  | none =>
      intro t' ht'
      obtain rfl := Option.some.inj ht'
      exact hnone.mp rfl
  | some c => exact ⟨t, rfl, (hsome c).mp rfl⟩

theorem SideSound.common_eq_of_onChain (hdb : db.SideSound hashes) {t : BlockHash}
    (ht : t ∈ db.headers) (hnew : newTip ∈ db.headers)
    (hcommon : db.LastCommonOf (some t) newTip common)
    (hon : db.sideIndex.OnChain newTip t) : common = some newTip := by
  obtain ⟨n, hn⟩ := hdb.height_of_stored ht
  obtain ⟨m, hm⟩ := hdb.height_of_stored hnew
  have hmem := (Index.onChain_iff hdb.rooted hn).mp hon
  have hself := Index.mem_ancestors_self hdb.rooted hm
  have hlast : Index.LastCommon db.sideIndex t newTip newTip :=
    (Index.lastCommon_of_mem hself hmem).symm
  cases common with
  | none =>
      obtain ⟨g0, g1, hg0, hg1, hne⟩ := hcommon t rfl
      exact absurd (Index.genesis_of_common hdb.rooted hn hm hmem hself hg0 hg1) hne
  | some c =>
      obtain ⟨t', ht', hhighest⟩ := hcommon
      obtain rfl := Option.some.inj ht'
      rw [Index.highestCommon_unique hdb.rooted hn hhighest
        (Index.highestCommon_of_lastCommon hdb.rooted hn hm hlast)]

theorem SideSound.nodup_path (hdb : db.SideSound hashes)
    (htip : ∀ t, tip = some t → t ∈ db.headers) (hnew : newTip ∈ db.headers)
    (hcommon : db.LastCommonOf tip newTip common)
    {down up : List BlockHash} (hdown : db.sideIndex.Segment tip common down)
    (hup : db.sideIndex.Segment (some newTip) common up) : (down ++ up).Nodup := by
  obtain ⟨m, hm⟩ := hdb.height_of_stored hnew
  refine List.nodup_append.mpr ⟨hdown.nodup hdb.rooted, hup.nodup hdb.rooted, ?_⟩
  rintro a hadown b hbup rfl
  cases tip with
  | none =>
      rw [hdown.eq_nil.2] at hadown
      cases hadown
  | some t =>
      obtain ⟨n, hn⟩ := hdb.height_of_stored (htip t rfl)
      have hmem := hdown.mem_ancestors hdb.rooted hadown
      have hmem' := hup.mem_ancestors hdb.rooted hbup
      cases common with
      | none =>
          obtain ⟨g0, g1, hg0, hg1, hne⟩ := hcommon t rfl
          exact hne (Index.genesis_of_common hdb.rooted hn hm hmem hmem' hg0 hg1)
      | some c =>
          obtain ⟨t', ht', hc, -, hhighest⟩ := hcommon
          obtain rfl := Option.some.inj ht'
          obtain ⟨k, -, hk⟩ :=
            Index.height_of_mem hdb.rooted hn ((Index.onChain_iff hdb.rooted hn).mp hc)
          obtain ⟨l, hl, hlt⟩ := (hdown.heights hdb.rooted hn hk).2 a hadown
          have hle := hhighest a l k ((Index.onChain_iff hdb.rooted hn).mpr hmem)
            ((Index.onChain_iff hdb.rooted hm).mpr hmem') hl hk
          omega

theorem SideSound.disconnects_eq (hdb : db.SideSound hashes) {tipHeight : Option Nat}
    (htip : ∀ t, tip = some t → t ∈ db.headers)
    (hheight : tipHeight = tip.bind fun t => db.blockHashToHeight[t]?)
    (hcommon : db.LastCommonOf tip newTip common) :
    ∃ down, db.sideIndex.Segment tip common down ∧
      db.disconnects tipHeight common = .ok down.length := by
  cases tip with
  | none =>
      subst hheight
      cases common with
      | none => exact ⟨[], .stop, rfl⟩
      | some c =>
          obtain ⟨t, ht, -⟩ := hcommon
          cases ht
  | some t =>
      obtain ⟨n, hn⟩ := hdb.height_of_stored (htip t rfl)
      obtain rfl : tipHeight = some n := hheight.trans hn
      cases common with
      | none =>
          refine ⟨_, Index.segment_ancestors hdb.rooted hn, ?_⟩
          rw [disconnects, Index.length_ancestors hdb.rooted hn]
      | some c =>
          obtain ⟨t', ht', hc, -, -⟩ := hcommon
          obtain rfl := Option.some.inj ht'
          have hmem := (Index.onChain_iff hdb.rooted hn).mp hc
          obtain ⟨k, hle, hk⟩ := Index.height_of_mem hdb.rooted hn hmem
          obtain ⟨down, hdown⟩ := Index.exists_segment hdb.rooted hn hmem
          have hlength := (hdown.heights hdb.rooted hn hk).1
          change db.blockHashToHeight[c]? = some k at hk
          refine ⟨down, hdown, ?_⟩
          rw [disconnects, getHeight, hk, okOr_some, ok_bind, if_neg (by omega), Except.ok.injEq]
          omega

end ArchiveDb

namespace Node

section

variable (L : Library F) (config : DecisionConfig) (lib : WithdrawalBundle.BundleLib)
  (iter : Table MainBlockHash BmmResult → List (MainBlockHash × BmmResult)) (node : Node F)

/-- The archive has the tip of the state and what the way to the new tip needs, and the new
tip is better. -/
structure Reorgable (hashes : Hashes) (newTip : Tip) : Prop where
  reachable : ArchiveDb.Reachable hashes node.archive
  headerHash : hashes.headerHash = L.headerHash
  tip : ∀ t, node.state.tip = some t → t ∈ node.archive.headers
  height : node.state.height = node.state.tip.bind fun t => node.archive.blockHashToHeight[t]?
  header : newTip.blockHash ∈ node.archive.headers
  bodies : ∀ b, node.archive.sideIndex.OnChain b newTip.blockHash →
    (∀ t, node.state.tip = some t → ¬ node.archive.sideIndex.OnChain b t) →
      b ∈ node.archive.bodies
  better : ∀ t, node.state.tip = some t → ∃ main,
    node.archive.getBestMainVerification iter t = .ok main ∧
      node.archive.betterTip ⟨t, main⟩ newTip = .ok (some newTip)

/-- A re-org to the new tip takes the given ways down and up, both with the newest block
first, and each block once. -/
structure TakesPath (newTip : Tip) (plan : ReorgPlan F) (down up : List BlockHash) : Prop where
  planned : node.reorgPlan iter newTip = .ok (some plan)
  common : node.archive.LastCommonOf node.state.tip newTip.blockHash plan.commonAncestor
  goesDown : node.archive.sideIndex.Segment node.state.tip plan.commonAncestor down
  goesUp : node.archive.sideIndex.Segment (some newTip.blockHash) plan.commonAncestor up
  once : (down ++ up).Nodup
  disconnects : plan.disconnects = down.length
  blocks : plan.blocksToApply.map (fun block => L.headerHash block.1) = up
  run : ∀ last trace, node.tryReorg L config lib iter newTip = .ok (some (last, trace)) →
    trace.disconnected = down ∧ trace.connected = up.reverse

end

variable {node next last : Node F} {hashes : Hashes} {newTip : Tip}

omit [F64 F] [DecidableEq F] in
theorem tip_of_setPreviousTip {s s' : State F} {header : Header} {height : Nat}
    (h : Disconnect.setPreviousTip s header height = .ok s') : s'.tip = header.prevSideHash := by
  unfold Disconnect.setPreviousTip at h
  cases height with
  | zero =>
      cases hprev : header.prevSideHash with
      | none =>
          rw [hprev] at h
          rw [← Except.ok.inj h]
      | some p =>
          rw [hprev] at h
          cases h
  | succ height =>
      cases hprev : header.prevSideHash with
      | none =>
          rw [hprev] at h
          cases h
      | some p =>
          rw [hprev] at h
          rw [← Except.ok.inj h]

theorem tip_of_disconnectTip (h : node.disconnectTip L = .ok next) :
    ∃ t header, node.state.tip = some t ∧ node.archive.headers[t]? = some header ∧
      next.state.tip = header.prevSideHash ∧ next.archive = node.archive := by
  simp only [disconnectTip, bind_eq_ok_iff, mapError_eq_ok_iff, okOr_eq_ok_iff,
    ArchiveDb.getHeader] at h
  obtain ⟨t, ht, header, hheader, body, -, height, -, data, -, state, hstate, state', hstate',
    txs, -, pool, -, h⟩ := h
  obtain rfl := Except.ok.inj h
  obtain ⟨c, hc⟩ := disconnectTip_eq_ok_iff.mp hstate'
  exact ⟨t, header, ht, hheader, tip_of_setPreviousTip hc.previous, rfl⟩

theorem segment_of_disconnectTips {n : Nat} {blocks : List BlockHash}
    (h : disconnectTips L n node = .ok (last, blocks)) :
    node.archive.sideIndex.Segment node.state.tip last.state.tip blocks ∧ blocks.length = n := by
  induction n generalizing node blocks with
  | zero =>
      obtain ⟨rfl, rfl⟩ := Prod.mk.inj (Except.ok.inj h)
      exact ⟨.stop, rfl⟩
  | succ n ih =>
      obtain ⟨next, hnext, h⟩ := bind_eq_ok_iff.mp h
      obtain ⟨⟨last', rest⟩, hrest, h⟩ := bind_eq_ok_iff.mp h
      obtain ⟨rfl, rfl⟩ := Prod.mk.inj (Except.ok.inj h)
      obtain ⟨t, header, htip, hheader, hprev, harchive⟩ := tip_of_disconnectTip hnext
      obtain ⟨hseg, hlength⟩ := ih hrest
      rw [harchive, hprev] at hseg
      rw [htip]
      refine ⟨.block (ArchiveDb.sideIndex_parent hheader) hseg, ?_⟩
      rw [Option.toList_some, List.singleton_append, List.length_cons, hlength]

theorem connected_of_connectBlocks {tip : Option Tip} {batch : List BlockInfo}
    {blocks : List (Header × Body F)} {connected : List BlockHash}
    (h : connectBlocks L config lib iter tip batch blocks node = .ok (last, connected)) :
    connected = blocks.map fun block => L.headerHash block.1 := by
  induction blocks generalizing batch node connected with
  | nil =>
      obtain ⟨rfl, rfl⟩ := Prod.mk.inj (Except.ok.inj h)
      rfl
  | cons block blocks ih =>
      obtain ⟨header, body⟩ := block
      obtain ⟨next, -, h⟩ := bind_eq_ok_iff.mp h
      obtain ⟨_, -, h⟩ := bind_eq_ok_iff.mp h
      obtain ⟨⟨last', rest⟩, hrest, h⟩ := bind_eq_ok_iff.mp h
      obtain ⟨rfl, rfl⟩ := Prod.mk.inj (Except.ok.inj h)
      rw [List.map_cons, ih hrest]

omit [F64 F] [DecidableEq F] in
theorem Reorgable.blocks (h : node.Reorgable L iter hashes newTip) {common : Option BlockHash}
    (hlast : node.archive.LastCommonOf node.state.tip newTip.blockHash common)
    (hcommon : ∀ c, common = some c → c ≠ newTip.blockHash ∧
      node.archive.sideIndex.OnChain c newTip.blockHash) :
    ∃ blocks, node.blocksToApply common newTip.blockHash = .ok blocks ∧
      node.archive.sideIndex.Segment (some newTip.blockHash) common
        (blocks.map fun block => L.headerHash block.1) := by
  have hside := h.reachable.invariant.side
  obtain ⟨header, hheader⟩ := mem_iff_lookup.mp h.header
  obtain ⟨n, hn⟩ := hside.height_of_stored h.header
  have hon : ∀ b, node.archive.sideIndex.OnChain b newTip.blockHash ↔
      b ∈ node.archive.sideIndex.ancestors newTip.blockHash :=
    fun b => Index.onChain_iff hside.rooted hn
  have hself := Index.mem_ancestors_self hside.rooted hn
  have hbodies {b : BlockHash} (hb : b ∈ node.archive.sideIndex.ancestors newTip.blockHash)
      (hnot : ∀ c, common = some c → b ∉ node.archive.sideIndex.ancestors c) :
      b ∈ node.archive.bodies :=
    h.bodies b ((hon b).mpr hb) (hside.not_onChain_of_common h.tip h.header hlast hb hnot)
  obtain ⟨body, hbody⟩ := mem_iff_lookup.mp (hbodies hself fun c hc =>
    hside.not_mem_ancestors hn ((hon c).mp (hcommon c hc).2) (hcommon c hc).1.symm)
  have hparent := ArchiveDb.sideIndex_parent hheader
  have hhash : L.headerHash header = newTip.blockHash := by
    rw [← h.headerHash, (hside.header hheader).1]
  have hheight : node.archive.blockHashToHeight[newTip.blockHash]? = some n := hn
  rw [blocksToApply, ArchiveDb.getHeader, hheader, okOr_some, ok_bind, ArchiveDb.getBody, hbody,
    okOr_some, ok_bind, hheight, Option.getD_some]
  cases hprev : header.prevSideHash with
  | none =>
      rw [hprev] at hparent
      refine ⟨[(header, body)], by cases n <;> rfl, ?_⟩
      rw [List.map_singleton, hhash]
      refine .block hparent ?_
      cases common with
      | none => exact .stop
      | some c =>
          obtain ⟨hne, hc⟩ := hcommon c rfl
          rw [hon, Index.ancestors_first hparent, List.mem_singleton] at hc
          exact absurd hc hne
  | some p =>
      rw [hprev] at hparent
      obtain ⟨m, hp, hm⟩ := hside.rooted.child hparent
      rw [hn, Option.some.injEq] at hm
      have hancestors := Index.ancestors_child hside.rooted hparent
      obtain ⟨rest, hrest, hseg⟩ := hside.segment_of_blocksUntil common hp
        (show m < n by omega)
        (fun b hb => hbodies (hancestors ▸ List.mem_cons_of_mem _ hb)) (by
          rintro c rfl
          obtain ⟨hne, hc⟩ := hcommon c rfl
          rw [hon, hancestors] at hc
          exact (List.mem_cons.mp hc).resolve_left hne)
      refine ⟨(header, body) :: rest, by rw [hrest]; rfl, ?_⟩
      rw [List.map_cons, hhash, ← h.headerHash]
      exact .block hparent hseg

omit [F64 F] [DecidableEq F] in
theorem reorgPlan_eq_ok {plan : ReorgPlan F}
    (h : node.reorgPlan iter newTip = .ok (some plan)) :
    node.blocksToApply plan.commonAncestor newTip.blockHash = .ok plan.blocksToApply ∧
      node.archive.disconnects node.state.height plan.commonAncestor = .ok plan.disconnects := by
  obtain ⟨tip, -, h⟩ := bind_eq_ok_iff.mp h
  obtain ⟨better, -, h⟩ := bind_eq_ok_iff.mp h
  split at h
  · cases h
  · obtain ⟨common, -, h⟩ := bind_eq_ok_iff.mp h
    obtain ⟨blocks, hblocks, h⟩ := bind_eq_ok_iff.mp h
    obtain ⟨disconnects, hdisconnects, h⟩ := bind_eq_ok_iff.mp h
    obtain rfl := Option.some.inj (Except.ok.inj h)
    exact ⟨hblocks, hdisconnects⟩

omit [F64 F] [DecidableEq F] in
theorem blocksToApply_ne_nil {common : Option BlockHash} {b : BlockHash}
    {blocks : List (Header × Body F)} (h : node.blocksToApply common b = .ok blocks) :
    blocks ≠ [] := by
  obtain ⟨header, -, h⟩ := bind_eq_ok_iff.mp h
  obtain ⟨body, -, h⟩ := bind_eq_ok_iff.mp h
  obtain ⟨ancestors, -, h⟩ := bind_eq_ok_iff.mp h
  rw [← Except.ok.inj h]
  exact List.cons_ne_nil _ _

omit [F64 F] [DecidableEq F] in
theorem Reorgable.plan (h : node.Reorgable L iter hashes newTip) :
    ∃ tip common, node.archive.LastCommonOf node.state.tip newTip.blockHash common ∧
      ∀ blocks disconnects, node.blocksToApply common newTip.blockHash = .ok blocks →
        node.archive.disconnects node.state.height common = .ok disconnects →
          node.reorgPlan iter newTip = .ok (some ⟨tip, common, blocks, disconnects⟩) := by
  have hside := h.reachable.invariant.side
  cases htip : node.state.tip with
  | none =>
      refine ⟨none, none, fun t ht => (by cases ht), ?_⟩
      intro blocks disconnects hblocks hcount
      have hcurrent : node.currentTip iter = .ok none := by
        rw [currentTip, htip]
      rw [reorgPlan, hcurrent, ok_bind]
      simp only [ArchiveDb.betterThanCurrent, ArchiveDb.commonAncestorOfTips, ok_bind, ne_eq,
        not_true_eq_false, if_false, hblocks, hcount]
  | some t =>
      obtain ⟨main, hmain, hbetter⟩ := h.better t htip
      obtain ⟨common, hcommon, hlast⟩ :=
        hside.exists_lastCommonOf (h.tip t htip) h.header
      refine ⟨some ⟨t, main⟩, common, hlast, fun blocks disconnects hblocks hcount => ?_⟩
      have hcurrent : node.currentTip iter = .ok (some ⟨t, main⟩) := by
        rw [currentTip, htip]
        simp only [hmain, ok_bind]
      rw [reorgPlan, hcurrent, ok_bind]
      simp only [ArchiveDb.betterThanCurrent, ArchiveDb.commonAncestorOfTips, hbetter, ok_bind,
        ne_eq, not_true_eq_false, if_false, hcommon, hblocks, hcount]

theorem trace_of_tryReorg {trace : ReorgTrace} {plan : ReorgPlan F}
    (hplan : node.reorgPlan iter newTip = .ok (some plan))
    (h : node.tryReorg L config lib iter newTip = .ok (some (last, trace))) :
    (∃ stop, node.archive.sideIndex.Segment node.state.tip stop trace.disconnected) ∧
      trace.disconnected.length = plan.disconnects ∧
        trace.connected = (plan.blocksToApply.map fun block => L.headerHash block.1).reverse := by
  rw [tryReorg, hplan] at h
  obtain ⟨⟨base, disconnected⟩, hdisconnected, h⟩ := bind_eq_ok_iff.mp h
  rw [mapError_eq_ok_iff] at hdisconnected
  dsimp only at h
  split at h
  · cases h
  · obtain ⟨batch, -, h⟩ := bind_eq_ok_iff.mp h
    obtain ⟨⟨last', connected⟩, hconnected, h⟩ := bind_eq_ok_iff.mp h
    dsimp only at h
    split at h
    · cases h
    · obtain ⟨rfl, rfl⟩ := Prod.mk.inj (Option.some.inj (Except.ok.inj h))
      obtain ⟨hseg, hlength⟩ := segment_of_disconnectTips hdisconnected
      refine ⟨⟨_, hseg⟩, hlength, ?_⟩
      rw [connected_of_connectBlocks hconnected, List.map_reverse]

/-- The re-org to a better tip takes the path from the current tip over the last common
ancestor to the new tip, exactly if the new tip is not on the chain of the current one. -/
theorem reorgToTip_path_iff (h : node.Reorgable L iter hashes newTip) :
    (∃ plan down up, node.TakesPath L config lib iter newTip plan down up) ↔
      ∀ t, node.state.tip = some t →
        ¬ node.archive.sideIndex.OnChain newTip.blockHash t := by
  have hside := h.reachable.invariant.side
  constructor
  · rintro ⟨plan, down, up, hpath⟩ t ht hon
    have hcommon := hpath.common
    rw [ht] at hcommon
    have hsame := hside.common_eq_of_onChain (h.tip t ht) h.header hcommon hon
    obtain ⟨n, hn⟩ := hside.height_of_stored h.header
    have hup := hpath.goesUp
    rw [hsame] at hup
    obtain rfl := Index.Segment.eq_nil_of_self hside.rooted hn hup
    exact blocksToApply_ne_nil (reorgPlan_eq_ok hpath.planned).1
      (List.map_eq_nil_iff.mp hpath.blocks)
  · intro hnot
    obtain ⟨tip, common, hcommon, hplan⟩ := h.plan
    obtain ⟨blocks, hblocks, hup⟩ := h.blocks hcommon (by
      rintro c rfl
      obtain ⟨t, ht, hhighest⟩ := hcommon
      refine ⟨?_, hhighest.2.1⟩
      rintro rfl
      exact hnot t ht hhighest.1)
    obtain ⟨down, hdown, hcount⟩ := hside.disconnects_eq h.tip h.height hcommon
    have hplanned := hplan blocks down.length hblocks hcount
    refine ⟨_, down, _, hplanned, hcommon, hdown, hup,
      hside.nodup_path h.tip h.header hcommon hdown hup, rfl, rfl, fun last trace hrun => ?_⟩
    obtain ⟨⟨stop, hseg⟩, hlength, hconnected⟩ := trace_of_tryReorg hplanned hrun
    exact ⟨hseg.eq_of_length hdown hlength, hconnected⟩

end Node

open Truthcoin.Commitments

def pairLibrary : Library Rat :=
  { sampleLibrary (fun _ => 0) with headerHash := pairHash, merkleRoot := fun _ _ => 0 }

def emptyBody : Body Rat := ⟨⟨[], []⟩, [], [], []⟩

/-- Store a body, if that is possible. -/
def storeBody (db : ArchiveDb (Body Rat)) (header : Header) : ArchiveDb (Body Rat) :=
  match db.putBody (pairHash header) emptyBody with
  | .ok db' => db'
  | .error _ => db

/-- The headers of a tree of blocks, with the mainchain tip at the block of the given number. -/
def treeHeaders (rows : List MainRow) (headers : List Header) (main : MainBlockHash) :
    ArchiveDb (Body Rat) :=
  let db := (treeOps rows headers).foldl (BmmOp.step (treeHashes rows)) .new
  { db with sideTips := { db.sideTips with
      mainchainTip := ⟨rows.length, some ((treeHashes rows).mainHeader main)⟩ } }

/-- A node with the blocks of a tree, and one of them for its tip. -/
def treeNode (rows : List MainRow) (headers : List Header) (main : MainBlockHash) (tip : Header)
    (height : Nat) : Node Rat where
  archive := headers.foldl storeBody (treeHeaders rows headers main)
  mempool := .empty
  state := { State.empty Rat with tip := some (pairHash tip), height := some height }

theorem reachable_treeNode (rows : List MainRow) (headers : List Header) (main : MainBlockHash)
    (tip : Header) (height : Nat) : ArchiveDb.Reachable (treeHashes rows)
      (treeNode rows headers main tip height).archive := by
  have hstore : ∀ (l : List Header) (db : ArchiveDb (Body Rat)),
      ArchiveDb.Reachable (treeHashes rows) db →
        ArchiveDb.Reachable (treeHashes rows) (l.foldl storeBody db) := by
    intro l
    induction l with
    | nil => exact fun db hdb => hdb
    | cons header l ih =>
        intro db hdb
        apply ih
        rw [storeBody]
        cases hput : db.putBody (pairHash header) emptyBody with
        | error e => exact hdb
        | ok db' => exact hdb.putBody hput
  exact hstore headers _ (.moveTips (.foldl .new (authentic_treeOps rows headers)))

/-- Blocks 3 and 5 of the mainchain have the parent 2 and commit to the same child of the first
sidechain block. Block 4 on block 3 commits to a child of that. -/
def baseHeader : Header := headerOn none 1
def forkedHeader : Header := headerOn (some (pairHash baseHeader)) 2
def upperHeader : Header := headerOn (some (pairHash forkedHeader)) 3

def forkedRows : List MainRow :=
  [⟨0, 0, 1, none⟩, ⟨1, 1, 1, some (pairHash baseHeader)⟩,
    ⟨2, 2, 1, some (pairHash forkedHeader)⟩, ⟨3, 3, 1, some (pairHash upperHeader)⟩,
    ⟨2, 2, 5, some (pairHash forkedHeader)⟩]

/-- The node has synced to the fork with more work, and its tip is from the other one. -/
def forkedNode : Node Rat :=
  treeNode forkedRows [baseHeader, forkedHeader, upperHeader] 5 upperHeader 2

theorem plan_forkedNode :
    (forkedNode.reorgPlan Std.ExtTreeMap.toList ⟨pairHash forkedHeader, 5⟩).toOption.join.map
      (fun plan => (plan.commonAncestor,
        plan.blocksToApply.map fun block => pairHash block.1, plan.disconnects)) =
    some (some (pairHash forkedHeader), [pairHash forkedHeader, pairHash baseHeader], 1) := by
  decide +kernel

theorem bodies_of_ancestors {hashes : Hashes} {db : ArchiveDb (Body Rat)} {b : BlockHash}
    {n : Nat} {P : BlockHash → Prop} (hdb : ArchiveDb.Reachable hashes db)
    (hb : db.sideIndex.height b = some n)
    (hbodies : ∀ a ∈ db.sideIndex.ancestors b, a ∈ db.bodies) :
    ∀ a, db.sideIndex.OnChain a b → P a → a ∈ db.bodies :=
  fun a ha _ => hbodies a ((Index.onChain_iff hdb.invariant.side.rooted hb).mp ha)

/-- A better tip of the node is below its tip, and a re-org to it takes no path from the one to
the other: it would connect all blocks of the chain from the first one. -/
theorem reorgToTip_below :
    forkedNode.Reorgable pairLibrary Std.ExtTreeMap.toList (treeHashes forkedRows)
        ⟨pairHash forkedHeader, 5⟩ ∧
      forkedNode.archive.sideIndex.OnChain (pairHash forkedHeader) (pairHash upperHeader) ∧
      ¬ ∃ plan down up, forkedNode.TakesPath pairLibrary ⟨true, 2⟩ sampleBundleLib
        Std.ExtTreeMap.toList ⟨pairHash forkedHeader, 5⟩ plan down up := by
  have hreachable : ArchiveDb.Reachable (treeHashes forkedRows) forkedNode.archive :=
    reachable_treeNode _ _ _ _ _
  have hheight : forkedNode.archive.sideIndex.height (pairHash forkedHeader) = some 1 := by
    decide +kernel
  refine ⟨⟨hreachable, rfl, ?_, ?_, ?_, bodies_of_ancestors hreachable hheight ?_, ?_⟩,
    ⟨1, ?_⟩, ?_⟩
  · rintro t ⟨⟩
    decide +kernel
  · decide +kernel
  · decide +kernel
  · decide +kernel
  · rintro t ⟨⟩
    refine ⟨4, ?_, ?_⟩
    · decide +kernel
    · decide +kernel
  · decide +kernel
  · rintro ⟨plan, down, up, hpath⟩
    have hplan := plan_forkedNode
    rw [hpath.planned] at hplan
    have hcommon : plan.commonAncestor = some (pairHash forkedHeader) :=
      (Prod.mk.inj (Option.some.inj hplan)).1
    have hblocks := (Prod.mk.inj (Prod.mk.inj (Option.some.inj hplan)).2).1
    have hup := hpath.goesUp
    rw [hcommon] at hup
    obtain rfl := Index.Segment.eq_nil_of_self hreachable.invariant.side.rooted hheight hup
    have hnone : plan.blocksToApply.map (fun block => pairHash block.1) = [] := hpath.blocks
    rw [hblocks] at hnone
    cases hnone

/-- A node with the same blocks on the other fork, at the first block. -/
def baseNode : Node Rat :=
  treeNode forkedRows [baseHeader, forkedHeader, upperHeader] 4 baseHeader 0

theorem reorgable_baseNode : baseNode.Reorgable pairLibrary Std.ExtTreeMap.toList
    (treeHashes forkedRows) ⟨pairHash upperHeader, 4⟩ := by
  have hreachable : ArchiveDb.Reachable (treeHashes forkedRows) baseNode.archive :=
    reachable_treeNode _ _ _ _ _
  have hheight : baseNode.archive.sideIndex.height (pairHash upperHeader) = some 2 := by
    decide +kernel
  refine ⟨hreachable, rfl, ?_, ?_, ?_, bodies_of_ancestors hreachable hheight ?_, ?_⟩
  · rintro t ⟨⟩
    decide +kernel
  · decide +kernel
  · decide +kernel
  · decide +kernel
  · rintro t ⟨⟩
    refine ⟨2, ?_, ?_⟩
    · decide +kernel
    · decide +kernel

/-- From the first block the node takes the path up to the upper one. -/
theorem reorgToTip_path_upper :
    ∃ plan down up, baseNode.TakesPath pairLibrary ⟨true, 2⟩ sampleBundleLib
      Std.ExtTreeMap.toList ⟨pairHash upperHeader, 4⟩ plan down up := by
  have hheight : baseNode.archive.sideIndex.height (pairHash baseHeader) = some 0 := by
    decide +kernel
  apply (Node.reorgToTip_path_iff reorgable_baseNode).mpr
  rintro t ⟨⟩
  rw [Index.onChain_iff reorgable_baseNode.reachable.invariant.side.rooted hheight]
  decide +kernel

end Truthcoin.Archiving
