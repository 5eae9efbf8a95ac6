import Truthcoin.SideTipsRuns

/-!
# Undoing a mainchain block

In every run the mainchain tip is stored with its work, whatever happens to the sidechain
tips. A block is connected and disconnected again without a trace exactly when it commits to
nothing or to a block that is a tip already.
-/

namespace Truthcoin.Archiving

open Truthcoin.Types Truthcoin.Table Truthcoin.Fallible Truthcoin.Blocks
open Truthcoin.Mainchain Truthcoin.Lineage

variable {B : Type}

namespace ArchiveDb

variable {hashes : Hashes} {db db' : ArchiveDb B}

section

variable {tips tips' : SideTips} {b : BlockHash} {header : Header} {mainTip : MainBlockHash}

theorem mainchainTip_connectSidechainTip {main : MainBlockHash} {work : Nat}
    {data : SidechainHeaderData} (h : tips.connectSidechainTip main work b data = .ok tips') :
    tips'.mainchainTip = tips.mainchainTip := by
  obtain ⟨height, -, rfl⟩ := connectSidechainTip_eq_ok h
  split <;> rfl

theorem mainchainTip_connectAtResult {acc acc' : SideTips × Bool}
    {row : MainBlockHash × BmmResult}
    (h : db.connectAtResult mainTip b header acc row = .ok acc') :
    acc'.1.mainchainTip = acc.1.mainchainTip := by
  unfold connectAtResult at h
  split at h
  · rw [← Except.ok.inj h]
  · split at h
    · obtain ⟨descendant, -, h⟩ := bind_eq_ok_iff.mp h
      split at h
      · simp only [bind_eq_ok_iff, mapError_eq_ok_iff] at h
        obtain ⟨work, -, tips, htips, h⟩ := h
        rw [← Except.ok.inj h]
        exact mainchainTip_connectSidechainTip htips
      · rw [← Except.ok.inj h]
    · rw [← Except.ok.inj h]

theorem mainchainTip_updateSideTips {queue : List BlockHash}
    (h : db.updateSideTips mainTip tips b header = .ok (tips', queue)) :
    tips'.mainchainTip = tips.mainchainTip := by
  obtain ⟨⟨connected, flag⟩, hfold, h⟩ := bind_eq_ok_iff.mp h
  have htip : connected.mainchainTip = tips.mainchainTip :=
    foldlM_preserves (P := fun acc : SideTips × Bool => acc.1.mainchainTip = tips.mainchainTip)
      (fun row _ acc acc' hacc hstep => (mainchainTip_connectAtResult hstep).trans hacc) hfold rfl
  cases flag with
  | false =>
      obtain ⟨rfl, -⟩ := Prod.mk.inj (Except.ok.inj h)
      exact htip
  | true =>
      obtain ⟨successors, -, h⟩ := bind_eq_ok_iff.mp h
      obtain ⟨rfl, -⟩ := Prod.mk.inj (Except.ok.inj h)
      exact htip

theorem mainchainTip_updateQueue {rounds : Nat} {queue : List BlockHash}
    (h : db.updateQueue mainTip rounds tips queue = .ok tips') :
    tips'.mainchainTip = tips.mainchainTip := by
  induction rounds generalizing tips queue with
  | zero =>
      cases queue with
      | nil => rw [← Except.ok.inj h]
      | cons b queue => cases h
  | succ rounds ih =>
      cases queue with
      | nil => rw [← Except.ok.inj h]
      | cons b queue =>
          rw [updateQueue] at h
          split at h
          · obtain ⟨header, -, h⟩ := bind_eq_ok_iff.mp h
            obtain ⟨⟨tips1, successors⟩, hupdate, h⟩ := bind_eq_ok_iff.mp h
            exact (ih h).trans (mainchainTip_updateSideTips hupdate)
          · exact ih h

theorem mainchainTip_disconnectQueue {queue : List BlockHash}
    (h : db.disconnectQueue tips queue = .ok tips') :
    tips'.mainchainTip = tips.mainchainTip := by
  induction tips, queue using disconnectQueue.induct db with
  | case1 tips =>
      rw [disconnectQueue] at h
      rw [← Except.ok.inj h]
  | case2 tips b queue hmem hnone =>
      rw [disconnectQueue, dif_pos hmem, hnone] at h
      cases h
  | case3 tips b queue hmem successors hsome ih =>
      rw [disconnectQueue, dif_pos hmem, hsome] at h
      exact (ih h).trans mainchainTip_disconnectSidechainTip
  | case4 tips b queue hnot ih =>
      rw [disconnectQueue, dif_neg hnot] at h
      exact ih h

end

/-- What holds of an archive and its mainchain tip after every run. -/
structure MainTipInvariant (hashes : Hashes) (db : ArchiveDb B) : Prop where
  base : db.BmmInvariant hashes
  known : db.TipKnown db.sideTips.mainchainTip

theorem MainTipInvariant.putBody (h : MainTipInvariant hashes db) {b : BlockHash} {body : B}
    (hput : db.putBody b body = .ok db') : MainTipInvariant hashes db' := by
  have hbase := h.base.putBody hput
  unfold ArchiveDb.putBody at hput
  obtain ⟨header, -, hput⟩ := bind_eq_ok_iff.mp hput
  obtain ⟨⟨tips, queue⟩, hupdate, hput⟩ := bind_eq_ok_iff.mp hput
  obtain ⟨tips', hqueue, hput⟩ := bind_eq_ok_iff.mp hput
  obtain rfl := Except.ok.inj hput
  have hknown : db.TipKnown tips'.mainchainTip := by
    rw [mainchainTip_updateQueue hqueue, mainchainTip_updateSideTips hupdate]
    exact h.known
  exact ⟨hbase, hknown.first, hknown.stored⟩

theorem MainTipInvariant.deleteBody (h : MainTipInvariant hashes db) {b : BlockHash}
    (hdelete : db.deleteBody b = .ok db') : MainTipInvariant hashes db' := by
  have hbase := h.base.deleteBody hdelete
  obtain ⟨tips, hqueue, rfl⟩ := deleteBody_eq_ok hdelete
  have hknown : db.TipKnown tips.mainchainTip := by
    rw [mainchainTip_disconnectQueue hqueue]
    exact h.known
  exact ⟨hbase, hknown.first, hknown.stored⟩

theorem MainTipInvariant.invalidateBlock (h : MainTipInvariant hashes db) (b : BlockHash) :
    MainTipInvariant hashes (db.invalidateBlock b) := by
  obtain ⟨D, -, hpruned⟩ := pruned_invalidateBlock h.base.side b
  refine ⟨h.base.invalidateBlock b, ?_⟩
  rw [hpruned.tips]
  refine ⟨h.known.first, ?_⟩
  rw [hpruned.main.headerInfos, hpruned.main.blockInfos, hpruned.main.work]
  exact h.known.stored

theorem MainTipInvariant.grows (h : MainTipInvariant hashes db) (hgrow : Grows db db')
    (hbase : db'.BmmInvariant hashes) : MainTipInvariant hashes db' := by
  refine ⟨hbase, ?_⟩
  rw [hgrow.sideTips]
  exact h.known.grows hgrow

theorem MainTipInvariant.connectTip (h : MainTipInvariant hashes db) {info : MainHeaderInfo}
    (hinfo : db.mainHeaderInfos[info.blockHash]? = some info)
    (hblock : info.blockHash ∈ db.mainBlockInfos) {commitment : Option BmmCommitment}
    (hconnect : db.connectTip info commitment = .ok db') : MainTipInvariant hashes db' := by
  obtain ⟨tips, htips, rfl⟩ := connectTip_eq_ok hconnect
  obtain ⟨hprev, connected, -, rfl⟩ := connectMainchainTip_eq_ok htips
  have hwork := h.base.main.work_connect h.known hinfo hprev
  refine ⟨h.base.withSideTips _, fun hnone => (by cases hnone), fun tipInfo htip => ?_⟩
  obtain rfl := Option.some.inj htip
  exact ⟨hinfo, hblock, hwork⟩

theorem MainTipInvariant.disconnectTip (h : MainTipInvariant hashes db) {info : MainHeaderInfo}
    {prevTipInfo : Option MainHeaderInfo}
    (hparent : db.mainParentHeaderInfo info = .ok prevTipInfo) {commitment : Option BlockHash}
    (hdisconnect : db.disconnectTip prevTipInfo commitment = .ok db') :
    MainTipInvariant hashes db' := by
  obtain ⟨-, hstored⟩ := h.base.main.mainParentHeaderInfo_eq_ok hparent
  obtain ⟨tips, htips, rfl⟩ := disconnectTip_eq_ok hdisconnect
  obtain ⟨tipInfo, newTip, htipInfo, hnew, disconnected, -, rfl⟩ :=
    disconnectMainchainTip_eq_ok htips
  obtain ⟨rfl, hprev⟩ := h.base.main.newTipInfo_eq_ok hstored hnew
  have hknown := h.known.disconnect h.base.main htipInfo hprev hstored
  exact ⟨h.base.withSideTips _, hknown.first, hknown.stored⟩

theorem MainTipInvariant.syncConnectOne {state state' : ArchiveDb B × Option MainHeaderInfo}
    {info : MainHeaderInfo} (h : MainTipInvariant hashes state.1)
    (hinfo : state.1.mainHeaderInfos[info.blockHash]? = some info)
    (hconnect : ArchiveDb.syncConnectOne state info = .ok state') :
    MainTipInvariant hashes state'.1 := by
  unfold ArchiveDb.syncConnectOne at hconnect
  simp only [bind_eq_ok_iff, getMainBlockInfo, okOr_eq_ok_iff] at hconnect
  obtain ⟨block, hblock, commitment, -, db1, hdb1, hstate⟩ := hconnect
  obtain rfl := Except.ok.inj hstate
  exact h.connectTip hinfo (mem_iff_lookup.mpr ⟨block, hblock⟩) hdb1

theorem MainTipInvariant.syncSideTipsToTip (h : MainTipInvariant hashes db)
    {newTip : MainBlockHash} {rounds : Nat}
    (hsync : db.syncSideTipsToTip newTip rounds = .ok db') : MainTipInvariant hashes db' := by
  obtain ⟨commonAncestor, -, hsync⟩ := bind_eq_ok_iff.mp hsync
  obtain ⟨state, hdisconnect, hsync⟩ := bind_eq_ok_iff.mp hsync
  have hstate := syncDisconnect_preserves (P := fun db _ => MainTipInvariant hashes db)
    (fun _ _ _ _ _ hdb _ hparent hstep => hdb.disconnectTip hparent hstep) hdisconnect h
  exact syncConnect_preserves (P := fun db => MainTipInvariant hashes db)
    (fun _ hdb => hdb.base.main)
    (fun _ _ _ hdb hinfo hstep => hdb.syncConnectOne hinfo hstep) hsync hstate

theorem MainTipInvariant.handleConnectBlock (h : MainTipInvariant hashes db)
    {info : MainHeaderInfo} {block : MainBlockInfo} (hauth : AuthenticHeader hashes info)
    (hblock : block = hashes.mainBlock info.blockHash)
    (hconnect : db.handleConnectBlock info block = .ok db') : MainTipInvariant hashes db' := by
  obtain ⟨stored, commitment, hc⟩ := h.base.connects hauth hblock hconnect
  have hstored := h.grows hc.grows hc.base
  exact hstored.connectTip hc.headerInfo (mem_iff_lookup.mpr ⟨block, hc.blockInfo⟩) hc.connect

theorem MainTipInvariant.handleDisconnectBlock (h : MainTipInvariant hashes db)
    {blockHash : MainBlockHash} (hdisconnect : db.handleDisconnectBlock blockHash = .ok db') :
    MainTipInvariant hashes db' := by
  obtain ⟨info, -, hdisconnect⟩ := bind_eq_ok_iff.mp hdisconnect
  obtain ⟨block, -, hdisconnect⟩ := bind_eq_ok_iff.mp hdisconnect
  obtain ⟨parent, hparent, hdisconnect⟩ := bind_eq_ok_iff.mp hdisconnect
  exact h.disconnectTip hparent hdisconnect

end ArchiveDb

namespace NodeOp

variable {hashes : Hashes} {db db' : ArchiveDb B}

open ArchiveDb

theorem mainTipInvariant_apply (h : MainTipInvariant hashes db) {op : NodeOp B}
    (hauth : op.Authentic hashes) (happly : op.apply hashes db = .ok db') :
    MainTipInvariant hashes db' := by
  cases op with
  | putHeader header =>
      exact h.grows (h.base.grows_putHeader happly)
        (h.base.apply (show (BmmOp.putHeader header).Authentic hashes from trivial) happly)
  | putBody b body => exact h.putBody happly
  | deleteBody b => exact h.deleteBody happly
  | invalidateBlock b =>
      obtain rfl := Except.ok.inj happly
      exact h.invalidateBlock b
  | putMainHeaderInfo info =>
      exact h.grows (h.base.grows_putMainHeaderInfo hauth happly)
        (h.base.apply (show (BmmOp.putMainHeaderInfo info).Authentic hashes from hauth) happly)
  | putMainBlockInfo main block =>
      exact h.grows (h.base.grows_putMainBlockInfo hauth happly)
        (h.base.apply (show (BmmOp.putMainBlockInfo main block).Authentic hashes from hauth) happly)
  | connectBlock info block => exact h.handleConnectBlock hauth.1 hauth.2 happly
  | disconnectBlock b => exact h.handleDisconnectBlock happly
  | syncSideTipsToTip newTip rounds => exact h.syncSideTipsToTip happly

theorem mainTipInvariant_foldl (h : MainTipInvariant hashes db) {ops : List (NodeOp B)}
    (hauth : ∀ op ∈ ops, op.Authentic hashes) :
    MainTipInvariant hashes (ops.foldl (step hashes) db) := by
  induction ops generalizing db with
  | nil => exact h
  | cons op ops ih =>
      rw [List.foldl_cons]
      refine ih ?_ fun op' hop' => hauth op' (List.mem_cons_of_mem _ hop')
      rw [step]
      cases happly : op.apply hashes db with
      | error e => exact h
      | ok db' => exact mainTipInvariant_apply h (hauth op List.mem_cons_self) happly

theorem mainTipInvariant_run {ops : List (NodeOp B)} (hauth : ∀ op ∈ ops, op.Authentic hashes) :
    MainTipInvariant hashes (run hashes ops) := by
  have hnew : (new : ArchiveDb B).TipsInvariant hashes := tipsInvariant_new
  exact mainTipInvariant_foldl ⟨hnew.base, hnew.known⟩ hauth

end NodeOp

namespace ArchiveDb

variable {hashes : Hashes} {db stored db' : ArchiveDb B} {tips connected : SideTips}
  {info : MainHeaderInfo} {block : MainBlockInfo} {commitment : Option BmmCommitment}

theorem bmmCommitment_of_activeCommitment {main : MainBlockHash} {counted : BmmCommitment}
    (h : db.activeCommitment main block = .ok (some counted)) :
    block.bmmCommitment = some counted.sidechainBlockHash := by
  unfold activeCommitment at h
  cases hc : block.bmmCommitment with
  | none =>
      rw [hc] at h
      cases h
  | some c =>
      rw [hc] at h
      simp only at h
      split at h
      · cases h
      · obtain ⟨header, -, h⟩ := bind_eq_ok_iff.mp h
        split at h
        · cases h
        · obtain ⟨result, -, h⟩ := bind_eq_ok_iff.mp h
          cases result with
          | failed => cases h
          | verified => rw [← Option.some.inj (Except.ok.inj h)]

theorem connected_eq (hcounts : db.activeCommitment info.blockHash block = .ok commitment)
    {work : Nat} (hconnect : (match commitment with
      | some commitment => tips.connectSidechainTip info.blockHash work
          commitment.sidechainBlockHash commitment.sidechainHeaderData
      | none => .ok tips) = .ok connected)
    (htips : ∀ c, block.bmmCommitment = some c → c ∈ tips.sidechainTips) : connected = tips := by
  cases commitment with
  | none => exact (Except.ok.inj hconnect).symm
  | some counted =>
      obtain ⟨height, -, hresult⟩ := connectSidechainTip_eq_ok hconnect
      rw [hresult, if_pos (htips _ (bmmCommitment_of_activeCommitment hcounts))]

theorem mainParentHeaderInfo_of_tip (hdb : db.MainSound hashes)
    (hknown : db.TipKnown db.sideTips.mainchainTip)
    (hprev : info.prevBlockHash = db.sideTips.mainchainTip.blockHash) :
    db.mainParentHeaderInfo info = .ok db.sideTips.mainchainTip.tipInfo := by
  rw [MainchainTip.blockHash] at hprev
  unfold mainParentHeaderInfo
  cases htip : db.sideTips.mainchainTip.tipInfo with
  | none =>
      rw [htip] at hprev
      rw [if_pos hprev]
  | some p =>
      rw [htip] at hprev
      have hp := (hknown.stored p htip).1
      rw [if_neg (hprev ▸ (hdb.header hp).2.2), hprev, getMainHeaderInfo, hp]
      rfl

theorem newTipInfo_of_tip (hdb : db.MainSound hashes)
    (hknown : db.TipKnown db.sideTips.mainchainTip)
    (hcheck : db.sideTips.checkMainchainParent info = .ok ()) :
    SideTips.newTipInfo info db.sideTips.mainchainTip.tipInfo =
      .ok db.sideTips.mainchainTip.tipInfo := by
  obtain ⟨_, hprev, hheight⟩ := bind_eq_ok_iff.mp hcheck
  have hprev := ensure_eq_ok_iff.mp hprev
  rw [MainchainTip.blockHash] at hprev
  cases htip : db.sideTips.mainchainTip.tipInfo with
  | none =>
      rw [htip] at hprev
      rw [SideTips.newTipInfo, ensure_pos hprev]
      rfl
  | some p =>
      rw [htip] at hprev hheight
      have hne : info.prevBlockHash ≠ allZeros :=
        hprev ▸ (hdb.header (hknown.stored p htip).1).2.2
      rw [SideTips.newTipInfo, ensure_pos hprev.symm, ok_bind,
        ensure_pos (ensure_eq_ok_iff.mp hheight).symm, ok_bind, if_pos hne]

theorem handleDisconnectBlock_connected (hstored : MainTipInvariant hashes stored)
    (hinfo : stored.mainHeaderInfos[info.blockHash]? = some info)
    (hblock : stored.mainBlockInfos[info.blockHash]? = some block)
    (hconnect : stored.connectTip info commitment = .ok db') :
    db'.handleDisconnectBlock info.blockHash =
      db'.disconnectTip stored.sideTips.mainchainTip.tipInfo block.bmmCommitment := by
  obtain ⟨tips, htips, rfl⟩ := connectTip_eq_ok hconnect
  obtain ⟨hprev, -⟩ := connectMainchainTip_eq_ok htips
  have hparent := mainParentHeaderInfo_of_tip hstored.base.main hstored.known hprev
  change mainParentHeaderInfo { stored with sideTips := tips } info = _ at hparent
  rw [handleDisconnectBlock, getMainHeaderInfo, hinfo, okOr, ok_bind, getMainBlockInfo, hblock,
    okOr, ok_bind, hparent, ok_bind]

theorem disconnectCommitment_elsewhere {main : MainBlockHash} {c : BlockHash}
    {record : SidechainTipInfo} (hrecord : tips.sidechainTips[c]? = some record)
    (hmain : record.mainBlockHash ≠ main) : tips.disconnectCommitment main c = .ok tips := by
  rw [SideTips.disconnectCommitment, hrecord, okOr, ok_bind, if_neg hmain]

theorem disconnectMainchainTip_of_commitment {prevTipInfo newTip : Option MainHeaderInfo}
    {bmmCommitment : Option BlockHash} {disconnected : SideTips}
    (hinfo : tips.mainchainTip.tipInfo = some info)
    (hnew : SideTips.newTipInfo info prevTipInfo = .ok newTip)
    (hside : (match bmmCommitment with
      | some c => tips.disconnectCommitment info.blockHash c
      | none => .ok tips) = .ok disconnected) :
    tips.disconnectMainchainTip prevTipInfo bmmCommitment = .ok { disconnected with
      mainchainTip := ⟨tips.mainchainTip.cumulativeWork - info.work, newTip⟩ } := by
  rw [SideTips.disconnectMainchainTip, hinfo, okOr, ok_bind, hnew, ok_bind]
  cases bmmCommitment with
  | none =>
      obtain rfl := Except.ok.inj hside
      rfl
  | some c =>
      simp only at hside
      simp only [hside, ok_bind]

/-- The tips come back exactly when the commitment is a tip before, recorded elsewhere. -/
theorem disconnectMainchainTip_eq_iff {bmmCommitment : Option BlockHash}
    (hnew : SideTips.newTipInfo info tips.mainchainTip.tipInfo = .ok tips.mainchainTip.tipInfo)
    (hsame : (∀ c, bmmCommitment = some c → c ∈ tips.sidechainTips) → connected = tips) :
    (withMain connected ⟨tips.mainchainTip.cumulativeWork + info.work,
        some info⟩).disconnectMainchainTip tips.mainchainTip.tipInfo bmmCommitment = .ok tips ↔
      ∀ c, bmmCommitment = some c → ∃ record : SidechainTipInfo,
        tips.sidechainTips[c]? = some record ∧ record.mainBlockHash ≠ info.blockHash := by
  constructor
  · rintro h c rfl
    obtain ⟨tipInfo, newTip, htipInfo, -, disconnected, hdisconnected, htips⟩ :=
      disconnectMainchainTip_eq_ok h
    obtain rfl := Option.some.inj htipInfo
    obtain ⟨record, hrecord, hdisconnected⟩ := bind_eq_ok_iff.mp hdisconnected
    have hrecord := okOr_eq_ok_iff.mp hrecord
    change connected.sidechainTips[c]? = some record at hrecord
    split at hdisconnected
    · obtain ⟨_, hordered, hdisconnected⟩ := bind_eq_ok_iff.mp hdisconnected
      obtain rfl := Except.ok.inj hdisconnected
      have hordered := ensure_eq_ok_iff.mp hordered
      change record ∈ connected.orderedSidechainTips at hordered
      have hside := congrArg SideTips.sidechainTips htips
      change tips.sidechainTips = connected.sidechainTips at hside
      have herased := congrArg SideTips.orderedSidechainTips htips
      change tips.orderedSidechainTips = connected.orderedSidechainTips.erase record at herased
      -- the commitment was a tip before, so the row that goes was there before
      have hconnected : connected = tips := by
        refine hsame fun c' hc' => ?_
        rw [← Option.some.inj hc', hside]
        exact mem_iff_lookup.mpr ⟨record, hrecord⟩
      rw [hconnected] at herased hordered
      rw [herased] at hordered
      obtain ⟨b, hb⟩ := mem_iff_lookup.mp hordered
      rw [lookup_erase, if_pos rfl] at hb
      cases hb
    · rename_i hmain
      obtain rfl := Except.ok.inj hdisconnected
      have hside := congrArg SideTips.sidechainTips htips
      change tips.sidechainTips = connected.sidechainTips at hside
      exact ⟨record, hside ▸ hrecord, hmain⟩
  · intro hrecorded
    obtain rfl : connected = tips := by
      refine hsame fun c hc => ?_
      obtain ⟨record, hrecord, -⟩ := hrecorded c hc
      exact mem_iff_lookup.mpr ⟨record, hrecord⟩
    have hback : connected.mainchainTip.cumulativeWork + info.work - info.work =
        connected.mainchainTip.cumulativeWork := Nat.add_sub_cancel _ _
    have hside : (match bmmCommitment with
        | some c => (withMain connected ⟨connected.mainchainTip.cumulativeWork + info.work,
            some info⟩).disconnectCommitment info.blockHash c
        | none => .ok (withMain connected ⟨connected.mainchainTip.cumulativeWork + info.work,
            some info⟩)) =
        .ok (withMain connected ⟨connected.mainchainTip.cumulativeWork + info.work,
          some info⟩) := by
      cases bmmCommitment with
      | none => rfl
      | some c =>
          obtain ⟨record, hrecord, hmain⟩ := hrecorded c rfl
          exact disconnectCommitment_elsewhere hrecord hmain
    rw [disconnectMainchainTip_of_commitment rfl hnew hside]
    show Except.ok (withMain connected ⟨connected.mainchainTip.cumulativeWork + info.work -
      info.work, connected.mainchainTip.tipInfo⟩) = .ok connected
    rw [hback]
    rfl

theorem disconnectTip_of_tips {prevTipInfo : Option MainHeaderInfo}
    {bmmCommitment : Option BlockHash}
    (h : db.sideTips.disconnectMainchainTip prevTipInfo bmmCommitment = .ok tips) :
    db.disconnectTip prevTipInfo bmmCommitment = .ok { db with sideTips := tips } := by
  rw [disconnectTip, h]
  rfl

theorem undone_iff (hstored : MainTipInvariant hashes stored)
    (hinfo : stored.mainHeaderInfos[info.blockHash]? = some info)
    (hblock : stored.mainBlockInfos[info.blockHash]? = some block)
    (hcounts : stored.activeCommitment info.blockHash block = .ok commitment)
    (hconnect : stored.connectTip info commitment = .ok db') :
    (∃ undone, db'.handleDisconnectBlock info.blockHash = .ok undone ∧
        undone.sideTips = stored.sideTips) ↔
      ∀ c, block.bmmCommitment = some c → ∃ record : SidechainTipInfo,
        stored.sideTips.sidechainTips[c]? = some record ∧
          record.mainBlockHash ≠ info.blockHash := by
  rw [handleDisconnectBlock_connected hstored hinfo hblock hconnect]
  obtain ⟨tips, htips, rfl⟩ := connectTip_eq_ok hconnect
  obtain ⟨_, hcheck, -⟩ := bind_eq_ok_iff.mp htips
  have hnew := newTipInfo_of_tip hstored.base.main hstored.known hcheck
  obtain ⟨-, connected, hside, rfl⟩ := connectMainchainTip_eq_ok htips
  rw [← disconnectMainchainTip_eq_iff hnew (connected_eq hcounts hside)]
  constructor
  · rintro ⟨undone, hundone, hsame⟩
    obtain ⟨tips, htips, rfl⟩ := disconnectTip_eq_ok hundone
    change tips = stored.sideTips at hsame
    rw [hsame] at htips
    exact htips
  · intro h
    refine ⟨stored, ?_, rfl⟩
    exact disconnectTip_of_tips h

end ArchiveDb

/-- Disconnecting a block right after it was connected brings the tips back exactly when the
block commits to nothing, or to a block that was a tip already and is recorded at another
mainchain block. -/
theorem disconnectBlock_undoes_connectBlock_iff (hashes : Hashes) (ops : List (NodeOp B))
    (hauth : ∀ op ∈ ops, op.Authentic hashes) {info : MainHeaderInfo} {block : MainBlockInfo}
    (hblock : (NodeOp.connectBlock info block : NodeOp B).Authentic hashes) {db' : ArchiveDb B}
    (hconnect : (NodeOp.run hashes ops).handleConnectBlock info block = .ok db') :
    (∃ undone, db'.handleDisconnectBlock info.blockHash = .ok undone ∧
        undone.sideTips = (NodeOp.run hashes ops).sideTips) ↔
      ∀ c, block.bmmCommitment = some c → ∃ record : SidechainTipInfo,
        (NodeOp.run hashes ops).sideTips.sidechainTips[c]? = some record ∧
          record.mainBlockHash ≠ info.blockHash := by
  have h := NodeOp.mainTipInvariant_run hauth
  obtain ⟨stored, commitment, hc⟩ := h.base.connects hblock.1 hblock.2 hconnect
  have hstored := h.grows hc.grows hc.base
  rw [← hc.grows.sideTips]
  exact ArchiveDb.undone_iff hstored hc.headerInfo hc.blockInfo hc.counts hc.connect

/-- The second block is connected before the sidechain block that it commits to is known.
Disconnecting it fails, because the sidechain block is no tip. Connected after the sidechain
block, it leaves a tip behind. -/
theorem undo_fails :
    (∃ db', (NodeOp.run orphanHashes (orphanOps.take 1)).handleConnectBlock
        (orphanHashes.mainHeader 2) (orphanHashes.mainBlock 2) = .ok db' ∧
      ∀ undone, db'.handleDisconnectBlock 2 ≠ .ok undone) ∧
    ∃ db' undone, (NodeOp.run orphanHashes (orphanOps.take 3)).handleConnectBlock
        (orphanHashes.mainHeader 2) (orphanHashes.mainBlock 2) = .ok db' ∧
      db'.handleDisconnectBlock 2 = .ok undone ∧
        undone.sideTips ≠ (NodeOp.run orphanHashes (orphanOps.take 3)).sideTips := by
  constructor
  · obtain ⟨db', hdb'⟩ := exists_eq_ok (show ((NodeOp.run orphanHashes
      (orphanOps.take 1)).handleConnectBlock (orphanHashes.mainHeader 2)
        (orphanHashes.mainBlock 2)).toOption.isSome = true by decide +kernel)
    have hfails : ((NodeOp.run orphanHashes (orphanOps.take 1)).handleConnectBlock
        (orphanHashes.mainHeader 2) (orphanHashes.mainBlock 2) >>= fun db' =>
          db'.handleDisconnectBlock 2).toOption.isNone = true := by decide +kernel
    rw [hdb', ok_bind] at hfails
    refine ⟨db', hdb', fun undone hundone => ?_⟩
    rw [hundone] at hfails
    cases hfails
  · obtain ⟨db', hdb'⟩ := exists_eq_ok (show ((NodeOp.run orphanHashes
      (orphanOps.take 3)).handleConnectBlock (orphanHashes.mainHeader 2)
        (orphanHashes.mainBlock 2)).toOption.isSome = true by decide +kernel)
    have hleft : ((NodeOp.run orphanHashes (orphanOps.take 3)).handleConnectBlock
        (orphanHashes.mainHeader 2) (orphanHashes.mainBlock 2) >>= fun db' =>
          db'.handleDisconnectBlock 2).toOption.any
            (fun undone => undone.sideTips.sidechainTips.size == 1) = true := by decide +kernel
    rw [hdb', ok_bind] at hleft
    cases hundone : db'.handleDisconnectBlock 2 with
    | error e =>
        rw [hundone] at hleft
        cases hleft
    | ok undone =>
        rw [hundone] at hleft
        refine ⟨db', undone, hdb', hundone, fun hsame => ?_⟩
        have hsize : undone.sideTips.sidechainTips.size = 1 := beq_iff_eq.mp hleft
        rw [hsame] at hsize
        have hbefore : (NodeOp.run orphanHashes
            (orphanOps.take 3)).sideTips.sidechainTips.size = 0 := by decide +kernel
        omega

/-- The mainchain `1, 2, 3`, whose last two blocks commit to the same sidechain block. -/
def repeatedHashes : Hashes :=
  treeHashes [⟨0, 0, 1, none⟩, ⟨1, 1, 1, some (pairHash orphanHeader)⟩,
    ⟨2, 2, 1, some (pairHash orphanHeader)⟩]

open NodeOp in
/-- The sidechain block is known before the second block, which makes it a tip. -/
def tippedOps : List (NodeOp Unit) :=
  [connectBlock (repeatedHashes.mainHeader 1) (repeatedHashes.mainBlock 1),
    putHeader orphanHeader, putBody (pairHash orphanHeader) (),
    connectBlock (repeatedHashes.mainHeader 2) (repeatedHashes.mainBlock 2)]

theorem tippedOps_authentic : ∀ op ∈ tippedOps, op.Authentic repeatedHashes := by
  intro op hop
  simp only [tippedOps, List.mem_cons, List.not_mem_nil, or_false] at hop
  rcases hop with rfl | rfl | rfl | rfl
  · exact ⟨⟨rfl, by decide⟩, rfl⟩
  · trivial
  · trivial
  · exact ⟨⟨rfl, by decide⟩, rfl⟩

theorem tipped_at_second :
    ((NodeOp.run repeatedHashes tippedOps).sideTips.sidechainTips[pairHash orphanHeader]?).map
      SidechainTipInfo.mainBlockHash = some 2 := by decide +kernel

/-- The third block commits to the tip that the second block made, and is undone. -/
theorem undo_repeated :
    ∃ db', (NodeOp.run repeatedHashes tippedOps).handleConnectBlock
        (repeatedHashes.mainHeader 3) (repeatedHashes.mainBlock 3) = .ok db' ∧
      ∃ undone, db'.handleDisconnectBlock 3 = .ok undone ∧
        undone.sideTips = (NodeOp.run repeatedHashes tippedOps).sideTips := by
  obtain ⟨db', hdb'⟩ := exists_eq_ok (show ((NodeOp.run repeatedHashes
    tippedOps).handleConnectBlock (repeatedHashes.mainHeader 3)
      (repeatedHashes.mainBlock 3)).toOption.isSome = true by decide +kernel)
  refine ⟨db', hdb', ?_⟩
  refine (disconnectBlock_undoes_connectBlock_iff repeatedHashes tippedOps tippedOps_authentic
    ⟨⟨rfl, by decide⟩, rfl⟩ hdb').mpr fun c hc => ?_
  obtain rfl : pairHash orphanHeader = c := Option.some.inj hc
  obtain ⟨record, hrecord, hmain⟩ := Option.map_eq_some_iff.mp tipped_at_second
  refine ⟨record, hrecord, ?_⟩
  rw [hmain]
  decide

end Truthcoin.Archiving
