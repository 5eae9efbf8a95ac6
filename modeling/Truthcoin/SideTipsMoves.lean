import Truthcoin.SideTipsStored

/-!
# Exact tips while the mainchain moves

A mainchain block lets the sidechain block that it verifies join the tips. It leaves
without a trace when no tip is recorded at it.
-/

namespace Truthcoin.Archiving

open Truthcoin.Types Truthcoin.Table Truthcoin.Fallible Truthcoin.Blocks
open Truthcoin.Mainchain Truthcoin.Lineage

variable {B : Type}

namespace ArchiveDb

variable {hashes : Hashes} {db db' : ArchiveDb B}

section

variable {tips tips' : SideTips} {info : MainHeaderInfo} {block : MainBlockInfo}

/-- The tips with another mainchain tip. -/
def withMain (tips : SideTips) (tip : MainchainTip) : SideTips :=
  { tips with mainchainTip := tip }

theorem connectSidechainTip_withMain {tip : MainchainTip} {main : MainBlockHash} {work : Nat}
    {b : BlockHash} {data : SidechainHeaderData}
    (h : tips.connectSidechainTip main work b data = .ok tips') :
    (withMain tips tip).connectSidechainTip main work b data = .ok (withMain tips' tip) := by
  obtain ⟨height, hheight, rfl⟩ := connectSidechainTip_eq_ok h
  have hheight' : (withMain tips tip).heightAfter data.prevSideHash = .ok height := hheight
  rw [SideTips.connectSidechainTip, hheight', ok_bind]
  by_cases hmem : b ∈ tips.sidechainTips
  · have hmem' : b ∈ (withMain tips tip).sidechainTips := hmem
    rw [if_pos hmem', if_pos hmem]
  · have hmem' : b ∉ (withMain tips tip).sidechainTips := hmem
    rw [if_neg hmem', if_neg hmem]
    rfl

theorem BmmInvariant.eq_of_verified_on_chain (hdb : db.BmmInvariant hashes) {b : BlockHash}
    {header : Header} {a main : MainBlockHash} (hheader : db.headers[b]? = some header)
    (ha : db.Verified b a) (hmain : db.Verified b main)
    (hmem : a ∈ db.mainIndex.ancestors main) : a = main := by
  obtain ⟨ainfo, hainfo, haprev⟩ := hdb.named_of_verified hheader ha
  obtain ⟨info, hinfo, hprev⟩ := hdb.named_of_verified hheader hmain
  have hparent : db.mainIndex.parent a = db.mainIndex.parent main := by
    rw [mainIndex_parent hainfo, mainIndex_parent hinfo, mainParent, mainParent, haprev, hprev]
  obtain ⟨n, hn⟩ := hdb.main.height hinfo
  have hsame : db.mainIndex.height a = db.mainIndex.height main := by
    cases hq : mainParent info with
    | none =>
        have hfirst := mainIndex_parent hinfo
        rw [hq] at hfirst
        rw [hdb.main.rooted.first hfirst, hdb.main.rooted.first (hparent.trans hfirst)]
    | some p =>
        have hchild := mainIndex_parent hinfo
        rw [hq] at hchild
        obtain ⟨k, hk, hheight⟩ := hdb.main.rooted.child hchild
        obtain ⟨k', hk', hheight'⟩ := hdb.main.rooted.child (hparent.trans hchild)
        obtain rfl := Option.some.inj (hk.symm.trans hk')
        rw [hheight, hheight']
  exact Index.eq_of_mem_of_height hdb.main.rooted hn (hsame.trans hn) hmem

/-- Children of a block that is verified at the tip cannot be verified yet. -/
theorem BmmInvariant.not_verified_child (hdb : db.BmmInvariant hashes) {c x : BlockHash}
    {header cheader : Header} {a main : MainBlockHash} (hcheader : db.headers[c]? = some cheader)
    (hheader : db.headers[x]? = some header) (hprev : header.prevSideHash = some c)
    (hc : db.Verified c main) (ha : a ∈ db.mainIndex.ancestors main) : ¬ db.Verified x a := by
  intro hx
  obtain ⟨-, -, hparent⟩ := (hdb.verified_iff hheader).mp hx
  obtain ⟨a', ha', hca'⟩ := hparent c hprev
  obtain ⟨info, hinfo, -⟩ := hdb.named_of_verified hcheader hc
  obtain ⟨n, hn⟩ := hdb.main.height hinfo
  have hmem := Index.mem_ancestors_trans hdb.main.rooted hn ha ha'
  obtain rfl := hdb.eq_of_verified_on_chain hcheader hca' hc hmem
  -- so the child is verified at the same mainchain block
  obtain ⟨m, hle, hm⟩ := Index.height_of_mem hdb.main.rooted hn ha
  have hle' := ((Index.mem_ancestors_iff hdb.main.rooted hm hn).mp ha').1
  obtain rfl : m = n := by omega
  obtain rfl := Index.eq_of_mem_of_height hdb.main.rooted hn hm ha
  obtain rfl := hdb.eq_of_verified hheader hcheader hx hc
  exact (hdb.side.parent hheader hprev).2 rfl

theorem TipsInvariant.activeChain_connect (h : db.TipsInvariant hashes)
    (hinfo : db.mainHeaderInfos[info.blockHash]? = some info)
    (hprev : info.prevBlockHash = db.sideTips.mainchainTip.blockHash) (work : Nat) :
    db.activeChain (withMain db.sideTips ⟨work, some info⟩) =
      info.blockHash :: db.activeChain db.sideTips := by
  show db.mainIndex.ancestors info.blockHash = info.blockHash :: db.mainIndex.ancestors _
  rw [h.base.main.ancestors_cons hinfo, hprev]

theorem MainSound.work_connect (hdb : db.MainSound hashes)
    (hknown : db.TipKnown db.sideTips.mainchainTip)
    (hinfo : db.mainHeaderInfos[info.blockHash]? = some info)
    (hprev : info.prevBlockHash = db.sideTips.mainchainTip.blockHash) :
    db.totalWork[info.blockHash]? =
      some (db.sideTips.mainchainTip.cumulativeWork + info.work) := by
  obtain ⟨w, hw, hafter⟩ := hdb.work hinfo
  rw [hw, Option.some.injEq]
  rw [MainchainTip.blockHash] at hprev
  cases htip : db.sideTips.mainchainTip.tipInfo with
  | none =>
      rw [htip] at hprev
      rw [totalWorkAfter, if_neg (not_not_intro hprev)] at hafter
      rw [hknown.first htip, ← Except.ok.inj hafter, Nat.zero_add]
  | some tipInfo =>
      rw [htip] at hprev
      obtain ⟨hstored, -, hwork⟩ := hknown.stored tipInfo htip
      have hne : info.prevBlockHash ≠ allZeros := hprev ▸ (hdb.header hstored).2.2
      rw [totalWorkAfter, if_pos hne, hprev] at hafter
      obtain ⟨prevWork, hprevWork, hsum⟩ := bind_eq_ok_iff.mp hafter
      obtain rfl := Option.some.inj ((okOr_eq_ok_iff.mp hprevWork).symm.trans hwork)
      exact (Except.ok.inj hsum).symm

theorem TipsInvariant.exact_connect (h : db.TipsInvariant hashes)
    (hinfo : db.mainHeaderInfos[info.blockHash]? = some info)
    (hprev : info.prevBlockHash = db.sideTips.mainchainTip.blockHash) (work : Nat) :
    db.TipsExact (withMain db.sideTips ⟨work, some info⟩)
      (fun x => db.Verified x info.blockHash) (fun _ => False) := by
  have hchain := h.activeChain_connect hinfo hprev work
  have hactive {a : MainBlockHash} (ha : a ∈ db.activeChain db.sideTips) :
      a ∈ db.activeChain (withMain db.sideTips ⟨work, some info⟩) := by
    rw [hchain]
    exact List.mem_cons_of_mem _ ha
  constructor
  · intro x hx
    obtain ⟨header, hheader, hbody, ⟨a, ha, hv⟩, hparent⟩ :=
      (h.exact.joined x hx).resolve_right id
    exact .inl ⟨header, hheader, hbody, ⟨a, hactive ha, hv⟩, hparent⟩
  · rintro x ⟨header, hheader, hbody, ⟨a, ha, hv⟩, hparent⟩
    rw [hchain] at ha
    rcases List.mem_cons.mp ha with rfl | ha
    · exact .inr hv
    · left
      exact (h.exact.complete x ⟨header, hheader, hbody, ⟨a, ha, hv⟩, hparent⟩).resolve_right id
  · intro x info' hx
    have hrecord := h.exact.recorded x info' hx
    exact ⟨hactive hrecord.main, hrecord.verified, hrecord.work, hrecord.height⟩
  · exact h.exact.inverse

/-- The commitment that counts makes the tables exact again. -/
theorem TipsInvariant.exact_commitment (h : db.TipsInvariant hashes)
    (hinfo : db.mainHeaderInfos[info.blockHash]? = some info)
    (hblock : db.mainBlockInfos[info.blockHash]? = some block)
    (hprev : info.prevBlockHash = db.sideTips.mainchainTip.blockHash)
    {commitment : Option BmmCommitment}
    (hcommitment : db.activeCommitment info.blockHash block = .ok commitment) {work : Nat}
    (hwork : db.totalWork[info.blockHash]? = some work)
    (hconnect : (match commitment with
      | some commitment => db.sideTips.connectSidechainTip info.blockHash work
          commitment.sidechainBlockHash commitment.sidechainHeaderData
      | none => .ok db.sideTips) = .ok tips) :
    db.TipsExact (withMain tips ⟨work, some info⟩) (fun _ => False) (fun _ => False) := by
  have hstart := h.exact_connect hinfo hprev work
  have hcommits {x : BlockHash} (hx : db.CanJoin (withMain db.sideTips ⟨work, some info⟩) x)
      (hv : db.Verified x info.blockHash) : block.bmmCommitment = some x := by
    obtain ⟨header, hheader, -⟩ := hx
    obtain ⟨⟨block', hblock', hc⟩, -⟩ := (h.base.verified_iff hheader).mp hv
    obtain rfl := Option.some.inj (hblock.symm.trans hblock')
    exact hc
  unfold activeCommitment at hcommitment
  cases hc : block.bmmCommitment with
  | none =>
      rw [hc] at hcommitment
      obtain rfl := Except.ok.inj hcommitment
      obtain rfl := Except.ok.inj hconnect
      refine hstart.imp fun x hx hv => ?_
      have := (hcommits hx hv).symm.trans hc
      cases this
  | some c =>
      have hother {x : BlockHash} (hx : db.CanJoin (withMain db.sideTips ⟨work, some info⟩) x)
          (hv : db.Verified x info.blockHash) : x = c :=
        Option.some.inj ((hcommits hx hv).symm.trans hc)
      rw [hc] at hcommitment
      simp only at hcommitment
      split at hcommitment
      · rename_i hbody
        obtain rfl := Except.ok.inj hcommitment
        obtain rfl := Except.ok.inj hconnect
        refine hstart.imp fun x hx hv => ?_
        obtain rfl := hother hx hv
        obtain ⟨-, -, hstored, -⟩ := hx
        exact hbody hstored
      · rename_i hbody
        obtain ⟨header, hheader, hcommitment⟩ := bind_eq_ok_iff.mp hcommitment
        have hheader := okOr_eq_ok_iff.mp hheader
        cases hparent : parentIsTip db.sideTips header.prevSideHash with
        | false =>
            rw [hparent] at hcommitment
            obtain rfl := Except.ok.inj hcommitment
            obtain rfl := Except.ok.inj hconnect
            refine hstart.imp fun x hx hv => ?_
            obtain rfl := hother hx hv
            obtain ⟨header', hheader', -, -, hall⟩ := hx
            obtain rfl := Option.some.inj (hheader.symm.trans hheader')
            have htrue : parentIsTip db.sideTips header.prevSideHash = true :=
              parentIsTip_iff.mpr hall
            cases hparent.symm.trans htrue
        | true =>
            rw [hparent] at hcommitment
            obtain ⟨result, hresult, hcommitment⟩ := bind_eq_ok_iff.mp hcommitment
            have hresult := okOr_eq_ok_iff.mp hresult
            cases result with
            | failed =>
                obtain rfl := Except.ok.inj hcommitment
                obtain rfl := Except.ok.inj hconnect
                refine hstart.imp fun x hx hv => ?_
                obtain rfl := hother hx hv
                have := hresult.symm.trans hv
                cases this
            | verified =>
                obtain rfl := Except.ok.inj hcommitment
                have hactive : info.blockHash ∈
                    db.activeChain (withMain db.sideTips ⟨work, some info⟩) := by
                  rw [h.activeChain_connect hinfo hprev]
                  exact List.mem_cons_self
                have hpending : db.TipsExact (withMain db.sideTips ⟨work, some info⟩)
                    (fun x => x = c) (fun _ => False) := hstart.imp fun x hx hv => hother hx hv
                have hexact : db.TipsExact (withMain tips ⟨work, some info⟩)
                    (fun x => ∃ header : Header, db.headers[x]? = some header ∧
                      header.prevSideHash = some c) (fun _ => False) :=
                  (hpending.connectSidechainTip h.base hheader (not_not.mp hbody) hactive hresult
                    hwork (parentIsTip_iff.mp hparent) (connectSidechainTip_withMain hconnect)
                    (fun x hne hx => absurd hx hne)
                    (fun x header hrow hp => ⟨header, hrow, hp⟩)).1
                refine hexact.imp fun x hx hchild => ?_
                obtain ⟨-, -, -, ⟨a, ha, hv⟩, -⟩ := hx
                obtain ⟨xheader, hxheader, hxprev⟩ := hchild
                exact h.base.not_verified_child hheader hxheader hxprev hresult ha hv

theorem TipsInvariant.connectTip (h : db.TipsInvariant hashes)
    (hinfo : db.mainHeaderInfos[info.blockHash]? = some info)
    (hblock : db.mainBlockInfos[info.blockHash]? = some block)
    {commitment : Option BmmCommitment}
    (hcommitment : db.activeCommitment info.blockHash block = .ok commitment)
    (hconnect : db.connectTip info commitment = .ok db') :
    db'.TipsInvariant hashes ∧ db'.sideTips.mainchainTip.tipInfo = some info := by
  obtain ⟨tips, htips, rfl⟩ := connectTip_eq_ok hconnect
  obtain ⟨hprev, connected, hside, rfl⟩ := connectMainchainTip_eq_ok htips
  have hwork := h.base.main.work_connect h.known hinfo hprev
  have hexact := h.exact_commitment hinfo hblock hprev hcommitment hwork hside
  refine ⟨⟨h.base.withSideTips _, ⟨fun hnone => (by cases hnone), fun tipInfo htip => ?_⟩,
    hexact.withTips _⟩, rfl⟩
  obtain rfl := Option.some.inj htip
  exact ⟨hinfo, mem_iff_lookup.mpr ⟨block, hblock⟩, hwork⟩

end

section

variable {tips : SideTips} {info : MainHeaderInfo} {prevTipInfo newTip : Option MainHeaderInfo}

theorem MainSound.newTipInfo_eq_ok (hdb : db.MainSound hashes)
    (hstored : ∀ p : MainHeaderInfo, prevTipInfo = some p →
      db.mainHeaderInfos[p.blockHash]? = some p)
    (h : SideTips.newTipInfo info prevTipInfo = .ok newTip) :
    newTip = prevTipInfo ∧
      info.prevBlockHash = prevTipInfo.elim allZeros (·.blockHash) := by
  cases prevTipInfo with
  | none =>
      obtain ⟨_, hprev, h⟩ := bind_eq_ok_iff.mp h
      exact ⟨(Except.ok.inj h).symm, ensure_eq_ok_iff.mp hprev⟩
  | some p =>
      obtain ⟨_, hprev, h⟩ := bind_eq_ok_iff.mp h
      have hprev := ensure_eq_ok_iff.mp hprev
      obtain ⟨_, -, h⟩ := bind_eq_ok_iff.mp h
      have hne : info.prevBlockHash ≠ allZeros := hprev ▸ (hdb.header (hstored p rfl)).2.2
      rw [if_pos hne] at h
      exact ⟨(Except.ok.inj h).symm, hprev.symm⟩

theorem TipKnown.disconnect {tip : MainchainTip} (h : db.TipKnown tip)
    (hdb : db.MainSound hashes) (hinfo : tip.tipInfo = some info)
    (hprev : info.prevBlockHash = newTip.elim allZeros (·.blockHash))
    (hstored : ∀ p : MainHeaderInfo, newTip = some p →
      db.mainHeaderInfos[p.blockHash]? = some p) :
    db.TipKnown ⟨tip.cumulativeWork - info.work, newTip⟩ := by
  obtain ⟨hinfoStored, hblock, hwork⟩ := h.stored info hinfo
  obtain ⟨work, hwork', hafter⟩ := hdb.work hinfoStored
  obtain rfl := Option.some.inj (hwork'.symm.trans hwork)
  constructor
  · intro hnone
    obtain rfl : newTip = none := hnone
    have hfirst : info.prevBlockHash = allZeros := hprev
    rw [totalWorkAfter, if_neg (not_not_intro hfirst)] at hafter
    show tip.cumulativeWork - info.work = 0
    rw [← Except.ok.inj hafter, Nat.sub_self]
  · intro p hp
    obtain rfl : newTip = some p := hp
    have hp := hstored p rfl
    have hprev : info.prevBlockHash = p.blockHash := hprev
    have hne : info.prevBlockHash ≠ allZeros := hprev ▸ (hdb.header hp).2.2
    rw [totalWorkAfter, if_pos hne, hprev] at hafter
    obtain ⟨prevWork, hprevWork, hsum⟩ := bind_eq_ok_iff.mp hafter
    obtain ⟨n, hn⟩ := hdb.height hp
    have hmem : p.blockHash ∈ db.mainIndex.ancestors info.blockHash := by
      rw [hdb.ancestors_cons hinfoStored, hprev]
      exact List.mem_cons_of_mem _ (Index.mem_ancestors_self hdb.rooted hn)
    refine ⟨hp, hdb.block_of_mem hblock hmem, ?_⟩
    show db.totalWork[p.blockHash]? = some (tip.cumulativeWork - info.work)
    rw [okOr_eq_ok_iff.mp hprevWork, ← Except.ok.inj hsum, Nat.add_sub_cancel]

/-- A mainchain block at which no tip is recorded is disconnected without a trace. -/
theorem TipsInvariant.disconnectTip (h : db.TipsInvariant hashes)
    (hstored : ∀ p : MainHeaderInfo, prevTipInfo = some p →
      db.mainHeaderInfos[p.blockHash]? = some p)
    (hsafe : ∀ (b : BlockHash) (record : SidechainTipInfo),
      db.sideTips.sidechainTips[b]? = some record →
        record.mainBlockHash ≠ db.sideTips.mainchainTip.blockHash)
    {commitment : Option BlockHash}
    (hdisconnect : db.disconnectTip prevTipInfo commitment = .ok db') :
    db'.TipsInvariant hashes ∧ db'.sideTips.mainchainTip.tipInfo = prevTipInfo ∧
      db'.sideTips.sidechainTips = db.sideTips.sidechainTips := by
  obtain ⟨tips, htips, rfl⟩ := disconnectTip_eq_ok hdisconnect
  obtain ⟨info, newTip, hinfo, hnew, disconnected, hside, rfl⟩ :=
    disconnectMainchainTip_eq_ok htips
  obtain ⟨rfl, hprev⟩ := h.base.main.newTipInfo_eq_ok hstored hnew
  have hunchanged : disconnected = db.sideTips := by
    cases commitment with
    | none => exact (Except.ok.inj hside).symm
    | some c =>
        obtain ⟨record, hrecord, hside⟩ := bind_eq_ok_iff.mp hside
        have hne := hsafe c record (okOr_eq_ok_iff.mp hrecord)
        rw [MainchainTip.blockHash, hinfo] at hne
        rw [if_neg hne] at hside
        exact (Except.ok.inj hside).symm
  subst hunchanged
  have hinfoStored := (h.known.stored info hinfo).1
  have htip : db.sideTips.mainchainTip.blockHash = info.blockHash := by
    rw [MainchainTip.blockHash, hinfo]
  have hchain : db.activeChain db.sideTips =
      info.blockHash :: db.mainIndex.ancestors info.prevBlockHash := by
    rw [activeChain, htip, h.base.main.ancestors_cons hinfoStored]
  have hnewChain : db.activeChain (withMain db.sideTips
      ⟨db.sideTips.mainchainTip.cumulativeWork - info.work, newTip⟩) =
        db.mainIndex.ancestors info.prevBlockHash := by
    rw [hprev]
    cases newTip <;> rfl
  have hactive {b : BlockHash} {record : SidechainTipInfo}
      (hrecord : db.sideTips.sidechainTips[b]? = some record) :
      record.mainBlockHash ∈ db.mainIndex.ancestors info.prevBlockHash := by
    have hmem := (h.exact.recorded b record hrecord).main
    rw [hchain] at hmem
    refine (List.mem_cons.mp hmem).resolve_left fun heq => ?_
    exact hsafe b record hrecord (heq.trans htip.symm)
  have hexact : db.TipsExact (withMain db.sideTips
      ⟨db.sideTips.mainchainTip.cumulativeWork - info.work, newTip⟩)
      (fun _ => False) (fun _ => False) := by
    constructor
    · intro x hx
      obtain ⟨record, hrecord⟩ := mem_iff_lookup.mp hx
      obtain ⟨header, hheader, hbody, -, hparent⟩ := (h.exact.joined x hx).resolve_right id
      refine .inl ⟨header, hheader, hbody, ⟨record.mainBlockHash, ?_, ?_⟩, hparent⟩
      · rw [hnewChain]
        exact hactive hrecord
      · exact (h.exact.recorded x record hrecord).verified
    · rintro x ⟨header, hheader, hbody, ⟨a, ha, hv⟩, hparent⟩
      rw [hnewChain] at ha
      refine h.exact.complete x ⟨header, hheader, hbody, ⟨a, ?_, hv⟩, hparent⟩
      rw [hchain]
      exact List.mem_cons_of_mem _ ha
    · intro x record hx
      have hrecord := h.exact.recorded x record hx
      exact ⟨by rw [hnewChain]; exact hactive hx, hrecord.verified, hrecord.work, hrecord.height⟩
    · exact h.exact.inverse
  have hknown := h.known.disconnect h.base.main hinfo hprev hstored
  exact ⟨⟨h.base.withSideTips _, ⟨hknown.first, hknown.stored⟩, hexact.withTips _⟩, rfl, rfl⟩

end

section

variable {info : MainHeaderInfo} {block : MainBlockInfo}

/-- A connect event stores the block, and then connects it with what it commits to. -/
structure Connects (hashes : Hashes) (db stored db' : ArchiveDb B) (info : MainHeaderInfo)
    (block : MainBlockInfo) (commitment : Option BmmCommitment) : Prop where
  base : stored.BmmInvariant hashes
  grows : Grows db stored
  headerInfo : stored.mainHeaderInfos[info.blockHash]? = some info
  blockInfo : stored.mainBlockInfos[info.blockHash]? = some block
  counts : stored.activeCommitment info.blockHash block = .ok commitment
  connect : stored.connectTip info commitment = .ok db'

theorem BmmInvariant.connects (h : db.BmmInvariant hashes) (hauth : AuthenticHeader hashes info)
    (hblock : block = hashes.mainBlock info.blockHash)
    (hconnect : db.handleConnectBlock info block = .ok db') :
    ∃ stored commitment, Connects hashes db stored db' info block commitment := by
  obtain ⟨db1, hheader, hconnect⟩ := bind_eq_ok_iff.mp hconnect
  have hgrow1 := h.grows_putMainHeaderInfo hauth hheader
  have h1 := h.apply (show (BmmOp.putMainHeaderInfo info).Authentic hashes from hauth) hheader
  obtain ⟨db2, hput, hconnect⟩ := bind_eq_ok_iff.mp hconnect
  have hgrow2 := h1.grows_putMainBlockInfo hblock hput
  have h2 := h1.apply
    (show (BmmOp.putMainBlockInfo info.blockHash block).Authentic hashes from hblock) hput
  obtain ⟨commitment, hcommitment, hconnect⟩ := bind_eq_ok_iff.mp hconnect
  have hinfo : db1.mainHeaderInfos[info.blockHash]? = some info := by
    obtain ⟨-, height, work, pred, row, -, -, -, -, rfl⟩ := putMainHeaderInfo_eq_ok hheader
    exact lookup_insert.trans (if_pos rfl)
  have hstored : db2.mainBlockInfos[info.blockHash]? = some block := by
    obtain ⟨results, rfl⟩ := exists_results_of_putMainBlockInfo hput
    exact lookup_insert.trans (if_pos rfl)
  exact ⟨db2, commitment, h2, hgrow1.trans hgrow2, hgrow2.infos _ info hinfo, hstored,
    hcommitment, hconnect⟩

theorem TipsInvariant.handleConnectBlock (h : db.TipsInvariant hashes)
    (hauth : AuthenticHeader hashes info) (hblock : block = hashes.mainBlock info.blockHash)
    (hconnect : db.handleConnectBlock info block = .ok db') : db'.TipsInvariant hashes := by
  obtain ⟨stored, commitment, hc⟩ := h.base.connects hauth hblock hconnect
  have hstored := h.grows hc.grows hc.base
  exact (hstored.connectTip hc.headerInfo hc.blockInfo hc.counts hc.connect).1

theorem MainSound.mainParentHeaderInfo_eq_ok (hdb : db.MainSound hashes)
    {prevTipInfo : Option MainHeaderInfo} (h : db.mainParentHeaderInfo info = .ok prevTipInfo) :
    info.prevBlockHash = prevTipInfo.elim allZeros (·.blockHash) ∧
      ∀ p : MainHeaderInfo, prevTipInfo = some p → db.mainHeaderInfos[p.blockHash]? = some p := by
  unfold mainParentHeaderInfo at h
  split at h
  · rename_i hfirst
    obtain rfl := Except.ok.inj h
    exact ⟨hfirst, fun p hp => by cases hp⟩
  · obtain ⟨parent, hparent, h⟩ := bind_eq_ok_iff.mp h
    obtain rfl := Except.ok.inj h
    have hstored := okOr_eq_ok_iff.mp hparent
    have hhash := (hdb.header hstored).2.1
    refine ⟨hhash.symm, fun p hp => ?_⟩
    obtain rfl := Option.some.inj hp
    rwa [hhash]

theorem TipsInvariant.handleDisconnectBlock (h : db.TipsInvariant hashes)
    {blockHash : MainBlockHash} (hsafe : ∀ (b : BlockHash) (record : SidechainTipInfo),
      db.sideTips.sidechainTips[b]? = some record →
        record.mainBlockHash ≠ db.sideTips.mainchainTip.blockHash)
    (hdisconnect : db.handleDisconnectBlock blockHash = .ok db') : db'.TipsInvariant hashes := by
  obtain ⟨info, -, hdisconnect⟩ := bind_eq_ok_iff.mp hdisconnect
  obtain ⟨block, -, hdisconnect⟩ := bind_eq_ok_iff.mp hdisconnect
  obtain ⟨parent, hparent, hdisconnect⟩ := bind_eq_ok_iff.mp hdisconnect
  exact (h.disconnectTip (h.base.main.mainParentHeaderInfo_eq_ok hparent).2 hsafe hdisconnect).1

/-- The blocks that the active chain shares with the chain of the new tip are those up to the
common ancestor, which is on the active chain. -/
def Shared (db : ArchiveDb B) (newTip commonAncestor : MainBlockHash) : Prop :=
  ∀ a ∈ db.activeChain db.sideTips, a ∈ db.mainIndex.ancestors newTip →
    a ∈ db.mainIndex.ancestors commonAncestor ∧ commonAncestor ∈ db.activeChain db.sideTips

theorem TipsInvariant.shared_syncAncestor (h : db.TipsInvariant hashes)
    {newTip commonAncestor : MainBlockHash}
    (hancestor : db.syncAncestor newTip = .ok commonAncestor) :
    db.Shared newTip commonAncestor := by
  intro a ha hnew
  unfold syncAncestor at hancestor
  split at hancestor
  · rename_i hzeros
    rcases hzeros with hzeros | hzeros
    · rw [activeChain, hzeros, h.base.main.ancestors_allZeros] at ha
      exact absurd ha List.not_mem_nil
    · rw [hzeros, h.base.main.ancestors_allZeros] at hnew
      exact absurd hnew List.not_mem_nil
  · obtain ⟨n, hn⟩ := Index.height_of_ancestor h.base.main.rooted hnew
    obtain ⟨m, hm⟩ := Index.height_of_ancestor h.base.main.rooted ha
    obtain ⟨c, hc, -, hlast⟩ := Index.lastCommonAncestor_eq mainFaults h.base.main.rooted hn hm
      (h.base.main.rows_of_ancestors hn) (h.base.main.rows_of_ancestors hm)
    obtain rfl := Except.ok.inj (hancestor.symm.trans hc)
    rcases hlast with hlast | ⟨-, hdisjoint⟩
    · exact ⟨hlast.2.2 a hnew ha, hlast.2.1⟩
    · exact absurd ha (hdisjoint a hnew)

theorem syncDisconnect_preserves {P : ArchiveDb B → Option MainHeaderInfo → Prop}
    {commonAncestor : MainBlockHash}
    (hstep : ∀ (db db' : ArchiveDb B) (info : MainHeaderInfo) (prevTipInfo : Option MainHeaderInfo)
      (commitment : Option BlockHash), P db (some info) → info.blockHash ≠ commonAncestor →
        db.mainParentHeaderInfo info = .ok prevTipInfo →
          db.disconnectTip prevTipInfo commitment = .ok db' → P db' prevTipInfo)
    {rounds : Nat} {tipInfo : Option MainHeaderInfo} {state : ArchiveDb B × Option MainHeaderInfo}
    (hsync : ArchiveDb.syncDisconnect commonAncestor rounds db tipInfo = .ok state)
    (h : P db tipInfo) : P state.1 state.2 := by
  induction rounds generalizing db tipInfo with
  | zero =>
      cases tipInfo with
      | none =>
          obtain rfl := Except.ok.inj hsync
          exact h
      | some info =>
          rw [ArchiveDb.syncDisconnect] at hsync
          split at hsync
          · obtain rfl := Except.ok.inj hsync
            exact h
          · cases hsync
  | succ rounds ih =>
      cases tipInfo with
      | none =>
          obtain rfl := Except.ok.inj hsync
          exact h
      | some info =>
          rw [ArchiveDb.syncDisconnect] at hsync
          split at hsync
          · obtain rfl := Except.ok.inj hsync
            exact h
          · rename_i hne
            simp only [bind_eq_ok_iff] at hsync
            obtain ⟨prevTipInfo, hparent, block, -, db1, hdisconnect, hsync⟩ := hsync
            exact ih hsync (hstep db db1 info prevTipInfo _ h hne hparent hdisconnect)

/-- What holds while the chain of the new tip is approached: the disconnected blocks are not
on it, so no tip is recorded at them. -/
structure Approaching (hashes : Hashes) (newTip commonAncestor : MainBlockHash)
    (db : ArchiveDb B) (tipInfo : Option MainHeaderInfo) : Prop where
  tips : db.TipsInvariant hashes
  tip : db.sideTips.mainchainTip.tipInfo = tipInfo
  shared : db.Shared newTip commonAncestor
  kept : ∀ (b : BlockHash) (record : SidechainTipInfo),
    db.sideTips.sidechainTips[b]? = some record →
      record.mainBlockHash ∈ db.mainIndex.ancestors newTip

theorem Approaching.disconnectTip {newTip commonAncestor : MainBlockHash}
    {prevTipInfo : Option MainHeaderInfo} {commitment : Option BlockHash}
    (h : Approaching hashes newTip commonAncestor db (some info))
    (hne : info.blockHash ≠ commonAncestor)
    (hparent : db.mainParentHeaderInfo info = .ok prevTipInfo)
    (hdisconnect : db.disconnectTip prevTipInfo commitment = .ok db') :
    Approaching hashes newTip commonAncestor db' prevTipInfo := by
  have hmain := h.tips.base.main
  obtain ⟨hprev, hstored⟩ := hmain.mainParentHeaderInfo_eq_ok hparent
  have hinfo := (h.tips.known.stored info h.tip).1
  have htipHash : db.sideTips.mainchainTip.blockHash = info.blockHash := by
    rw [MainchainTip.blockHash, h.tip]
  have hchain : db.activeChain db.sideTips =
      info.blockHash :: db.mainIndex.ancestors info.prevBlockHash := by
    rw [activeChain, htipHash, hmain.ancestors_cons hinfo]
  have hnot : info.blockHash ∉ db.mainIndex.ancestors newTip := by
    intro hmem
    obtain ⟨hbelow, habove⟩ := h.shared info.blockHash (hchain ▸ List.mem_cons_self) hmem
    rw [activeChain, htipHash] at habove
    obtain ⟨n, hn⟩ := hmain.height hinfo
    obtain ⟨m, hm, hc⟩ := Index.height_of_mem hmain.rooted hn habove
    have hle := ((Index.mem_ancestors_iff hmain.rooted hc hn).mp hbelow).1
    obtain rfl : m = n := by omega
    exact hne (Index.eq_of_mem_of_height hmain.rooted hc hn hbelow)
  have hsafe (b : BlockHash) (record : SidechainTipInfo)
      (hrecord : db.sideTips.sidechainTips[b]? = some record) :
      record.mainBlockHash ≠ db.sideTips.mainchainTip.blockHash := by
    rw [htipHash]
    rintro heq
    exact hnot (heq ▸ h.kept b record hrecord)
  obtain ⟨h1, htip1, hside1⟩ := h.tips.disconnectTip hstored hsafe hdisconnect
  obtain ⟨tips, -, rfl⟩ := disconnectTip_eq_ok hdisconnect
  have hchain1 : db.activeChain tips = db.mainIndex.ancestors info.prevBlockHash := by
    change tips.mainchainTip.tipInfo = prevTipInfo at htip1
    rw [activeChain, MainchainTip.blockHash, htip1, hprev]
    cases prevTipInfo <;> rfl
  refine ⟨h1, htip1, fun a ha hnew => ?_, fun b record hrecord => ?_⟩
  · change a ∈ db.activeChain tips at ha
    rw [hchain1] at ha
    obtain ⟨hbelow, habove⟩ := h.shared a (hchain ▸ List.mem_cons_of_mem _ ha) hnew
    refine ⟨hbelow, ?_⟩
    show commonAncestor ∈ db.activeChain tips
    rw [hchain] at habove
    rw [hchain1]
    exact (List.mem_cons.mp habove).resolve_left fun heq => hne heq.symm
  · rw [hside1] at hrecord
    exact h.kept b record hrecord

theorem MainSound.stored_of_mainAncestorHeaderInfos (hdb : db.MainSound hashes) {n : Nat}
    {blockHash : MainBlockHash} {infos : List MainHeaderInfo}
    (h : db.mainAncestorHeaderInfos n blockHash = .ok infos) :
    ∀ info ∈ infos, db.mainHeaderInfos[info.blockHash]? = some info := by
  induction n generalizing blockHash infos with
  | zero =>
      obtain rfl := Except.ok.inj h
      exact fun info hinfo => absurd hinfo List.not_mem_nil
  | succ n ih =>
      rw [mainAncestorHeaderInfos] at h
      split at h
      · obtain rfl := Except.ok.inj h
        exact fun info hinfo => absurd hinfo List.not_mem_nil
      · simp only [bind_eq_ok_iff, getMainHeaderInfo, okOr_eq_ok_iff] at h
        obtain ⟨first, hfirst, rest, hrest, h⟩ := h
        obtain rfl := Except.ok.inj h
        intro info hinfo
        rcases List.mem_cons.mp hinfo with rfl | hinfo
        · rwa [(hdb.header hfirst).2.1]
        · exact ih hrest info hinfo

theorem MainSound.stored_of_mainAncestorBatch (hdb : db.MainSound hashes)
    {endBlockHash : MainBlockHash} {startHeight : Nat} {infos : List MainHeaderInfo}
    (h : db.mainAncestorBatch endBlockHash startHeight = .ok infos) :
    ∀ info ∈ infos, db.mainHeaderInfos[info.blockHash]? = some info := by
  obtain ⟨endInfo, -, h⟩ := bind_eq_ok_iff.mp h
  split at h
  · obtain rfl := Except.ok.inj h
    exact fun info hinfo => absurd hinfo List.not_mem_nil
  · simp only [bind_eq_ok_iff] at h
    obtain ⟨ancestor, -, infos', hinfos, h⟩ := h
    obtain rfl := Except.ok.inj h
    exact fun info hinfo => hdb.stored_of_mainAncestorHeaderInfos hinfos info
      (List.mem_reverse.mp hinfo)

theorem mainHeaderInfos_syncConnectOne {state state' : ArchiveDb B × Option MainHeaderInfo}
    (h : ArchiveDb.syncConnectOne state info = .ok state') :
    state'.1.mainHeaderInfos = state.1.mainHeaderInfos := by
  unfold ArchiveDb.syncConnectOne at h
  simp only [bind_eq_ok_iff] at h
  obtain ⟨block, -, commitment, -, db1, hconnect, hstate⟩ := h
  obtain rfl := Except.ok.inj hstate
  obtain ⟨tips, -, rfl⟩ := connectTip_eq_ok hconnect
  rfl

theorem syncConnect_preserves {P : ArchiveDb B → Prop}
    (hsound : ∀ db : ArchiveDb B, P db → db.MainSound hashes)
    (hstep : ∀ (state state' : ArchiveDb B × Option MainHeaderInfo) (info : MainHeaderInfo),
      P state.1 → state.1.mainHeaderInfos[info.blockHash]? = some info →
        ArchiveDb.syncConnectOne state info = .ok state' → P state'.1)
    {newTip : MainBlockHash} {rounds : Nat} {state : ArchiveDb B × Option MainHeaderInfo}
    (hsync : ArchiveDb.syncConnect newTip rounds state = .ok db') (h : P state.1) : P db' := by
  induction rounds generalizing state with
  | zero =>
      rw [ArchiveDb.syncConnect] at hsync
      split at hsync
      · obtain rfl := Except.ok.inj hsync
        exact h
      · cases hsync
  | succ rounds ih =>
      rw [ArchiveDb.syncConnect] at hsync
      split at hsync
      · obtain rfl := Except.ok.inj hsync
        exact h
      · simp only [bind_eq_ok_iff] at hsync
        obtain ⟨infos, hinfos, state1, hfold, hsync⟩ := hsync
        refine ih hsync ?_
        have hstored := (hsound state.1 h).stored_of_mainAncestorBatch hinfos
        exact (foldlM_preserves (P := fun s : ArchiveDb B × Option MainHeaderInfo =>
          P s.1 ∧ s.1.mainHeaderInfos = state.1.mainHeaderInfos)
          (fun info hinfo s s' hs hone => ⟨hstep s s' info hs.1
            (by rw [hs.2]; exact hstored info hinfo) hone,
              (mainHeaderInfos_syncConnectOne hone).trans hs.2⟩) hfold ⟨h, rfl⟩).1

theorem TipsInvariant.syncConnectOne {state state' : ArchiveDb B × Option MainHeaderInfo}
    (h : state.1.TipsInvariant hashes)
    (hinfo : state.1.mainHeaderInfos[info.blockHash]? = some info)
    (hconnect : ArchiveDb.syncConnectOne state info = .ok state') :
    state'.1.TipsInvariant hashes := by
  unfold ArchiveDb.syncConnectOne at hconnect
  simp only [bind_eq_ok_iff, getMainBlockInfo, okOr_eq_ok_iff] at hconnect
  obtain ⟨block, hblock, commitment, hcommitment, db1, hdb1, hstate⟩ := hconnect
  obtain rfl := Except.ok.inj hstate
  exact (h.connectTip hinfo hblock hcommitment hdb1).1

theorem TipsInvariant.syncSideTipsToTip (h : db.TipsInvariant hashes) {newTip : MainBlockHash}
    {rounds : Nat} (hkept : ∀ (b : BlockHash) (record : SidechainTipInfo),
      db.sideTips.sidechainTips[b]? = some record →
        record.mainBlockHash ∈ db.mainIndex.ancestors newTip)
    (hsync : db.syncSideTipsToTip newTip rounds = .ok db') : db'.TipsInvariant hashes := by
  obtain ⟨commonAncestor, hancestor, hsync⟩ := bind_eq_ok_iff.mp hsync
  obtain ⟨state, hdisconnect, hsync⟩ := bind_eq_ok_iff.mp hsync
  have hstart : Approaching hashes newTip commonAncestor db db.sideTips.mainchainTip.tipInfo :=
    ⟨h, rfl, h.shared_syncAncestor hancestor, hkept⟩
  have hstate := syncDisconnect_preserves (fun _ _ _ _ _ hdb hne hparent hstep =>
    hdb.disconnectTip hne hparent hstep) hdisconnect hstart
  exact syncConnect_preserves (P := fun db => db.TipsInvariant hashes)
    (fun _ hdb => hdb.base.main)
    (fun _ _ _ hdb hinfo hstep => hdb.syncConnectOne hinfo hstep) hsync hstate.tips

end

end ArchiveDb

end Truthcoin.Archiving
