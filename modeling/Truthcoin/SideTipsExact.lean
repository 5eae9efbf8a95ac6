import Truthcoin.SideTipsSync
import Truthcoin.TipCycles

/-!
# Which sidechain blocks are tips

The tables of tips hold exactly the blocks that can be re-orged to, as long as no
mainchain block is disconnected at which a tip is recorded and no tip is invalidated.
The loops over queues of blocks keep this up to the blocks that are still queued.
-/

namespace Truthcoin.Archiving

open Truthcoin.Types Truthcoin.Table Truthcoin.Fallible Truthcoin.Blocks
open Truthcoin.Mainchain Truthcoin.Lineage

variable {B : Type}

namespace ArchiveDb

section

variable (db : ArchiveDb B) (tips : SideTips)

/-- The mainchain blocks down from the current tip. -/
def activeChain : List MainBlockHash :=
  db.mainIndex.ancestors tips.mainchainTip.blockHash

/-- A block can be re-orged to: its header and body are stored, it is verified on the active
chain, and its parent is a tip. -/
def CanJoin (b : BlockHash) : Prop :=
  ∃ header, db.headers[b]? = some header ∧ b ∈ db.bodies ∧
    (∃ main ∈ db.activeChain tips, db.Verified b main) ∧
      ∀ p, header.prevSideHash = some p → p ∈ tips.sidechainTips

/-- What is recorded of a tip is true of it. -/
structure Recorded (b : BlockHash) (info : SidechainTipInfo) : Prop where
  main : info.mainBlockHash ∈ db.activeChain tips
  verified : db.Verified b info.mainBlockHash
  work : db.totalWork[info.mainBlockHash]? = some info.work
  height : db.blockHashToHeight[b]? = some info.sidechainHeight

/-- The tables hold the blocks that can be re-orged to, except that pending ones may still be
missing and that doomed ones may still be there. -/
structure TipsExact (pending doomed : BlockHash → Prop) : Prop where
  joined : ∀ b ∈ tips.sidechainTips, db.CanJoin tips b ∨ doomed b
  complete : ∀ b, db.CanJoin tips b → b ∈ tips.sidechainTips ∨ pending b
  recorded : ∀ (b : BlockHash) (info : SidechainTipInfo),
    tips.sidechainTips[b]? = some info → db.Recorded tips b info
  inverse : ∀ (info : SidechainTipInfo) (b : BlockHash),
    tips.orderedSidechainTips[info]? = some b ↔ tips.sidechainTips[b]? = some info

end

variable {hashes : Hashes} {db db' : ArchiveDb B} {tips tips' : SideTips}
  {pending doomed : BlockHash → Prop} {b : BlockHash}

theorem CanJoin.mono (h : db.CanJoin tips b)
    (htip : tips'.mainchainTip = tips.mainchainTip)
    (hsub : ∀ p ∈ tips.sidechainTips, p ∈ tips'.sidechainTips) : db.CanJoin tips' b := by
  obtain ⟨header, hheader, hbody, hverified, hparent⟩ := h
  refine ⟨header, hheader, hbody, ?_, fun p hp => hsub p (hparent p hp)⟩
  rwa [activeChain, htip]

theorem Recorded.stored (hdb : db.BmmInvariant hashes) {info : SidechainTipInfo}
    (h : db.Recorded tips b info) : ∃ header, db.headers[b]? = some header :=
  hdb.side.header_of_height h.height

theorem Recorded.withBodies {info : SidechainTipInfo} (h : db.Recorded tips b info)
    (bodies : Table BlockHash B) :
    ({ db with bodies := bodies } : ArchiveDb B).Recorded tips b info :=
  ⟨h.main, h.verified, h.work, h.height⟩

theorem TipsExact.withTips (h : db.TipsExact tips pending doomed) (current : SideTips) :
    ({ db with sideTips := current } : ArchiveDb B).TipsExact tips pending doomed where
  joined := h.joined
  complete := h.complete
  recorded b info hb :=
    have hrecord := h.recorded b info hb
    ⟨hrecord.main, hrecord.verified, hrecord.work, hrecord.height⟩
  inverse := h.inverse

/-- Both tables with one more tip. -/
def insertTip (tips : SideTips) (b : BlockHash) (info : SidechainTipInfo) : SideTips :=
  { tips with
    sidechainTips := tips.sidechainTips.insert b info
    orderedSidechainTips := tips.orderedSidechainTips.insert info b }

theorem mem_insertTip {info : SidechainTipInfo} {x : BlockHash} :
    x ∈ (insertTip tips b info).sidechainTips ↔ x = b ∨ x ∈ tips.sidechainTips := by
  rw [mem_iff_lookup, mem_iff_lookup]
  simp only [insertTip, lookup_insert]
  by_cases hx : x = b
  · simp [hx]
  · simp [hx]

/-- A block that can be re-orged to becomes a tip, and its children are pending. -/
theorem TipsExact.insert (hdb : db.BmmInvariant hashes) (h : db.TipsExact tips pending doomed)
    {info : SidechainTipInfo} (hjoin : db.CanJoin tips b) (hrecord : db.Recorded tips b info)
    (hnew : b ∉ tips.sidechainTips) {pending' : BlockHash → Prop}
    (hpending : ∀ x, x ≠ b → pending x → pending' x)
    (hchild : ∀ (x : BlockHash) (header : Header), db.headers[x]? = some header →
      header.prevSideHash = some b → pending' x) :
    db.TipsExact (insertTip tips b info) pending' doomed := by
  have hsub (x : BlockHash) (hx : x ∈ tips.sidechainTips) :
      x ∈ (insertTip tips b info).sidechainTips := mem_insertTip.mpr (.inr hx)
  have hrec (x : BlockHash) (info' : SidechainTipInfo)
      (hx : (insertTip tips b info).sidechainTips[x]? = some info') :
      x = b ∧ info' = info ∨ x ≠ b ∧ tips.sidechainTips[x]? = some info' := by
    change (tips.sidechainTips.insert b info)[x]? = some info' at hx
    rw [lookup_insert] at hx
    split at hx
    · rename_i heq
      exact .inl ⟨heq, (Option.some.inj hx).symm⟩
    · rename_i hne
      exact .inr ⟨hne, hx⟩
  constructor
  · intro x hx
    rcases mem_insertTip.mp hx with rfl | hx
    · exact .inl (hjoin.mono rfl hsub)
    · rcases h.joined x hx with hjoined | hdoomed
      · exact .inl (hjoined.mono rfl hsub)
      · exact .inr hdoomed
  · rintro x ⟨header, hheader, hbody, hverified, hparent⟩
    by_cases hx : x = b
    · exact .inl (mem_insertTip.mpr (.inl hx))
    · by_cases hprev : header.prevSideHash = some b
      · exact .inr (hchild x header hheader hprev)
      · have hold (p : BlockHash) (hp : header.prevSideHash = some p) :
            p ∈ tips.sidechainTips := by
          refine (mem_insertTip.mp (hparent p hp)).resolve_left ?_
          rintro rfl
          exact hprev hp
        rcases h.complete x ⟨header, hheader, hbody, hverified, hold⟩ with hmem | hx'
        · exact .inl (hsub x hmem)
        · exact .inr (hpending x hx hx')
  · intro x info' hx
    rcases hrec x info' hx with ⟨rfl, rfl⟩ | ⟨-, hx⟩
    · exact ⟨hrecord.main, hrecord.verified, hrecord.work, hrecord.height⟩
    · have hx := h.recorded x info' hx
      exact ⟨hx.main, hx.verified, hx.work, hx.height⟩
  · intro info' x
    show (tips.orderedSidechainTips.insert info b)[info']? = some x ↔
      (tips.sidechainTips.insert b info)[x]? = some info'
    rw [lookup_insert, lookup_insert]
    by_cases hx : x = b
    · subst hx
      rw [if_pos rfl]
      constructor
      · intro hlookup
        split at hlookup
        · rename_i heq
          rw [heq]
        · exact absurd (mem_iff_lookup.mpr ⟨info', (h.inverse info' x).mp hlookup⟩) hnew
      · intro heq
        rw [Option.some.inj heq, if_pos rfl]
    · rw [if_neg hx, ← h.inverse]
      by_cases heq : info' = info
      · subst heq
        rw [if_pos rfl]
        constructor
        · intro hb
          exact absurd (Option.some.inj hb).symm hx
        · intro hlookup
          have hother := h.recorded x info' ((h.inverse info' x).mp hlookup)
          obtain ⟨header, hheader⟩ := hother.stored hdb
          obtain ⟨header', hheader'⟩ := hrecord.stored hdb
          exact absurd (hdb.eq_of_verified hheader hheader' hother.verified hrecord.verified) hx
      · rw [if_neg heq]

theorem lookup_disconnectSidechainTip {x : BlockHash} :
    (tips.disconnectSidechainTip b).sidechainTips[x]? =
      if x = b then none else tips.sidechainTips[x]? := by
  rw [SideTips.disconnectSidechainTip]
  cases hb : tips.sidechainTips[b]? with
  | none =>
      by_cases hx : x = b
      · rw [if_pos hx, hx]
        exact hb
      · rw [if_neg hx]
  | some info => exact lookup_erase

theorem mem_disconnectSidechainTip {x : BlockHash} :
    x ∈ (tips.disconnectSidechainTip b).sidechainTips ↔ x ≠ b ∧ x ∈ tips.sidechainTips := by
  rw [mem_iff_lookup, mem_iff_lookup]
  simp only [lookup_disconnectSidechainTip]
  by_cases hx : x = b
  · simp [hx]
  · simp [hx]

theorem mainchainTip_disconnectSidechainTip :
    (tips.disconnectSidechainTip b).mainchainTip = tips.mainchainTip := by
  rw [SideTips.disconnectSidechainTip]
  split <;> rfl

/-- A block that cannot be re-orged to any more goes, and its children are doomed. -/
theorem TipsExact.disconnectSidechainTip (h : db.TipsExact tips pending doomed)
    (hgone : ¬ db.CanJoin tips b) {doomed' : BlockHash → Prop}
    (hdoomed : ∀ x, x ≠ b → doomed x → doomed' x)
    (hchild : ∀ (x : BlockHash) (header : Header), db.headers[x]? = some header →
      header.prevSideHash = some b → doomed' x) :
    db.TipsExact (tips.disconnectSidechainTip b) pending doomed' := by
  have htip : (tips.disconnectSidechainTip b).mainchainTip = tips.mainchainTip :=
    mainchainTip_disconnectSidechainTip
  constructor
  · intro x hx
    obtain ⟨hne, hx⟩ := mem_disconnectSidechainTip.mp hx
    rcases h.joined x hx with ⟨header, hheader, hbody, hverified, hparent⟩ | hx
    · by_cases hprev : header.prevSideHash = some b
      · exact .inr (hchild x header hheader hprev)
      · left
        refine ⟨header, hheader, hbody, by rwa [activeChain, htip], fun p hp => ?_⟩
        refine mem_disconnectSidechainTip.mpr ⟨?_, hparent p hp⟩
        rintro rfl
        exact hprev hp
    · exact .inr (hdoomed x hne hx)
  · intro x hx
    have hold : db.CanJoin tips x :=
      hx.mono htip.symm fun p hp => (mem_disconnectSidechainTip.mp hp).2
    rcases h.complete x hold with hmem | hpending
    · left
      refine mem_disconnectSidechainTip.mpr ⟨?_, hmem⟩
      rintro rfl
      exact hgone hold
    · exact .inr hpending
  · intro x info hx
    have hold : tips.sidechainTips[x]? = some info := by
      rw [lookup_disconnectSidechainTip] at hx
      split at hx
      · cases hx
      · exact hx
    have hx := h.recorded x info hold
    exact ⟨by rw [activeChain, htip]; exact hx.main, hx.verified, hx.work, hx.height⟩
  · intro info x
    rw [lookup_disconnectSidechainTip, SideTips.disconnectSidechainTip]
    cases hb : tips.sidechainTips[b]? with
    | none =>
        rw [h.inverse]
        by_cases hx : x = b
        · rw [if_pos hx, hx, hb]
        · rw [if_neg hx]
    | some info0 =>
        show (tips.orderedSidechainTips.erase info0)[info]? = some x ↔ _
        rw [lookup_erase]
        by_cases hx : x = b
        · subst hx
          rw [if_pos rfl]
          constructor
          · intro hlookup
            split at hlookup
            · cases hlookup
            · rename_i hne
              have hother := (h.inverse info x).mp hlookup
              exact absurd (Option.some.inj (hother.symm.trans hb)) hne
          · intro hnone
            cases hnone
        · rw [if_neg hx, ← h.inverse]
          by_cases heq : info = info0
          · subst heq
            rw [if_pos rfl]
            constructor
            · intro hnone
              cases hnone
            · intro hlookup
              have hother := (h.inverse info b).mpr hb
              exact absurd (Option.some.inj (hlookup.symm.trans hother)) hx
          · rw [if_neg heq]

theorem TipsExact.imp (h : db.TipsExact tips pending doomed) {pending' : BlockHash → Prop}
    (hpending : ∀ x, db.CanJoin tips x → pending x → pending' x) :
    db.TipsExact tips pending' doomed where
  joined := h.joined
  complete x hx := (h.complete x hx).imp_right (hpending x hx)
  recorded := h.recorded
  inverse := h.inverse

theorem connectSidechainTip_eq_ok {main : MainBlockHash} {work : Nat}
    {data : SidechainHeaderData} (h : tips.connectSidechainTip main work b data = .ok tips') :
    ∃ height, tips.heightAfter data.prevSideHash = .ok height ∧
      tips' = if b ∈ tips.sidechainTips then tips else insertTip tips b ⟨height, work, main⟩ := by
  obtain ⟨height, hheight, h⟩ := bind_eq_ok_iff.mp h
  refine ⟨height, hheight, ?_⟩
  split at h
  · rename_i hmem
    rw [if_pos hmem]
    exact (Except.ok.inj h).symm
  · rename_i hmem
    rw [if_neg hmem]
    exact (Except.ok.inj h).symm

theorem TipsExact.heightAfter (hdb : db.BmmInvariant hashes)
    (h : db.TipsExact tips pending doomed) {header : Header} {height : Nat}
    (hheader : db.headers[b]? = some header)
    (hheight : tips.heightAfter header.prevSideHash = .ok height) :
    db.blockHashToHeight[b]? = some height := by
  have hparent := sideIndex_parent hheader
  cases hprev : header.prevSideHash with
  | none =>
      rw [hprev] at hparent hheight
      rw [← Except.ok.inj hheight]
      exact hdb.side.rooted.first hparent
  | some p =>
      rw [hprev] at hparent hheight
      obtain ⟨info, hinfo, hsum⟩ := bind_eq_ok_iff.mp hheight
      have hp := (h.recorded p info (okOr_eq_ok_iff.mp hinfo)).height
      obtain ⟨n, hn, hb⟩ := hdb.side.rooted.child hparent
      obtain rfl := Option.some.inj (hn.symm.trans hp)
      rw [← Except.ok.inj hsum]
      exact hb

theorem parentIsTip_iff {prevSideHash : Option BlockHash} :
    parentIsTip tips prevSideHash = true ↔
      ∀ p, prevSideHash = some p → p ∈ tips.sidechainTips := by
  cases prevSideHash with
  | none => simp [parentIsTip]
  | some p => simp [parentIsTip]

theorem MainSound.isMainDescendant_eq_ok (hdb : db.MainSound hashes) {a d : MainBlockHash}
    {info : MainHeaderInfo} {r : Bool} (ha : db.mainHeaderInfos[a]? = some info)
    (h : db.isMainDescendant a d = .ok r) : r = decide (a ∈ db.mainIndex.ancestors d) := by
  have hd : ∃ info, db.mainHeaderInfos[d]? = some info := by
    by_cases heq : a = d
    · exact ⟨info, heq ▸ ha⟩
    · change db.mainIndex.isDescendant mainFaults a d = .ok r at h
      rw [Index.isDescendant, if_neg heq] at h
      simp only [bind_eq_ok_iff, Index.getHeight, okOr_eq_ok_iff] at h
      obtain ⟨-, -, n, hn, -⟩ := h
      exact hdb.info_of_height hn
  obtain ⟨dinfo, hdinfo⟩ := hd
  rw [hdb.isMainDescendant_eq ha hdinfo] at h
  exact (Except.ok.inj h).symm

section

variable {header : Header} {main : MainBlockHash} {work : Nat} {pending' : BlockHash → Prop}

theorem TipsExact.connectSidechainTip (hdb : db.BmmInvariant hashes)
    (h : db.TipsExact tips pending doomed) (hheader : db.headers[b]? = some header)
    (hbody : b ∈ db.bodies) (hmain : main ∈ db.activeChain tips) (hverified : db.Verified b main)
    (hwork : db.totalWork[main]? = some work)
    (hparent : ∀ p, header.prevSideHash = some p → p ∈ tips.sidechainTips)
    (hconnect : tips.connectSidechainTip main work b (headerData header) = .ok tips')
    (hpending : ∀ x, x ≠ b → pending x → pending' x)
    (hchild : ∀ (x : BlockHash) (header : Header), db.headers[x]? = some header →
      header.prevSideHash = some b → pending' x) :
    db.TipsExact tips' pending' doomed ∧ b ∈ tips'.sidechainTips ∧
      tips'.mainchainTip = tips.mainchainTip ∧
        ∀ x ∈ tips.sidechainTips, x ∈ tips'.sidechainTips := by
  obtain ⟨height, hheight, rfl⟩ := connectSidechainTip_eq_ok hconnect
  by_cases hmem : b ∈ tips.sidechainTips
  · rw [if_pos hmem]
    refine ⟨?_, hmem, rfl, fun x hx => hx⟩
    constructor
    · exact h.joined
    · intro x hx
      by_cases heq : x = b
      · exact .inl (heq ▸ hmem)
      · exact (h.complete x hx).imp_right (hpending x heq)
    · exact h.recorded
    · exact h.inverse
  · rw [if_neg hmem]
    refine ⟨?_, mem_insertTip.mpr (.inl rfl), rfl, fun x hx => mem_insertTip.mpr (.inr hx)⟩
    have hrecord : db.Recorded tips b ⟨height, work, main⟩ :=
      ⟨hmain, hverified, hwork, h.heightAfter hdb hheader hheight⟩
    exact h.insert hdb ⟨header, hheader, hbody, ⟨main, hmain, hverified⟩, hparent⟩ hrecord hmem
      hpending hchild

/-- Where the results of a block have led so far: to the tips as they were, or to tips with
the block among them. -/
structure ConnectState (db : ArchiveDb B) (tips : SideTips) (b : BlockHash)
    (pending pending' doomed : BlockHash → Prop) (acc : SideTips × Bool) : Prop where
  tip : acc.1.mainchainTip = tips.mainchainTip
  grown : ∀ x ∈ tips.sidechainTips, x ∈ acc.1.sidechainTips
  unchanged : acc.2 = false → acc.1 = tips
  connected : acc.2 = true → db.TipsExact acc.1 pending' doomed ∧ b ∈ acc.1.sidechainTips

theorem ConnectState.connectAtResult (hdb : db.BmmInvariant hashes)
    (h : db.TipsExact tips pending doomed) (hheader : db.headers[b]? = some header)
    (hbody : b ∈ db.bodies) (hpending : ∀ x, x ≠ b → pending x → pending' x)
    (hchild : ∀ (x : BlockHash) (header : Header), db.headers[x]? = some header →
      header.prevSideHash = some b → pending' x)
    {acc acc' : SideTips × Bool} (hacc : ConnectState db tips b pending pending' doomed acc)
    {row : MainBlockHash × BmmResult} (hrow : (db.getBmmResults b)[row.1]? = some row.2)
    (hstep : db.connectAtResult tips.mainchainTip.blockHash b header acc row = .ok acc') :
    ConnectState db tips b pending pending' doomed acc' ∧ (acc.2 = true → acc'.2 = true) ∧
      (db.Verified b row.1 → row.1 ∈ db.activeChain tips →
        (∀ p, header.prevSideHash = some p → p ∈ tips.sidechainTips) → acc'.2 = true) := by
  obtain ⟨main, result⟩ := row
  obtain ⟨current, connected⟩ := acc
  unfold ArchiveDb.connectAtResult at hstep
  cases result with
  | failed =>
      obtain rfl := Except.ok.inj hstep
      refine ⟨hacc, id, fun hverified => ?_⟩
      have := hrow.symm.trans hverified
      cases this
  | verified =>
      simp only at hstep
      split at hstep
      · rename_i hparent
        have hparent := parentIsTip_iff.mp hparent
        obtain ⟨on, hon, hstep⟩ := bind_eq_ok_iff.mp hstep
        obtain ⟨block, hblock⟩ := mem_iff_lookup.mp (hdb.bmm.known hrow)
        obtain ⟨-, info, hinfo, -⟩ := hdb.main.block hblock
        obtain rfl := hdb.main.isMainDescendant_eq_ok hinfo hon
        by_cases hmain : main ∈ db.mainIndex.ancestors tips.mainchainTip.blockHash
        · rw [decide_eq_true hmain, if_pos rfl] at hstep
          simp only [bind_eq_ok_iff, getTotalWork, okOr_eq_ok_iff, mapError_eq_ok_iff] at hstep
          obtain ⟨work, hwork, tips', hconnect, hstep⟩ := hstep
          obtain rfl := Except.ok.inj hstep
          have hactive : main ∈ db.activeChain current := by
            rw [activeChain, hacc.tip]
            exact hmain
          have hgrown (x : BlockHash) (hx : x ∈ tips.sidechainTips)
              (hsub : ∀ x ∈ current.sidechainTips, x ∈ tips'.sidechainTips) :
              x ∈ tips'.sidechainTips := hsub x (hacc.grown x hx)
          cases connected with
          | false =>
              obtain rfl := hacc.unchanged rfl
              obtain ⟨hexact, hmem, htip, hsub⟩ := h.connectSidechainTip hdb hheader hbody
                hactive hrow hwork hparent hconnect hpending hchild
              exact ⟨⟨htip, hsub, fun h => (by cases h), fun _ => ⟨hexact, hmem⟩⟩, fun _ => rfl,
                fun _ _ _ => rfl⟩
          | true =>
              obtain ⟨hexact, -⟩ := hacc.connected rfl
              obtain ⟨hexact, hmem, htip, hsub⟩ := hexact.connectSidechainTip hdb hheader hbody
                hactive hrow hwork hparent hconnect (fun x _ hx => hx) hchild
              exact ⟨⟨htip.trans hacc.tip, fun x hx => hgrown x hx hsub, fun h => (by cases h),
                fun _ => ⟨hexact, hmem⟩⟩, fun _ => rfl, fun _ _ _ => rfl⟩
        · rw [decide_eq_false hmain, if_neg Bool.false_ne_true] at hstep
          obtain rfl := Except.ok.inj hstep
          exact ⟨hacc, id, fun _ hon => absurd hon hmain⟩
      · rename_i hparent
        obtain rfl := Except.ok.inj hstep
        refine ⟨hacc, id, fun _ _ hall => absurd ?_ hparent⟩
        exact parentIsTip_iff.mpr fun p hp => hacc.grown p (hall p hp)

theorem ConnectState.foldlM (hdb : db.BmmInvariant hashes)
    (h : db.TipsExact tips pending doomed) (hheader : db.headers[b]? = some header)
    (hbody : b ∈ db.bodies) (hpending : ∀ x, x ≠ b → pending x → pending' x)
    (hchild : ∀ (x : BlockHash) (header : Header), db.headers[x]? = some header →
      header.prevSideHash = some b → pending' x)
    {rows : List (MainBlockHash × BmmResult)}
    (hrows : ∀ row ∈ rows, (db.getBmmResults b)[row.1]? = some row.2)
    {acc acc' : SideTips × Bool} (hacc : ConnectState db tips b pending pending' doomed acc)
    (hfold : rows.foldlM (db.connectAtResult tips.mainchainTip.blockHash b header) acc =
      .ok acc') :
    ConnectState db tips b pending pending' doomed acc' ∧ (acc.2 = true → acc'.2 = true) ∧
      ∀ row ∈ rows, db.Verified b row.1 → row.1 ∈ db.activeChain tips →
        (∀ p, header.prevSideHash = some p → p ∈ tips.sidechainTips) → acc'.2 = true := by
  induction rows generalizing acc with
  | nil =>
      obtain rfl := Except.ok.inj hfold
      exact ⟨hacc, id, fun row hrow => absurd hrow List.not_mem_nil⟩
  | cons row rows ih =>
      rw [List.foldlM_cons] at hfold
      obtain ⟨acc1, hstep, hfold⟩ := bind_eq_ok_iff.mp hfold
      obtain ⟨hacc1, hmono, hfound⟩ := hacc.connectAtResult hdb h hheader hbody hpending hchild
        (hrows row List.mem_cons_self) hstep
      obtain ⟨hacc', hmono', hfound'⟩ :=
        ih (fun row' hrow' => hrows row' (List.mem_cons_of_mem _ hrow')) hacc1 hfold
      refine ⟨hacc', fun ht => hmono' (hmono ht), fun row' hrow' hv hon hp => ?_⟩
      rcases List.mem_cons.mp hrow' with rfl | hrow'
      · exact hmono' (hfound hv hon hp)
      · exact hfound' row' hrow' hv hon hp

/-- The block is no longer pending, and its children are if they are queued. -/
theorem TipsExact.updateSideTips (hdb : db.BmmInvariant hashes)
    (h : db.TipsExact tips pending doomed) (hheader : db.headers[b]? = some header)
    (hbody : b ∈ db.bodies) {queue : List BlockHash}
    (hupdate : db.updateSideTips tips.mainchainTip.blockHash tips b header =
      .ok (tips', queue)) :
    db.TipsExact tips' (fun x => x ≠ b ∧ pending x ∨ x ∈ queue) doomed ∧
      tips'.mainchainTip = tips.mainchainTip := by
  obtain ⟨⟨current, connected⟩, hfold, hupdate⟩ := bind_eq_ok_iff.mp hupdate
  have hstart : ConnectState db tips b pending
      (fun x => x ≠ b ∧ pending x ∨ ∃ header : Header, db.headers[x]? = some header ∧
        header.prevSideHash = some b) doomed (tips, false) :=
    ⟨rfl, fun x hx => hx, fun _ => rfl, fun h => (by cases h)⟩
  obtain ⟨hstate, -, hfound⟩ := hstart.foldlM hdb h hheader hbody
    (fun x hne hx => .inl ⟨hne, hx⟩) (fun x header hrow hprev => .inr ⟨header, hrow, hprev⟩)
    (fun row hrow => mem_toList_iff.mp hrow) hfold
  refine ⟨?_, ?_⟩
  · cases connected with
    | true =>
        simp only [↓reduceIte] at hupdate
        obtain ⟨successors, hsuccessors, hupdate⟩ := bind_eq_ok_iff.mp hupdate
        obtain ⟨rfl, rfl⟩ := Prod.mk.inj (Except.ok.inj hupdate)
        refine (hstate.connected rfl).1.imp fun x _ hx => hx.imp_right ?_
        exact ((hdb.side.successors (okOr_eq_ok_iff.mp hsuccessors)).2 x).mpr
    | false =>
        simp only [Bool.false_eq_true, ↓reduceIte] at hupdate
        obtain ⟨rfl, rfl⟩ := Prod.mk.inj (Except.ok.inj hupdate)
        obtain rfl := hstate.unchanged rfl
        refine h.imp fun x hx hpending => .inl ⟨?_, hpending⟩
        rintro rfl
        obtain ⟨header', hheader', -, ⟨main, hmain, hverified⟩, hparent⟩ := hx
        obtain rfl := Option.some.inj (hheader.symm.trans hheader')
        have := hfound (main, .verified) (mem_toList_iff.mpr hverified) hverified hmain hparent
        cases this
  · cases connected with
    | true =>
        simp only [↓reduceIte] at hupdate
        obtain ⟨successors, -, hupdate⟩ := bind_eq_ok_iff.mp hupdate
        obtain ⟨rfl, -⟩ := Prod.mk.inj (Except.ok.inj hupdate)
        exact hstate.tip
    | false =>
        simp only [Bool.false_eq_true, ↓reduceIte] at hupdate
        obtain ⟨rfl, -⟩ := Prod.mk.inj (Except.ok.inj hupdate)
        exact hstate.tip

theorem TipsExact.updateQueue (hdb : db.BmmInvariant hashes) {rounds : Nat}
    {queue : List BlockHash} (h : db.TipsExact tips (fun x => x ∈ queue) doomed)
    (hupdate : db.updateQueue tips.mainchainTip.blockHash rounds tips queue = .ok tips') :
    db.TipsExact tips' (fun _ => False) doomed ∧ tips'.mainchainTip = tips.mainchainTip := by
  induction rounds generalizing tips queue with
  | zero =>
      cases queue with
      | nil =>
          obtain rfl := Except.ok.inj hupdate
          exact ⟨h.imp fun x _ hx => List.not_mem_nil hx, rfl⟩
      | cons b queue => cases hupdate
  | succ rounds ih =>
      cases queue with
      | nil =>
          obtain rfl := Except.ok.inj hupdate
          exact ⟨h.imp fun x _ hx => List.not_mem_nil hx, rfl⟩
      | cons b queue =>
          rw [ArchiveDb.updateQueue] at hupdate
          split at hupdate
          · rename_i hbody
            obtain ⟨header, hheader, hupdate⟩ := bind_eq_ok_iff.mp hupdate
            obtain ⟨⟨tips1, successors⟩, hone, hupdate⟩ := bind_eq_ok_iff.mp hupdate
            obtain ⟨hexact, htip⟩ :=
              h.updateSideTips hdb (okOr_eq_ok_iff.mp hheader) hbody hone
            rw [← htip] at hupdate
            have hnext : db.TipsExact tips1 (fun x => x ∈ queue ++ successors) doomed := by
              refine hexact.imp fun x _ hx => ?_
              rw [List.mem_append]
              exact hx.imp_left fun hx => (List.mem_cons.mp hx.2).resolve_left hx.1
            obtain ⟨hexact', htip'⟩ := ih hnext hupdate
            exact ⟨hexact', htip'.trans htip⟩
          · rename_i hbody
            refine ih (h.imp fun x hx hmem => ?_) hupdate
            refine (List.mem_cons.mp hmem).resolve_left ?_
            rintro rfl
            obtain ⟨-, -, hstored, -⟩ := hx
            exact hbody hstored

end

/-- A queued block cannot be re-orged to any more: its body or its parent is gone. -/
theorem TipsExact.disconnectQueue (hdb : db.SideSound hashes) {bodies : Table BlockHash B}
    {queue : List BlockHash}
    (h : ({ db with bodies := bodies } : ArchiveDb B).TipsExact tips pending (fun x => x ∈ queue))
    (hqueue : ∀ x ∈ queue, x ∉ bodies ∨ ∃ header p, db.headers[x]? = some header ∧
      header.prevSideHash = some p ∧ p ∉ tips.sidechainTips)
    (hdisconnect : db.disconnectQueue tips queue = .ok tips') :
    ({ db with bodies := bodies } : ArchiveDb B).TipsExact tips' pending (fun _ => False) ∧
      tips'.mainchainTip = tips.mainchainTip := by
  induction tips, queue using ArchiveDb.disconnectQueue.induct db with
  | case1 tips =>
      rw [ArchiveDb.disconnectQueue] at hdisconnect
      obtain rfl := Except.ok.inj hdisconnect
      refine ⟨⟨fun x hx => ?_, h.complete, h.recorded, h.inverse⟩, rfl⟩
      exact (h.joined x hx).imp_right fun hmem => List.not_mem_nil hmem
  | case2 tips b queue hmem hnone =>
      rw [ArchiveDb.disconnectQueue, dif_pos hmem] at hdisconnect
      split at hdisconnect
      · cases hdisconnect
      · rename_i hsome
        cases hnone.symm.trans hsome
  | case3 tips b queue hmem successors hsome ih =>
      rw [ArchiveDb.disconnectQueue, dif_pos hmem] at hdisconnect
      have hchildren := (hdb.successors hsome).2
      have hgone : ¬ ({ db with bodies := bodies } : ArchiveDb B).CanJoin tips b := by
        rintro ⟨header, hheader, hbody, -, hparent⟩
        rcases hqueue b List.mem_cons_self with hnot | ⟨header', p, hheader', hprev, hp⟩
        · exact hnot hbody
        · obtain rfl := Option.some.inj (hheader.symm.trans hheader')
          exact hp (hparent p hprev)
      have hexact : ({ db with bodies := bodies } : ArchiveDb B).TipsExact
          (tips.disconnectSidechainTip b) pending (fun x => x ∈ queue ++ successors) :=
        h.disconnectSidechainTip hgone
          (fun x hne hx => List.mem_append_left _ ((List.mem_cons.mp hx).resolve_left hne))
          (fun x header hheader hprev =>
            List.mem_append_right _ ((hchildren x).mpr ⟨header, hheader, hprev⟩))
      split at hdisconnect
      · rename_i hnone
        cases hnone.symm.trans hsome
      · rename_i successors' hsome'
        obtain rfl := Option.some.inj (hsome.symm.trans hsome')
        have hnext : ∀ x ∈ queue ++ successors, x ∉ bodies ∨ ∃ header p,
            db.headers[x]? = some header ∧ header.prevSideHash = some p ∧
              p ∉ (tips.disconnectSidechainTip b).sidechainTips := by
          intro x hx
          rcases List.mem_append.mp hx with hx | hx
          · refine (hqueue x (List.mem_cons_of_mem _ hx)).imp_right ?_
            rintro ⟨header, p, hheader, hprev, hp⟩
            exact ⟨header, p, hheader, hprev, fun hmem =>
              hp (mem_disconnectSidechainTip.mp hmem).2⟩
          · obtain ⟨header, hheader, hprev⟩ := (hchildren x).mp hx
            exact .inr ⟨header, b, hheader, hprev, fun hmem =>
              (mem_disconnectSidechainTip.mp hmem).1 rfl⟩
        obtain ⟨hresult, htip⟩ := ih hexact hnext hdisconnect
        exact ⟨hresult, htip.trans mainchainTip_disconnectSidechainTip⟩
  | case4 tips b queue hmem ih =>
      rw [ArchiveDb.disconnectQueue, dif_neg hmem] at hdisconnect
      refine ih ⟨fun x hx => ?_, h.complete, h.recorded, h.inverse⟩
        (fun x hx => hqueue x (List.mem_cons_of_mem _ hx)) hdisconnect
      refine (h.joined x hx).imp_right fun hx' => (List.mem_cons.mp hx').resolve_left ?_
      rintro rfl
      exact hmem hx

end ArchiveDb

end Truthcoin.Archiving
