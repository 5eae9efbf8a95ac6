import Truthcoin.SideTipsMoves

/-!
# Runs of the node

Every operation on the archive keeps the tables of tips exact, unless it disconnects a
mainchain block at which a tip is recorded or invalidates a tip.
-/

namespace Truthcoin.Archiving

open Truthcoin.Types Truthcoin.Table Truthcoin.Fallible Truthcoin.Blocks
open Truthcoin.Mainchain Truthcoin.Lineage

variable {B : Type}

namespace ArchiveDb

variable {hashes : Hashes} {db db' : ArchiveDb B}

theorem tipsInvariant_new : (new : ArchiveDb B).TipsInvariant hashes := by
  refine ⟨⟨mainSound_new, sideSound_new, bmmExact_new⟩, ⟨fun _ => rfl, fun info hinfo => ?_⟩, ?_⟩
  · cases hinfo
  · constructor
    · intro b hb
      simp [new, SideTips.empty] at hb
    · rintro b ⟨header, hheader, -⟩
      simp [new] at hheader
    · intro b info hb
      simp [new, SideTips.empty] at hb
    · intro info b
      simp [new, SideTips.empty]

end ArchiveDb

namespace NodeOp

variable {hashes : Hashes} {db db' : ArchiveDb B}

/-- The operation leaves no tip behind: it invalidates no tip, and it disconnects no
mainchain block at which a tip is recorded. -/
def Safe (db : ArchiveDb B) : NodeOp B → Prop
  | invalidateBlock blockHash => blockHash ∉ db.sideTips.sidechainTips
  | disconnectBlock _ => ∀ (b : BlockHash) (record : SidechainTipInfo),
      db.sideTips.sidechainTips[b]? = some record →
        record.mainBlockHash ≠ db.sideTips.mainchainTip.blockHash
  | syncSideTipsToTip mainchainTip _ => ∀ (b : BlockHash) (record : SidechainTipInfo),
      db.sideTips.sidechainTips[b]? = some record →
        record.mainBlockHash ∈ db.mainIndex.ancestors mainchainTip
  | _ => True

/-- Every operation is safe in the archive in which it is carried out. -/
def SafeRun (hashes : Hashes) : ArchiveDb B → List (NodeOp B) → Prop
  | _, [] => True
  | db, op :: ops => op.Safe db ∧ SafeRun hashes (step hashes db op) ops

theorem tipsInvariant_apply (h : db.TipsInvariant hashes) {op : NodeOp B}
    (hauth : op.Authentic hashes) (hsafe : op.Safe db) (happly : op.apply hashes db = .ok db') :
    db'.TipsInvariant hashes := by
  cases op with
  | putHeader header =>
      exact h.grows (h.base.grows_putHeader happly)
        (h.base.apply (show (BmmOp.putHeader header).Authentic hashes from trivial) happly)
  | putBody b body => exact h.putBody happly
  | deleteBody b => exact h.deleteBody happly
  | invalidateBlock b =>
      obtain rfl := Except.ok.inj happly
      exact h.invalidateBlock hsafe
  | putMainHeaderInfo info =>
      exact h.grows (h.base.grows_putMainHeaderInfo hauth happly)
        (h.base.apply (show (BmmOp.putMainHeaderInfo info).Authentic hashes from hauth) happly)
  | putMainBlockInfo main block =>
      exact h.grows (h.base.grows_putMainBlockInfo hauth happly)
        (h.base.apply (show (BmmOp.putMainBlockInfo main block).Authentic hashes from hauth) happly)
  | connectBlock info block => exact h.handleConnectBlock hauth.1 hauth.2 happly
  | disconnectBlock b => exact h.handleDisconnectBlock hsafe happly
  | syncSideTipsToTip newTip rounds => exact h.syncSideTipsToTip hsafe happly

theorem tipsInvariant_step (h : db.TipsInvariant hashes) {op : NodeOp B}
    (hauth : op.Authentic hashes) (hsafe : op.Safe db) :
    (step hashes db op).TipsInvariant hashes := by
  rw [step]
  cases happly : op.apply hashes db with
  | error e => exact h
  | ok db' => exact tipsInvariant_apply h hauth hsafe happly

theorem tipsInvariant_foldl (h : db.TipsInvariant hashes) {ops : List (NodeOp B)}
    (hauth : ∀ op ∈ ops, op.Authentic hashes) (hsafe : SafeRun hashes db ops) :
    (ops.foldl (step hashes) db).TipsInvariant hashes := by
  induction ops generalizing db with
  | nil => exact h
  | cons op ops ih =>
      rw [List.foldl_cons]
      refine ih ?_ (fun op' hop' => hauth op' (List.mem_cons_of_mem _ hop')) hsafe.2
      exact tipsInvariant_step h (hauth op List.mem_cons_self) hsafe.1

/-- While no tip is orphaned, the tips are exactly the blocks that can be re-orged to, and
the ordered table is the inverse of the table by hash. -/
theorem sidechainTips_characterised (hashes : Hashes) (ops : List (NodeOp B))
    (hauth : ∀ op ∈ ops, op.Authentic hashes) (hsafe : SafeRun hashes .new ops) :
    (∀ b, b ∈ (run hashes ops).sideTips.sidechainTips ↔
      (run hashes ops).CanJoin (run hashes ops).sideTips b) ∧
    ∀ (info : SidechainTipInfo) (b : BlockHash),
      (run hashes ops).sideTips.orderedSidechainTips[info]? = some b ↔
        (run hashes ops).sideTips.sidechainTips[b]? = some info := by
  have h := tipsInvariant_foldl ArchiveDb.tipsInvariant_new hauth hsafe
  refine ⟨fun b => ⟨fun hb => ?_, fun hb => ?_⟩, h.exact.inverse⟩
  · exact (h.exact.joined b hb).resolve_right id
  · exact (h.exact.complete b hb).resolve_right id

end NodeOp

/-- The mainchain `1, 2, 3`, whose second block commits to a first sidechain block. -/
def orphanHeader : Header := headerOn none 1

def orphanRows : List MainRow :=
  [⟨0, 0, 1, none⟩, ⟨1, 1, 1, some (pairHash orphanHeader)⟩, ⟨2, 2, 1, none⟩]

def orphanHashes : Hashes := treeHashes orphanRows

open NodeOp in
/-- The first two blocks are connected, the sidechain block arrives in between. -/
def orphanOps : List (NodeOp Unit) :=
  [connectBlock (orphanHashes.mainHeader 1) (orphanHashes.mainBlock 1), putHeader orphanHeader,
    putBody (pairHash orphanHeader) (),
    connectBlock (orphanHashes.mainHeader 2) (orphanHashes.mainBlock 2)]

theorem orphanOps_authentic : ∀ op ∈ orphanOps, op.Authentic orphanHashes := by
  intro op hop
  simp only [orphanOps, List.mem_cons, List.not_mem_nil, or_false] at hop
  rcases hop with rfl | rfl | rfl | rfl
  · exact ⟨⟨rfl, by decide⟩, rfl⟩
  · trivial
  · trivial
  · exact ⟨⟨rfl, by decide⟩, rfl⟩

/-- When the second mainchain block is disconnected, the sidechain block stays a tip, but
not in the ordered table, and no block of the active chain verifies it. -/
theorem orphaned_tip_stays :
    let ops := orphanOps ++ [.disconnectBlock 2]
    let db := NodeOp.run orphanHashes ops
    (∀ op ∈ ops, op.Authentic orphanHashes) ∧
      pairHash orphanHeader ∈ db.sideTips.sidechainTips ∧
        ¬ db.CanJoin db.sideTips (pairHash orphanHeader) ∧
          ∃ info, db.sideTips.sidechainTips[pairHash orphanHeader]? = some info ∧
            db.sideTips.orderedSidechainTips[info]? = none := by
  refine ⟨?_, by decide +kernel, ?_, ⟨⟨0, 2, 2⟩, by decide +kernel, by decide +kernel⟩⟩
  · intro op hop
    rcases List.mem_append.mp hop with hop | hop
    · exact orphanOps_authentic op hop
    · rw [List.mem_singleton.mp hop]
      trivial
  · rintro ⟨header, -, -, ⟨main, hmain, hverified⟩, -⟩
    have hchain : (NodeOp.run orphanHashes (orphanOps ++ [.disconnectBlock 2])).activeChain
        (NodeOp.run orphanHashes (orphanOps ++ [.disconnectBlock 2])).sideTips = [1] := by
      decide +kernel
    rw [hchain, List.mem_singleton] at hmain
    subst hmain
    have hresult : ((NodeOp.run orphanHashes (orphanOps ++ [.disconnectBlock 2])).getBmmResults
        (pairHash orphanHeader))[1]? ≠ some BmmResult.verified := by decide +kernel
    exact hresult hverified

open NodeOp in
def keptConnected : List (NodeOp Unit) :=
  orphanOps ++ [connectBlock (orphanHashes.mainHeader 3) (orphanHashes.mainBlock 3)]

/-- The third block is connected and disconnected. -/
def keptOps : List (NodeOp Unit) :=
  keptConnected ++ [.disconnectBlock 3]

theorem keptOps_safe : NodeOp.SafeRun orphanHashes .new keptOps := by
  refine ⟨trivial, trivial, trivial, trivial, trivial, ?_, trivial⟩
  intro b record hrecord
  have hrow : (b, record) ∈
      (NodeOp.run orphanHashes keptConnected).sideTips.sidechainTips.toList :=
    mem_toList_iff.mpr hrecord
  have hrows : (NodeOp.run orphanHashes keptConnected).sideTips.sidechainTips.toList =
      [(pairHash orphanHeader, ⟨0, 2, 2⟩)] := by decide +kernel
  rw [hrows, List.mem_singleton] at hrow
  obtain ⟨rfl, rfl⟩ := Prod.mk.inj hrow
  decide +kernel

/-- No tip is recorded at the third block, so the tips are as they should be. -/
theorem sidechainTips_characterised_kept :
    (∀ b, b ∈ (NodeOp.run orphanHashes keptOps).sideTips.sidechainTips ↔
      (NodeOp.run orphanHashes keptOps).CanJoin (NodeOp.run orphanHashes keptOps).sideTips b) ∧
    ∀ (info : SidechainTipInfo) (b : BlockHash),
      (NodeOp.run orphanHashes keptOps).sideTips.orderedSidechainTips[info]? = some b ↔
        (NodeOp.run orphanHashes keptOps).sideTips.sidechainTips[b]? = some info := by
  refine NodeOp.sidechainTips_characterised orphanHashes keptOps ?_ keptOps_safe
  intro op hop
  simp only [keptOps, keptConnected, List.mem_append, List.mem_singleton] at hop
  rcases hop with (hop | rfl) | rfl
  · exact orphanOps_authentic op hop
  · exact ⟨⟨rfl, by decide⟩, rfl⟩
  · trivial

end Truthcoin.Archiving
