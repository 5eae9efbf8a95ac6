import Truthcoin.ReorgPath
import Truthcoin.BlockChecks
import Truthcoin.DisconnectErrors

/-!
# The stored bodies of the active chain

Peers' bodies are stored before anything about them is checked. A body that belongs to
another block than its header does no harm before that block is connected, as a re-org checks
what it connects. Afterwards nothing keeps it from taking the place of the right one.
-/

namespace Truthcoin.Archiving

open Truthcoin.Types Truthcoin.Table Truthcoin.Fallible Truthcoin.Blocks
open Truthcoin.Mainchain Truthcoin.Lineage Truthcoin.ConnectTrace Truthcoin.Decisions
open Truthcoin.BlockChecks Truthcoin.DisconnectErrors

namespace ArchiveDb

variable {B : Type} {hashes : Hashes} {db db' : ArchiveDb B}

/-- The stored headers stay. -/
def Extends (db db' : ArchiveDb B) : Prop :=
  ∀ (h : BlockHash) (header : Header),
    db.headers[h]? = some header → db'.headers[h]? = some header

theorem Extends.nthParent (hdb : db.SideSound hashes) (hext : Extends db db') {h : BlockHash}
    (hh : h ∈ db.headers) (k : Nat) :
    db'.sideIndex.nthParent k h = db.sideIndex.nthParent k h := by
  induction k generalizing h with
  | zero => rfl
  | succ k ih =>
      obtain ⟨header, hheader⟩ := mem_iff_lookup.mp hh
      rw [Index.nthParent, Index.nthParent, sideIndex_parent hheader,
        sideIndex_parent (hext h header hheader), Option.join_some]
      cases hprev : header.prevSideHash with
      | none => rfl
      | some p => exact ih (hdb.parent hheader hprev).1

theorem Extends.onChain_iff (hdb : db.SideSound hashes) (hext : Extends db db')
    {b t : BlockHash} (ht : t ∈ db.headers) :
    db'.sideIndex.OnChain b t ↔ db.sideIndex.OnChain b t := by
  unfold Index.OnChain
  simp only [hext.nthParent hdb ht]

theorem onChain_parent {b p t : BlockHash} {header : Header}
    (hheader : db.headers[t]? = some header) (hprev : header.prevSideHash = some p)
    (hb : db.sideIndex.OnChain b p) : db.sideIndex.OnChain b t := by
  obtain ⟨k, hk⟩ := hb
  refine ⟨k + 1, ?_⟩
  rw [Index.nthParent, sideIndex_parent hheader, Option.join_some, hprev, Option.bind_some, hk]

theorem eq_or_onChain {b t : BlockHash} {header : Header}
    (hheader : db.headers[t]? = some header) (hb : db.sideIndex.OnChain b t) :
    b = t ∨ ∃ p, header.prevSideHash = some p ∧ db.sideIndex.OnChain b p := by
  obtain ⟨k, hk⟩ := hb
  cases k with
  | zero => exact .inl (Option.some.inj hk).symm
  | succ k =>
      rw [Index.nthParent, sideIndex_parent hheader, Option.join_some] at hk
      obtain ⟨p, hp, hk⟩ := Option.bind_eq_some_iff.mp hk
      exact .inr ⟨p, hp, k, hk⟩

theorem SideSound.stored_of_onChain (hdb : db.SideSound hashes) {b t : BlockHash}
    (ht : t ∈ db.headers) (hb : db.sideIndex.OnChain b t) : b ∈ db.headers := by
  obtain ⟨k, hk⟩ := hb
  induction k generalizing t with
  | zero => exact Option.some.inj hk ▸ ht
  | succ k ih =>
      obtain ⟨header, hheader⟩ := mem_iff_lookup.mp ht
      rw [Index.nthParent, sideIndex_parent hheader, Option.join_some] at hk
      obtain ⟨p, hp, hk⟩ := Option.bind_eq_some_iff.mp hk
      exact ih (hdb.parent hheader hp).1 hk

theorem Reachable.step (hdb : Reachable hashes db) {op : BmmOp} (hauth : op.Authentic hashes) :
    Reachable hashes (op.step hashes db) := by
  have hops : ∀ op' ∈ [op], op'.Authentic hashes :=
    fun op' hop' => List.mem_singleton.mp hop' ▸ hauth
  exact hdb.foldl hops

theorem SideSound.extends_putHeader (hdb : db.SideSound hashes) {header : Header}
    (h : db.putHeader hashes.headerHash header = .ok db') :
    Extends db db' ∧ db'.headers[hashes.headerHash header]? = some header ∧
      db'.bodies = db.bodies := by
  obtain ⟨height, pred, row, mains, results, -, -, -, -, -, rfl⟩ := putHeader_eq_ok h
  exact ⟨fun b stored hstored => hdb.headers_insert hstored, lookup_insert.trans (if_pos rfl), rfl⟩

theorem SideSound.extends_step (hdb : db.SideSound hashes) (op : BmmOp) :
    Extends db (op.step hashes db) ∧ (op.step hashes db).bodies = db.bodies := by
  unfold BmmOp.step
  cases h : op.apply hashes db with
  | error e => exact ⟨fun _ _ hheader => hheader, rfl⟩
  | ok db' =>
      change Extends db db' ∧ db'.bodies = db.bodies
      cases op with
      | putHeader header =>
          obtain ⟨hext, -, hbodies⟩ := hdb.extends_putHeader h
          exact ⟨hext, hbodies⟩
      | putMainHeaderInfo info =>
          obtain ⟨-, height, work, pred, row, -, -, -, -, rfl⟩ := putMainHeaderInfo_eq_ok h
          exact ⟨fun _ _ hheader => hheader, rfl⟩
      | putMainBlockInfo main block =>
          obtain ⟨hside, hbodies, -⟩ := sameSide_putMainBlockInfo h
          exact ⟨fun _ _ hheader => hside.headers ▸ hheader, hbodies⟩

end ArchiveDb

namespace Node

variable {F : Type}

/-- The block is on the active chain. -/
def Active (node : Node F) (b : BlockHash) : Prop :=
  ∃ t, node.state.tip = some t ∧ node.archive.sideIndex.OnChain b t

/-- The bodies that are stored for the blocks of the active chain belong to their headers. -/
def BodiesAuthentic (L : Library F) (node : Node F) : Prop :=
  ∀ (b : BlockHash) (header : Header) (body : Body F), node.Active b →
    node.archive.headers[b]? = some header → node.archive.bodies[b]? = some body →
      L.merkleRoot body.coinbase body.transactions = header.merkleRoot

/-- A node that has not seen anything. -/
def new (F : Type) : Node F := ⟨.new, .empty, State.empty F⟩

/-- What holds of a node between two messages. -/
structure Keeps (L : Library F) (hashes : Hashes) (node : Node F) : Prop where
  reachable : ArchiveDb.Reachable hashes node.archive
  tip : ∀ t, node.state.tip = some t → t ∈ node.archive.headers
  bodies : node.BodiesAuthentic L

section

variable {L : Library F} {hashes : Hashes} {node next last : Node F}

theorem Keeps.side (h : node.Keeps L hashes) : node.archive.SideSound hashes :=
  h.reachable.invariant.side

theorem Keeps.authentic_of_extends (h : node.Keeps L hashes) {db : ArchiveDb (Body F)}
    (hext : ArchiveDb.Extends node.archive db) {b : BlockHash} {header : Header} {body : Body F}
    (hactive : node.Active b) (hheader : db.headers[b]? = some header)
    (hbody : node.archive.bodies[b]? = some body) :
    L.merkleRoot body.coinbase body.transactions = header.merkleRoot := by
  obtain ⟨t, ht, hon⟩ := hactive
  obtain ⟨stored, hstored⟩ := mem_iff_lookup.mp (h.side.stored_of_onChain (h.tip t ht) hon)
  obtain rfl := Option.some.inj ((hext b stored hstored).symm.trans hheader)
  exact h.bodies b stored body ⟨t, ht, hon⟩ hstored hbody

theorem Keeps.withArchive (h : node.Keeps L hashes) {db : ArchiveDb (Body F)}
    (hdb : ArchiveDb.Reachable hashes db) (hext : ArchiveDb.Extends node.archive db)
    (hbodies : ∀ (b : BlockHash) (body : Body F), node.Active b → db.bodies[b]? = some body →
      node.archive.bodies[b]? = some body ∨ ∀ header, db.headers[b]? = some header →
        L.merkleRoot body.coinbase body.transactions = header.merkleRoot) :
    ({ node with archive := db } : Node F).Keeps L hashes := by
  refine ⟨hdb, ?_, ?_⟩
  · intro t ht
    obtain ⟨header, hheader⟩ := mem_iff_lookup.mp (h.tip t ht)
    exact mem_iff_lookup.mpr ⟨header, hext t header hheader⟩
  · rintro b header body ⟨t, ht, hon⟩ hheader hbody
    have hactive : node.Active b := ⟨t, ht, (hext.onChain_iff h.side (h.tip t ht)).mp hon⟩
    rcases hbodies b body hactive hbody with hold | hroot
    · exact h.authentic_of_extends hext hactive hheader hold
    · exact hroot header hheader

theorem Keeps.disconnectTip [F64 F] [DecidableEq F] (h : node.Keeps L hashes)
    (hnext : node.disconnectTip L = .ok next) : next.Keeps L hashes := by
  obtain ⟨t, header, ht, hheader, htip, harchive⟩ := tip_of_disconnectTip hnext
  refine ⟨harchive ▸ h.reachable, ?_, ?_⟩
  · intro p hp
    rw [harchive]
    exact (h.side.parent hheader (htip.symm.trans hp)).1
  · rintro b stored body ⟨p, hp, hon⟩ hstored hbody
    rw [harchive] at hon hstored hbody
    exact h.bodies b stored body
      ⟨t, ht, ArchiveDb.onChain_parent hheader (htip.symm.trans hp) hon⟩ hstored hbody

theorem Keeps.disconnectTips [F64 F] [DecidableEq F] {n : Nat} {blocks : List BlockHash}
    (h : node.Keeps L hashes) (hlast : disconnectTips L n node = .ok (last, blocks)) :
    last.Keeps L hashes := by
  induction n generalizing node blocks with
  | zero =>
      obtain ⟨rfl, -⟩ := Prod.mk.inj (Except.ok.inj hlast)
      exact h
  | succ n ih =>
      obtain ⟨next, hnext, hlast⟩ := bind_eq_ok_iff.mp hlast
      obtain ⟨⟨last', rest⟩, hrest, hlast⟩ := bind_eq_ok_iff.mp hlast
      obtain ⟨rfl, -⟩ := Prod.mk.inj (Except.ok.inj hlast)
      exact ih (h.disconnectTip hnext) hrest

theorem Keeps.disconnectStale [F64 F] [DecidableEq F] {rounds : Nat} (h : node.Keeps L hashes)
    (hlast : disconnectStale L rounds node = .ok last) : last.Keeps L hashes := by
  induction rounds generalizing node with
  | zero => exact Except.ok.inj hlast ▸ h
  | succ rounds ih =>
      unfold Node.disconnectStale at hlast
      split at hlast
      · exact Except.ok.inj hlast ▸ h
      · split at hlast
        · exact Except.ok.inj hlast ▸ h
        · obtain ⟨next, hnext, hlast⟩ := bind_eq_ok_iff.mp hlast
          exact ih (h.disconnectTip hnext) hlast

end

section

variable [F64 F] [DecidableEq F] {L : Library F} {config : DecisionConfig}
  {lib : WithdrawalBundle.BundleLib}
  {iter : Table MainBlockHash BmmResult → List (MainBlockHash × BmmResult)}
  {hashes : Hashes} {node next last : Node F}

theorem connectTip_eq_ok {header : Header} {body : Body F} {data : TwoWayPegData}
    (h : node.connectTip L config lib iter header body data = .ok next) :
    header.prevSideHash = node.state.tip ∧
      L.merkleRoot body.coinbase body.transactions = header.merkleRoot ∧
      next.state.tip = some (L.headerHash header) ∧
      ∃ db, node.archive.putHeader L.headerHash header = .ok db ∧
        db.putBody (L.headerHash header) body = .ok next.archive := by
  simp only [connectTip, bind_eq_ok_iff, mapError_eq_ok_iff] at h
  obtain ⟨pre, hpre, _, -, _, -, state, hconnect, state', hpeg, db, hdb, db', hdb', h⟩ := h
  obtain rfl := Except.ok.inj h
  have hchecked := prevalidated_of_prevalidate hpre
  simp only [Connect.connectPrevalidated, bind_eq_ok_iff] at hconnect
  obtain ⟨_, -, _, -, _, -, _, -, _, -, _, -, _, -, hconnect⟩ := hconnect
  obtain ⟨p, -, hpeg⟩ := bind_eq_ok_iff.mp hpeg
  refine ⟨hchecked.tip, hchecked.merkleRoot, ?_, db, hdb, hdb'⟩
  rw [← Except.ok.inj hpeg, ← Except.ok.inj hconnect]
  rfl

/-- A block that connects brings its own body. -/
theorem Keeps.connectTip (hhash : hashes.headerHash = L.headerHash) (h : node.Keeps L hashes)
    {header : Header} {body : Body F} {data : TwoWayPegData}
    (hnext : node.connectTip L config lib iter header body data = .ok next) :
    next.Keeps L hashes := by
  obtain ⟨hprev, hroot, htip, db, hheader, hbody⟩ := connectTip_eq_ok hnext
  rw [← hhash] at hheader hbody htip
  obtain ⟨hext, hstored, hbodies⟩ := h.side.extends_putHeader hheader
  have hdb := h.reachable.putHeader hheader
  obtain ⟨_, -, tips, hnew⟩ := ArchiveDb.putBody_eq_ok hbody
  have hsame : next.archive.headers = db.headers := by rw [hnew]
  have hindex : next.archive.sideIndex = db.sideIndex := by rw [hnew]; rfl
  refine ⟨hdb.putBody hbody, ?_, ?_⟩
  · intro t ht
    obtain rfl := Option.some.inj (htip.symm.trans ht)
    rw [hsame]
    exact mem_iff_lookup.mpr ⟨header, hstored⟩
  · rintro b other stored ⟨t, ht, hon⟩ hother hb
    obtain rfl := Option.some.inj (htip.symm.trans ht)
    rw [hsame] at hother
    rw [hindex] at hon
    have hlookup : (db.bodies.insert (hashes.headerHash header) body)[b]? = some stored := by
      rw [hnew] at hb
      exact hb
    rw [lookup_insert] at hlookup
    split at hlookup
    · rename_i heq
      rw [heq, hstored] at hother
      rw [← Option.some.inj hother, ← Option.some.inj hlookup]
      exact hroot
    · rename_i hne
      rcases ArchiveDb.eq_or_onChain hstored hon with rfl | ⟨p, hp, hon⟩
      · exact absurd rfl hne
      · have htip' := hprev.symm.trans hp
        rw [hbodies] at hlookup
        exact h.authentic_of_extends hext
          ⟨p, htip', (hext.onChain_iff h.side (h.tip p htip')).mp hon⟩ hother hlookup

omit [F64 F] [DecidableEq F] in
/-- The body of a response is stored without a check, so it has to be right if the block is
connected. -/
theorem Keeps.storeResponse (hhash : hashes.headerHash = L.headerHash) (h : node.Keeps L hashes)
    {blockHash : BlockHash} {header : Header} {body : Body F}
    (hbody : L.headerHash header = blockHash → node.Active blockHash →
      L.merkleRoot body.coinbase body.transactions = header.merkleRoot) :
    (node.storeResponse L blockHash header body).Keeps L hashes := by
  unfold Node.storeResponse
  split
  · rename_i hblock
    split
    · rename_i db hput
      have hdb := h.reachable.putBody hput
      obtain ⟨stored, hstored, tips, rfl⟩ := ArchiveDb.putBody_eq_ok hput
      refine h.withArchive hdb (fun _ _ hheader => hheader) fun b body' hactive hlookup => ?_
      change (node.archive.bodies.insert blockHash body)[b]? = some body' at hlookup
      rw [lookup_insert] at hlookup
      split at hlookup
      · rename_i heq
        refine .inr fun header' hheader' => ?_
        change node.archive.headers[b]? = some header' at hheader'
        have hsame : header' = header := by
          apply hashes.headerHash_injective
          rw [(h.side.header hheader').1, heq, hhash, hblock]
        rw [← Option.some.inj hlookup, hsame]
        exact hbody hblock (heq ▸ hactive)
      · exact .inl hlookup
    · exact h
  · exact h

theorem Keeps.connectBlocks (hhash : hashes.headerHash = L.headerHash) (h : node.Keeps L hashes)
    {tip : Option Tip} {batch : List BlockInfo} {blocks : List (Header × Body F)}
    {connected : List BlockHash}
    (hlast : connectBlocks L config lib iter tip batch blocks node = .ok (last, connected)) :
    last.Keeps L hashes := by
  induction blocks generalizing batch node connected with
  | nil =>
      obtain ⟨rfl, -⟩ := Prod.mk.inj (Except.ok.inj hlast)
      exact h
  | cons block blocks ih =>
      obtain ⟨next, hnext, hlast⟩ := bind_eq_ok_iff.mp hlast
      obtain ⟨_, -, hlast⟩ := bind_eq_ok_iff.mp hlast
      obtain ⟨⟨last', rest⟩, hrest, hlast⟩ := bind_eq_ok_iff.mp hlast
      obtain ⟨rfl, -⟩ := Prod.mk.inj (Except.ok.inj hlast)
      exact ih (h.connectTip hhash (mapError_eq_ok_iff.mp hnext)) hrest

theorem Keeps.tryReorg (hhash : hashes.headerHash = L.headerHash) (h : node.Keeps L hashes)
    {newTip : Tip} {trace : ReorgTrace}
    (hlast : node.tryReorg L config lib iter newTip = .ok (some (last, trace))) :
    last.Keeps L hashes := by
  unfold Node.tryReorg at hlast
  split at hlast
  · cases hlast
  · cases hlast
  · obtain ⟨⟨base, disconnected⟩, hbase, hlast⟩ := bind_eq_ok_iff.mp hlast
    rw [mapError_eq_ok_iff] at hbase
    dsimp only at hlast
    split at hlast
    · cases hlast
    · obtain ⟨batch, -, hlast⟩ := bind_eq_ok_iff.mp hlast
      obtain ⟨⟨last', connected⟩, hconnected, hlast⟩ := bind_eq_ok_iff.mp hlast
      dsimp only at hlast
      split at hlast
      · cases hlast
      · obtain ⟨rfl, -⟩ := Prod.mk.inj (Option.some.inj (Except.ok.inj hlast))
        exact (h.disconnectTips hbase).connectBlocks hhash hconnected

theorem Keeps.reorgToTip (hhash : hashes.headerHash = L.headerHash) (h : node.Keeps L hashes)
    (newTip : Tip) : (node.reorgToTip L config lib iter newTip).1.Keeps L hashes := by
  unfold Node.reorgToTip
  split
  · exact h
  · rename_i hlast
    exact h.tryReorg hhash hlast
  · exact h
  · split
    · exact h
    · split
      · rename_i db hdelete
        obtain ⟨tips, -, hdb⟩ := ArchiveDb.deleteBody_eq_ok hdelete
        refine h.withArchive (h.reachable.deleteBody hdelete) ?_ ?_
        · intro b header hheader
          rw [hdb]
          exact hheader
        · intro b body hactive hbody
          rw [hdb] at hbody
          refine .inl ?_
          have hlookup : (node.archive.bodies.erase _)[b]? = some body := hbody
          rw [lookup_erase] at hlookup
          split at hlookup
          · cases hlookup
          · exact hlookup
      · exact h

theorem Keeps.newTipReady (hhash : hashes.headerHash = L.headerHash) (h : node.Keeps L hashes)
    (newTip : Tip) : (node.newTipReady L config lib iter newTip).1.Keeps L hashes := by
  unfold Node.newTipReady
  split
  · split
    · exact h.reorgToTip hhash newTip
    · exact h
    · exact h
  · exact h

theorem Keeps.mainchainBlockEvent (hhash : hashes.headerHash = L.headerHash)
    (h : node.Keeps L hashes) :
    (node.mainchainBlockEvent L config lib iter).1.Keeps L hashes := by
  unfold Node.mainchainBlockEvent
  split
  · exact h
  · rename_i hnext
    split
    · exact h.disconnectStale hnext
    · exact (h.disconnectStale hnext).reorgToTip hhash _

end

end Node

/-- What changes a node: headers of peers and mainchain blocks that are stored, sidechain tips
that move with the mainchain's tip, and the messages that the net task handles. -/
inductive NodeItem (F : Type) where
  | store (op : BmmOp)
  | moveTips (tips : SideTips)
  | blockResponse (blockHash : BlockHash) (header : Header) (body : Body F)
  | newTipReady (newTip : Tip)
  | mainchainBlockEvent

namespace NodeItem

variable {F : Type} [F64 F] [DecidableEq F]

section

variable (L : Library F) (config : DecisionConfig) (lib : WithdrawalBundle.BundleLib)
  (iter : Table MainBlockHash BmmResult → List (MainBlockHash × BmmResult)) (hashes : Hashes)

def step (node : Node F) : NodeItem F → Node F
  | store op => { node with archive := op.step hashes node.archive }
  | moveTips tips => { node with archive := { node.archive with sideTips := tips } }
  | blockResponse blockHash header body => node.storeResponse L blockHash header body
  | newTipReady newTip => (node.newTipReady L config lib iter newTip).1
  | mainchainBlockEvent => (node.mainchainBlockEvent L config lib iter).1

/-- What the mainchain node reports of a block is what its hash stands for. -/
def Authentic : NodeItem F → Prop
  | store op => op.Authentic hashes
  | _ => True

/-- A body that comes with the header of a block of the active chain belongs to the header. -/
def KeepsBodies (node : Node F) : NodeItem F → Prop
  | blockResponse blockHash header body => L.headerHash header = blockHash →
      node.Active blockHash → L.merkleRoot body.coinbase body.transactions = header.merkleRoot
  | _ => True

/-- The node after a sequence of items. -/
def run (node : Node F) (items : List (NodeItem F)) : Node F :=
  items.foldl (step L config lib iter hashes) node

/-- No item brings a wrong body for a block that is on the active chain then. -/
def KeepsBodiesRun : Node F → List (NodeItem F) → Prop
  | _, [] => True
  | node, item :: items => item.KeepsBodies L node ∧
      KeepsBodiesRun (step L config lib iter hashes node item) items

end

variable {L : Library F} {config : DecisionConfig} {lib : WithdrawalBundle.BundleLib}
  {iter : Table MainBlockHash BmmResult → List (MainBlockHash × BmmResult)} {hashes : Hashes}
  {node : Node F}

omit [F64 F] [DecidableEq F] in
theorem keeps_new : (Node.new F).Keeps L hashes where
  reachable := .new
  tip t ht := by cases ht
  bodies b header body := by
    rintro ⟨t, ht, -⟩
    cases ht

theorem keeps_step (hhash : hashes.headerHash = L.headerHash) (h : node.Keeps L hashes)
    {item : NodeItem F} (hauth : item.Authentic hashes) (hbodies : item.KeepsBodies L node) :
    (step L config lib iter hashes node item).Keeps L hashes := by
  cases item with
  | store op =>
      obtain ⟨hext, hstored⟩ := h.side.extends_step op
      exact h.withArchive (h.reachable.step hauth) hext
        fun b body _ hbody => .inl (hstored ▸ hbody)
  | moveTips tips =>
      exact h.withArchive h.reachable.moveTips (fun _ _ hheader => hheader)
        fun _ _ _ hbody => .inl hbody
  | blockResponse blockHash header body => exact h.storeResponse hhash hbodies
  | newTipReady newTip => exact h.newTipReady hhash newTip
  | mainchainBlockEvent => exact h.mainchainBlockEvent hhash

theorem keeps_run (hhash : hashes.headerHash = L.headerHash) (h : node.Keeps L hashes)
    {items : List (NodeItem F)} (hauth : ∀ item ∈ items, item.Authentic hashes)
    (hbodies : KeepsBodiesRun L config lib iter hashes node items) :
    (run L config lib iter hashes node items).Keeps L hashes := by
  induction items generalizing node with
  | nil => exact h
  | cons item items ih =>
      exact ih (keeps_step hhash h (hauth item List.mem_cons_self) hbodies.1)
        (fun item' hitem' => hauth item' (List.mem_cons_of_mem _ hitem')) hbodies.2

theorem keepsBodiesRun_append {items items' : List (NodeItem F)}
    (h : KeepsBodiesRun L config lib iter hashes node items)
    (h' : KeepsBodiesRun L config lib iter hashes (run L config lib iter hashes node items)
      items') :
    KeepsBodiesRun L config lib iter hashes node (items ++ items') := by
  induction items generalizing node with
  | nil => exact h'
  | cons item items ih => exact ⟨h.1, ih h.2 h'⟩

theorem no_invalidBody (h : node.Keeps L hashes) (expected computed : MerkleRoot) :
    node.disconnectTip L ≠ .error (.state (.invalidBody expected computed)) := by
  have hreports : Reports (fun e => ∀ e', e = NetTaskError.state e' → NotInvalidBody e')
      (node.disconnectTip L) := by
    simp only [Node.disconnectTip, reports_bind, reports_okOr, reports_mapError, okOr_eq_ok_iff,
      mapError_eq_ok_iff, ArchiveDb.getHeader, ArchiveDb.getBody, NetTaskError.state.injEq,
      forall_eq', reduceCtorEq, false_implies, implies_true, reports_true, reports_ok, true_and,
      and_true]
    refine ⟨fun _ => trivial, fun t ht header hheader body hbody =>
      ⟨fun _ => trivial, fun height _ data _ => ⟨reports_disconnectTwoWayPegData, fun s _ => ?_⟩⟩⟩
    exact reports_disconnectTip (h.bodies t header body ⟨t, ht, 0, rfl⟩ hheader hbody)
  intro herror
  exact hreports _ herror _ rfl

/-- If no response brings a wrong body for a block that is on the active chain then, the bodies
of the active chain belong to their headers, and no disconnection finds an invalid one. -/
theorem bodiesAuthentic_of_run (hhash : hashes.headerHash = L.headerHash)
    {items : List (NodeItem F)} (hauth : ∀ item ∈ items, item.Authentic hashes)
    (hbodies : KeepsBodiesRun L config lib iter hashes (.new F) items) :
    (run L config lib iter hashes (.new F) items).BodiesAuthentic L ∧
      ∀ expected computed, (run L config lib iter hashes (.new F) items).disconnectTip L ≠
        .error (.state (.invalidBody expected computed)) := by
  have hkeeps := keeps_run hhash keeps_new hauth hbodies
  exact ⟨hkeeps.bodies, no_invalidBody hkeeps⟩

open Truthcoin.Commitments

/-- The root of a body is the number of outputs of its coinbase. -/
def rootLibrary : Library Rat :=
  { sampleLibrary (fun _ => 0) with
    headerHash := pairHash
    merkleRoot := fun coinbase _ => coinbase.outputs.length }

def rootRows : List MainRow := [⟨0, 0, 1, none⟩, ⟨1, 1, 1, some (pairHash baseHeader)⟩]

def wrongBody : Body Rat := ⟨⟨[], [⟨0, .bitcoin 0, []⟩]⟩, [], [], []⟩

/-- The headers arrive, then the body of the first block, and the block is connected. -/
def firstBlockItems : List (NodeItem Rat) :=
  (treeOps rootRows [baseHeader]).map .store ++
    [.moveTips { SideTips.empty with
        mainchainTip := ⟨2, some ((treeHashes rootRows).mainHeader 2)⟩ },
      .blockResponse (pairHash baseHeader) baseHeader emptyBody,
      .newTipReady ⟨pairHash baseHeader, 2⟩]

theorem authentic_firstBlockItems :
    ∀ item ∈ firstBlockItems, item.Authentic (treeHashes rootRows) := by
  intro item hitem
  rcases List.mem_append.mp hitem with hitem | hitem
  · obtain ⟨op, hop, rfl⟩ := List.mem_map.mp hitem
    exact authentic_treeOps rootRows [baseHeader] op hop
  · simp only [List.mem_cons, List.not_mem_nil, or_false] at hitem
    rcases hitem with rfl | rfl | rfl <;> trivial

def forkHeader : Header := headerOn none 2

/-- The body of the connected block comes again; then a body that is wrong for the block it was
asked for, and one with another header. -/
def lateItems : List (NodeItem Rat) :=
  [.blockResponse (pairHash baseHeader) baseHeader emptyBody,
    .blockResponse (pairHash baseHeader) forkHeader wrongBody,
    .blockResponse (pairHash forkHeader) forkHeader wrongBody]

theorem not_active_fork {node : Node Rat} (htip : node.state.tip = some (pairHash baseHeader))
    (hheader : node.archive.headers[pairHash baseHeader]? = some baseHeader) :
    ¬ node.Active (pairHash forkHeader) := by
  rintro ⟨t, ht, hon⟩
  obtain rfl := Option.some.inj (htip.symm.trans ht)
  rcases ArchiveDb.eq_or_onChain hheader hon with heq | ⟨p, hp, -⟩
  · exact absurd heq (by decide)
  · cases hp

theorem keepsBodies_lateItems :
    KeepsBodiesRun rootLibrary ⟨true, 2⟩ sampleBundleLib Std.ExtTreeMap.toList
      (treeHashes rootRows) (.new Rat) (firstBlockItems ++ lateItems) := by
  refine keepsBodiesRun_append ?_ ⟨fun _ _ => rfl, ?_, ?_, trivial⟩
  · exact ⟨trivial, trivial, trivial, trivial, trivial, trivial, fun _ _ => rfl, trivial, trivial⟩
  · intro hhash
    exact absurd hhash (by decide)
  · intro _ hactive
    refine absurd hactive (not_active_fork ?_ ?_)
    · decide +kernel
    · decide +kernel

theorem bodiesAuthentic_lateItems :
    let node := run rootLibrary ⟨true, 2⟩ sampleBundleLib Std.ExtTreeMap.toList
      (treeHashes rootRows) (.new Rat) (firstBlockItems ++ lateItems)
    node.state.tip = some (pairHash baseHeader) ∧ node.BodiesAuthentic rootLibrary ∧
      node.disconnectTip rootLibrary ≠ .error (.state (.invalidBody 0 1)) := by
  intro node
  have hauth : ∀ item ∈ firstBlockItems ++ lateItems, item.Authentic (treeHashes rootRows) := by
    intro item hitem
    rcases List.mem_append.mp hitem with hitem | hitem
    · exact authentic_firstBlockItems item hitem
    · simp only [lateItems, List.mem_cons, List.not_mem_nil, or_false] at hitem
      rcases hitem with rfl | rfl | rfl <;> trivial
  obtain ⟨hauthentic, hdisconnect⟩ := bodiesAuthentic_of_run rfl hauth keepsBodies_lateItems
  exact ⟨by decide +kernel, hauthentic, hdisconnect 0 1⟩

/-- A second response with the header of the connected block and another body takes the place
of the body that was connected, and the tip is stuck. -/
theorem wrongBody_stored :
    let node := run rootLibrary ⟨true, 2⟩ sampleBundleLib Std.ExtTreeMap.toList
      (treeHashes rootRows) (.new Rat)
      (firstBlockItems ++ [.blockResponse (pairHash baseHeader) baseHeader wrongBody])
    ¬ node.BodiesAuthentic rootLibrary ∧
      node.disconnectTip rootLibrary = .error (.state (.invalidBody 0 1)) := by
  intro node
  constructor
  · intro hauthentic
    have htip : node.state.tip = some (pairHash baseHeader) := by decide +kernel
    have hheader : node.archive.headers[pairHash baseHeader]? = some baseHeader := by
      decide +kernel
    have hbody : node.archive.bodies[pairHash baseHeader]? = some wrongBody := by
      decide +kernel
    have hroot := hauthentic _ baseHeader wrongBody ⟨_, htip, 0, rfl⟩ hheader hbody
    revert hroot
    decide
  · have herror : (match node.disconnectTip rootLibrary with
        | .ok _ => false
        | .error e => decide (e = .state (.invalidBody 0 1))) = true := by
      decide +kernel
    revert herror
    cases node.disconnectTip rootLibrary with
    | ok next => exact fun h => nomatch h
    | error e => exact fun h => congrArg Except.error (of_decide_eq_true h)

end NodeItem

end Truthcoin.Archiving
