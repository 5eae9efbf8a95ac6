import Truthcoin.BmmOrder

/-!
# Runs of the archive

Bodies come and go and blocks are invalidated with all their descendants. What holds of
headers, mainchain blocks and BMM results holds after every run of all operations,
whatever happens to the sidechain tips.
-/

namespace Truthcoin.Archiving

open Truthcoin.Types Truthcoin.Table Truthcoin.Fallible Truthcoin.Blocks
open Truthcoin.Mainchain Truthcoin.Lineage

variable {B : Type}

namespace ArchiveDb

variable {hashes : Hashes} {db db' : ArchiveDb B}

/-- Only bodies and sidechain tips change. -/
structure SameHeaders (db db' : ArchiveDb B) : Prop where
  main : SameMain db db'
  side : SameSide db db'
  bmm : db'.bmmResults = db.bmmResults

theorem putBody_eq_ok {b : BlockHash} {body : B} (h : db.putBody b body = .ok db') :
    ∃ header, db.headers[b]? = some header ∧ ∃ tips, db' = { db with
      bodies := db.bodies.insert b body, sideTips := tips } := by
  unfold putBody at h
  simp only [bind_eq_ok_iff, getHeader, okOr_eq_ok_iff] at h
  obtain ⟨header, hheader, -, -, tips, -, hdb⟩ := h
  exact ⟨header, hheader, tips, (Except.ok.inj hdb).symm⟩

theorem deleteBody_eq_ok {b : BlockHash} (h : db.deleteBody b = .ok db') :
    ∃ tips, db.disconnectQueue db.sideTips [b] = .ok tips ∧
      db' = { db with bodies := db.bodies.erase b, sideTips := tips } := by
  obtain ⟨tips, htips, hdb⟩ := bind_eq_ok_iff.mp h
  exact ⟨tips, htips, (Except.ok.inj hdb).symm⟩

theorem BmmExact.of_headers (hdb : db.BmmExact hashes) (hmain : SameMain db db')
    (hbmm : db'.bmmResults = db.bmmResults) (hheaders : ∀ (b : BlockHash) (header : Header),
      db'.headers[b]? = some header → db.headers[b]? = some header) : db'.BmmExact hashes := by
  have hver (b : BlockHash) (a : MainBlockHash) : db'.Verified b a ↔ db.Verified b a := by
    rw [Verified, Verified, getBmmResults, getBmmResults, hbmm]
  have hexpected (b : BlockHash) (header : Header) (a : MainBlockHash) :
      db'.Expected b header a ↔ db.Expected b header a := by
    unfold Expected Commits NamedBy ParentVerified
    simp only [hver, hmain.blockInfos, hmain.headerInfos, hmain.mainIndex]
  constructor
  · intro b a result hrow
    rw [getBmmResults, hbmm] at hrow
    rw [hmain.blockInfos]
    exact hdb.known hrow
  · intro header a hv
    exact (hexpected _ _ _).mpr (hdb.sound ((hver _ _).mp hv))
  · intro b header a hheader hexp
    exact (hver _ _).mpr (hdb.complete (hheaders b header hheader) ((hexpected _ _ _).mp hexp))

theorem BmmInvariant.sameHeaders (hdb : db.BmmInvariant hashes) (h : SameHeaders db db')
    (hbody : ∀ {b}, b ∈ db'.bodies → b ∈ db'.headers) : db'.BmmInvariant hashes where
  main := h.main.mainSound hdb.main
  side := h.side.sideSound hdb.side hbody
  bmm := hdb.bmm.of_headers h.main h.bmm fun _ _ hrow => h.side.headers ▸ hrow

theorem BmmInvariant.putBody (hdb : db.BmmInvariant hashes) {b : BlockHash} {body : B}
    (h : db.putBody b body = .ok db') : db'.BmmInvariant hashes := by
  obtain ⟨header, hheader, tips, rfl⟩ := putBody_eq_ok h
  refine hdb.sameHeaders ⟨⟨rfl, rfl, rfl, rfl, rfl, rfl⟩, ⟨rfl, rfl, rfl, rfl, id⟩, rfl⟩ ?_
  intro b' hmem
  obtain ⟨stored, hstored⟩ := mem_iff_lookup.mp hmem
  change (db.bodies.insert b body)[b']? = some stored at hstored
  rw [lookup_insert] at hstored
  split at hstored
  · rename_i heq
    exact mem_iff_lookup.mpr ⟨header, heq ▸ hheader⟩
  · exact hdb.side.body (mem_iff_lookup.mpr ⟨stored, hstored⟩)

theorem BmmInvariant.deleteBody (hdb : db.BmmInvariant hashes) {b : BlockHash}
    (h : db.deleteBody b = .ok db') : db'.BmmInvariant hashes := by
  obtain ⟨tips, -, rfl⟩ := deleteBody_eq_ok h
  refine hdb.sameHeaders ⟨⟨rfl, rfl, rfl, rfl, rfl, rfl⟩, ⟨rfl, rfl, rfl, rfl, id⟩, rfl⟩ ?_
  intro b' hmem
  obtain ⟨stored, hstored⟩ := mem_iff_lookup.mp hmem
  change (db.bodies.erase b)[b']? = some stored at hstored
  rw [lookup_erase] at hstored
  split at hstored
  · cases hstored
  · exact hdb.side.body (mem_iff_lookup.mpr ⟨stored, hstored⟩)

theorem BmmInvariant.withSideTips (hdb : db.BmmInvariant hashes) (tips : SideTips) :
    ({ db with sideTips := tips } : ArchiveDb B).BmmInvariant hashes :=
  hdb.sameHeaders ⟨⟨rfl, rfl, rfl, rfl, rfl, rfl⟩, ⟨rfl, rfl, rfl, rfl, id⟩, rfl⟩ hdb.side.body

/-- The blocks of `D` are pruned, and blocks whose parent is pruned but that are not wait on
the stack. All of them are the root or below it. -/
structure Pruned (db db' : ArchiveDb B) (root : BlockHash) (D : BlockHash → Prop)
    (stack : List BlockHash) : Prop where
  main : SameMain db db'
  bmm : db'.bmmResults = db.bmmResults
  tips : db'.sideTips = db.sideTips
  gone : ∀ h, D h → db'.headers[h]? = none ∧ db'.blockHashToHeight[h]? = none ∧
    db'.bodies[h]? = none ∧ db'.successors[some h]? = none
  kept : ∀ h, ¬ D h → db'.headers[h]? = db.headers[h]? ∧
    db'.blockHashToHeight[h]? = db.blockHashToHeight[h]? ∧
    db'.exponentialAncestors[h]? = db.exponentialAncestors[h]? ∧ db'.bodies[h]? = db.bodies[h]?
  successors : ∀ p : Option BlockHash, (∀ h, p = some h → ¬ D h) → ∀ l : List BlockHash,
    db.successors[p]? = some l →
      ∃ l', db'.successors[p]? = some l' ∧ l'.Nodup ∧ ∀ b, b ∈ l' ↔ b ∈ l ∧ ¬ D b
  known : ∀ (p : Option BlockHash) (l' : List BlockHash), db'.successors[p]? = some l' →
    ∃ l, db.successors[p]? = some l
  waiting : ∀ (h p : BlockHash) (header : Header), db.headers[h]? = some header →
    header.prevSideHash = some p → D p → D h ∨ h ∈ stack
  source : ∀ h, D h ∨ h ∈ stack → h = root ∨ ∃ header p, db.headers[h]? = some header ∧
    header.prevSideHash = some p ∧ D p

theorem Pruned.start (hdb : db.SideSound hashes) (b : BlockHash) :
    Pruned db db b (fun _ => False) [b] where
  main := ⟨rfl, rfl, rfl, rfl, rfl, rfl⟩
  bmm := rfl
  tips := rfl
  gone h hD := hD.elim
  kept h _ := ⟨rfl, rfl, rfl, rfl⟩
  successors p _ l hl := ⟨l, hl, (hdb.successors hl).1, fun b => by simp⟩
  known p l' hl := ⟨l', hl⟩
  waiting h p header _ _ hD := hD.elim
  source h hmem := .inl (List.mem_singleton.mp (hmem.resolve_left id))

theorem lookup_unlinkSuccessor {successors : Table (Option BlockHash) (List BlockHash)}
    {header : Option Header} {b : BlockHash} {p : Option BlockHash} :
    (unlinkSuccessor successors header b)[p]? =
      if header.map Header.prevSideHash = some p then
        successors[p]?.map fun l => l.erase b
      else successors[p]? := by
  cases header with
  | none => rfl
  | some header =>
      rw [unlinkSuccessor]
      simp only [Option.map_some, Option.some.injEq]
      by_cases heq : header.prevSideHash = p
      · subst heq
        rw [if_pos rfl]
        cases hrow : successors[header.prevSideHash]? with
        | none => exact hrow
        | some l => exact lookup_insert.trans (if_pos rfl)
      · rw [if_neg heq]
        cases hrow : successors[header.prevSideHash]? with
        | none => rfl
        | some l => exact lookup_insert.trans (if_neg fun h => heq h.symm)

theorem successors_invalidateOne {b : BlockHash} (p : Option BlockHash) :
    (db.invalidateOne b).successors[p]? =
      if p = some b then none else (unlinkSuccessor db.successors db.headers[b]? b)[p]? :=
  lookup_erase

section

variable {root b : BlockHash} {D : BlockHash → Prop} {stack : List BlockHash}

theorem Pruned.kept_header (h : Pruned db db' root D stack) {stored : Header}
    (hrow : db'.headers[b]? = some stored) : ¬ D b ∧ db.headers[b]? = some stored := by
  have hnot : ¬ D b := by
    intro hD
    rw [(h.gone b hD).1] at hrow
    cases hrow
  exact ⟨hnot, (h.kept b hnot).1 ▸ hrow⟩

theorem Pruned.own_successors (hside : db.SideSound hashes) (h : Pruned db db' root D stack) :
    (unlinkSuccessor db'.successors db'.headers[b]? b)[some b]? = db'.successors[some b]? := by
  -- a block is not its own parent, so its own successors are not unlinked
  rw [lookup_unlinkSuccessor, if_neg]
  intro heq
  obtain ⟨stored, hrow, hprev⟩ := Option.map_eq_some_iff.mp heq
  exact (hside.parent (h.kept_header hrow).2 hprev).2 rfl

theorem Pruned.gone_invalidateOne (h : Pruned db db' root D stack) {x : BlockHash}
    (hx : D x ∨ x = b) :
    (db'.invalidateOne b).headers[x]? = none ∧
      (db'.invalidateOne b).blockHashToHeight[x]? = none ∧
      (db'.invalidateOne b).bodies[x]? = none ∧
      (db'.invalidateOne b).successors[some x]? = none := by
  rcases hx with hD | rfl
  · obtain ⟨hgone, hheight, hbody, hsucc⟩ := h.gone x hD
    refine ⟨?_, ?_, ?_, ?_⟩
    · exact lookup_erase.trans (by rw [hgone, ite_self])
    · exact lookup_erase.trans (by rw [hheight, ite_self])
    · exact lookup_erase.trans (by rw [hbody, ite_self])
    · rw [successors_invalidateOne, lookup_unlinkSuccessor, hsucc]
      simp
  · refine ⟨lookup_erase.trans (if_pos rfl), lookup_erase.trans (if_pos rfl),
      lookup_erase.trans (if_pos rfl), ?_⟩
    rw [successors_invalidateOne, if_pos rfl]

theorem Pruned.successors_invalidateOne (hside : db.SideSound hashes)
    (h : Pruned db db' root D stack) {p : Option BlockHash} {l : List BlockHash}
    (hp : ∀ x, p = some x → ¬ (D x ∨ x = b)) (hl : db.successors[p]? = some l) :
    ∃ l', (db'.invalidateOne b).successors[p]? = some l' ∧ l'.Nodup ∧
      ∀ x, x ∈ l' ↔ x ∈ l ∧ ¬ (D x ∨ x = b) := by
  obtain ⟨l', hl', hnodup, hmem⟩ := h.successors p (fun x hx hD => hp x hx (.inl hD)) l hl
  have hpb : p ≠ some b := fun heq => hp b heq (.inr rfl)
  rw [ArchiveDb.successors_invalidateOne, if_neg hpb, lookup_unlinkSuccessor, hl']
  by_cases hlisted : db'.headers[b]?.map Header.prevSideHash = some p
  · refine ⟨l'.erase b, if_pos hlisted, hnodup.erase b, fun x => ?_⟩
    rw [hnodup.mem_erase_iff, hmem, not_or]
    tauto
  · refine ⟨l', if_neg hlisted, hnodup, fun x => ?_⟩
    rw [hmem, not_or]
    constructor
    · rintro ⟨hx, hD⟩
      refine ⟨hx, hD, ?_⟩
      rintro rfl
      obtain ⟨stored, hstored, hprev⟩ := ((hside.successors hl).2 x).mp hx
      apply hlisted
      rw [(h.kept x hD).1, hstored, Option.map_some, hprev]
    · rintro ⟨hx, hD, -⟩
      exact ⟨hx, hD⟩

theorem Pruned.known_invalidateOne (h : Pruned db db' root D stack) {p : Option BlockHash}
    {l' : List BlockHash} (hl' : (db'.invalidateOne b).successors[p]? = some l') :
    ∃ l, db.successors[p]? = some l := by
  rw [ArchiveDb.successors_invalidateOne] at hl'
  split at hl'
  · cases hl'
  · rw [lookup_unlinkSuccessor] at hl'
    split at hl'
    · obtain ⟨l, hl, -⟩ := Option.map_eq_some_iff.mp hl'
      exact h.known p l hl
    · exact h.known p l' hl'

theorem Pruned.waiting_invalidateOne (hside : db.SideSound hashes)
    (h : Pruned db db' root D (b :: stack)) {x p : BlockHash} {header : Header}
    (hx : db.headers[x]? = some header) (hprev : header.prevSideHash = some p)
    (hp : D p ∨ p = b) :
    (D x ∨ x = b) ∨ x ∈ (db'.successors[some b]?.getD []).reverse ++ stack := by
  by_cases hxb : x = b
  · exact .inl (.inr hxb)
  by_cases hxD : D x
  · exact .inl (.inl hxD)
  right
  rw [List.mem_append, List.mem_reverse]
  by_cases hpD : D p
  · have hwait := (h.waiting x p header hx hprev hpD).resolve_left hxD
    exact .inr ((List.mem_cons.mp hwait).resolve_left hxb)
  · obtain rfl := hp.resolve_left hpD
    left
    obtain ⟨l, hl⟩ := mem_iff_lookup.mp (hside.successorsStored (hside.parent hx hprev).1)
    obtain ⟨l', hl', -, hmem⟩ := h.successors (some p)
      (fun y hy => by rw [← Option.some.inj hy]; exact hpD) l hl
    rw [hl', Option.getD_some, hmem]
    exact ⟨((hside.successors hl).2 x).mpr ⟨header, hx, hprev⟩, hxD⟩

theorem Pruned.parent_of_pushed (hside : db.SideSound hashes) (h : Pruned db db' root D stack)
    {x : BlockHash} (hx : x ∈ db'.successors[some b]?.getD []) :
    ∃ header, db.headers[x]? = some header ∧ header.prevSideHash = some b := by
  cases hrow : db'.successors[some b]? with
  | none =>
      rw [hrow] at hx
      exact absurd hx List.not_mem_nil
  | some l' =>
      have hnot : ∀ y, some b = some y → ¬ D y := by
        rintro y hy hD
        rw [Option.some.inj hy, (h.gone y hD).2.2.2] at hrow
        cases hrow
      obtain ⟨l, hl⟩ := h.known (some b) l' hrow
      obtain ⟨l'', hl'', -, hmem⟩ := h.successors (some b) hnot l hl
      obtain rfl := Option.some.inj (hrow.symm.trans hl'')
      rw [hrow, Option.getD_some, hmem] at hx
      exact ((hside.successors hl).2 x).mp hx.1

theorem Pruned.source_invalidateOne (hside : db.SideSound hashes)
    (h : Pruned db db' root D (b :: stack)) {x : BlockHash}
    (hx : (D x ∨ x = b) ∨ x ∈ (db'.successors[some b]?.getD []).reverse ++ stack) :
    x = root ∨ ∃ header p, db.headers[x]? = some header ∧ header.prevSideHash = some p ∧
      (D p ∨ p = b) := by
  have hold (hx : D x ∨ x ∈ b :: stack) : x = root ∨ ∃ header p,
      db.headers[x]? = some header ∧ header.prevSideHash = some p ∧ (D p ∨ p = b) := by
    rcases h.source x hx with rfl | ⟨header, p, hheader, hprev, hp⟩
    · exact .inl rfl
    · exact .inr ⟨header, p, hheader, hprev, .inl hp⟩
  rcases hx with (hD | rfl) | hx
  · exact hold (.inl hD)
  · exact hold (.inr List.mem_cons_self)
  rcases List.mem_append.mp hx with hx | hx
  · obtain ⟨header, hheader, hprev⟩ := h.parent_of_pushed hside (List.mem_reverse.mp hx)
    exact .inr ⟨header, b, hheader, hprev, .inr rfl⟩
  · exact hold (.inr (List.mem_cons_of_mem _ hx))

theorem Pruned.invalidateOne (hside : db.SideSound hashes)
    (h : Pruned db db' root D (b :: stack)) :
    Pruned db (db'.invalidateOne b) root (fun x => D x ∨ x = b)
      (((unlinkSuccessor db'.successors db'.headers[b]? b)[some b]?.getD []).reverse ++ stack) := by
  rw [h.own_successors hside]
  constructor
  · exact ⟨h.main.headerInfos, h.main.heights, h.main.rows, h.main.blockInfos, h.main.work,
      h.main.successors⟩
  · exact h.bmm
  · exact h.tips
  · exact fun x hx => h.gone_invalidateOne hx
  · intro x hx
    rw [not_or] at hx
    obtain ⟨hheaders, hheights, hrows, hbodies⟩ := h.kept x hx.1
    exact ⟨(lookup_erase.trans (if_neg hx.2)).trans hheaders,
      (lookup_erase.trans (if_neg hx.2)).trans hheights,
      (lookup_erase.trans (if_neg hx.2)).trans hrows,
      (lookup_erase.trans (if_neg hx.2)).trans hbodies⟩
  · exact fun p hp l hl => h.successors_invalidateOne hside hp hl
  · exact fun p l' hl' => h.known_invalidateOne hl'
  · exact fun x p header hx hprev hp => h.waiting_invalidateOne hside hx hprev hp
  · exact fun x hx => h.source_invalidateOne hside hx

end

theorem Pruned.invalidateStack (hside : db.SideSound hashes) {D : BlockHash → Prop}
    {root : BlockHash} {stack : List BlockHash} (h : Pruned db db' root D stack) :
    ∃ D', (∀ x, D x → D' x) ∧ (∀ x ∈ stack, D' x) ∧
      Pruned db (db'.invalidateStack stack) root D' [] := by
  induction db', stack using ArchiveDb.invalidateStack.induct generalizing D with
  | case1 db' =>
      rw [ArchiveDb.invalidateStack]
      exact ⟨D, fun x hx => hx, fun x hx => absurd hx List.not_mem_nil, h⟩
  | case2 db' b stack _ hnone =>
      rename_i ih
      have hone := h.invalidateOne hside
      rw [hnone, Option.getD_none, List.reverse_nil, List.nil_append] at hone
      obtain ⟨D', hD, hstack, hpruned⟩ := ih hone
      refine ⟨D', fun x hx => hD x (.inl hx), ?_, ?_⟩
      · intro x hx
        rcases List.mem_cons.mp hx with rfl | hx
        · exact hD x (.inr rfl)
        · exact hstack x hx
      · rw [ArchiveDb.invalidateStack]
        split
        · exact hpruned
        · rename_i children hsome
          cases hnone.symm.trans hsome
  | case3 db' b stack _ children hsome =>
      rename_i ih
      have hone := h.invalidateOne hside
      rw [hsome, Option.getD_some] at hone
      obtain ⟨D', hD, hstack, hpruned⟩ := ih hone
      refine ⟨D', fun x hx => hD x (.inl hx), ?_, ?_⟩
      · intro x hx
        rcases List.mem_cons.mp hx with rfl | hx
        · exact hD x (.inr rfl)
        · exact hstack x (List.mem_append_right _ hx)
      · rw [ArchiveDb.invalidateStack]
        split
        · rename_i hnone
          cases hsome.symm.trans hnone
        · rename_i children' hsome'
          obtain rfl := Option.some.inj (hsome.symm.trans hsome')
          exact hpruned

theorem pruned_invalidateBlock (hside : db.SideSound hashes) (b : BlockHash) :
    ∃ D, D b ∧ Pruned db (db.invalidateBlock b) b D [] := by
  obtain ⟨D, -, hstack, hpruned⟩ := (Pruned.start hside b).invalidateStack hside
  exact ⟨D, hstack b List.mem_cons_self, hpruned⟩

section

variable {root : BlockHash} {D : BlockHash → Prop}

theorem Pruned.not_gone (h : Pruned db db' root D []) {b : BlockHash} {header : Header}
    (hrow : db'.headers[b]? = some header) : ¬ D b ∧ db.headers[b]? = some header := by
  have hnot : ¬ D b := by
    intro hD
    rw [(h.gone b hD).1] at hrow
    cases hrow
  exact ⟨hnot, (h.kept b hnot).1 ▸ hrow⟩

theorem Pruned.parent_kept (h : Pruned db db' root D []) {b p : BlockHash} {header : Header}
    (hrow : db.headers[b]? = some header) (hp : header.prevSideHash = some p) (hnot : ¬ D b) :
    ¬ D p :=
  fun hD => (h.waiting b p header hrow hp hD).elim hnot List.not_mem_nil

theorem Pruned.sideSound (hdb : db.SideSound hashes) (h : Pruned db db' root D []) :
    db'.SideSound hashes := by
  have hheight {b : BlockHash} {n : Nat} (hn : db'.sideIndex.height b = some n) :
      ¬ D b ∧ db.sideIndex.height b = some n := by
    have hnot : ¬ D b := by
      intro hD
      change db'.blockHashToHeight[b]? = some n at hn
      rw [(h.gone b hD).2.1] at hn
      cases hn
    exact ⟨hnot, (h.kept b hnot).2.1.symm.trans hn⟩
  have hparent {b : BlockHash} {q : Option BlockHash}
      (hq : db'.sideIndex.parent b = some q) :
      ¬ D b ∧ db.sideIndex.parent b = some q := by
    obtain ⟨header, hrow, rfl⟩ := Option.map_eq_some_iff.mp hq
    obtain ⟨hnot, hold⟩ := h.not_gone hrow
    refine ⟨hnot, ?_⟩
    show db.headers[b]?.map Header.prevSideHash = _
    rw [hold, Option.map_some]
  have hback {b : BlockHash} (hnot : ¬ D b) :
      db'.sideIndex.parent b = db.sideIndex.parent b ∧
        db'.sideIndex.height b = db.sideIndex.height b := by
    obtain ⟨hheaders, hheights, -⟩ := h.kept b hnot
    exact ⟨congrArg (Option.map Header.prevSideHash) hheaders, hheights⟩
  have hrooted : db'.sideIndex.Rooted := by
    constructor
    · intro b n hn
      obtain ⟨hnot, hold⟩ := hheight hn
      obtain ⟨q, hq⟩ := hdb.rooted.stored hold
      exact ⟨q, (hback hnot).1.trans hq⟩
    · intro b hfirst
      obtain ⟨hnot, hold⟩ := hparent hfirst
      exact (hback hnot).2.trans (hdb.rooted.first hold)
    · intro b p hchild
      obtain ⟨hnot, hold⟩ := hparent hchild
      obtain ⟨n, hp, hb⟩ := hdb.rooted.child hold
      obtain ⟨header, hrow, hprev⟩ := Option.map_eq_some_iff.mp hold
      exact ⟨n, (hback (h.parent_kept hrow hprev hnot)).2.trans hp, (hback hnot).2.trans hb⟩
  have hlisted {p : Option BlockHash} {l : List BlockHash} (hl : db'.successors[p]? = some l) :
      ∀ b, p = some b → ¬ D b := by
    rintro b rfl hD
    rw [(h.gone b hD).2.2.2] at hl
    cases hl
  constructor
  · exact hrooted
  · intro b n hn
    obtain ⟨hnot, hold⟩ := hheight hn
    obtain ⟨row, hrow, hentries⟩ := hdb.rows hold
    refine ⟨row, (h.kept b hnot).2.2.1.trans hrow, ?_⟩
    rwa [← Index.ancestors_mono hrooted hdb.rooted (fun b q hq => (hparent hq).2) hn]
  · intro b header hrow
    obtain ⟨hhash, hprev⟩ := hdb.header (h.not_gone hrow).2
    rw [h.main.headerInfos]
    exact ⟨hhash, hprev⟩
  · intro p l' hl'
    obtain ⟨l, hl⟩ := h.known p l' hl'
    obtain ⟨l'', hl'', hnodup, hmem⟩ := h.successors p (hlisted hl') l hl
    obtain rfl := Option.some.inj (hl'.symm.trans hl'')
    refine ⟨hnodup, fun b => ?_⟩
    rw [hmem, (hdb.successors hl).2]
    constructor
    · rintro ⟨⟨header, hrow, hp⟩, hnot⟩
      exact ⟨header, (h.kept b hnot).1.trans hrow, hp⟩
    · rintro ⟨header, hrow, hp⟩
      obtain ⟨hnot, hold⟩ := h.not_gone hrow
      exact ⟨⟨header, hold, hp⟩, hnot⟩
  · intro b hmem
    obtain ⟨header, hrow⟩ := mem_iff_lookup.mp hmem
    obtain ⟨hnot, hold⟩ := h.not_gone hrow
    obtain ⟨l, hl⟩ := mem_iff_lookup.mp (hdb.successorsStored (mem_iff_lookup.mpr ⟨_, hold⟩))
    obtain ⟨l', hl', -⟩ := h.successors (some b) (fun x hx => Option.some.inj hx ▸ hnot) l hl
    exact mem_iff_lookup.mpr ⟨l', hl'⟩
  · obtain ⟨l, hl⟩ := mem_iff_lookup.mp hdb.genesisStored
    obtain ⟨l', hl', -⟩ := h.successors none (fun x hx => by cases hx) l hl
    exact mem_iff_lookup.mpr ⟨l', hl'⟩
  · intro b hmem
    obtain ⟨body, hrow⟩ := mem_iff_lookup.mp hmem
    have hnot : ¬ D b := by
      intro hD
      rw [(h.gone b hD).2.2.1] at hrow
      cases hrow
    obtain ⟨hheaders, -, -, hbodies⟩ := h.kept b hnot
    obtain ⟨header, hheader⟩ := mem_iff_lookup.mp
      (hdb.body (mem_iff_lookup.mpr ⟨body, hbodies ▸ hrow⟩))
    exact mem_iff_lookup.mpr ⟨header, hheaders.trans hheader⟩

end

theorem BmmInvariant.invalidateBlock (hdb : db.BmmInvariant hashes) (b : BlockHash) :
    (db.invalidateBlock b).BmmInvariant hashes := by
  obtain ⟨D, -, hpruned⟩ := pruned_invalidateBlock hdb.side b
  exact ⟨hpruned.main.mainSound hdb.main, hpruned.sideSound hdb.side,
    hdb.bmm.of_headers hpruned.main hpruned.bmm fun _ _ hrow => (hpruned.not_gone hrow).2⟩

/-- The archives that the operations lead to from a new one, whatever is done to the tips. -/
inductive Reachable (hashes : Hashes) : ArchiveDb B → Prop where
  | new : Reachable hashes new
  | putHeader {db db' : ArchiveDb B} {header : Header} (hdb : Reachable hashes db)
      (h : db.putHeader hashes.headerHash header = .ok db') : Reachable hashes db'
  | putMainHeaderInfo {db db' : ArchiveDb B} {info : MainHeaderInfo}
      (hdb : Reachable hashes db) (hauth : AuthenticHeader hashes info)
      (h : db.putMainHeaderInfo info = .ok db') : Reachable hashes db'
  | putMainBlockInfo {db db' : ArchiveDb B} {main : MainBlockHash}
      (hdb : Reachable hashes db)
      (h : db.putMainBlockInfo main (hashes.mainBlock main) = .ok db') : Reachable hashes db'
  | putBody {db db' : ArchiveDb B} {b : BlockHash} {body : B} (hdb : Reachable hashes db)
      (h : db.putBody b body = .ok db') : Reachable hashes db'
  | deleteBody {db db' : ArchiveDb B} {b : BlockHash} (hdb : Reachable hashes db)
      (h : db.deleteBody b = .ok db') : Reachable hashes db'
  | invalidateBlock {db : ArchiveDb B} {b : BlockHash} (hdb : Reachable hashes db) :
      Reachable hashes (db.invalidateBlock b)
  | moveTips {db : ArchiveDb B} {tips : SideTips} (hdb : Reachable hashes db) :
      Reachable hashes { db with sideTips := tips }

theorem Reachable.apply (hdb : Reachable hashes db) {op : BmmOp} (hauth : op.Authentic hashes)
    (h : op.apply hashes db = .ok db') : Reachable hashes db' := by
  cases op with
  | putHeader header => exact hdb.putHeader h
  | putMainHeaderInfo info => exact hdb.putMainHeaderInfo hauth h
  | putMainBlockInfo main block =>
      obtain rfl : block = hashes.mainBlock main := hauth
      exact hdb.putMainBlockInfo h

theorem Reachable.foldl (hdb : Reachable hashes db) {ops : List BmmOp}
    (hops : ∀ op ∈ ops, op.Authentic hashes) :
    Reachable hashes (ops.foldl (BmmOp.step hashes) db) := by
  induction ops generalizing db with
  | nil => exact hdb
  | cons op ops ih =>
      rw [List.foldl_cons]
      apply ih _ fun op' hop' => hops op' (List.mem_cons_of_mem _ hop')
      rw [BmmOp.step]
      cases h : op.apply hashes db with
      | error e => exact hdb
      | ok db' => exact hdb.apply (hops op List.mem_cons_self) h

theorem Reachable.invariant (h : Reachable hashes db) : db.BmmInvariant hashes := by
  induction h with
  | new => exact ⟨mainSound_new, sideSound_new, bmmExact_new⟩
  | @putHeader db db' header hdb h ih =>
      exact ih.apply (show (BmmOp.putHeader header).Authentic hashes from trivial) h
  | @putMainHeaderInfo db db' info hdb hauth h ih =>
      exact ih.apply (show (BmmOp.putMainHeaderInfo info).Authentic hashes from hauth) h
  | @putMainBlockInfo db db' main hdb h ih =>
      exact ih.apply (show (BmmOp.putMainBlockInfo main _).Authentic hashes from rfl) h
  | putBody hdb h ih => exact ih.putBody h
  | deleteBody hdb h ih => exact ih.deleteBody h
  | invalidateBlock hdb ih => exact ih.invalidateBlock _
  | moveTips hdb ih => exact ih.withSideTips _

end ArchiveDb

/-- Mainchain blocks numbered from one, each on the parent of its row. -/
structure MainRow where
  parent : MainBlockHash
  height : Nat
  work : Nat
  commitment : Option BlockHash

def treeHashes (rows : List MainRow) : Hashes where
  headerHash := pairHash
  headerHash_injective := pairHash_injective
  mainHeader h :=
    let row := (rows[h - 1]?).getD ⟨0, 0, 0, none⟩
    mainHeaderOn h row.parent row.height row.work
  mainBlock h := ⟨(rows[h - 1]?).bind MainRow.commitment, []⟩

open BmmOp in
/-- The mainchain arrives before the sidechain headers. -/
def treeOps (rows : List MainRow) (headers : List Header) : List BmmOp :=
  (List.range rows.length).flatMap (fun h =>
    [putMainHeaderInfo ((treeHashes rows).mainHeader (h + 1)),
      putMainBlockInfo (h + 1) ((treeHashes rows).mainBlock (h + 1))]) ++ headers.map putHeader

def treeArchive (rows : List MainRow) (headers : List Header) : ArchiveDb Unit :=
  (treeOps rows headers).foldl (BmmOp.step (treeHashes rows)) .new

theorem authentic_treeOps (rows : List MainRow) (headers : List Header) :
    ∀ op ∈ treeOps rows headers, op.Authentic (treeHashes rows) := by
  intro op hop
  rcases List.mem_append.mp hop with hop | hop
  · obtain ⟨h, -, hop⟩ := List.mem_flatMap.mp hop
    simp only [List.mem_cons, List.not_mem_nil, or_false] at hop
    rcases hop with rfl | rfl
    · exact ⟨rfl, Nat.succ_ne_zero h⟩
    · rfl
  · obtain ⟨header, -, rfl⟩ := List.mem_map.mp hop
    trivial

theorem reachable_treeArchive (rows : List MainRow) (headers : List Header) :
    ArchiveDb.Reachable (treeHashes rows) (treeArchive rows headers) :=
  .foldl .new (authentic_treeOps rows headers)

end Truthcoin.Archiving
