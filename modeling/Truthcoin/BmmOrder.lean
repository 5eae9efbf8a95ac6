import Truthcoin.SampleArchive

/-!
# BMM verification does not depend on the order of arrival

Headers, mainchain headers and mainchain blocks may arrive in any order that stores
ancestors first. A sidechain block is verified at exactly the mainchain blocks that
commit to it, that are children of the block it names, and at an ancestor of which
its parent is verified.
-/

namespace Truthcoin.Archiving

open Truthcoin.Types Truthcoin.Table Truthcoin.Fallible Truthcoin.Blocks
open Truthcoin.Mainchain Truthcoin.Lineage

variable {B : Type}

namespace ArchiveDb

section

variable (db : ArchiveDb B)

/-- The stored result of a sidechain block at a mainchain block is verified. -/
def Verified (block : BlockHash) (main : MainBlockHash) : Prop :=
  (db.getBmmResults block)[main]? = some .verified

/-- A stored mainchain block commits to a sidechain block. -/
def Commits (main : MainBlockHash) (block : BlockHash) : Prop :=
  ∃ info, db.mainBlockInfos[main]? = some info ∧ info.bmmCommitment = some block

/-- A mainchain block is a child of the one that a header names. -/
def NamedBy (header : Header) (main : MainBlockHash) : Prop :=
  ∃ info, db.mainHeaderInfos[main]? = some info ∧ info.prevBlockHash = header.prevMainHash

/-- The parent, if there is one, is verified at a mainchain block or at an ancestor. -/
def ParentVerified (parent : Option BlockHash) (main : MainBlockHash) : Prop :=
  ∀ p, parent = some p → ∃ a ∈ db.mainIndex.ancestors main, db.Verified p a

/-- What it takes for a sidechain block to be verified at a mainchain block. -/
def Expected (block : BlockHash) (header : Header) (main : MainBlockHash) : Prop :=
  db.Commits main block ∧ db.NamedBy header main ∧ db.ParentVerified header.prevSideHash main

end

/-- Results stand at stored mainchain blocks. They are sound for every header, known or
not, and complete for the known ones. -/
structure BmmExact (hashes : Hashes) (db : ArchiveDb B) : Prop where
  known : ∀ {block main result}, (db.getBmmResults block)[main]? = some result →
    main ∈ db.mainBlockInfos
  sound : ∀ {header main}, db.Verified (hashes.headerHash header) main →
    db.Expected (hashes.headerHash header) header main
  complete : ∀ {block header main}, db.headers[block]? = some header →
    db.Expected block header main → db.Verified block main

variable {hashes : Hashes} {db db' : ArchiveDb B}

/-- Descent from each known mainchain block is decided. -/
def Decides (db : ArchiveDb B) (main : MainBlockHash) : Prop :=
  ∀ a, a ∈ db.mainHeaderInfos →
    db.isMainDescendant a main = .ok (decide (a ∈ db.mainIndex.ancestors main))

theorem MainSound.decides (hmain : db.MainSound hashes) {main : MainBlockHash}
    (hmem : main ∈ db.mainHeaderInfos) : db.Decides main := by
  intro a ha
  obtain ⟨info, hinfo⟩ := mem_iff_lookup.mp hmem
  obtain ⟨ainfo, hainfo⟩ := mem_iff_lookup.mp ha
  exact hmain.isMainDescendant_eq hainfo hinfo

theorem parentVerifiedAt_eq {main : MainBlockHash} (hdecides : db.Decides main)
    {rows : List (MainBlockHash × BmmResult)}
    (hrows : ∀ row ∈ rows, row.1 ∈ db.mainHeaderInfos) :
    ∃ found, db.parentVerifiedAt main rows = .ok found ∧
      (found = true ↔ ∃ row ∈ rows, row.2 = .verified ∧ row.1 ∈ db.mainIndex.ancestors main) := by
  induction rows with
  | nil => exact ⟨false, rfl, by simp⟩
  | cons row rows ih =>
      obtain ⟨bmmBlock, result⟩ := row
      obtain ⟨found, hfound, hiff⟩ := ih fun row hrow => hrows row (List.mem_cons_of_mem _ hrow)
      cases result with
      | failed =>
          refine ⟨found, hfound, ?_⟩
          simpa using hiff
      | verified =>
          rw [parentVerifiedAt, hdecides _ (hrows _ List.mem_cons_self), ok_bind]
          by_cases hmem : bmmBlock ∈ db.mainIndex.ancestors main
          · refine ⟨true, by rw [decide_eq_true hmem]; rfl, ?_⟩
            simp [hmem]
          · refine ⟨found, by rw [decide_eq_false hmem]; exact hfound, ?_⟩
            simpa [hmem] using hiff

theorem bmmResultAfter_eq {main : MainBlockHash} (hdecides : db.Decides main)
    (hknown : ∀ {block main result},
      (db.getBmmResults block)[main]? = some result → main ∈ db.mainHeaderInfos)
    (parent : Option BlockHash) :
    ∃ result, db.bmmResultAfter parent main = .ok result ∧
      (result = .verified ↔ db.ParentVerified parent main) := by
  cases parent with
  | none => exact ⟨.verified, rfl, by simp [ParentVerified]⟩
  | some p =>
      obtain ⟨found, hfound, hiff⟩ := parentVerifiedAt_eq hdecides
        (fun row (hrow : row ∈ (db.getBmmResults p).toList) =>
          hknown (mem_toList_iff.mp hrow))
      have hexists : found = true ↔ db.ParentVerified (some p) main := by
        rw [hiff]
        constructor
        · rintro ⟨⟨a, r⟩, hrow, hr, ha⟩ q hq
          obtain rfl := Option.some.inj hq
          obtain rfl : r = .verified := hr
          exact ⟨a, ha, mem_toList_iff.mp hrow⟩
        · intro hall
          obtain ⟨a, ha, hver⟩ := hall p rfl
          exact ⟨(a, .verified), mem_toList_iff.mpr hver, rfl, ha⟩
      rw [bmmResultAfter, hfound, ok_bind]
      cases found with
      | true => exact ⟨.verified, rfl, by rw [← hexists]; simp⟩
      | false => exact ⟨.failed, rfl, by rw [← hexists]; simp⟩

theorem BmmExact.header_of_result (hdb : db.BmmExact hashes) (hmain : db.MainSound hashes)
    {block : BlockHash} {main : MainBlockHash} {result : BmmResult}
    (hrow : (db.getBmmResults block)[main]? = some result) : main ∈ db.mainHeaderInfos := by
  obtain ⟨stored, hstored⟩ := mem_iff_lookup.mp (hdb.known hrow)
  obtain ⟨-, info, hinfo, -⟩ := hmain.block hstored
  exact mem_iff_lookup.mpr ⟨info, hinfo⟩

theorem MainSound.ancestors_putMainHeaderInfo (hmain : db.MainSound hashes)
    {info stored : MainHeaderInfo} (hauth : AuthenticHeader hashes info)
    (h : db.putMainHeaderInfo info = .ok db') {main : MainBlockHash}
    (hstored : db.mainHeaderInfos[main]? = some stored) :
    db'.mainHeaderInfos[main]? = some stored ∧
      db'.mainIndex.ancestors main = db.mainIndex.ancestors main := by
  obtain ⟨-, height, work, pred, row, hheight, -, -, -, rfl⟩ := putMainHeaderInfo_eq_ok h
  obtain ⟨n, hn⟩ := hmain.height hstored
  refine ⟨hmain.mainHeaderInfos_insert hauth hstored, ?_⟩
  rw [mainIndex_withRow, mainIndex_linkMainHeader, Index.ancestors_withRow,
    Index.ancestors_link hmain.rooted (hmain.linkable hauth hheight) hn]

theorem sameBmm_putMainHeaderInfo {info : MainHeaderInfo}
    (h : db.putMainHeaderInfo info = .ok db') :
    db'.bmmResults = db.bmmResults ∧ db'.mainBlockInfos = db.mainBlockInfos := by
  obtain ⟨-, height, work, pred, row, -, -, -, -, rfl⟩ := putMainHeaderInfo_eq_ok h
  exact ⟨rfl, rfl⟩

theorem MainSound.expected_putMainHeaderInfo (hmain : db.MainSound hashes)
    {info : MainHeaderInfo} (hauth : AuthenticHeader hashes info)
    (h : db.putMainHeaderInfo info = .ok db') {block : BlockHash} {header : Header}
    {main : MainBlockHash} : db'.Expected block header main ↔ db.Expected block header main := by
  obtain ⟨hresults, hblocks⟩ := sameBmm_putMainHeaderInfo h
  have hver (b : BlockHash) (a : MainBlockHash) : db'.Verified b a ↔ db.Verified b a := by
    rw [Verified, Verified, getBmmResults, getBmmResults, hresults]
  have hcommits : db'.Commits main block ↔ db.Commits main block := by
    rw [Commits, Commits, hblocks]
  unfold Expected ParentVerified
  simp only [hver, hcommits]
  apply and_congr_right
  rintro ⟨minfo, hminfo, -⟩
  obtain ⟨-, stored, hstored, -⟩ := hmain.block hminfo
  obtain ⟨hstored', hancestors⟩ := hmain.ancestors_putMainHeaderInfo hauth h hstored
  rw [hancestors, NamedBy, NamedBy, hstored, hstored']

theorem BmmExact.putMainHeaderInfo (hdb : db.BmmExact hashes) (hmain : db.MainSound hashes)
    {info : MainHeaderInfo} (hauth : AuthenticHeader hashes info)
    (h : db.putMainHeaderInfo info = .ok db') : db'.BmmExact hashes := by
  obtain ⟨hresults, hblocks⟩ := sameBmm_putMainHeaderInfo h
  obtain ⟨hside, -, -⟩ := hmain.sameSide_putMainHeaderInfo hauth h
  have hver (b : BlockHash) (a : MainBlockHash) : db'.Verified b a ↔ db.Verified b a := by
    rw [Verified, Verified, getBmmResults, getBmmResults, hresults]
  constructor
  · intro block main result hrow
    rw [getBmmResults, hresults] at hrow
    rw [hblocks]
    exact hdb.known hrow
  · intro header main hv
    rw [hmain.expected_putMainHeaderInfo hauth h]
    exact hdb.sound ((hver _ _).mp hv)
  · intro block header main hheader hexpected
    rw [hside.headers] at hheader
    rw [hmain.expected_putMainHeaderInfo hauth h] at hexpected
    exact (hver _ _).mpr (hdb.complete hheader hexpected)

theorem Expected.mono {block : BlockHash} {header : Header} {main : MainBlockHash}
    (hexpected : db.Expected block header main)
    (hcommits : db.Commits main block → db'.Commits main block)
    (hinfos : db'.mainHeaderInfos = db.mainHeaderInfos) (hindex : db'.mainIndex = db.mainIndex)
    (hver : ∀ b a, db.Verified b a → db'.Verified b a) : db'.Expected block header main := by
  obtain ⟨hc, hn, hp⟩ := hexpected
  refine ⟨hcommits hc, ?_, ?_⟩
  · rwa [NamedBy, hinfos]
  · intro p hparent
    obtain ⟨a, ha, hv⟩ := hp p hparent
    exact ⟨a, by rwa [hindex], hver p a hv⟩

theorem MainSound.commits_putMainBlockInfo (hmain : db.MainSound hashes) {main : MainBlockHash}
    {block : MainBlockInfo} (hauth : block = hashes.mainBlock main)
    {results : Table BlockHash (Table MainBlockHash BmmResult)}
    {a : MainBlockHash} {b : BlockHash} :
    ({ db.withMainBlock main block with bmmResults := results } : ArchiveDb B).Commits a b ↔
      db.Commits a b ∨ a = main ∧ block.bmmCommitment = some b := by
  show (∃ info, (db.mainBlockInfos.insert main block)[a]? = some info ∧
    info.bmmCommitment = some b) ↔ _
  rw [lookup_insert]
  constructor
  · rintro ⟨info, hinfo, hb⟩
    split at hinfo
    · rename_i heq
      obtain rfl := Option.some.inj hinfo
      exact .inr ⟨heq, hb⟩
    · exact .inl ⟨info, hinfo, hb⟩
  · rintro (⟨info, hinfo, hb⟩ | ⟨rfl, hb⟩)
    · refine ⟨info, ?_, hb⟩
      split
      · rename_i heq
        rw [hauth, ← heq, ← (hmain.block hinfo).1]
      · exact hinfo
    · exact ⟨block, if_pos rfl, hb⟩

/-- The block decides the result of the known header that it commits to. -/
theorem MainSound.verified_putMainBlockInfo (hmain : db.MainSound hashes)
    (hdb : db.BmmExact hashes) {main : MainBlockHash} {block : MainBlockInfo}
    (h : db.putMainBlockInfo main block = .ok db') {b : BlockHash} {header : Header}
    (hcommits : block.bmmCommitment = some b) (hheader : db.headers[b]? = some header) :
    db'.Verified b main ↔
      db.NamedBy header main ∧ db.ParentVerified header.prevSideHash main := by
  obtain ⟨info, hinfo, -, hresults⟩ := putMainBlockInfo_eq_ok h
  rcases hresults with ⟨hnone, -⟩ | ⟨c, header', result, hc, hheader', hresult, rfl⟩
  · exact absurd hheader (hnone b header hcommits)
  · obtain rfl : b = c := Option.some.inj (hcommits.symm.trans hc)
    obtain rfl : header = header' := Option.some.inj (hheader.symm.trans hheader')
    have hver : ((db.withMainBlock main block).withBmmResults b
        ((db.getBmmResults b).insert main result)).Verified b main ↔ result = .verified := by
      rw [Verified, getBmmResults_withBmmResults, if_pos rfl, lookup_insert, if_pos rfl,
        Option.some.injEq]
    rw [hver]
    have hnamed : db.NamedBy header main ↔ header.prevMainHash = info.prevBlockHash := by
      rw [NamedBy, hinfo]
      constructor
      · rintro ⟨_, heq, hprev⟩
        rw [← Option.some.inj heq] at hprev
        exact hprev.symm
      · intro hprev
        exact ⟨info, rfl, hprev.symm⟩
    rw [hnamed]
    unfold commitmentBmmResult at hresult
    by_cases hprev : header.prevMainHash = info.prevBlockHash
    · have hdecides := hmain.decides (mem_iff_lookup.mpr ⟨info, hinfo⟩)
      obtain ⟨result', hresult', hiff⟩ := bmmResultAfter_eq
        (show (db.withMainBlock main block).Decides main from hdecides)
        (hdb.header_of_result hmain) header.prevSideHash
      rw [if_neg (by simpa using hprev)] at hresult
      obtain rfl := Except.ok.inj (hresult'.symm.trans hresult)
      simp only [hprev, true_and]
      exact hiff
    · rw [if_pos hprev] at hresult
      rw [← Except.ok.inj hresult]
      simp [hprev]

theorem verified_putMainBlockInfo_other {main : MainBlockHash} {block : MainBlockInfo}
    (h : db.putMainBlockInfo main block = .ok db') {b : BlockHash} {a : MainBlockHash}
    (hother : ¬ (a = main ∧ block.bmmCommitment = some b ∧ b ∈ db.headers)) :
    (db'.getBmmResults b)[a]? = (db.getBmmResults b)[a]? := by
  obtain ⟨info, -, -, hresults⟩ := putMainBlockInfo_eq_ok h
  rcases hresults with ⟨-, rfl⟩ | ⟨c, header, result, hc, hheader, -, rfl⟩
  · rfl
  · rw [getBmmResults_withBmmResults]
    split
    · rename_i heq
      subst heq
      rw [lookup_insert, if_neg]
      rintro rfl
      exact hother ⟨rfl, hc, mem_iff_lookup.mpr ⟨header, hheader⟩⟩
    · rfl

theorem BmmExact.putMainBlockInfo (hdb : db.BmmExact hashes) (hmain : db.MainSound hashes)
    (hside : db.SideSound hashes) {main : MainBlockHash} {block : MainBlockInfo}
    (hauth : block = hashes.mainBlock main) (h : db.putMainBlockInfo main block = .ok db') :
    db'.BmmExact hashes := by
  have hsame : db'.mainHeaderInfos = db.mainHeaderInfos ∧ db'.mainIndex = db.mainIndex ∧
      db'.headers = db.headers ∧ db'.mainBlockInfos = db.mainBlockInfos.insert main block := by
    obtain ⟨results, rfl⟩ := exists_results_of_putMainBlockInfo h
    exact ⟨rfl, rfl, rfl, rfl⟩
  obtain ⟨hinfos, hindex, hheaders, hblocks⟩ := hsame
  have hcommits {a : MainBlockHash} {b : BlockHash} :
      db'.Commits a b ↔ db.Commits a b ∨ a = main ∧ block.bmmCommitment = some b := by
    obtain ⟨results, rfl⟩ := exists_results_of_putMainBlockInfo h
    exact hmain.commits_putMainBlockInfo hauth
  have hcommitted {b : BlockHash} (hc : db'.Commits main b) : block.bmmCommitment = some b := by
    rcases hcommits.mp hc with ⟨stored, hstored, hb⟩ | ⟨-, hb⟩
    · rwa [hauth, ← (hmain.block hstored).1]
    · exact hb
  have hmono (b : BlockHash) (a : MainBlockHash) (hv : db.Verified b a) : db'.Verified b a := by
    by_cases hnew : a = main ∧ block.bmmCommitment = some b ∧ b ∈ db.headers
    · obtain ⟨rfl, hb, hmem⟩ := hnew
      obtain ⟨header, hheader⟩ := mem_iff_lookup.mp hmem
      obtain rfl := (hside.header hheader).1
      exact (hmain.verified_putMainBlockInfo hdb h hb hheader).mpr (hdb.sound hv).2
    · rwa [Verified, verified_putMainBlockInfo_other h hnew]
  -- a result at a block that was stored before was there before
  have hback {b : BlockHash} {a : MainBlockHash} (hstored : a ∈ db.mainBlockInfos)
      (hv : db'.Verified b a) : db.Verified b a := by
    by_cases hnew : a = main ∧ block.bmmCommitment = some b ∧ b ∈ db.headers
    · obtain ⟨rfl, hb, hmem⟩ := hnew
      obtain ⟨header, hheader⟩ := mem_iff_lookup.mp hmem
      obtain ⟨stored, hrow⟩ := mem_iff_lookup.mp hstored
      have hsame : stored.bmmCommitment = some b := by
        rwa [(hmain.block hrow).1, ← hauth]
      exact hdb.complete hheader ⟨⟨stored, hrow, hsame⟩,
        (hmain.verified_putMainBlockInfo hdb h hb hheader).mp hv⟩
    · rwa [Verified, verified_putMainBlockInfo_other h hnew] at hv
  constructor
  · intro b a result hrow
    rw [hblocks, mem_iff_lookup, lookup_insert]
    split
    · exact ⟨block, rfl⟩
    · rename_i hne
      rw [verified_putMainBlockInfo_other h fun hnew => hne hnew.1] at hrow
      exact mem_iff_lookup.mp (hdb.known hrow)
  · intro header a hv
    by_cases hnew : a = main ∧ block.bmmCommitment = some (hashes.headerHash header) ∧
        hashes.headerHash header ∈ db.headers
    · obtain ⟨rfl, hb, hmem⟩ := hnew
      obtain ⟨stored, hstored⟩ := mem_iff_lookup.mp hmem
      obtain rfl := hashes.headerHash_injective (hside.header hstored).1
      obtain ⟨hnamed, hparent⟩ := (hmain.verified_putMainBlockInfo hdb h hb hstored).mp hv
      refine ⟨hcommits.mpr (.inr ⟨rfl, hb⟩), by rwa [NamedBy, hinfos], ?_⟩
      intro p hp
      obtain ⟨a, ha, hva⟩ := hparent p hp
      exact ⟨a, by rwa [hindex], hmono p a hva⟩
    · rw [Verified, verified_putMainBlockInfo_other h hnew] at hv
      exact (hdb.sound hv).mono (fun hc => hcommits.mpr (.inl hc)) hinfos hindex hmono
  · intro b header a hheader hexpected
    rw [hheaders] at hheader
    obtain ⟨hc, hnamed, hparent⟩ := hexpected
    rw [NamedBy, hinfos] at hnamed
    by_cases ha : a = main
    · subst ha
      refine (hmain.verified_putMainBlockInfo hdb h (hcommitted hc) hheader).mpr ⟨hnamed, ?_⟩
      intro p hp
      obtain ⟨a', ha', hv⟩ := hparent p hp
      rw [hindex] at ha'
      refine ⟨a', ha', ?_⟩
      rw [Verified, verified_putMainBlockInfo_other h] at hv
      · exact hv
      · rintro ⟨-, hpb, -⟩
        exact (hside.parent hheader hp).2 (Option.some.inj (hpb.symm.trans (hcommitted hc)))
    · obtain ⟨stored, hrow, hb⟩ := (hcommits.mp hc).resolve_right fun hnew => ha hnew.1
      refine hmono b a (hdb.complete hheader ⟨⟨stored, hrow, hb⟩, hnamed, ?_⟩)
      intro p hp
      obtain ⟨a', ha', hv⟩ := hparent p hp
      rw [hindex] at ha'
      exact ⟨a', ha', hback (hmain.block_of_mem (mem_iff_lookup.mpr ⟨stored, hrow⟩) ha') hv⟩

theorem lookup_populateBmm {hash : Header → BlockHash} {header : Header}
    {mains : List MainBlockHash} {start results : Table MainBlockHash BmmResult}
    (h : mains.foldlM (populateBmm hash db header) start = .ok results) (main : MainBlockHash) :
    (main ∉ mains → results[main]? = start[main]?) ∧
      (main ∈ mains → ∃ result, headerBmmResult hash db header main = .ok result ∧
        results[main]? = some result) := by
  induction mains generalizing start with
  | nil =>
      obtain rfl := Except.ok.inj h
      exact ⟨fun _ => rfl, fun hmem => absurd hmem List.not_mem_nil⟩
  | cons a mains ih =>
      rw [List.foldlM_cons, bind_eq_ok_iff] at h
      obtain ⟨start', hfirst, hlater⟩ := h
      simp only [populateBmm, bind_eq_ok_iff] at hfirst
      obtain ⟨result, hresult, hinsert⟩ := hfirst
      obtain rfl := Except.ok.inj hinsert
      obtain ⟨hother, hlisted⟩ := ih hlater
      rw [lookup_insert] at hother
      constructor
      · intro hmem
        rw [List.mem_cons, not_or] at hmem
        rw [hother hmem.2, if_neg hmem.1]
      · intro hmem
        by_cases hrest : main ∈ mains
        · exact hlisted hrest
        · obtain rfl := (List.mem_cons.mp hmem).resolve_right hrest
          exact ⟨result, hresult, (hother hrest).trans (if_pos rfl)⟩

theorem headerBmmResult_eq_ok {hash : Header → BlockHash} {header : Header}
    {main : MainBlockHash} {result : BmmResult} (hdecides : db.Decides main)
    (hknown : ∀ {block main result},
      (db.getBmmResults block)[main]? = some result → main ∈ db.mainHeaderInfos)
    (h : headerBmmResult hash db header main = .ok result) :
    main ∈ db.mainBlockInfos ∧ (result = .verified ↔ db.Expected (hash header) header main) := by
  simp only [headerBmmResult, bind_eq_ok_iff, getMainBlockInfo, okOr_eq_ok_iff] at h
  obtain ⟨block, hblock, h⟩ := h
  refine ⟨mem_iff_lookup.mpr ⟨block, hblock⟩, ?_⟩
  have hcommits (b : BlockHash) : db.Commits main b ↔ block.bmmCommitment = some b := by
    rw [Commits, hblock]
    constructor
    · rintro ⟨_, heq, hb⟩
      rwa [Option.some.inj heq]
    · intro hb
      exact ⟨block, rfl, hb⟩
  rw [Expected, hcommits]
  cases hc : block.bmmCommitment with
  | none =>
      rw [hc] at h
      rw [← Except.ok.inj h]
      simp
  | some commitment =>
      simp only [hc] at h
      by_cases heq : commitment = hash header
      · rw [if_neg (by simpa using heq)] at h
        obtain ⟨info, hinfo, h⟩ := bind_eq_ok_iff.mp h
        have hinfo := okOr_eq_ok_iff.mp hinfo
        have hnamed : db.NamedBy header main ↔ header.prevMainHash = info.prevBlockHash := by
          rw [NamedBy, hinfo]
          constructor
          · rintro ⟨_, heq, hprev⟩
            rw [← Option.some.inj heq] at hprev
            exact hprev.symm
          · intro hprev
            exact ⟨info, rfl, hprev.symm⟩
        rw [hnamed]
        by_cases hprev : header.prevMainHash = info.prevBlockHash
        · obtain ⟨result', hresult', hiff⟩ := bmmResultAfter_eq hdecides hknown
            header.prevSideHash
          rw [if_neg (by simpa using hprev)] at h
          obtain rfl := Except.ok.inj (hresult'.symm.trans h)
          simpa [heq, hprev] using hiff
        · rw [if_pos hprev] at h
          rw [← Except.ok.inj h]
          simp [hprev]
      · rw [if_pos heq] at h
        rw [← Except.ok.inj h]
        simp [heq]

theorem MainSound.verified_putHeader (hmain : db.MainSound hashes) (hdb : db.BmmExact hashes)
    {header : Header} (h : db.putHeader hashes.headerHash header = .ok db') (b : BlockHash)
    (main : MainBlockHash) :
    (b = hashes.headerHash header ∧ db.NamedBy header main → main ∈ db.mainBlockInfos ∧
        (db'.Verified b main ↔ db.Expected b header main)) ∧
      (¬ (b = hashes.headerHash header ∧ db.NamedBy header main) →
        (db'.getBmmResults b)[main]? = (db.getBmmResults b)[main]?) := by
  obtain ⟨height, pred, row, mains, results, -, -, -, hmains, hresults, rfl⟩ := putHeader_eq_ok h
  have hmem : main ∈ mains ↔ db.NamedBy header main := hmain.successors hmains main
  obtain ⟨hother, hlisted⟩ := lookup_populateBmm hresults main
  rw [Verified, getBmmResults_withBmmResults]
  constructor
  · rintro ⟨rfl, hnamed⟩
    obtain ⟨result, hresult, hrow⟩ := hlisted (hmem.mpr hnamed)
    obtain ⟨info, hinfo, -⟩ := hnamed
    have hdecides := hmain.decides (mem_iff_lookup.mpr ⟨info, hinfo⟩)
    rw [if_pos rfl, hrow, Option.some.injEq]
    have hlinked : ((db.linkHeader hashes.headerHash header height pred).withSideRow
        (hashes.headerHash header) row).Decides main := hdecides
    have hiff := headerBmmResult_eq_ok hlinked (hdb.header_of_result hmain) hresult
    exact hiff
  · intro hnot
    split
    · rename_i heq
      rw [hother fun hin => hnot ⟨heq, hmem.mp hin⟩, heq]
    · rfl

theorem BmmExact.putHeader (hdb : db.BmmExact hashes) (hmain : db.MainSound hashes)
    (hside : db.SideSound hashes) {header : Header}
    (h : db.putHeader hashes.headerHash header = .ok db') : db'.BmmExact hashes := by
  have hsame := sameMain_putHeader h
  have hheaders {b : BlockHash} {stored : Header} (hstored : db'.headers[b]? = some stored) :
      b = hashes.headerHash header ∧ stored = header ∨ db.headers[b]? = some stored := by
    obtain ⟨height, pred, row, mains, results, -, -, -, -, -, rfl⟩ := putHeader_eq_ok h
    change (db.headers.insert (hashes.headerHash header) header)[b]? = some stored at hstored
    rw [lookup_insert] at hstored
    split at hstored
    · rename_i heq
      exact .inl ⟨heq, (Option.some.inj hstored).symm⟩
    · exact .inr hstored
  have hprev : header.prevSideHash ≠ some (hashes.headerHash header) := by
    obtain ⟨height, pred, row, mains, results, hheight, -⟩ := putHeader_eq_ok h
    exact hside.prev_ne hheight
  have hcommits {a : MainBlockHash} {b : BlockHash} : db'.Commits a b ↔ db.Commits a b := by
    rw [Commits, Commits, hsame.blockInfos]
  have hresult (b : BlockHash) (a : MainBlockHash) :=
    hmain.verified_putHeader hdb h b a
  have hmono (b : BlockHash) (a : MainBlockHash) (hv : db.Verified b a) : db'.Verified b a := by
    by_cases hnew : b = hashes.headerHash header ∧ db.NamedBy header a
    · obtain ⟨rfl, -⟩ := id hnew
      exact ((hresult _ a).1 hnew).2.mpr (hdb.sound hv)
    · rwa [Verified, (hresult b a).2 hnew]
  -- a result of a known header was there before
  have hback {b : BlockHash} {a : MainBlockHash} (hstored : b ∈ db.headers)
      (hv : db'.Verified b a) : db.Verified b a := by
    by_cases hnew : b = hashes.headerHash header ∧ db.NamedBy header a
    · obtain ⟨stored, hrow⟩ := mem_iff_lookup.mp hstored
      obtain rfl := hashes.headerHash_injective ((hside.header hrow).1.trans hnew.1)
      exact hdb.complete hrow (((hresult b a).1 hnew).2.mp hv)
    · rwa [Verified, (hresult b a).2 hnew] at hv
  constructor
  · intro b a result hrow
    rw [hsame.blockInfos]
    by_cases hnew : b = hashes.headerHash header ∧ db.NamedBy header a
    · exact ((hresult b a).1 hnew).1
    · rw [(hresult b a).2 hnew] at hrow
      exact hdb.known hrow
  · intro header' a hv
    have hmonoExpected {header'} (hexpected : db.Expected (hashes.headerHash header') header' a) :
        db'.Expected (hashes.headerHash header') header' a :=
      hexpected.mono hcommits.mpr hsame.headerInfos hsame.mainIndex hmono
    by_cases hnew : hashes.headerHash header' = hashes.headerHash header ∧ db.NamedBy header a
    · obtain rfl := hashes.headerHash_injective hnew.1
      exact hmonoExpected (((hresult _ a).1 hnew).2.mp hv)
    · rw [Verified, (hresult _ a).2 hnew] at hv
      exact hmonoExpected (hdb.sound hv)
  · rintro b header' a hheader ⟨hc, hnamed, hparent⟩
    rw [hcommits] at hc
    rw [NamedBy, hsame.headerInfos] at hnamed
    rcases hheaders hheader with ⟨rfl, rfl⟩ | hold
    · refine ((hresult _ a).1 ⟨rfl, hnamed⟩).2.mpr ⟨hc, hnamed, ?_⟩
      intro p hp
      obtain ⟨a', ha', hv⟩ := hparent p hp
      rw [hsame.mainIndex] at ha'
      refine ⟨a', ha', ?_⟩
      rwa [Verified, (hresult p a').2] at hv
      rintro ⟨rfl, -⟩
      exact hprev hp
    · refine hmono b a (hdb.complete hold ⟨hc, hnamed, ?_⟩)
      intro p hp
      obtain ⟨a', ha', hv⟩ := hparent p hp
      rw [hsame.mainIndex] at ha'
      exact ⟨a', ha', hback (hside.parent hold hp).1 hv⟩

end ArchiveDb

/-- The calls that decide BMM results. -/
inductive BmmOp where
  | putHeader (header : Header)
  | putMainHeaderInfo (headerInfo : MainHeaderInfo)
  | putMainBlockInfo (main : MainBlockHash) (block : MainBlockInfo)

namespace BmmOp

variable (hashes : Hashes)

def apply (db : ArchiveDb B) : BmmOp → Except ArchiveDbError (ArchiveDb B)
  | putHeader header => db.putHeader hashes.headerHash header
  | putMainHeaderInfo headerInfo => db.putMainHeaderInfo headerInfo
  | putMainBlockInfo main block => db.putMainBlockInfo main block

/-- The contents of a mainchain header or block are those of its hash. -/
def Authentic : BmmOp → Prop
  | putHeader _ => True
  | putMainHeaderInfo headerInfo => ArchiveDb.AuthenticHeader hashes headerInfo
  | putMainBlockInfo main block => block = hashes.mainBlock main

/-- A failed call aborts the write transaction around it. -/
def step (db : ArchiveDb B) (op : BmmOp) : ArchiveDb B :=
  (op.apply hashes db).toOption.getD db

/-- The archive after a sequence of calls from a new archive. -/
def run (ops : List BmmOp) : ArchiveDb B :=
  ops.foldl (step hashes) .new

end BmmOp

namespace ArchiveDb

variable {hashes : Hashes} {db db' : ArchiveDb B}

theorem mainSound_new : (new : ArchiveDb B).MainSound hashes where
  rooted := ⟨fun h => by simp [mainIndex, new] at h, fun h => by simp [mainIndex, new] at h,
    fun h => by simp [mainIndex, new] at h⟩
  rows h := by simp [mainIndex, new] at h
  header h := by simp [new] at h
  block h := by simp [new] at h
  work h := by simp [new] at h
  workKnown h := by simp [new] at h
  successors {p l} h m := by
    rw [new, lookup_insert] at h
    split at h
    · rw [← Option.some.inj h]
      simp [new]
    · simp at h
  successorsStored {p} h := by
    rw [mem_iff_lookup, new, lookup_insert]
    exact ⟨[], if_pos (h.resolve_right (by simp [new]))⟩
  successorsKnown {p} h := by
    rw [mem_iff_lookup, new, lookup_insert] at h
    obtain ⟨l, hl⟩ := h
    split at hl
    · rename_i heq
      exact .inl heq
    · simp at hl

theorem sideSound_new : (new : ArchiveDb B).SideSound hashes where
  rooted := ⟨fun h => by simp [sideIndex, new] at h, fun h => by simp [sideIndex, new] at h,
    fun h => by simp [sideIndex, new] at h⟩
  rows h := by simp [sideIndex, new] at h
  header h := by simp [new] at h
  successors {p l} h := by
    rw [new, lookup_insert] at h
    split at h
    · rw [← Option.some.inj h]
      simp [new]
    · simp at h
  successorsStored h := by simp [new] at h
  genesisStored := by
    rw [mem_iff_lookup, new, lookup_insert]
    exact ⟨[], if_pos rfl⟩
  body h := by simp [new] at h

theorem bmmExact_new : (new : ArchiveDb B).BmmExact hashes where
  known h := by simp [getBmmResults, new] at h
  sound h := by simp [Verified, getBmmResults, new] at h
  complete h := by simp [new] at h

/-- What holds of an archive after every sequence of calls. -/
structure BmmInvariant (hashes : Hashes) (db : ArchiveDb B) : Prop where
  main : db.MainSound hashes
  side : db.SideSound hashes
  bmm : db.BmmExact hashes

theorem BmmInvariant.apply (hdb : db.BmmInvariant hashes) {op : BmmOp}
    (hauth : op.Authentic hashes) (h : op.apply hashes db = .ok db') :
    db'.BmmInvariant hashes := by
  obtain ⟨hmain, hside, hbmm⟩ := hdb
  cases op with
  | putHeader header =>
      exact ⟨(sameMain_putHeader h).mainSound hmain, hside.putHeader hmain h,
        hbmm.putHeader hmain hside h⟩
  | putMainHeaderInfo info =>
      obtain ⟨hsame, hbodies, -⟩ := hmain.sameSide_putMainHeaderInfo hauth h
      exact ⟨hmain.putMainHeaderInfo hauth h, hsame.sideSound hside
        (by rw [hbodies, hsame.headers]; exact hside.body), hbmm.putMainHeaderInfo hmain hauth h⟩
  | putMainBlockInfo main block =>
      obtain ⟨hsame, hbodies, -⟩ := sameSide_putMainBlockInfo h
      exact ⟨hmain.putMainBlockInfo hauth h, hsame.sideSound hside
        (by rw [hbodies, hsame.headers]; exact hside.body),
        hbmm.putMainBlockInfo hmain hside hauth h⟩

theorem bmmInvariant_run {ops : List BmmOp} (hops : ∀ op ∈ ops, op.Authentic hashes) :
    (BmmOp.run hashes ops : ArchiveDb B).BmmInvariant hashes := by
  have hfold (ops : List BmmOp) (db : ArchiveDb B) (hops : ∀ op ∈ ops, op.Authentic hashes)
      (hdb : db.BmmInvariant hashes) :
      (ops.foldl (BmmOp.step hashes) db).BmmInvariant hashes := by
    induction ops generalizing db with
    | nil => exact hdb
    | cons op ops ih =>
        rw [List.foldl_cons]
        apply ih _ fun op' hop' => hops op' (List.mem_cons_of_mem _ hop')
        rw [BmmOp.step]
        cases h : op.apply hashes db with
        | error e => exact hdb
        | ok db' => exact hdb.apply (hops op List.mem_cons_self) h
  exact hfold ops _ hops ⟨mainSound_new, sideSound_new, bmmExact_new⟩

theorem BmmInvariant.ne_of_verified (hdb : db.BmmInvariant hashes) {block p : BlockHash}
    {header : Header} {main a : MainBlockHash} (hheader : db.headers[block]? = some header)
    (hp : header.prevSideHash = some p) (hcommits : db.Commits main block)
    (hv : db.Verified p a) : a ≠ main := by
  rintro rfl
  obtain ⟨hstored, hne⟩ := hdb.side.parent hheader hp
  obtain ⟨pheader, hpheader⟩ := mem_iff_lookup.mp hstored
  obtain rfl := (hdb.side.header hpheader).1
  obtain ⟨info, hinfo, hb⟩ := hcommits
  obtain ⟨⟨info', hinfo', hb'⟩, -⟩ := hdb.bmm.sound hv
  obtain rfl := Option.some.inj (hinfo.symm.trans hinfo')
  exact hne (Option.some.inj (hb'.symm.trans hb))

/-- In whatever order headers and mainchain blocks arrive, a known sidechain block is
verified at exactly the mainchain blocks that commit to it, whose parent it names, and
with an ancestor at which its parent is verified. -/
theorem verified_iff_of_run (ops : List BmmOp) (hops : ∀ op ∈ ops, op.Authentic hashes)
    (block : BlockHash) (header : Header) (main : MainBlockHash)
    (hknown : (BmmOp.run hashes ops : ArchiveDb B).headers[block]? = some header) :
    (BmmOp.run hashes ops : ArchiveDb B).Verified block main ↔
      (BmmOp.run hashes ops : ArchiveDb B).Commits main block ∧
        (BmmOp.run hashes ops : ArchiveDb B).NamedBy header main ∧
          ∀ p, header.prevSideHash = some p →
            ∃ a ∈ (BmmOp.run hashes ops : ArchiveDb B).mainIndex.ancestors main,
              a ≠ main ∧ (BmmOp.run hashes ops : ArchiveDb B).Verified p a := by
  have hdb := bmmInvariant_run (B := B) hops
  constructor
  · intro hv
    obtain rfl := (hdb.side.header hknown).1
    obtain ⟨hcommits, hnamed, hparent⟩ := hdb.bmm.sound hv
    refine ⟨hcommits, hnamed, fun p hp => ?_⟩
    obtain ⟨a, ha, hpv⟩ := hparent p hp
    exact ⟨a, ha, hdb.ne_of_verified hknown hp hcommits hpv, hpv⟩
  · rintro ⟨hcommits, hnamed, hparent⟩
    refine hdb.bmm.complete hknown ⟨hcommits, hnamed, fun p hp => ?_⟩
    obtain ⟨a, ha, -, hpv⟩ := hparent p hp
    exact ⟨a, ha, hpv⟩

end ArchiveDb

/-- The second block commits to a first sidechain block and the third one to its child. -/
def twoCommitments : Hashes :=
  lineHashes fun h =>
    if h = 2 then some (pairHash (headerOn none 1))
    else if h = 3 then some (pairHash (headerOn (some (pairHash (headerOn none 1))) 2))
    else none

open BmmOp in
/-- The parent arrives before the third mainchain block and the child after it. -/
def twoCommitmentsOps : List BmmOp :=
  [putMainHeaderInfo (mainHeaderOn 1 0 0 1), putMainBlockInfo 1 (twoCommitments.mainBlock 1),
    putMainHeaderInfo (mainHeaderOn 2 1 1 1), putMainBlockInfo 2 (twoCommitments.mainBlock 2),
    putMainHeaderInfo (mainHeaderOn 3 2 2 1), putHeader (headerOn none 1),
    putMainBlockInfo 3 (twoCommitments.mainBlock 3),
    putHeader (headerOn (some (pairHash (headerOn none 1))) 2)]

theorem verified_iff_of_run_two_commitments :
    (BmmOp.run twoCommitments twoCommitmentsOps : ArchiveDb Unit).Verified 64 3 ↔
      (BmmOp.run twoCommitments twoCommitmentsOps : ArchiveDb Unit).Commits 3 64 ∧
        (BmmOp.run twoCommitments twoCommitmentsOps : ArchiveDb Unit).NamedBy
          (headerOn (some 1) 2) 3 ∧
          ∀ p, (headerOn (some 1) 2).prevSideHash = some p →
            ∃ a ∈ (BmmOp.run twoCommitments twoCommitmentsOps :
                ArchiveDb Unit).mainIndex.ancestors 3,
              a ≠ 3 ∧ (BmmOp.run twoCommitments twoCommitmentsOps : ArchiveDb Unit).Verified p a :=
  ArchiveDb.verified_iff_of_run twoCommitmentsOps (by
    intro op hop
    simp only [twoCommitmentsOps, List.mem_cons, List.not_mem_nil, or_false] at hop
    rcases hop with rfl | rfl | rfl | rfl | rfl | rfl | rfl | rfl
    · exact ⟨rfl, by decide⟩
    · rfl
    · exact ⟨rfl, by decide⟩
    · rfl
    · exact ⟨rfl, by decide⟩
    · trivial
    · rfl
    · trivial) 64 (headerOn (some 1) 2) 3 (by decide)

end Truthcoin.Archiving
