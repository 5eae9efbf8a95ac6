import Truthcoin.Blocks

/-!
# The archive of the mainchain

What a node knows of the mainchain: headers with their parents, heights and total
work, the events of each block, and which mainchain blocks commit to which
sidechain blocks. A known block has known ancestors.
-/

namespace Truthcoin.Mainchain

open Truthcoin.Types Truthcoin.Table Truthcoin.Fallible Truthcoin.Blocks

inductive BmmResult where
  | verified
  | failed
  deriving DecidableEq, Repr

structure BlockHeaderInfo where
  blockHash : MainBlockHash
  prevBlockHash : MainBlockHash
  work : Nat
  timestamp : Nat
  deriving DecidableEq, Repr

structure MainBlockInfo where
  bmmCommitment : Option BlockHash
  events : List BlockEvent
  deriving DecidableEq

inductive ArchiveError where
  | noMainHeaderInfo (blockHash : MainBlockHash)
  | noMainBlockInfo (blockHash : MainBlockHash)
  | noMainHeight (blockHash : MainBlockHash)
  | noMainAncestor (blockHash : MainBlockHash) (depth : Nat)
  | noExponentialMainAncestors (blockHash : MainBlockHash)
  | noBmmResult (blockHash : BlockHash)
  | panic
  deriving DecidableEq, Repr

/-- The parent of the first mainchain block. -/
def allZeros : MainBlockHash := 0

/-- Mainchain headers. All ancestors of a header are present, and a child is one higher
than its parent. -/
structure MainHeaders where
  mainHeaderInfos : Table MainBlockHash BlockHeaderInfo
  mainBlockHashToHeight : Table MainBlockHash Nat
  keyed : ∀ {h : MainBlockHash} {info : BlockHeaderInfo},
    mainHeaderInfos[h]? = some info → info.blockHash = h ∧ h ≠ allZeros
  first : ∀ {h : MainBlockHash} {info : BlockHeaderInfo}, mainHeaderInfos[h]? = some info →
    info.prevBlockHash = allZeros → mainBlockHashToHeight[h]? = some 0
  child : ∀ {h : MainBlockHash} {info : BlockHeaderInfo}, mainHeaderInfos[h]? = some info →
    info.prevBlockHash ≠ allZeros →
      ∃ parent n, mainHeaderInfos[info.prevBlockHash]? = some parent ∧
        mainBlockHashToHeight[info.prevBlockHash]? = some n ∧
          mainBlockHashToHeight[h]? = some (n + 1)

namespace MainHeaders

variable (M : MainHeaders)

/-- The number of blocks below and including a known block. -/
def rank (h : MainBlockHash) : Nat :=
  if h = allZeros then 0 else (M.mainBlockHashToHeight[h]?.getD 0) + 1

variable {M}

theorem rank_prev {h : MainBlockHash} {info : BlockHeaderInfo}
    (hinfo : M.mainHeaderInfos[h]? = some info) : M.rank h = M.rank info.prevBlockHash + 1 := by
  have hne := (M.keyed hinfo).2
  by_cases hfirst : info.prevBlockHash = allZeros
  · simp [rank, hne, hfirst, M.first hinfo hfirst]
  · obtain ⟨parent, n, -, hparent, hheight⟩ := M.child hinfo hfirst
    simp [rank, hne, hfirst, hparent, hheight]

variable (M)

/-- A known block, or the parent of the first one. -/
def Known (h : MainBlockHash) : Prop :=
  h = allZeros ∨ ∃ info, M.mainHeaderInfos[h]? = some info

/-- A block and its ancestors, newest first. -/
def ancestors (h : MainBlockHash) : List MainBlockHash :=
  match _hinfo : M.mainHeaderInfos[h]? with
  | none => []
  | some info => h :: ancestors info.prevBlockHash
  termination_by M.rank h
  decreasing_by
    rw [rank_prev _hinfo]
    omega

def getMainHeaderInfo (h : MainBlockHash) : Except ArchiveError BlockHeaderInfo :=
  okOr M.mainHeaderInfos[h]? (.noMainHeaderInfo h)

def getMainHeight (h : MainBlockHash) : Except ArchiveError Nat :=
  okOr M.mainBlockHashToHeight[h]? (.noMainHeight h)

/-- `main_ancestors(h).take_while(|ancestor| Some(ancestor) != stop)`. -/
def mainAncestorsUntil (stop : Option MainBlockHash) (h : MainBlockHash) :
    Except ArchiveError (List MainBlockHash) :=
  if h = allZeros then .ok []
  else
    match _hinfo : M.mainHeaderInfos[h]? with
    | none => .error (.noMainHeaderInfo h)
    | some info =>
        if some info.blockHash = stop then .ok []
        else do
          let rest ← mainAncestorsUntil stop info.prevBlockHash
          .ok (info.blockHash :: rest)
  termination_by M.rank h
  decreasing_by
    rw [rank_prev _hinfo]
    omega

variable {M}

theorem ancestors_allZeros : M.ancestors allZeros = [] := by
  rw [ancestors]
  split
  · rfl
  · rename_i info hinfo
    exact absurd rfl (M.keyed hinfo).2

theorem ancestors_of_info {h : MainBlockHash} {info : BlockHeaderInfo}
    (hinfo : M.mainHeaderInfos[h]? = some info) :
    M.ancestors h = h :: M.ancestors info.prevBlockHash := by
  rw [ancestors]
  split
  · rename_i hnone
    rw [hinfo] at hnone
    cases hnone
  · rename_i info' hinfo'
    rw [hinfo, Option.some.injEq] at hinfo'
    rw [hinfo']

theorem known_prev {h : MainBlockHash} {info : BlockHeaderInfo}
    (hinfo : M.mainHeaderInfos[h]? = some info) : M.Known info.prevBlockHash := by
  by_cases hfirst : info.prevBlockHash = allZeros
  · exact .inl hfirst
  · obtain ⟨parent, n, hparent, -, -⟩ := M.child hinfo hfirst
    exact .inr ⟨parent, hparent⟩

theorem known_induction {P : MainBlockHash → Prop} (hzero : P allZeros)
    (hstep : ∀ h info, M.mainHeaderInfos[h]? = some info → P info.prevBlockHash → P h)
    {h : MainBlockHash} (hknown : M.Known h) : P h := by
  induction hrank : M.rank h using Nat.strong_induction_on generalizing h with
  | _ n ih =>
      subst hrank
      rcases hknown with rfl | ⟨info, hinfo⟩
      · exact hzero
      · exact hstep h info hinfo
          (ih _ (by rw [rank_prev hinfo]; omega) (known_prev hinfo) rfl)

theorem length_ancestors {h : MainBlockHash} (hknown : M.Known h) :
    (M.ancestors h).length = M.rank h := by
  refine known_induction (P := fun h => (M.ancestors h).length = M.rank h) ?_ ?_ hknown
  · simp [ancestors_allZeros, rank]
  · intro h info hinfo ih
    rw [ancestors_of_info hinfo, rank_prev hinfo, List.length_cons, ih]

theorem mainAncestorsUntil_eq {stop : Option MainBlockHash} {h : MainBlockHash}
    (hknown : M.Known h) :
    M.mainAncestorsUntil stop h =
      .ok ((M.ancestors h).takeWhile fun ancestor => some ancestor ≠ stop) := by
  refine known_induction (P := fun h => M.mainAncestorsUntil stop h =
    .ok ((M.ancestors h).takeWhile fun ancestor => some ancestor ≠ stop)) ?_ ?_ hknown
  · rw [mainAncestorsUntil, ancestors_allZeros]
    simp
  · intro h info hinfo ih
    obtain ⟨hhash, hne⟩ := M.keyed hinfo
    rw [mainAncestorsUntil, if_neg hne, ancestors_of_info hinfo]
    split
    · rename_i hnone
      rw [hinfo] at hnone
      cases hnone
    · rename_i info' hinfo'
      rw [hinfo, Option.some.injEq] at hinfo'
      subst hinfo'
      rw [hhash, ih, List.takeWhile_cons]
      by_cases hstop : some h = stop
      · simp [hstop]
      · simp [hstop]

theorem ancestors_of_mem {h a : MainBlockHash} (hmem : a ∈ M.ancestors h)
    (hknown : M.Known h) : ∃ newer, M.ancestors h = newer ++ M.ancestors a := by
  revert hmem
  refine known_induction (P := fun h => a ∈ M.ancestors h →
    ∃ newer, M.ancestors h = newer ++ M.ancestors a) ?_ ?_ hknown
  · intro hmem
    simp [ancestors_allZeros] at hmem
  · intro h info hinfo ih hmem
    rw [ancestors_of_info hinfo] at hmem ⊢
    rcases List.mem_cons.mp hmem with rfl | hmem
    · exact ⟨[], by rw [ancestors_of_info hinfo]; rfl⟩
    · obtain ⟨newer, hnewer⟩ := ih hmem
      exact ⟨h :: newer, by rw [hnewer]; rfl⟩

theorem info_of_mem {h a : MainBlockHash} (hmem : a ∈ M.ancestors h) (hknown : M.Known h) :
    ∃ info, M.mainHeaderInfos[a]? = some info := by
  revert hmem
  refine known_induction (P := fun h => a ∈ M.ancestors h →
    ∃ info, M.mainHeaderInfos[a]? = some info) ?_ ?_ hknown
  · intro hmem
    simp [ancestors_allZeros] at hmem
  · intro h info hinfo ih hmem
    rw [ancestors_of_info hinfo] at hmem
    rcases List.mem_cons.mp hmem with rfl | hmem
    · exact ⟨info, hinfo⟩
    · exact ih hmem

theorem rank_le_of_mem {h a : MainBlockHash} (hmem : a ∈ M.ancestors h) (hknown : M.Known h) :
    M.rank a ≤ M.rank h := by
  obtain ⟨newer, hnewer⟩ := ancestors_of_mem hmem hknown
  rw [← length_ancestors hknown, hnewer, List.length_append,
    length_ancestors (.inr (info_of_mem hmem hknown))]
  omega

theorem nodup_ancestors {h : MainBlockHash} (hknown : M.Known h) : (M.ancestors h).Nodup := by
  refine known_induction (P := fun h => (M.ancestors h).Nodup) ?_ ?_ hknown
  · rw [ancestors_allZeros]
    exact List.nodup_nil
  · intro h info hinfo ih
    rw [ancestors_of_info hinfo, List.nodup_cons]
    refine ⟨fun hmem => ?_, ih⟩
    have hle := rank_le_of_mem hmem (known_prev hinfo)
    rw [rank_prev hinfo] at hle
    omega

theorem ancestors_drop {h a : MainBlockHash} {n : Nat} (hknown : M.Known h)
    (hplace : (M.ancestors h)[n]? = some a) : M.ancestors a = (M.ancestors h).drop n := by
  revert hplace n
  refine known_induction (P := fun h => ∀ {n : Nat}, (M.ancestors h)[n]? = some a →
    M.ancestors a = (M.ancestors h).drop n) ?_ ?_ hknown
  · intro n hplace
    simp [ancestors_allZeros] at hplace
  · intro h info hinfo ih n hplace
    cases n with
    | zero =>
        rw [ancestors_of_info hinfo, List.getElem?_cons_zero, Option.some.injEq] at hplace
        rw [← hplace, List.drop_zero]
    | succ n =>
        rw [ancestors_of_info hinfo, List.getElem?_cons_succ] at hplace
        rw [ih hplace, ancestors_of_info hinfo, List.drop_succ_cons]

theorem mem_ancestors_iff {h a : MainBlockHash} (hknown : M.Known h) :
    a ∈ M.ancestors h ↔
      M.rank a ≤ M.rank h ∧ (M.ancestors h)[M.rank h - M.rank a]? = some a := by
  constructor
  · intro hmem
    refine ⟨rank_le_of_mem hmem hknown, ?_⟩
    obtain ⟨newer, hnewer⟩ := ancestors_of_mem hmem hknown
    obtain ⟨info, hinfo⟩ := info_of_mem hmem hknown
    have hlength := length_ancestors hknown
    rw [hnewer, List.length_append, length_ancestors (.inr ⟨info, hinfo⟩)] at hlength
    have hplace : M.rank h - M.rank a = newer.length := by omega
    rw [hplace, hnewer, ancestors_of_info hinfo]
    simp
  · rintro ⟨-, hplace⟩
    exact List.mem_of_getElem? hplace

end MainHeaders

/-- The mainchain headers with what the archive derives from them, the mainchain blocks,
and the mainchain blocks that commit to each sidechain block. -/
structure MainArchive extends MainHeaders where
  exponentialMainAncestors : Table MainBlockHash (List MainBlockHash)
  totalWork : Table MainBlockHash Nat
  mainBlockInfos : Table MainBlockHash MainBlockInfo
  headers : Table BlockHash Header
  /-- The entries of each hash map in the order of its iteration. -/
  bmmResults : Table BlockHash (List (MainBlockHash × BmmResult))
  /-- Entry `i` of a row is the ancestor `2 ^ (i + 1)` blocks before. -/
  exponential : ∀ {h : MainBlockHash} {info : BlockHeaderInfo},
    mainHeaderInfos[h]? = some info → ∃ row, exponentialMainAncestors[h]? = some row ∧
      ∀ i, 2 ^ (i + 1) < toMainHeaders.rank h →
        row[i]? = (toMainHeaders.ancestors h)[2 ^ (i + 1)]?
  work : ∀ {h : MainBlockHash} {info : BlockHeaderInfo}, mainHeaderInfos[h]? = some info →
    ∃ w, totalWork[h]? = some w
  /-- The blocks before a block with its events have theirs. -/
  closed : ∀ {h : MainBlockHash} {block : MainBlockInfo}, mainBlockInfos[h]? = some block →
    ∃ info, mainHeaderInfos[h]? = some info ∧
      (info.prevBlockHash ≠ allZeros →
        ∃ parent, mainBlockInfos[info.prevBlockHash]? = some parent)
  /-- A header is stored after its parent. -/
  ordered : ∀ {hash : BlockHash} {header : Header}, headers[hash]? = some header →
    header.prevSideHash ≠ some hash
  /-- The results stand at known mainchain blocks. They stay when a header is pruned. -/
  placed : ∀ {hash : BlockHash} {rows : List (MainBlockHash × BmmResult)}
    {main : MainBlockHash}, bmmResults[hash]? = some rows → (main, .verified) ∈ rows →
      ∃ info, mainHeaderInfos[main]? = some info
  /-- A verified commitment to a stored header is the child of the block that the header
  names, and there is one to the parent among its ancestors. -/
  verified : ∀ {hash : BlockHash} {header : Header} {rows : List (MainBlockHash × BmmResult)}
    {main : MainBlockHash}, headers[hash]? = some header → bmmResults[hash]? = some rows →
      (main, .verified) ∈ rows →
      ∃ info block, mainHeaderInfos[main]? = some info ∧ mainBlockInfos[main]? = some block ∧
        block.bmmCommitment = some hash ∧ header.prevMainHash = info.prevBlockHash ∧
        ∀ parent, header.prevSideHash = some parent → ∃ parentRows parentMain,
          bmmResults[parent]? = some parentRows ∧ (parentMain, .verified) ∈ parentRows ∧
            parentMain ∈ toMainHeaders.ancestors main

namespace MainArchive

variable (A : MainArchive)

def getMainBlockInfo (h : MainBlockHash) : Except ArchiveError MainBlockInfo :=
  okOr A.mainBlockInfos[h]? (.noMainBlockInfo h)

/-- Follow the exponential ancestors for `n` blocks. -/
def nthMainAncestor (orig : MainBlockHash × Nat) (blockHash : MainBlockHash) (n : Nat) :
    Except ArchiveError MainBlockHash :=
  if _hn : n = 0 then .ok blockHash
  else do
    let height ← A.getMainHeight blockHash
    if height < n then
      .error (.noMainAncestor orig.1 orig.2)
    else if n = 1 then do
      let info ← A.getMainHeaderInfo blockHash
      .ok info.prevBlockHash
    else do
      let index := Nat.log2 n - 1
      let row ← okOr A.exponentialMainAncestors[blockHash]?
        (.noExponentialMainAncestors blockHash)
      let ancestor ← okOr row[index]? .panic
      nthMainAncestor orig ancestor (n - 2 <<< index)
  termination_by n
  decreasing_by
    have hpos : 0 < 2 <<< (Nat.log2 n - 1) := by
      rw [Nat.shiftLeft_eq]
      positivity
    omega

def getNthMainAncestor (blockHash : MainBlockHash) (n : Nat) :
    Except ArchiveError MainBlockHash :=
  A.nthMainAncestor (blockHash, n) blockHash n

/-- Whether the second block is a descendant of the first one. -/
def isMainDescendant (ancestor descendant : MainBlockHash) : Except ArchiveError Bool :=
  if ancestor = descendant then .ok true
  else do
    let ancestorHeight ← A.getMainHeight ancestor
    let descendantHeight ← A.getMainHeight descendant
    if descendantHeight < ancestorHeight then .ok false
    else do
      let block ← A.getNthMainAncestor descendant (descendantHeight - ancestorHeight)
      .ok (decide (ancestor = block))

/-- `max_by_key` of a fallible iterator: the last of the greatest elements. -/
def maxByKey {α : Type} (key : α → Except ArchiveError Nat) :
    List α → Except ArchiveError (Option α)
  | [] => .ok none
  | a :: l => do
      let first ← key a
      let best ← l.foldlM (fun best b => do
        let k ← key b
        .ok (if k < best.1 then best else (k, b))) (first, a)
      .ok (some best.2)

def getBmmResults (blockHash : BlockHash) : List (MainBlockHash × BmmResult) :=
  A.bmmResults[blockHash]?.getD []

def getTotalWork (h : MainBlockHash) : Except ArchiveError Nat :=
  okOr A.totalWork[h]? (.noMainHeaderInfo h)

/-- The verified commitments among some results. -/
def verifications (rows : List (MainBlockHash × BmmResult)) : List MainBlockHash :=
  rows.filterMap fun row => if row.2 = .verified then some row.1 else none

def tryGetBestMainVerification (blockHash : BlockHash) :
    Except ArchiveError (Option MainBlockHash) :=
  maxByKey A.getTotalWork (verifications (A.getBmmResults blockHash))

def getBestMainVerification (blockHash : BlockHash) : Except ArchiveError MainBlockHash := do
  okOr (← A.tryGetBestMainVerification blockHash) (.noBmmResult blockHash)

/-- The timestamp with which a block is connected. -/
def mainchainTimestamp (blockHash : BlockHash) : Except ArchiveError Nat := do
  let bmmMainHash ← A.getBestMainVerification blockHash
  let info ← A.getMainHeaderInfo bmmMainHash
  .ok info.timestamp

variable {A}

theorem rank_of_info {h : MainBlockHash} {info : BlockHeaderInfo}
    (hinfo : A.mainHeaderInfos[h]? = some info) :
    ∃ height, A.mainBlockHashToHeight[h]? = some height ∧ A.rank h = height + 1 := by
  have hne := (A.keyed hinfo).2
  have hheight : ∃ height, A.mainBlockHashToHeight[h]? = some height := by
    by_cases hfirst : info.prevBlockHash = allZeros
    · exact ⟨0, A.first hinfo hfirst⟩
    · obtain ⟨_, n, -, -, hheight⟩ := A.child hinfo hfirst
      exact ⟨n + 1, hheight⟩
  obtain ⟨height, hheight⟩ := hheight
  exact ⟨height, hheight, by simp [MainHeaders.rank, hne, hheight]⟩

/-- The jumps end at the ancestor that is `n` blocks before. -/
theorem nthMainAncestor_eq {orig : MainBlockHash × Nat} {h : MainBlockHash} {n : Nat}
    {info : BlockHeaderInfo} (hinfo : A.mainHeaderInfos[h]? = some info)
    (hn : n < A.rank h) :
    ∃ a, A.nthMainAncestor orig h n = .ok a ∧ (A.ancestors h)[n]? = some a := by
  induction n using Nat.strong_induction_on generalizing h info with
  | _ n ih =>
      obtain ⟨height, hheight, hrank⟩ := rank_of_info hinfo
      have hknown : A.Known h := .inr ⟨info, hinfo⟩
      rw [nthMainAncestor]
      by_cases hzero : n = 0
      · rw [dif_pos hzero]
        exact ⟨h, rfl, by rw [hzero, MainHeaders.ancestors_of_info hinfo]; rfl⟩
      · have hroom : ¬ height < n := by omega
        have hsteps : A.getMainHeight h = .ok height := by
          rw [MainHeaders.getMainHeight, hheight, okOr_some]
        rw [dif_neg hzero, hsteps, ok_bind, if_neg hroom]
        by_cases hone : n = 1
        · have hheader : A.getMainHeaderInfo h = .ok info := by
            rw [MainHeaders.getMainHeaderInfo, hinfo, okOr_some]
          rw [if_pos hone, hheader, ok_bind]
          refine ⟨info.prevBlockHash, rfl, ?_⟩
          have hprev : info.prevBlockHash ≠ allZeros := by
            intro hfirst
            rw [A.first hinfo hfirst, Option.some.injEq] at hheight
            omega
          obtain ⟨parent, _, hparent, -, -⟩ := A.child hinfo hprev
          rw [hone, MainHeaders.ancestors_of_info hinfo, MainHeaders.ancestors_of_info hparent]
          rfl
        · -- the jump goes down by the greatest power of two that fits
          have hlog : 1 ≤ Nat.log2 n := (Nat.le_log2 hzero).mpr (by omega)
          have hjump : 2 <<< (Nat.log2 n - 1) = 2 ^ Nat.log2 n := by
            rw [Nat.shiftLeft_eq, ← Nat.pow_succ']
            congr 1
            omega
          have hle : 2 ^ Nat.log2 n ≤ n := Nat.log2_self_le hzero
          obtain ⟨row, hrow, hentries⟩ := A.exponential hinfo
          have hindex : Nat.log2 n - 1 + 1 = Nat.log2 n := by omega
          have hentry := hentries (Nat.log2 n - 1) (by rw [hindex]; omega)
          rw [hindex] at hentry
          have hlength := MainHeaders.length_ancestors hknown
          obtain ⟨a, ha⟩ : ∃ a, (A.ancestors h)[2 ^ Nat.log2 n]? = some a :=
            ⟨_, List.getElem?_eq_getElem (by omega)⟩
          obtain ⟨info', hinfo'⟩ := MainHeaders.info_of_mem (List.mem_of_getElem? ha) hknown
          have hdrop := MainHeaders.ancestors_drop hknown ha
          have hrank' : A.rank a = A.rank h - 2 ^ Nat.log2 n := by
            rw [← MainHeaders.length_ancestors (.inr ⟨info', hinfo'⟩), hdrop, List.length_drop,
              hlength]
          have hpos : 0 < 2 ^ Nat.log2 n := by positivity
          obtain ⟨b, hb, hplace⟩ := ih (n - 2 ^ Nat.log2 n) (by omega) hinfo' (by omega)
          refine ⟨b, ?_, ?_⟩
          · rw [if_neg hone, hrow, okOr_some, ok_bind, hentry, ha, okOr_some, ok_bind, hjump]
            exact hb
          · rw [hdrop, List.getElem?_drop] at hplace
            rwa [show 2 ^ Nat.log2 n + (n - 2 ^ Nat.log2 n) = n by omega] at hplace

theorem isMainDescendant_eq {a d : MainBlockHash} {ainfo dinfo : BlockHeaderInfo}
    (ha : A.mainHeaderInfos[a]? = some ainfo) (hd : A.mainHeaderInfos[d]? = some dinfo) :
    A.isMainDescendant a d = .ok (decide (a ∈ A.ancestors d)) := by
  have hknown : A.Known d := .inr ⟨dinfo, hd⟩
  unfold isMainDescendant
  by_cases heq : a = d
  · rw [if_pos heq, heq, MainHeaders.ancestors_of_info hd]
    simp
  · obtain ⟨aheight, haheight, harank⟩ := rank_of_info ha
    obtain ⟨dheight, hdheight, hdrank⟩ := rank_of_info hd
    rw [if_neg heq, MainHeaders.getMainHeight, haheight, okOr_some, ok_bind,
      MainHeaders.getMainHeight, hdheight, okOr_some, ok_bind]
    by_cases hlower : dheight < aheight
    · have hnot : a ∉ A.ancestors d := by
        intro hmem
        have := MainHeaders.rank_le_of_mem hmem hknown
        omega
      rw [if_pos hlower]
      simp [hnot]
    · obtain ⟨b, hb, hplace⟩ : ∃ b, A.nthMainAncestor (d, dheight - aheight) d
          (dheight - aheight) = .ok b ∧ (A.ancestors d)[dheight - aheight]? = some b :=
        nthMainAncestor_eq hd (by omega)
      have hdistance : A.rank d - A.rank a = dheight - aheight := by omega
      rw [if_neg hlower, getNthMainAncestor, hb, ok_bind]
      congr 1
      simp only [MainHeaders.mem_ancestors_iff hknown, hdistance, hplace, Option.some.injEq]
      have hle : A.rank a ≤ A.rank d := by omega
      simp [hle, eq_comm]

end MainArchive

end Truthcoin.Mainchain
