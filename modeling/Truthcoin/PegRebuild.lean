import Truthcoin.PegSlices
import Truthcoin.PegLog

/-!
# Peg data of disconnected blocks

A disconnection finds the slice of the tip again from the newest rows of the two
event logs below the tip. It takes the older one of two rows of the same
sidechain block, and goes too far back when these differ.
-/

namespace Truthcoin.PegRebuild

open Std Truthcoin.Types Truthcoin.Table Truthcoin.Fallible Truthcoin.Blocks
open Truthcoin.AppendLog Truthcoin.TwoWayPeg Truthcoin.PegRun Truthcoin.PegLog
open Truthcoin.WithdrawalBundle Truthcoin.Mainchain Truthcoin.Mainchain.MainArchive
open Truthcoin.PegSlices

/-- The newest row of a log that was applied below a height. -/
def lastApplied (log : Table UInt32 (MainBlockHash × Nat)) (height : Nat) :
    Option (MainBlockHash × Nat) :=
  log.toList.reverse.findSome? fun row => if row.2.2 < height then some row.2 else none

def startBlockHash (A : MainArchive) (deposit event : Option (MainBlockHash × Nat)) :
    Except ArchiveError (Option MainBlockHash) :=
  match deposit, event with
  | none, none => .ok none
  | some (blockHash, _), none => .ok (some blockHash)
  | none, some (blockHash, _) => .ok (some blockHash)
  | some (depositBlock, depositHeight), some (eventBlock, eventHeight) =>
      match compare depositHeight eventHeight with
      | .lt => .ok (some eventBlock)
      | .gt => .ok (some depositBlock)
      | .eq => do
          if ← A.isMainDescendant eventBlock depositBlock then .ok (some eventBlock)
          else if ← A.isMainDescendant depositBlock eventBlock then .ok (some depositBlock)
          else .error .panic

def hasEvents (info : BlockInfo) : Bool := !info.events.isEmpty

/-- The peg data that `disconnect_tip_` rebuilds for the tip. -/
def rebuildPegData (A : MainArchive) (dbs : PegDbs) (height : Nat) (tipHeader : Header) :
    Except ArchiveError TwoWayPegData := do
  let start ← startBlockHash A (lastApplied dbs.depositBlocks height)
    (lastApplied dbs.withdrawalBundleEventBlocks height)
  let ancestors ← A.mainAncestorsUntil start tipHeader.prevMainHash
  let infos ← ancestors.mapM (getBlockInfo A)
  .ok ⟨(infos.filter hasEvents).reverse⟩

/-- The blocks of some peg data that carry events. -/
def eventBearing (data : TwoWayPegData) : TwoWayPegData :=
  ⟨data.blockInfo.filter hasEvents⟩

/-- The rows of a log in the order of `rev_iter`. -/
def newestFirst (log : Table UInt32 (MainBlockHash × Nat)) : List (MainBlockHash × Nat) :=
  log.toList.reverse.map Prod.snd

/-- A row for this peg data would come last in its log. -/
def AppendsLast (s : Node) (data : TwoWayPegData) : Prop :=
  (latestDepositBlockHash data ≠ none → ∀ k ∈ s.peg.dbs.depositBlocks,
      keyCmp k (nextIdx s.peg.dbs.depositBlocks) = .lt) ∧
    (latestWithdrawalBundleEventBlockHash data ≠ none →
      ∀ k ∈ s.peg.dbs.withdrawalBundleEventBlocks,
        keyCmp k (nextIdx s.peg.dbs.withdrawalBundleEventBlocks) = .lt)

section

variable {log log' : Table UInt32 (MainBlockHash × Nat)} {latest : Option MainBlockHash}
  {height : Nat} {rows : List (MainBlockHash × Nat)}

theorem newestFirst_appendRow
    (hlast : latest ≠ none → ∀ k ∈ log, keyCmp k (nextIdx log) = .lt) :
    newestFirst (appendRow log latest height) =
      (latest.map fun hash => (hash, height)).toList ++ newestFirst log := by
  cases latest with
  | none => rfl
  | some hash =>
      have hrows := toList_insert_last (v := (hash, height)) (hlast (by simp))
      simp [newestFirst, appendRow, append, hrows]

theorem newestFirst_pop {name : String} {missing : Error}
    (hrows : newestFirst log = (latest.map fun hash => (hash, height)).toList ++ rows)
    (hpop : popEventBlock name missing log latest height = .ok log') :
    newestFirst log' = rows := by
  rcases popEventBlock_ok hpop with ⟨rfl, rfl⟩ | ⟨hash, seqIdx, rfl, hlast, rfl⟩
  · simpa using hrows
  · obtain ⟨older, holder⟩ := List.getLast?_eq_some_iff.mp hlast
    have hkeys := toList_keys_nodup log
    rw [holder, List.map_append, List.nodup_append] at hkeys
    have herase : (log.erase seqIdx).toList = log.toList.filter fun row => row.1 ≠ seqIdx := by
      refine toList_eq_filter ?_
      intro k v
      have hkey : (log.erase seqIdx)[k]? = some v ↔ k ≠ seqIdx ∧ log[k]? = some v := by grind
      simpa [and_comm] using hkey
    have hother : older.filter (fun row => row.1 ≠ seqIdx) = older := by
      rw [List.filter_eq_self]
      intro row hrow
      simpa using hkeys.2.2 row.1 (List.mem_map_of_mem hrow) seqIdx (by simp)
    rw [newestFirst, herase, holder, List.filter_append, hother]
    simpa [newestFirst, holder] using hrows

end

theorem newestFirst_of_run {L : BundleLib} {B : Node → Node → Prop}
    {chain : List (Nat × TwoWayPegData)} {s : Node} (hrun : Run L B AppendsLast chain s) :
    newestFirst s.peg.dbs.depositBlocks = chain.filterMap depositRow ∧
      newestFirst s.peg.dbs.withdrawalBundleEventBlocks = chain.filterMap bundleEventRow := by
  induction hrun with
  | start => exact ⟨rfl, rfl⟩
  | block _ _ hdbs ih => rwa [hdbs]
  | @connect chain s data h p _ hheight hok hconnect ih =>
      rw [hheight] at hconnect
      obtain ⟨hdeposit, hbundle⟩ := connect_logs hconnect
      simp only [hdeposit, hbundle]
      rw [filterMap_cons_eq, filterMap_cons_eq, newestFirst_appendRow hok.1,
        newestFirst_appendRow hok.2, ih.1, ih.2]
      exact ⟨rfl, rfl⟩
  | @disconnect chain s data h p _ hheight hdisconnect ih =>
      rw [hheight] at hdisconnect
      obtain ⟨⟨_, _, hdeposit⟩, ⟨_, _, hbundle⟩⟩ := disconnect_logs hdisconnect
      rw [filterMap_cons_eq, filterMap_cons_eq] at ih
      exact ⟨newestFirst_pop ih.1 hdeposit, newestFirst_pop ih.2 hbundle⟩

/-- The last mainchain block with an event of a kind. -/
def latestOf (kind : LocatedEvent → Option MainBlockHash) (data : TwoWayPegData) :
    Option MainBlockHash :=
  ((events data).filterMap kind).getLast?

/-- A kind of events, given by the mainchain blocks of its events. -/
def IsKind (kind : LocatedEvent → Option MainBlockHash) : Prop :=
  ∀ event h, kind event = some h → h = event.1

theorem isKind_depositHash : IsKind depositHash := by
  rintro ⟨hash, deposit | event⟩ h heq
  · exact (Option.some.inj heq).symm
  · cases heq

theorem isKind_bundleEventHash : IsKind bundleEventHash := by
  rintro ⟨hash, deposit | event⟩ h heq
  · cases heq
  · exact (Option.some.inj heq).symm

section

variable {kind : LocatedEvent → Option MainBlockHash} {data : TwoWayPegData}
  {newer older : List BlockInfo} {z : BlockInfo}

theorem latestOf_mem (hkind : IsKind kind) {h : MainBlockHash}
    (hlatest : latestOf kind data = some h) :
    ∃ info ∈ data.blockInfo, hasEvents info = true ∧ info.blockHash = h := by
  obtain ⟨⟨hash, event⟩, hevent, heq⟩ := List.mem_filterMap.mp (List.mem_of_getLast? hlatest)
  have hhash := hkind _ _ heq
  simp only [events, List.mem_flatMap, List.mem_map, Prod.mk.injEq] at hevent
  obtain ⟨info, hinfo, event', hmem, rfl, rfl⟩ := hevent
  refine ⟨info, hinfo, ?_, hhash.symm⟩
  simpa [hasEvents] using List.ne_nil_of_mem hmem

theorem latestOf_newest (hkind : IsKind kind) (hdata : data.blockInfo.reverse = newer ++ z :: older)
    (hnewer : ∀ info ∈ newer, hasEvents info = false)
    (hz : ∃ event ∈ z.events, kind (z.blockHash, event) ≠ none) :
    latestOf kind data = some z.blockHash := by
  have hdata' : data.blockInfo = older.reverse ++ z :: newer.reverse := by
    have h := congrArg List.reverse hdata
    simpa using h
  have hquiet : (newer.reverse.flatMap fun info => info.events.map fun event =>
      (info.blockHash, event)) = [] := by
    simp only [List.flatMap_eq_nil_iff, List.map_eq_nil_iff, List.mem_reverse]
    intro info hinfo
    simpa [hasEvents] using hnewer info hinfo
  have hsplit : (events data).filterMap kind =
      (events ⟨older.reverse⟩).filterMap kind ++
        (z.events.map fun event => (z.blockHash, event)).filterMap kind := by
    rw [events, hdata', List.flatMap_append, List.flatMap_cons, hquiet, List.append_nil,
      List.filterMap_append]
    rfl
  have hown : ∀ h ∈ (z.events.map fun event => (z.blockHash, event)).filterMap kind,
      h = z.blockHash := by
    intro h hmem
    obtain ⟨event, hevent, heq⟩ := List.mem_filterMap.mp hmem
    obtain ⟨event', -, rfl⟩ := List.mem_map.mp hevent
    exact hkind _ _ heq
  obtain ⟨event, hevent, hsome⟩ := hz
  have hne : (z.events.map fun event => (z.blockHash, event)).filterMap kind ≠ [] := by
    obtain ⟨h, hh⟩ := Option.ne_none_iff_exists'.mp hsome
    exact List.ne_nil_of_mem (List.mem_filterMap.mpr ⟨_, List.mem_map_of_mem hevent, hh⟩)
  rw [latestOf, hsplit, List.getLast?_append_of_ne_nil _ hne, List.getLast?_eq_some_getLast hne,
    hown _ (List.getLast_mem hne)]

end

/-- The newest row of a kind among the blocks of a chain. -/
def newestRow (kind : LocatedEvent → Option MainBlockHash) (chain : List SideBlock) :
    Option (MainBlockHash × Nat) :=
  (chain.filterMap fun b => (latestOf kind b.data).map fun hash => (hash, b.height)).head?

/-- A row is at most as new as block `z` of the sidechain block at a height, and it is among
`z` and the older blocks if it is of that height. -/
def NoNewer (row : Option (MainBlockHash × Nat)) (z : BlockInfo) (older : List BlockInfo)
    (height : Nat) : Prop :=
  ∀ h k, row = some (h, k) →
    k ≤ height ∧ (k = height → h ∈ (z :: older).map BlockInfo.blockHash)

/-- The newest mainchain block with events, which is in one of the two newest rows. -/
structure NewestEvent (chain : List SideBlock) (newer : List BlockInfo) (z : BlockInfo)
    (older : List BlockInfo) (height : Nat) : Prop where
  located : located chain = newer ++ z :: older
  quiet : ∀ info ∈ newer, hasEvents info = false
  event : hasEvents z = true
  hit : newestRow depositHash chain = some (z.blockHash, height) ∨
    newestRow bundleEventHash chain = some (z.blockHash, height)
  deposit : NoNewer (newestRow depositHash chain) z older height
  bundleEvent : NoNewer (newestRow bundleEventHash chain) z older height

section

variable {kind : LocatedEvent → Option MainBlockHash} {b : SideBlock} {chain : List SideBlock}
  {newer older : List BlockInfo} {z : BlockInfo} {height : Nat} {A : MainArchive}

theorem newestRow_cons :
    newestRow kind (b :: chain) =
      ((latestOf kind b.data).map fun hash => (hash, b.height)).or (newestRow kind chain) := by
  cases h : latestOf kind b.data with
  | none => simp [newestRow, h]
  | some hash => simp [newestRow, h]

theorem newestRow_height {h : MainBlockHash} {k : Nat}
    (hrow : newestRow kind chain = some (h, k)) : ∃ b ∈ chain, b.height = k := by
  obtain ⟨b, hb, heq⟩ := List.mem_filterMap.mp (List.mem_of_head? hrow)
  obtain ⟨_, -, heq⟩ := Option.map_eq_some_iff.mp heq
  exact ⟨b, hb, (Prod.mk.inj heq).2⟩

theorem noNewer_cons (hkind : IsKind kind) (hsliced : Sliced A (b :: chain))
    (hdata : b.data.blockInfo.reverse = newer ++ z :: older)
    (hquiet : ∀ info ∈ newer, hasEvents info = false) {rest : List BlockInfo} :
    NoNewer (newestRow kind (b :: chain)) z (older ++ rest) b.height := by
  intro h k hrow
  rw [newestRow_cons] at hrow
  cases hlatest : latestOf kind b.data with
  | none =>
      rw [hlatest, Option.map_none, Option.none_or] at hrow
      obtain ⟨b', hb', rfl⟩ := newestRow_height hrow
      have hlt := hsliced.2.height_lt b' hb'
      rw [← hsliced.1.height] at hlt
      exact ⟨hlt.le, fun heq => absurd heq hlt.ne⟩
  | some hash =>
      rw [hlatest, Option.map_some, Option.some_or, Option.some.injEq, Prod.mk.injEq] at hrow
      obtain ⟨rfl, rfl⟩ := hrow
      refine ⟨le_rfl, fun _ => ?_⟩
      obtain ⟨info, hinfo, hevents, rfl⟩ := latestOf_mem hkind hlatest
      have hmem : info ∈ newer ++ z :: older := by
        rw [← hdata]
        exact List.mem_reverse.mpr hinfo
      rcases List.mem_append.mp hmem with hmem | hmem
      · simp [hquiet info hmem] at hevents
      · have hwider : info ∈ z :: (older ++ rest) := by
          rw [← List.cons_append]
          exact List.mem_append_left _ hmem
        exact List.mem_map_of_mem hwider

theorem latestOf_quiet (hkind : IsKind kind) {data : TwoWayPegData}
    (h : ∀ info ∈ data.blockInfo, hasEvents info = false) : latestOf kind data = none := by
  by_contra hsome
  obtain ⟨hash, hhash⟩ := Option.ne_none_iff_exists'.mp hsome
  obtain ⟨info, hinfo, hevents, -⟩ := latestOf_mem hkind hhash
  simp [h info hinfo] at hevents

theorem exists_newest {l : List BlockInfo} (h : ¬ ∀ info ∈ l, hasEvents info = false) :
    ∃ newer z older, l = newer ++ z :: older ∧
      (∀ info ∈ newer, hasEvents info = false) ∧ hasEvents z = true := by
  induction l with
  | nil => simp at h
  | cons info l ih =>
      by_cases hinfo : hasEvents info = true
      · exact ⟨[], info, l, rfl, by simp, hinfo⟩
      · have hquiet : hasEvents info = false := by simpa using hinfo
        have hrest : ¬ ∀ i ∈ l, hasEvents i = false := by
          intro hall
          refine h fun i hi => ?_
          rcases List.mem_cons.mp hi with rfl | hi
          · exact hquiet
          · exact hall i hi
        obtain ⟨newer, z, older, rfl, hnewer, hz⟩ := ih hrest
        refine ⟨info :: newer, z, older, rfl, ?_, hz⟩
        intro i hi
        rcases List.mem_cons.mp hi with rfl | hi
        · exact hquiet
        · exact hnewer i hi

theorem exists_kind (hz : hasEvents z = true) :
    (∃ event ∈ z.events, depositHash (z.blockHash, event) ≠ none) ∨
      ∃ event ∈ z.events, bundleEventHash (z.blockHash, event) ≠ none := by
  cases hevents : z.events with
  | nil => simp [hasEvents, hevents] at hz
  | cons event rest =>
      cases event with
      | deposit d => exact .inl ⟨.deposit d, by simp, by simp [depositHash]⟩
      | withdrawalBundle e => exact .inr ⟨.withdrawalBundle e, by simp, by simp [bundleEventHash]⟩

/-- Either no block of the chain saw an event, or the newest rows tell where the newest one
is. -/
theorem newestEvent_of_sliced (h : Sliced A chain) :
    ((∀ info ∈ located chain, hasEvents info = false) ∧ newestRow depositHash chain = none ∧
        newestRow bundleEventHash chain = none) ∨
      ∃ newer z older height, NewestEvent chain newer z older height := by
  induction chain with
  | nil => exact .inl ⟨by simp [located], rfl, rfl⟩
  | cons b chain ih =>
      have hlocated : located (b :: chain) = b.data.blockInfo.reverse ++ located chain := rfl
      by_cases hquiet : ∀ info ∈ b.data.blockInfo.reverse, hasEvents info = false
      · -- the block leaves no rows, so the chain below decides
        have hnone : ∀ info ∈ b.data.blockInfo, hasEvents info = false :=
          fun info hinfo => hquiet info (List.mem_reverse.mpr hinfo)
        have hdeposit : newestRow depositHash (b :: chain) = newestRow depositHash chain := by
          rw [newestRow_cons, latestOf_quiet isKind_depositHash hnone]
          rfl
        have hevent : newestRow bundleEventHash (b :: chain) =
            newestRow bundleEventHash chain := by
          rw [newestRow_cons, latestOf_quiet isKind_bundleEventHash hnone]
          rfl
        rcases ih h.2 with ⟨hbelow, hrows⟩ | ⟨newer, z, older, height, hnewest⟩
        · refine .inl ⟨?_, by rw [hdeposit, hevent]; exact hrows⟩
          intro info hinfo
          rw [hlocated, List.mem_append] at hinfo
          exact hinfo.elim (hquiet info) (hbelow info)
        · refine .inr ⟨b.data.blockInfo.reverse ++ newer, z, older, height, ?_⟩
          refine ⟨?_, ?_, hnewest.event, ?_, ?_, ?_⟩
          · rw [hlocated, hnewest.located, List.append_assoc]
          · intro info hinfo
            exact (List.mem_append.mp hinfo).elim (hquiet info) (hnewest.quiet info)
          · rw [hdeposit, hevent]
            exact hnewest.hit
          · rw [hdeposit]
            exact hnewest.deposit
          · rw [hevent]
            exact hnewest.bundleEvent
      · obtain ⟨newer, z, older, hdata, hnewer, hz⟩ := exists_newest hquiet
        have htop : ∀ {kind}, IsKind kind →
            (∃ event ∈ z.events, kind (z.blockHash, event) ≠ none) →
              newestRow kind (b :: chain) = some (z.blockHash, b.height) := by
          intro kind hkind hevent
          rw [newestRow_cons, latestOf_newest hkind hdata hnewer hevent]
          rfl
        refine .inr ⟨newer, z, older ++ located chain, b.height, ?_⟩
        refine ⟨?_, hnewer, hz, ?_, ?_, ?_⟩
        · rw [hlocated, hdata, List.append_assoc, List.cons_append]
        · exact (exists_kind hz).imp (htop isKind_depositHash) (htop isKind_bundleEventHash)
        · exact noNewer_cons isKind_depositHash h hdata hnewer
        · exact noNewer_cons isKind_bundleEventHash h hdata hnewer

end

/-- The newest deposit and the newest bundle event below the tip were applied with one
sidechain block, but come from different mainchain blocks. -/
def SplitEvents (rest : List SideBlock) : Prop :=
  ∃ depositBlock eventBlock height,
    newestRow depositHash rest = some (depositBlock, height) ∧
      newestRow bundleEventHash rest = some (eventBlock, height) ∧ depositBlock ≠ eventBlock

section

variable {A : MainArchive} {rest : List SideBlock} {newer older : List BlockInfo}
  {z : BlockInfo} {height : Nat}

theorem startBlockHash_of_eq {D W : MainBlockHash} {k : Nat}
    (hD : ∃ info, A.mainHeaderInfos[D]? = some info)
    (hW : ∃ info, A.mainHeaderInfos[W]? = some info)
    (hrelated : W ∈ A.ancestors D ∨ D ∈ A.ancestors W) :
    startBlockHash A (some (D, k)) (some (W, k)) =
      .ok (some (if W ∈ A.ancestors D then W else D)) := by
  obtain ⟨dinfo, hD⟩ := hD
  obtain ⟨winfo, hW⟩ := hW
  have hcompare : compare k k = .eq := Nat.compare_eq_eq.mpr rfl
  simp only [startBlockHash, hcompare]
  rw [isMainDescendant_eq hW hD, ok_bind, isMainDescendant_eq hD hW]
  by_cases hmem : W ∈ A.ancestors D
  · simp [hmem]
  · have hother : D ∈ A.ancestors W := hrelated.resolve_left hmem
    simp [hmem, hother]

/-- Which block the two newest rows select: the newest one with events, or an older one. -/
theorem startBlockHash_cases (hnewest : NewestEvent rest newer z older height)
    (hz : A.ancestors z.blockHash = (z :: older).map BlockInfo.blockHash)
    (hroot : ∃ info, A.mainHeaderInfos[z.blockHash]? = some info) :
    ∃ start, startBlockHash A (newestRow depositHash rest) (newestRow bundleEventHash rest) =
        .ok (some start) ∧
      (¬ SplitEvents rest → start = z.blockHash) ∧
      (SplitEvents rest → start ∈ older.map BlockInfo.blockHash) := by
  have hknown : A.Known z.blockHash := .inr hroot
  have hinfo : ∀ h ∈ (z :: older).map BlockInfo.blockHash,
      ∃ info, A.mainHeaderInfos[h]? = some info := by
    intro h hh
    rw [← hz] at hh
    exact MainHeaders.info_of_mem hh hknown
  have hhit := hnewest.hit
  have hd := hnewest.deposit
  have hw := hnewest.bundleEvent
  unfold SplitEvents
  generalize newestRow depositHash rest = d at hhit hd ⊢
  generalize newestRow bundleEventHash rest = w at hhit hw ⊢
  rcases d with _ | ⟨D, i⟩
  · rcases w with _ | ⟨W, j⟩
    · simp at hhit
    · obtain ⟨rfl, rfl⟩ : W = z.blockHash ∧ j = height := by simpa using hhit
      exact ⟨_, rfl, by simp, by simp⟩
  · rcases w with _ | ⟨W, j⟩
    · obtain ⟨rfl, rfl⟩ : D = z.blockHash ∧ i = height := by simpa using hhit
      exact ⟨_, rfl, by simp, by simp⟩
    · obtain ⟨hi, hD⟩ := hd D i rfl
      obtain ⟨hj, hW⟩ := hw W j rfl
      simp only [Option.some.injEq, Prod.mk.injEq] at hhit ⊢
      rcases Nat.lt_trichotomy i j with hlt | rfl | hgt
      · have hcompare : compare i j = .lt := Nat.compare_eq_lt.mpr hlt
        refine ⟨W, by simp only [startBlockHash, hcompare], ?_, by omega⟩
        intro _
        rcases hhit with ⟨-, rfl⟩ | ⟨rfl, -⟩
        · omega
        · rfl
      · obtain rfl : i = height := by omega
        have hDz : D ∈ A.ancestors z.blockHash := hz ▸ hD rfl
        have hWz : W ∈ A.ancestors z.blockHash := hz ▸ hW rfl
        have hrelated : W ∈ A.ancestors D ∨ D ∈ A.ancestors W := by
          rcases hhit with ⟨rfl, -⟩ | ⟨rfl, -⟩
          · exact .inl hWz
          · exact .inr hDz
        refine ⟨_, startBlockHash_of_eq (hinfo D (hD rfl)) (hinfo W (hW rfl)) hrelated, ?_, ?_⟩
        · intro hsame
          have heq : D = W := by
            by_contra hne
            exact hsame ⟨D, W, i, ⟨rfl, rfl⟩, ⟨rfl, rfl⟩, hne⟩
          rw [heq, ite_self]
          rcases hhit with ⟨rfl, -⟩ | ⟨rfl, -⟩
          · exact heq.symm
          · rfl
        · rintro ⟨_, _, _, ⟨rfl, -⟩, ⟨rfl, -⟩, hne⟩
          rw [List.map_cons, List.mem_cons] at hD hW
          rcases hhit with ⟨rfl, -⟩ | ⟨rfl, -⟩
          · rw [if_pos hWz]
            exact (hW rfl).resolve_left (Ne.symm hne)
          · -- the newest block is no ancestor of an older one
            have hnot : z.blockHash ∉ A.ancestors D := by
              intro hmem
              have hle := MainHeaders.rank_le_of_mem hmem (.inr (hinfo D (hz ▸ hDz)))
              have hge := MainHeaders.rank_le_of_mem hDz hknown
              have hplace := (MainHeaders.mem_ancestors_iff hknown).mp hDz
              rw [show A.rank z.blockHash - A.rank D = 0 by omega, hz] at hplace
              exact hne (Option.some.inj hplace.2).symm
            rw [if_neg hnot]
            exact (hD rfl).resolve_left hne
      · have hcompare : compare i j = .gt := Nat.compare_eq_gt.mpr hgt
        refine ⟨D, by simp only [startBlockHash, hcompare], ?_, by omega⟩
        intro _
        rcases hhit with ⟨rfl, -⟩ | ⟨-, rfl⟩
        · rfl
        · omega

end

section

variable {A : MainArchive} {b : SideBlock} {rest : List SideBlock}
  {kind : LocatedEvent → Option MainBlockHash}

theorem lastApplied_eq (log : Table UInt32 (MainBlockHash × Nat)) (height : Nat) :
    lastApplied log height = (newestFirst log).find? fun row => row.2 < height := by
  unfold lastApplied newestFirst
  induction log.toList.reverse with
  | nil => rfl
  | cons row rows ih =>
      rw [List.findSome?_cons, List.map_cons, List.find?_cons, ih]
      by_cases hlt : row.2.2 < height
      · simp [hlt]
      · simp [hlt]

theorem find_below_tip (hsliced : Sliced A (b :: rest)) :
    ((b :: rest).filterMap fun b => (latestOf kind b.data).map fun hash => (hash, b.height)).find?
      (fun row => row.2 < b.height) = newestRow kind rest := by
  have hrest : ∀ rows : List (MainBlockHash × Nat), (∀ row ∈ rows, row.2 < b.height) →
      rows.find? (fun row => row.2 < b.height) = rows.head? := by
    intro rows hrows
    cases rows with
    | nil => rfl
    | cons row rows => rw [List.find?_cons_of_pos (by simpa using hrows row (by simp))]; rfl
  have hbelow : ∀ row ∈ rest.filterMap
      (fun b => (latestOf kind b.data).map fun hash => (hash, b.height)), row.2 < b.height := by
    intro row hrow
    obtain ⟨b', hb', heq⟩ := List.mem_filterMap.mp hrow
    obtain ⟨_, -, rfl⟩ := Option.map_eq_some_iff.mp heq
    have hlt := hsliced.2.height_lt b' hb'
    rwa [← hsliced.1.height] at hlt
  rw [filterMap_cons_eq, List.find?_append, hrest _ hbelow]
  cases latestOf kind b.data with
  | none => rfl
  | some hash => simp [newestRow]

theorem lastApplied_of_run {L : BundleLib} {B : Node → Node → Prop} {s : Node}
    (hsliced : Sliced A (b :: rest))
    (hrun : Run L B AppendsLast ((b :: rest).map SideBlock.peg) s) :
    lastApplied s.peg.dbs.depositBlocks b.height = newestRow depositHash rest ∧
      lastApplied s.peg.dbs.withdrawalBundleEventBlocks b.height =
        newestRow bundleEventHash rest := by
  obtain ⟨hdeposit, hevent⟩ := newestFirst_of_run hrun
  rw [lastApplied_eq, lastApplied_eq, hdeposit, hevent, List.filterMap_map, List.filterMap_map]
  exact ⟨find_below_tip hsliced, find_below_tip hsliced⟩

theorem hashes_located (hsliced : Sliced A (b :: rest)) :
    (located (b :: rest)).map BlockInfo.blockHash = A.ancestors b.header.prevMainHash := by
  rw [← hsliced.1.located, List.map_map]
  exact List.map_id _

theorem rebuildPegData_eq {dbs : PegDbs} {start : Option MainBlockHash}
    (hsliced : Sliced A (b :: rest))
    (hstart : startBlockHash A (lastApplied dbs.depositBlocks b.height)
      (lastApplied dbs.withdrawalBundleEventBlocks b.height) = .ok start) :
    rebuildPegData A dbs b.height b.header =
      .ok ⟨(((located (b :: rest)).takeWhile fun info => some info.blockHash ≠ start).filter
        hasEvents).reverse⟩ := by
  have hroot := hsliced.1.rooted
  have hinfos : ((A.ancestors b.header.prevMainHash).takeWhile fun a => some a ≠ start).mapM
      (getBlockInfo A) = .ok (((A.ancestors b.header.prevMainHash).takeWhile
        fun a => some a ≠ start).map (infoAt A)) :=
    mapM_getBlockInfo fun a ha => hroot.blocks a (List.takeWhile_subset _ ha)
  have hwalk : ((A.ancestors b.header.prevMainHash).takeWhile fun a => some a ≠ start).map
      (infoAt A) = (located (b :: rest)).takeWhile fun info => some info.blockHash ≠ start := by
    rw [← hsliced.1.located, List.takeWhile_map]
    rfl
  rw [rebuildPegData, hstart, ok_bind, MainHeaders.mainAncestorsUntil_eq hroot.known, ok_bind,
    hinfos, ok_bind, hwalk]

theorem takeWhile_until {l newer older : List BlockInfo} {z : BlockInfo}
    (hnodup : (l.map BlockInfo.blockHash).Nodup) (hl : l = newer ++ z :: older) :
    (l.takeWhile fun info => some info.blockHash ≠ some z.blockHash) = newer := by
  subst hl
  rw [List.takeWhile_append_of_pos]
  · simp
  · intro info hinfo
    have hdisjoint := (List.nodup_append.mp (List.map_append ▸ hnodup)).2.2
    simpa using hdisjoint info.blockHash (List.mem_map_of_mem hinfo) z.blockHash (by simp)

theorem eventBearing_of_quiet {data : TwoWayPegData} {quiet : List BlockInfo}
    (h : ∀ info ∈ quiet, hasEvents info = false) :
    (⟨((data.blockInfo.reverse ++ quiet).filter hasEvents).reverse⟩ : TwoWayPegData) =
      eventBearing data := by
  have hquiet : quiet.filter hasEvents = [] := by
    rw [List.filter_eq_nil_iff]
    intro info hinfo
    simp [h info hinfo]
  rw [List.filter_append, hquiet, List.append_nil, ← List.filter_reverse, List.reverse_reverse]
  rfl

theorem ancestors_located (hsliced : Sliced A (b :: rest)) {newer older : List BlockInfo}
    {z : BlockInfo} (hl : located (b :: rest) = newer ++ z :: older) :
    A.ancestors z.blockHash = (z :: older).map BlockInfo.blockHash ∧
      ∃ info, A.mainHeaderInfos[z.blockHash]? = some info := by
  have hknown := hsliced.1.rooted.known
  have hhashes := hashes_located hsliced
  rw [hl, List.map_append] at hhashes
  have hplace : (A.ancestors b.header.prevMainHash)[(newer.map BlockInfo.blockHash).length]? =
      some z.blockHash := by
    rw [← hhashes]
    simp
  constructor
  · rw [MainHeaders.ancestors_drop hknown hplace, ← hhashes, List.drop_left]
  · exact MainHeaders.info_of_mem (List.mem_of_getElem? hplace) hknown

variable {L : BundleLib} {B : Node → Node → Prop} {s : Node}

/-- Which start the logs give for a tip, and where the newest block with events is. -/
theorem start_of_run (hsliced : Sliced A (b :: rest))
    (hrun : Run L B AppendsLast ((b :: rest).map SideBlock.peg) s) :
    (∃ quiet, rebuildPegData A s.peg.dbs b.height b.header =
        .ok ⟨((b.data.blockInfo.reverse ++ quiet).filter hasEvents).reverse⟩ ∧
      (∀ info ∈ quiet, hasEvents info = false) ∧ ¬ SplitEvents rest) ∨
    ∃ z ∈ located rest, ∃ infos, rebuildPegData A s.peg.dbs b.height b.header = .ok ⟨infos⟩ ∧
      z ∈ infos ∧ SplitEvents rest := by
  obtain ⟨hdeposit, hevent⟩ := lastApplied_of_run hsliced hrun
  have hnodup : ((located (b :: rest)).map BlockInfo.blockHash).Nodup := by
    rw [hashes_located hsliced]
    exact MainHeaders.nodup_ancestors hsliced.1.rooted.known
  have hlocated : located (b :: rest) = b.data.blockInfo.reverse ++ located rest := rfl
  rcases newestEvent_of_sliced hsliced.2 with ⟨hquiet, hd, hw⟩ | ⟨newer, z, older, height, hnewest⟩
  · have hstart : startBlockHash A (lastApplied s.peg.dbs.depositBlocks b.height)
        (lastApplied s.peg.dbs.withdrawalBundleEventBlocks b.height) = .ok none := by
      rw [hdeposit, hevent, hd, hw]
      rfl
    have hwhole : ((located (b :: rest)).takeWhile fun info => some info.blockHash ≠ none) =
        located (b :: rest) := by simp
    refine .inl ⟨located rest, ?_, hquiet, by simp [SplitEvents, hd]⟩
    rw [rebuildPegData_eq hsliced hstart, hwhole, hlocated]
  · have hsplit : located (b :: rest) = (b.data.blockInfo.reverse ++ newer) ++ z :: older := by
      rw [hlocated, hnewest.located, List.append_assoc]
    obtain ⟨hz, hroot⟩ := ancestors_located hsliced hsplit
    obtain ⟨start, hstart, hright, hwrong⟩ := startBlockHash_cases hnewest hz hroot
    rw [← hdeposit, ← hevent] at hstart
    rw [rebuildPegData_eq hsliced hstart]
    by_cases hevents : SplitEvents rest
    · -- the walk goes past the newest block with events
      obtain ⟨y, hy, rfl⟩ := List.mem_map.mp (hwrong hevents)
      obtain ⟨between, below, rfl⟩ := List.append_of_mem hy
      have hpast : located (b :: rest) =
          (b.data.blockInfo.reverse ++ newer ++ z :: between) ++ y :: below := by
        rw [hsplit]
        simp
      refine .inr ⟨z, ?_, _, rfl, ?_, hevents⟩
      · rw [hnewest.located]
        simp
      · rw [takeWhile_until hnodup hpast, List.mem_reverse, List.mem_filter]
        exact ⟨by simp, hnewest.event⟩
    · obtain rfl := hright hevents
      refine .inl ⟨newer, ?_, hnewest.quiet, hevents⟩
      rw [takeWhile_until hnodup hsplit]

theorem rebuildPegData_ne (hsliced : Sliced A (b :: rest))
    (hrun : Run L B AppendsLast ((b :: rest).map SideBlock.peg) s) (hsplit : SplitEvents rest) :
    rebuildPegData A s.peg.dbs b.height b.header ≠ .ok (eventBearing b.data) := by
  rcases start_of_run hsliced hrun with ⟨_, -, -, hnot⟩ | ⟨z, hz, infos, hinfos, hmem, -⟩
  · exact absurd hsplit hnot
  · -- the slices have no mainchain block in common
    intro heq
    rw [hinfos, Except.ok.injEq] at heq
    have hown : z ∈ (eventBearing b.data).blockInfo := heq ▸ hmem
    have hdata : z ∈ b.data.blockInfo.reverse :=
      List.mem_reverse.mpr (List.mem_filter.mp hown).1
    have hnodup := MainHeaders.nodup_ancestors hsliced.1.rooted.known
    rw [← hashes_located hsliced, located, List.flatMap_cons, List.map_append,
      List.nodup_append] at hnodup
    exact hnodup.2.2 _ (List.mem_map_of_mem hdata) _ (List.mem_map_of_mem hz) rfl

/-- The rebuilt peg data is the event-bearing part of the peg data with which the tip was
connected, exactly when the newest deposit and the newest bundle event below the tip do
not come from different mainchain blocks of one sidechain block. -/
theorem rebuildPegData_eq_iff (hgenesis : GenesisUncommitted A)
    (hconnected : Connected A (b :: rest))
    (hrun : Run L B AppendsLast ((b :: rest).map SideBlock.peg) s) :
    rebuildPegData A s.peg.dbs b.height b.header = .ok (eventBearing b.data) ↔
      ¬ SplitEvents rest := by
  have hsliced := sliced_of_connected hgenesis hconnected
  constructor
  · intro heq hsplit
    exact rebuildPegData_ne hsliced hrun hsplit heq
  · intro hsplit
    rcases start_of_run hsliced hrun with ⟨quiet, hinfos, hquiet, -⟩ | ⟨_, -, _, -, -, hother⟩
    · rw [hinfos, eventBearing_of_quiet hquiet]
    · exact absurd hother hsplit

end

/-- Five mainchain blocks in a row. -/
def rowInfos : Table MainBlockHash BlockHeaderInfo :=
  (((((∅ : Table MainBlockHash BlockHeaderInfo).insert 1 ⟨1, 0, 1, 10⟩).insert 2
    ⟨2, 1, 1, 20⟩).insert 3 ⟨3, 2, 1, 30⟩).insert 4 ⟨4, 3, 1, 40⟩).insert 5 ⟨5, 4, 1, 50⟩

theorem rowInfos_cases {h : MainBlockHash} {info : BlockHeaderInfo}
    (hinfo : rowInfos[h]? = some info) :
    h = 1 ∧ info = ⟨1, 0, 1, 10⟩ ∨ h = 2 ∧ info = ⟨2, 1, 1, 20⟩ ∨ h = 3 ∧ info = ⟨3, 2, 1, 30⟩ ∨
      h = 4 ∧ info = ⟨4, 3, 1, 40⟩ ∨ h = 5 ∧ info = ⟨5, 4, 1, 50⟩ := by
  unfold rowInfos at hinfo
  grind

def rowHeights : Table MainBlockHash Nat :=
  (((((∅ : Table MainBlockHash Nat).insert 1 0).insert 2 1).insert 3 2).insert 4 3).insert 5 4

def rowHeaders : MainHeaders where
  mainHeaderInfos := rowInfos
  mainBlockHashToHeight := rowHeights
  keyed := by
    intro h info hinfo
    rcases rowInfos_cases hinfo with ⟨rfl, rfl⟩ | ⟨rfl, rfl⟩ | ⟨rfl, rfl⟩ | ⟨rfl, rfl⟩ | ⟨rfl, rfl⟩
    all_goals decide
  first := by
    intro h info hinfo hfirst
    rcases rowInfos_cases hinfo with ⟨rfl, rfl⟩ | ⟨rfl, rfl⟩ | ⟨rfl, rfl⟩ | ⟨rfl, rfl⟩ | ⟨rfl, rfl⟩
    · rfl
    all_goals cases hfirst
  child := by
    intro h info hinfo hchild
    rcases rowInfos_cases hinfo with ⟨rfl, rfl⟩ | ⟨rfl, rfl⟩ | ⟨rfl, rfl⟩ | ⟨rfl, rfl⟩ | ⟨rfl, rfl⟩
    · exact absurd rfl hchild
    · exact ⟨_, 0, rfl, rfl, rfl⟩
    · exact ⟨_, 1, rfl, rfl, rfl⟩
    · exact ⟨_, 2, rfl, rfl, rfl⟩
    · exact ⟨_, 3, rfl, rfl, rfl⟩

theorem ancestors_rowHeaders :
    rowHeaders.ancestors 3 = [3, 2, 1] ∧ rowHeaders.ancestors 4 = [4, 3, 2, 1] ∧
      rowHeaders.ancestors 5 = [5, 4, 3, 2, 1] := by
  have hinfo1 : rowHeaders.mainHeaderInfos[(1 : MainBlockHash)]? = some ⟨1, 0, 1, 10⟩ := rfl
  have hinfo2 : rowHeaders.mainHeaderInfos[(2 : MainBlockHash)]? = some ⟨2, 1, 1, 20⟩ := rfl
  have hinfo3 : rowHeaders.mainHeaderInfos[(3 : MainBlockHash)]? = some ⟨3, 2, 1, 30⟩ := rfl
  have hinfo4 : rowHeaders.mainHeaderInfos[(4 : MainBlockHash)]? = some ⟨4, 3, 1, 40⟩ := rfl
  have hinfo5 : rowHeaders.mainHeaderInfos[(5 : MainBlockHash)]? = some ⟨5, 4, 1, 50⟩ := rfl
  have hone : rowHeaders.ancestors 1 = [1] := by
    rw [MainHeaders.ancestors_of_info hinfo1]
    exact congrArg (List.cons 1) MainHeaders.ancestors_allZeros
  have htwo : rowHeaders.ancestors 2 = [2, 1] := by
    rw [MainHeaders.ancestors_of_info hinfo2, hone]
  have hthree : rowHeaders.ancestors 3 = [3, 2, 1] := by
    rw [MainHeaders.ancestors_of_info hinfo3, htwo]
  have hfour : rowHeaders.ancestors 4 = [4, 3, 2, 1] := by
    rw [MainHeaders.ancestors_of_info hinfo4, hthree]
  have hfive : rowHeaders.ancestors 5 = [5, 4, 3, 2, 1] := by
    rw [MainHeaders.ancestors_of_info hinfo5, hfour]
  exact ⟨hthree, hfour, hfive⟩

/-- A deposit without value. -/
def rowDeposit : BlockEvent := .deposit ⟨7, 0, ⟨0, .bitcoin 0, []⟩⟩

/-- The submission of a bundle that the sidechain did not propose. -/
def rowEvent : BlockEvent := .withdrawalBundle ⟨9, .submitted⟩

/-- Block 2 has a deposit, block 3 may have a bundle event, and blocks 4 and 5 commit to the
sidechain blocks 10 and 11. -/
def rowBlocks (bundle : Bool) : Table MainBlockHash MainBlockInfo :=
  (((((∅ : Table MainBlockHash MainBlockInfo).insert 1 ⟨none, []⟩).insert 2
    ⟨none, [rowDeposit]⟩).insert 3 ⟨none, if bundle then [rowEvent] else []⟩).insert 4
      ⟨some 10, []⟩).insert 5 ⟨some 11, []⟩

theorem rowBlocks_cases {bundle : Bool} {h : MainBlockHash} {block : MainBlockInfo}
    (hblock : (rowBlocks bundle)[h]? = some block) :
    (h = 1 ∨ h = 2 ∨ h = 3) ∧ block.bmmCommitment = none ∨ h = 4 ∨ h = 5 := by
  unfold rowBlocks at hblock
  grind

def firstHeader : Header := ⟨0, none, 3⟩

def secondHeader : Header := ⟨0, some 10, 4⟩

def rowArchive (bundle : Bool) : MainArchive where
  toMainHeaders := rowHeaders
  exponentialMainAncestors := (((((∅ : Table MainBlockHash (List MainBlockHash)).insert 1
    []).insert 2 []).insert 3 [1]).insert 4 [2]).insert 5 [3, 1]
  totalWork := (((((∅ : Table MainBlockHash Nat).insert 1 1).insert 2 2).insert 3 3).insert 4
    4).insert 5 5
  mainBlockInfos := rowBlocks bundle
  headers := ((∅ : Table BlockHash Header).insert 10 firstHeader).insert 11 secondHeader
  bmmResults := ((∅ : Table BlockHash (List (MainBlockHash × BmmResult))).insert 10
    [(4, .verified)]).insert 11 [(5, .verified)]
  exponential := by
    intro h info hinfo
    obtain ⟨h3, h4, h5⟩ := ancestors_rowHeaders
    have hlarge : ∀ i, 2 ^ (i + 1) < 6 → i = 0 ∨ i = 1 := by
      intro i hi
      have hbound : 2 ^ (i + 1) < 2 ^ 3 := by omega
      have := (Nat.pow_lt_pow_iff_right (by decide)).mp hbound
      omega
    rcases rowInfos_cases hinfo with ⟨rfl, rfl⟩ | ⟨rfl, rfl⟩ | ⟨rfl, rfl⟩ | ⟨rfl, rfl⟩ | ⟨rfl, rfl⟩
    · refine ⟨[], rfl, fun i hi => ?_⟩
      have hi' : 2 ^ (i + 1) < 1 := hi
      rcases hlarge i (by omega) with rfl | rfl
      all_goals simp at hi'
    · refine ⟨[], rfl, fun i hi => ?_⟩
      have hi' : 2 ^ (i + 1) < 2 := hi
      rcases hlarge i (by omega) with rfl | rfl
      all_goals simp at hi'
    · refine ⟨[1], rfl, fun i hi => ?_⟩
      have hi' : 2 ^ (i + 1) < 3 := hi
      rcases hlarge i (by omega) with rfl | rfl
      · rw [h3]
        rfl
      · simp at hi'
    · refine ⟨[2], rfl, fun i hi => ?_⟩
      have hi' : 2 ^ (i + 1) < 4 := hi
      rcases hlarge i (by omega) with rfl | rfl
      · rw [h4]
        rfl
      · simp at hi'
    · refine ⟨[3, 1], rfl, fun i hi => ?_⟩
      have hi' : 2 ^ (i + 1) < 5 := hi
      rw [h5]
      rcases hlarge i (by omega) with rfl | rfl
      all_goals rfl
  work := by
    intro h info hinfo
    rcases rowInfos_cases hinfo with ⟨rfl, rfl⟩ | ⟨rfl, rfl⟩ | ⟨rfl, rfl⟩ | ⟨rfl, rfl⟩ | ⟨rfl, rfl⟩
    all_goals exact ⟨_, rfl⟩
  closed := by
    intro h block hblock
    rcases rowBlocks_cases hblock with ⟨rfl | rfl | rfl, -⟩ | rfl | rfl
    · exact ⟨⟨1, 0, 1, 10⟩, rfl, fun hne => absurd rfl hne⟩
    · exact ⟨⟨2, 1, 1, 20⟩, rfl, fun _ => ⟨_, rfl⟩⟩
    · exact ⟨⟨3, 2, 1, 30⟩, rfl, fun _ => ⟨_, rfl⟩⟩
    · exact ⟨⟨4, 3, 1, 40⟩, rfl, fun _ => ⟨_, rfl⟩⟩
    · exact ⟨⟨5, 4, 1, 50⟩, rfl, fun _ => ⟨_, rfl⟩⟩
  ordered := by
    intro hash header hheader
    have hcase : hash = 10 ∧ header = firstHeader ∨ hash = 11 ∧ header = secondHeader := by grind
    rcases hcase with ⟨rfl, rfl⟩ | ⟨rfl, rfl⟩
    all_goals decide
  placed := by
    intro hash rows main hrows hmem
    have hcase : hash = 10 ∧ rows = [(4, .verified)] ∨ hash = 11 ∧ rows = [(5, .verified)] := by
      grind
    rcases hcase with ⟨rfl, rfl⟩ | ⟨rfl, rfl⟩
    · obtain rfl : main = 4 := by simpa using hmem
      exact ⟨⟨4, 3, 1, 40⟩, rfl⟩
    · obtain rfl : main = 5 := by simpa using hmem
      exact ⟨⟨5, 4, 1, 50⟩, rfl⟩
  verified := by
    intro hash header rows main hheader hrows hmem
    have hcase : hash = 10 ∧ rows = [(4, .verified)] ∨ hash = 11 ∧ rows = [(5, .verified)] := by
      grind
    rcases hcase with ⟨rfl, rfl⟩ | ⟨rfl, rfl⟩
    · obtain rfl : main = 4 := by simpa using hmem
      obtain rfl : header = firstHeader := by grind
      exact ⟨⟨4, 3, 1, 40⟩, ⟨some 10, []⟩, rfl, rfl, rfl, rfl, nofun⟩
    · obtain rfl : main = 5 := by simpa using hmem
      obtain rfl : header = secondHeader := by grind
      refine ⟨⟨5, 4, 1, 50⟩, ⟨some 11, []⟩, rfl, rfl, rfl, rfl, ?_⟩
      rintro parent ⟨⟩
      refine ⟨[(4, .verified)], 4, rfl, by simp, ?_⟩
      rw [ancestors_rowHeaders.2.2]
      simp

theorem genesisUncommitted_rowArchive (bundle : Bool) : GenesisUncommitted (rowArchive bundle) := by
  intro h info block hinfo hblock hcommit hfirst
  rcases rowInfos_cases hinfo with ⟨rfl, rfl⟩ | ⟨rfl, rfl⟩ | ⟨rfl, rfl⟩ | ⟨rfl, rfl⟩ | ⟨rfl, rfl⟩
  · obtain rfl : (⟨none, []⟩ : MainBlockInfo) = block := Option.some.inj hblock
    exact hcommit rfl
  all_goals cases hfirst

/-- The slice of the first sidechain block. -/
def firstData (bundle : Bool) : TwoWayPegData :=
  ⟨[⟨1, []⟩, ⟨2, [rowDeposit]⟩, ⟨3, if bundle then [rowEvent] else []⟩]⟩

def secondData : TwoWayPegData := ⟨[⟨4, []⟩]⟩

def firstBlock (bundle : Bool) : SideBlock := ⟨10, firstHeader, 0, firstData bundle⟩

def secondBlock : SideBlock := ⟨11, secondHeader, 1, secondData⟩

theorem connected_rowArchive (bundle : Bool) :
    Connected (rowArchive bundle) [secondBlock, firstBlock bundle] := by
  have hknown : (rowArchive bundle).Known secondHeader.prevMainHash :=
    .inr ⟨⟨4, 3, 1, 40⟩, rfl⟩
  have hancestors : (rowArchive bundle).ancestors secondHeader.prevMainHash = [4, 3, 2, 1] :=
    ancestors_rowHeaders.2.1
  have hbatch : twoWayPegDataBatch (rowArchive bundle) none secondHeader =
      .ok ((firstData bundle).blockInfo ++ secondData.blockInfo) := by
    rw [twoWayPegDataBatch, MainHeaders.mainAncestorsUntil_eq hknown, ok_bind, hancestors]
    rfl
  have hverified : 4 ∈ verifications ((rowArchive bundle).getBmmResults 10) ∧
      5 ∈ verifications ((rowArchive bundle).getBmmResults 11) := by
    cases bundle <;> decide
  have hlinked : Linked (rowArchive bundle) none [(10, firstHeader), (11, secondHeader)] :=
    ⟨rfl, rfl, ⟨4, hverified.1⟩, rfl, rfl, ⟨5, hverified.2⟩, trivial⟩
  have hstart : Connected (rowArchive bundle) ([] ++ []) := .start
  have hblocks : Linked (rowArchive bundle) (tipHash [])
      ([(10, firstHeader)] ++ [(11, secondHeader)]) := hlinked
  exact .reorg hstart hblocks hbatch

theorem run_rowArchive (bundle : Bool) :
    ∃ s, Run constLib EmptyBlock AppendsLast
      ([secondBlock, firstBlock bundle].map SideBlock.peg) s := by
  have hruns : holds (do
      let p ← connect constLib (some 0) Node.empty.peg (firstData bundle)
      connect constLib (some 1) p secondData) (fun _ => true) = true := by
    cases bundle
    · rfl
    · rfl
  obtain ⟨q, hq, -⟩ := holds_iff.mp hruns
  rw [bind_eq_ok_iff] at hq
  obtain ⟨p, hp, hq⟩ := hq
  have hfirst : Run constLib EmptyBlock AppendsLast [] ⟨some 0, Node.empty.peg⟩ :=
    .block .start rfl rfl
  have hconnected : Run constLib EmptyBlock AppendsLast [(0, firstData bundle)] ⟨some 0, p⟩ := by
    refine .connect hfirst rfl ⟨?_, ?_⟩ hp
    · intro _ k hk
      exact absurd hk ExtTreeMap.not_mem_empty
    · intro _ k hk
      exact absurd hk ExtTreeMap.not_mem_empty
  have hnext : Run constLib EmptyBlock AppendsLast [(0, firstData bundle)] ⟨some 1, p⟩ :=
    .block hconnected rfl rfl
  refine ⟨⟨some 1, q⟩, .connect hnext rfl ⟨?_, ?_⟩ hq⟩
  · intro hsome
    exact absurd rfl hsome
  · intro hsome
    exact absurd rfl hsome

/-- With the deposit alone, the peg data of the second block is found again. -/
theorem rebuildPegData_eq_iff_deposit :
    ∃ s : Node, rebuildPegData (rowArchive false) s.peg.dbs 1 secondHeader =
      .ok (eventBearing secondData) := by
  obtain ⟨s, hrun⟩ := run_rowArchive false
  refine ⟨s, (rebuildPegData_eq_iff (genesisUncommitted_rowArchive false)
    (connected_rowArchive false) hrun).mpr ?_⟩
  rintro ⟨_, _, _, -, hevent, -⟩
  cases hevent

/-- With a bundle event after the deposit, disconnecting the second block also undoes the
bundle event of the first one. -/
theorem rebuilds_event_of_first_block :
    ¬ ∀ (A : MainArchive) (b : SideBlock) (rest : List SideBlock) (L : BundleLib)
      (B : Node → Node → Prop) (s : Node), GenesisUncommitted A → Connected A (b :: rest) →
        Run L B AppendsLast ((b :: rest).map SideBlock.peg) s →
          rebuildPegData A s.peg.dbs b.height b.header = .ok (eventBearing b.data) := by
  intro hall
  have hgenesis := genesisUncommitted_rowArchive true
  have hconnected := connected_rowArchive true
  obtain ⟨s, hrun⟩ := run_rowArchive true
  refine rebuildPegData_ne (sliced_of_connected hgenesis hconnected) hrun ?_
    (hall _ _ _ _ _ s hgenesis hconnected hrun)
  exact ⟨2, 3, 0, rfl, rfl, by decide⟩

end Truthcoin.PegRebuild
