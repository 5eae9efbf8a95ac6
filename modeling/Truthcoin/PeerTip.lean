import Truthcoin.Ancestors
import Truthcoin.TipCycles

/-!
# The tip of a peer

What a connection does with the tip that its peer announces: it compares the tip with the
node's own one, and it requests the headers that it needs. The comparison is that of the
better tip without the rule for first blocks.
-/

namespace Truthcoin.Archiving

open Truthcoin.Types Truthcoin.Table Truthcoin.Fallible Truthcoin.Blocks
open Truthcoin.Mainchain Truthcoin.Lineage

variable {B : Type}

/-- A tip with the height and the total work that are announced for it. -/
structure TipInfo where
  blockHeight : Nat
  tip : Tip
  totalWork : Nat
  deriving DecidableEq, Repr

structure GetHeadersRequest where
  /-- Headers are requested after the first ancestor found in this list. -/
  start : List BlockHash
  endHash : BlockHash
  height : Option Nat
  peerStateId : Option Nat
  deriving DecidableEq, Repr

/-- `some true` for a better peer tip with known headers, `some false` for one whose headers
are requested, none for a tip that is not better; with the requests that are sent. -/
abbrev PeerTipAnswer := Option Bool × List GetHeadersRequest

/-- Whether the record of the peer is the better one. -/
def peerRecordBetter (record peerRecord : Option (Nat × Nat)) : Option Bool :=
  match compare (optionRank (record.map Prod.snd)) (optionRank (peerRecord.map Prod.snd)),
      compare (optionRank (record.map Prod.fst)) (optionRank (peerRecord.map Prod.fst)) with
  | .lt, .eq | .eq, .eq | _, .gt => none
  | .gt, .eq | _, .lt => some true

/-- The record of the peer is lower, or as high and of at least as much work. -/
def RecordKept (record peerRecord : Option (Nat × Nat)) : Prop :=
  optionRank (peerRecord.map Prod.fst) < optionRank (record.map Prod.fst) ∨
    optionRank (record.map Prod.fst) = optionRank (peerRecord.map Prod.fst) ∧
      optionRank (record.map Prod.snd) ≤ optionRank (peerRecord.map Prod.snd)

namespace ArchiveDb

section

variable (db : ArchiveDb B)

/-- The parent of a block and its ancestors at exponential distances. -/
def getBlockLocator (blockHash : BlockHash) : Except ArchiveDbError (List BlockHash) := do
  let header ← db.getHeader blockHash
  let row ← okOr db.exponentialAncestors[blockHash]? (.noExponentialAncestors blockHash)
  .ok (header.prevSideHash.toList ++ row)

/-- As many rounds as a walk over the ancestors of a block takes. -/
def ancestorRounds (blockHash : BlockHash) : Nat :=
  db.blockHashToHeight[blockHash]?.getD 0 + 1

/-- Request the headers of the peer tip if they are not stored. -/
def requestHeaders (start : Except ArchiveDbError (List BlockHash)) (peerTipInfo : TipInfo)
    (peerStateId : Nat) (whenKnown : Except ArchiveDbError (Option Bool)) :
    Except ArchiveDbError PeerTipAnswer :=
  if peerTipInfo.tip.blockHash ∉ db.headers then do
    let start ← start
    .ok (some false,
      [⟨start, peerTipInfo.tip.blockHash, some peerTipInfo.blockHeight, some peerStateId⟩])
  else do
    let answer ← whenKnown
    .ok (answer, [])

/-- Compare the ancestors of tips of the same height and total work. -/
def comparePeerAncestors (tipInfo peerTipInfo : TipInfo) :
    Except ArchiveDbError (Option Bool) := do
  let mainAncestor ←
    db.lastCommonMainAncestor tipInfo.tip.mainBlockHash peerTipInfo.tip.mainBlockHash
  let mainAncestorHeight ← db.getMainHeight mainAncestor
  let ancestor ← db.findAncestor (db.heightWorkBefore mainAncestor mainAncestorHeight)
    (db.ancestorRounds tipInfo.tip.blockHash) (some tipInfo.tip.blockHash)
  let peerAncestor ← db.findAncestor (db.heightWorkBefore mainAncestor mainAncestorHeight)
    (db.ancestorRounds peerTipInfo.tip.blockHash) (some peerTipInfo.tip.blockHash)
  .ok (peerRecordBetter ancestor peerAncestor)

/-- Compare the tip of a peer with the node's own tip. -/
def comparePeerTip (tipInfo peerTipInfo : TipInfo) (peerStateId : Nat) :
    Except ArchiveDbError PeerTipAnswer :=
  let request := db.requestHeaders (db.getBlockLocator tipInfo.tip.blockHash) peerTipInfo
    peerStateId
  match compare tipInfo.totalWork peerTipInfo.totalWork,
      compare tipInfo.blockHeight peerTipInfo.blockHeight with
  | .lt, .lt | .eq, .lt => request (.ok (some true))
  | .eq, .gt | .gt, .gt => .ok (none, [])
  | .lt, .eq => do
      if ← db.sharedMainchainLineage tipInfo.tip.mainBlockHash peerTipInfo.tip.mainBlockHash then
        .ok (none, [])
      else request (.ok (some true))
  | .gt, .eq => do
      if !(← db.sharedMainchainLineage tipInfo.tip.mainBlockHash
          peerTipInfo.tip.mainBlockHash) then
        .ok (none, [])
      else request (.ok (some true))
  | .lt, .gt => do
      let mainAncestor ←
        db.lastCommonMainAncestor tipInfo.tip.mainBlockHash peerTipInfo.tip.mainBlockHash
      let ancestor ← db.findAncestor (db.heightBefore mainAncestor)
        (db.ancestorRounds tipInfo.tip.blockHash) (some tipInfo.tip.blockHash)
      if optionRank (some peerTipInfo.blockHeight) ≤ optionRank ancestor then .ok (none, [])
      else request (.ok (some true))
  | .gt, .lt =>
      request do
        let mainAncestor ←
          db.lastCommonMainAncestor tipInfo.tip.mainBlockHash peerTipInfo.tip.mainBlockHash
        let ancestor ← db.findAncestor (db.heightBefore mainAncestor)
          (db.ancestorRounds peerTipInfo.tip.blockHash) (some peerTipInfo.tip.blockHash)
        if optionRank ancestor < optionRank (some tipInfo.blockHeight) then .ok none
        else .ok (some true)
  | .eq, .eq =>
      if peerTipInfo.tip.blockHash = tipInfo.tip.blockHash then .ok (none, [])
      else request (db.comparePeerAncestors tipInfo peerTipInfo)

/-- Check if a peer tip is better, requesting headers if necessary. A peer tip that is not
verified on the node's own mainchain is ignored. -/
def checkPeerTipAndRequestHeaders (tipInfo : Option TipInfo) (peerTipInfo : TipInfo)
    (peerStateId : Nat) : Except ArchiveDbError PeerTipAnswer :=
  if peerTipInfo.tip.mainBlockHash ∉ db.mainHeaderInfos then .ok (none, [])
  else
    match db.sideTips.mainchainTip.tipInfo with
    | none => .ok (none, [])
    | some mainTipInfo => do
        if !(← db.isMainDescendant peerTipInfo.tip.mainBlockHash mainTipInfo.blockHash) then
          .ok (none, [])
        else
          match tipInfo with
          | none => db.requestHeaders (.ok []) peerTipInfo peerStateId (.ok (some true))
          | some tipInfo => db.comparePeerTip tipInfo peerTipInfo peerStateId

/-- The header of the tip is stored, and its height and total work are the announced ones. -/
structure Announced (tipInfo : TipInfo) : Prop where
  height : db.blockHashToHeight[tipInfo.tip.blockHash]? = some tipInfo.blockHeight
  work : db.totalWork[tipInfo.tip.mainBlockHash]? = some tipInfo.totalWork

/-- The mainchain tip is synced, and the mainchain block of the peer is on its chain. -/
def OnOurMainchain (main : MainBlockHash) : Prop :=
  ∃ info, db.sideTips.mainchainTip.tipInfo = some info ∧
    db.mainIndex.OnChain main info.blockHash

/-- The answer is that the peer tip is better exactly when it is the better tip, and there is
an answer when there is a better tip or none. -/
def PeerTipAgrees (tipInfo peerTipInfo : TipInfo) (peerStateId : Nat) : Prop :=
  ((∃ requests, db.checkPeerTipAndRequestHeaders (some tipInfo) peerTipInfo peerStateId =
      .ok (some true, requests)) ↔
    db.betterTip tipInfo.tip peerTipInfo.tip = .ok (some peerTipInfo.tip)) ∧
  ((∃ better, db.betterTip tipInfo.tip peerTipInfo.tip = .ok better) →
    ∃ answer, db.checkPeerTipAndRequestHeaders (some tipInfo) peerTipInfo peerStateId =
      .ok answer)

/-- One of the two mainchain blocks is an ancestor of the other. -/
def SharedLineage (main0 main1 : MainBlockHash) : Prop :=
  main0 ∈ db.mainIndex.ancestors main1 ∨ main1 ∈ db.mainIndex.ancestors main0

instance {main0 main1 : MainBlockHash} : Decidable (db.SharedLineage main0 main1) :=
  inferInstanceAs (Decidable (_ ∨ _))

/-- What the peer tip is compared with if both tips are first blocks: the works and the
lineage do not prefer the peer, and for the same work neither do the records. -/
def FirstNotBetter (tipInfo peerTipInfo : TipInfo) : Prop :=
  (tipInfo.totalWork < peerTipInfo.totalWork ∧
    db.SharedLineage tipInfo.tip.mainBlockHash peerTipInfo.tip.mainBlockHash) ∨
  (peerTipInfo.totalWork < tipInfo.totalWork ∧
    ¬ db.SharedLineage tipInfo.tip.mainBlockHash peerTipInfo.tip.mainBlockHash) ∨
  (tipInfo.totalWork = peerTipInfo.totalWork ∧
    (peerTipInfo.tip.blockHash = tipInfo.tip.blockHash ∨
      ∃ c record peerRecord,
        db.lastCommonMainAncestor tipInfo.tip.mainBlockHash peerTipInfo.tip.mainBlockHash =
          .ok c ∧ db.standing c tipInfo.tip.blockHash = some record ∧
        db.standing c peerTipInfo.tip.blockHash = some peerRecord ∧
        RecordKept record peerRecord))

/-- An ancestor of the block names a mainchain block before the last common one. -/
def NamesBefore (main0 main1 : MainBlockHash) (b : BlockHash) : Prop :=
  ∃ c record, db.lastCommonMainAncestor main0 main1 = .ok c ∧
    db.standing c b = some (some record)

/-- Neither tip is a first block, or the comparison by work has the answer that first blocks
should get: a first block is never better, and every other tip is better than it. -/
def ZeroHeightsAgree (tipInfo peerTipInfo : TipInfo) : Prop :=
  match tipInfo.blockHeight, peerTipInfo.blockHeight with
  | 0, 0 => db.FirstNotBetter tipInfo peerTipInfo
  | 0, _ + 1 =>
      tipInfo.totalWork ≤ peerTipInfo.totalWork ∨
        db.NamesBefore tipInfo.tip.mainBlockHash peerTipInfo.tip.mainBlockHash
          peerTipInfo.tip.blockHash
  | _ + 1, 0 =>
      peerTipInfo.totalWork ≤ tipInfo.totalWork ∨
        db.NamesBefore tipInfo.tip.mainBlockHash peerTipInfo.tip.mainBlockHash
          tipInfo.tip.blockHash
  | _ + 1, _ + 1 => True

end

variable {hashes : Hashes} {db : ArchiveDb B} {tipInfo peerTipInfo : TipInfo} {peerStateId : Nat}

theorem Announced.rounds (h : db.Announced tipInfo) :
    db.ancestorRounds tipInfo.tip.blockHash = tipInfo.blockHeight + 1 := by
  rw [ancestorRounds, h.height, Option.getD_some]

/-- The answer for a tip that is preferred by work. -/
def preferenceAnswer (peerTip preferred : Tip) : PeerTipAnswer :=
  if preferred = peerTip then (some true, []) else (none, [])

theorem requestHeaders_of_known {start : Except ArchiveDbError (List BlockHash)}
    {whenKnown : Except ArchiveDbError (Option Bool)}
    (hknown : peerTipInfo.tip.blockHash ∈ db.headers) :
    db.requestHeaders start peerTipInfo peerStateId whenKnown =
      whenKnown >>= fun answer => .ok (answer, []) := by
  rw [requestHeaders, if_neg (not_not_intro hknown)]

theorem preferRecord_eq {tip0 tip1 : Tip} {record0 record1 : Option (Nat × Nat)} :
    preferRecord tip0 tip1 record0 record1 =
      if peerRecordBetter record0 record1 = none then tip0 else tip1 := by
  rw [preferRecord, peerRecordBetter]
  cases compare (optionRank (record0.map Prod.snd)) (optionRank (record1.map Prod.snd)) <;>
    cases compare (optionRank (record0.map Prod.fst)) (optionRank (record1.map Prod.fst)) <;>
      rfl

theorem peerRecordBetter_cases (record0 record1 : Option (Nat × Nat)) :
    peerRecordBetter record0 record1 = none ∨ peerRecordBetter record0 record1 = some true := by
  rw [peerRecordBetter]
  cases compare (optionRank (record0.map Prod.snd)) (optionRank (record1.map Prod.snd)) <;>
    cases compare (optionRank (record0.map Prod.fst)) (optionRank (record1.map Prod.fst)) <;>
      simp

/-- With known headers the peer tip is compared as the better tip is by work, whatever the
heights are. -/
theorem comparePeerTip_eq (hne : tipInfo.tip ≠ peerTipInfo.tip) (hown : db.Announced tipInfo)
    (hpeer : db.Announced peerTipInfo) (hknown : peerTipInfo.tip.blockHash ∈ db.headers) :
    db.comparePeerTip tipInfo peerTipInfo peerStateId =
      (preferenceAnswer peerTipInfo.tip) <$> db.betterByWork tipInfo.tip peerTipInfo.tip
        tipInfo.blockHeight peerTipInfo.blockHeight tipInfo.totalWork peerTipInfo.totalWork := by
  have hpeerAnswer : preferenceAnswer peerTipInfo.tip peerTipInfo.tip = (some true, []) :=
    if_pos rfl
  have hownAnswer : preferenceAnswer peerTipInfo.tip tipInfo.tip = (none, []) := if_neg hne
  rw [comparePeerTip, betterByWork]
  simp only [requestHeaders_of_known hknown, hown.rounds, hpeer.rounds]
  rcases Nat.lt_trichotomy tipInfo.totalWork peerTipInfo.totalWork with hw | hw | hw
  · rw [Nat.compare_eq_lt.mpr hw]
    rcases Nat.lt_trichotomy tipInfo.blockHeight peerTipInfo.blockHeight with hh | hh | hh
    · rw [Nat.compare_eq_lt.mpr hh]
      exact congrArg Except.ok hpeerAnswer.symm
    · rw [Nat.compare_eq_eq.mpr hh]
      cases db.sharedMainchainLineage tipInfo.tip.mainBlockHash peerTipInfo.tip.mainBlockHash with
      | error e => rfl
      | ok shared =>
          cases shared with
          | false => exact congrArg Except.ok hpeerAnswer.symm
          | true => exact congrArg Except.ok hownAnswer.symm
    · rw [Nat.compare_eq_gt.mpr hh]
      cases db.lastCommonMainAncestor tipInfo.tip.mainBlockHash
          peerTipInfo.tip.mainBlockHash with
      | error e => rfl
      | ok c =>
          simp only [ok_bind]
          cases db.findAncestor (db.heightBefore c) (tipInfo.blockHeight + 1)
              (some tipInfo.tip.blockHash) with
          | error e => rfl
          | ok ancestor =>
              simp only [ok_bind]
              split
              · exact congrArg Except.ok hownAnswer.symm
              · exact congrArg Except.ok hpeerAnswer.symm
  · rw [Nat.compare_eq_eq.mpr hw]
    rcases Nat.lt_trichotomy tipInfo.blockHeight peerTipInfo.blockHeight with hh | hh | hh
    · rw [Nat.compare_eq_lt.mpr hh]
      exact congrArg Except.ok hpeerAnswer.symm
    · rw [Nat.compare_eq_eq.mpr hh]
      by_cases hsame : peerTipInfo.tip.blockHash = tipInfo.tip.blockHash
      · simp only [if_pos hsame, if_pos hsame.symm]
        exact congrArg Except.ok hownAnswer.symm
      · have hsame' : ¬ tipInfo.tip.blockHash = peerTipInfo.tip.blockHash := fun h => hsame h.symm
        simp only [if_neg hsame, if_neg hsame', comparePeerAncestors, betterAncestor, hown.rounds,
          hpeer.rounds, hh]
        cases db.lastCommonMainAncestor tipInfo.tip.mainBlockHash
            peerTipInfo.tip.mainBlockHash with
        | error e => rfl
        | ok c =>
            simp only [ok_bind]
            cases db.getMainHeight c with
            | error e => rfl
            | ok n =>
                simp only [ok_bind]
                cases db.findAncestor (db.heightWorkBefore c n) (peerTipInfo.blockHeight + 1)
                    (some tipInfo.tip.blockHash) with
                | error e => rfl
                | ok record =>
                    simp only [ok_bind]
                    cases db.findAncestor (db.heightWorkBefore c n) (peerTipInfo.blockHeight + 1)
                        (some peerTipInfo.tip.blockHash) with
                    | error e => rfl
                    | ok peerRecord =>
                        simp only [ok_bind, preferRecord_eq]
                        rcases peerRecordBetter_cases record peerRecord with h | h
                        · rw [h, if_pos rfl]
                          exact congrArg Except.ok hownAnswer.symm
                        · rw [h, if_neg (by simp)]
                          exact congrArg Except.ok hpeerAnswer.symm
    · rw [Nat.compare_eq_gt.mpr hh]
      exact congrArg Except.ok hownAnswer.symm
  · rw [Nat.compare_eq_gt.mpr hw]
    rcases Nat.lt_trichotomy tipInfo.blockHeight peerTipInfo.blockHeight with hh | hh | hh
    · rw [Nat.compare_eq_lt.mpr hh]
      cases db.lastCommonMainAncestor tipInfo.tip.mainBlockHash
          peerTipInfo.tip.mainBlockHash with
      | error e => rfl
      | ok c =>
          simp only [ok_bind]
          cases db.findAncestor (db.heightBefore c) (peerTipInfo.blockHeight + 1)
              (some peerTipInfo.tip.blockHash) with
          | error e => rfl
          | ok ancestor =>
              simp only [ok_bind]
              split
              · exact congrArg Except.ok hownAnswer.symm
              · exact congrArg Except.ok hpeerAnswer.symm
    · rw [Nat.compare_eq_eq.mpr hh]
      cases db.sharedMainchainLineage tipInfo.tip.mainBlockHash peerTipInfo.tip.mainBlockHash with
      | error e => rfl
      | ok shared =>
          cases shared with
          | false => exact congrArg Except.ok hownAnswer.symm
          | true => exact congrArg Except.ok hpeerAnswer.symm
    · rw [Nat.compare_eq_gt.mpr hh]
      exact congrArg Except.ok hownAnswer.symm

theorem peerRecordBetter_eq_none_iff {record peerRecord : Option (Nat × Nat)} :
    peerRecordBetter record peerRecord = none ↔ RecordKept record peerRecord := by
  rw [peerRecordBetter, RecordKept]
  rcases Nat.lt_trichotomy (optionRank (record.map Prod.fst))
    (optionRank (peerRecord.map Prod.fst)) with hfst | hfst | hfst
  · rw [Nat.compare_eq_lt.mpr hfst]
    simp only [reduceCtorEq, false_iff]
    omega
  · rw [Nat.compare_eq_eq.mpr hfst]
    rcases Nat.lt_trichotomy (optionRank (record.map Prod.snd))
      (optionRank (peerRecord.map Prod.snd)) with hsnd | hsnd | hsnd
    · rw [Nat.compare_eq_lt.mpr hsnd]
      simp only [true_iff]
      omega
    · rw [Nat.compare_eq_eq.mpr hsnd]
      simp only [true_iff]
      omega
    · rw [Nat.compare_eq_gt.mpr hsnd]
      simp only [reduceCtorEq, false_iff]
      omega
  · rw [Nat.compare_eq_gt.mpr hfst]
    simp only [true_iff]
    omega

theorem MainSound.stored_of_announced (hdb : db.MainSound hashes) (h : db.Announced tipInfo) :
    tipInfo.tip.mainBlockHash ∈ db.mainHeaderInfos :=
  hdb.workKnown (mem_iff_lookup.mpr ⟨_, h.work⟩)

theorem info_of_onChain {a d : MainBlockHash} {info : MainHeaderInfo}
    (ha : db.mainHeaderInfos[a]? = some info) (h : db.mainIndex.OnChain a d) :
    ∃ info, db.mainHeaderInfos[d]? = some info := by
  obtain ⟨n, hn⟩ := h
  cases n with
  | zero =>
      obtain rfl := Option.some.inj hn
      exact ⟨info, ha⟩
  | succ n =>
      cases hd : db.mainHeaderInfos[d]? with
      | some info => exact ⟨info, rfl⟩
      | none =>
          have hparent : db.mainIndex.parent d = none := by
            show db.mainHeaderInfos[d]?.map mainParent = none
            rw [hd, Option.map_none]
          rw [Index.nthParent, hparent] at hn
          cases hn

theorem MainSound.checkPeerTip_eq (hdb : db.MainSound hashes) (hpeer : db.Announced peerTipInfo)
    (hmain : db.OnOurMainchain peerTipInfo.tip.mainBlockHash) :
    db.checkPeerTipAndRequestHeaders (some tipInfo) peerTipInfo peerStateId =
      db.comparePeerTip tipInfo peerTipInfo peerStateId := by
  have hstored := hdb.stored_of_announced hpeer
  obtain ⟨mainTipInfo, htip, hon⟩ := hmain
  obtain ⟨info, hinfo⟩ := mem_iff_lookup.mp hstored
  obtain ⟨info', hinfo'⟩ := info_of_onChain hinfo hon
  obtain ⟨n, hn⟩ := hdb.height hinfo'
  have hdescendant := hdb.isMainDescendant_eq hinfo hinfo'
  rw [decide_eq_true ((Index.onChain_iff hdb.rooted hn).mp hon)] at hdescendant
  rw [checkPeerTipAndRequestHeaders, if_neg (not_not_intro hstored), htip]
  simp only [hdescendant, ok_bind, Bool.not_true, if_neg Bool.false_ne_true]

/-- Equal tips are announced with the same height and work, so neither is better. -/
theorem comparePeerTip_self (peerStateId : Nat) (heq : tipInfo.tip = peerTipInfo.tip)
    (hown : db.Announced tipInfo) (hpeer : db.Announced peerTipInfo) :
    tipInfo.blockHeight = peerTipInfo.blockHeight ∧
      tipInfo.totalWork = peerTipInfo.totalWork ∧
      db.comparePeerTip tipInfo peerTipInfo peerStateId = .ok (none, []) := by
  have hheight := hown.height
  have hwork := hown.work
  rw [heq, hpeer.height, Option.some.injEq] at hheight
  rw [heq, hpeer.work, Option.some.injEq] at hwork
  refine ⟨hheight.symm, hwork.symm, ?_⟩
  rw [comparePeerTip, ← hheight, ← hwork, Nat.compare_eq_eq.mpr rfl, Nat.compare_eq_eq.mpr rfl]
  exact if_pos (congrArg Tip.blockHash heq.symm)

theorem betterByWork_cases {tip0 tip1 tip : Tip} {height0 height1 work0 work1 : Nat}
    (h : db.betterByWork tip0 tip1 height0 height1 work0 work1 = .ok tip) :
    tip = tip0 ∨ tip = tip1 := by
  rw [betterByWork] at h
  split at h
  · exact .inr (Except.ok.inj h).symm
  · exact .inr (Except.ok.inj h).symm
  · exact .inl (Except.ok.inj h).symm
  · exact .inl (Except.ok.inj h).symm
  · obtain ⟨shared, -, h⟩ := bind_eq_ok_iff.mp h
    split at h
    · exact .inl (Except.ok.inj h).symm
    · exact .inr (Except.ok.inj h).symm
  · obtain ⟨shared, -, h⟩ := bind_eq_ok_iff.mp h
    split at h
    · exact .inl (Except.ok.inj h).symm
    · exact .inr (Except.ok.inj h).symm
  · obtain ⟨c, -, h⟩ := bind_eq_ok_iff.mp h
    obtain ⟨ancestor, -, h⟩ := bind_eq_ok_iff.mp h
    split at h
    · exact .inl (Except.ok.inj h).symm
    · exact .inr (Except.ok.inj h).symm
  · obtain ⟨c, -, h⟩ := bind_eq_ok_iff.mp h
    obtain ⟨ancestor, -, h⟩ := bind_eq_ok_iff.mp h
    split at h
    · exact .inl (Except.ok.inj h).symm
    · exact .inr (Except.ok.inj h).symm
  · split at h
    · exact .inl (Except.ok.inj h).symm
    · rw [betterAncestor] at h
      obtain ⟨c, -, h⟩ := bind_eq_ok_iff.mp h
      obtain ⟨n, -, h⟩ := bind_eq_ok_iff.mp h
      obtain ⟨record0, -, h⟩ := bind_eq_ok_iff.mp h
      obtain ⟨record1, -, h⟩ := bind_eq_ok_iff.mp h
      rw [← Except.ok.inj h, preferRecord_eq]
      split
      · exact .inl rfl
      · exact .inr rfl

theorem betterTip_eq (hne : tipInfo.tip ≠ peerTipInfo.tip) (hown : db.Announced tipInfo)
    (hpeer : db.Announced peerTipInfo) :
    db.betterTip tipInfo.tip peerTipInfo.tip =
      match tipInfo.blockHeight, peerTipInfo.blockHeight with
      | 0, 0 => .ok none
      | 0, _ => .ok (some peerTipInfo.tip)
      | _, 0 => .ok (some tipInfo.tip)
      | _, _ => some <$> db.betterByWork tipInfo.tip peerTipInfo.tip tipInfo.blockHeight
          peerTipInfo.blockHeight tipInfo.totalWork peerTipInfo.totalWork := by
  rw [betterTip, if_neg hne, getHeight, hown.height, okOr_some, ok_bind, getHeight, hpeer.height,
    okOr_some, ok_bind]
  cases tipInfo.blockHeight with
  | zero =>
      cases peerTipInfo.blockHeight with
      | zero => rfl
      | succ n => rfl
  | succ n =>
      cases peerTipInfo.blockHeight with
      | zero => rfl
      | succ m =>
          simp only [getTotalWork, hown.work, hpeer.work, okOr_some, ok_bind]
          cases db.betterByWork tipInfo.tip peerTipInfo.tip (n + 1) (m + 1) tipInfo.totalWork
            peerTipInfo.totalWork with
          | error e => rfl
          | ok tip => rfl

theorem answer_better_iff {peerTip : Tip} {x : Except ArchiveDbError Tip} :
    (∃ requests, preferenceAnswer peerTip <$> x = .ok (some true, requests)) ↔
      x = .ok peerTip := by
  cases x with
  | error e => simp
  | ok tip =>
      by_cases h : tip = peerTip
      · simp [preferenceAnswer, h]
      · simp [preferenceAnswer, h]

theorem answer_exists_iff {peerTip : Tip} {x : Except ArchiveDbError Tip} :
    (∃ answer, preferenceAnswer peerTip <$> x = .ok answer) ↔ ∃ tip, x = .ok tip := by
  cases x with
  | error e => simp
  | ok tip => simp

/-- The comparison by work gives the answer that first blocks should get. -/
def ZeroHeightsByWork (db : ArchiveDb B) (tipInfo peerTipInfo : TipInfo) : Prop :=
  let better := db.betterByWork tipInfo.tip peerTipInfo.tip tipInfo.blockHeight
    peerTipInfo.blockHeight tipInfo.totalWork peerTipInfo.totalWork
  match tipInfo.blockHeight, peerTipInfo.blockHeight with
  | 0, 0 => better = .ok tipInfo.tip
  | 0, _ + 1 => better = .ok peerTipInfo.tip
  | _ + 1, 0 => better = .ok tipInfo.tip
  | _ + 1, _ + 1 => True

theorem MainSound.peerTipAgrees_iff (hdb : db.MainSound hashes)
    (hne : tipInfo.tip ≠ peerTipInfo.tip) (hown : db.Announced tipInfo)
    (hpeer : db.Announced peerTipInfo) (hknown : peerTipInfo.tip.blockHash ∈ db.headers)
    (hmain : db.OnOurMainchain peerTipInfo.tip.mainBlockHash) :
    db.PeerTipAgrees tipInfo peerTipInfo peerStateId ↔
      db.ZeroHeightsByWork tipInfo peerTipInfo := by
  rw [PeerTipAgrees, hdb.checkPeerTip_eq hpeer hmain, comparePeerTip_eq hne hown hpeer hknown,
    answer_better_iff, answer_exists_iff, betterTip_eq hne hown hpeer, ZeroHeightsByWork]
  have hcases : ∀ tip, db.betterByWork tipInfo.tip peerTipInfo.tip tipInfo.blockHeight
      peerTipInfo.blockHeight tipInfo.totalWork peerTipInfo.totalWork = .ok tip →
        tip = tipInfo.tip ∨ tip = peerTipInfo.tip := fun tip htip => betterByWork_cases htip
  generalize db.betterByWork tipInfo.tip peerTipInfo.tip tipInfo.blockHeight
    peerTipInfo.blockHeight tipInfo.totalWork peerTipInfo.totalWork = better at hcases ⊢
  cases tipInfo.blockHeight with
  | zero =>
      cases peerTipInfo.blockHeight with
      | zero =>
          constructor
          · rintro ⟨hbetter, hanswer⟩
            obtain ⟨tip, htip⟩ := hanswer ⟨none, rfl⟩
            rcases hcases tip htip with rfl | rfl
            · exact htip
            · cases hbetter.mp htip
          · intro hbetter
            refine ⟨?_, fun _ => ⟨_, hbetter⟩⟩
            rw [hbetter, Except.ok.injEq]
            exact ⟨fun h => absurd h hne, fun h => by cases h⟩
      | succ n =>
          constructor
          · rintro ⟨hbetter, -⟩
            exact hbetter.mpr rfl
          · intro hbetter
            exact ⟨⟨fun _ => rfl, fun _ => hbetter⟩, fun _ => ⟨_, hbetter⟩⟩
  | succ n =>
      cases peerTipInfo.blockHeight with
      | zero =>
          have hfirst : ¬ (Except.ok (some tipInfo.tip) : Except ArchiveDbError (Option Tip)) =
              .ok (some peerTipInfo.tip) :=
            fun h => hne (Option.some.inj (Except.ok.inj h))
          constructor
          · rintro ⟨hbetter, hanswer⟩
            obtain ⟨tip, htip⟩ := hanswer ⟨some tipInfo.tip, rfl⟩
            rcases hcases tip htip with rfl | rfl
            · exact htip
            · exact absurd (hbetter.mp htip) hfirst
          · intro hbetter
            refine ⟨?_, fun _ => ⟨_, hbetter⟩⟩
            rw [hbetter, Except.ok.injEq]
            exact ⟨fun h => absurd h hne, fun h => absurd h hfirst⟩
      | succ m =>
          refine ⟨fun _ => trivial, fun _ => ?_⟩
          cases better with
          | error e => simp
          | ok tip => simp

theorem BmmInvariant.namesBefore_iff (hdb : db.BmmInvariant hashes) {height : Nat}
    {b : BlockHash} {main0 main1 : MainBlockHash} (hb : db.sideIndex.height b = some height)
    (h0 : main0 ∈ db.mainHeaderInfos) (h1 : main1 ∈ db.mainHeaderInfos) :
    db.NamesBefore main0 main1 b ↔
      ∃ c ancestor, db.lastCommonMainAncestor main0 main1 = .ok c ∧
        db.findAncestor (db.heightBefore c) (height + 1) (some b) = .ok (some ancestor) := by
  obtain ⟨info0, hinfo0⟩ := mem_iff_lookup.mp h0
  obtain ⟨info1, hinfo1⟩ := mem_iff_lookup.mp h1
  obtain ⟨c, -, n, -, hc, -, hn, -⟩ := hdb.main.standing_comm hinfo0 hinfo1
  have hsearch := hdb.toOption_findAncestor_height hn hb
  rw [NamesBefore, hc]
  constructor
  · rintro ⟨c', record, hc', hrecord⟩
    obtain rfl := Except.ok.inj hc'
    rw [hrecord, Option.map_some, Option.map_some, toOption_eq_some_iff] at hsearch
    exact ⟨c, record.1, rfl, hsearch⟩
  · rintro ⟨c', ancestor, hc', hancestor⟩
    obtain rfl := Except.ok.inj hc'
    rw [toOption_eq_some_iff.mpr hancestor] at hsearch
    obtain ⟨standing, hstanding, hmap⟩ := Option.map_eq_some_iff.mp hsearch.symm
    obtain ⟨record, rfl, -⟩ := Option.map_eq_some_iff.mp hmap
    exact ⟨c, record, rfl, hstanding⟩

theorem BmmInvariant.betterAncestor_eq_own_iff (hdb : db.BmmInvariant hashes)
    (hne : tipInfo.tip ≠ peerTipInfo.tip) (hown : db.Announced tipInfo)
    (hpeer : db.Announced peerTipInfo) (hheight : tipInfo.blockHeight = peerTipInfo.blockHeight) :
    db.betterAncestor tipInfo.tip peerTipInfo.tip tipInfo.blockHeight = .ok tipInfo.tip ↔
      ∃ c record peerRecord,
        db.lastCommonMainAncestor tipInfo.tip.mainBlockHash peerTipInfo.tip.mainBlockHash =
          .ok c ∧ db.standing c tipInfo.tip.blockHash = some record ∧
        db.standing c peerTipInfo.tip.blockHash = some peerRecord ∧
        RecordKept record peerRecord := by
  obtain ⟨info0, h0⟩ := mem_iff_lookup.mp (hdb.main.stored_of_announced hown)
  obtain ⟨info1, h1⟩ := mem_iff_lookup.mp (hdb.main.stored_of_announced hpeer)
  obtain ⟨c, -, n, -, hc, -, hn, -⟩ := hdb.main.standing_comm h0 h1
  have hmainHeight : db.getMainHeight c = .ok n := okOr_eq_ok_iff.mpr hn
  have hsearch := hdb.toOption_findAncestor hn hown.height
  have hpeerSearch := hdb.toOption_findAncestor hn hpeer.height
  rw [← hheight] at hpeerSearch
  have hpreferred : ∀ record peerRecord,
      preferRecord tipInfo.tip peerTipInfo.tip record peerRecord = tipInfo.tip ↔
        RecordKept record peerRecord := by
    intro record peerRecord
    rw [preferRecord_eq, ← peerRecordBetter_eq_none_iff]
    split
    · rename_i hkept
      exact ⟨fun _ => hkept, fun _ => rfl⟩
    · rename_i hkept
      exact ⟨fun h => absurd h.symm hne, fun h => absurd h hkept⟩
  constructor
  · intro h
    obtain ⟨c', hc', h⟩ := bind_eq_ok_iff.mp h
    obtain rfl := Except.ok.inj (hc.symm.trans hc')
    obtain ⟨n', hn', h⟩ := bind_eq_ok_iff.mp h
    obtain rfl := Except.ok.inj (hmainHeight.symm.trans hn')
    obtain ⟨record, hrecord, h⟩ := bind_eq_ok_iff.mp h
    obtain ⟨peerRecord, hpeerRecord, h⟩ := bind_eq_ok_iff.mp h
    rw [toOption_eq_some_iff.mpr hrecord] at hsearch
    rw [toOption_eq_some_iff.mpr hpeerRecord] at hpeerSearch
    exact ⟨c, record, peerRecord, hc, hsearch.symm, hpeerSearch.symm,
      (hpreferred record peerRecord).mp (Except.ok.inj h)⟩
  · rintro ⟨c', record, peerRecord, hc', hrecord, hpeerRecord, hkept⟩
    obtain rfl := Except.ok.inj (hc.symm.trans hc')
    have hown' := toOption_eq_some_iff.mp (hsearch.trans hrecord)
    have hpeer' := toOption_eq_some_iff.mp (hpeerSearch.trans hpeerRecord)
    rw [betterAncestor, hc, ok_bind, hmainHeight, ok_bind, hown', ok_bind, hpeer', ok_bind,
      (hpreferred record peerRecord).mpr hkept]

/-- Two first blocks are compared as tips of the same height. -/
theorem BmmInvariant.betterByWork_eq_own_iff (hdb : db.BmmInvariant hashes)
    (hne : tipInfo.tip ≠ peerTipInfo.tip) (hown : db.Announced tipInfo)
    (hpeer : db.Announced peerTipInfo) (hheight : tipInfo.blockHeight = peerTipInfo.blockHeight) :
    db.betterByWork tipInfo.tip peerTipInfo.tip tipInfo.blockHeight peerTipInfo.blockHeight
        tipInfo.totalWork peerTipInfo.totalWork = .ok tipInfo.tip ↔
      db.FirstNotBetter tipInfo peerTipInfo := by
  obtain ⟨info0, h0⟩ := mem_iff_lookup.mp (hdb.main.stored_of_announced hown)
  obtain ⟨info1, h1⟩ := mem_iff_lookup.mp (hdb.main.stored_of_announced hpeer)
  obtain ⟨n0, hn0⟩ := hdb.main.height h0
  obtain ⟨n1, hn1⟩ := hdb.main.height h1
  have hshared : db.sharedMainchainLineage tipInfo.tip.mainBlockHash
      peerTipInfo.tip.mainBlockHash = .ok (decide (db.SharedLineage tipInfo.tip.mainBlockHash
        peerTipInfo.tip.mainBlockHash)) :=
    Index.sharedLineage_eq hdb.main.rooted hn0 hn1 (hdb.main.rows_of_ancestors hn0)
      (hdb.main.rows_of_ancestors hn1)
  rw [betterByWork, Nat.compare_eq_eq.mpr hheight, FirstNotBetter]
  rcases Nat.lt_trichotomy tipInfo.totalWork peerTipInfo.totalWork with hw | hw | hw
  · rw [Nat.compare_eq_lt.mpr hw]
    simp only [hshared, ok_bind, decide_eq_true_eq]
    constructor
    · intro h
      split at h
      · rename_i hlineage
        exact .inl ⟨hw, hlineage⟩
      · exact absurd (Except.ok.inj h).symm hne
    · rintro (⟨-, hlineage⟩ | ⟨hgt, -⟩ | ⟨heq, -⟩)
      · rw [if_pos hlineage]
      · omega
      · omega
  · rw [Nat.compare_eq_eq.mpr hw]
    by_cases hsame : tipInfo.tip.blockHash = peerTipInfo.tip.blockHash
    · simp only [if_pos hsame, true_iff]
      exact .inr (.inr ⟨hw, .inl hsame.symm⟩)
    · simp only [if_neg hsame]
      rw [hdb.betterAncestor_eq_own_iff hne hown hpeer hheight]
      constructor
      · intro h
        exact .inr (.inr ⟨hw, .inr h⟩)
      · rintro (⟨hlt, -⟩ | ⟨hgt, -⟩ | ⟨-, heq | h⟩)
        · omega
        · omega
        · exact absurd heq.symm hsame
        · exact h
  · rw [Nat.compare_eq_gt.mpr hw]
    simp only [hshared, ok_bind, Bool.not_eq_true', decide_eq_false_iff_not]
    constructor
    · intro h
      split at h
      · rename_i hlineage
        exact .inr (.inl ⟨hw, hlineage⟩)
      · exact absurd (Except.ok.inj h).symm hne
    · rintro (⟨hlt, -⟩ | ⟨-, hlineage⟩ | ⟨heq, -⟩)
      · omega
      · rw [if_pos hlineage]
      · omega

/-- A higher tip is preferred to a first block, or an ancestor of it names a mainchain block
before the last common one. -/
theorem BmmInvariant.betterByWork_zero_iff (hdb : db.BmmInvariant hashes)
    (hne : tipInfo.tip ≠ peerTipInfo.tip) (hown : db.Announced tipInfo)
    (hpeer : db.Announced peerTipInfo) {n : Nat} (hzero : tipInfo.blockHeight = 0)
    (hpos : peerTipInfo.blockHeight = n + 1) :
    db.betterByWork tipInfo.tip peerTipInfo.tip tipInfo.blockHeight peerTipInfo.blockHeight
        tipInfo.totalWork peerTipInfo.totalWork = .ok peerTipInfo.tip ↔
      tipInfo.totalWork ≤ peerTipInfo.totalWork ∨
        db.NamesBefore tipInfo.tip.mainBlockHash peerTipInfo.tip.mainBlockHash
          peerTipInfo.tip.blockHash := by
  have hlt : tipInfo.blockHeight < peerTipInfo.blockHeight := by omega
  rw [betterByWork, Nat.compare_eq_lt.mpr hlt,
    hdb.namesBefore_iff hpeer.height (hdb.main.stored_of_announced hown)
      (hdb.main.stored_of_announced hpeer)]
  rcases Nat.lt_trichotomy tipInfo.totalWork peerTipInfo.totalWork with hw | hw | hw
  · rw [Nat.compare_eq_lt.mpr hw]
    simp only [true_iff]
    exact .inl hw.le
  · rw [Nat.compare_eq_eq.mpr hw]
    simp only [true_iff]
    exact .inl hw.le
  · rw [Nat.compare_eq_gt.mpr hw]
    constructor
    · intro h
      obtain ⟨c, hc, h⟩ := bind_eq_ok_iff.mp h
      obtain ⟨ancestor, hancestor, h⟩ := bind_eq_ok_iff.mp h
      cases ancestor with
      | none =>
          rw [if_pos (by simp [optionRank]), Except.ok.injEq] at h
          exact absurd h hne
      | some height => exact .inr ⟨c, height, hc, hancestor⟩
    · rintro (hle | ⟨c, ancestor, hc, hancestor⟩)
      · omega
      · simp only [hc, hancestor, ok_bind]
        rw [if_neg (by simp [optionRank, hzero])]

theorem BmmInvariant.betterByWork_pos_iff (hdb : db.BmmInvariant hashes)
    (hne : tipInfo.tip ≠ peerTipInfo.tip) (hown : db.Announced tipInfo)
    (hpeer : db.Announced peerTipInfo) {n : Nat} (hpos : tipInfo.blockHeight = n + 1)
    (hzero : peerTipInfo.blockHeight = 0) :
    db.betterByWork tipInfo.tip peerTipInfo.tip tipInfo.blockHeight peerTipInfo.blockHeight
        tipInfo.totalWork peerTipInfo.totalWork = .ok tipInfo.tip ↔
      peerTipInfo.totalWork ≤ tipInfo.totalWork ∨
        db.NamesBefore tipInfo.tip.mainBlockHash peerTipInfo.tip.mainBlockHash
          tipInfo.tip.blockHash := by
  have hgt : peerTipInfo.blockHeight < tipInfo.blockHeight := by omega
  rw [betterByWork, Nat.compare_eq_gt.mpr hgt,
    hdb.namesBefore_iff hown.height (hdb.main.stored_of_announced hown)
      (hdb.main.stored_of_announced hpeer)]
  rcases Nat.lt_trichotomy tipInfo.totalWork peerTipInfo.totalWork with hw | hw | hw
  · rw [Nat.compare_eq_lt.mpr hw]
    constructor
    · intro h
      obtain ⟨c, hc, h⟩ := bind_eq_ok_iff.mp h
      obtain ⟨ancestor, hancestor, h⟩ := bind_eq_ok_iff.mp h
      cases ancestor with
      | none =>
          rw [if_neg (by simp [optionRank]), Except.ok.injEq] at h
          exact absurd h.symm hne
      | some height => exact .inr ⟨c, height, hc, hancestor⟩
    · rintro (hle | ⟨c, ancestor, hc, hancestor⟩)
      · omega
      · simp only [hc, hancestor, ok_bind]
        rw [if_pos (by simp [optionRank, hzero])]
  · rw [Nat.compare_eq_eq.mpr hw]
    simp only [true_iff]
    exact .inl hw.ge
  · rw [Nat.compare_eq_gt.mpr hw]
    simp only [true_iff]
    exact .inl hw.le

theorem BmmInvariant.zeroHeights_iff (hdb : db.BmmInvariant hashes)
    (hne : tipInfo.tip ≠ peerTipInfo.tip) (hown : db.Announced tipInfo)
    (hpeer : db.Announced peerTipInfo) :
    db.ZeroHeightsByWork tipInfo peerTipInfo ↔ db.ZeroHeightsAgree tipInfo peerTipInfo := by
  rw [ZeroHeightsByWork, ZeroHeightsAgree]
  cases h0 : tipInfo.blockHeight with
  | zero =>
      cases h1 : peerTipInfo.blockHeight with
      | zero =>
          rw [← hdb.betterByWork_eq_own_iff hne hown hpeer (h0.trans h1.symm), h0, h1]
      | succ n => rw [← hdb.betterByWork_zero_iff hne hown hpeer h0 h1, h0, h1]
  | succ n =>
      cases h1 : peerTipInfo.blockHeight with
      | zero => rw [← hdb.betterByWork_pos_iff hne hown hpeer h0 h1, h0, h1]
      | succ m => exact Iff.rfl

/-- With the headers of both tips stored and the peer on the node's own mainchain, the check
answers as the comparison of tips does, except where that one has its rule for first blocks
and the comparison by work answers otherwise. -/
theorem checkPeerTip_agrees_iff (hdb : Reachable hashes db) (hown : db.Announced tipInfo)
    (hpeer : db.Announced peerTipInfo)
    (hmain : db.OnOurMainchain peerTipInfo.tip.mainBlockHash) :
    db.PeerTipAgrees tipInfo peerTipInfo peerStateId ↔
      db.ZeroHeightsAgree tipInfo peerTipInfo := by
  have hdb := hdb.invariant
  have hknown : peerTipInfo.tip.blockHash ∈ db.headers :=
    mem_iff_lookup.mpr (hdb.side.header_of_height hpeer.height)
  by_cases hsame : tipInfo.tip = peerTipInfo.tip
  · obtain ⟨hheight, hwork, hnone⟩ :=
      comparePeerTip_self peerStateId hsame hown hpeer
    have hagrees : db.PeerTipAgrees tipInfo peerTipInfo peerStateId := by
      rw [PeerTipAgrees, hdb.main.checkPeerTip_eq hpeer hmain, hnone, betterTip, if_pos hsame]
      simp
    refine ⟨fun _ => ?_, fun _ => hagrees⟩
    rw [ZeroHeightsAgree, hheight]
    cases peerTipInfo.blockHeight with
    | zero => exact .inr (.inr ⟨hwork, .inl (congrArg Tip.blockHash hsame.symm)⟩)
    | succ n => trivial
  · rw [hdb.main.peerTipAgrees_iff hsame hown hpeer hknown hmain,
      hdb.zeroHeights_iff hsame hown hpeer]

end ArchiveDb

/-- A tree with its mainchain tip at the block with the given number. -/
def syncedTree (rows : List MainRow) (headers : List Header) (main : MainBlockHash) :
    ArchiveDb Unit :=
  { treeArchive rows headers with
    sideTips := { (treeArchive rows headers).sideTips with
      mainchainTip := ⟨rows.length, some ((treeHashes rows).mainHeader main)⟩ } }

theorem reachable_syncedTree (rows : List MainRow) (headers : List Header)
    (main : MainBlockHash) :
    ArchiveDb.Reachable (treeHashes rows) (syncedTree rows headers main) :=
  .moveTips (reachable_treeArchive rows headers)

/-- The mainchain `1, 2, 3`, where blocks 2 and 3 commit to two first sidechain blocks. -/
def earlyFirst : Header := headerOn none 1
def lateFirst : Header := headerOn none 2

def firstRows : List MainRow :=
  [⟨0, 0, 1, none⟩, ⟨1, 1, 1, some (pairHash earlyFirst)⟩,
    ⟨2, 2, 1, some (pairHash lateFirst)⟩]

def earlyTip : TipInfo := ⟨0, ⟨pairHash earlyFirst, 2⟩, 2⟩
def lateTip : TipInfo := ⟨0, ⟨pairHash lateFirst, 3⟩, 3⟩

/-- A node at the later of two first blocks takes the earlier one for a better tip, which it
is not. -/
theorem checkPeerTip_first_blocks :
    let db := syncedTree firstRows [earlyFirst, lateFirst] 3
    ArchiveDb.Reachable (treeHashes firstRows) db ∧ db.Announced lateTip ∧
      db.Announced earlyTip ∧ db.OnOurMainchain earlyTip.tip.mainBlockHash ∧
      (db.Verified earlyTip.tip.blockHash earlyTip.tip.mainBlockHash ∧
        db.Verified lateTip.tip.blockHash lateTip.tip.mainBlockHash) ∧
      db.checkPeerTipAndRequestHeaders (some lateTip) earlyTip 0 = .ok (some true, []) ∧
      db.betterTip lateTip.tip earlyTip.tip = .ok none := by
  refine ⟨reachable_syncedTree _ _ _, ⟨?_, ?_⟩, ⟨?_, ?_⟩, ⟨_, rfl, 1, ?_⟩, ?_, ?_, ?_⟩
  · decide +kernel
  · decide +kernel
  · decide +kernel
  · decide +kernel
  · decide +kernel
  · decide +kernel
  · decide +kernel
  · decide +kernel

/-- On the small tree a node at the left block agrees about the right one. -/
theorem checkPeerTip_agrees_tree :
    (syncedTree treeRows [treeFirst, treeLeft, treeRight] 4).PeerTipAgrees
      ⟨1, ⟨pairHash treeLeft, 3⟩, 3⟩ ⟨1, ⟨pairHash treeRight, 4⟩, 4⟩ 0 := by
  apply (ArchiveDb.checkPeerTip_agrees_iff (reachable_syncedTree _ _ _) ⟨?_, ?_⟩ ⟨?_, ?_⟩
    ⟨_, rfl, 0, ?_⟩).mpr
  · trivial
  · decide +kernel
  · decide +kernel
  · decide +kernel
  · decide +kernel
  · decide +kernel

end Truthcoin.Archiving
