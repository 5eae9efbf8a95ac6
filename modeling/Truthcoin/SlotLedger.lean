import Truthcoin.BlockChecks

/-!
# The slots of the open periods

Every period of the window has a price record that counts how often slots were
minted into it and how many of them are claimed. A claim fills an unlocked slot of
a minted period; when the current period advances by one, the window gains a period
and all others gain a mint.
-/

namespace Truthcoin.SlotLedger

open Truthcoin.Types Truthcoin.Table Truthcoin.Fallible Truthcoin.Arithmetic
open Truthcoin.Decisions Truthcoin.BlockChecks

variable {F : Type} {db db' : Dbs F} {c : Nat}

/-- The decisions that are claimed in a period. -/
def idsOf (db : Dbs F) (period : Nat) : List DecisionId :=
  (db.entriesOf period).map DecisionEntry.decisionId

/-- A price record accounts for the slots of its period. -/
structure Accounts (db : Dbs F) (c period : Nat) (pricing : PeriodPricing) : Prop where
  mints : pricing.mints = futurePeriods - (period - c)
  claimed : pricing.claimed = ((idsOf db period).filter DecisionId.isStandard).length
  unlocked : ∀ d ∈ idsOf db period, d.isStandard = true →
    slotUnlocked d.decisionIndex pricing.mints = true

/-- The window of the current period `c` is minted, and every period of it is accounted
for. -/
structure Ledger (c : Nat) (db : Dbs F) : Prop where
  rows : ∀ period ∈ db.periodDecisions, period ≤ c + 19
  top : c + 19 ∈ db.periodDecisions
  entries : ∀ period, ∀ entry ∈ db.entriesOf period,
    entry.decisionId.periodIndex = period ∧ entry.decision.isSome = true
  nodup : ∀ period, (idsOf db period).Nodup
  priced : ∀ period, c ≤ period → period ≤ c + 19 →
    ∃ pricing, db.periodPricing[period]? = some pricing ∧ Accounts db c period pricing

theorem mem_mintedPeriods {period : Nat} :
    period ∈ db.mintedPeriods ↔ period ∈ db.periodDecisions := by
  simp only [Dbs.mintedPeriods, List.mem_map, Prod.exists, exists_and_right, exists_eq_right]
  constructor
  · rintro ⟨entries, hrow⟩
    exact Std.ExtTreeMap.mem_iff_isSome_getElem?.mpr (by simp [mem_toList_iff.mp hrow])
  · intro hmem
    obtain ⟨entries, hrow⟩ :=
      Option.isSome_iff_exists.mp (Std.ExtTreeMap.mem_iff_isSome_getElem?.mp hmem)
    exact ⟨entries, mem_toList_iff.mpr hrow⟩

theorem le_highest_of_mem {period : Nat} (h : period ∈ db.periodDecisions) :
    period ≤ db.getHighestMintedPeriod.getD 0 := by
  have hminted := mem_mintedPeriods.mpr h
  obtain ⟨highest, hhighest⟩ := Option.isSome_iff_exists.mp (List.isSome_max?_of_mem hminted)
  have hle := (List.max?_eq_some_iff.mp hhighest).2 _ hminted
  rwa [Dbs.getHighestMintedPeriod, hhighest, Option.getD_some]

theorem Ledger.highest (h : Ledger c db) : db.getHighestMintedPeriod = some (c + 19) := by
  rw [Dbs.getHighestMintedPeriod, List.max?_eq_some_iff]
  exact ⟨mem_mintedPeriods.mpr h.top, fun period hmem => h.rows period (mem_mintedPeriods.mp hmem)⟩

theorem Ledger.congr (h : Ledger c db) (hrows : db'.periodDecisions = db.periodDecisions)
    (hprices : db'.periodPricing = db.periodPricing) : Ledger c db' := by
  have hentries : ∀ period, db'.entriesOf period = db.entriesOf period := by
    intro period
    rw [Dbs.entriesOf, hrows, Dbs.entriesOf]
  have hids : ∀ period, idsOf db' period = idsOf db period := by
    intro period
    rw [idsOf, hentries, idsOf]
  refine ⟨?_, ?_, ?_, ?_, ?_⟩
  · rw [hrows]
    exact h.rows
  · rw [hrows]
    exact h.top
  · intro period
    rw [hentries]
    exact h.entries period
  · intro period
    rw [hids]
    exact h.nodup period
  · intro period hlow hhigh
    obtain ⟨pricing, hpricing, haccounts⟩ := h.priced period hlow hhigh
    rw [hprices]
    refine ⟨pricing, hpricing, haccounts.mints, ?_, ?_⟩
    · rw [hids]
      exact haccounts.claimed
    · rw [hids]
      exact haccounts.unlocked

theorem decisionId_ext {d d' : DecisionId} (hstandard : d.isStandard = true)
    (hstandard' : d'.isStandard = true) (hperiod : d.periodIndex = d'.periodIndex)
    (hindex : d.decisionIndex = d'.decisionIndex) : d = d' := by
  apply BitVec.eq_of_toNat_eq
  have hlt := d.isLt
  have hlt' := d'.isLt
  simp only [DecisionId.isStandard, DecisionId.periodIndex, DecisionId.decisionIndex,
    beq_iff_eq] at *
  omega

/-- The indexes of the slots that `mints` mints unlock. -/
def unlockedSlots (mints : Nat) : List Nat :=
  (List.range slotsPerPeriodMax).filter fun i => slotUnlocked i mints

theorem length_unlockedSlots {mints : Nat} (h : mints ≤ futurePeriods) :
    (unlockedSlots mints).length = mints * slotsPerTierPerMint * tierCount := by
  have hall : ∀ m ∈ List.range (futurePeriods + 1),
      (unlockedSlots m).length = m * slotsPerTierPerMint * tierCount := by decide +kernel
  exact hall mints (List.mem_range.mpr (by omega))

theorem length_standard_le {ids : List DecisionId} {period mints : Nat}
    (hnodup : ids.Nodup) (hperiod : ∀ d ∈ ids, d.periodIndex = period)
    (hstandard : ∀ d ∈ ids, d.isStandard = true)
    (hunlocked : ∀ d ∈ ids, slotUnlocked d.decisionIndex mints = true)
    (hmints : mints ≤ futurePeriods) :
    ids.length ≤ mints * slotsPerTierPerMint * tierCount := by
  rw [← length_unlockedSlots hmints, ← List.length_map (f := DecisionId.decisionIndex)]
  have hindexes : (ids.map DecisionId.decisionIndex).Nodup := by
    refine hnodup.map_on ?_
    intro d hd d' hd' hindex
    exact decisionId_ext (hstandard d hd) (hstandard d' hd')
      ((hperiod d hd).trans (hperiod d' hd').symm) hindex
  refine (hindexes.subperm ?_).length_le
  intro i hi
  obtain ⟨d, hd, rfl⟩ := List.mem_map.mp hi
  have hslot := hunlocked d hd
  refine List.mem_filter.mpr ⟨?_, hslot⟩
  simp only [slotUnlocked, Bool.and_eq_true, decide_eq_true_eq] at hslot
  exact List.mem_range.mpr hslot.1

theorem Ledger.claimed_le (h : Ledger c db) {period : Nat} {pricing : PeriodPricing}
    (haccounts : Accounts db c period pricing) :
    pricing.claimed ≤ pricing.periodCapacity := by
  rw [haccounts.claimed, PeriodPricing.periodCapacity]
  have hperiod : ∀ d ∈ (idsOf db period).filter DecisionId.isStandard,
      d.periodIndex = period := by
    intro d hd
    obtain ⟨entry, hentry, rfl⟩ := List.mem_map.mp (List.mem_of_mem_filter hd)
    exact (h.entries period entry hentry).1
  refine length_standard_le ((h.nodup period).filter _) hperiod ?_ ?_ ?_
  · exact fun d hd => (List.mem_filter.mp hd).2
  · exact fun d hd =>
      haccounts.unlocked d (List.mem_of_mem_filter hd) (List.mem_filter.mp hd).2
  · rw [haccounts.mints]
    exact Nat.sub_le ..

section

variable [DecidableEq F] {d : DecisionId} {decision : Decision F} {txid : Txid} {height : Nat}

/-- Nobody has claimed a decision, and the price record of its period unlocks it. -/
structure Fillable (db : Dbs F) (d : DecisionId) : Prop where
  fresh : d ∉ idsOf db d.periodIndex
  unlocked : d.isStandard = true → ∀ pricing, db.periodPricing[d.periodIndex]? = some pricing →
    slotUnlocked d.decisionIndex pricing.mints = true

theorem claimDecision_eq_ok (h : db.claimDecision d decision txid height = .ok db') :
    db'.periodDecisions = db.periodDecisions.insert d.periodIndex
        (Dbs.insertEntry (db.entriesOf d.periodIndex) ⟨d, some decision, txid⟩) ∧
      db'.decisionStateHistories =
        db.decisionStateHistories.insert d (DecisionStateHistory.new height) ∧
      ((d.isStandard = false ∧ db'.periodPricing = db.periodPricing) ∨
        d.isStandard = true ∧ ∃ pricing, db.periodPricing[d.periodIndex]? = some pricing ∧
          db'.periodPricing = db.periodPricing.insert d.periodIndex
            { pricing with claimed := saturatingAdd pricing.claimed 1 }) := by
  simp only [Dbs.claimDecision] at h
  split at h
  · rename_i hstandard
    simp only [bind_eq_ok_iff, okOr_eq_ok_iff, Except.ok.injEq] at h
    obtain ⟨pricing, hpricing, rfl⟩ := h
    exact ⟨rfl, rfl, .inr ⟨hstandard, pricing, hpricing, rfl⟩⟩
  · rename_i hstandard
    rw [← Except.ok.inj h]
    exact ⟨rfl, rfl, .inl ⟨by simpa using hstandard, rfl⟩⟩

theorem entriesOf_claimDecision (h : db.claimDecision d decision txid height = .ok db')
    (period : Nat) :
    db'.entriesOf period =
      if period = d.periodIndex then
        Dbs.insertEntry (db.entriesOf d.periodIndex) ⟨d, some decision, txid⟩
      else db.entriesOf period := by
  rw [Dbs.entriesOf, (claimDecision_eq_ok h).1, Std.ExtTreeMap.getElem?_insert]
  simp only [Std.LawfulEqCmp.compare_eq_iff_eq, eq_comm (a := d.periodIndex)]
  split
  · rfl
  · rfl

theorem insertEntry_perm {entries : List (DecisionEntry F)} {entry : DecisionEntry F}
    (h : entry.decisionId ∉ entries.map DecisionEntry.decisionId) :
    (Dbs.insertEntry entries entry).Perm (entry :: entries) := by
  have hnew : entry ∉ entries := fun hmem => h (List.mem_map_of_mem hmem)
  rw [Dbs.insertEntry, if_neg hnew]
  exact List.perm_orderedInsert ..

theorem idsOf_claimDecision (hfresh : d ∉ idsOf db d.periodIndex)
    (h : db.claimDecision d decision txid height = .ok db') (period : Nat) :
    (idsOf db' period).Perm
      (if period = d.periodIndex then d :: idsOf db period else idsOf db period) := by
  rw [idsOf, entriesOf_claimDecision h]
  split
  · rename_i hperiod
    subst hperiod
    exact (insertEntry_perm hfresh).map DecisionEntry.decisionId
  · exact .refl _

theorem mints_claimDecision (h : db.claimDecision d decision txid height = .ok db')
    {period : Nat} {pricing : PeriodPricing}
    (hpricing : db'.periodPricing[period]? = some pricing) :
    ∃ old, db.periodPricing[period]? = some old ∧ pricing.mints = old.mints := by
  obtain ⟨-, -, ⟨-, hsame⟩ | ⟨-, old, hold, hset⟩⟩ := claimDecision_eq_ok h
  · rw [hsame] at hpricing
    exact ⟨pricing, hpricing, rfl⟩
  · rw [hset, Std.ExtTreeMap.getElem?_insert] at hpricing
    split at hpricing
    · rename_i heq
      rw [← Std.LawfulEqCmp.compare_eq_iff_eq.mp heq, ← Option.some.inj hpricing]
      exact ⟨old, hold, rfl⟩
    · exact ⟨pricing, hpricing, rfl⟩

theorem Fillable.of_claimDecision {d' : DecisionId} (hd' : Fillable db d') (hne : d' ≠ d)
    (hfresh : d ∉ idsOf db d.periodIndex)
    (h : db.claimDecision d decision txid height = .ok db') : Fillable db' d' := by
  constructor
  · intro hmem
    rw [(idsOf_claimDecision hfresh h _).mem_iff] at hmem
    split at hmem
    · rcases List.mem_cons.mp hmem with heq | hold
      · exact hne heq
      · exact hd'.fresh hold
    · exact hd'.fresh hmem
  · intro hstandard pricing hpricing
    obtain ⟨old, hold, hmints⟩ := mints_claimDecision h hpricing
    rw [hmints]
    exact hd'.unlocked hstandard old hold

theorem pricing_claimDecision_of_ne (h : db.claimDecision d decision txid height = .ok db')
    {period : Nat} (hne : period ≠ d.periodIndex) :
    db'.periodPricing[period]? = db.periodPricing[period]? := by
  obtain ⟨-, -, ⟨-, hsame⟩ | ⟨-, old, hold, hset⟩⟩ := claimDecision_eq_ok h
  · rw [hsame]
  · rw [hset, Std.ExtTreeMap.getElem?_insert]
    split
    · rename_i heq
      exact absurd (Std.LawfulEqCmp.compare_eq_iff_eq.mp heq).symm hne
    · rfl

theorem saturatingAdd_one {n : Nat} (h : n < amountMax) : saturatingAdd n 1 = n + 1 :=
  Nat.min_eq_left h

theorem accounts_claimDecision (hledger : Ledger c db) (hd : Fillable db d)
    (h : db.claimDecision d decision txid height = .ok db') {pricing : PeriodPricing}
    (hpricing : db.periodPricing[d.periodIndex]? = some pricing)
    (haccounts : Accounts db c d.periodIndex pricing) :
    ∃ pricing', db'.periodPricing[d.periodIndex]? = some pricing' ∧
      Accounts db' c d.periodIndex pricing' := by
  have hids := idsOf_claimDecision hd.fresh h d.periodIndex
  rw [if_pos rfl] at hids
  have hunlocked : ∀ d' ∈ idsOf db' d.periodIndex, d'.isStandard = true →
      slotUnlocked d'.decisionIndex pricing.mints = true := by
    intro d' hd' hstandard
    rcases List.mem_cons.mp (hids.mem_iff.mp hd') with rfl | hold
    · exact hd.unlocked hstandard pricing hpricing
    · exact haccounts.unlocked d' hold hstandard
  have hlength : ((idsOf db' d.periodIndex).filter DecisionId.isStandard).length =
      ((d :: idsOf db d.periodIndex).filter DecisionId.isStandard).length :=
    (hids.filter _).length_eq
  obtain ⟨-, -, ⟨hstandard, hsame⟩ | ⟨hstandard, old, hold, hset⟩⟩ := claimDecision_eq_ok h
  · refine ⟨pricing, by rw [hsame, hpricing], haccounts.mints, ?_, hunlocked⟩
    rw [hlength, List.filter_cons_of_neg (by simp [hstandard])]
    exact haccounts.claimed
  · obtain rfl : pricing = old := Option.some.inj (hpricing.symm.trans hold)
    have hroom : pricing.claimed < amountMax := by
      have hcapacity := hledger.claimed_le haccounts
      have hmints := haccounts.mints
      simp only [PeriodPricing.periodCapacity, slotsPerTierPerMint, tierCount, futurePeriods,
        amountMax] at *
      omega
    refine ⟨{ pricing with claimed := saturatingAdd pricing.claimed 1 }, ?_, haccounts.mints,
      ?_, hunlocked⟩
    · rw [hset, Std.ExtTreeMap.getElem?_insert_self]
    · rw [hlength, List.filter_cons_of_pos hstandard, List.length_cons, ← haccounts.claimed,
        saturatingAdd_one hroom]

theorem Ledger.claimDecision (hledger : Ledger c db) (hd : Fillable db d)
    (hminted : d.periodIndex ≤ c + 19)
    (h : db.claimDecision d decision txid height = .ok db') : Ledger c db' := by
  have hrows := (claimDecision_eq_ok h).1
  refine ⟨?_, ?_, ?_, ?_, ?_⟩
  · intro period hmem
    rw [hrows, Std.ExtTreeMap.mem_insert] at hmem
    rcases hmem with heq | hmem
    · rw [← Std.LawfulEqCmp.compare_eq_iff_eq.mp heq]
      exact hminted
    · exact hledger.rows period hmem
  · rw [hrows, Std.ExtTreeMap.mem_insert]
    exact .inr hledger.top
  · intro period entry hentry
    rw [entriesOf_claimDecision h] at hentry
    split at hentry
    · rename_i hperiod
      subst hperiod
      rcases List.mem_cons.mp ((insertEntry_perm hd.fresh).mem_iff.mp hentry) with rfl | hold
      · exact ⟨rfl, rfl⟩
      · exact hledger.entries _ entry hold
    · exact hledger.entries period entry hentry
  · intro period
    rw [(idsOf_claimDecision hd.fresh h period).nodup_iff]
    split
    · rename_i hperiod
      subst hperiod
      exact List.nodup_cons.mpr ⟨hd.fresh, hledger.nodup _⟩
    · exact hledger.nodup period
  · intro period hlow hhigh
    obtain ⟨pricing, hpricing, haccounts⟩ := hledger.priced period hlow hhigh
    by_cases hperiod : period = d.periodIndex
    · subst hperiod
      exact accounts_claimDecision hledger hd h hpricing haccounts
    · have hids : idsOf db' period = idsOf db period := by
        rw [idsOf, entriesOf_claimDecision h, if_neg hperiod, idsOf]
      refine ⟨pricing, by rw [pricing_claimDecision_of_ne h hperiod, hpricing],
        haccounts.mints, ?_, ?_⟩
      · rw [hids]
        exact haccounts.claimed
      · rw [hids]
        exact haccounts.unlocked

theorem Ledger.claims {claims : List (Claim F)} (hledger : Ledger c db)
    (hnodup : (claims.map Claim.decisionId).Nodup)
    (hfillable : ∀ claim ∈ claims, Fillable db claim.decisionId)
    (hminted : ∀ claim ∈ claims, claim.decisionId.periodIndex ≤ c + 19)
    (h : claims.foldlM (Claim.apply height) db = .ok db') : Ledger c db' := by
  induction claims generalizing db with
  | nil =>
      rw [← Except.ok.inj h]
      exact hledger
  | cons claim claims ih =>
      obtain ⟨db₁, hfirst, hrest⟩ := bind_eq_ok_iff.mp h
      rw [List.map_cons, List.nodup_cons] at hnodup
      have hd := hfillable claim (by simp)
      refine ih (hledger.claimDecision hd (hminted claim (by simp)) hfirst) hnodup.2 ?_ ?_ hrest
      · intro claim' hclaim'
        refine (hfillable claim' (by simp [hclaim'])).of_claimDecision ?_ hd.fresh hfirst
        rintro heq
        exact hnodup.1 (heq ▸ List.mem_map_of_mem hclaim')
      · exact fun claim' hclaim' => hminted claim' (by simp [hclaim'])

end

theorem mem_periodsUpTo {first last period : Nat} :
    period ∈ Dbs.periodsUpTo first last ↔ first ≤ period ∧ period ≤ last := by
  simp only [Dbs.periodsUpTo, List.mem_range'_1]
  omega

theorem nodup_periodsUpTo (first last : Nat) : (Dbs.periodsUpTo first last).Nodup :=
  List.nodup_range'

theorem lookup_mintPeriodsUpTo (db : Dbs F) (target period : Nat) :
    (db.mintPeriodsUpTo target).periodDecisions[period]? =
      if db.getHighestMintedPeriod.getD 0 < period ∧ period ≤ target then some []
      else db.periodDecisions[period]? := by
  simp only [Dbs.mintPeriodsUpTo, lookup_foldl_insert, mem_periodsUpTo, Nat.succ_le_iff]

@[simp]
theorem mintPeriodsUpTo_pricing (db : Dbs F) (target : Nat) :
    (db.mintPeriodsUpTo target).periodPricing = db.periodPricing := rfl

/-- Repricing adds mints and keeps the number of claims. -/
structure Repriced (mints : Nat) (old new : PeriodPricing) : Prop where
  mints : new.mints = saturatingAdd old.mints mints
  claimed : new.claimed = old.claimed

theorem repriced_of_applyRepriceWithFloor {pricing pricing' : PeriodPricing} {height : Nat}
    (h : applyRepriceWithFloor pricing height = .ok pricing') :
    pricing'.mints = pricing.mints ∧ pricing'.claimed = pricing.claimed := by
  unfold applyRepriceWithFloor at h
  split at h
  · rw [← Except.ok.inj h]
    exact ⟨rfl, rfl⟩
  · simp only [bind_eq_ok_iff, Except.ok.injEq] at h
    obtain ⟨_, -, rfl⟩ := h
    exact ⟨rfl, rfl⟩

theorem repricePeriod_eq_ok {height mints period : Nat}
    (h : db.repricePeriod height mints period = .ok db') :
    db'.periodDecisions = db.periodDecisions ∧
      (∀ p, p ≠ period → db'.periodPricing[p]? = db.periodPricing[p]?) ∧
      ∀ old, db.periodPricing[period]? = some old →
        ∃ new, db'.periodPricing[period]? = some new ∧ Repriced mints old new := by
  unfold Dbs.repricePeriod at h
  split at h
  · rename_i hnone
    rw [← Except.ok.inj h]
    refine ⟨rfl, fun _ _ => rfl, ?_⟩
    intro old hold
    rw [hnone] at hold
    cases hold
  · rename_i old hold
    simp only [bind_eq_ok_iff, Except.ok.injEq] at h
    obtain ⟨new, hnew, rfl⟩ := h
    obtain ⟨hmints, hclaimed⟩ := repriced_of_applyRepriceWithFloor hnew
    refine ⟨rfl, ?_, ?_⟩
    · intro p hne
      simp only [Dbs.putPricing, Std.ExtTreeMap.getElem?_insert,
        Std.LawfulEqCmp.compare_eq_iff_eq, if_neg hne.symm]
    · intro old' hold'
      obtain rfl : old = old' := Option.some.inj (hold.symm.trans hold')
      exact ⟨new, Std.ExtTreeMap.getElem?_insert_self, hmints, hclaimed⟩

theorem foldlM_repricePeriod_eq_ok {height mints : Nat} {periods : List Nat}
    (hnodup : periods.Nodup)
    (h : periods.foldlM (Dbs.repricePeriod height mints) db = .ok db') :
    db'.periodDecisions = db.periodDecisions ∧
      (∀ p, p ∉ periods → db'.periodPricing[p]? = db.periodPricing[p]?) ∧
      ∀ p ∈ periods, ∀ old, db.periodPricing[p]? = some old →
        ∃ new, db'.periodPricing[p]? = some new ∧ Repriced mints old new := by
  induction periods generalizing db with
  | nil =>
      rw [← Except.ok.inj h]
      exact ⟨rfl, fun _ _ => rfl, by simp⟩
  | cons period periods ih =>
      obtain ⟨db₁, hfirst, hrest⟩ := bind_eq_ok_iff.mp h
      rw [List.nodup_cons] at hnodup
      obtain ⟨hrows, hkept, hpriced⟩ := repricePeriod_eq_ok hfirst
      obtain ⟨hrows', hkept', hpriced'⟩ := ih hnodup.2 hrest
      refine ⟨hrows'.trans hrows, ?_, ?_⟩
      · intro p hp
        rw [List.mem_cons, not_or] at hp
        rw [hkept' p hp.2, hkept p hp.1]
      · intro p hp old hold
        by_cases heq : p = period
        · subst heq
          rw [hkept' p hnodup.1]
          exact hpriced old hold
        · refine hpriced' p ?_ old (by rw [hkept p heq, hold])
          exact (List.mem_cons.mp hp).resolve_left heq

theorem slotUnlocked_mono {i mints mints' : Nat} (hle : mints ≤ mints')
    (h : slotUnlocked i mints = true) : slotUnlocked i mints' = true := by
  simp only [slotUnlocked, Bool.and_eq_true, decide_eq_true_eq] at h ⊢
  refine ⟨h.1, lt_of_lt_of_le h.2 ?_⟩
  exact Nat.mul_le_mul_right _ hle

theorem Accounts.repriced {c' period mints : Nat} {old new : PeriodPricing}
    (h : Accounts db c period old) (hnew : Repriced mints old new)
    (hids : idsOf db' period = idsOf db period)
    (hmints : futurePeriods - (period - c) + mints = futurePeriods - (period - c')) :
    Accounts db' c' period new := by
  have hsum : new.mints = old.mints + mints := by
    rw [hnew.mints, saturatingAdd, Nat.min_eq_left]
    rw [h.mints, hmints]
    simp only [futurePeriods, amountMax]
    omega
  refine ⟨by rw [hsum, h.mints, hmints], by rw [hnew.claimed, h.claimed, hids], ?_⟩
  rw [hids]
  intro d hd hstandard
  refine slotUnlocked_mono ?_ (h.unlocked d hd hstandard)
  omega

theorem Ledger.pricing_same {config : DecisionConfig} {height ts genesisTs : Nat}
    (hledger : Ledger c db)
    (hperiod : getCurrentPeriod config ts (some height) genesisTs = .ok c)
    (h : db.processBlockPricing config height ts genesisTs = .ok db') : Ledger c db' := by
  simp only [Dbs.processBlockPricing, hperiod, ok_bind, bind_eq_ok_iff, Dbs.windowEnd,
    addU32_eq_ok_iff, hledger.highest, Option.getD_some] at h
  obtain ⟨target, ⟨-, rfl⟩, next, ⟨-, rfl⟩, h⟩ := h
  have htarget : c + (futurePeriods - 1) = c + 19 := rfl
  rw [if_neg (by simp only [futurePeriods]; omega), htarget] at h
  have hmint : Ledger c (db.mintPeriodsUpTo (c + 19)) := by
    refine hledger.congr ?_ rfl
    apply ext_lookup
    intro period
    rw [lookup_mintPeriodsUpTo, hledger.highest, Option.getD_some, if_neg (by omega)]
  split at h
  · obtain ⟨hrows, hkept, hpriced⟩ := foldlM_repricePeriod_eq_ok (nodup_periodsUpTo ..) h
    have hids : ∀ period, idsOf db' period = idsOf (db.mintPeriodsUpTo (c + 19)) period := by
      intro period
      rw [idsOf, Dbs.entriesOf, hrows, idsOf, Dbs.entriesOf]
    refine ⟨by rw [hrows]; exact hmint.rows, by rw [hrows]; exact hmint.top, ?_, ?_, ?_⟩
    · intro period
      rw [Dbs.entriesOf, hrows]
      exact hmint.entries period
    · intro period
      rw [hids]
      exact hmint.nodup period
    · intro period hlow hhigh
      obtain ⟨old, hold, haccounts⟩ := hmint.priced period hlow hhigh
      obtain ⟨new, hnew, hrepriced⟩ :=
        hpriced period (mem_periodsUpTo.mpr ⟨hlow, hhigh⟩) old hold
      exact ⟨new, hnew, haccounts.repriced hrepriced (hids period) (by omega)⟩
  · rw [← Except.ok.inj h]
    exact hmint

theorem lookup_eq_none_iff {β : Type} {rows : Table Nat β} {period : Nat} :
    rows[period]? = none ↔ period ∉ rows := by
  rw [mem_iff_lookup, not_exists, Option.eq_none_iff_forall_ne_some]

theorem Ledger.entriesOf_mint (hledger : Ledger c db) (period : Nat) :
    (db.mintPeriodsUpTo (c + 20)).entriesOf period = db.entriesOf period := by
  rw [Dbs.entriesOf, lookup_mintPeriodsUpTo, hledger.highest, Option.getD_some]
  split
  · rename_i hnew
    have habsent : db.periodDecisions[period]? = none := by
      rw [lookup_eq_none_iff]
      intro hmem
      have hle := hledger.rows period hmem
      omega
    rw [Dbs.entriesOf, habsent]
    rfl
  · rfl

/-- The first block of the next period mints one period into the window, and one more
set of slots into all others. -/
theorem Ledger.pricing_next {config : DecisionConfig} {height ts genesisTs : Nat}
    (hledger : Ledger c db)
    (hperiod : getCurrentPeriod config ts (some height) genesisTs = .ok (c + 1))
    (h : db.processBlockPricing config height ts genesisTs = .ok db') : Ledger (c + 1) db' := by
  simp only [Dbs.processBlockPricing, hperiod, ok_bind, bind_eq_ok_iff, Dbs.windowEnd,
    addU32_eq_ok_iff, hledger.highest, Option.getD_some] at h
  obtain ⟨target, ⟨-, rfl⟩, next, ⟨-, rfl⟩, h⟩ := h
  have htarget : c + 1 + (futurePeriods - 1) = c + 20 := rfl
  have hprev : c + 19 + 1 - futurePeriods = c := rfl
  have hseeded : Dbs.periodsUpTo (c + 19 + 1) (c + 20) = [c + 20] := by
    simp [Dbs.periodsUpTo]
  rw [hprev, htarget, if_pos (Nat.lt_succ_self c), hseeded, Nat.min_eq_left (by omega),
    Nat.add_sub_cancel_left, List.foldl_cons, List.foldl_nil] at h
  obtain ⟨hrows, hkept, hpriced⟩ := foldlM_repricePeriod_eq_ok (nodup_periodsUpTo ..) h
  have hentries : ∀ period, db'.entriesOf period = db.entriesOf period := by
    intro period
    rw [← hledger.entriesOf_mint, Dbs.entriesOf, hrows]
    rfl
  have hids : ∀ period, idsOf db' period = idsOf db period := by
    intro period
    rw [idsOf, hentries, idsOf]
  have hlookup : ∀ period, db'.periodDecisions[period]? =
      if c + 19 < period ∧ period ≤ c + 20 then some [] else db.periodDecisions[period]? := by
    intro period
    rw [hrows]
    change (db.mintPeriodsUpTo (c + 20)).periodDecisions[period]? = _
    rw [lookup_mintPeriodsUpTo, hledger.highest, Option.getD_some]
  refine ⟨?_, ?_, ?_, ?_, ?_⟩
  · intro period hmem
    obtain ⟨value, hvalue⟩ := mem_iff_lookup.mp hmem
    rw [hlookup] at hvalue
    split at hvalue
    · omega
    · have hle := hledger.rows period (mem_iff_lookup.mpr ⟨value, hvalue⟩)
      omega
  · refine mem_iff_lookup.mpr ⟨[], ?_⟩
    rw [hlookup, if_pos (by omega)]
  · intro period
    rw [hentries]
    exact hledger.entries period
  · intro period
    rw [hids]
    exact hledger.nodup period
  · intro period hlow hhigh
    by_cases hnew : period = c + 20
    · -- the new period has a fresh record and no claims
      subst hnew
      have hempty : idsOf db' (c + 20) = [] := by
        rw [idsOf, Dbs.entriesOf, hlookup, if_pos (by omega)]
        rfl
      refine ⟨PeriodPricing.newSeeded
        ((db.mintPeriodsUpTo (c + 20)).computePAverage (c + 1)) height, ?_, ?_⟩
      · rw [hkept (c + 20) (by rw [mem_periodsUpTo]; omega)]
        exact Std.ExtTreeMap.getElem?_insert_self
      · refine ⟨?_, by rw [hempty]; rfl, by rw [hempty]; simp⟩
        change 1 = futurePeriods - (c + 20 - (c + 1))
        simp only [futurePeriods]
        omega
    · obtain ⟨old, hold, haccounts⟩ := hledger.priced period (by omega) (by omega)
      have hkeptOld : ((db.mintPeriodsUpTo (c + 20)).seedPeriod height (c + 1)
          (c + 20)).periodPricing[period]? = some old := by
        rw [Dbs.seedPeriod, Dbs.putPricing, Std.ExtTreeMap.getElem?_insert]
        rw [if_neg (by
          rw [Std.LawfulEqCmp.compare_eq_iff_eq]
          exact fun heq => hnew heq.symm)]
        exact hold
      obtain ⟨new, hnew', hrepriced⟩ :=
        hpriced period (mem_periodsUpTo.mpr ⟨hlow, by omega⟩) old hkeptOld
      refine ⟨new, hnew', haccounts.repriced hrepriced (hids period) ?_⟩
      simp only [futurePeriods]
      omega

theorem lookup_genesisPricing (periods : List Nat) (c height period : Nat) (db : Dbs F) :
    let step (db : Dbs F) (p : Nat) : Dbs F :=
      if p ∈ db.periodPricing then db
      else db.putPricing p (Dbs.genesisPricing c height p)
    (periods.foldl step db).periodDecisions = db.periodDecisions ∧
      (periods.foldl step db).periodPricing[period]? =
        if period ∈ periods ∧ db.periodPricing[period]? = none then
          some (Dbs.genesisPricing c height period)
        else db.periodPricing[period]? := by
  intro step
  induction periods generalizing db with
  | nil => simp
  | cons p periods ih =>
      obtain ⟨hrows, hprices⟩ := ih (step db p)
      have hstep : (step db p).periodDecisions = db.periodDecisions ∧
          (step db p).periodPricing[period]? =
            if period = p ∧ db.periodPricing[period]? = none then
              some (Dbs.genesisPricing c height period)
            else db.periodPricing[period]? := by
        dsimp only [step]
        split
        · rename_i hmem
          refine ⟨rfl, ?_⟩
          rw [if_neg]
          rintro ⟨rfl, hnone⟩
          exact absurd hmem (lookup_eq_none_iff.mp hnone)
        · rename_i hmem
          refine ⟨rfl, ?_⟩
          rw [Dbs.putPricing, Std.ExtTreeMap.getElem?_insert]
          simp only [Std.LawfulEqCmp.compare_eq_iff_eq]
          by_cases heq : p = period
          · subst heq
            rw [if_pos rfl, if_pos ⟨rfl, lookup_eq_none_iff.mpr hmem⟩]
          · rw [if_neg heq, if_neg (fun hand => heq hand.1.symm)]
      rw [List.foldl_cons]
      refine ⟨hrows.trans hstep.1, ?_⟩
      rw [hprices, hstep.2]
      by_cases heq : period = p <;> by_cases hnone : db.periodPricing[period]? = none <;>
        simp_all

/-- The genesis block mints and prices the first window. -/
theorem ledger_genesis {config : DecisionConfig} {height ts genesisTs : Nat}
    (hrows : db.periodDecisions = ∅) (hprices : db.periodPricing = ∅)
    (hperiod : getCurrentPeriod config ts (some height) genesisTs = .ok c)
    (h : db.mintGenesis config ts height genesisTs = .ok db') : Ledger c db' := by
  simp only [Dbs.mintGenesis, hperiod, ok_bind, bind_eq_ok_iff, Dbs.windowEnd,
    addU32_eq_ok_iff, Except.ok.injEq] at h
  obtain ⟨target, ⟨-, rfl⟩, h⟩ := h
  have htarget : c + (futurePeriods - 1) = c + 19 := rfl
  rw [htarget] at h
  have hspec := fun period => lookup_genesisPricing (Dbs.periodsUpTo c (c + 19)) c height
    period (db.mintPeriodsUpTo (c + 19))
  simp only [h] at hspec
  have hhighest : db.getHighestMintedPeriod = none := by
    rw [Dbs.getHighestMintedPeriod, Dbs.mintedPeriods, hrows]
    rfl
  have hlookup : ∀ period, db'.periodDecisions[period]? =
      if 0 < period ∧ period ≤ c + 19 then some [] else none := by
    intro period
    rw [(hspec period).1, lookup_mintPeriodsUpTo, hhighest, hrows]
    simp
  have hentries : ∀ period, db'.entriesOf period = [] := by
    intro period
    rw [Dbs.entriesOf, hlookup]
    split <;> rfl
  have hids : ∀ period, idsOf db' period = [] := by
    intro period
    rw [idsOf, hentries]
    rfl
  refine ⟨?_, ?_, ?_, ?_, ?_⟩
  · intro period hmem
    obtain ⟨value, hvalue⟩ := mem_iff_lookup.mp hmem
    rw [hlookup] at hvalue
    split at hvalue
    · omega
    · cases hvalue
  · refine mem_iff_lookup.mpr ⟨[], ?_⟩
    rw [hlookup, if_pos (by omega)]
  · intro period
    rw [hentries]
    simp
  · intro period
    rw [hids]
    exact List.nodup_nil
  · intro period hlow hhigh
    refine ⟨Dbs.genesisPricing c height period, ?_, ?_⟩
    · rw [(hspec period).2, mintPeriodsUpTo_pricing, hprices, if_pos]
      exact ⟨mem_periodsUpTo.mpr ⟨hlow, hhigh⟩, by simp⟩
    · exact ⟨rfl, by rw [hids]; rfl, by rw [hids]; simp⟩

end Truthcoin.SlotLedger
