import Truthcoin.ClaimOnce

/-!
# The ordered set of a period's entries

The entries of a period are a set in the order of whole entries: by decision, then by what is
stored of it, then by transaction. A lookup builds an entry that is below all entries of the
decision and walks up from there. As long as a period has one entry for a decision, its list
is in this order, and the lookup finds the entry.
-/

namespace Truthcoin.EntrySets

open Truthcoin.Types Truthcoin.Decisions Truthcoin.SlotLedger Truthcoin.ClaimOnce

variable {F : Type}

section

-- the total order of the numbers, as the standard library has it
variable (totalCmp : F → F → Ordering)

def cmpDecisionType : DecisionType F → DecisionType F → Ordering
  | .binary, .binary => .eq
  | .scaled a b c, .scaled d e f => ((totalCmp a d).then (totalCmp b e)).then (totalCmp c f)
  | .category a, .category b => compare a b
  | .binary, _ => .lt
  | _, .binary => .gt
  | .scaled _ _ _, _ => .lt
  | _, .scaled _ _ _ => .gt

def cmpDecision (a b : Decision F) : Ordering :=
  (compare a.marketMakerPubkeyHash b.marketMakerPubkeyHash).then <|
  (cmpDecisionType totalCmp a.decisionType b.decisionType).then <|
  (compare a.header b.header).then <|
  (compare a.description b.description).then <|
  (compare a.option0Label b.option0Label).then <|
  (compare a.option1Label b.option1Label).then <|
  compare a.tags b.tags

def cmpStored : Option (Decision F) → Option (Decision F) → Ordering
  | none, none => .eq
  | none, some _ => .lt
  | some _, none => .gt
  | some a, some b => cmpDecision totalCmp a b

def cmpEntry (a b : DecisionEntry F) : Ordering :=
  (compare a.decisionId.toNat b.decisionId.toNat).then <|
  (cmpStored totalCmp a.decision b.decision).then <|
  compare a.claimingTxid b.claimingTxid

/-- The entry that a search for a decision starts from. -/
def searchEntry (d : DecisionId) : DecisionEntry F := ⟨d, none, 0⟩

/-- The walk up from the search entry. -/
def walkUp (d : DecisionId) : List (DecisionEntry F) → Option (DecisionEntry F)
  | [] => none
  | entry :: entries =>
      if entry.decisionId = d then some entry
      else if d.toNat < entry.decisionId.toNat then none
      else walkUp d entries

/-- `getDecisionEntry` on an ordered set: first the search entry itself is looked up. -/
def lookupEntry (db : Dbs F) (d : DecisionId) : Option (DecisionEntry F) :=
  let entries := db.entriesOf d.periodIndex
  match entries.find? fun entry => cmpEntry totalCmp (searchEntry d) entry = .eq with
  | some found => some found
  | none => walkUp d (entries.filter fun entry => cmpEntry totalCmp (searchEntry d) entry ≠ .gt)

theorem cmpEntry_of_lt {a b : DecisionEntry F} (h : a.decisionId.toNat < b.decisionId.toNat) :
    cmpEntry totalCmp a b = .lt := by
  rw [cmpEntry, Nat.compare_eq_lt.mpr h]
  rfl

theorem decisionId_of_cmpEntry {a b : DecisionEntry F} (h : cmpEntry totalCmp a b = .eq) :
    b.decisionId = a.decisionId := by
  rw [cmpEntry, Ordering.then_eq_eq] at h
  exact BitVec.eq_of_toNat_eq (Nat.compare_eq_eq.mp h.1).symm

theorem cmpEntry_searchEntry {d : DecisionId} {entry : DecisionEntry F}
    (h : entry.decisionId = d) : cmpEntry totalCmp (searchEntry d) entry ≠ .gt := by
  obtain ⟨d', decision, txid⟩ := entry
  obtain rfl : d' = d := h
  have hsame : compare (searchEntry (F := F) d').decisionId.toNat d'.toNat = .eq :=
    Nat.compare_eq_eq.mpr rfl
  rw [cmpEntry, hsame]
  cases decision with
  | none =>
      have hle : compare 0 txid ≠ .gt := by
        rw [ne_eq, Nat.compare_eq_gt]
        omega
      exact hle
  | some decision => exact Ordering.noConfusion

theorem le_of_cmpEntry {d : DecisionId} {entry : DecisionEntry F}
    (h : cmpEntry totalCmp (searchEntry d) entry ≠ .gt) : d.toNat ≤ entry.decisionId.toNat := by
  by_contra hlt
  have hgt : compare (searchEntry (F := F) d).decisionId.toNat entry.decisionId.toNat = .gt :=
    Nat.compare_eq_gt.mpr (Nat.not_le.mp hlt)
  refine h ?_
  rw [cmpEntry, hgt]
  rfl

end

/-- The entries of every period are in the order of their decisions. -/
def Ascending (db : Dbs F) : Prop :=
  ∀ period, (db.entriesOf period).Pairwise fun a b => a.decisionId.toNat ≤ b.decisionId.toNat

theorem strictly_ascending {db : Dbs F} (h : ClaimedEntries db) (hascending : Ascending db)
    (period : Nat) :
    (db.entriesOf period).Pairwise fun a b => a.decisionId.toNat < b.decisionId.toNat := by
  have hne : (db.entriesOf period).Pairwise fun a b => a.decisionId ≠ b.decisionId :=
    List.pairwise_map.mp (h.nodup period)
  refine ((hascending period).and hne).imp ?_
  rintro a b ⟨hle, hne⟩
  exact lt_of_le_of_ne hle fun heq => hne (BitVec.eq_of_toNat_eq heq)

theorem walkUp_eq {d : DecisionId} {entries : List (DecisionEntry F)}
    (hascending : entries.Pairwise fun a b => a.decisionId.toNat < b.decisionId.toNat)
    (hge : ∀ entry ∈ entries, d.toNat ≤ entry.decisionId.toNat) :
    walkUp d entries = entries.find? fun entry => entry.decisionId = d := by
  cases entries with
  | nil => rfl
  | cons entry entries =>
      obtain ⟨hhead, -⟩ := List.pairwise_cons.mp hascending
      rw [walkUp]
      split
      · rename_i heq
        rw [List.find?_cons_of_pos (by simpa using heq)]
      · rename_i hne
        have hlt : d.toNat < entry.decisionId.toNat :=
          lt_of_le_of_ne (hge entry (by simp)) fun heq => hne (BitVec.eq_of_toNat_eq heq.symm)
        rw [if_pos hlt, List.find?_cons_of_neg (by simpa using hne), eq_comm, List.find?_eq_none]
        intro later hlater
        have hlater := hlt.trans (hhead later hlater)
        rw [decide_eq_true_eq]
        rintro rfl
        exact lt_irrefl _ hlater

theorem lookupEntry_eq {db : Dbs F} (h : ClaimedEntries db) (hascending : Ascending db)
    (totalCmp : F → F → Ordering) (d : DecisionId) :
    lookupEntry totalCmp db d = db.getDecisionEntry d := by
  unfold lookupEntry
  dsimp only
  split
  · rename_i found hfound
    have hequal : cmpEntry totalCmp (searchEntry d) found = .eq := by
      simpa using List.find?_some hfound
    exact (h.getDecisionEntry_iff.mpr ⟨List.mem_of_find?_eq_some hfound,
      decisionId_of_cmpEntry totalCmp hequal⟩).symm
  · rw [walkUp_eq ((strictly_ascending h hascending _).filter _), Dbs.getDecisionEntry,
      List.find?_filter]
    · congr 1
      funext entry
      rw [Bool.eq_iff_iff, decide_eq_true_eq, decide_eq_true_eq, decide_eq_true_eq]
      exact and_iff_right_of_imp (cmpEntry_searchEntry totalCmp)
    · intro entry hentry
      have habove := of_decide_eq_true (List.mem_filter.mp hentry).2
      exact le_of_cmpEntry totalCmp habove

end Truthcoin.EntrySets
