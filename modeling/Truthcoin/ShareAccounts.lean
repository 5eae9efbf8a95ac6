import Truthcoin.MarketRecords

/-!
# Positions of the share accounts

A change of shares moves one position of one account by its amount. An account is
kept as long as it has positions.
-/

namespace Truthcoin.ShareAccounts

open Truthcoin.Types Truthcoin.Table Truthcoin.Fallible Truthcoin.Arithmetic
open Truthcoin.Markets Truthcoin.Apply Truthcoin.Connect

variable {F : Type} {db db' : MarketsDatabase F} {a : Address} {key : PositionKey}

abbrev Positions := Table PositionKey I64

def amountAt (t : Positions) (key : PositionKey) : Int :=
  (t[key]?.getD I64.zero).val

/-- The positions of an address; without an account there are none. -/
def positionsOf (db : MarketsDatabase F) (a : Address) : Positions :=
  (db.getUserShareAccount a).elim ∅ ShareAccount.positions

/-- Set the positions of an address. -/
def withPositions (db : MarketsDatabase F) (a : Address) (t : Positions) (height : Nat) :
    MarketsDatabase F :=
  { db with
    shareAccounts :=
      if t.isEmpty then db.shareAccounts.erase a else db.shareAccounts.insert a ⟨t, height⟩ }

/-- The position moves by the amount; it does not get negative by a removal. -/
def Moves (t : Positions) (key : PositionKey) (delta : Int) (t' : Positions) : Prop :=
  ∃ amount : I64, amount.val = amountAt t key + delta ∧ (delta ≤ 0 → 0 ≤ amount.val) ∧
    t' = if 0 < amount.val ∨ 0 < delta then t.insert key amount else t.erase key

theorem ownedShares_eq : (db.ownedShares a key).val = amountAt (positionsOf db a) key := by
  unfold MarketsDatabase.ownedShares positionsOf amountAt
  cases db.getUserShareAccount a with
  | none => simp
  | some account => rfl

theorem getPosition_getD :
    (((db.getUserShareAccount a).getD ShareAccount.new).getPosition key).val =
      amountAt (positionsOf db a) key := by
  unfold positionsOf
  cases db.getUserShareAccount a <;> rfl

theorem positions_getD :
    ((db.getUserShareAccount a).getD ShareAccount.new).positions = positionsOf db a := by
  unfold positionsOf
  cases db.getUserShareAccount a <;> rfl

theorem addSharesToAccount_iff {shares : I64} {height : Nat} (hpos : 0 < shares.val) :
    db.addSharesToAccount a key shares height = .ok db' ↔
      ∃ t, Moves (positionsOf db a) key shares.val t ∧ db' = withPositions db a t height := by
  simp only [MarketsDatabase.addSharesToAccount, ShareAccount.addShares, bind_eq_ok_iff,
    addI64_eq_ok_iff, Except.ok.injEq, getPosition_getD, positions_getD]
  have hput : ∀ amount : I64,
      withPositions db a ((positionsOf db a).insert key amount) height =
        { db with shareAccounts :=
            db.shareAccounts.insert a ⟨(positionsOf db a).insert key amount, height⟩ } := by
    intro amount
    simp [withPositions]
  constructor
  · rintro ⟨_, ⟨amount, hamount, rfl⟩, rfl⟩
    exact ⟨_, ⟨amount, hamount, by omega, by rw [if_pos (.inr hpos)]⟩, (hput amount).symm⟩
  · rintro ⟨_, ⟨amount, hamount, -, rfl⟩, rfl⟩
    rw [if_pos (.inr hpos), hput]
    exact ⟨_, ⟨amount, hamount, rfl⟩, rfl⟩

theorem removeSharesFromAccount_iff {shares : I64} {height : Nat} (hpos : 0 < shares.val) :
    db.removeSharesFromAccount a key shares height = .ok db' ↔
      ∃ t, Moves (positionsOf db a) key (-shares.val) t ∧
        db' = withPositions db a t height := by
  simp only [MarketsDatabase.removeSharesFromAccount, ShareAccount.removeShares, bind_eq_ok_iff,
    okOr_eq_ok_iff, ensure_eq_ok_iff, subI64_eq_ok_iff, Except.ok.injEq]
  constructor
  · rintro ⟨account, haccount, _, ⟨_, hle, amount, hamount, rfl⟩, rfl⟩
    have hpositions : positionsOf db a = account.positions := by simp [positionsOf, haccount]
    have hold : (account.getPosition key).val = amountAt account.positions key := rfl
    rw [hpositions]
    refine ⟨_, ⟨amount, by omega, by omega, rfl⟩, ?_⟩
    have hcond : (0 < amount.val ∨ 0 < -shares.val) ↔ 0 < amount.val := by omega
    simp only [withPositions, hcond, gt_iff_lt]
  · rintro ⟨_, ⟨amount, hamount, hnonneg, rfl⟩, rfl⟩
    cases haccount : db.getUserShareAccount a with
    | none =>
        -- nothing can be taken from an address without an account
        simp only [positionsOf, haccount, Option.elim_none, amountAt] at hamount
        simp at hamount
        have hzero : I64.zero.val = 0 := rfl
        omega
    | some account =>
        have hpositions : positionsOf db a = account.positions := by simp [positionsOf, haccount]
        have hold : (account.getPosition key).val = amountAt account.positions key := rfl
        rw [hpositions] at hamount ⊢
        have hcond : (0 < amount.val ∨ 0 < -shares.val) ↔ 0 < amount.val := by omega
        refine ⟨account, rfl, _, ⟨(), by omega, amount, by omega, rfl⟩, ?_⟩
        simp only [withPositions, hcond, gt_iff_lt]

theorem changeShares_iff {delta : I64} {height : Nat} (hne : delta.val ≠ 0) :
    db.changeShares a key delta height = .ok db' ↔
      ∃ t, Moves (positionsOf db a) key delta.val t ∧ db' = withPositions db a t height := by
  unfold MarketsDatabase.changeShares
  split
  · rename_i hpos
    exact addSharesToAccount_iff hpos
  · rename_i hnot
    have hneg : delta.val < 0 := by omega
    rw [if_pos hneg]
    simp only [bind_eq_ok_iff, negI64_eq_ok_iff]
    constructor
    · rintro ⟨shares, hshares, h⟩
      have hpos : 0 < shares.val := by omega
      rw [removeSharesFromAccount_iff hpos, hshares, neg_neg] at h
      exact h
    · rintro ⟨t, hmoves, rfl⟩
      -- the smallest number has no negation, and no account can cover it
      have hmin : i64Min ≤ -delta.val ∧ -delta.val ≤ i64Max := by
        obtain ⟨amount, hamount, hnonneg, -⟩ := hmoves
        have hbound := ((positionsOf db a)[key]?.getD I64.zero).property.2
        have hlow := delta.property.1
        unfold amountAt at hamount
        norm_num [i64Min, i64Max] at hbound hlow ⊢
        omega
      refine ⟨⟨-delta.val, hmin⟩, rfl, ?_⟩
      have hpos : 0 < (⟨-delta.val, hmin⟩ : I64).val := by
        dsimp only
        omega
      rw [removeSharesFromAccount_iff hpos]
      exact ⟨t, by simpa using hmoves, rfl⟩

theorem positionsOf_withPositions (t : Positions) (height : Nat) (b : Address) :
    positionsOf (withPositions db a t height) b = if a = b then t else positionsOf db b := by
  unfold positionsOf withPositions MarketsDatabase.getUserShareAccount
  by_cases hab : a = b
  · subst hab
    by_cases ht : t.isEmpty
    · simp [Std.ExtTreeMap.isEmpty_iff.mp ht]
    · simp [ht]
  · by_cases ht : t.isEmpty
    · simp [ht, hab, Std.ExtTreeMap.getElem?_erase]
    · simp [ht, hab, Std.ExtTreeMap.getElem?_insert]

theorem amountAt_insert (t : Positions) (amount : I64) (key' : PositionKey) :
    amountAt (t.insert key amount) key' = if key = key' then amount.val else amountAt t key' := by
  unfold amountAt
  rw [Std.ExtTreeMap.getElem?_insert]
  by_cases hkey : key = key' <;> simp [hkey]

theorem amountAt_erase (t : Positions) (key' : PositionKey) :
    amountAt (t.erase key) key' = if key = key' then 0 else amountAt t key' := by
  unfold amountAt
  rw [Std.ExtTreeMap.getElem?_erase]
  by_cases hkey : key = key'
  · simp [hkey, I64.zero]
  · simp [hkey]

theorem Moves.amountAt_eq {t t' : Positions} {delta : Int} (h : Moves t key delta t')
    (key' : PositionKey) :
    amountAt t' key' = if key = key' then amountAt t key + delta else amountAt t key' := by
  obtain ⟨amount, hamount, hnonneg, rfl⟩ := h
  split
  · rw [amountAt_insert, hamount]
  · rename_i hcond
    rw [amountAt_erase]
    split
    · omega
    · rfl

theorem Moves.comm {t t₁ t₂ : Positions} {key' : PositionKey} {delta delta' : Int}
    (hne : key ≠ key') (h : Moves t key delta t₁) (h' : Moves t₁ key' delta' t₂) :
    ∃ u₁, Moves t key' delta' u₁ ∧ Moves u₁ key delta t₂ := by
  obtain ⟨amount, hamount, hnonneg, rfl⟩ := h
  obtain ⟨amount', hamount', hnonneg', rfl⟩ := h'
  have hsame : ∀ x : Positions, amountAt
      (if 0 < amount.val ∨ 0 < delta then x.insert key amount else x.erase key) key' =
        amountAt x key' := by
    intro x
    split <;> simp [amountAt_insert, amountAt_erase, hne]
  have hsame' : amountAt
      (if 0 < amount'.val ∨ 0 < delta' then t.insert key' amount' else t.erase key') key =
        amountAt t key := by
    split <;> simp [amountAt_insert, amountAt_erase, hne.symm]
  rw [hsame] at hamount'
  refine ⟨_, ⟨amount', hamount', hnonneg', rfl⟩, amount, by rw [hsame', hamount], hnonneg, ?_⟩
  apply ext_lookup
  intro k
  split <;> split <;> grind

theorem withPositions_withPositions (t t' : Positions) (height : Nat) :
    withPositions (withPositions db a t height) a t' height = withPositions db a t' height := by
  have hrows : ∀ rows : Table Address ShareAccount,
      (if t'.isEmpty then
          (if t.isEmpty then rows.erase a else rows.insert a ⟨t, height⟩).erase a
        else (if t.isEmpty then rows.erase a else rows.insert a ⟨t, height⟩).insert a
          ⟨t', height⟩) =
        if t'.isEmpty then rows.erase a else rows.insert a ⟨t', height⟩ := by
    intro rows
    apply ext_lookup
    intro k
    split <;> split <;> grind
  simp only [withPositions, hrows]

theorem withPositions_comm {b : Address} (hne : a ≠ b) (t t' : Positions) (height : Nat) :
    withPositions (withPositions db a t height) b t' height =
      withPositions (withPositions db b t' height) a t height := by
  have hrows : ∀ rows : Table Address ShareAccount,
      (if t'.isEmpty then
          (if t.isEmpty then rows.erase a else rows.insert a ⟨t, height⟩).erase b
        else (if t.isEmpty then rows.erase a else rows.insert a ⟨t, height⟩).insert b
          ⟨t', height⟩) =
        if t.isEmpty then
          (if t'.isEmpty then rows.erase b else rows.insert b ⟨t', height⟩).erase a
        else (if t'.isEmpty then rows.erase b else rows.insert b ⟨t', height⟩).insert a
          ⟨t, height⟩ := by
    intro rows
    apply ext_lookup
    intro k
    split <;> split <;> grind
  simp only [withPositions, hrows]

/-- One of two changes of different positions may come first. -/
theorem applyShareChange_exchange {height : Nat} {c c' : ShareKey × I64} (hne : c.1 ≠ c'.1)
    (h : (applyShareChange height db c >>= (applyShareChange height · c')) = .ok db') :
    (applyShareChange height db c' >>= (applyShareChange height · c)) = .ok db' := by
  obtain ⟨⟨a, key⟩, delta⟩ := c
  obtain ⟨⟨b, key'⟩, delta'⟩ := c'
  unfold applyShareChange at h ⊢
  dsimp only at h hne ⊢
  have hzero : ∀ (d : MarketsDatabase F) (x : Address) (k : PositionKey) (n : I64), n.val = 0 →
      d.changeShares x k n height = .ok d := by
    intro d x k n hn
    simp [MarketsDatabase.changeShares, hn]
  by_cases hdelta : delta.val = 0
  · rw [hzero _ _ _ _ hdelta, ok_bind] at h
    rw [h, ok_bind, hzero _ _ _ _ hdelta]
  by_cases hdelta' : delta'.val = 0
  · rw [hzero _ _ _ _ hdelta', ok_bind]
    obtain ⟨d, hd, h⟩ := bind_eq_ok_iff.mp h
    rw [hzero _ _ _ _ hdelta'] at h
    rw [← Except.ok.inj h]
    exact hd
  simp only [bind_eq_ok_iff, changeShares_iff hdelta, changeShares_iff hdelta'] at h ⊢
  obtain ⟨_, ⟨t, ht, rfl⟩, t', ht', rfl⟩ := h
  rw [positionsOf_withPositions] at ht'
  by_cases hab : a = b
  · subst hab
    have hkey : key ≠ key' := fun heq => hne (by rw [heq])
    rw [if_pos rfl] at ht'
    obtain ⟨u, hu, hu'⟩ := ht.comm hkey ht'
    refine ⟨_, ⟨u, hu, rfl⟩, t', ?_, ?_⟩
    · rwa [positionsOf_withPositions, if_pos rfl]
    · rw [withPositions_withPositions, withPositions_withPositions]
  · rw [if_neg hab] at ht'
    refine ⟨_, ⟨t', ht', rfl⟩, t, ?_, withPositions_comm hab t t' height⟩
    rwa [positionsOf_withPositions, if_neg (Ne.symm hab)]

end Truthcoin.ShareAccounts
