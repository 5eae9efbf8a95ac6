import Truthcoin.Fallible

/-!
# Ancestors by jumps

Blocks that name their parents, with their heights and with rows of ancestors at
exponential distances. A row lets a walk to the ancestor a number of blocks before
take as many jumps as that number has bits; the test for descendants and the search
for the last common ancestor are made of such walks.
-/

namespace Truthcoin.Lineage

open Truthcoin.Fallible

/-- What is stored of each block: the parent that it names, its height, and its ancestors
at exponential distances. -/
structure Index (H : Type) where
  parent : H → Option (Option H)
  height : H → Option Nat
  row : H → Option (List H)

/-- The errors of the walks. -/
structure Faults (H E : Type) where
  noHeight : H → E
  noHeader : H → E
  noRow : H → E
  noAncestor : H → Nat → E
  /-- What a walk answers at the parent of a first block. -/
  orphan : Except E H
  panic : E

variable {H E : Type}

namespace Index

section

variable (I : Index H)

/-- A block and at most `fuel` of its ancestors, newest first. -/
def ancestorsFrom : Nat → H → List H
  | 0, h =>
      match I.parent h with
      | none => []
      | some _ => [h]
  | fuel + 1, h =>
      match I.parent h with
      | none => []
      | some none => [h]
      | some (some p) => h :: ancestorsFrom fuel p

/-- A block and its ancestors, newest first. -/
def ancestors (h : H) : List H :=
  I.ancestorsFrom ((I.height h).getD 0) h

/-- A child is one higher than its parent, and a block with a height is stored. -/
structure Rooted : Prop where
  stored : ∀ {h : H} {n : Nat}, I.height h = some n → ∃ p, I.parent h = some p
  first : ∀ {h : H}, I.parent h = some none → I.height h = some 0
  child : ∀ {h p : H}, I.parent h = some (some p) →
    ∃ n, I.height p = some n ∧ I.height h = some (n + 1)

/-- Entry `i` of the row of a block is the ancestor `2 ^ (i + 1)` blocks before. -/
def RowExact (h : H) : Prop :=
  ∃ row, I.row h = some row ∧
    ∀ i, 2 ^ (i + 1) < (I.ancestors h).length → row[i]? = (I.ancestors h)[2 ^ (i + 1)]?

variable (faults : Faults H E)

def getHeight (h : H) : Except E Nat :=
  okOr (I.height h) (faults.noHeight h)

/-- Jump from the row of a block until `n` blocks are passed. -/
def nthAncestorFrom (orig : H × Nat) : Nat → H → Nat → Except E H
  | _, h, 0 => .ok h
  | 0, _, _ + 1 => .error faults.panic
  | fuel + 1, h, n + 1 => do
      let height ← I.getHeight faults h
      ensure (n + 1 ≤ height) (faults.noAncestor orig.1 orig.2)
      if n = 0 then
        match ← okOr (I.parent h) (faults.noHeader h) with
        | some parent => .ok parent
        | none => faults.orphan
      else do
        let row ← okOr (I.row h) (faults.noRow h)
        let ancestor ← okOr row[Nat.log2 (n + 1) - 1]? faults.panic
        nthAncestorFrom orig fuel ancestor (n + 1 - 2 <<< (Nat.log2 (n + 1) - 1))

/-- The ancestor `n` blocks before. -/
def nthAncestor (h : H) (n : Nat) : Except E H :=
  I.nthAncestorFrom faults (h, n) n h n

/-- Append the ancestors at twice the distance of the last entry. -/
def growRow (height : Nat) : Nat → List H → H → Nat → Except E (List H)
  | 0, row, _, _ => .ok row
  | fuel + 1, row, last, depth =>
      if depth ≤ height then do
        let next ← I.nthAncestor faults last (depth / 2)
        growRow height fuel (row ++ [next]) next (depth * 2)
      else .ok row

/-- The row of a block with the given height and parent. -/
def exponentialRow (height : Nat) (parent : Option H) : Except E (List H) :=
  if 2 ≤ height then do
    let parent ← okOr parent faults.panic
    let grandparent ← I.nthAncestor faults parent 1
    I.growRow faults height height [grandparent] grandparent 4
  else .ok []

variable [DecidableEq H]

/-- Whether the second block is a descendant of the first one. -/
def isDescendant (ancestor descendant : H) : Except E Bool :=
  if ancestor = descendant then .ok true
  else do
    let ancestorHeight ← I.getHeight faults ancestor
    let descendantHeight ← I.getHeight faults descendant
    if descendantHeight < ancestorHeight then .ok false
    else do
      let block ← I.nthAncestor faults descendant (descendantHeight - ancestorHeight)
      .ok (decide (ancestor = block))

/-- The ancestors of two blocks at the lower of their heights, with that height. -/
def equalize (block0 block1 : H) : Except E (H × H × Nat) := do
  let height0 ← I.getHeight faults block0
  let height1 ← I.getHeight faults block1
  match compare height0 height1 with
  | .eq => .ok (block0, block1, height0)
  | .lt => do
      let block1 ← I.nthAncestor faults block1 (height1 - height0)
      .ok (block0, block1, height0)
  | .gt => do
      let block0 ← I.nthAncestor faults block0 (height0 - height1)
      .ok (block0, block1, height1)

/-- Search the least depth at which two blocks have the same ancestor. -/
def commonDepth (block0 block1 : H) : Nat → Nat → Nat → Except E Nat
  | 0, _, hiDepth => .ok hiDepth
  | fuel + 1, loDepth, hiDepth =>
      if loDepth < hiDepth then do
        let midDepth := (loDepth + hiDepth) / 2
        let midAncestor0 ← I.nthAncestor faults block0 midDepth
        let midAncestor1 ← I.nthAncestor faults block1 midDepth
        if midAncestor0 = midAncestor1 then commonDepth block0 block1 fuel loDepth midDepth
        else commonDepth block0 block1 fuel (midDepth + 1) hiDepth
      else .ok hiDepth

/-- The last common ancestor of two blocks that have one. -/
def lastCommonAncestor (block0 block1 : H) : Except E H := do
  let (block0, block1, height) ← I.equalize faults block0 block1
  if block0 = block1 then .ok block0
  else do
    let depth ← I.commonDepth faults block0 block1 height 1 height
    I.nthAncestor faults block0 depth

/-- Whether one of two blocks is a descendant of the other one. -/
def sharedLineage (block0 block1 : H) : Except E Bool := do
  let (block0, block1, _) ← I.equalize faults block0 block1
  .ok (decide (block0 = block1))

end

section

variable {I : Index H} {h a b p : H} {n k : Nat}

theorem ancestors_first (hparent : I.parent h = some none) : I.ancestors h = [h] := by
  rw [ancestors]
  cases (I.height h).getD 0 with
  | zero => rw [ancestorsFrom, hparent]
  | succ n => rw [ancestorsFrom, hparent]

variable (hI : I.Rooted)
include hI

theorem ancestors_child (hparent : I.parent h = some (some p)) :
    I.ancestors h = h :: I.ancestors p := by
  obtain ⟨n, hp, hh⟩ := hI.child hparent
  rw [ancestors, hh, Option.getD_some, ancestorsFrom, hparent, ancestors, hp, Option.getD_some]

theorem height_of_parent {q : Option H} (hparent : I.parent h = some q) :
    ∃ n, I.height h = some n := by
  cases q with
  | none => exact ⟨0, hI.first hparent⟩
  | some p =>
      obtain ⟨n, -, hh⟩ := hI.child hparent
      exact ⟨n + 1, hh⟩

theorem height_of_ancestor (hmem : a ∈ I.ancestors h) : ∃ n, I.height h = some n := by
  cases hparent : I.parent h with
  | some q => exact height_of_parent hI hparent
  | none =>
      rw [ancestors] at hmem
      cases hfuel : (I.height h).getD 0 with
      | zero =>
          rw [hfuel, ancestorsFrom, hparent] at hmem
          exact absurd hmem List.not_mem_nil
      | succ fuel =>
          rw [hfuel, ancestorsFrom, hparent] at hmem
          exact absurd hmem List.not_mem_nil

theorem rooted_induction {P : H → Prop} (hfirst : ∀ h, I.parent h = some none → P h)
    (hchild : ∀ h p, I.parent h = some (some p) → P p → P h) (hh : I.height h = some n) :
    P h := by
  induction n generalizing h with
  | zero =>
      obtain ⟨q, hq⟩ := hI.stored hh
      cases q with
      | none => exact hfirst h hq
      | some p =>
          obtain ⟨n, -, hheight⟩ := hI.child hq
          rw [hh] at hheight
          cases hheight
  | succ n ih =>
      obtain ⟨q, hq⟩ := hI.stored hh
      cases q with
      | none =>
          rw [hI.first hq] at hh
          cases hh
      | some p =>
          obtain ⟨m, hp, hheight⟩ := hI.child hq
          rw [hh, Option.some.injEq, Nat.add_right_cancel_iff] at hheight
          exact hchild h p hq (ih (hheight ▸ hp))

theorem mem_ancestors_self (hh : I.height h = some n) : h ∈ I.ancestors h := by
  obtain ⟨q, hq⟩ := hI.stored hh
  cases q with
  | none => rw [ancestors_first hq]; exact List.mem_singleton_self h
  | some p => rw [ancestors_child hI hq]; exact List.mem_cons_self

theorem getElem?_ancestors_zero (hh : I.height h = some n) : (I.ancestors h)[0]? = some h := by
  obtain ⟨q, hq⟩ := hI.stored hh
  cases q with
  | none => rw [ancestors_first hq]; rfl
  | some p => rw [ancestors_child hI hq]; rfl

theorem length_ancestors (hh : I.height h = some n) : (I.ancestors h).length = n + 1 := by
  induction n generalizing h with
  | zero =>
      obtain ⟨q, hq⟩ := hI.stored hh
      cases q with
      | none => rw [ancestors_first hq]; rfl
      | some p =>
          obtain ⟨n, -, hheight⟩ := hI.child hq
          rw [hh] at hheight
          cases hheight
  | succ n ih =>
      obtain ⟨q, hq⟩ := hI.stored hh
      cases q with
      | none =>
          rw [hI.first hq] at hh
          cases hh
      | some p =>
          obtain ⟨m, hp, hheight⟩ := hI.child hq
          rw [hh, Option.some.injEq, Nat.add_right_cancel_iff] at hheight
          rw [ancestors_child hI hq, List.length_cons, ih (hheight ▸ hp)]

theorem height_of_place (hh : I.height h = some n) (hplace : (I.ancestors h)[k]? = some a) :
    k ≤ n ∧ I.height a = some (n - k) := by
  induction n generalizing h k with
  | zero =>
      have hlength := length_ancestors hI hh
      have hk : k = 0 := by
        have := (List.getElem?_eq_some_iff.mp hplace).1
        omega
      subst hk
      rw [getElem?_ancestors_zero hI hh, Option.some.injEq] at hplace
      exact ⟨le_rfl, hplace ▸ hh⟩
  | succ n ih =>
      obtain ⟨q, hq⟩ := hI.stored hh
      cases q with
      | none =>
          rw [hI.first hq] at hh
          cases hh
      | some p =>
          obtain ⟨m, hp, hheight⟩ := hI.child hq
          rw [hh, Option.some.injEq, Nat.add_right_cancel_iff] at hheight
          subst hheight
          rw [ancestors_child hI hq] at hplace
          cases k with
          | zero =>
              rw [List.getElem?_cons_zero, Option.some.injEq] at hplace
              exact ⟨by omega, hplace ▸ hh⟩
          | succ k =>
              rw [List.getElem?_cons_succ] at hplace
              obtain ⟨hk, ha⟩ := ih hp hplace
              exact ⟨by omega, by rw [ha, Nat.add_sub_add_right]⟩

theorem height_of_mem (hh : I.height h = some n) (hmem : a ∈ I.ancestors h) :
    ∃ m ≤ n, I.height a = some m := by
  obtain ⟨k, hk⟩ := List.getElem?_of_mem hmem
  obtain ⟨hle, ha⟩ := height_of_place hI hh hk
  exact ⟨n - k, by omega, ha⟩

theorem ancestors_of_place (hh : I.height h = some n) (hplace : (I.ancestors h)[k]? = some a) :
    I.ancestors a = (I.ancestors h).drop k := by
  induction k generalizing h n with
  | zero =>
      rw [getElem?_ancestors_zero hI hh, Option.some.injEq] at hplace
      rw [hplace, List.drop_zero]
  | succ k ih =>
      obtain ⟨q, hq⟩ := hI.stored hh
      cases q with
      | none =>
          rw [ancestors_first hq] at hplace
          simp at hplace
      | some p =>
          obtain ⟨m, hp, -⟩ := hI.child hq
          rw [ancestors_child hI hq] at hplace ⊢
          rw [List.getElem?_cons_succ] at hplace
          rw [ih hp hplace, List.drop_succ_cons]

theorem mem_ancestors_iff {m : Nat} (hh : I.height h = some n) (ha : I.height a = some m) :
    a ∈ I.ancestors h ↔ m ≤ n ∧ (I.ancestors h)[n - m]? = some a := by
  constructor
  · intro hmem
    obtain ⟨k, hk⟩ := List.getElem?_of_mem hmem
    obtain ⟨hle, hheight⟩ := height_of_place hI hh hk
    rw [ha, Option.some.injEq] at hheight
    refine ⟨by omega, ?_⟩
    rwa [show n - m = k by omega]
  · rintro ⟨-, hplace⟩
    exact List.mem_of_getElem? hplace

theorem mem_ancestors_trans (hh : I.height h = some n) (hb : b ∈ I.ancestors h)
    (ha : a ∈ I.ancestors b) : a ∈ I.ancestors h := by
  obtain ⟨k, hk⟩ := List.getElem?_of_mem hb
  rw [ancestors_of_place hI hh hk] at ha
  exact List.mem_of_mem_drop ha

theorem mem_ancestors_total {m l : Nat} (hh : I.height h = some n) (ha : a ∈ I.ancestors h)
    (hb : b ∈ I.ancestors h) (hma : I.height a = some m) (hlb : I.height b = some l)
    (hle : m ≤ l) : a ∈ I.ancestors b := by
  obtain ⟨hmn, haplace⟩ := (mem_ancestors_iff hI hh hma).mp ha
  obtain ⟨hln, hbplace⟩ := (mem_ancestors_iff hI hh hlb).mp hb
  rw [ancestors_of_place hI hh hbplace]
  apply List.mem_of_getElem? (i := l - m)
  rw [List.getElem?_drop, show n - l + (l - m) = n - m by omega]
  exact haplace

theorem eq_of_mem_of_height (hh : I.height h = some n) (ha : I.height a = some n)
    (hmem : a ∈ I.ancestors h) : a = h := by
  have hplace := ((mem_ancestors_iff hI hh ha).mp hmem).2
  rw [Nat.sub_self, getElem?_ancestors_zero hI hh, Option.some.injEq] at hplace
  exact hplace.symm

theorem ancestors_mono {J : Index H} (hJ : J.Rooted)
    (hgrow : ∀ h q, I.parent h = some q → J.parent h = some q) (hh : I.height h = some n) :
    J.ancestors h = I.ancestors h := by
  refine rooted_induction hI (P := fun h => J.ancestors h = I.ancestors h) ?_ ?_ hh
  · intro h hfirst
    rw [ancestors_first hfirst, ancestors_first (hgrow h _ hfirst)]
  · intro h p hchild ih
    rw [ancestors_child hI hchild, ancestors_child hJ (hgrow h _ hchild), ih]

end

section

variable {I : Index H} {faults : Faults H E} {h a b : H} {n k : Nat} (hI : I.Rooted)

theorem getHeight_eq (hh : I.height h = some n) : I.getHeight faults h = .ok n := by
  rw [getHeight, hh, okOr_some]

include hI

theorem nthAncestorFrom_eq {orig : H × Nat} {fuel : Nat} (hh : I.height h = some n)
    (hrows : ∀ a ∈ I.ancestors h, I.RowExact a) (hk : k ≤ n) (hfuel : k ≤ fuel) :
    ∃ a, I.nthAncestorFrom faults orig fuel h k = .ok a ∧ (I.ancestors h)[k]? = some a := by
  induction fuel generalizing h n k with
  | zero =>
      obtain rfl : k = 0 := by omega
      exact ⟨h, rfl, getElem?_ancestors_zero hI hh⟩
  | succ fuel ih =>
      cases k with
      | zero => exact ⟨h, rfl, getElem?_ancestors_zero hI hh⟩
      | succ k =>
          rw [nthAncestorFrom, getHeight_eq hh, ok_bind, ensure_pos (by omega), ok_bind]
          by_cases hone : k = 0
          · obtain ⟨q, hq⟩ := hI.stored hh
            cases q with
            | none =>
                rw [hI.first hq, Option.some.injEq] at hh
                omega
            | some p =>
                obtain ⟨m, hp, -⟩ := hI.child hq
                rw [if_pos hone, hq, okOr_some, ok_bind]
                refine ⟨p, rfl, ?_⟩
                rw [hone, ancestors_child hI hq, List.getElem?_cons_succ,
                  getElem?_ancestors_zero hI hp]
          · -- the jump goes down by the greatest power of two that fits
            have hlog : 1 ≤ Nat.log2 (k + 1) := (Nat.le_log2 (by omega)).mpr (by omega)
            have hjump : 2 <<< (Nat.log2 (k + 1) - 1) = 2 ^ Nat.log2 (k + 1) := by
              rw [Nat.shiftLeft_eq, ← Nat.pow_succ']
              congr 1
              omega
            have hle : 2 ^ Nat.log2 (k + 1) ≤ k + 1 := Nat.log2_self_le (by omega)
            have hpos : 0 < 2 ^ Nat.log2 (k + 1) := by positivity
            have hlength := length_ancestors hI hh
            obtain ⟨row, hrow, hentries⟩ := hrows h (mem_ancestors_self hI hh)
            have hentry := hentries (Nat.log2 (k + 1) - 1)
              (by rw [show Nat.log2 (k + 1) - 1 + 1 = Nat.log2 (k + 1) by omega]; omega)
            rw [show Nat.log2 (k + 1) - 1 + 1 = Nat.log2 (k + 1) by omega] at hentry
            obtain ⟨c, hc⟩ : ∃ c, (I.ancestors h)[2 ^ Nat.log2 (k + 1)]? = some c :=
              ⟨_, List.getElem?_eq_getElem (by omega)⟩
            obtain ⟨-, hcheight⟩ := height_of_place hI hh hc
            have hdrop := ancestors_of_place hI hh hc
            obtain ⟨a, ha, hplace⟩ := ih hcheight
              (fun d hd => hrows d (mem_ancestors_trans hI hh (List.mem_of_getElem? hc) hd))
              (k := k + 1 - 2 ^ Nat.log2 (k + 1)) (by omega) (by omega)
            refine ⟨a, ?_, ?_⟩
            · rw [if_neg hone, hrow, okOr_some, ok_bind, hentry, hc, okOr_some, ok_bind, hjump]
              exact ha
            · rw [hdrop, List.getElem?_drop] at hplace
              rwa [show 2 ^ Nat.log2 (k + 1) + (k + 1 - 2 ^ Nat.log2 (k + 1)) = k + 1 by
                omega] at hplace

variable (faults) in
theorem nthAncestor_eq (hh : I.height h = some n) (hrows : ∀ a ∈ I.ancestors h, I.RowExact a)
    (hk : k ≤ n) :
    ∃ a, I.nthAncestor faults h k = .ok a ∧ (I.ancestors h)[k]? = some a :=
  nthAncestorFrom_eq hI hh hrows hk le_rfl

/-- The rows of a child of `h` in terms of the ancestors of `h`. -/
theorem growRow_eq {fuel j : Nat} {row : List H} (hh : I.height h = some n)
    (hrows : ∀ a ∈ I.ancestors h, I.RowExact a) (hfuel : n + 1 < 2 ^ (j + 2 + fuel))
    (hlast : (I.ancestors h)[2 ^ (j + 1) - 1]? = some a) (hlength : row.length = j + 1)
    (hrow : ∀ i ≤ j, row[i]? = (I.ancestors h)[2 ^ (i + 1) - 1]?) :
    ∃ row', I.growRow faults (n + 1) fuel row a (2 ^ (j + 2)) = .ok row' ∧
      ∀ i, 2 ^ (i + 1) ≤ n + 1 → row'[i]? = (I.ancestors h)[2 ^ (i + 1) - 1]? := by
  have hdone (hlt : n + 1 < 2 ^ (j + 2)) (i : Nat) (hi : 2 ^ (i + 1) ≤ n + 1) :
      row[i]? = (I.ancestors h)[2 ^ (i + 1) - 1]? := by
    have hpow : i + 1 < j + 2 := (Nat.pow_lt_pow_iff_right (by omega)).mp (hi.trans_lt hlt)
    exact hrow i (by omega)
  induction fuel generalizing j row a with
  | zero => exact ⟨row, rfl, hdone hfuel⟩
  | succ fuel ih =>
      rw [growRow]
      by_cases hdepth : 2 ^ (j + 2) ≤ n + 1
      · have hdouble : 2 ^ (j + 2) = 2 ^ (j + 1) * 2 := by rw [Nat.pow_succ]
        have hpos : 0 < 2 ^ (j + 1) := by positivity
        obtain ⟨hle, hlastHeight⟩ := height_of_place hI hh hlast
        have hdrop := ancestors_of_place hI hh hlast
        obtain ⟨next, hnext, hplace⟩ := nthAncestor_eq faults hI hlastHeight
          (fun d hd => hrows d (mem_ancestors_trans hI hh (List.mem_of_getElem? hlast) hd))
          (k := 2 ^ (j + 1)) (by omega)
        rw [hdrop, List.getElem?_drop,
          show 2 ^ (j + 1) - 1 + 2 ^ (j + 1) = 2 ^ (j + 2) - 1 by omega] at hplace
        have hstep : I.growRow faults (n + 1) fuel (row ++ [next]) next (2 ^ (j + 2) * 2) =
            I.growRow faults (n + 1) fuel (row ++ [next]) next (2 ^ (j + 1 + 2)) := by
          rw [← Nat.pow_succ]
        rw [if_pos hdepth, show 2 ^ (j + 2) / 2 = 2 ^ (j + 1) by omega, hnext, ok_bind, hstep]
        have hrow' (i : Nat) (hi : i ≤ j + 1) :
            (row ++ [next])[i]? = (I.ancestors h)[2 ^ (i + 1) - 1]? := by
          rcases Nat.lt_or_eq_of_le hi with hlt | rfl
          · rw [List.getElem?_append_left (by omega), hrow i (by omega)]
          · rw [List.getElem?_append_right (by omega), hlength, Nat.sub_self, hplace]
            rfl
        apply ih (by rwa [show j + 1 + 2 + fuel = j + 2 + (fuel + 1) by omega]) hplace
          (by rw [List.length_append, hlength]; rfl) hrow'
        intro hlt i hi
        have hpow : i + 1 < j + 1 + 2 := (Nat.pow_lt_pow_iff_right (by omega)).mp (hi.trans_lt hlt)
        exact hrow' i (by omega)
      · rw [if_neg hdepth]
        exact ⟨row, rfl, hdone (by omega)⟩

variable (faults) in
/-- The row of a child of `h`. -/
theorem exponentialRow_eq (hh : I.height h = some n)
    (hrows : ∀ a ∈ I.ancestors h, I.RowExact a) :
    ∃ row, I.exponentialRow faults (n + 1) (some h) = .ok row ∧
      ∀ i, 2 ^ (i + 1) ≤ n + 1 → row[i]? = (I.ancestors h)[2 ^ (i + 1) - 1]? := by
  rw [exponentialRow]
  by_cases hheight : 2 ≤ n + 1
  · obtain ⟨grandparent, hnext, hplace⟩ := nthAncestor_eq faults hI hh hrows
      (k := 1) (by omega)
    rw [if_pos hheight, okOr_some, ok_bind, hnext, ok_bind]
    apply growRow_eq hI hh hrows (j := 0)
    · exact (Nat.lt_two_pow_self).trans_le (Nat.pow_le_pow_right (by omega) (by omega))
    · exact hplace
    · rfl
    · intro i hi
      obtain rfl : i = 0 := by omega
      exact hplace.symm
  · rw [if_neg hheight]
    refine ⟨[], rfl, fun i hi => ?_⟩
    have hpow : 2 ^ 1 ≤ 2 ^ (i + 1) := Nat.pow_le_pow_right (by omega) (by omega)
    omega

theorem isDescendant_eq [DecidableEq H] {m : Nat} (ha : I.height a = some m)
    (hh : I.height h = some n) (hrows : ∀ a ∈ I.ancestors h, I.RowExact a) :
    I.isDescendant faults a h = .ok (decide (a ∈ I.ancestors h)) := by
  rw [isDescendant]
  by_cases heq : a = h
  · rw [if_pos heq, heq, decide_eq_true (mem_ancestors_self hI hh)]
  · rw [if_neg heq, getHeight_eq ha, ok_bind, getHeight_eq hh, ok_bind]
    by_cases hlower : n < m
    · have hnot : a ∉ I.ancestors h := by
        intro hmem
        have := ((mem_ancestors_iff hI hh ha).mp hmem).1
        omega
      rw [if_pos hlower, decide_eq_false hnot]
    · obtain ⟨b, hb, hplace⟩ := nthAncestor_eq faults hI hh hrows
        (k := n - m) (by omega)
      rw [if_neg hlower, hb, ok_bind]
      congr 1
      have hle : m ≤ n := by omega
      simp only [mem_ancestors_iff hI hh ha, hle, hplace, Option.some.injEq, true_and]
      rw [decide_eq_decide]
      exact eq_comm

end

section

variable {I : Index H} {faults : Faults H E} {a b block0 block1 : H} {n m : Nat}
  (hI : I.Rooted)

/-- The newest block that is an ancestor of both blocks. -/
def LastCommon (I : Index H) (block0 block1 c : H) : Prop :=
  c ∈ I.ancestors block0 ∧ c ∈ I.ancestors block1 ∧
    ∀ a, a ∈ I.ancestors block0 → a ∈ I.ancestors block1 → a ∈ I.ancestors c

theorem LastCommon.symm {c : H} (hc : LastCommon I block0 block1 c) :
    LastCommon I block1 block0 c :=
  ⟨hc.2.1, hc.1, fun a h1 h0 => hc.2.2 a h0 h1⟩

include hI

theorem LastCommon.unique {c d : H} (h0 : I.height block0 = some n)
    (hc : LastCommon I block0 block1 c) (hd : LastCommon I block0 block1 d) : c = d := by
  obtain ⟨k, -, hck⟩ := height_of_mem hI h0 hc.1
  obtain ⟨l, -, hdl⟩ := height_of_mem hI h0 hd.1
  have hcd := hd.2.2 c hc.1 hc.2.1
  have hdc := hc.2.2 d hd.1 hd.2.1
  have hkl := ((mem_ancestors_iff hI hdl hck).mp hcd).1
  have hlk := ((mem_ancestors_iff hI hck hdl).mp hdc).1
  obtain rfl : k = l := by omega
  exact eq_of_mem_of_height hI hdl hck hcd

variable (faults) in
theorem equalize_eq [DecidableEq H] (h0 : I.height block0 = some n)
    (h1 : I.height block1 = some m)
    (hrows0 : ∀ a ∈ I.ancestors block0, I.RowExact a)
    (hrows1 : ∀ a ∈ I.ancestors block1, I.RowExact a) :
    ∃ c0 c1, I.equalize faults block0 block1 = .ok (c0, c1, min n m) ∧
      c0 ∈ I.ancestors block0 ∧ c1 ∈ I.ancestors block1 ∧
        I.height c0 = some (min n m) ∧ I.height c1 = some (min n m) := by
  have hself0 := mem_ancestors_self hI h0
  have hself1 := mem_ancestors_self hI h1
  rw [equalize, getHeight_eq h0, ok_bind, getHeight_eq h1, ok_bind]
  rcases Nat.lt_trichotomy n m with hlt | rfl | hgt
  · obtain ⟨c, hc, hplace⟩ := nthAncestor_eq faults hI h1 hrows1
      (k := m - n) (by omega)
    obtain ⟨-, hheight⟩ := height_of_place hI h1 hplace
    rw [Nat.compare_eq_lt.mpr hlt, Nat.min_eq_left hlt.le]
    refine ⟨block0, c, by simp only [hc, ok_bind], hself0, List.mem_of_getElem? hplace, h0, ?_⟩
    rwa [show m - (m - n) = n by omega] at hheight
  · rw [Nat.compare_eq_eq.mpr rfl, Nat.min_self]
    exact ⟨block0, block1, rfl, hself0, hself1, h0, h1⟩
  · obtain ⟨c, hc, hplace⟩ := nthAncestor_eq faults hI h0 hrows0
      (k := n - m) (by omega)
    obtain ⟨-, hheight⟩ := height_of_place hI h0 hplace
    rw [Nat.compare_eq_gt.mpr hgt, Nat.min_eq_right hgt.le]
    refine ⟨c, block1, by simp only [hc, ok_bind], List.mem_of_getElem? hplace, hself1, ?_, h1⟩
    rwa [show n - (n - m) = m by omega] at hheight

theorem same_of_le {c0 c1 : H} {d e : Nat} (h0 : I.height c0 = some n)
    (h1 : I.height c1 = some n) (hd : d ≤ n) (hle : d ≤ e)
    (hsame : (I.ancestors c0)[d]? = (I.ancestors c1)[d]?) :
    (I.ancestors c0)[e]? = (I.ancestors c1)[e]? := by
  have hlength := length_ancestors hI h0
  obtain ⟨a, ha⟩ : ∃ a, (I.ancestors c0)[d]? = some a := ⟨_, List.getElem?_eq_getElem (by omega)⟩
  have hdrop0 := ancestors_of_place hI h0 ha
  have hdrop1 := ancestors_of_place hI h1 (hsame ▸ ha)
  have hplace : ((I.ancestors c0).drop d)[e - d]? = ((I.ancestors c1).drop d)[e - d]? := by
    rw [← hdrop0, ← hdrop1]
  rwa [List.getElem?_drop, List.getElem?_drop, show d + (e - d) = e by omega] at hplace

variable (faults) in
theorem commonDepth_eq [DecidableEq H] {c0 c1 : H} {fuel lo hi : Nat}
    (h0 : I.height c0 = some n) (h1 : I.height c1 = some n)
    (hrows0 : ∀ a ∈ I.ancestors c0, I.RowExact a) (hrows1 : ∀ a ∈ I.ancestors c1, I.RowExact a)
    (hhi : hi ≤ n) (hfuel : hi ≤ lo + fuel)
    (hbelow : ∀ e < lo, (I.ancestors c0)[e]? ≠ (I.ancestors c1)[e]?)
    (habove : hi = n ∨ (I.ancestors c0)[hi]? = (I.ancestors c1)[hi]?) :
    ∃ depth ≤ n, I.commonDepth faults c0 c1 fuel lo hi = .ok depth ∧
      (∀ e < depth, (I.ancestors c0)[e]? ≠ (I.ancestors c1)[e]?) ∧
        (depth = n ∨ (I.ancestors c0)[depth]? = (I.ancestors c1)[depth]?) := by
  induction fuel generalizing lo hi with
  | zero => exact ⟨hi, hhi, rfl, fun e he => hbelow e (by omega), habove⟩
  | succ fuel ih =>
      rw [commonDepth]
      by_cases hlt : lo < hi
      · obtain ⟨mid0, hmid0, hplace0⟩ := nthAncestor_eq faults hI h0 hrows0
          (k := (lo + hi) / 2) (by omega)
        obtain ⟨mid1, hmid1, hplace1⟩ := nthAncestor_eq faults hI h1 hrows1
          (k := (lo + hi) / 2) (by omega)
        simp only [if_pos hlt, hmid0, hmid1, ok_bind]
        by_cases hsame : mid0 = mid1
        · rw [if_pos hsame]
          apply ih (by omega) (by omega) hbelow
          right
          rw [hplace0, hplace1, hsame]
        · rw [if_neg hsame]
          apply ih hhi (by omega) ?_ habove
          intro e he heq
          have hmid := same_of_le hI h0 h1 (by omega) (show e ≤ (lo + hi) / 2 by omega) heq
          rw [hplace0, hplace1, Option.some.injEq] at hmid
          exact hsame hmid
      · rw [if_neg hlt]
        exact ⟨hi, hhi, rfl, fun e he => hbelow e (by omega), habove⟩

omit hI in
theorem lastCommon_of_mem (hself : block0 ∈ I.ancestors block0)
    (hmem : block0 ∈ I.ancestors block1) : LastCommon I block0 block1 block0 :=
  ⟨hself, hmem, fun _ h0 _ => h0⟩

variable (faults) in
/-- The search finds the last common ancestor, or the first ancestor of the first block when
there is none. -/
theorem lastCommonAncestor_eq [DecidableEq H] (h0 : I.height block0 = some n)
    (h1 : I.height block1 = some m)
    (hrows0 : ∀ a ∈ I.ancestors block0, I.RowExact a)
    (hrows1 : ∀ a ∈ I.ancestors block1, I.RowExact a) :
    ∃ c, I.lastCommonAncestor faults block0 block1 = .ok c ∧ c ∈ I.ancestors block0 ∧
      (LastCommon I block0 block1 c ∨
        I.height c = some 0 ∧ ∀ a ∈ I.ancestors block0, a ∉ I.ancestors block1) := by
  obtain ⟨c0, c1, hequal, hc0, hc1, hheight0, hheight1⟩ :=
    equalize_eq faults hI h0 h1 hrows0 hrows1
  have hlower0 (a : H) (ha0 : a ∈ I.ancestors block0) (ha1 : a ∈ I.ancestors block1) :
      a ∈ I.ancestors c0 ∧ a ∈ I.ancestors c1 := by
    obtain ⟨k, hk, hak⟩ := height_of_mem hI h0 ha0
    have hkm := ((mem_ancestors_iff hI h1 hak).mp ha1).1
    exact ⟨mem_ancestors_total hI h0 ha0 hc0 hak hheight0 (by omega),
      mem_ancestors_total hI h1 ha1 hc1 hak hheight1 (by omega)⟩
  rw [lastCommonAncestor, hequal, ok_bind]
  by_cases heq : c0 = c1
  · subst heq
    simp only [if_pos]
    exact ⟨c0, rfl, hc0, .inl ⟨hc0, hc1, fun a ha0 ha1 => (hlower0 a ha0 ha1).1⟩⟩
  · have hsub0 (a : H) (ha : a ∈ I.ancestors c0) := hrows0 a (mem_ancestors_trans hI h0 hc0 ha)
    have hsub1 (a : H) (ha : a ∈ I.ancestors c1) := hrows1 a (mem_ancestors_trans hI h1 hc1 ha)
    have hzero (e : Nat) (he : e < 1) :
        (I.ancestors c0)[e]? ≠ (I.ancestors c1)[e]? := by
      obtain rfl : e = 0 := by omega
      rw [getElem?_ancestors_zero hI hheight0, getElem?_ancestors_zero hI hheight1]
      simpa using heq
    obtain ⟨depth, hle, hdepth, hbelow, hat⟩ := commonDepth_eq faults hI hheight0
      hheight1 hsub0 hsub1 le_rfl (show min n m ≤ 1 + min n m by omega) hzero (.inl rfl)
    obtain ⟨c, hc, hplace⟩ := nthAncestor_eq faults hI hheight0 hsub0 hle
    simp only [if_neg heq, hdepth, hc, ok_bind]
    refine ⟨c, rfl, mem_ancestors_trans hI h0 hc0 (List.mem_of_getElem? hplace), ?_⟩
    have hceight := (height_of_place hI hheight0 hplace).2
    by_cases hsame : (I.ancestors c0)[depth]? = (I.ancestors c1)[depth]?
    · left
      have hplace1 := hsame ▸ hplace
      refine ⟨mem_ancestors_trans hI h0 hc0 (List.mem_of_getElem? hplace),
        mem_ancestors_trans hI h1 hc1 (List.mem_of_getElem? hplace1), fun a ha0 ha1 => ?_⟩
      obtain ⟨hac0, hac1⟩ := hlower0 a ha0 ha1
      obtain ⟨k, hk, hak⟩ := height_of_mem hI hheight0 hac0
      have hp0 := ((mem_ancestors_iff hI hheight0 hak).mp hac0).2
      have hp1 := ((mem_ancestors_iff hI hheight1 hak).mp hac1).2
      have hdeep : depth ≤ min n m - k := by
        by_contra hlt
        exact hbelow (min n m - k) (by omega) (hp0.trans hp1.symm)
      exact mem_ancestors_total hI hheight0 hac0 (List.mem_of_getElem? hplace) hak hceight
        (by omega)
    · right
      obtain rfl : depth = min n m := hat.resolve_right hsame
      rw [Nat.sub_self] at hceight
      refine ⟨hceight, fun a ha0 ha1 => hsame ?_⟩
      obtain ⟨hac0, hac1⟩ := hlower0 a ha0 ha1
      obtain ⟨k, hk, hak⟩ := height_of_mem hI hheight0 hac0
      have hp0 := ((mem_ancestors_iff hI hheight0 hak).mp hac0).2
      have hp1 := ((mem_ancestors_iff hI hheight1 hak).mp hac1).2
      exact same_of_le hI hheight0 hheight1 (by omega) (by omega) (hp0.trans hp1.symm)

theorem sharedLineage_eq [DecidableEq H] (h0 : I.height block0 = some n)
    (h1 : I.height block1 = some m)
    (hrows0 : ∀ a ∈ I.ancestors block0, I.RowExact a)
    (hrows1 : ∀ a ∈ I.ancestors block1, I.RowExact a) :
    I.sharedLineage faults block0 block1 =
      .ok (decide (block0 ∈ I.ancestors block1 ∨ block1 ∈ I.ancestors block0)) := by
  obtain ⟨c0, c1, hequal, hc0, hc1, hheight0, hheight1⟩ :=
    equalize_eq faults hI h0 h1 hrows0 hrows1
  rw [sharedLineage, hequal, ok_bind]
  show Except.ok (decide (c0 = c1)) = _
  congr 1
  rw [decide_eq_decide]
  constructor
  · rintro rfl
    rcases Nat.le_total n m with hnm | hmn
    · rw [Nat.min_eq_left hnm] at hheight0
      left
      rwa [← eq_of_mem_of_height hI h0 hheight0 hc0]
    · rw [Nat.min_eq_right hmn] at hheight1
      right
      rwa [← eq_of_mem_of_height hI h1 hheight1 hc1]
  · rintro (hmem | hmem)
    · have hnm := ((mem_ancestors_iff hI h1 h0).mp hmem).1
      rw [Nat.min_eq_left hnm] at hheight0 hheight1
      have hc0eq := eq_of_mem_of_height hI h0 hheight0 hc0
      have hin := mem_ancestors_total hI h1 hc1 hmem hheight1 h0 le_rfl
      rw [hc0eq, eq_of_mem_of_height hI h0 hheight1 hin]
    · have hmn := ((mem_ancestors_iff hI h0 h1).mp hmem).1
      rw [Nat.min_eq_right hmn] at hheight0 hheight1
      have hc1eq := eq_of_mem_of_height hI h1 hheight1 hc1
      have hin := mem_ancestors_total hI h0 hc0 hmem hheight0 h1 le_rfl
      rw [hc1eq, eq_of_mem_of_height hI h1 hheight0 hin]

end

section

variable [DecidableEq H] (I : Index H) {b : H} {q : Option H} {n : Nat}

/-- The index with the parent and the height of a block. -/
def link (b : H) (q : Option H) (n : Nat) : Index H where
  parent h := if h = b then some q else I.parent h
  height h := if h = b then some n else I.height h
  row := I.row

/-- The index with the row of a block. -/
def withRow (b : H) (row : List H) : Index H where
  parent := I.parent
  height := I.height
  row h := if h = b then some row else I.row h

theorem ancestors_withRow {I : Index H} {b h : H} {row : List H} :
    (I.withRow b row).ancestors h = I.ancestors h := by
  have hfrom (fuel : Nat) (h : H) :
      (I.withRow b row).ancestorsFrom fuel h = I.ancestorsFrom fuel h := by
    induction fuel generalizing h with
    | zero => rfl
    | succ fuel ih =>
        show (match I.parent h with
          | none => []
          | some none => [h]
          | some (some p) => h :: (I.withRow b row).ancestorsFrom fuel p) = _
        simp only [ih]
        rfl
  exact hfrom _ h

theorem rooted_withRow {I : Index H} {b : H} {row : List H} (hI : I.Rooted) :
    (I.withRow b row).Rooted :=
  ⟨hI.stored, hI.first, hI.child⟩

/-- A block can be stored, or stored again, one higher than its parent. -/
def Linkable (b : H) (q : Option H) (n : Nat) : Prop :=
  (I.parent b = none ∨ I.parent b = some q) ∧
    match q with
    | none => n = 0
    | some p => ∃ m, I.height p = some m ∧ n = m + 1

variable {I} (hI : I.Rooted) (hlink : I.Linkable b q n)
include hI hlink

omit [DecidableEq H] in
theorem height_of_stored_again (hstored : I.parent b = some q) : I.height b = some n := by
  cases q with
  | none =>
      rw [hI.first hstored, show n = 0 from hlink.2]
  | some p =>
      obtain ⟨m, hm, rfl⟩ := hlink.2
      obtain ⟨k, hk, hb⟩ := hI.child hstored
      rw [hm, Option.some.injEq] at hk
      rw [hb, hk]

theorem link_of_stored {h : H} {r : Option H} (hh : I.parent h = some r) :
    (I.link b q n).parent h = some r ∧ (I.link b q n).height h = I.height h := by
  by_cases heq : h = b
  · subst heq
    have hr : some r = some q := by
      rcases hlink.1 with hnone | hsame
      · rw [hnone] at hh
        cases hh
      · exact hh.symm.trans hsame
    have hheight := height_of_stored_again hI hlink (hh.trans hr)
    simp only [link, if_pos]
    exact ⟨hr.symm, hheight.symm⟩
  · exact ⟨(if_neg heq).trans hh, if_neg heq⟩

theorem height_link {h : H} {m : Nat} (hh : I.height h = some m) :
    (I.link b q n).height h = some m := by
  obtain ⟨r, hr⟩ := hI.stored hh
  rw [(link_of_stored hI hlink hr).2, hh]

theorem rooted_link : (I.link b q n).Rooted where
  stored {h m} hh := by
    by_cases heq : h = b
    · exact ⟨q, if_pos heq⟩
    · simp only [link, if_neg heq] at hh ⊢
      exact hI.stored hh
  first {h} hh := by
    by_cases heq : h = b
    · simp only [link, if_pos heq, Option.some.injEq] at hh ⊢
      subst hh
      exact hlink.2
    · simp only [link, if_neg heq] at hh ⊢
      exact hI.first hh
  child {h p} hh := by
    by_cases heq : h = b
    · have hq : q = some p := by simpa only [link, if_pos heq, Option.some.injEq] using hh
      obtain ⟨m, hm, rfl⟩ : ∃ m, I.height p = some m ∧ n = m + 1 := by
        have := hlink.2
        rwa [hq] at this
      exact ⟨m, height_link hI hlink hm, if_pos heq⟩
    · have hparent : I.parent h = some (some p) := by simpa only [link, if_neg heq] using hh
      obtain ⟨m, hm, hheight⟩ := hI.child hparent
      exact ⟨m, height_link hI hlink hm, height_link hI hlink hheight⟩

theorem ancestors_link {h : H} {m : Nat} (hh : I.height h = some m) :
    (I.link b q n).ancestors h = I.ancestors h :=
  ancestors_mono hI (rooted_link hI hlink) (fun _ _ h => (link_of_stored hI hlink h).1) hh

/-- The row that is computed for a new block is exact, and so are the others still. -/
theorem rows_link {faults : Faults H E} {parent : Option H} {row : List H}
    (hrows : ∀ {h m}, I.height h = some m → I.RowExact h)
    (hparent : ∀ p, q = some p → parent = some p)
    (hrow : (I.link b q n).exponentialRow faults n parent = .ok row) {h : H} {m : Nat}
    (hh : (I.link b q n).height h = some m) : ((I.link b q n).withRow b row).RowExact h := by
  have hJ := rooted_link hI hlink
  have hkept {h : H} {m : Nat} (hm : I.height h = some m) : (I.link b q n).RowExact h := by
    obtain ⟨row, hrow, hentries⟩ := hrows hm
    refine ⟨row, hrow, ?_⟩
    rwa [ancestors_link hI hlink hm]
  rw [RowExact, ancestors_withRow]
  by_cases heq : h = b
  · refine ⟨row, if_pos heq, ?_⟩
    have hb : (I.link b q n).parent h = some q := if_pos heq
    cases q with
    | none =>
        intro i hi
        rw [ancestors_first hb] at hi
        have hpos : 0 < 2 ^ (i + 1) := by positivity
        rw [List.length_singleton] at hi
        omega
    | some p =>
        obtain ⟨k, hk, rfl⟩ := hlink.2
        have hp := height_link hI hlink hk
        obtain ⟨row', hrow', hentries⟩ := exponentialRow_eq faults hJ hp
          (fun a ha => by
            rw [ancestors_link hI hlink hk] at ha
            obtain ⟨l, -, hl⟩ := height_of_mem hI hk ha
            exact hkept hl)
        rw [hparent p rfl, hrow', Except.ok.injEq] at hrow
        subst hrow
        intro i hi
        rw [ancestors_child hJ hb] at hi ⊢
        rw [List.length_cons, length_ancestors hJ hp] at hi
        have hpos : 0 < 2 ^ (i + 1) := by positivity
        rw [hentries i (by omega), show 2 ^ (i + 1) = 2 ^ (i + 1) - 1 + 1 by omega,
          List.getElem?_cons_succ, Nat.add_sub_cancel]
  · have hm : I.height h = some m := by simpa only [link, if_neg heq] using hh
    obtain ⟨r, hr, hentries⟩ := hkept hm
    exact ⟨r, (if_neg heq).trans hr, hentries⟩

end

end Index

end Truthcoin.Lineage
