import Truthcoin.Lineage

/-!
# Parent chains

The chain of parents of a block without the rows, and what the walks by jumps, the test
for descendants and the search for the last common ancestor say about it.
-/

namespace Truthcoin.Lineage

open Truthcoin.Fallible

variable {H E : Type}

namespace Index

section

variable (I : Index H)

/-- The `n`-fold parent of a block. -/
def nthParent : Nat → H → Option H
  | 0, h => some h
  | n + 1, h => (I.parent h).join.bind (nthParent n)

/-- The first block is on the parent chain of the second one. -/
def OnChain (a h : H) : Prop :=
  ∃ n, I.nthParent n h = some a

/-- A block without a parent on the parent chain of `h`. -/
def Genesis (g h : H) : Prop :=
  I.OnChain g h ∧ I.parent g = some none

/-- A highest one of the blocks that are on both parent chains. -/
def HighestCommon (block0 block1 c : H) : Prop :=
  I.OnChain c block0 ∧ I.OnChain c block1 ∧
    ∀ (a : H) (n m : Nat), I.OnChain a block0 → I.OnChain a block1 →
      I.height a = some n → I.height c = some m → n ≤ m

/-- The blocks from a block down to just above another one, newest first, or down to the first
block. -/
inductive Segment : Option H → Option H → List H → Prop
  | stop {stop : Option H} : Segment stop stop []
  | block {h : H} {q stop : Option H} {l : List H} (hparent : I.parent h = some q)
      (hrest : Segment q stop l) : Segment (some h) stop (h :: l)

variable [DecidableEq H] (faults : Faults H E)

/-- The search of `commonDepth` as a loop: the interval shrinks in every round. -/
def searchDepth (block0 block1 : H) (loDepth hiDepth : Nat) : Except E Nat :=
  if _hlt : loDepth < hiDepth then do
    let midAncestor0 ← I.nthAncestor faults block0 ((loDepth + hiDepth) / 2)
    let midAncestor1 ← I.nthAncestor faults block1 ((loDepth + hiDepth) / 2)
    if midAncestor0 = midAncestor1 then
      searchDepth block0 block1 loDepth ((loDepth + hiDepth) / 2)
    else searchDepth block0 block1 ((loDepth + hiDepth) / 2 + 1) hiDepth
  else .ok hiDepth
  termination_by hiDepth - loDepth

/-- The last common ancestor of two blocks, or none if their oldest ancestors differ. -/
def findCommonAncestor (block0 block1 : H) : Except E (Option H) := do
  let (block0, block1, height) ← I.equalize faults block0 block1
  if block0 = block1 then .ok (some block0)
  else do
    let oldestAncestor0 ← I.nthAncestor faults block0 height
    let oldestAncestor1 ← I.nthAncestor faults block1 height
    if oldestAncestor0 ≠ oldestAncestor1 then .ok none
    else do
      let depth ← I.commonDepth faults block0 block1 height 1 height
      let ancestor ← I.nthAncestor faults block0 depth
      .ok (some ancestor)

end

section

variable {I : Index H} {a c g h : H} {n k : Nat} (hI : I.Rooted)
include hI

/-- The `k`-fold parent stands at place `k` of the ancestors. -/
theorem nthParent_eq (hh : I.height h = some n) : I.nthParent k h = (I.ancestors h)[k]? := by
  induction k generalizing h n with
  | zero => rw [nthParent, getElem?_ancestors_zero hI hh]
  | succ k ih =>
      obtain ⟨q, hq⟩ := hI.stored hh
      rw [nthParent, hq, Option.join_some]
      cases q with
      | none =>
          rw [ancestors_first hq]
          rfl
      | some p =>
          obtain ⟨m, hp, -⟩ := hI.child hq
          rw [ancestors_child hI hq, List.getElem?_cons_succ]
          exact ih hp

theorem onChain_iff (hh : I.height h = some n) : I.OnChain a h ↔ a ∈ I.ancestors h := by
  rw [List.mem_iff_getElem?]
  constructor
  · rintro ⟨k, hk⟩
    exact ⟨k, (nthParent_eq hI hh).symm.trans hk⟩
  · rintro ⟨k, hk⟩
    exact ⟨k, (nthParent_eq hI hh).trans hk⟩

theorem exists_genesis (hh : I.height h = some n) : ∃ g, I.Genesis g h := by
  have hlength := length_ancestors hI hh
  obtain ⟨g, hg⟩ : ∃ g, (I.ancestors h)[n]? = some g := ⟨_, List.getElem?_eq_getElem (by omega)⟩
  obtain ⟨-, hheight⟩ := height_of_place hI hh hg
  rw [Nat.sub_self] at hheight
  refine ⟨g, (onChain_iff hI hh).mpr (List.mem_of_getElem? hg), ?_⟩
  obtain ⟨q, hq⟩ := hI.stored hheight
  cases q with
  | none => exact hq
  | some p =>
      obtain ⟨m, -, hm⟩ := hI.child hq
      rw [hheight] at hm
      cases hm

theorem genesis_iff (hh : I.height h = some n) :
    I.Genesis g h ↔ (I.ancestors h)[n]? = some g := by
  obtain ⟨g', hg', hfirst'⟩ := exists_genesis hI hh
  rw [onChain_iff hI hh, mem_ancestors_iff hI hh (hI.first hfirst')] at hg'
  constructor
  · rintro ⟨hg, hfirst⟩
    rw [onChain_iff hI hh, mem_ancestors_iff hI hh (hI.first hfirst)] at hg
    exact hg.2
  · intro hg
    obtain rfl := Option.some.inj (hg.symm.trans hg'.2)
    exact ⟨(onChain_iff hI hh).mpr (List.mem_of_getElem? hg), hfirst'⟩

theorem genesis_of_mem (hh : I.height h = some n) (ha : a ∈ I.ancestors h)
    (hg : I.Genesis g a) : I.Genesis g h := by
  obtain ⟨m, -, hm⟩ := height_of_mem hI hh ha
  exact ⟨(onChain_iff hI hh).mpr
    (mem_ancestors_trans hI hh ha ((onChain_iff hI hm).mp hg.1)), hg.2⟩

variable (faults : Faults H E)

theorem nthAncestor_spec (hh : I.height h = some n) (hrows : ∀ a ∈ I.ancestors h, I.RowExact a)
    (hk : k ≤ n) : ∃ a, I.nthParent k h = some a ∧ I.nthAncestor faults h k = .ok a := by
  obtain ⟨a, ha, hplace⟩ := nthAncestor_eq faults hI hh hrows hk
  exact ⟨a, (nthParent_eq hI hh).trans hplace, ha⟩

omit hI in
theorem nthAncestor_of_lt (hh : I.height h = some n) (hk : n < k) :
    I.nthAncestor faults h k = .error (faults.noAncestor h k) := by
  obtain ⟨k, rfl⟩ : ∃ l, k = l + 1 := ⟨k - 1, by omega⟩
  have hnot : ¬ k + 1 ≤ n := by omega
  rw [nthAncestor, nthAncestorFrom, getHeight_eq hh, ok_bind, ensure, if_neg hnot]
  rfl

theorem isDescendant_spec [DecidableEq H] {m : Nat} (ha : I.height a = some m)
    (hh : I.height h = some n) (hrows : ∀ a ∈ I.ancestors h, I.RowExact a) :
    ∃ r, I.isDescendant faults a h = .ok r ∧ (r = true ↔ I.OnChain a h) := by
  refine ⟨_, isDescendant_eq hI ha hh hrows, ?_⟩
  rw [decide_eq_true_iff, onChain_iff hI hh]

end

section

variable {I : Index H} {faults : Faults H E} {block0 block1 c : H} {n m : Nat}

/-- The rounds that `commonDepth` may take suffice for the loop to end by itself. -/
theorem commonDepth_eq_searchDepth [DecidableEq H] {rounds lo hi : Nat}
    (hrounds : hi ≤ lo + rounds) :
    I.commonDepth faults block0 block1 rounds lo hi =
      I.searchDepth faults block0 block1 lo hi := by
  induction rounds generalizing lo hi with
  | zero =>
      have hnot : ¬ lo < hi := by omega
      rw [commonDepth, searchDepth, dif_neg hnot]
  | succ rounds ih =>
      rw [commonDepth, searchDepth]
      by_cases hlt : lo < hi
      · have hlower : (lo + hi) / 2 ≤ lo + rounds := by omega
        have hupper : hi ≤ (lo + hi) / 2 + 1 + rounds := by omega
        simp only [if_pos hlt, dif_pos hlt, ih hlower, ih hupper]
      · rw [if_neg hlt, dif_neg hlt]

variable (hI : I.Rooted)
include hI

theorem highestCommon_of_lastCommon (h0 : I.height block0 = some n)
    (h1 : I.height block1 = some m) (hc : LastCommon I block0 block1 c) :
    I.HighestCommon block0 block1 c := by
  refine ⟨(onChain_iff hI h0).mpr hc.1, (onChain_iff hI h1).mpr hc.2.1, ?_⟩
  intro a k l ha0 ha1 hak hcl
  have hmem := hc.2.2 a ((onChain_iff hI h0).mp ha0) ((onChain_iff hI h1).mp ha1)
  exact ((mem_ancestors_iff hI hcl hak).mp hmem).1

theorem highestCommon_unique {d : H} (h0 : I.height block0 = some n)
    (hc : I.HighestCommon block0 block1 c) (hd : I.HighestCommon block0 block1 d) : c = d := by
  obtain ⟨k, -, hck⟩ := height_of_mem hI h0 ((onChain_iff hI h0).mp hc.1)
  obtain ⟨l, -, hdl⟩ := height_of_mem hI h0 ((onChain_iff hI h0).mp hd.1)
  have hlk := hc.2.2 d l k hd.1 hd.2.1 hdl hck
  have hkl := hd.2.2 c k l hc.1 hc.2.1 hck hdl
  obtain rfl : k = l := by omega
  have hplace := ((mem_ancestors_iff hI h0 hck).mp ((onChain_iff hI h0).mp hc.1)).2
  have hplace' := ((mem_ancestors_iff hI h0 hdl).mp ((onChain_iff hI h0).mp hd.1)).2
  exact Option.some.inj (hplace.symm.trans hplace')

theorem genesis_of_common {a g0 g1 : H} (h0 : I.height block0 = some n)
    (h1 : I.height block1 = some m) (ha0 : a ∈ I.ancestors block0)
    (ha1 : a ∈ I.ancestors block1) (hg0 : I.Genesis g0 block0) (hg1 : I.Genesis g1 block1) :
    g0 = g1 := by
  obtain ⟨k, -, hk⟩ := height_of_mem hI h0 ha0
  obtain ⟨g, hg⟩ := exists_genesis hI hk
  have hsame0 := (genesis_iff hI h0).mp (genesis_of_mem hI h0 ha0 hg)
  have hsame1 := (genesis_iff hI h1).mp (genesis_of_mem hI h1 ha1 hg)
  rw [(genesis_iff hI h0).mp hg0, Option.some.injEq] at hsame0
  rw [(genesis_iff hI h1).mp hg1, Option.some.injEq] at hsame1
  rw [hsame0, hsame1]

variable (faults)

theorem lastCommonAncestor_spec [DecidableEq H] {g : H} (h0 : I.height block0 = some n)
    (h1 : I.height block1 = some m) (hrows0 : ∀ a ∈ I.ancestors block0, I.RowExact a)
    (hrows1 : ∀ a ∈ I.ancestors block1, I.RowExact a) (hg0 : I.Genesis g block0)
    (hg1 : I.Genesis g block1) :
    ∃ c, I.lastCommonAncestor faults block0 block1 = .ok c ∧ LastCommon I block0 block1 c := by
  obtain ⟨c, hc, -, hlast | ⟨-, hnone⟩⟩ := lastCommonAncestor_eq faults hI h0 h1 hrows0 hrows1
  · exact ⟨c, hc, hlast⟩
  · exact absurd ((onChain_iff hI h1).mp hg1.1) (hnone g ((onChain_iff hI h0).mp hg0.1))

/-- The search with the check finds the last common ancestor, or that there is none. -/
theorem findCommonAncestor_eq [DecidableEq H] (h0 : I.height block0 = some n)
    (h1 : I.height block1 = some m)
    (hrows0 : ∀ a ∈ I.ancestors block0, I.RowExact a)
    (hrows1 : ∀ a ∈ I.ancestors block1, I.RowExact a) :
    (∃ c, I.findCommonAncestor faults block0 block1 = .ok (some c) ∧
        LastCommon I block0 block1 c) ∨
      I.findCommonAncestor faults block0 block1 = .ok none ∧
        ∃ g0 g1, I.Genesis g0 block0 ∧ I.Genesis g1 block1 ∧ g0 ≠ g1 := by
  obtain ⟨c0, c1, hequal, hc0, hc1, hheight0, hheight1⟩ :=
    equalize_eq faults hI h0 h1 hrows0 hrows1
  have hsub0 (a : H) (ha : a ∈ I.ancestors c0) := hrows0 a (mem_ancestors_trans hI h0 hc0 ha)
  have hsub1 (a : H) (ha : a ∈ I.ancestors c1) := hrows1 a (mem_ancestors_trans hI h1 hc1 ha)
  obtain ⟨g0, hg0, hplace0⟩ := nthAncestor_eq faults hI hheight0 hsub0 le_rfl
  obtain ⟨g1, hg1, hplace1⟩ := nthAncestor_eq faults hI hheight1 hsub1 le_rfl
  have hgenesis0 := genesis_of_mem hI h0 hc0 ((genesis_iff hI hheight0).mpr hplace0)
  have hgenesis1 := genesis_of_mem hI h1 hc1 ((genesis_iff hI hheight1).mpr hplace1)
  by_cases hsame : g0 = g1
  · subst hsame
    left
    obtain ⟨c, hc, hlast⟩ :=
      lastCommonAncestor_spec faults hI h0 h1 hrows0 hrows1 hgenesis0 hgenesis1
    refine ⟨c, ?_, hlast⟩
    rw [lastCommonAncestor, hequal, ok_bind] at hc
    rw [findCommonAncestor, hequal, ok_bind]
    by_cases heq : c0 = c1
    · simp only [if_pos heq, Except.ok.injEq] at hc ⊢
      rw [hc]
    · simp only [if_neg heq, hg0, hg1, ok_bind, ne_eq, not_true_eq_false, if_false] at hc ⊢
      obtain ⟨depth, hdepth, hc⟩ := bind_eq_ok_iff.mp hc
      rw [hdepth, ok_bind, hc, ok_bind]
  · right
    refine ⟨?_, g0, g1, hgenesis0, hgenesis1, hsame⟩
    have hne : c0 ≠ c1 := by
      rintro rfl
      exact hsame (Option.some.inj (hplace0.symm.trans hplace1))
    rw [findCommonAncestor, hequal, ok_bind]
    simp only [if_neg hne, hg0, hg1, ok_bind]
    rw [if_pos hsame]

end

section

variable {I : Index H} {h c a : H} {q stop stop' : Option H} {l l' : List H} {n m : Nat}

theorem Segment.eq_nil (hseg : I.Segment none stop l) : stop = none ∧ l = [] := by
  cases hseg with
  | stop => exact ⟨rfl, rfl⟩

theorem Segment.eq_of_length (hseg : I.Segment q stop l) (hseg' : I.Segment q stop' l')
    (hlength : l.length = l'.length) : l = l' := by
  induction hseg generalizing l' with
  | stop => exact (List.eq_nil_of_length_eq_zero hlength.symm).symm
  | block hparent _ ih =>
      cases hseg' with
      | stop => cases hlength
      | block hparent' hrest' =>
          rw [hparent, Option.some.injEq] at hparent'
          subst hparent'
          rw [ih hrest' (by simpa using hlength)]

variable (hI : I.Rooted)
include hI

theorem Segment.mem_ancestors (hseg : I.Segment (some h) stop l) (ha : a ∈ l) :
    a ∈ I.ancestors h := by
  generalize hq : some h = q at hseg
  induction hseg generalizing h with
  | stop => cases ha
  | @block h' q stop l hparent hrest ih =>
      obtain rfl := Option.some.inj hq
      obtain ⟨n, hn⟩ := height_of_parent hI hparent
      rcases List.mem_cons.mp ha with rfl | ha
      · exact mem_ancestors_self hI hn
      · cases q with
        | none =>
            rw [hrest.eq_nil.2] at ha
            cases ha
        | some p =>
            rw [ancestors_child hI hparent]
            exact List.mem_cons_of_mem _ (ih ha rfl)

theorem Segment.nodup (hseg : I.Segment q stop l) : l.Nodup := by
  induction hseg with
  | stop => exact List.nodup_nil
  | @block h q stop l hparent hrest ih =>
      refine List.nodup_cons.mpr ⟨fun hmem => ?_, ih⟩
      cases q with
      | none =>
          rw [hrest.eq_nil.2] at hmem
          cases hmem
      | some p =>
          obtain ⟨n, hp, hh⟩ := hI.child hparent
          obtain ⟨k, hle, hk⟩ := height_of_mem hI hp (hrest.mem_ancestors hI hmem)
          rw [hh, Option.some.injEq] at hk
          omega

theorem Segment.heights (hseg : I.Segment (some h) (some c) l) (hh : I.height h = some n)
    (hc : I.height c = some m) :
    m + l.length = n ∧ ∀ a ∈ l, ∃ k, I.height a = some k ∧ m < k := by
  generalize hq : some h = q at hseg
  generalize hstop : some c = stop at hseg
  induction hseg generalizing h n with
  | stop =>
      obtain rfl := Option.some.inj (hq.trans hstop.symm)
      rw [hh, Option.some.injEq] at hc
      exact ⟨by simpa using hc.symm, fun a ha => by cases ha⟩
  | @block h' q stop l hparent hrest ih =>
      obtain rfl := Option.some.inj hq
      subst hstop
      cases q with
      | none => cases hrest.eq_nil.1
      | some p =>
          obtain ⟨k, hp, hk⟩ := hI.child hparent
          rw [hh, Option.some.injEq] at hk
          obtain ⟨hlength, habove⟩ := ih hp rfl rfl
          refine ⟨by rw [List.length_cons]; omega, fun a ha => ?_⟩
          rcases List.mem_cons.mp ha with rfl | ha
          · exact ⟨n, hh, by omega⟩
          · exact habove a ha

theorem Segment.eq_nil_of_self (hh : I.height h = some n)
    (hseg : I.Segment (some h) (some h) l) : l = [] := by
  have hlength := (hseg.heights hI hh hh).1
  exact List.eq_nil_of_length_eq_zero (by omega)

theorem segment_ancestors (hh : I.height h = some n) :
    I.Segment (some h) none (I.ancestors h) := by
  refine rooted_induction hI (P := fun h => I.Segment (some h) none (I.ancestors h)) ?_ ?_ hh
  · intro h hfirst
    rw [ancestors_first hfirst]
    exact .block hfirst .stop
  · intro h p hparent ih
    rw [ancestors_child hI hparent]
    exact .block hparent ih

theorem exists_segment (hh : I.height h = some n) (hc : c ∈ I.ancestors h) :
    ∃ l, I.Segment (some h) (some c) l := by
  revert hc
  refine rooted_induction hI
    (P := fun h => c ∈ I.ancestors h → ∃ l, I.Segment (some h) (some c) l) ?_ ?_ hh
  · intro h hfirst hc
    rw [ancestors_first hfirst, List.mem_singleton] at hc
    exact ⟨[], hc ▸ .stop⟩
  · intro h p hparent ih hc
    rw [ancestors_child hI hparent] at hc
    rcases List.mem_cons.mp hc with rfl | hc
    · exact ⟨[], .stop⟩
    · obtain ⟨l, hl⟩ := ih hc
      exact ⟨h :: l, .block hparent hl⟩

end

end Index

end Truthcoin.Lineage
