import Mathlib

/-!
# Merkle trees over lists

Two ways to fold a list into one value: level by level, where a level of odd
length repeats its last node, and as a complete binary tree in heap order. What the
value of the root says about the list.
-/

namespace Truthcoin.MerkleTrees

section Levels

variable {α : Type} (pair : α → α → α)

/-- Pair up the nodes of a level; a single last node is paired with itself. -/
def nextLevel : List α → List α
  | [] => []
  | [a] => [pair a a]
  | a :: b :: rest => pair a b :: nextLevel rest

theorem length_nextLevel (l : List α) : (nextLevel pair l).length = (l.length + 1) / 2 := by
  fun_induction nextLevel pair l with
  | case1 => simp
  | case2 a => simp
  | case3 a b rest ih =>
      simp only [List.length_cons, ih]
      omega

theorem length_nextLevel_lt {a b : α} {rest : List α} :
    (nextLevel pair (a :: b :: rest)).length < (a :: b :: rest).length := by
  rw [length_nextLevel]
  simp only [List.length_cons]
  omega

/-- The single node of the last level. -/
def treeRoot : List α → Option α
  | [] => none
  | [a] => some a
  | a :: b :: rest => treeRoot (nextLevel pair (a :: b :: rest))
  termination_by l => l.length
  decreasing_by exact length_nextLevel_lt pair

/-- The number of levels above the leaves. -/
def depth : List α → Nat
  | [] => 0
  | [_] => 0
  | a :: b :: rest => depth (nextLevel pair (a :: b :: rest)) + 1
  termination_by l => l.length
  decreasing_by exact length_nextLevel_lt pair

theorem exists_treeRoot {l : List α} (hl : l ≠ []) : ∃ r, treeRoot pair l = some r := by
  fun_induction treeRoot pair l with
  | case1 => exact absurd rfl hl
  | case2 a => exact ⟨a, rfl⟩
  | case3 a b rest ih => exact ih (by simp [nextLevel])

/-- Going down the left children of a node. -/
inductive Leftmost : Nat → α → α → Prop
  | here (a : α) : Leftmost 0 a a
  | left {k : Nat} {x a : α} (y : α) : Leftmost k x a → Leftmost (k + 1) (pair x y) a

variable {pair}

theorem Leftmost.descend {k : Nat} {r a b : α} (h : Leftmost pair k r (pair a b)) :
    Leftmost pair (k + 1) r a := by
  generalize hnode : pair a b = node at h
  induction h with
  | here =>
      subst hnode
      exact .left b (.here a)
  | left y _ ih => exact .left y (ih hnode)

theorem leftmost_treeRoot {l : List α} {a r : α} (hhead : l.head? = some a)
    (hroot : treeRoot pair l = some r) : Leftmost pair (depth pair l) r a := by
  fun_induction treeRoot pair l generalizing a with
  | case1 => simp at hhead
  | case2 b =>
      obtain rfl := Option.some.inj hhead
      obtain rfl := Option.some.inj hroot
      rw [depth]
      exact .here _
  | case3 b c rest ih =>
      obtain rfl := Option.some.inj hhead
      rw [depth]
      exact (ih rfl hroot).descend

section

variable (hpair : ∀ {a b a' b' : α}, pair a b = pair a' b' → a = a' ∧ b = b')

include hpair

theorem Leftmost.unique {k k' : Nat} {r a a' : α} (h : Leftmost pair k r a)
    (h' : Leftmost pair k' r a') (ha : ∀ x y, a ≠ pair x y) (ha' : ∀ x y, a' ≠ pair x y) :
    k = k' ∧ a = a' := by
  induction h generalizing k' with
  | here a =>
      cases h' with
      | here => exact ⟨rfl, rfl⟩
      | left y _ => exact absurd rfl (ha _ _)
  | left y hx ih =>
      generalize hnode : pair _ y = node at h'
      cases h' with
      | here => exact absurd hnode.symm (ha' _ _)
      | left y' hx' =>
          obtain ⟨rfl, -⟩ := hpair hnode
          obtain ⟨rfl, rfl⟩ := ih hx' ha
          exact ⟨rfl, rfl⟩

theorem nextLevel_injective {l l' : List α} (hlen : l.length = l'.length)
    (h : nextLevel pair l = nextLevel pair l') : l = l' := by
  fun_induction nextLevel pair l generalizing l' with
  | case1 => exact (List.eq_nil_of_length_eq_zero hlen.symm).symm
  | case2 a =>
      obtain ⟨a', rfl⟩ := List.length_eq_one_iff.mp hlen.symm
      rw [nextLevel, List.cons.injEq] at h
      rw [(hpair h.1).1]
  | case3 a b rest ih =>
      rcases l' with _ | ⟨a', _ | ⟨b', rest'⟩⟩
      · simp at hlen
      · simp at hlen
      · rw [nextLevel, List.cons.injEq] at h
        obtain ⟨rfl, rfl⟩ := hpair h.1
        rw [ih (by simpa using hlen) h.2]

theorem eq_of_treeRoot_of_length {l l' : List α} (hlen : l.length = l'.length)
    (h : treeRoot pair l = treeRoot pair l') : l = l' := by
  fun_induction treeRoot pair l generalizing l' with
  | case1 => exact (List.eq_nil_of_length_eq_zero hlen.symm).symm
  | case2 a =>
      obtain ⟨a', rfl⟩ := List.length_eq_one_iff.mp hlen.symm
      rw [treeRoot, Option.some.injEq] at h
      rw [h]
  | case3 a b rest ih =>
      rcases l' with _ | ⟨a', _ | ⟨b', rest'⟩⟩
      · simp at hlen
      · simp at hlen
      · refine nextLevel_injective hpair hlen (ih ?_ ?_)
        · rw [length_nextLevel, length_nextLevel, hlen]
        · rw [h, treeRoot]

theorem mem_nextLevel {l : List α} {x y : α} (h : pair x y ∈ nextLevel pair l) : x ∈ l := by
  fun_induction nextLevel pair l with
  | case1 => cases h
  | case2 a =>
      rw [List.mem_singleton] at h
      rw [(hpair h).1]
      simp
  | case3 a b rest ih =>
      rcases List.mem_cons.mp h with h | h
      · rw [(hpair h).1]
        simp
      · simp [ih h]

theorem nodup_nextLevel {l : List α} (h : l.Nodup) : (nextLevel pair l).Nodup := by
  fun_induction nextLevel pair l with
  | case1 => exact List.nodup_nil
  | case2 a => exact List.nodup_singleton _
  | case3 a b rest ih =>
      simp only [List.nodup_cons, List.mem_cons, not_or] at h
      refine List.nodup_cons.mpr ⟨fun hmem => ?_, ih h.2.2⟩
      exact h.1.2 (mem_nextLevel hpair hmem)

/-- A level without repetitions can be read off the next one: a repeated last node is
one that was single. -/
theorem nextLevel_injective_of_nodup {l l' : List α} (hl : l.Nodup) (hl' : l'.Nodup)
    (h : nextLevel pair l = nextLevel pair l') : l = l' := by
  fun_induction nextLevel pair l generalizing l' with
  | case1 =>
      rcases l' with _ | ⟨a', _ | ⟨b', rest'⟩⟩
      · rfl
      · simp [nextLevel] at h
      · simp [nextLevel] at h
  | case2 a =>
      rcases l' with _ | ⟨a', _ | ⟨b', rest'⟩⟩
      · simp [nextLevel] at h
      · rw [nextLevel, List.cons.injEq] at h
        rw [(hpair h.1).1]
      · rw [nextLevel, List.cons.injEq] at h
        obtain ⟨rfl, rfl⟩ := hpair h.1
        simp at hl'
  | case3 a b rest ih =>
      rcases l' with _ | ⟨a', _ | ⟨b', rest'⟩⟩
      · simp [nextLevel] at h
      · rw [nextLevel, List.cons.injEq] at h
        obtain ⟨rfl, rfl⟩ := hpair h.1
        simp at hl
      · rw [nextLevel, List.cons.injEq] at h
        obtain ⟨rfl, rfl⟩ := hpair h.1
        simp only [List.nodup_cons] at hl hl'
        rw [ih hl.2.2 hl'.2.2 h.2]

theorem eq_of_treeRoot_of_nodup {l l' : List α} (hl : l.Nodup) (hl' : l'.Nodup)
    (hdepth : depth pair l = depth pair l') (hne : l ≠ []) (hne' : l' ≠ [])
    (h : treeRoot pair l = treeRoot pair l') : l = l' := by
  fun_induction treeRoot pair l generalizing l' with
  | case1 => exact absurd rfl hne
  | case2 a =>
      rcases l' with _ | ⟨a', _ | ⟨b', rest'⟩⟩
      · exact absurd rfl hne'
      · rw [treeRoot, Option.some.injEq] at h
        rw [h]
      · simp [depth] at hdepth
  | case3 a b rest ih =>
      rcases l' with _ | ⟨a', _ | ⟨b', rest'⟩⟩
      · exact absurd rfl hne'
      · simp [depth] at hdepth
      · refine nextLevel_injective_of_nodup hpair hl hl' (ih ?_ ?_ ?_ ?_ ?_ ?_)
        · exact nodup_nextLevel hpair hl
        · exact nodup_nextLevel hpair hl'
        · rw [depth, depth] at hdepth
          exact Nat.succ.inj hdepth
        · simp [nextLevel]
        · simp [nextLevel]
        · rw [h, treeRoot]

theorem head_and_depth_of_treeRoot {l l' : List α} {a a' : α} (hhead : l.head? = some a)
    (hhead' : l'.head? = some a') (ha : ∀ x y, a ≠ pair x y) (ha' : ∀ x y, a' ≠ pair x y)
    (h : treeRoot pair l = treeRoot pair l') : a = a' ∧ depth pair l = depth pair l' := by
  obtain ⟨r, hr⟩ := exists_treeRoot pair (l := l) (by rintro rfl; simp at hhead)
  have hleft := leftmost_treeRoot hhead hr
  have hleft' := leftmost_treeRoot hhead' (h ▸ hr)
  obtain ⟨hdepth, hfirst⟩ := hleft.unique hpair hleft' ha ha'
  exact ⟨hfirst, hdepth⟩

end

end Levels

section Heap

variable {β γ : Type} (merge : β → β → β)

/-- The node at a place of the complete binary tree over `n` leaves: the leaves take the
places from `n - 1` on, and the children of place `i` are at `2 * i + 1` and `2 * i + 2`. -/
def heapNode (leaf : Nat → β) (n i : Nat) : β :=
  if n ≤ i + 1 then leaf (i + 1 - n)
  else merge (heapNode leaf n (2 * i + 1)) (heapNode leaf n (2 * i + 2))
  termination_by n - i

variable {merge}

theorem heapNode_leaf {leaf : Nat → β} {n i : Nat} (h : n ≤ i + 1) :
    heapNode merge leaf n i = leaf (i + 1 - n) := by
  rw [heapNode, if_pos h]

theorem heapNode_branch {leaf : Nat → β} {n i : Nat} (h : i + 1 < n) :
    heapNode merge leaf n i =
      merge (heapNode merge leaf n (2 * i + 1)) (heapNode merge leaf n (2 * i + 2)) := by
  rw [heapNode, if_neg (by omega)]

/-- The sum over places `j` to `2 * j` does not depend on `j`: a branch gives way to its
two children. -/
theorem sum_heapNode_window {f : β → Nat} (hmerge : ∀ a b, f (merge a b) = f a + f b)
    {leaf : Nat → β} {n : Nat} {j : Nat} (hj : j < n) :
    ∑ i ∈ Finset.Ico j (2 * j + 1), f (heapNode merge leaf n i) =
      f (heapNode merge leaf n 0) := by
  induction j with
  | zero => simp
  | succ j ih =>
      have hbranch : f (heapNode merge leaf n j) =
          f (heapNode merge leaf n (2 * j + 1)) + f (heapNode merge leaf n (2 * j + 2)) := by
        rw [heapNode_branch hj, hmerge]
      have hwindow : 2 * (j + 1) + 1 = 2 * j + 1 + 1 + 1 := by omega
      rw [← ih (by omega),
        Finset.sum_eq_sum_Ico_succ_bot (a := j) (b := 2 * j + 1) (by omega), hbranch,
        hwindow, Finset.sum_Ico_succ_top (by omega), Finset.sum_Ico_succ_top (by omega)]
      omega

theorem sum_heapNode {f : β → Nat} (hmerge : ∀ a b, f (merge a b) = f a + f b)
    {leaf : Nat → β} {n : Nat} (hn : 0 < n) :
    f (heapNode merge leaf n 0) = ∑ k ∈ Finset.range n, f (leaf k) := by
  rw [← sum_heapNode_window hmerge (j := n - 1) (by omega), Finset.sum_Ico_eq_sum_range]
  have hlen : 2 * (n - 1) + 1 - (n - 1) = n := by omega
  rw [hlen]
  refine Finset.sum_congr rfl ?_
  intro k _
  have hplace : n - 1 + k + 1 - n = k := by omega
  rw [heapNode_leaf (by omega), hplace]

section

variable {leaf leaf' : Nat → β} {key : β → γ} {n n' : Nat}
  (hmerge : ∀ {a b a' b' : β}, key (merge a b) = key (merge a' b') →
    key a = key a' ∧ key b = key b')

include hmerge

theorem heapNode_eq_of_root
    (hbranch : ∀ i, i + 1 < n →
      key (heapNode merge leaf n i) = key (heapNode merge leaf' n' i) → i + 1 < n')
    (h : key (heapNode merge leaf n 0) = key (heapNode merge leaf' n' 0)) (i : Nat)
    (hi : i < 2 * n - 1) :
    key (heapNode merge leaf n i) = key (heapNode merge leaf' n' i) := by
  induction i using Nat.strong_induction_on with
  | _ i ih =>
      rcases Nat.eq_zero_or_pos i with rfl | hpos
      · exact h
      · -- the parent is a branch of both trees
        have hparent := ih ((i - 1) / 2) (by omega) (by omega)
        have hother := hbranch ((i - 1) / 2) (by omega) hparent
        rw [heapNode_branch (n := n) (by omega), heapNode_branch (n := n') hother] at hparent
        obtain ⟨hleft, hright⟩ := hmerge hparent
        rcases Nat.mod_two_eq_zero_or_one i with heven | hodd
        · have hplace : 2 * ((i - 1) / 2) + 2 = i := by omega
          rwa [hplace] at hright
        · have hplace : 2 * ((i - 1) / 2) + 1 = i := by omega
          rwa [hplace] at hleft

theorem leaves_of_heapRoot_of_length
    (h : key (heapNode merge leaf n 0) = key (heapNode merge leaf' n 0)) :
    ∀ k < n, key (leaf k) = key (leaf' k) := by
  intro k hk
  have hplace := heapNode_eq_of_root hmerge (fun _ hi _ => hi) h (n - 1 + k) (by omega)
  rw [heapNode_leaf (by omega), heapNode_leaf (by omega)] at hplace
  have hindex : n - 1 + k + 1 - n = k := by omega
  rwa [hindex] at hplace

theorem length_of_heapRoot (hleaf : ∀ k a b, key (leaf k) ≠ key (merge a b))
    (hleaf' : ∀ k a b, key (leaf' k) ≠ key (merge a b)) (hn : 0 < n) (hn' : 0 < n')
    (h : key (heapNode merge leaf n 0) = key (heapNode merge leaf' n' 0)) : n = n' := by
  have hbranch : ∀ i, i + 1 < n →
      key (heapNode merge leaf n i) = key (heapNode merge leaf' n' i) → i + 1 < n' := by
    intro i hi heq
    by_contra hlt
    rw [heapNode_branch hi, heapNode_leaf (n := n') (by omega)] at heq
    exact hleaf' _ _ _ heq.symm
  have hbranch' : ∀ i, i + 1 < n' →
      key (heapNode merge leaf' n' i) = key (heapNode merge leaf n i) → i + 1 < n := by
    intro i hi heq
    by_contra hlt
    rw [heapNode_branch hi, heapNode_leaf (n := n) (by omega)] at heq
    exact hleaf _ _ _ heq.symm
  have hfirst : n' ≤ n := by
    by_contra hlt
    have hplace := heapNode_eq_of_root hmerge hbranch h (n - 1) (by omega)
    exact absurd (hbranch' (n - 1) (by omega) hplace.symm) (by omega)
  have hsecond : n ≤ n' := by
    by_contra hlt
    have hplace := heapNode_eq_of_root hmerge hbranch' h.symm (n' - 1) (by omega)
    exact absurd (hbranch (n' - 1) (by omega) hplace.symm) (by omega)
  exact Nat.le_antisymm hsecond hfirst

end

/-- The node at a place, when no merge below it fails. -/
def heapNodeChecked (merge : β → β → Option β) (leaf : Nat → β) (n i : Nat) : Option β :=
  if n ≤ i + 1 then some (leaf (i + 1 - n))
  else do
    let left ← heapNodeChecked merge leaf n (2 * i + 1)
    let right ← heapNodeChecked merge leaf n (2 * i + 2)
    merge left right
  termination_by n - i

/-- The root of the complete binary tree over a list of leaves. -/
def completeRoot (merge : β → β → Option β) (default : β) (leaves : List β) : Option β :=
  if leaves.isEmpty then some default
  else heapNodeChecked merge (fun k => leaves.getD k default) leaves.length 0

theorem heapNodeChecked_some {leaf : Nat → β} {n : Nat} (i : Nat) :
    heapNodeChecked (fun a b => some (merge a b)) leaf n i = some (heapNode merge leaf n i) := by
  induction hn : n - i using Nat.strong_induction_on generalizing i with
  | _ d ih =>
      subst hn
      rw [heapNodeChecked, heapNode]
      split
      · rfl
      · rw [ih (n - (2 * i + 1)) (by omega) (2 * i + 1) rfl,
          ih (n - (2 * i + 2)) (by omega) (2 * i + 2) rfl]
        rfl

end Heap

end Truthcoin.MerkleTrees
