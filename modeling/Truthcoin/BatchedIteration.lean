import Truthcoin.Arithmetic

/-!
# Iteration by batches

An iterator over a list that can only be fetched newest first, from the item at a start
height up to the newest one. It fetches a batch at a time into a buffer and hands out the
buffer from its end.
-/

namespace Truthcoin.BatchedIteration

open Truthcoin.Fallible Truthcoin.Arithmetic

variable {S E α : Type}

/-- `Yields next s items`: from the state `s` on the calls of `next` hand out `items`, and
after them nothing. -/
inductive Yields (next : S → Except E (Option α × S)) : S → List α → Prop
  | done {s s' : S} (h : next s = .ok (none, s')) : Yields next s []
  | item {s s' : S} {a : α} {items : List α} (h : next s = .ok (some a, s'))
      (hrest : Yields next s' items) : Yields next s (a :: items)

theorem yields_of_step {next : S → Except E (Option α × S)} {I : S → List α → Prop}
    (hstep : ∀ s items, I s items → ∃ s', next s = .ok (items.head?, s') ∧ I s' items.tail)
    {items : List α} {s : S} (hs : I s items) : Yields next s items := by
  induction items generalizing s with
  | nil =>
      obtain ⟨s', hnext, -⟩ := hstep s [] hs
      exact .done hnext
  | cons a items ih =>
      obtain ⟨s', hnext, hs'⟩ := hstep s (a :: items) hs
      exact .item hnext (ih hs')

def maxBatchSize : Nat := 32

/-- Addition of 32-bit heights. -/
def checkedAddHeight (a b : Nat) : Option Nat :=
  if a + b < 2 ^ 32 then some (a + b) else none

/-- The buffer holds items newer to older. -/
structure Inner (α : Type) where
  endHeight : Nat
  buffer : List α

/-- No start height indicates that the iterator is done. -/
structure Batches (α : Type) where
  batchStartHeight : Option Nat
  inner : Option (Inner α)

namespace Batches

def new (startHeight : Nat) : Batches α := ⟨some startHeight, none⟩

/-- The height of the newest item is looked up once. -/
def start (getEndHeight : Except E Nat) (it : Batches α) : Except E (Inner α) :=
  match it.inner with
  | some inner => .ok inner
  | none => do
      let endHeight ← getEndHeight
      .ok ⟨endHeight, []⟩

/-- The start of the batch after the one of the given size. -/
def nextStart (endHeight batchStartHeight batchSize : Nat) : Option Nat :=
  (checkedAddHeight batchStartHeight batchSize).filter fun height => height ≤ endHeight

/-- The next item. `fetch n k` fetches `k` items, newest first, beginning with the one that is
`n` before the newest. -/
def next (getEndHeight : Except E Nat) (fetch : Nat → Nat → Except E (List α))
    (it : Batches α) : Except E (Option α × Batches α) := do
  let inner ← it.start getEndHeight
  match inner.buffer.getLast? with
  | some item =>
      .ok (some item, ⟨it.batchStartHeight, some ⟨inner.endHeight, inner.buffer.dropLast⟩⟩)
  | none =>
      match it.batchStartHeight with
      | none => .ok (none, ⟨none, some inner⟩)
      | some batchStartHeight =>
          match checkedSub inner.endHeight batchStartHeight with
          | none => .ok (none, ⟨some batchStartHeight, some inner⟩)
          | some heightDiff => do
              let ancestorOffset := min heightDiff (maxBatchSize - 1)
              let batchSize := ancestorOffset + 1
              let items ← fetch (heightDiff - ancestorOffset) batchSize
              let buffer := inner.buffer ++ items
              .ok (buffer.getLast?,
                ⟨nextStart inner.endHeight batchStartHeight batchSize,
                  some ⟨inner.endHeight, buffer.dropLast⟩⟩)

variable {getEndHeight : Except E Nat} {fetch : Nat → Nat → Except E (List α)}
  {whole items buffer : List α} {endHeight startHeight : Nat}

/-- The items that are not fetched yet, oldest first. -/
def unfetched (whole : List α) (endHeight : Nat) (batchStartHeight : Option Nat) : List α :=
  (whole.take (batchStartHeight.elim 0 fun height => endHeight + 1 - height)).reverse

/-- Between two calls `items` remain of the list `whole`. -/
def Remaining (whole : List α) (endHeight : Nat) (it : Batches α) (items : List α) : Prop :=
  (∀ height, it.batchStartHeight = some height → endHeight + 1 - height ≤ whole.length) ∧
    ∃ buffer, (it.inner = some ⟨endHeight, buffer⟩ ∨ it.inner = none ∧ buffer = []) ∧
      items = buffer.reverse ++ unfetched whole endHeight it.batchStartHeight

theorem remaining_new (hstart : endHeight + 1 - startHeight ≤ whole.length) :
    Remaining whole endHeight (new startHeight)
      (whole.take (endHeight + 1 - startHeight)).reverse := by
  refine ⟨fun height h => ?_, [], .inr ⟨rfl, rfl⟩, rfl⟩
  obtain rfl := Option.some.inj h
  exact hstart

theorem unfetched_of_lt (hlt : endHeight < startHeight) :
    unfetched whole endHeight (some startHeight) = [] := by
  rw [unfetched, Option.elim_some, show endHeight + 1 - startHeight = 0 by omega, List.take_zero,
    List.reverse_nil]

theorem unfetched_nextStart {batchSize : Nat} (hend : endHeight < 2 ^ 32) :
    unfetched whole endHeight (nextStart endHeight startHeight batchSize) =
      (whole.take (endHeight + 1 - (startHeight + batchSize))).reverse := by
  rw [nextStart, checkedAddHeight]
  by_cases hsum : startHeight + batchSize < 2 ^ 32
  · rw [if_pos hsum, Option.filter_some]
    by_cases hle : startHeight + batchSize ≤ endHeight
    · rw [if_pos (by simpa using hle), unfetched, Option.elim_some]
    · rw [if_neg (by simpa using hle), unfetched, Option.elim_none,
        show endHeight + 1 - (startHeight + batchSize) = 0 by omega]
  · rw [if_neg hsum, Option.filter_none, unfetched, Option.elim_none,
      show endHeight + 1 - (startHeight + batchSize) = 0 by omega]

theorem nextStart_le {batchSize height : Nat}
    (h : nextStart endHeight startHeight batchSize = some height) :
    height = startHeight + batchSize := by
  rw [nextStart, Option.filter_eq_some_iff, checkedAddHeight] at h
  obtain ⟨h, -⟩ := h
  split at h
  · exact (Option.some.inj h).symm
  · cases h

/-- Every call hands out the first of the items that remain. -/
theorem next_remaining (hend : endHeight < 2 ^ 32) (hget : getEndHeight = .ok endHeight)
    (hfetch : ∀ n k, n < whole.length → fetch n k = .ok ((whole.drop n).take k))
    {it : Batches α} (h : Remaining whole endHeight it items) :
    ∃ it', it.next getEndHeight fetch = .ok (items.head?, it') ∧
      Remaining whole endHeight it' items.tail := by
  obtain ⟨hfits, buffer, hinner, rfl⟩ := h
  have hstart : it.start getEndHeight = .ok ⟨endHeight, buffer⟩ := by
    rw [start]
    rcases hinner with hinner | ⟨hinner, rfl⟩
    · rw [hinner]
    · rw [hinner, hget]
      rfl
  rw [next, hstart, ok_bind]
  rcases List.eq_nil_or_concat buffer with rfl | ⟨buffer, item, rfl⟩
  · cases hheight : it.batchStartHeight with
    | none => exact ⟨_, rfl, fun height h => (by cases h), [], .inl rfl, rfl⟩
    | some startHeight =>
        have hfit := hfits startHeight hheight
        by_cases hlt : endHeight < startHeight
        · have hsub : checkedSub endHeight startHeight = none := by
            rw [checkedSub, if_neg (by omega)]
          rw [unfetched_of_lt hlt]
          simp only [List.getLast?_nil, hsub]
          refine ⟨_, rfl, fun height h => ?_, [], .inl rfl, ?_⟩
          · obtain rfl := Option.some.inj h
            exact hfit
          · rw [unfetched_of_lt hlt]
            rfl
        · have hsub : checkedSub endHeight startHeight = some (endHeight - startHeight) :=
            checkedSub_eq_some_iff.mpr ⟨by omega, rfl⟩
          simp only [List.getLast?_nil, hsub, List.nil_append]
          generalize hoffset : min (endHeight - startHeight) (maxBatchSize - 1) = offset
          have hle : offset ≤ endHeight - startHeight := by omega
          have hbatch := hfetch (endHeight - startHeight - offset) (offset + 1) (by omega)
          -- what is unfetched is the batch with what is above it
          have hsplit : unfetched whole endHeight (some startHeight) =
              ((whole.drop (endHeight - startHeight - offset)).take (offset + 1)).reverse ++
                (whole.take (endHeight - startHeight - offset)).reverse := by
            rw [unfetched, Option.elim_some, ← List.reverse_append, ← List.take_add,
              show endHeight - startHeight - offset + (offset + 1) =
                endHeight + 1 - startHeight by omega]
          have hne : (whole.drop (endHeight - startHeight - offset)).take (offset + 1) ≠ [] := by
            rw [← List.length_pos_iff_ne_nil, List.length_take, List.length_drop]
            omega
          generalize (whole.drop (endHeight - startHeight - offset)).take (offset + 1) = batch
            at hbatch hsplit hne
          rw [hbatch, ok_bind, hsplit]
          refine ⟨⟨nextStart endHeight startHeight (offset + 1), some ⟨endHeight, batch.dropLast⟩⟩,
            ?_, fun height h => ?_, batch.dropLast, .inl rfl, ?_⟩
          · rw [List.reverse_nil, List.nil_append, List.head?_append, List.head?_reverse]
            rw [List.getLast?_eq_some_getLast hne]
            rfl
          · rw [nextStart_le h]
            omega
          · rw [List.reverse_nil, List.nil_append,
              List.tail_append_of_ne_nil (by simpa using hne), List.tail_reverse,
              unfetched_nextStart hend,
              show endHeight + 1 - (startHeight + (offset + 1)) =
                endHeight - startHeight - offset by omega]
  · rw [List.concat_eq_append, List.reverse_append, List.reverse_singleton]
    simp only [List.getLast?_append, List.getLast?_singleton, Option.some_or]
    refine ⟨_, rfl, hfits, buffer, .inl ?_, rfl⟩
    rw [List.dropLast_append_of_ne_nil (by simp)]
    simp

theorem yields_new (hend : endHeight < 2 ^ 32) (hget : getEndHeight = .ok endHeight)
    (hfetch : ∀ n k, n < whole.length → fetch n k = .ok ((whole.drop n).take k))
    (hstart : endHeight + 1 - startHeight ≤ whole.length) :
    Yields (next getEndHeight fetch) (new startHeight)
      (whole.take (endHeight + 1 - startHeight)).reverse :=
  yields_of_step (I := Remaining whole endHeight)
    (fun _ _ h => next_remaining hend hget hfetch h) (remaining_new hstart)

end Batches

end Truthcoin.BatchedIteration
