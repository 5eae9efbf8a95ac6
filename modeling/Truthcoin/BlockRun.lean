import Truthcoin.Disconnect

/-!
# Runs of a node

A node connects blocks and disconnects its tip; in between it connects and
disconnects two-way-peg data.
-/

namespace Truthcoin.BlockRun

open Truthcoin.Types Truthcoin.Fallible Truthcoin.Decisions Truthcoin.Blocks Truthcoin.Connect
open Truthcoin.Disconnect

variable {F : Type} [F64 F] [DecidableEq F]

/-- `Run L config lib ok okPeg chain s`: the node reaches `s` from the empty state with
the blocks of `chain` connected, newest first. `ok` and `okPeg` restrict the blocks and
the peg data that are connected in a state. -/
inductive Run (L : Library F) (config : DecisionConfig) (lib : WithdrawalBundle.BundleLib)
    (ok : State F → Block F → Prop) (okPeg : State F → TwoWayPegData → Prop) :
    List (Block F) → State F → Prop where
  | start : Run L config lib ok okPeg [] (State.empty F)
  | connect {chain : List (Block F)} {s s' : State F} {block : Block F} (archive : Archive)
      (hrun : Run L config lib ok okPeg chain s) (hok : ok s block)
      (h : applyBlock L config archive s block = .ok s') :
      Run L config lib ok okPeg (block :: chain) s'
  | disconnect {chain : List (Block F)} {s s' : State F} {block : Block F}
      (hrun : Run L config lib ok okPeg (block :: chain) s)
      (h : disconnectTip L s block.header block.body = .ok s') :
      Run L config lib ok okPeg chain s'
  | connectPeg {chain : List (Block F)} {s s' : State F} {data : TwoWayPegData}
      (hrun : Run L config lib ok okPeg chain s) (hok : okPeg s data)
      (h : s.connectTwoWayPegData lib data = .ok s') :
      Run L config lib ok okPeg chain s'
  | disconnectPeg {chain : List (Block F)} {s s' : State F} {data : TwoWayPegData}
      (hrun : Run L config lib ok okPeg chain s)
      (h : s.disconnectTwoWayPegData data = .ok s') :
      Run L config lib ok okPeg chain s'

/-- The states that a node reaches by connecting blocks, without a disconnection. -/
inductive Chain (L : Library F) (config : DecisionConfig) (lib : WithdrawalBundle.BundleLib)
    (ok : State F → Block F → Prop) (okPeg : State F → TwoWayPegData → Prop) :
    List (Block F) → State F → Prop where
  | start : Chain L config lib ok okPeg [] (State.empty F)
  | connect {chain : List (Block F)} {s s' : State F} {block : Block F} (archive : Archive)
      (hchain : Chain L config lib ok okPeg chain s) (hok : ok s block)
      (h : applyBlock L config archive s block = .ok s') :
      Chain L config lib ok okPeg (block :: chain) s'
  | connectPeg {chain : List (Block F)} {s s' : State F} {data : TwoWayPegData}
      (hchain : Chain L config lib ok okPeg chain s) (hok : okPeg s data)
      (h : s.connectTwoWayPegData lib data = .ok s') :
      Chain L config lib ok okPeg chain s'

/-- The node gets from one state to another by connecting blocks and peg data. -/
inductive Extends (L : Library F) (config : DecisionConfig) (lib : WithdrawalBundle.BundleLib)
    (s : State F) : State F → Prop where
  | refl : Extends L config lib s s
  | connect {s₁ s₂ : State F} {block : Block F} (archive : Archive)
      (hextends : Extends L config lib s s₁)
      (h : applyBlock L config archive s₁ block = .ok s₂) : Extends L config lib s s₂
  | connectPeg {s₁ s₂ : State F} {data : TwoWayPegData} (hextends : Extends L config lib s s₁)
      (h : s₁.connectTwoWayPegData lib data = .ok s₂) : Extends L config lib s s₂

theorem Chain.run {L : Library F} {config : DecisionConfig} {lib : WithdrawalBundle.BundleLib}
    {ok : State F → Block F → Prop} {okPeg : State F → TwoWayPegData → Prop}
    {chain : List (Block F)} {s : State F} (h : Chain L config lib ok okPeg chain s) :
    Run L config lib ok okPeg chain s := by
  induction h with
  | start => exact .start
  | connect archive _ hok h ih => exact ih.connect archive hok h
  | connectPeg _ hok h ih => exact ih.connectPeg hok h

section

variable {L : Library F} {config : DecisionConfig} {lib : WithdrawalBundle.BundleLib}
  {ok : State F → Block F → Prop} {okPeg : State F → TwoWayPegData → Prop}
  {chain : List (Block F)} {s : State F}

theorem height_of_applyBlock {archive : Archive} {s' : State F} {block : Block F}
    (h : applyBlock L config archive s block = .ok s') : ∃ height, s'.height = some height := by
  simp only [applyBlock, connectPrevalidated, bind_eq_ok_iff, Except.ok.injEq] at h
  obtain ⟨pre, -, _, -, _, -, _, -, _, -, _, -, _, -, _, -, rfl⟩ := h
  exact ⟨pre.nextHeight, rfl⟩

theorem Chain.empty_or_height (h : Chain L config lib ok okPeg chain s) :
    s = State.empty F ∨ ∃ height, s.height = some height := by
  induction h with
  | start => exact .inl rfl
  | connect archive _ _ h _ => exact .inr (height_of_applyBlock h)
  | connectPeg _ _ h ih =>
      obtain ⟨p, hp, h⟩ := bind_eq_ok_iff.mp h
      rw [← Except.ok.inj h]
      rcases ih with rfl | hheight
      · simp [TwoWayPeg.connect, State.empty, bind_eq_ok_iff] at hp
      · exact .inr hheight

theorem Chain.height_of_ne_nil (h : Chain L config lib ok okPeg chain s)
    (hblocks : chain ≠ []) : ∃ height, s.height = some height := by
  induction h with
  | start => exact absurd rfl hblocks
  | connect archive _ _ h _ => exact height_of_applyBlock h
  | connectPeg _ _ h ih =>
      obtain ⟨p, hp, h⟩ := bind_eq_ok_iff.mp h
      rw [← Except.ok.inj h]
      exact ih hblocks

end

section

variable {L : Library F} {config : DecisionConfig} {lib : WithdrawalBundle.BundleLib}
  {ok : State F → Block F → Prop} {okPeg : State F → TwoWayPegData → Prop} {archive : Archive}
  {blocks chain : List (Block F)} {s s' : State F}

/-- Connect a block that meets a condition. -/
def applyChecked (L : Library F) (config : DecisionConfig) (ok : State F → Block F → Prop)
    [∀ s block, Decidable (ok s block)] (archive : Archive) (s : State F) (block : Block F) :
    Except Error (State F) := do
  ensure (ok s block) .panic
  applyBlock L config archive s block

theorem chain_of_checked [∀ s block, Decidable (ok s block)]
    (hchain : Chain L config lib ok okPeg chain s)
    (h : blocks.foldlM (applyChecked L config ok archive) s = .ok s') :
    Chain L config lib ok okPeg (blocks.reverse ++ chain) s' := by
  induction blocks generalizing chain s with
  | nil =>
      rw [← Except.ok.inj h]
      exact hchain
  | cons block blocks ih =>
      obtain ⟨s₁, hblock, hrest⟩ := bind_eq_ok_iff.mp h
      simp only [applyChecked, bind_eq_ok_iff, ensure_eq_ok_iff] at hblock
      obtain ⟨_, hok, hblock⟩ := hblock
      have hnext := ih (hchain.connect archive hok hblock) hrest
      simpa using hnext

theorem chain_of_foldlM (hok : ∀ block ∈ blocks, ∀ s, ok s block)
    (hchain : Chain L config lib ok okPeg chain s)
    (h : blocks.foldlM (applyBlock L config archive) s = .ok s') :
    Chain L config lib ok okPeg (blocks.reverse ++ chain) s' := by
  induction blocks generalizing chain s with
  | nil =>
      rw [← Except.ok.inj h]
      exact hchain
  | cons block blocks ih =>
      obtain ⟨s₁, hblock, hrest⟩ := bind_eq_ok_iff.mp h
      have hnext := ih (fun b hb => hok b (by simp [hb]))
        (hchain.connect archive (hok block (by simp) s) hblock) hrest
      simpa using hnext

end

end Truthcoin.BlockRun
