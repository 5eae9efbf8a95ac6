import Truthcoin.PegSteps

/-!
# Runs of the two-way peg

A node connects the peg data of a sidechain block right after the block, and
disconnects the same data right before the block.
-/

namespace Truthcoin.PegRun

open Truthcoin.Types Truthcoin.TwoWayPeg Truthcoin.WithdrawalBundle

/-- The part of a node's state that the peg reads or writes. -/
structure Node where
  height : Option Nat
  peg : PegState
  deriving DecidableEq

def Node.empty : Node := ⟨none, ⟨Coins.empty, PegDbs.empty⟩⟩

/-- `Run L B ok chain s`: the node reaches `s` from the empty state with the
peg data of `chain` connected, newest block first. Between peg steps, blocks are
connected and disconnected as `B` allows, which leaves the tables of the peg
alone; `ok` restricts the states and data of the connections. -/
inductive Run (L : BundleLib) (B : Node → Node → Prop)
    (ok : Node → TwoWayPegData → Prop) :
    List (Nat × TwoWayPegData) → Node → Prop where
  | start : Run L B ok [] Node.empty
  | block {chain : List (Nat × TwoWayPegData)} {s s' : Node}
      (hrun : Run L B ok chain s) (hblock : B s s')
      (hdbs : s'.peg.dbs = s.peg.dbs) : Run L B ok chain s'
  | connect {chain : List (Nat × TwoWayPegData)} {s : Node} {data : TwoWayPegData}
      {h : Nat} {p : PegState} (hrun : Run L B ok chain s)
      (hheight : s.height = some h) (hok : ok s data)
      (hconnect : connect L s.height s.peg data = .ok p) :
      Run L B ok ((h, data) :: chain) ⟨s.height, p⟩
  | disconnect {chain : List (Nat × TwoWayPegData)} {s : Node}
      {data : TwoWayPegData} {h : Nat} {p : PegState}
      (hrun : Run L B ok ((h, data) :: chain) s) (hheight : s.height = some h)
      (hdisconnect : disconnect s.height s.peg data = .ok p) :
      Run L B ok chain ⟨s.height, p⟩

theorem Run.mono {L : BundleLib} {B : Node → Node → Prop}
    {ok ok' : Node → TwoWayPegData → Prop} (hok : ∀ s data, ok s data → ok' s data)
    {chain : List (Nat × TwoWayPegData)} {s : Node} (hrun : Run L B ok chain s) :
    Run L B ok' chain s := by
  induction hrun with
  | start => exact .start
  | block _ hblock hdbs ih => exact .block ih hblock hdbs
  | connect _ hheight hdata hconnect ih =>
      exact .connect ih hheight (hok _ _ hdata) hconnect
  | disconnect _ hheight hdisconnect ih => exact .disconnect ih hheight hdisconnect

/-- A block with an empty body moves the height and nothing else. -/
def EmptyBlock (s s' : Node) : Prop :=
  s' = ⟨some (s.height.elim 0 (· + 1)), s.peg⟩

end Truthcoin.PegRun
