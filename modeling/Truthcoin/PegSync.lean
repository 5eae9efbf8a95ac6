import Truthcoin.PegRoundTrip

/-!
# Following the chain

A node extends its chain by a block and the peg data that comes with it, and
retracts the newest block again when the chain is reorganised.
-/

namespace Truthcoin.PegSync

open Truthcoin.Types Truthcoin.Table Truthcoin.Fallible Truthcoin.TwoWayPeg
open Truthcoin.WithdrawalBundle Truthcoin.PegRun Truthcoin.PegLog Truthcoin.PegIndex
open Truthcoin.PegSafety Truthcoin.PegUndo Truthcoin.PegOverlay Truthcoin.PegRoundTrip

def nextHeight (height : Option Nat) : Nat :=
  height.elim 0 (· + 1)

/-- A block on top of the chain. No outpoint is ever used for two outputs. -/
structure BlockStep (f : OutputOf) (s s' : Node) : Prop where
  height : s'.height = some (nextHeight s.height)
  dbs : s'.peg.dbs = s.peg.dbs
  moves : Relation.ReflTransGen (fun c c' => BlockMove c c' ∧ Agrees f c')
    s.peg.coins s'.peg.coins

/-- Chains that were never retracted. -/
inductive Forward (L : BundleLib) (f : OutputOf) (ok : Node → TwoWayPegData → Prop) :
    List (Node × TwoWayPegData) → Node → Prop where
  | start : Forward L f ok [] Node.empty
  | extend {frames : List (Node × TwoWayPegData)} {s s' : Node} {data : TwoWayPegData}
      {p : PegState} (hrun : Forward L f ok frames s) (hblock : BlockStep f s s')
      (hok : ok s' data) (hconnect : connect L s'.height s'.peg data = .ok p) :
      Forward L f ok ((s, data) :: frames) ⟨s'.height, p⟩

/-- `Sync L ok f frames s`: the node is in state `s` with the blocks of `frames`
connected, newest first; each frame holds the state before its block. Retracting
disconnects the peg data and then the block, which returns the coins and the height
to what they were. The outputs of retracted blocks bind nobody: any `f` will do that
the blocks still connected agree with. -/
inductive Sync (L : BundleLib) (ok : OutputOf → Node → TwoWayPegData → Prop) :
    OutputOf → List (Node × TwoWayPegData) → Node → Prop where
  | start {f : OutputOf} : Sync L ok f [] Node.empty
  | extend {f : OutputOf} {frames : List (Node × TwoWayPegData)} {s s' : Node}
      {data : TwoWayPegData} {p : PegState} (hrun : Sync L ok f frames s)
      (hblock : BlockStep f s s') (hok : ok f s' data)
      (hconnect : connect L s'.height s'.peg data = .ok p) :
      Sync L ok f ((s, data) :: frames) ⟨s'.height, p⟩
  | retract {f : OutputOf} {frames : List (Node × TwoWayPegData)} {s t : Node}
      {data : TwoWayPegData} {p : PegState} (hrun : Sync L ok f ((s, data) :: frames) t)
      (hdisconnect : disconnect t.height t.peg data = .ok p) :
      Sync L ok f frames ⟨s.height, ⟨s.peg.coins, p.dbs⟩⟩
  | reassign {f f' : OutputOf} {frames : List (Node × TwoWayPegData)} {s : Node}
      (hrun : Sync L ok f frames s) (hchain : Forward L f' (ok f') frames s) :
      Sync L ok f' frames s

/-- Peg data that can be connected cleanly at the node's height. -/
def Clean (L : BundleLib) (f : OutputOf) (s : Node) (data : TwoWayPegData) : Prop :=
  ∀ h, s.height = some h → CleanData L f h s.peg data

variable {L : BundleLib} {f : OutputOf}

theorem insertUtxo_same {c : Coins} (hc : c.Indexed) {o : OutPoint}
    {output : FilledOutput} (ho : c.utxos[o]? = some output) :
    c.insertUtxo o output = c := by
  have hmem : (⟨output.address, o⟩ : AddressKey) ∈ c.utxosByAddress :=
    (hc _).mpr ⟨output, ho, rfl⟩
  have hindex : c.utxosByAddress.insert ⟨output.address, o⟩ () = c.utxosByAddress :=
    insert_of_lookup (getElem?_pos _ _ hmem)
  simp only [Coins.insertUtxo, insert_of_lookup ho, hindex]

theorem indexed_of_blockMove {c c' : Coins} (hc : c.Indexed) (hdisjoint : c.Disjoint)
    (hagrees : Agrees f c) (hagrees' : Agrees f c') (hmove : BlockMove c c') :
    c'.Indexed := by
  cases hmove with
  | @create o output hunspent =>
      cases ho : c.utxos[o]? with
      | none => exact hc.insertUtxo ho output
      | some old =>
          have hnew : output = f o := hagrees' o output (by simp)
          rw [hagrees o old ho, ← hnew] at ho
          rw [insertUtxo_same hc ho]
          exact hc
  | spend => exact (hc.deleteUtxo _).putStxo _ _
  | @unspend o spent hstxo =>
      have ho : c.utxos[o]? = none := (hdisjoint o).resolve_right (by simp [hstxo])
      exact (hc.deleteStxo o).insertUtxo ho spent.output
  | remove o => exact hc.deleteUtxo o

theorem BlockStep.settled {h : Nat} {s s' : Node} (hs : Settled f h s.peg)
    (hblock : BlockStep f s s') : Settled f h s'.peg := by
  have hcoins : s'.peg.coins.Disjoint ∧ s'.peg.coins.Indexed ∧ Agrees f s'.peg.coins := by
    have hmoves := hblock.moves
    generalize s'.peg.coins = c' at hmoves
    induction hmoves with
    | refl => exact ⟨hs.faithful.inv.disjoint, hs.faithful.indexed, hs.faithful.agrees⟩
    | tail _ hmove ih =>
        obtain ⟨hdisjoint, hindexed, hagrees⟩ := ih
        exact ⟨(hmove.1.disjoint_keeps hdisjoint).1,
          indexed_of_blockMove hindexed hdisjoint hagrees hmove.2 hmove.1, hmove.2⟩
  have hmoves : BlockMoves s s' :=
    Relation.ReflTransGen.mono (r := fun c c' => BlockMove c c' ∧ Agrees f c')
      (p := BlockMove) (fun _ _ hmove => hmove.1) _ _ hblock.moves
  have hinv := hmoves.inv hs.faithful.inv hblock.dbs
  have hdbs := hblock.dbs
  refine ⟨⟨hinv, hcoins.2.1, hcoins.2.2, ?_⟩, ?_, ?_, ?_, ?_, ?_⟩
  · rw [hdbs]
    exact hs.faithful.rows
  · rw [hdbs]
    exact hs.stamps
  · rw [hdbs]
    exact hs.index
  · rw [hdbs]
    exact hs.deposits
  · rw [hdbs]
    exact hs.bundleEvents
  · rw [hdbs]
    exact hs.failed

theorem settled_empty : Settled f 0 Node.empty.peg := by
  refine ⟨⟨⟨Coins.disjoint_empty, ?_, ?_⟩, Coins.indexed_empty, ?_, ?_⟩, ?_, ?_,
    ⟨[], rfl, by simp⟩, ⟨[], rfl, by simp⟩, ⟨none, rfl, by simp⟩⟩
  all_goals simp [Node.empty, PegDbs.empty, Agrees, Coins.empty]

theorem settled_of_forward {frames : List (Node × TwoWayPegData)} {s : Node}
    (hrun : Forward L f (Clean L f) frames s) : Settled f (nextHeight s.height) s.peg := by
  induction hrun with
  | start => exact settled_empty
  | @extend frames s s' data p _ hblock hok hconnect ih =>
      have hsettled := hblock.settled ih
      have hheight := hblock.height
      rw [hheight] at hconnect ⊢
      exact hsettled.connected (hok _ hheight) hconnect

/-- Retractions lead back to states of the chain, so every reachable state is one
that was reached without them. -/
theorem forward_of_sync {frames : List (Node × TwoWayPegData)} {s : Node}
    (hrun : Sync L (Clean L) f frames s) : Forward L f (Clean L f) frames s := by
  induction hrun with
  | start => exact .start
  | extend _ hblock hok hconnect ih => exact .extend ih hblock hok hconnect
  | reassign _ hchain _ => exact hchain
  | @retract f frames s t data p _ hdisconnect ih =>
      cases ih with
      | @extend _ _ s' _ p' hforward hblock hok hconnect =>
          have hsettled := hblock.settled (settled_of_forward hforward)
          have hheight := hblock.height
          rw [hheight] at hconnect hdisconnect
          have hback := disconnect_connect hsettled (hok _ hheight) hconnect
          have hp : s'.peg = p := Except.ok.inj (hback.symm.trans hdisconnect)
          have hdbs : p.dbs = s.peg.dbs := by rw [← hp, hblock.dbs]
          rw [hdbs]
          exact hforward

/-- In every state that is reached with clean peg data, disconnecting the clean data
that was just connected succeeds and restores every table. -/
theorem disconnect_restores {frames : List (Node × TwoWayPegData)} {s s' : Node}
    {data : TwoWayPegData} {p : PegState} (hrun : Sync L (Clean L) f frames s)
    (hblock : BlockStep f s s') (hclean : Clean L f s' data)
    (hconnect : connect L s'.height s'.peg data = .ok p) :
    disconnect s'.height p data = .ok s'.peg := by
  have hsettled := hblock.settled (settled_of_forward (forward_of_sync hrun))
  have hheight := hblock.height
  rw [hheight] at hconnect ⊢
  exact disconnect_connect hsettled (hclean _ hheight) hconnect

/-- A library under which a bundle is named by the height it commits to. -/
def heightLib : BundleLib where
  scriptPubkey _ := []
  hashOutPoints outpoints :=
    match outpoints.getLast? with
    | some (.regular _ height) => height
    | _ => 0
  txWeight _ := 0
  computeTxid tx := tx.inputsCommitment

def allWithdrawals : OutputOf := fun _ => withdrawalOutput

def bundleAt (height txid : Nat) : WithdrawalBundle :=
  ⟨(∅ : Table OutPoint FilledOutput).insert (.regular txid 0) withdrawalOutput,
    ⟨0, height, [⟨5000, []⟩]⟩⟩

def withdrawalPeg : PegState := ⟨withdrawalCoins, PegDbs.empty⟩

/-- The bundle of height 4 is pending. -/
def pendingPeg : PegState :=
  (withdrawalPeg.setPending (some 4)).putBundle 4
    (.known (bundleAt 4 1), RollBack.new .pending 4)

theorem sync_empty {frames : List (Node × TwoWayPegData)} {height : Nat}
    {p : PegState} (p' : PegState)
    (hrun : Sync heightLib (fun _ _ _ => True) allWithdrawals frames ⟨some height, p⟩)
    (hconnect : connect heightLib (some (height + 1)) p noData = .ok p') :
    Sync heightLib (fun _ _ _ => True) allWithdrawals
      ((⟨some height, p⟩, noData) :: frames) ⟨some (height + 1), p'⟩ := by
  have hblock : BlockStep allWithdrawals ⟨some height, p⟩ ⟨some (height + 1), p⟩ :=
    ⟨rfl, rfl, .refl⟩
  exact .extend hrun hblock trivial hconnect

theorem agrees_allWithdrawals {c : Coins} (hc : Agrees allWithdrawals c)
    (o : OutPoint) : Agrees allWithdrawals (c.insertUtxo o withdrawalOutput) := by
  intro o' output ho
  rw [Coins.insertUtxo_utxos] at ho
  split at ho
  · exact (Option.some.inj ho).symm
  · exact hc o' output ho

theorem agrees_empty (f : OutputOf) : Agrees f Coins.empty := by
  simp [Agrees, Coins.empty]

theorem sync_pendingPeg : ∃ frames,
    Sync heightLib (fun _ _ _ => True) allWithdrawals frames ⟨some 4, pendingPeg⟩ := by
  have hblock : BlockStep allWithdrawals Node.empty ⟨some 0, withdrawalPeg⟩ := by
    refine ⟨rfl, rfl, .single ⟨.create withdrawalOutput ?_, ?_⟩⟩
    · simp [Node.empty, Coins.empty]
    · exact agrees_allWithdrawals (agrees_empty _) _
  have h0 : Sync heightLib (fun _ _ _ => True) allWithdrawals [(Node.empty, noData)]
      ⟨some 0, withdrawalPeg⟩ := .extend .start hblock trivial rfl
  have h1 := sync_empty withdrawalPeg h0 rfl
  have h2 := sync_empty withdrawalPeg h1 rfl
  have h3 := sync_empty withdrawalPeg h2 rfl
  exact ⟨_, sync_empty pendingPeg h3 rfl⟩

/-- A second withdrawal arrives while the first bundle is pending. -/
def secondPeg : PegState :=
  { pendingPeg with
    coins := withdrawalCoins.insertUtxo (.regular 2 0) withdrawalOutput }

/-- The pending bundle is submitted. -/
def submitData : TwoWayPegData := ⟨[⟨0, [.withdrawalBundle ⟨4, .submitted⟩]⟩]⟩

/-- Block 5 submits the pending bundle, so that the next bundle is created in the
same block. Disconnecting the peg data makes the first bundle pending again and
leaves the second one in the table. -/
theorem submission_and_creation_not_restored :
    ∃ frames p q,
      Sync heightLib (fun _ _ _ => True) allWithdrawals frames ⟨some 4, pendingPeg⟩ ∧
      BlockStep allWithdrawals ⟨some 4, pendingPeg⟩ ⟨some 5, secondPeg⟩ ∧
      connect heightLib (some 5) secondPeg submitData = .ok p ∧
      disconnect (some 5) p submitData = .ok q ∧
      secondPeg.dbs.withdrawalBundles[5]? = none ∧
      q.dbs.withdrawalBundles[5]? =
        some (.known (bundleAt 5 2), RollBack.new .pending 5) := by
  obtain ⟨frames, hrun⟩ := sync_pendingPeg
  have hblock : BlockStep allWithdrawals ⟨some 4, pendingPeg⟩ ⟨some 5, secondPeg⟩ := by
    refine ⟨rfl, rfl, .single ⟨.create withdrawalOutput ?_, ?_⟩⟩
    · simp [pendingPeg, withdrawalPeg, withdrawalCoins, PegState.putBundle,
        PegState.setPending, Coins.empty]
    · exact agrees_allWithdrawals (agrees_allWithdrawals (agrees_empty _) _) _
  have hleft : (do
      let p ← connect heightLib (some 5) secondPeg submitData
      let q ← disconnect (some 5) p submitData
      .ok q.dbs.withdrawalBundles[5]?) =
        .ok (some (.known (bundleAt 5 2), RollBack.new .pending 5)) := by
    decide +kernel
  simp only [bind_eq_ok_iff, Except.ok.injEq] at hleft
  obtain ⟨p, hconnect, q, hdisconnect, hq⟩ := hleft
  exact ⟨frames, p, q, hrun, hblock, hconnect, hdisconnect, rfl, hq⟩

/-- Outputs of the deposit and of the withdrawal. -/
def depositOrWithdrawal : OutputOf
  | .deposit _ _ => ⟨0, .bitcoin 100, []⟩
  | _ => withdrawalOutput

/-- The genesis block with a deposit and a bundle that nothing is known about. -/
theorem disconnect_restores_unknownConfirmed :
    ∃ p, connect heightLib (some 0) withdrawalPeg unknownConfirmedData = .ok p ∧
      disconnect (some 0) p unknownConfirmedData = .ok withdrawalPeg := by
  have hblock : BlockStep depositOrWithdrawal Node.empty ⟨some 0, withdrawalPeg⟩ := by
    refine ⟨rfl, rfl, .single ⟨.create withdrawalOutput ?_, ?_⟩⟩
    · simp [Node.empty, Coins.empty]
    · intro o output ho
      simp only [withdrawalPeg, withdrawalCoins, Coins.insertUtxo_utxos] at ho
      split at ho
      · rename_i heq
        rw [← heq]
        exact (Option.some.inj ho).symm
      · simp [Coins.empty] at ho
  have hclean : Clean heightLib depositOrWithdrawal ⟨some 0, withdrawalPeg⟩
      unknownConfirmedData := by
    intro h hh
    obtain rfl : 0 = h := Option.some.inj hh
    refine ⟨?_, ?_, ?_⟩
    · refine ⟨⟨?_, ?_, rfl⟩, ?_⟩
      · simp [withdrawalPeg, withdrawalCoins, connectStart, Deposit.outpoint, Coins.empty]
      · simp [withdrawalPeg, withdrawalCoins, connectStart, Coins.empty]
      · intro acc₁ h₁
        refine ⟨trivial, ?_⟩
        intro acc₂ h₂
        refine ⟨?_, fun _ _ => trivial⟩
        obtain rfl := Except.ok.inj h₁
        obtain rfl := Except.ok.inj h₂
        intro info st hentry
        obtain ⟨-, rfl⟩ : info = .unknown ∧ st = RollBack.new .submitted 0 := by
          simpa [PegState.putBundle, eq_comm] using hentry
        simp
    · constructor <;> intro _ <;> simp [withdrawalPeg, PegDbs.empty]
    · intro acc b hevents hgap
      obtain rfl := Except.ok.inj hevents
      cases hgap
  obtain ⟨p, hconnect⟩ :
      ∃ p, connect heightLib (some 0) withdrawalPeg unknownConfirmedData = .ok p :=
    ⟨_, rfl⟩
  exact ⟨p, hconnect, disconnect_restores .start hblock hclean hconnect⟩

end Truthcoin.PegSync
