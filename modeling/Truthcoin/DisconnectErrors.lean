import Truthcoin.FallibleErrors
import Truthcoin.Disconnect

/-!
# Errors of a disconnection

The Merkle root of the body is checked once, before anything is undone. No other step of a
disconnection reports an invalid body.
-/

namespace Truthcoin.DisconnectErrors

open Truthcoin.Types Truthcoin.Table Truthcoin.Fallible Truthcoin.Arithmetic
open Truthcoin.Decisions Truthcoin.Markets Truthcoin.Voting Truthcoin.Blocks
open Truthcoin.Trading Truthcoin.Validation Truthcoin.Settlement Truthcoin.Apply
open Truthcoin.Consolidation Truthcoin.Connect Truthcoin.Disconnect
open Truthcoin.TwoWayPeg

/-- The error is not about the Merkle root of a body. -/
def NotInvalidBody : Error → Prop
  | .invalidBody _ _ => False
  | _ => True

variable {F : Type}

@[simp]
theorem reports_toI64 {n : Int} : Reports NotInvalidBody (toI64 n) := by
  unfold toI64
  split <;> simp [NotInvalidBody]

@[simp]
theorem reports_addI64 {a b : I64} : Reports NotInvalidBody (addI64 a b) := by
  simp [addI64]

@[simp]
theorem reports_subI64 {a b : I64} : Reports NotInvalidBody (subI64 a b) := by
  simp [subI64]

@[simp]
theorem reports_negI64 {a : I64} : Reports NotInvalidBody (negI64 a) := by
  simp [negI64]

@[simp]
theorem reports_index {α : Type} {xs : List α} {i : Nat} :
    Reports NotInvalidBody (index xs i) := by
  simp [index, NotInvalidBody]

@[simp]
theorem reports_addAt {xs : List I64} {i : Nat} {delta : I64} :
    Reports NotInvalidBody (addAt xs i delta) := by
  simp [addAt]

@[simp]
theorem reports_subAt {xs : List I64} {i : Nat} {delta : I64} :
    Reports NotInvalidBody (subAt xs i delta) := by
  simp [subAt]

@[simp]
theorem reports_fromBytes {d : DecisionId} : Reports NotInvalidBody (DecisionId.fromBytes d) := by
  simp [DecisionId.fromBytes, NotInvalidBody]

@[simp]
theorem reports_updateMarket {db : MarketsDatabase F} {market : Market F} :
    Reports NotInvalidBody (db.updateMarket market) := by
  simp [MarketsDatabase.updateMarket, NotInvalidBody]

@[simp]
theorem reports_addSharesToAccount {db : MarketsDatabase F} {address : Address}
    {position : PositionKey} {shares : I64} {height : Nat} :
    Reports NotInvalidBody (db.addSharesToAccount address position shares height) := by
  simp [MarketsDatabase.addSharesToAccount, ShareAccount.addShares]

@[simp]
theorem reports_changeShares {db : MarketsDatabase F} {address : Address}
    {position : PositionKey} {delta : I64} {height : Nat} :
    Reports NotInvalidBody (db.changeShares address position delta height) := by
  simp [MarketsDatabase.changeShares, MarketsDatabase.removeSharesFromAccount,
    ShareAccount.removeShares, NotInvalidBody]

@[simp]
theorem reports_marketFailure {text : String} {e : MarketError} :
    NotInvalidBody (marketFailure text e) := trivial

@[simp]
theorem reports_toError {reason : String} {e : SatoshiError} :
    NotInvalidBody (e.toError reason) := by
  cases e <;> trivial

section

variable {L : Library F}

@[simp]
theorem reports_undoSettlement {s : State F} {height : Nat} :
    Reports NotInvalidBody (undoSettlement L s height) := by
  unfold undoSettlement
  split
  · exact reports_ok s
  · simp only [reports_bind, reports_ok, implies_true, and_true]
    refine reports_foldlM fun s entry _ => ?_
    simp only [revertSettlementEntry, revertAutomaticSharePayouts, reports_bind, reports_ok,
      implies_true, and_true]
    refine reports_foldlM fun s payout _ => ?_
    simp [revertSharePayout]

@[simp]
theorem reports_revertShares {db : MarketsDatabase F} {deltas : List (ShareKey × I64)}
    {height : Nat} : Reports NotInvalidBody (revertShares L db deltas height) := by
  refine reports_bind.mpr ⟨?_, fun changes _ => ?_⟩
  · refine reports_foldlM fun changes delta _ => ?_
    simp [addShareAccountChange]
  · refine reports_foldlM fun db change _ => ?_
    simp [applyShareChange]

@[simp]
theorem reports_buyCost [F64 F] {texts : CostTexts} {tradingFee : F} {old new : List I64}
    {beta : F} :
    Reports NotInvalidBody (buyCost L texts tradingFee old new beta) := by
  simp only [buyCost, calculateUpdateCost, reports_bind, reports_okOr, reports_mapError]
  exact ⟨fun _ => trivial, fun _ _ _ _ => reports_toError⟩

@[simp]
theorem reports_sellProceeds [F64 F] {texts : CostTexts} {tradingFee : F} {old new : List I64}
    {beta : F} : Reports NotInvalidBody (sellProceeds L texts tradingFee old new beta) := by
  simp only [sellProceeds, calculateUpdateCost, reports_bind, reports_okOr, reports_mapError]
  exact ⟨fun _ => trivial, fun _ _ _ _ => reports_toError⟩

@[simp]
theorem reports_revertBuy [F64 F] {market : Market F} {trade : Trade} {height : Nat} :
    Reports NotInvalidBody (revertBuy L market trade height) := by
  simp [revertBuy]

@[simp]
theorem reports_revertSell [F64 F] {market : Market F} {trade : Trade} {height : Nat} :
    Reports NotInvalidBody (revertSell L market trade height) := by
  simp [revertSell]

@[simp]
theorem reports_revertTradeMarketState [F64 F] {s : State F} {tx : FilledTransaction F}
    {trade : Trade} :
    Reports NotInvalidBody (revertTradeMarketState L s tx trade) := by
  simp [revertTradeMarketState, accountDelta, NotInvalidBody]

@[simp]
theorem reports_revertAmplifyBeta {s : State F} {amplify : AmplifyBeta} :
    Reports NotInvalidBody (revertAmplifyBeta s amplify) := by
  simp [revertAmplifyBeta, NotInvalidBody]

@[simp]
theorem reports_revertClaims [DecidableEq F] {db : Dbs F}
    {payloads : List (ClaimDecisionPayload F)} :
    Reports NotInvalidBody (revertClaims db payloads) :=
  reports_foldlM fun db entry _ => by simp

@[simp]
theorem reports_revertCreateMarket [DecidableEq F] {s : State F} {tx : FilledTransaction F}
    {creation : MarketCreation F} :
    Reports NotInvalidBody (revertCreateMarket L s tx creation) := by
  simp [revertCreateMarket, extractCreatorAddress, NotInvalidBody]

@[simp]
theorem reports_revertTxData [F64 F] [DecidableEq F] {acc : State F × List (ShareKey × I64)}
    {tx : FilledTransaction F} {data : TxData F} :
    Reports NotInvalidBody (revertTxData L acc tx data) := by
  cases data with
  | submitBallot ballot =>
      simp only [revertTxData, reports_bind, reports_ok, implies_true, and_true]
      exact reports_foldlM fun db d _ => by simp [revertVote]
  | submitVote vote => simp [revertTxData, revertVote]
  | claimDecision | createMarket | trade | transferReputation | amplifyBeta => simp [revertTxData]

@[simp]
theorem reports_removeOutput {c : Coins} {o : OutPoint} :
    Reports NotInvalidBody (removeOutput c o) := by
  simp [removeOutput, NotInvalidBody]

@[simp]
theorem reports_revertUtxoChanges {c : Coins} {tx : Transaction F} :
    Reports NotInvalidBody (revertUtxoChanges L c tx) := by
  simp only [revertUtxoChanges, reports_bind]
  refine ⟨reports_foldlM fun c o _ => reports_removeOutput, fun c _ => ?_⟩
  exact reports_foldlM fun c o _ => by simp [unspendInput, NotInvalidBody]

@[simp]
theorem reports_fillTransactionFromStxos {c : Coins} {tx : Transaction F} :
    Reports NotInvalidBody (State.fillTransactionFromStxos L c tx) := by
  simp only [State.fillTransactionFromStxos, reports_bind, reports_ok, implies_true, and_true]
  exact reports_mapM fun o _ => by simp [NotInvalidBody]

@[simp]
theorem reports_undoTransactions [F64 F] [DecidableEq F] {s : State F} {body : Body F}
    {height : Nat} :
    Reports NotInvalidBody (undoTransactions L s body height) := by
  simp only [undoTransactions, reports_bind, reports_ok, implies_true, and_true]
  refine reports_foldlM fun acc tx _ => ?_
  simp only [revertTransaction, reports_bind]
  refine ⟨reports_fillTransactionFromStxos, fun filled _ => ?_⟩
  cases tx.data <;> simp

theorem reports_disconnectTip [F64 F] [DecidableEq F] {s : State F} {header : Header}
    {body : Body F} (hroot : L.merkleRoot body.coinbase body.transactions = header.merkleRoot) :
    Reports NotInvalidBody (disconnectTip L s header body) := by
  simp only [disconnectTip, reports_bind]
  refine ⟨?_, fun height _ => ⟨reports_undoSettlement, fun s _ =>
    ⟨reports_undoTransactions, fun acc _ => ⟨reports_revertShares, fun markets _ =>
      ⟨reports_foldlM fun c o _ => reports_removeOutput, fun coins _ => ?_⟩⟩⟩⟩⟩
  · simp [checkTip, hroot, NotInvalidBody]
  · unfold setPreviousTip
    split <;> simp [NotInvalidBody]

end

theorem reports_unspendBundleUtxos {rows : List CoinRow} {c : Coins} :
    Reports NotInvalidBody (unspendBundleUtxos rows c) :=
  reports_foldlM fun c row _ => by split <;> simp [NotInvalidBody]

theorem reports_unconfirmUtxos {rows : List CoinRow} {c : Coins} :
    Reports NotInvalidBody (unconfirmUtxos rows c) :=
  reports_foldlM fun c row _ => by split <;> simp [NotInvalidBody]

theorem reports_respendUtxos {m : M6id} {rows : List CoinRow} {c : Coins} :
    Reports NotInvalidBody (respendUtxos m rows c) :=
  reports_foldlM fun c row _ => by split <;> simp [NotInvalidBody]

theorem reports_disconnectSubmitted {s : PegState} {height : Nat} {m : M6id} :
    Reports NotInvalidBody (disconnectWithdrawalBundleSubmitted s height m) := by
  unfold disconnectWithdrawalBundleSubmitted
  split
  · split <;> simp [NotInvalidBody]
  · rename_i st hentry
    rcases st.pop with ⟨prev, latest⟩
    simp only [reports_bind, reports_ensure]
    refine ⟨fun _ => trivial, fun _ _ => ⟨fun _ => trivial, fun _ _ => ?_⟩⟩
    repeat' split
    all_goals simp [reports_unspendBundleUtxos]

theorem reports_disconnectConfirmed {s : PegState} {height : Nat} {m : M6id} :
    Reports NotInvalidBody (disconnectWithdrawalBundleConfirmed s height m) := by
  unfold disconnectWithdrawalBundleConfirmed
  split
  · simp [NotInvalidBody]
  · rename_i st hentry
    rcases st.pop with ⟨prev, latest⟩
    simp only [reports_ite, reports_ok, reports_bind, reports_ensure, reports_okOr]
    refine ⟨fun _ => trivial, fun _ => ⟨fun _ => trivial, fun _ _ => ⟨fun _ => trivial,
      fun _ _ => ⟨fun _ => trivial, fun prev _ => ⟨fun _ => trivial, fun _ _ => ?_⟩⟩⟩⟩⟩
    repeat' split
    all_goals simp [reports_unconfirmUtxos]

theorem reports_disconnectFailed {s : PegState} {height : Nat} {m : M6id} :
    Reports NotInvalidBody (disconnectWithdrawalBundleFailed s height m) := by
  unfold disconnectWithdrawalBundleFailed
  split
  · simp [NotInvalidBody]
  · rename_i st hentry
    rcases st.pop with ⟨prev, latest⟩
    simp only [reports_ite, reports_ok, reports_bind, reports_ensure, reports_okOr]
    refine ⟨fun _ => trivial, fun _ => ⟨fun _ => trivial, fun _ _ => ⟨fun _ => trivial,
      fun _ _ => ⟨fun _ => trivial, fun prev _ => ⟨fun _ => trivial, fun _ _ => ?_⟩⟩⟩⟩⟩
    repeat' split
    all_goals simp [reports_respendUtxos, popLatestFailed, NotInvalidBody]

theorem reports_disconnectEvent {height : Nat} {acc : DisconnectAcc} {event : LocatedEvent} :
    Reports NotInvalidBody (disconnectEvent height acc event) := by
  unfold disconnectEvent
  split
  · split <;> simp [NotInvalidBody]
  · simp only [reports_bind, reports_ok, implies_true, and_true]
    unfold disconnectWithdrawalBundleEvent
    split
    · exact reports_disconnectSubmitted
    · exact reports_disconnectConfirmed
    · exact reports_disconnectFailed

theorem reports_popEventBlock {name : String} {missing : Error}
    {table : Table UInt32 (MainBlockHash × Nat)} {latest : Option MainBlockHash} {height : Nat}
    (hmissing : NotInvalidBody missing) :
    Reports NotInvalidBody (popEventBlock name missing table latest height) := by
  unfold popEventBlock
  split
  · exact reports_ok table
  · simp only [reports_bind, reports_okOr, reports_ensure, reports_ok, implies_true, and_true]
    exact ⟨fun _ => hmissing, fun _ _ => ⟨fun _ => trivial, fun _ _ _ => trivial⟩⟩

theorem reports_failureGapPassed {dbs : PegDbs} {height : Nat} :
    Reports NotInvalidBody (failureGapPassed dbs height) := by
  simp only [failureGapPassed, reports_bind, reports_ensure, reports_ok, implies_true, and_true]
  refine ⟨?_, fun _ _ _ => trivial⟩
  unfold getLatestFailedWithdrawalBundle
  split
  · exact reports_ok none
  · dsimp only
    split
    · simp [NotInvalidBody]
    · split <;> simp [NotInvalidBody]

theorem reports_dropPendingBundle {s : PegState} {height : Nat} :
    Reports NotInvalidBody (dropPendingBundle s height) := by
  unfold dropPendingBundle
  simp only [reports_bind]
  refine ⟨reports_failureGapPassed, fun gapPassed _ => ?_⟩
  split
  · simp only [reports_bind, reports_okOr, reports_ite]
    refine ⟨fun _ => trivial, fun entry _ => ⟨fun _ => ?_, fun _ => reports_ok s⟩⟩
    split <;> simp
  · exact reports_ok s

theorem reports_disconnectTwoWayPegData {s : State F} {data : TwoWayPegData} :
    Reports NotInvalidBody (s.disconnectTwoWayPegData data) := by
  simp only [State.disconnectTwoWayPegData, TwoWayPeg.disconnect, reports_bind, reports_okOr]
  refine ⟨⟨fun _ => trivial, fun height _ => ⟨?_, fun acc _ =>
    ⟨reports_popEventBlock trivial, fun blocks _ => ⟨reports_dropPendingBundle, fun s _ =>
      ⟨reports_popEventBlock trivial, fun _ _ => reports_ok _⟩⟩⟩⟩⟩, fun _ _ => reports_ok _⟩
  exact reports_foldlM fun acc event _ => reports_disconnectEvent

end Truthcoin.DisconnectErrors
