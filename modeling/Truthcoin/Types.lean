import Truthcoin.AppendLog

/-!
# Outputs, outpoints and two-way-peg data

Hashes, addresses and market identifiers are opaque numbers; amounts are numbers
of satoshis.
-/

namespace Truthcoin.Types

open Truthcoin.Table

abbrev Address := Nat
abbrev Txid := Nat
abbrev CoinbaseTxid := Nat
abbrev BlockHash := Nat
abbrev MerkleRoot := Nat
abbrev MainBlockHash := Nat
abbrev MainAddress := Nat
abbrev M6id := Nat
abbrev MarketId := Nat
abbrev Amount := Nat

/-- Largest value of a 64-bit amount. -/
def amountMax : Amount := 2 ^ 64 - 1

/-- `checked_add` of two 64-bit amounts. -/
def checkedAdd (a b : Amount) : Option Amount :=
  if a + b ≤ amountMax then some (a + b) else none

/-- `saturating_add` of two 64-bit amounts. -/
def saturatingAdd (a b : Amount) : Amount :=
  min (a + b) amountMax

/-- Fold of `checked_add` over a list, as `checked_sum` does. -/
def checkedSum (values : List Amount) : Option Amount :=
  values.foldlM checkedAdd 0

/-- Reference to an output. -/
inductive OutPoint where
  | regular (txid : Txid) (vout : Nat)
  | coinbase (txid : CoinbaseTxid) (vout : Nat)
  | deposit (txid : Nat) (vout : Nat)
  | marketFunds (marketId : MarketId) (blockHeight : Nat) (isFee : Bool)
  | payout (hash : MerkleRoot) (vout : Nat)
  deriving DecidableEq, Repr

/-- Variant tag and fields, in the order of the canonical encoding. -/
def OutPoint.toKey : OutPoint → List Nat
  | .regular txid vout => [0, txid, vout]
  | .coinbase txid vout => [1, txid, vout]
  | .deposit txid vout => [2, txid, vout]
  | .marketFunds marketId blockHeight isFee =>
      [3, marketId, blockHeight, isFee.toNat]
  | .payout hash vout => [4, hash, vout]

instance : TableKey OutPoint where
  encode := OutPoint.toKey
  encode_injective := by
    intro a b h
    cases a <;> cases b <;> simp_all [OutPoint.toKey]
    cases ‹Bool› <;> cases ‹Bool› <;> simp_all

/-- Key of the address index. -/
structure AddressKey where
  address : Address
  outpoint : OutPoint
  deriving DecidableEq, Repr

instance : TableKey AddressKey where
  encode k := k.address :: k.outpoint.toKey
  encode_injective := by
    rintro ⟨a, o⟩ ⟨b, p⟩ h
    simp only [List.cons.injEq] at h
    rw [h.1, TableKey.encode_injective (K := OutPoint) h.2]

/-- Reference to the spender of an output. -/
inductive InPoint where
  | regular (txid : Txid) (vin : Nat)
  | withdrawal (m6id : M6id)
  | redistribution
  deriving DecidableEq, Repr

structure WithdrawalContent where
  value : Amount
  mainFee : Amount
  mainAddress : MainAddress
  deriving DecidableEq, Repr

/-- A withdrawal is funded for its payout and its mainchain fee. -/
def WithdrawalContent.getBitcoinValue (w : WithdrawalContent) : Amount :=
  (checkedAdd w.value w.mainFee).getD amountMax

/-- Content of a transaction or coinbase output. -/
inductive Content where
  | bitcoin (value : Amount)
  | withdrawal (withdrawal : WithdrawalContent)
  | marketFunds (marketId : MarketId) (amount : Amount) (isFee : Bool)
  deriving DecidableEq, Repr

/-- Content of an output in the UTXO set. -/
inductive FilledContent where
  | bitcoin (value : Amount)
  | bitcoinWithdrawal (withdrawal : WithdrawalContent)
  | marketFunds (marketId : MarketId) (amount : Amount) (isFee : Bool)
  deriving DecidableEq, Repr

def Content.getBitcoinValue : Content → Amount
  | .bitcoin value => value
  | .withdrawal w => w.getBitcoinValue
  | .marketFunds _ amount _ => amount

/-- Market funds lose their market when a filled content is read back. -/
def FilledContent.toContent : FilledContent → Content
  | .bitcoin value => .bitcoin value
  | .bitcoinWithdrawal w => .withdrawal w
  | .marketFunds _ amount _ => .bitcoin amount

def FilledContent.getBitcoinValue (c : FilledContent) : Amount :=
  c.toContent.getBitcoinValue

def FilledContent.isWithdrawal : FilledContent → Bool
  | .bitcoinWithdrawal _ => true
  | _ => false

def FilledContent.isBitcoin : FilledContent → Bool
  | .bitcoin _ => true
  | _ => false

structure Output where
  address : Address
  content : Content
  memo : List UInt8
  deriving DecidableEq, Repr

structure FilledOutput where
  address : Address
  content : FilledContent
  memo : List UInt8
  deriving DecidableEq, Repr

def Output.getBitcoinValue (o : Output) : Amount :=
  o.content.getBitcoinValue

def FilledOutput.getBitcoinValue (o : FilledOutput) : Amount :=
  o.content.getBitcoinValue

structure SpentOutput where
  output : FilledOutput
  inpoint : InPoint
  deriving DecidableEq, Repr

/-- Mainchain transaction output of a withdrawal bundle. -/
structure TxOut where
  value : Amount
  scriptPubkey : List UInt8
  deriving DecidableEq, Repr

/-- The mainchain transaction of a bundle: the fee commitment, the commitment to
the spent outpoints and the block height, and the payouts. -/
structure BundleTx where
  fee : Amount
  inputsCommitment : Nat
  outputs : List TxOut
  deriving DecidableEq, Repr

structure WithdrawalBundle where
  spendUtxos : Table OutPoint FilledOutput
  tx : BundleTx
  deriving DecidableEq

inductive WithdrawalBundleInfo where
  | known (bundle : WithdrawalBundle)
  | unknown
  | unknownConfirmed (spendUtxos : Table OutPoint FilledOutput)
  deriving DecidableEq

inductive WithdrawalBundleStatus where
  | confirmed
  | dropped
  | failed
  | pending
  | submitted
  | submittedUnexpected
  deriving DecidableEq, Repr

instance : ToString WithdrawalBundleStatus where
  toString
    | .confirmed => "Confirmed"
    | .dropped => "Dropped"
    | .failed => "Failed"
    | .pending => "Pending"
    | .submitted => "Submitted"
    | .submittedUnexpected => "SubmittedUnexpected"

inductive WithdrawalBundleEventStatus where
  | confirmed
  | failed
  | submitted
  deriving DecidableEq, Repr

structure WithdrawalBundleEvent where
  m6id : M6id
  status : WithdrawalBundleEventStatus
  deriving DecidableEq, Repr

/-- A mainchain deposit; its outpoint is a mainchain outpoint. -/
structure Deposit where
  txid : Nat
  vout : Nat
  output : FilledOutput
  deriving DecidableEq, Repr

def Deposit.outpoint (d : Deposit) : OutPoint :=
  .deposit d.txid d.vout

inductive BlockEvent where
  | deposit (deposit : Deposit)
  | withdrawalBundle (event : WithdrawalBundleEvent)
  deriving DecidableEq, Repr

/-- Events of one mainchain block. -/
structure BlockInfo where
  blockHash : MainBlockHash
  events : List BlockEvent
  deriving DecidableEq, Repr

/-- Mainchain blocks seen by one sidechain block, oldest first. -/
structure TwoWayPegData where
  blockInfo : List BlockInfo
  deriving DecidableEq, Repr

/-- Coin movements that a block body does not carry. -/
structure BlockIndexEvents where
  deposits : List (OutPoint × FilledOutput)
  bundleSpends : List (OutPoint × M6id)
  deriving DecidableEq, Repr

def BlockIndexEvents.default : BlockIndexEvents := ⟨[], []⟩

def BlockIndexEvents.isEmpty (e : BlockIndexEvents) : Bool :=
  e.deposits.isEmpty && e.bundleSpends.isEmpty

/-- Errors of the state machine. `panic` stands for an arithmetic or assertion
failure that aborts the call. -/
inductive Error where
  | amountOverflow
  | amountUnderflow
  | authorizationError
  | badCoinbaseOutputContent
  | invalidScaled (reason : String)
  | invalidDecisionId (reason : String)
  | invalidDecisionState (reason : String)
  | invalidTransaction (reason : String)
  | invalidVoteValue (reason : String)
  | decisionAlreadyClaimed (decisionId : Nat)
  | decisionNotAvailable (decisionId : Nat) (reason : String)
  | timestampOutOfRange
  | bundleTooHeavy (weight maxWeight : Nat)
  | bodyTooLarge
  | databaseError (reason : String)
  | archive
  | fillTxOutputContents (txid : Txid)
  | invalidBody (expected computed : MerkleRoot)
  | invalidHeaderBlockHash (expected computed : BlockHash)
  | invalidHeaderPrevSideHash (expected received : Option BlockHash)
  | market (reason : String)
  | noDepositBlock
  | notEnoughFees
  | notEnoughValueIn
  | noTip
  | noStxo (outpoint : OutPoint)
  | noUtxo (outpoint : OutPoint)
  | spendWithdrawalOutput (outpoint : OutPoint)
  | noWithdrawalBundleEventBlock
  | unknownWithdrawalBundle (m6id : M6id)
  | unknownWithdrawalBundleConfirmed (eventBlockHash : MainBlockHash) (m6id : M6id)
  | unknownWithdrawalBundleReconfirmed (eventBlockHash : MainBlockHash)
      (m6id : M6id)
  | unexpectedWithdrawalBundleInsolvency (eventBlockHash : MainBlockHash)
      (m6id : M6id) (outpoint : OutPoint)
  | utxoDoubleSpent
  | duplicateDecisionClaim (decisionId : Nat)
  | withdrawalBundle (weight maxWeight : Nat)
  | wrongPubKeyForAddress
  | consensusConservationViolation
  | reputationAnchorViolation
  | panic
  deriving DecidableEq, Repr

end Truthcoin.Types
