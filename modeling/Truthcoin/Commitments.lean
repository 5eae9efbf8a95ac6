import Truthcoin.Blocks
import Truthcoin.TwoWayPeg

/-!
# What hashes commit to

The outpoints of a block are hashed from its transactions, its coinbase and the
trades it settles. The assumptions under which an outpoint names one output.
-/

namespace Truthcoin.Commitments

open Truthcoin.Types Truthcoin.Markets Truthcoin.Blocks

variable {F : Type}

/-- What the outpoint of a payout is hashed from. -/
inductive PayoutSource where
  | sellPayout (marketId : MarketId) (seller : Address) (txid : Txid)
  | buyChange (marketId : MarketId) (trader : Address) (txid : Txid)
  | sellInputChange (trader : Address) (txid : Txid)
  | sharePayout (marketId : MarketId) (shareholder : Address) (height sequence : Nat)
  deriving DecidableEq

/-- The address a payout is made to. -/
def PayoutSource.owner : PayoutSource → Address
  | .sellPayout _ seller _ => seller
  | .buyChange _ trader _ => trader
  | .sellInputChange trader _ => trader
  | .sharePayout _ shareholder _ _ => shareholder

def payoutHash (L : Library F) : PayoutSource → MerkleRoot
  | .sellPayout marketId seller txid => L.sellPayoutHash marketId seller txid
  | .buyChange marketId trader txid => L.buyChangeHash marketId trader txid
  | .sellInputChange trader txid => L.sellInputChangeHash trader txid
  | .sharePayout marketId shareholder height sequence =>
      L.sharePayoutHash marketId shareholder height sequence

/-- The content of an output as it is hashed: of a mainchain address only the script. -/
inductive WrittenContent where
  | bitcoin (value : Amount)
  | withdrawal (value mainFee : Amount) (scriptPubkey : List UInt8)
  | marketFunds (marketId : MarketId) (amount : Amount) (isFee : Bool)
  deriving DecidableEq

structure WrittenOutput where
  address : Address
  content : WrittenContent
  memo : List UInt8
  deriving DecidableEq

structure WrittenTransaction (F : Type) where
  inputs : List OutPoint
  outputs : List WrittenOutput
  memo : List UInt8
  data : Option (TxData F)

structure WrittenCoinbase where
  memo : List UInt8
  outputs : List WrittenOutput
  deriving DecidableEq

section

variable (scriptPubkey : MainAddress → List UInt8)

def writtenContent : Content → WrittenContent
  | .bitcoin value => .bitcoin value
  | .withdrawal w => .withdrawal w.value w.mainFee (scriptPubkey w.mainAddress)
  | .marketFunds marketId amount isFee => .marketFunds marketId amount isFee

def writtenOutput (output : Output) : WrittenOutput :=
  ⟨output.address, writtenContent scriptPubkey output.content, output.memo⟩

def writtenTransaction (tx : Transaction F) : WrittenTransaction F :=
  ⟨tx.inputs, tx.outputs.map (writtenOutput scriptPubkey), tx.memo, tx.data⟩

def writtenCoinbase (coinbase : Coinbase) : WrittenCoinbase :=
  ⟨coinbase.memo, coinbase.outputs.map (writtenOutput scriptPubkey)⟩

end

section

variable {scriptPubkey : MainAddress → List UInt8}

theorem written_of_getElem? {outputs outputs' : List Output} {vout : Nat}
    {output output' : Output}
    (h : outputs.map (writtenOutput scriptPubkey) = outputs'.map (writtenOutput scriptPubkey))
    (houtput : outputs[vout]? = some output) (houtput' : outputs'[vout]? = some output') :
    writtenOutput scriptPubkey output = writtenOutput scriptPubkey output' := by
  have hsame := congrArg (·[vout]?) h
  simpa only [List.getElem?_map, houtput, houtput', Option.map_some, Option.some.injEq] using hsame

variable {tx tx' : Transaction F}
  (h : writtenTransaction scriptPubkey tx = writtenTransaction scriptPubkey tx')

include h

theorem inputs_of_written : tx.inputs = tx'.inputs :=
  (WrittenTransaction.mk.inj h).1

theorem data_of_written : tx.data = tx'.data :=
  (WrittenTransaction.mk.inj h).2.2.2

theorem claimedIds_of_written : tx.claimedIds = tx'.claimedIds := by
  rw [Transaction.claimedIds, Transaction.claimedIds, Transaction.claimPayloads,
    Transaction.claimPayloads, data_of_written h]

theorem isTrade_of_written : tx.isTrade = tx'.isTrade := by
  rw [Transaction.isTrade, Transaction.isTrade, data_of_written h]

theorem outputs_of_written :
    tx.outputs.map (writtenOutput scriptPubkey) = tx'.outputs.map (writtenOutput scriptPubkey) :=
  (WrittenTransaction.mk.inj h).2.1

theorem length_outputs_of_written : tx.outputs.length = tx'.outputs.length := by
  simpa using congrArg List.length (outputs_of_written h)

end

/-- Transactions with one id are hashed alike. -/
def TxidBinds (L : Library F) : Prop :=
  ∀ {tx tx' : Transaction F}, L.txid tx = L.txid tx' →
    writtenTransaction L.scriptPubkey tx = writtenTransaction L.scriptPubkey tx'

/-- The hashes have no collisions: what they are equal for is written alike. The Merkle root of
a body repeats its last leaf, so it binds the coinbase and not the list of the transactions. -/
structure CollisionFree (L : Library F) : Prop where
  txid : TxidBinds L
  coinbaseTxid : Function.Injective L.coinbaseTxid
  merkleRoot : ∀ {coinbase coinbase' : Coinbase} {txs txs' : List (Transaction F)},
    L.merkleRoot coinbase txs = L.merkleRoot coinbase' txs' →
      writtenCoinbase L.scriptPubkey coinbase = writtenCoinbase L.scriptPubkey coinbase'
  payoutHash : Function.Injective (payoutHash L)

/-- The outputs of the mainchain that deposit to the sidechain, by their outpoints. -/
abbrev MainOutputs := Nat → Nat → FilledOutput

/-- Every deposit of the data is the mainchain's output at its outpoint. -/
def DepositsFrom (main : MainOutputs) (data : TwoWayPegData) : Prop :=
  ∀ info ∈ data.blockInfo, ∀ d, BlockEvent.deposit d ∈ info.events →
    d.output = main d.txid d.vout

end Truthcoin.Commitments
