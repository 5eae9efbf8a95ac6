import Truthcoin.Commitments

/-!
# A library without collisions

The hashes are encodings as numbers, so the assumptions on hashes can be met. The
hash of a transaction is a parameter: a numbering of all transactions, or one that
can be evaluated on the transactions of an example.
-/

namespace Truthcoin.Commitments

open Truthcoin.Types Truthcoin.Arithmetic Truthcoin.Decisions Truthcoin.Markets
open Truthcoin.Voting Truthcoin.Blocks

instance encodableByte : Encodable UInt8 :=
  Encodable.ofLeftInjection UInt8.toNat (fun n => some (UInt8.ofNat n)) (by simp)

deriving instance Encodable for WithdrawalContent
deriving instance Encodable for Content
deriving instance Encodable for Output
deriving instance Encodable for Coinbase
deriving instance Encodable for PayoutSource

section

variable {F : Type} [F64 F]

/-- All decisions stay undecided and nobody's reputation changes. -/
def sampleConsensus (matrix : SparseVoteMatrix F) (reputations : Table Address F)
    (_ : List DecisionId) (_ : List (DecisionId × Nat)) :
    Option (DetailedConsensusResult F) :=
  let half := F64.ofRat (1 / 2)
  some ⟨matrix.decisions.map fun d => (d, some half), [], half, reputations, []⟩

def sampleLibrary (txid : Transaction F → Txid) : Library F where
  txid := txid
  headerHash header :=
    Encodable.encode (header.merkleRoot, header.prevSideHash, header.prevMainHash)
  coinbaseTxid header :=
    Encodable.encode (header.merkleRoot, header.prevMainHash, header.prevSideHash)
  merkleRoot coinbase txs := Encodable.encode (coinbase, txs.map txid)
  bodySize _ := some 1000
  getAddress authorization := authorization.verifyingKey
  scriptPubkey address := [UInt8.ofNat address]
  verifyBody _ := true
  computeMarketId title description creator specs :=
    Encodable.encode (title.length, description.length, creator, specs.length)
  marketTreasuryAddress marketId := 2 * marketId
  marketAuthorFeeAddress marketId := 2 * marketId + 1
  sellPayoutHash marketId seller txid :=
    Encodable.encode (PayoutSource.sellPayout marketId seller txid)
  buyChangeHash marketId trader txid :=
    Encodable.encode (PayoutSource.buyChange marketId trader txid)
  sellInputChangeHash trader txid :=
    Encodable.encode (PayoutSource.sellInputChange trader txid)
  sharePayoutHash marketId shareholder height sequence :=
    Encodable.encode (PayoutSource.sharePayout marketId shareholder height sequence)
  -- the price of a share in a market without trades
  updateCost old new _ :=
    some (F64.ofRat
      (((new.map Subtype.val).sum - (old.map Subtype.val).sum : Int) / (old.length : Rat)))
  calculateConsensus := sampleConsensus
  verifyTradePow _ _ _ := true
  order := id
  order_perm := List.Perm.refl

theorem collisionFree_sampleLibrary {txid : Transaction F → Txid}
    (h : Function.Injective txid) : CollisionFree (sampleLibrary txid) where
  txid heq := by rw [h heq]
  coinbaseTxid := by
    rintro ⟨root, side, main⟩ ⟨root', side', main'⟩ heq
    obtain ⟨rfl, rfl, rfl⟩ := by simpa [sampleLibrary] using heq
    rfl
  merkleRoot heq := by
    have hpair := Encodable.encode_injective heq
    rw [(Prod.mk.inj hpair).1]
  payoutHash := by
    have hencode : payoutHash (sampleLibrary txid) = Encodable.encode := by
      funext source
      cases source <;> rfl
    rw [hencode]
    exact Encodable.encode_injective

end

/-- The archive that knows no block. -/
def emptyArchive : Archive := ⟨fun _ => none, fun _ _ => false⟩

def sampleBundleLib : WithdrawalBundle.BundleLib :=
  ⟨fun _ => [], fun _ => 0, fun _ => 0, fun _ => 0⟩

/-- A block on a previous one, with the transactions, the actor proofs of none of them
and the authorizations of the given addresses. -/
def sampleBlock {F : Type} (L : Library F) (prev : Option Header) (coinbase : Coinbase)
    (txs : List (Transaction F)) (signers : List Address) (timestamp : Nat) : Block F :=
  ⟨⟨L.merkleRoot coinbase txs, prev.map L.headerHash, 0⟩,
    ⟨coinbase, txs, signers.map fun a => ⟨a, 0⟩, txs.map fun _ => none⟩, timestamp⟩

instance countableChar : Countable Char :=
  Function.Injective.countable (f := Char.toNat) fun _ _ => Char.toNat_inj.mp

instance countableString : Countable String :=
  Function.Injective.countable (f := String.toList) fun _ _ => String.toList_injective

instance countableI64 : Countable I64 :=
  Function.Injective.countable (f := Subtype.val) Subtype.val_injective

instance countableDecisionId : Countable DecisionId :=
  Function.Injective.countable (f := BitVec.toNat) fun _ _ => BitVec.eq_of_toNat_eq

deriving instance Countable for OutPoint
deriving instance Countable for DecisionClaimEntry
deriving instance Countable for DecisionType
deriving instance Countable for ClaimDecisionPayload
deriving instance Countable for DimensionSpec
deriving instance Countable for MarketCreation
deriving instance Countable for Trade
deriving instance Countable for SubmitVote
deriving instance Countable for BallotItem
deriving instance Countable for SubmitBallot
deriving instance Countable for TransferReputation
deriving instance Countable for AmplifyBeta
deriving instance Countable for TxData
deriving instance Countable for Transaction

noncomputable def numbering {F : Type} [Countable F] : Transaction F → Txid :=
  (exists_injective_nat (Transaction F)).choose

theorem numbering_injective {F : Type} [Countable F] :
    Function.Injective (numbering : Transaction F → Txid) :=
  (exists_injective_nat (Transaction F)).choose_spec

end Truthcoin.Commitments
