import Truthcoin.Borsh
import Truthcoin.Fallible
import Truthcoin.Types

/-!
# Keys of outpoints

An outpoint is stored under a key of a fixed width: its encoding, with zeros behind it where
it is shorter than the key. A key is decoded without its length, from the front.
-/

namespace Truthcoin.OutPointKeys

open Truthcoin.Borsh Truthcoin.Fallible
open Truthcoin.Types (Error)

abbrev Hash := Vector UInt8 32

/-- An outpoint with the bytes of its hashes. -/
inductive OutPoint where
  | regular (txid : Hash) (vout : UInt32)
  | coinbase (txid : Hash) (vout : UInt32)
  | deposit (txid : Hash) (vout : UInt32)
  | marketFunds (marketId : Vector UInt8 6) (blockHeight : UInt32) (isFee : Bool)
  | payout (hash : Hash) (vout : UInt32)
  deriving DecidableEq

/-- A hash and an index. -/
def indexed : Codec (Hash × UInt32) :=
  (Codec.array 32).prod Codec.u32

def funds : Codec (Vector UInt8 6 × UInt32 × Bool) :=
  (Codec.array 6).prod (Codec.u32.prod Codec.bool)

/-- The variant and the fields, in the order of their declaration. -/
def serialize : OutPoint → List UInt8
  | .regular txid vout => 0 :: indexed.serialize (txid, vout)
  | .coinbase txid vout => 1 :: indexed.serialize (txid, vout)
  | .deposit txid vout => 2 :: indexed.serialize (txid, vout)
  | .marketFunds marketId blockHeight isFee => 3 :: funds.serialize (marketId, blockHeight, isFee)
  | .payout hash vout => 4 :: indexed.serialize (hash, vout)

def deserializeReader (bytes : List UInt8) : Option (OutPoint × List UInt8) := do
  let (variant, bytes) ← Codec.u8.deserialize bytes
  match variant with
  | 0 =>
      let ((txid, vout), bytes) ← indexed.deserialize bytes
      some (.regular txid vout, bytes)
  | 1 =>
      let ((txid, vout), bytes) ← indexed.deserialize bytes
      some (.coinbase txid vout, bytes)
  | 2 =>
      let ((txid, vout), bytes) ← indexed.deserialize bytes
      some (.deposit txid vout, bytes)
  | 3 =>
      let ((marketId, blockHeight, isFee), bytes) ← funds.deserialize bytes
      some (.marketFunds marketId blockHeight isFee, bytes)
  | 4 =>
      let ((hash, vout), bytes) ← indexed.deserialize bytes
      some (.payout hash vout, bytes)
  | _ => none

def outPointCodec : Codec OutPoint where
  serialize := serialize
  deserialize := deserializeReader
  round_trip := by
    intro op rest
    cases op with
    | regular txid vout | coinbase txid vout | deposit txid vout | payout hash vout =>
        simp [deserializeReader, serialize, Codec.u8, indexed.round_trip]
    | marketFunds marketId blockHeight isFee =>
        simp [deserializeReader, serialize, Codec.u8, funds.round_trip]

def outPointKeySize : Nat := 37

structure OutPointKey where
  bytes : Vector UInt8 outPointKeySize
  deriving DecidableEq

/-- Why bytes from the database are refused; the first reason has a text. -/
inductive BoxedError where
  | message (text : String)
  | borsh
  deriving DecidableEq

namespace OutPointKey

def fromOutpoint (op : OutPoint) : Except Error OutPointKey := do
  let cursor ← okOr ((Cursor.zeros outPointKeySize).writeAll (outPointCodec.serialize op)) .panic
  ensure (cursor.position ≤ outPointKeySize) .panic
  .ok ⟨cursor.buffer⟩

def toOutpoint (key : OutPointKey) : Except Error OutPoint := do
  let (op, _) ← okOr (outPointCodec.deserialize key.bytes.toList) .panic
  .ok op

/-- A key from the database has the right size and can be decoded. -/
def bytesDecode (bytes : List UInt8) : Except BoxedError OutPointKey :=
  if h : bytes.length = outPointKeySize then do
    let _ ← okOr (outPointCodec.deserialize bytes) .borsh
    .ok ⟨⟨bytes.toArray, h⟩⟩
  else .error (.message "OutPointKey must be exactly 37 bytes")

variable {op op' : OutPoint} {key : OutPointKey}

theorem length_serialize_le (op : OutPoint) :
    (outPointCodec.serialize op).length ≤ outPointKeySize := by
  cases op <;> simp [outPointCodec, serialize, indexed, funds, outPointKeySize]

theorem fromOutpoint_eq_ok_iff :
    fromOutpoint op = .ok key ↔
      key.bytes.toList = outPointCodec.serialize op ++
        List.replicate (outPointKeySize - (outPointCodec.serialize op).length) 0 := by
  have hle := length_serialize_le op
  obtain ⟨cursor, hcursor, hposition, hbuffer⟩ := Cursor.writeAll_zeros hle
  have hfits : cursor.position ≤ outPointKeySize := hposition.trans_le hle
  rw [fromOutpoint, hcursor, okOr, ok_bind, ensure_pos hfits, ok_bind, Except.ok.injEq, ← hbuffer,
    Vector.toList_inj]
  constructor
  · rintro rfl
    rfl
  · intro h
    rw [← h]

theorem exists_fromOutpoint (op : OutPoint) : ∃ key, fromOutpoint op = .ok key := by
  obtain ⟨cursor, -, -, hbuffer⟩ := Cursor.writeAll_zeros (length_serialize_le op)
  exact ⟨⟨cursor.buffer⟩, fromOutpoint_eq_ok_iff.mpr hbuffer⟩

theorem deserialize_fromOutpoint (h : fromOutpoint op = .ok key) :
    ∃ rest, outPointCodec.deserialize key.bytes.toList = some (op, rest) := by
  rw [fromOutpoint_eq_ok_iff.mp h]
  exact ⟨_, outPointCodec.round_trip op _⟩

theorem toOutpoint_fromOutpoint (h : fromOutpoint op = .ok key) : key.toOutpoint = .ok op := by
  obtain ⟨rest, hrest⟩ := deserialize_fromOutpoint h
  rw [toOutpoint, hrest]
  rfl

theorem bytesDecode_fromOutpoint (h : fromOutpoint op = .ok key) :
    bytesDecode key.bytes.toList = .ok key := by
  obtain ⟨rest, hrest⟩ := deserialize_fromOutpoint h
  rw [bytesDecode, dif_pos Vector.length_toList, hrest]
  rfl

theorem exists_toOutpoint {bytes : List UInt8} (h : bytesDecode bytes = .ok key) :
    ∃ op, key.toOutpoint = .ok op := by
  unfold bytesDecode at h
  split at h
  · obtain ⟨⟨op, rest⟩, hread, hkey⟩ := bind_eq_ok_iff.mp h
    obtain rfl := Except.ok.inj hkey
    refine ⟨op, bind_eq_ok_iff.mpr ⟨(op, rest), ?_, rfl⟩⟩
    rw [okOr_eq_ok_iff] at hread ⊢
    exact hread
  · cases h

theorem fromOutpoint_injective (h : fromOutpoint op = fromOutpoint op') : op = op' := by
  obtain ⟨key, hkey⟩ := exists_fromOutpoint op
  have hop := toOutpoint_fromOutpoint hkey
  rw [toOutpoint_fromOutpoint (h.symm.trans hkey)] at hop
  exact (Except.ok.inj hop).symm

/-- Every outpoint fits into a key, which gives the outpoint back; different outpoints have
different keys; and the bytes of a key decode to a key whose outpoint is encoded by the same
bytes. -/
theorem outPointKey_round_trip :
    (∀ op, (outPointCodec.serialize op).length ≤ outPointKeySize ∧
      ∃ key, fromOutpoint op = .ok key ∧ key.toOutpoint = .ok op) ∧
    (∀ op op', op ≠ op' → fromOutpoint op ≠ fromOutpoint op') ∧
    ∀ op key, fromOutpoint op = .ok key →
      ∃ key' op', bytesDecode key.bytes.toList = .ok key' ∧ key'.toOutpoint = .ok op' ∧
        fromOutpoint op' = .ok key := by
  refine ⟨?_, ?_, ?_⟩
  · intro op
    obtain ⟨key, hkey⟩ := exists_fromOutpoint op
    exact ⟨length_serialize_le op, key, hkey, toOutpoint_fromOutpoint hkey⟩
  · exact fun op op' hne heq => hne (fromOutpoint_injective heq)
  · intro op key hkey
    exact ⟨key, op, bytesDecode_fromOutpoint hkey, toOutpoint_fromOutpoint hkey, hkey⟩

end OutPointKey

/-- The outpoint with its hashes as numbers. -/
def OutPoint.toTypes : OutPoint → Types.OutPoint
  | .regular txid vout => .regular (Codec.ofLeBytes txid.toList) vout.toNat
  | .coinbase txid vout => .coinbase (Codec.ofLeBytes txid.toList) vout.toNat
  | .deposit txid vout => .deposit (Codec.ofLeBytes txid.toList) vout.toNat
  | .marketFunds marketId blockHeight isFee =>
      .marketFunds (Codec.ofLeBytes marketId.toList) blockHeight.toNat isFee
  | .payout hash vout => .payout (Codec.ofLeBytes hash.toList) vout.toNat

theorem ofLeBytes_vector_inj {n : Nat} {v w : Vector UInt8 n} :
    Codec.ofLeBytes v.toList = Codec.ofLeBytes w.toList ↔ v = w := by
  constructor
  · intro h
    have hlength : v.toList.length = w.toList.length := by
      rw [Vector.length_toList, Vector.length_toList]
    exact Vector.toList_inj.mp (Codec.ofLeBytes_inj hlength h)
  · rintro rfl
    rfl

theorem OutPoint.toTypes_injective : Function.Injective OutPoint.toTypes := by
  intro op op' h
  cases op <;> cases op' <;>
    simp_all [OutPoint.toTypes, ofLeBytes_vector_inj, UInt32.toNat_inj]

theorem fromOutpoint_eq_iff {op op' : OutPoint} :
    OutPointKey.fromOutpoint op = OutPointKey.fromOutpoint op' ↔ op.toTypes = op'.toTypes := by
  rw [OutPoint.toTypes_injective.eq_iff]
  exact ⟨OutPointKey.fromOutpoint_injective, congrArg _⟩

end Truthcoin.OutPointKeys
