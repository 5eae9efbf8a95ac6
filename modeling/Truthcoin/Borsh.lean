import Mathlib

/-!
# Codecs of byte strings

A codec writes a value as bytes and reads it from the front of a byte string. It carries the
law that it reads back what it wrote, whatever follows. So no encoding is the start of another
one, and values can be written one behind the other.
-/

namespace Truthcoin.Borsh

structure Codec (α : Type) where
  serialize : α → List UInt8
  deserialize : List UInt8 → Option (α × List UInt8)
  round_trip : ∀ a rest, deserialize (serialize a ++ rest) = some (a, rest)

namespace Codec

variable {α β : Type}

/-- Write two values one behind the other. -/
def prod (c : Codec α) (d : Codec β) : Codec (α × β) where
  serialize p := c.serialize p.1 ++ d.serialize p.2
  deserialize bytes := do
    let (a, bytes) ← c.deserialize bytes
    let (b, bytes) ← d.deserialize bytes
    some ((a, b), bytes)
  round_trip := by
    rintro ⟨a, b⟩ rest
    rw [List.append_assoc, c.round_trip, Option.bind_eq_bind, Option.bind_some]
    dsimp only
    rw [d.round_trip]
    rfl

/-- Read the values of one type as those of another. -/
def map (c : Codec α) (f : α → β) (g : β → α) (h : ∀ b, f (g b) = b) : Codec β where
  serialize b := c.serialize (g b)
  deserialize bytes := (c.deserialize bytes).map fun p => (f p.1, p.2)
  round_trip := by
    intro b rest
    rw [c.round_trip, Option.map_some, h]

@[simp]
theorem length_prod (c : Codec α) (d : Codec β) (p : α × β) :
    ((c.prod d).serialize p).length = (c.serialize p.1).length + (d.serialize p.2).length :=
  List.length_append

@[simp]
theorem length_map (c : Codec α) (f : α → β) (g : β → α) (h : ∀ b, f (g b) = b) (b : β) :
    ((c.map f g h).serialize b).length = (c.serialize (g b)).length :=
  rfl

def u8 : Codec UInt8 where
  serialize b := [b]
  deserialize
    | [] => none
    | b :: rest => some (b, rest)
  round_trip _ _ := rfl

/-- A fixed number of bytes. -/
def array (n : ℕ) : Codec (Vector UInt8 n) where
  serialize v := v.toList
  deserialize bytes :=
    if h : n ≤ bytes.length then
      some (⟨(bytes.take n).toArray, by simp [h]⟩, bytes.drop n)
    else none
  round_trip := by
    intro v rest
    have hlength : v.toList.length = n := Vector.length_toList
    rw [dif_pos (by rw [List.length_append, hlength]; exact Nat.le_add_right n _)]
    congr 2
    · apply Vector.toList_inj.mp
      simp [List.take_left' hlength]
    · exact List.drop_left' hlength

/-- One byte that is zero or one. -/
def bool : Codec Bool where
  serialize b := [if b then 1 else 0]
  deserialize
    | [] => none
    | b :: rest => if b = 0 then some (false, rest) else if b = 1 then some (true, rest) else none
  round_trip := by
    intro b rest
    cases b
    · rfl
    · rfl

@[simp]
theorem length_u8 (b : UInt8) : (u8.serialize b).length = 1 :=
  rfl

@[simp]
theorem length_array {n : ℕ} (v : Vector UInt8 n) : ((array n).serialize v).length = n :=
  Vector.length_toList

@[simp]
theorem length_bool (b : Bool) : (bool.serialize b).length = 1 :=
  rfl

/-- The bytes of a number, the lowest first. -/
def toLeBytes : ℕ → ℕ → List UInt8
  | 0, _ => []
  | width + 1, n => UInt8.ofNat n :: toLeBytes width (n / 256)

def ofLeBytes : List UInt8 → ℕ
  | [] => 0
  | b :: bytes => b.toNat + 256 * ofLeBytes bytes

theorem length_toLeBytes (width n : ℕ) : (toLeBytes width n).length = width := by
  induction width generalizing n with
  | zero => rfl
  | succ width ih => rw [toLeBytes, List.length_cons, ih]

theorem ofLeBytes_toLeBytes {width n : ℕ} (h : n < 256 ^ width) :
    ofLeBytes (toLeBytes width n) = n := by
  induction width generalizing n with
  | zero =>
      rw [pow_zero] at h
      rw [toLeBytes, ofLeBytes]
      omega
  | succ width ih =>
      rw [pow_succ] at h
      rw [toLeBytes, ofLeBytes, ih (Nat.div_lt_of_lt_mul (by rwa [mul_comm] at h)),
        UInt8.toNat_ofNat']
      exact Nat.mod_add_div n 256

theorem ofLeBytes_inj {bytes bytes' : List UInt8} (hlength : bytes.length = bytes'.length)
    (h : ofLeBytes bytes = ofLeBytes bytes') : bytes = bytes' := by
  induction bytes generalizing bytes' with
  | nil => exact (List.eq_nil_of_length_eq_zero hlength.symm).symm
  | cons b bytes ih =>
      cases bytes' with
      | nil => cases hlength
      | cons b' bytes' =>
          have hb := b.toNat_lt
          have hb' := b'.toNat_lt
          rw [ofLeBytes, ofLeBytes] at h
          have hfirst : b = b' := UInt8.toNat_inj.mp (by omega)
          rw [hfirst, ih (Nat.succ.inj hlength) (by omega)]

/-- A 32-bit number in four bytes. -/
def u32 : Codec UInt32 :=
  (array 4).map (fun v => UInt32.ofNat (ofLeBytes v.toList))
    (fun n => ⟨(toLeBytes 4 n.toNat).toArray, by simp [length_toLeBytes]⟩)
    (by
      intro n
      have hlt : n.toNat < 256 ^ 4 := n.toNat_lt
      apply UInt32.toNat_inj.mp
      simp [ofLeBytes_toLeBytes hlt])

@[simp]
theorem length_u32 (n : UInt32) : (u32.serialize n).length = 4 := by
  rw [u32, length_map, length_array]

end Codec

/-- Bytes written over those at a position. -/
def overwrite (buffer : List UInt8) (position : ℕ) (bytes : List UInt8) : List UInt8 :=
  buffer.take position ++ bytes ++ buffer.drop (position + bytes.length)

theorem length_overwrite {buffer bytes : List UInt8} {position : ℕ}
    (h : position + bytes.length ≤ buffer.length) :
    (overwrite buffer position bytes).length = buffer.length := by
  rw [overwrite, List.length_append, List.length_append, List.length_take, List.length_drop]
  omega

/-- A buffer and the place where the next bytes go. -/
@[ext]
structure Cursor (n : ℕ) where
  buffer : Vector UInt8 n
  position : ℕ

namespace Cursor

variable {n : ℕ}

/-- Nothing is written past the end of the buffer. -/
def writeAll (c : Cursor n) (bytes : List UInt8) : Option (Cursor n) :=
  if h : c.position + bytes.length ≤ n then
    some {
      buffer := ⟨(overwrite c.buffer.toList c.position bytes).toArray, by
        rw [List.size_toArray, length_overwrite (by simpa using h), Vector.length_toList]⟩
      position := c.position + bytes.length }
  else none

def zeros (n : ℕ) : Cursor n :=
  ⟨Vector.replicate n 0, 0⟩

theorem writeAll_zeros {bytes : List UInt8} (h : bytes.length ≤ n) :
    ∃ c, (zeros n).writeAll bytes = some c ∧ c.position = bytes.length ∧
      c.buffer.toList = bytes ++ List.replicate (n - bytes.length) 0 := by
  have hfits : (zeros n).position + bytes.length ≤ n := by
    rw [zeros, Nat.zero_add]
    exact h
  rw [writeAll, dif_pos hfits]
  refine ⟨_, rfl, Nat.zero_add _, ?_⟩
  simp [zeros, overwrite]

end Cursor

end Truthcoin.Borsh
