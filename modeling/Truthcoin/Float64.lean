import Mathlib

/-!
# Double-precision numbers

The operations on `f64` values, over an arbitrary type of numbers. Results
take what they need of the operations as a hypothesis, or are about rational numbers.
-/

namespace Truthcoin

/-- Operations on double-precision numbers. `ofRat q` is the number nearest to
`q`: the value of a literal, or of an integer cast with `as f64`. -/
class F64 (F : Type) where
  ofRat : Rat → F
  lt : F → F → Bool
  le : F → F → Bool
  eq : F → F → Bool
  add : F → F → F
  sub : F → F → F
  mul : F → F → F
  div : F → F → F
  abs : F → F
  max : F → F → F
  floor : F → F
  ceil : F → F
  round : F → F
  log : F → F
  isNan : F → Bool
  isFinite : F → Bool
  /-- `as u64`: truncation that saturates at both ends. -/
  toU64 : F → Nat
  /-- `as i64`: truncation that saturates at both ends. -/
  toI64 : F → Int
  /-- How an error shows the number. -/
  display : F → String

namespace F64

variable {F : Type} [F64 F]

/-- `u64 as f64`, and `usize as f64`. -/
def ofNat (n : Nat) : F := ofRat n

/-- `i64 as f64`. -/
def ofInt (n : Int) : F := ofRat n

def zero : F := ofRat 0

def one : F := ofRat 1

/-- Sum of an iterator, from the left. -/
def sum (xs : List F) : F :=
  xs.foldl add zero

end F64

/-- The first terms of the series of `ln x` in `(x - 1) / (x + 1)`. -/
def logSeries (x : Rat) : Rat :=
  let y := (x - 1) / (x + 1)
  2 * (y + y ^ 3 / 3 + y ^ 5 / 5 + y ^ 7 / 7)

/-- Half away from zero. -/
def roundRat (x : Rat) : Rat :=
  if x < 0 then -((-x + 1 / 2).floor : Rat) else ((x + 1 / 2).floor : Rat)

/-- Toward zero, within bounds. -/
def truncRat (low high : Int) (x : Rat) : Int :=
  max low (min high (if x < 0 then x.ceil else x.floor))

/-- Rational numbers in place of doubles, to run the model on examples. -/
instance : F64 Rat where
  ofRat := id
  lt a b := decide (a < b)
  le a b := decide (a ≤ b)
  eq a b := decide (a = b)
  add := (· + ·)
  sub := (· - ·)
  mul := (· * ·)
  div := (· / ·)
  abs x := if x < 0 then -x else x
  max a b := if a < b then b else a
  floor x := x.floor
  ceil x := x.ceil
  round := roundRat
  log := logSeries
  isNan _ := false
  isFinite _ := true
  toU64 x := (truncRat 0 (2 ^ 64 - 1) x).toNat
  toI64 := truncRat (-2 ^ 63) (2 ^ 63 - 1)
  display x := toString x

end Truthcoin
