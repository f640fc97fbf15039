import Stimulus.BitSort

/-!
# Scalar types

The types that a declared variable can have: truth values, and integers of 8, 16, 32 or 64 bits
with or without a sign.  A value is kept as a number; it crosses into solvers as raw bits.

Main definitions:
- `ScalarType`, `ScalarType.sort`, `ScalarType.ofSort?`
- `ScalarType.ofNumber`, `ScalarType.toBits`, `ScalarType.ofBits`
- `ScalarType.Contains`
-/

namespace Stimulus

/-- The sizes of integer types. -/
inductive IntSize where
  | bits8 | bits16 | bits32 | bits64
  deriving DecidableEq, Repr

/-- The number of bits of an integer type. -/
def IntSize.width : IntSize → Nat
  | .bits8 => 8
  | .bits16 => 16
  | .bits32 => 32
  | .bits64 => 64

/-- The size with a given number of bits. -/
def IntSize.ofWidth? : Nat → Option IntSize
  | 8 => some .bits8
  | 16 => some .bits16
  | 32 => some .bits32
  | 64 => some .bits64
  | _ => none

/-- The type of a declared variable. -/
inductive ScalarType where
  | bool
  | int (size : IntSize) (signed : Bool)
  deriving DecidableEq, Repr

namespace ScalarType

/-- The type of vector sizes. -/
abbrev size : ScalarType := .int .bits32 false

/-- The sort of variables of a type. -/
def sort : ScalarType → BitSort
  | .bool => .bool
  | .int size signed => .bits size.width signed

/-- The type whose variables have a given sort. -/
def ofSort? : BitSort → Option ScalarType
  | .bool => some .bool
  | .bits width signed => (IntSize.ofWidth? width).map (.int · signed)

/-- The least number of a type. -/
def least : ScalarType → Int
  | .bool => 0
  | .int _ false => 0
  | .int size true => (BitVec.intMin size.width).toInt

/-- The greatest number of a type. -/
def greatest : ScalarType → Int
  | .bool => 1
  | .int size false => (BitVec.allOnes size.width).toNat
  | .int size true => (BitVec.intMax size.width).toInt

/-- The numbers that a type holds. -/
def Contains (t : ScalarType) (n : Int) : Prop := t.least ≤ n ∧ n ≤ t.greatest

/-- The value that a number is converted to: integers wrap, and a truth value tells whether the
    number is not zero. -/
def ofNumber : ScalarType → Int → Int
  | .bool, n => if n = 0 then 0 else 1
  | .int size false, n => (BitVec.ofInt size.width n).toNat
  | .int size true, n => (BitVec.ofInt size.width n).toInt

/-- The bits of a value. -/
def toBits (t : ScalarType) (n : Int) : Nat := (BitVec.ofInt t.sort.width n).toNat

/-- The value that bits stand for; bits beyond the width do not count. -/
def ofBits : ScalarType → Nat → Int
  | .bool, bits => bits % 2
  | .int size false, bits => (BitVec.ofNat size.width bits).toNat
  | .int size true, bits => (BitVec.ofNat size.width bits).toInt

/-- The text of a value. -/
def valueText : ScalarType → Int → String
  | .bool, n => if n = 0 then "false" else "true"
  | .int _ _, n => toString n

end ScalarType

end Stimulus
