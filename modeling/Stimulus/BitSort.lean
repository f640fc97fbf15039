/-!
# Sorts of bit vectors

Every expression has a sort: a truth value, or a vector of `width` bits that is read as an
unsigned or a signed number.  Two operands of different sorts meet in their common sort, which is
wide enough for both readings.

Main definitions:
- `BitSort`, `BitSort.width`, `BitSort.span`
- `BitSort.ofLiteral`: the smallest sort of an integer literal
- `BitSort.common`: the sort in which two operands are combined
-/

namespace Stimulus

/-! ## §1 The sorts -/

/-- A truth value, or a vector of bits that is read with or without a sign. -/
inductive BitSort where
  | bool
  | bits (width : Nat) (signed : Bool)
  deriving DecidableEq, Repr, Inhabited

namespace BitSort

/-- A vector of bits read as a natural number. -/
abbrev unsigned (width : Nat) : BitSort := .bits width false

/-- A vector of bits read in two's complement. -/
abbrev signed (width : Nat) : BitSort := .bits width true

/-- The number of bits; a truth value is one bit wide. -/
def width : BitSort → Nat
  | .bool => 1
  | .bits w _ => w

/-- Whether the top bit counts negatively. -/
def isSigned : BitSort → Bool
  | .bits _ true => true
  | _ => false

/-- Whether this is the sort of truth values. -/
def isBool : BitSort → Bool
  | .bool => true
  | _ => false

/-- The text of a sort: `bool`, or `u` or `i` with the width. -/
def text : BitSort → String
  | .bool => "bool"
  | .bits w true => "i" ++ toString w
  | .bits w false => "u" ++ toString w

/-! ## §2 Words -/

/-- Constants are stored in words of 64 bits, so the mask of a wider sort has all 64 bits. -/
def mask (s : BitSort) : Nat := 1 <<< min s.width 64 - 1

/-- The low bits of a stored constant that its sort keeps. -/
def truncate (s : BitSort) (bits : Nat) : Nat := (BitVec.ofNat (min s.width 64) bits).toNat

/-- Computed values live in words of 128 bits: the number of values that a sort can tell apart. -/
def span (s : BitSort) : Nat := 1 <<< min s.width 128

/-! ## §3 Literals -/

/-- The number of binary digits of a natural number, none for zero. -/
def bitLength (n : Nat) : Nat := if n = 0 then 0 else n.log2 + 1

/-- The smallest sort that holds a literal: unsigned when the literal is not negative. -/
def ofLiteral : Int → BitSort
  | .ofNat n => unsigned (max 1 (bitLength n))
  | .negSucc n => signed (bitLength n + 1)

/-! ## §4 The common sort -/

/-- Widths are 32-bit numbers: every width lies below this bound. -/
def widthLimit : Nat := 1 <<< 32

/-- The sort in which two operands are combined.  The wider width wins; a signed operand meets an
    unsigned one in a signed sort with one more bit than the unsigned operand has. -/
def common (a b : BitSort) : BitSort :=
  if a.isBool && b.isBool then .bool
  else if a.isSigned == b.isSigned then .bits (max a.width b.width) a.isSigned
  else if a.isSigned then signed (max a.width (b.width + 1))
  else signed (max b.width (a.width + 1))

/-- Whether the common sort asks for a bit beyond the widest admissible unsigned operand. -/
def meetOverflows (a b : BitSort) : Bool :=
  a.isSigned != b.isSigned &&
    widthLimit ≤ (if a.isSigned then b.width else a.width) + 1

/-! ## §5 Small facts -/

/-- Operands of one sort are combined in that sort. -/
theorem common_self (s : BitSort) : common s s = s := by
  cases s <;> simp [common, isBool, isSigned, width]
  split <;> simp_all

theorem span_pos (s : BitSort) : 0 < s.span := by
  rw [span, Nat.one_shiftLeft]
  exact Nat.two_pow_pos _

end BitSort

end Stimulus
