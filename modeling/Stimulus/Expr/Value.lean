import Stimulus.Expr.Basic

/-!
# The value of an expression

Operands are resized to their common sort, arithmetic wraps at the width of the result, division by
zero answers all ones and leaves the dividend as remainder, and a right shift of a signed operand
keeps its sign.  Values are words of at most 128 bits; a wider sort keeps its low 128 bits.

Main definitions:
- `Value`, `Value.number`, `Value.resize`
- `UnaryOp.apply`, `BinaryOp.apply`
- `Expr.eval`
-/

namespace Stimulus

/-! ## §1 Values -/

/-- A word together with the sort that says how to read it. -/
structure Value where
  bits : Nat
  sort : BitSort
  deriving DecidableEq, Repr

namespace Value

/-- The value of a given sort whose low bits are those of an integer in two's complement. -/
def wrap (n : Int) (s : BitSort) : Value := ⟨(n % s.span).toNat, s⟩

/-- A truth value. -/
def truth (b : Bool) : Value := ⟨b.toNat, .bool⟩

/-- Whether any bit is set. -/
def isTrue (v : Value) : Bool := v.bits ≠ 0

/-- The low 64 bits. -/
def low64 (v : Value) : Nat := v.bits.toUInt64.toNat

/-- The word read in two's complement at the width of its sort. -/
def twosComplement (v : Value) : Int := Int.bmod v.bits v.sort.span

/-- The integer that a value stands for, read with the sign of its sort.  An unsigned word that
    fills all 128 bits is read as a signed one. -/
def number (v : Value) : Int :=
  -- Below 128 bits the top bit of the machine word is zero, so nothing is negative.
  if v.sort.isSigned then v.twosComplement else (BitVec.ofNat 128 v.bits).toInt

/-- The value in another sort: signed values are extended with their sign, unsigned ones with
    zeros, and what the new sort cannot hold is dropped. -/
def resize (v : Value) (s : BitSort) : Value :=
  if v.sort.isSigned then wrap v.twosComplement s else wrap v.bits s

end Value

/-! ## §2 Operators -/

/-- An operator applied to one value. -/
def UnaryOp.apply (op : UnaryOp) (a : Value) : Value :=
  match op with
  | .not => .truth (!a.isTrue)
  | .neg => .wrap (-a.bits) a.sort
  | .complement => .wrap (-a.bits - 1) a.sort

/-- The sort in which two values are combined, provided that its width is admissible. -/
def BitSort.meet (a b : BitSort) : Except Fault BitSort :=
  if a.meetOverflows b then .error .overflow else .ok (a.common b)

/-- The quotient of two integers of a signed sort, rounded towards zero.  Division by zero answers
    all ones after the sign of the dividend. -/
def signedQuotient (x y : Int) : Int :=
  if y = 0 then (if 0 ≤ x then -1 else 1) else x.tdiv y

/-- The remainder that belongs to `signedQuotient`. -/
def signedRemainder (x y : Int) : Int := if y = 0 then x else x.tmod y

/-- A shift of a word by 128 places or more has no result. -/
def shiftable (amount : Nat) : Except Fault Nat :=
  if amount < 128 then .ok amount else .error .overflow

/-- A left shift.  An amount at or above the width shifts everything out. -/
def shiftLeft (a : Value) (amount : Nat) (s : BitSort) : Except Fault Value :=
  if s.width ≤ amount then .ok (Value.wrap 0 s)
  else do return Value.wrap (a.bits <<< (← shiftable amount) : Nat) s

/-- A right shift, which fills with the sign of a signed sort and with zeros otherwise. -/
def shiftRight (a : Value) (amount : Nat) (s : BitSort) : Except Fault Value :=
  if s.isSigned then
    -- There is no sign bit to fill with.
    if s.width = 0 then .error .overflow
    else do
      let amount ← shiftable (min amount (s.width - 1))
      return Value.wrap (a.twosComplement >>> amount) s
  else if s.width ≤ amount then .ok (Value.wrap 0 s)
  else do return Value.wrap (a.bits >>> (← shiftable amount) : Nat) s

namespace BinaryOp

/-- The operators that combine two integers of one sort, given as bits and as numbers. -/
def onIntegers (op : BinaryOp) (x y : Value) (s : BitSort) : Value :=
  let signed := x.sort.isSigned
  let m := x.twosComplement
  let n := y.twosComplement
  let less (x y : Value) : Bool :=
    if signed then x.twosComplement < y.twosComplement else x.bits < y.bits
  match op with
  | .equal => .truth (x.bits == y.bits)
  | .notEqual => .truth (x.bits != y.bits)
  | .less => .truth (less x y)
  | .lessEqual => .truth (!less y x)
  | .greater => .truth (less y x)
  | .greaterEqual => .truth (!less x y)
  | .add => .wrap (x.bits + y.bits : Nat) s
  | .sub => .wrap ((x.bits : Int) - y.bits) s
  | .mul => .wrap (x.bits * y.bits : Nat) s
  | .bitAnd => .wrap (x.bits &&& y.bits : Nat) s
  | .bitOr => .wrap (x.bits ||| y.bits : Nat) s
  | .bitXor => .wrap (x.bits ^^^ y.bits : Nat) s
  | .div =>
      if signed then .wrap (signedQuotient m n) s
      else .wrap (if y.bits = 0 then -1 else (x.bits / y.bits : Nat)) s
  | .rem =>
      if signed then .wrap (signedRemainder m n) s
      else .wrap (x.bits % y.bits : Nat) s
  | .and | .or | .shl | .shr => .wrap 0 s

/-- An operator applied to two values; `s` is the sort of the result. -/
def apply (op : BinaryOp) (a b : Value) (s : BitSort) : Except Fault Value := do
  -- Also operators that need no common sort are refused when there is none.
  let common ← a.sort.meet b.sort
  match op with
  | .and => return .truth (a.isTrue && b.isTrue)
  | .or => return .truth (a.isTrue || b.isTrue)
  | .shl => shiftLeft a b.bits s
  | .shr => shiftRight a b.bits s
  | op => return op.onIntegers (a.resize common) (b.resize common) s

end BinaryOp

/-! ## §3 Evaluation -/

/-- Whether a value equals one of the integers of a set, searched from the left. -/
def Value.isAmong (a : Value) : List Int → Except Fault Bool
  | [] => .ok false
  | c :: rest => do
      let c := Value.wrap c (BitSort.ofLiteral c)
      let common ← a.sort.meet c.sort
      if a.resize common = c.resize common then return true
      a.isAmong rest

/-- Evaluation has no answer when a variable is unbound or a part needs a vector. -/
abbrev Evaluation : Type → Type := OptionT (Except Fault)

namespace Expr

/-- The value of an expression under an assignment of bits to variables. -/
def eval (env : Nat → Option Nat) : Expr → Evaluation Value
  | .var id s => do
      let some bits := env id | failure
      return .wrap bits s
  | .const bits s => return .wrap bits s
  | .placeholder _ => failure
  | .vector _ _ => failure
  | .element _ _ => failure
  | .forEach _ _ _ => failure
  | .unique _ => failure
  | .unary op arg => return op.apply (← eval env arg)
  | .inside arg set => do
      let a ← eval env arg
      return .truth (← a.isAmong set)
  | .extend arg extra => do
      let a ← eval env arg
      return a.resize (Expr.extend arg extra).sort
  | .slice arg hi lo => do
      let a ← eval env arg
      return .wrap (a.bits >>> (← shiftable lo) : Nat) (Expr.slice arg hi lo).sort
  | .ite cond yes no => do
      let c ← eval env cond
      -- Only the branch that is taken has to have a value.
      let v ← if c.isTrue then eval env yes else eval env no
      return v.resize (Expr.ite cond yes no).sort
  | .binary op lhs rhs => do
      let a ← eval env lhs
      let b ← eval env rhs
      op.apply a b (Expr.binary op lhs rhs).sort

/-- A variable has the bits that it is assigned. -/
theorem eval_var {env : Nat → Option Nat} {id bits : Nat} {s : BitSort} (h : env id = some bits) :
    eval env (.var id s) = pure (.wrap bits s) := by
  rw [eval, h]

end Expr

end Stimulus
