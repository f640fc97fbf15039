import Stimulus.Circuit.Word
import Stimulus.Expr.Value
import Std.Data.TreeMap

/-!
# Encoding expressions as circuits

Every expression becomes a word of Boolean functions over diagram variables.  Each variable gets a
slot when it is first met.  Bits of equal weight of all variables stand next to each other in the
order of diagram variables, the most significant bits first.

Main definitions:
- `bitVariable`: the diagram variable of a bit
- `Encoding`, `Encoding.empty`
- `Expr.encode`, `Expr.encodeTruth`
- `Encoding.variableBits`
-/

namespace Stimulus

/-! ## §1 Slots and bits -/

/-- The number of variables that one encoding can hold. -/
def slotLimit : Nat := 1 <<< 16

/-- The diagram variable that holds a bit of the variable in a slot. -/
def bitVariable (slot bit : Nat) : Except Fault Nat :=
  if 64 ≤ bit then .error .variableTooWide
  else
    -- A more significant bit is tested earlier, whichever variable it belongs to.
    let v := 1 + (63 - bit) * slotLimit + slot
    if 1 <<< 32 ≤ v then .error .overflow else .ok v

/-- The diagram variables of the low `width` bits of a slot, the least significant bit first.  The
    first bit that is too many settles the matter, so none beyond it is asked for. -/
def bitVariables (slot width : Nat) : Except Fault (List Nat) :=
  (List.range (min width 65)).mapM (bitVariable slot)

/-- A manager, the slots given to variables, and the diagram variables in use. -/
structure Encoding where
  manager : Manager
  slots : Std.TreeMap Nat Nat
  domain : Std.TreeSet Nat

/-- A computation that encodes expressions. -/
abbrev Encode : Type → Type := Request Encoding

namespace Encoding

/-- An encoding that holds no variable. -/
def empty (bits : Nat) : Except Fault Encoding := do return ⟨← Manager.empty bits, ∅, ∅⟩

/-- Store nodes in the manager of an encoding. -/
def build {α : Type} (act : Build α) : Encode α := fun s =>
  let ⟨manager, slots, domain⟩ := s
  match act manager with
  | .error fault => .error fault
  | .ok (a, manager) => .ok (.ok a, ⟨manager, slots, domain⟩)

/-- The slot of a variable, which is a new one for a variable not met before. -/
def slotOf (id : Nat) : Encode Nat := fun s =>
  let ⟨manager, slots, domain⟩ := s
  -- A full table refuses the variables that it holds as well.
  if slotLimit ≤ slots.size then .error .noSlotLeft
  else
    match slots[id]? with
    | some slot => .ok (.ok slot, ⟨manager, slots, domain⟩)
    | none =>
      let slot := slots.size
      .ok (.ok slot, ⟨manager, slots.insert id slot, domain⟩)

/-- Bring diagram variables into use. -/
def use (vars : List Nat) : Encode Unit := fun s =>
  let ⟨manager, slots, domain⟩ := s
  .ok (.ok (), ⟨manager, slots, vars.foldl (·.insert ·) domain⟩)

/-- The diagram variables of a variable that has a slot. -/
def variableBits (s : Encoding) (id : Nat) (sort : BitSort) : Except Fault (Option (List Nat)) :=
  match s.slots[id]? with
  | none => .ok none
  | some slot => do return some (← bitVariables slot sort.width)

/-- The diagram variables in use, in ascending order. -/
def domainList (s : Encoding) : List Nat := s.domain.toList

end Encoding

/-! ## §2 Operators -/

/-- The circuit of an operator with two operands. -/
def BinaryOp.circuit (op : BinaryOp) (a : Word) (sa : BitSort) (b : Word) (sb : BitSort) :
    Build Word := do
  -- Also operators that need no common sort are refused when there is none.
  let common ← Fault.ofExcept (sa.meet sb)
  let signed := common.isSigned
  let x := resizeWord sa.isSigned a common.width
  let y := resizeWord sb.isSigned b common.width
  let less (x y : Word) : Build Edge := if signed then signedLess x y else unsignedLess x y
  match op with
  | .and => do
      let p ← anyBit a
      let q ← anyBit b
      return [← conj p q]
  | .or => do
      let p ← anyBit a
      let q ← anyBit b
      return [← disj p q]
  | .shl => shiftWordLeft a b
  | .shr => shiftWordRight sa.isSigned a b
  | .equal => return [← equalWords x y]
  | .notEqual => return [-(← equalWords x y)]
  -- One order serves all four comparisons.
  | .less => return [← less x y]
  | .lessEqual => return [-(← less y x)]
  | .greater => return [← less y x]
  | .greaterEqual => return [-(← less x y)]
  | .add => addWords x y
  | .sub => subtractWords x y
  | .mul => multiplyWords x y
  | .bitAnd => bitwise conj x y
  | .bitOr => bitwise disj x y
  | .bitXor => bitwise xor x y
  | .div => Prod.fst <$> if signed then divideSigned x y else divideUnsigned x y
  | .rem => Prod.snd <$> if signed then divideSigned x y else divideUnsigned x y

/-- The circuit of an operator with one operand. -/
def UnaryOp.circuit (op : UnaryOp) (a : Word) : Build Word :=
  match op with
  | .not => return [-(← anyBit a)]
  | .neg => negateWord a
  | .complement => return complementWord a

/-- Whether a word equals a literal, both brought to their common sort. -/
def equalsLiteral (a : Word) (s : BitSort) (c : Int) : Build Edge := do
  let literalSort := BitSort.ofLiteral c
  let common ← Fault.ofExcept (s.meet literalSort)
  let literal := constantWord (BitVec.ofInt 128 c).toNat literalSort.width
  equalWords (resizeWord s.isSigned a common.width)
    (resizeWord literalSort.isSigned literal common.width)

/-- Whether a word equals one of some literals; every literal is compared. -/
def amongLiterals (a : Word) (s : BitSort) (set : List Int) : Build Word := do
  let hits ← set.mapM (equalsLiteral a s)
  return [← disjAny hits]

/-! ## §3 Expressions -/

namespace Expr

open Encoding in
/-- The bits of an expression in its own sort. -/
def encode : Expr → Encode Word
  | .var id s => do
      let slot ← slotOf id
      let vars ← Fault.ofExcept (bitVariables slot s.width)
      use vars
      build (vars.mapM mkVar)
  | .const bits s => return constantWord bits s.width
  | .placeholder _ => throw (.unsupported "placeholder")
  | .vector _ _ => throw (.unsupported "vector")
  | .element _ _ => throw (.unsupported "vector access")
  | .forEach _ _ _ => throw (.unsupported "foreach")
  | .unique _ => throw (.unsupported "unique")
  | .unary op arg => do
      let a ← arg.encode
      build (op.circuit a)
  | .inside arg set => do
      let a ← arg.encode
      build (amongLiterals a arg.sort set)
  | .extend arg extra => do
      let a ← arg.encode
      return resizeWord arg.sort.isSigned a (Expr.extend arg extra).sort.width
  | .slice arg hi lo => do
      let a ← arg.encode
      if a.length ≤ hi then throwThe Fault .nothingStored
      return (a.take (hi + 1)).drop lo
  | .ite cond yes no => do
      -- Variables of the condition get their slots before those of the branches.
      let c ← cond.encode
      let c ← build (anyBit c)
      let t ← yes.encode
      let e ← no.encode
      let width := (Expr.ite cond yes no).sort.width
      build (chooseWord c (resizeWord yes.sort.isSigned t width)
        (resizeWord no.sort.isSigned e width))
  | .binary op lhs rhs => do
      let a ← lhs.encode
      let b ← rhs.encode
      build (op.circuit a lhs.sort b rhs.sort)

/-- The bits of a constant are those that it is written with. -/
theorem encode_const (bits : Nat) (s : BitSort) :
    (const bits s).encode = pure (constantWord bits s.width) := by
  rw [encode]

/-- The truth of an expression: whether any of its bits is set. -/
def encodeTruth (e : Expr) : Encode Edge := do
  let bits ← e.encode
  Encoding.build (anyBit bits)

end Expr

end Stimulus
