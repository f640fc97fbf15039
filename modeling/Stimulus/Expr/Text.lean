import Stimulus.Expr.Basic

/-!
# The text of an expression

Two texts: the whole expression in infix notation, and the label of its root alone, which a drawing
of the tree shows at each node.

Main definitions:
- `Expr.text`
- `Expr.label`
-/

namespace Stimulus

/-! ## §1 Constants and sets -/

/-- The number that a constant stands for, read with the sign of its sort.  A signed sort without
    bits has no sign bit to read. -/
def constantNumber (bits : Nat) (s : BitSort) : Except Fault Int :=
  if s.isSigned then
    if s.width = 0 then .error .overflow
    else .ok (BitVec.ofNat (min s.width 64) bits).toInt
  else .ok bits

/-- The text of a constant: `true` or `false`, or its number. -/
def constantText (bits : Nat) (s : BitSort) : Except Fault String :=
  if s.isBool then .ok (if bits ≠ 0 then "true" else "false")
  else do return toString (← constantNumber bits s)

/-- The text of a list: items between brackets, separated by a comma and a blank. -/
def bracketed (items : List String) : String := "[" ++ ", ".intercalate items ++ "]"

/-- The text of a finite set of integers. -/
def setText (set : List Int) : String := bracketed (set.map toString)

namespace Expr

/-! ## §2 The whole expression -/

/-- The expression in infix notation, with parentheses around every operator of two operands. -/
def text : Expr → Except Fault String
  | .var id _ => return s!"v{id}"
  | .const bits s => constantText bits s
  | .placeholder id => return s!"_{id}"
  | .vector id _ => return s!"vec{id}"
  | .element v i => do
      let v ← v.text
      let i ← i.text
      return s!"{v}[{i}]"
  | .unary op a => do
      let a ← a.text
      return op.symbol ++ a
  | .inside a set => do
      let a ← a.text
      return s!"({a} inside {setText set})"
  | .extend a extra => do
      let a ← a.text
      return s!"extend({a}, {extra})"
  | .slice a hi lo => do
      let a ← a.text
      return s!"{a}[{hi}:{lo}]"
  | .binary op l r => do
      let l ← l.text
      let r ← r.text
      return s!"({l} {op.symbol} {r})"
  | .ite c t e => do
      let c ← c.text
      let t ← t.text
      let e ← e.text
      return s!"({c} ? {t} : {e})"
  | .forEach v _ b => do
      let v ← v.text
      let b ← b.text
      return s!"foreach({v}, {b})"
  | .unique v => do
      let v ← v.text
      return s!"unique({v})"

/-! ## §3 The root alone -/

/-- The label of the root in a drawing of the tree. -/
def label : Expr → Except Fault String
  | .var id s => return s!"v{id}: {s.text}"
  | .const bits s => do
      let number ← constantText bits s
      return if s.isBool then number else s!"{number}: {s.text}"
  | .placeholder id => return s!"_{id}"
  | .vector id elem => return s!"vec{id}: [{elem.text}]"
  | .element _ _ => return "[]"
  | .unary op _ => return op.symbol
  | .inside _ set => return s!"inside {setText set}"
  | .extend _ extra => return s!"extend +{extra}"
  | .slice _ hi lo => return s!"[{hi}:{lo}]"
  | .binary op _ _ => return op.symbol
  | .ite _ _ _ => return "ite"
  | .forEach _ index _ => return s!"foreach _{index}"
  | .unique _ => return "unique"

end Expr

end Stimulus
