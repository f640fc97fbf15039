import Stimulus.Expr.Value

/-!
# Instances of a constraint on all elements

A constraint on every index of a vector is solved as one constraint per index: the placeholder
becomes a number, and every element access becomes the symbol of the element that it names.

Main definitions:
- `Skip`: why there is no instance at an index
- `instantiate`
-/

namespace Stimulus

/-- Why a body has no instance at an index. -/
inductive Skip where
  | indexNotConstant
  | indexOutOfRange (k : Int)
  deriving DecidableEq, Repr

/-- The symbol of the element that an index names.  The index must not depend on variables. -/
def elementNamed (elements : Array Expr) (index : Expr) : ExceptT Skip (Except Fault) Expr := do
  -- Placeholders are replaced by now, so only variables can make the index unknown.
  match ← Fault.ofExcept (index.eval fun _ => none).run with
  | none => throwThe Skip .indexNotConstant
  | some v =>
    match v.number with
    | .negSucc n => throwThe Skip (.indexOutOfRange (.negSucc n))
    | .ofNat n =>
      match elements[n]? with
      | some e => return e
      | none => throwThe Skip (.indexOutOfRange n)

/-- The instance of a body at an index. -/
def instantiate (placeholder index : Nat) (elements : Array Expr) (body : Expr) :
    ExceptT Skip (Except Fault) Expr :=
  body.substitute
    (fun e => match e with
      | .placeholder id =>
          return if id = placeholder then .constant index Expr.indexSort else e
      | e => return e)
    (fun _ i => elementNamed elements i) false

end Stimulus
