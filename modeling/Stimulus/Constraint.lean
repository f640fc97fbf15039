import Stimulus.Context

/-!
# Constraints and registries

A registry keeps the named constraints of one owner.  A constraint is hard, soft or a cover; names
are unique within a registry.  A registry notes whether its active constraints changed.

Main definitions:
- `Constraint`, `Constraint.isHard`, `Constraint.vectorId?`
- `Registry`, `Registry.make`, `Registry.setEnabled`
-/

namespace Stimulus

/-! ## §1 Constraints -/

/-- A named constraint. -/
structure Constraint where
  id : Nat
  name : String
  expr : Expr
  support : Std.TreeSet Nat
  soft : Bool
  cover : Bool
  enabled : Bool

namespace Constraint

/-- A constraint that every solution has to satisfy. -/
def isHard (c : Constraint) : Bool := !c.soft && !c.cover

/-- A constraint on a whole vector. -/
def isVector (c : Constraint) : Bool := c.expr.isVectorConstraint

/-- A constraint that makes the elements of a vector distinct. -/
def isUnique (c : Constraint) : Bool :=
  match c.expr with
  | .unique _ => true
  | _ => false

/-- The vector that a vector constraint is about. -/
def vectorId? (c : Constraint) : Option Nat := if c.isVector then c.support.min? else none

end Constraint

/-! ## §2 Registries -/

/-- The constraints of one owner, in the order of their declaration. -/
structure Registry where
  id : Nat
  /-- The identity of the context that the constraints are about. -/
  home : Nat
  constraints : List Constraint
  changed : Bool

namespace Registry

/-- A registry without constraints. -/
def create : StateM Context Registry := do
  let id ← Context.takeConstraintId
  return ⟨id, (← get).identity, [], false⟩

/-- The constraint with a given name. -/
def find? (r : Registry) (name : String) : Option Constraint :=
  r.constraints.find? (·.name == name)

/-- Whether a name is taken. -/
def has (r : Registry) (name : String) : Bool := (r.find? name).isSome

/-- Why an expression cannot be a constraint of a given kind. -/
def objection? (e : Expr) (soft cover : Bool) : Option String :=
  if soft && cover then some "a constraint cannot be both soft and cover"
  else if e.isVectorConstraint then
    if cover then some "vector constraints cannot be cover constraints"
    else if e.support.size ≠ 1 then
      some "a vector constraint must refer to exactly one vector"
    else none
  else if e.mentionsVector then
    some "vector elements can only be constrained inside foreach"
  else none

/-- Add a constraint.  Only a constraint without objections takes an id; without a name of its own
    it is named after its id. -/
def make (name : Option String) (e : Expr) (soft cover : Bool) :
    Request (InContext Registry) Constraint := do
  if let some name := name then
    if (← get).item.has name then throw (.duplicateName name)
  if let some reason := objection? e soft cover then
    throw (.invalidConstraint (name.getD "<unnamed>") reason)
  -- From here on the id is taken, even if its name turns out not to be free.
  let id ← InContext.useContext Context.takeConstraintId
  let name := name.getD s!"constraint_{id}"
  if (← get).item.has name then throw (.duplicateName name)
  let c : Constraint := ⟨id, name, e, e.support, soft, cover, true⟩
  modify fun s =>
    { s with item := { s.item with constraints := s.item.constraints ++ [c], changed := true } }
  return c

/-- Switch a constraint on or off.  The answer tells whether the name is known. -/
def setEnabled (r : Registry) (name : String) (enabled : Bool) : Bool × Registry :=
  match r.find? name with
  | none => (false, r)
  | some c =>
    -- Nothing changes, so nothing has to be built anew.
    if c.enabled == enabled then (true, r)
    else
      let switch (c : Constraint) : Constraint :=
        if c.name == name then { c with enabled := enabled } else c
      (true, { r with constraints := r.constraints.map switch, changed := true })

/-- Whether a constraint of that name is switched on. -/
def isEnabled (r : Registry) (name : String) : Bool :=
  (r.find? name).any Constraint.enabled

/-- Forget that something changed. -/
def acknowledge (r : Registry) : Registry := { r with changed := false }

/-- The constraints that are switched on. -/
def active (r : Registry) : List Constraint := r.constraints.filter Constraint.enabled

end Registry

end Stimulus
