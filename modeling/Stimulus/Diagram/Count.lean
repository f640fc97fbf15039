import Stimulus.Diagram.Reach
import Stimulus.Diagram.Conditional
import Stimulus.Random.Dice
import Std.Data.TreeMap

/-!
# Counting and sampling models

Models are counted over an explicit domain of variables in ascending order, which has to contain
every variable that the diagram tests.  A variable of the domain that the diagram does not test
doubles the count.  Counts steer the sampler: at each decision the high edge is taken with the
probability that the counts give it, so every model is equally likely.

Main definitions:
- `Counter`, `Counter.ofDomain`, `countFrom`
- `sample`
- `Manager.satCount`
-/

namespace Stimulus

/-! ## §1 Counters -/

/-- A domain, where each variable stands in it, and the counts already made of stored nodes. -/
structure Counter where
  domain : List Nat
  length : Nat
  positions : Std.TreeMap Nat Nat
  counts : Std.TreeMap Nat Nat

namespace Counter

/-- Whether numbers ascend strictly. -/
def ascends : List Nat → Bool
  | a :: b :: rest => a < b && ascends (b :: rest)
  | _ => true

/-- A counter over a domain, which has to ascend strictly. -/
def ofDomain (domain : List Nat) : Except Fault Counter :=
  if ascends domain then
    .ok ⟨domain, domain.length, .ofList domain.zipIdx, ∅⟩
  else .error .badDomain

/-- Where a variable stands in the domain. -/
def position (c : Counter) (v : Nat) : Except Fault Nat :=
  match c.positions[v]? with
  | some p => .ok p
  | none => .error (.outsideDomain v)

/-- The count already made of a node. -/
def count? (c : Counter) (i : Nat) : Option Nat := c.counts[i]?

/-- Keep the count of a node. -/
def keep (c : Counter) (i count : Nat) : Counter := { c with counts := c.counts.insert i count }

end Counter

/-! ## §2 Counting -/

/-- The complement of a count among the assignments to the last `n` variables. -/
def complementCount (n count : Nat) : Except Fault Nat :=
  if 1 <<< n < count then .error .overflow else .ok (1 <<< n - count)

/-- The number of assignments to the domain from position `start` on under which a function is
    true. -/
def countFrom (d : Manager) (e : Edge) (start : Nat) : Step Counter Nat := do
  let n := (← get).length
  if e = .zero then return 0
  if e = .one then
    if n < start then throw .overflow
    return 1 <<< (n - start)
  let node ← Fault.ofExcept (d.node e.index)
  let p ← Fault.ofExcept ((← get).position node.var)
  -- The variable has to be one of those that are still open.
  if p < start then throw .badDomain
  -- Counts are kept of nodes, that is of edges without a mark.
  let regular ← match (← get).count? e.index with
    | some count => pure count
    | none =>
      if node.low.index < e.index ∧ node.high.index < e.index then
        let low ← countFrom d node.low (p + 1)
        let high ← countFrom d node.high (p + 1)
        modify (·.keep e.index (low + high))
        pure (low + high)
      else throw .unordered
  let count ← if e.isComplement then Fault.ofExcept (complementCount (n - p) regular)
    else pure regular
  -- Every variable that the diagram skips doubles the count.
  return count <<< (p - start)
termination_by e.index

/-- The number of assignments to a domain under which a function is true. -/
def Manager.satCount (d : Manager) (e : Edge) (domain : List Nat) : Except Fault Nat := do
  let counter ← Counter.ofDomain domain
  return (← (countFrom d e 0).run counter).1

/-! ## §3 Sampling -/

section

variable {m : Type → Type} [Monad m] [MonadExceptOf Fault m] [Dice m]

/-- Decide the variables of the domain from position `i` on.  A variable that the diagram does not
    test is decided by a coin. -/
def decideFrom (d : Manager) (c : Counter) (e : Edge) (i : Nat) :
    List Nat → m (List Bool × Counter)
  | [] => if e = .one then pure ([], c) else throwThe Fault .badDomain
  | v :: rest => do
      if (← Fault.ofExcept (d.topVar? e)) ≠ some v then
        let value ← Dice.coin
        let (values, c) ← decideFrom d c e (i + 1) rest
        return (value :: values, c)
      let low ← Fault.ofExcept (d.lowOf e)
      let high ← Fault.ofExcept (d.highOf e)
      let (lows, c) ← Fault.ofExcept ((countFrom d low (i + 1)).run c)
      let (highs, c) ← Fault.ofExcept ((countFrom d high (i + 1)).run c)
      -- The first numbers stand for the models with the variable false.
      let value := decide (lows ≤ (← Dice.below (lows + highs)))
      let (values, c) ← decideFrom d c (if value then high else low) (i + 1) rest
      return (value :: values, c)

/-- A model of a function, aligned with the domain and drawn uniformly; falsehood has none. -/
def sample (d : Manager) (e : Edge) (c : Counter) : m (Option (List Bool) × Counter) := do
  if e = .zero then return (none, c)
  let (values, c) ← decideFrom d c e 0 c.domain
  return (some values, c)

end

end Stimulus
