import Stimulus.Decimal
import Stimulus.Random.Dice
import Stimulus.Scalar

/-!
# Distributions

A distribution is a list of disjoint ranges with positive weights.  A range without a weight of its
own weighs as much as it has values, so plain ranges are uniform over their union.  A distribution
without ranges is uniform over its type.  Alternatively, truth values can be given a probability.

Main definitions:
- `Distribution`, `Distribution.empty`, `Distribution.bernoulli`
- `Distribution.weightedRange`, `Distribution.range`
- `Distribution.rangeAt?`, `Distribution.draw`
-/

namespace Stimulus

/-- A range of numbers, both bounds included, and its weight. -/
structure WeightedRange where
  lo : Int
  hi : Int
  weight : Nat
  deriving DecidableEq, Repr

/-- Whether two ranges have a number in common. -/
def WeightedRange.overlaps (r s : WeightedRange) : Bool := r.lo ≤ s.hi && s.lo ≤ r.hi

/-- How to draw values of a type. -/
structure Distribution where
  type : ScalarType
  ranges : List WeightedRange
  total : Nat
  probability : Option Float

namespace Distribution

/-! ## §1 Building -/

/-- The distribution that is uniform over a type. -/
def empty (type : ScalarType) : Distribution := ⟨type, [], 0, none⟩

/-- Truth with a given probability. -/
def bernoulli (p : Float) : Except Fault Distribution :=
  if 0.0 ≤ p && p ≤ 1.0 then .ok ⟨.bool, [], 0, some p⟩
  else .error (.notAProbability (decimalText p))

/-- Whether nothing restricts the values. -/
def isEmpty (d : Distribution) : Bool := d.ranges.isEmpty && d.probability.isNone

/-- Totals of weights stay below this bound. -/
def weightLimit : Nat := 1 <<< 128

/-- Add a range of values with a weight. -/
def weightedRange (d : Distribution) (lo hi : Int) (weight : Nat) : Except Refusal Distribution :=
  let r : WeightedRange := ⟨lo, hi, weight⟩
  if hi < lo then .error (.emptyRange lo hi)
  else if d.ranges.any (·.overlaps r) then .error .overlappingRange
  else if weight = 0 then .error .zeroWeight
  else if weightLimit ≤ d.total + weight then .error .weightOverflow
  else .ok { d with ranges := d.ranges ++ [r], total := d.total + weight }

/-- Add a range that weighs as much as it has values. -/
def range (d : Distribution) (lo hi : Int) : Except Refusal Distribution :=
  d.weightedRange lo hi (hi - lo + 1).toNat

/-- Add a single value. -/
def value (d : Distribution) (v : Int) : Except Refusal Distribution := d.weightedRange v v 1

/-- Add a single value with a weight. -/
def weightedValue (d : Distribution) (v : Int) (weight : Nat) : Except Refusal Distribution :=
  d.weightedRange v v weight

/-! ## §2 Drawing -/

/-- The range in which a position falls when the ranges are laid end to end by weight. -/
def rangeAt? (position : Nat) : List WeightedRange → Option WeightedRange
  | [] => none
  | r :: rest => if position < r.weight then some r else rangeAt? (position - r.weight) rest

/-- Draw a value. -/
def draw {m : Type → Type} [Monad m] [MonadExceptOf Fault m] [Dice m] (d : Distribution) :
    m Int := do
  if let some p := d.probability then
    return d.type.ofNumber (← Dice.chance p).toNat
  if d.ranges.isEmpty then
    return d.type.ofBits (← Dice.word)
  match rangeAt? (← Dice.position d.total) d.ranges with
  | some r => return d.type.ofNumber (← Dice.between r.lo r.hi)
  | none => throwThe Fault .nothingStored

end Distribution

end Stimulus
