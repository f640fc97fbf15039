import Stimulus.BitSort

/-!
# Refusals and faults

A request can fail in two ways.  A *refusal* is an answer: the request was understood, it cannot be
granted, and everything goes on as before.  A *fault* is a broken precondition: what was being
computed has no result and its state is lost.

Main definitions:
- `Refusal`, `Refusal.kind`, `Refusal.message`
- `Fault`, `Fault.message?`
-/

namespace Stimulus

/-! ## §1 Refusals -/

/-- Why a request was refused. -/
inductive Refusal where
  | duplicateName (name : String)
  | invalidConstraint (name reason : String)
  | unsatisfiable
  | noValue (id : Nat)
  | unsupported (what : String)
  | overlappingRange
  | emptyRange (lo hi : Int)
  | zeroWeight
  | weightOverflow
  | vectorTooLarge (vector size max : Nat)
  deriving DecidableEq, Repr

namespace Refusal

/-- The name under which a refusal is reported. -/
def kind : Refusal → String
  | .duplicateName _ => "DuplicateConstraintName"
  | .invalidConstraint _ _ => "InvalidConstraint"
  | .unsatisfiable => "Unsatisfiable"
  | .noValue _ => "InvalidRead"
  | .unsupported _ => "UnsupportedNode"
  | .overlappingRange => "OverlappingRange"
  | .emptyRange _ _ => "InvalidRange"
  | .zeroWeight => "InvalidWeight"
  | .weightOverflow => "WeightOverflow"
  | .vectorTooLarge _ _ _ => "VectorTooLarge"

/-- The sentence that explains a refusal. -/
def message : Refusal → String
  | .duplicateName name => s!"Constraint with name '{name}' already exists"
  | .invalidConstraint name reason => s!"Invalid constraint '{name}': {reason}"
  | .unsatisfiable => "Generator constraint unsatisfiable"
  | .noValue v =>
      s!"Variable {v} has no value: it is not constrained or the last solve failed"
  | .unsupported what => s!"Expression node '{what}' cannot be bit-blasted"
  | .overlappingRange => "Overlapping range exists"
  | .emptyRange lo hi => s!"Invalid range: {lo} > {hi}"
  | .zeroWeight => "Invalid weight 0: weights must be positive"
  | .weightOverflow => "Total distribution weight overflows"
  | .vectorTooLarge v size max =>
      s!"Vector {v} has size {size}, larger than the maximum {max}"

end Refusal

/-! ## §2 Faults -/

/-- Which precondition was broken. -/
inductive Fault where
  /-- A bit slice that does not lie inside its operand. -/
  | sliceOutside (hi lo : Nat) (sort : BitSort)
  /-- An element access on something that is no vector. -/
  | elementOfScalar
  /-- A variable bit beyond the 64th. -/
  | variableTooWide
  /-- A number that is no probability, with its decimal text. -/
  | notAProbability (decimal : String)
  /-- A computed table with more than `2^31` slots. -/
  | computedTableBits
  /-- A unique table with more than `2^31` buckets. -/
  | uniqueTableBits
  /-- A diagram manager with more than `2^31` buckets. -/
  | managerBits
  /-- A diagram variable that the counting domain lacks. -/
  | outsideDomain (var : Nat)
  /-- A child object that was made for another context. -/
  | foreignChild (name : String)
  /-- A number that left its machine word. -/
  | overflow
  /-- An index at which nothing is stored. -/
  | nothingStored
  /-- Diagram variables are numbered from one. -/
  | zeroVariable
  /-- Stored nodes that do not descend towards the terminal. -/
  | unordered
  /-- A counting domain that does not ascend strictly, or a position that passed its variable. -/
  | badDomain
  /-- A stored node whose index no edge can hold together with its complement. -/
  | tooManyNodes
  /-- More variables than one encoding has slots for. -/
  | noSlotLeft
  /-- A vector with more elements than memory has room for. -/
  | tooManyElements
  /-- A random draw that the word stream never lets end. -/
  | drawNeverEnds
  /-- A registry that was made for another context. -/
  | foreignRegistry
  /-- A fault inside a worker, whose details the worker keeps. -/
  | workerFailed
  deriving DecidableEq, Repr

namespace Fault

/-- The sentence that explains a fault, for those faults that have one. -/
def message? : Fault → Option String
  | .sliceOutside hi lo sort => some s!"Invalid bit slice [{hi}:{lo}] of {sort.text}"
  | .elementOfScalar => some "Element access on a non-vector expression"
  | .variableTooWide => some "Variables are at most 64 bits wide"
  | .notAProbability decimal => some s!"Probability {decimal} is outside of [0, 1]"
  | .computedTableBits => some "Bits should be in the range 0..=31"
  | .uniqueTableBits => some "Table bits should be in the range 0..=31"
  | .managerBits => some "Storage bits should be in the range 0..=31"
  | .outsideDomain v => some s!"Variable {v} is outside of the counting domain"
  | .foreignChild name => some s!"child {name} must be created with RandObject::child"
  | _ => none

end Fault

/-! ## §3 Computations that can fail -/

/-- A computation over a state that may break a precondition; a fault has no state. -/
abbrev Step (σ : Type) : Type → Type := StateT σ (Except Fault)

/-- A computation over a state that may also be refused; a refusal keeps the state reached. -/
abbrev Request (σ : Type) : Type → Type := ExceptT Refusal (StateT σ (Except Fault))

/-- A computation without state that may break a precondition or be refused. -/
abbrev Attempt : Type → Type := ExceptT Refusal (Except Fault)

/-- Run a computation on a state of its own.  A refusal drops that state. -/
def Request.runOn {σ α : Type} (act : Request σ α) (s : σ) : Attempt (α × σ) :=
  match act s with
  | .error fault => .error fault
  | .ok (.error refusal, _) => .ok (.error refusal)
  | .ok (.ok a, s) => .ok (.ok (a, s))

/-- An attempt as a computation over a state, which it leaves alone. -/
def Request.ofAttempt {σ α : Type} (a : Attempt α) : Request σ α := fun s =>
  match a with
  | .error fault => .error fault
  | .ok r => .ok (r, s)

instance {σ : Type} : MonadLift Attempt (Request σ) := ⟨Request.ofAttempt⟩

/-- A computation that is never refused, as one that may be. -/
def Request.step {σ α : Type} (act : Step σ α) : Request σ α := ExceptT.lift act

/-- A result without state, in any computation that may break a precondition. -/
def Fault.ofExcept {m : Type → Type} [Monad m] [MonadExceptOf Fault m] {α : Type} :
    Except Fault α → m α
  | .ok a => pure a
  | .error fault => throwThe Fault fault

end Stimulus
