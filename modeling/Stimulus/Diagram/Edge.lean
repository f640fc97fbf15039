import Stimulus.Failure

/-!
# Edges of decision diagrams

An edge leads to a stored node and may carry a complement mark.  It is kept as one signed number:
the node's index, negated under a complement mark.  The node with index one is the terminal, so
`Edge.one` stands for truth and its complement `Edge.zero` for falsehood.

Main definitions:
- `Edge`, `Edge.index`, `Edge.isComplement`
- `Edge.positive`, `Edge.regular`, `Edge.one`, `Edge.zero`
-/

namespace Stimulus

/-- An edge to a node: the node's index, negated under a complement mark. -/
structure Edge where
  raw : Int
  deriving DecidableEq, Repr, Inhabited

namespace Edge

/-- The indices that a signed 32-bit number and its complement can both hold are below this. -/
def indexLimit : Nat := 1 <<< 31

/-- The edge to a node, without a complement mark. -/
@[inline] def positive (index : Nat) : Edge := ⟨index⟩

/-- The same as a signed 32-bit number, in which a larger index wraps around. -/
def regular (index : Nat) : Edge :=
  if index < indexLimit then .positive index else ⟨(BitVec.ofNat 32 index).toInt⟩

/-- Truth. -/
@[inline] def one : Edge := ⟨1⟩

/-- Falsehood. -/
@[inline] def zero : Edge := ⟨-1⟩

@[inline] instance : Neg Edge where
  neg e := ⟨-e.raw⟩

/-- Whether the edge carries a complement mark. -/
@[inline] def isComplement (e : Edge) : Bool := e.raw < 0

/-- The index of the node that the edge leads to. -/
@[inline] def index (e : Edge) : Nat := e.raw.natAbs

/-- Whether the edge leads to the terminal. -/
@[inline] def isTerminal (e : Edge) : Bool := e.index = 1

/-- The edge, complemented if the flag is set. -/
@[inline] def complementIf (e : Edge) (flag : Bool) : Edge := if flag then -e else e

/-- The complement, which exists for all edges but the least 32-bit number. -/
def complement (e : Edge) : Except Fault Edge :=
  if e.raw = (BitVec.intMin 32).toInt then .error .overflow else .ok (-e)

/-- An edge as a natural number: twice the index, plus one under a complement mark. -/
@[inline] def code (e : Edge) : UInt64 :=
  let doubled := 2 * e.index.toUInt64
  if e.isComplement then doubled + 1 else doubled

/-- The text of an edge: `@` and the index, after `~` under a complement mark. -/
def text (e : Edge) : String := (if e.isComplement then "~@" else "@") ++ toString e.index

/-! Small facts about complements. -/

@[simp] theorem raw_neg (e : Edge) : (-e).raw = -e.raw := rfl

@[simp] theorem neg_neg (e : Edge) : - -e = e := congrArg Edge.mk (Int.neg_neg e.raw)

@[simp] theorem index_neg (e : Edge) : (-e).index = e.index := Int.natAbs_neg e.raw

@[simp] theorem index_complementIf (e : Edge) (flag : Bool) :
    (e.complementIf flag).index = e.index := by
  cases flag <;> simp [complementIf]

theorem neg_one : -one = zero := rfl

theorem neg_zero : -zero = one := rfl

end Edge

end Stimulus
