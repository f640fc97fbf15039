import Stimulus.Diagram.Edge
import Stimulus.Hashing.ComputedTable
import Stimulus.Hashing.UniqueTable

/-!
# Managers of decision diagrams

Reduced ordered binary decision diagrams with complement edges.  A manager owns the unique table
in which every node is stored once, and the computed table of the conditional.  Diagram variables
are numbered from one; a smaller number lies closer to the root.

Main definitions:
- `Node`, `Triple`, `Manager`, `Manager.empty`, `Manager.withLimit`
- `mkNode`, `mkVar`, `mkCube`, `mkClause`
-/

namespace Stimulus

/-! ## §1 Nodes and managers -/

/-- A decision: the variable tested, and where to go when it is false and when it is true. -/
structure Node where
  var : Nat
  low : Edge
  high : Edge
  deriving DecidableEq, Repr

instance : Fingerprint Node where
  fingerprint n := pairing3 n.var.toUInt64 n.low.code n.high.code

/-- The terminal tests no variable. -/
def Node.terminal : Node := ⟨0, ⟨0⟩, ⟨0⟩⟩

/-- The arguments of a conditional: if `cond` then `yes`, else `no`. -/
structure Triple where
  cond : Edge
  yes : Edge
  no : Edge
  deriving DecidableEq, Repr

instance : Fingerprint Triple where
  fingerprint t := pairing3 t.cond.code t.yes.code t.no.code

/-- Everything that diagrams share: the stored nodes, the conditionals computed so far, and the
    bound below which an index has an edge. -/
structure Manager where
  nodes : UniqueTable Node
  computed : ComputedTable Triple Edge
  limit : Nat

/-- A computation that stores nodes in a manager. -/
abbrev Build : Type → Type := Step Manager

namespace Manager

/-- A manager that stores the terminal alone.  The computed table has at least 1024 slots. -/
def empty (bits : Nat) : Except Fault Manager :=
  if bits ≤ 31 then do
    let nodes ← UniqueTable.empty bits
    let computed ← ComputedTable.empty (max bits 10)
    -- The terminal is the first node, so its index is one.
    return ⟨(nodes.add Node.terminal).2, computed, Edge.indexLimit⟩
  else .error .managerBits

/-- The same manager with edges for the indices below another bound. -/
def withLimit (d : Manager) (limit : Nat) : Manager := { d with limit }

/-- The number of bits that managers are made with unless told otherwise. -/
def defaultBits : Nat := 16

/-- The number of nodes ever stored, the terminal included. -/
def nodeCount (d : Manager) : Nat := d.nodes.size

/-- The node with a given index. -/
def node (d : Manager) (i : Nat) : Except Fault Node := d.nodes.value i

/-- Where an edge leads when the variable of its node is false. -/
def lowOf (d : Manager) (e : Edge) : Except Fault Edge := do
  let n ← d.node e.index
  return n.low.complementIf e.isComplement

/-- Where an edge leads when the variable of its node is true. -/
def highOf (d : Manager) (e : Edge) : Except Fault Edge := do
  let n ← d.node e.index
  return n.high.complementIf e.isComplement

/-- The figures of a manager as text. -/
def text (d : Manager) : String :=
  s!"Bdd \x7b buckets: {d.nodes.capacity}, size: {d.nodes.size} \x7d"

end Manager

/-! ## §2 Making nodes -/

/-- The edge to a stored node; a node whose edges agree is no decision.  An index at the limit has
    no edge, and the computation ends; nothing else makes it run out of edges.  Without this check
    `Edge.regular` would wrap around there, to a negative number that reads as a complement mark. -/
def shareNode (v : Nat) (low high : Edge) : Build Edge := fun d =>
  if low = high then .ok (low, d)
  else
    let ⟨nodes, computed, limit⟩ := d
    let (index, nodes) := nodes.put ⟨v, low, high⟩
    if index < limit then .ok (.positive index, ⟨nodes, computed, limit⟩)
    else .error .tooManyNodes

/-- The edge to a decision on `v`.  A complement mark is moved from the high edge to the edge
    that enters the node, so that every function has one form. -/
def mkNode (v : Nat) (low high : Edge) : Build Edge := do
  if v = 0 then throw .zeroVariable
  if high.isComplement then return -(← shareNode v (-low) (-high))
  shareNode v low high

/-- The function that is true where `v` is true. -/
def mkVar (v : Nat) : Build Edge := mkNode v .zero .one

/-! ## §3 Cubes and clauses -/

/-- Literals are put into a cube from the bottom up, the larger variables first. -/
def bottomUp (literals : List Int) : List Int :=
  literals.mergeSort (fun a b => b.natAbs ≤ a.natAbs)

/-- A cube extended by a literal: the variable has to be false for a negative literal and true for
    a positive one. -/
def addLiteral (cube : Edge) (literal : Int) : Build Edge := do
  if literal = 0 then throw .zeroVariable
  if literal < 0 then mkNode literal.natAbs cube .zero else mkNode literal.natAbs .zero cube

/-- The conjunction of literals, given as signed variables. -/
def mkCube (literals : List Int) : Build Edge := (bottomUp literals).foldlM addLiteral .one

/-- The disjunction of literals, given as signed 32-bit variables. -/
def mkClause (literals : List Int) : Build Edge := do
  -- The least 32-bit number has no opposite.
  if literals.contains (BitVec.intMin 32).toInt then throw .overflow
  return -(← mkCube (literals.map (- ·)))

end Stimulus
