import Stimulus.Distribution
import Stimulus.Expr.Basic
import Stimulus.Random.Stream
import Std.Data.TreeMap

/-!
# Contexts

A context holds what constraints are about: the declared variables and vectors with their current
values, and the counters from which ids are taken.  A random variable receives the results of
solvers; a reference is assumed to have its current value on every solve.  Whoever works without a
seed takes entropy, which a context hands out as well.

Main definitions:
- `Variable`, `VectorHandle`: what a declaration answers
- `Context`, `Context.empty`
- `Context.declare`, `Context.refer`, `Context.declareVector`, `Context.distribute`
- `Context.value`, `Context.write`, `Context.store`
-/

namespace Stimulus

/-! ## §1 Declarations -/

/-- A declared scalar. -/
structure Variable where
  id : Nat
  type : ScalarType
  deriving DecidableEq, Repr

/-- The variable as an expression. -/
def Variable.expr (v : Variable) : Expr := .var v.id v.type.sort

/-- A declared vector: its id, the type of its elements, and its size variable. -/
structure VectorHandle where
  id : Nat
  elem : ScalarType
  size : Variable
  deriving DecidableEq, Repr

/-- The vector as an expression. -/
def VectorHandle.expr (v : VectorHandle) : Expr := .vector v.id v.elem.sort

/-- What a scalar is for. -/
inductive Role where
  /-- It receives the results of solvers. -/
  | random
  /-- Its value is given. -/
  | reference
  deriving DecidableEq, Repr

/-- A scalar in the table of a context, with the bits of its current value. -/
structure Cell where
  type : ScalarType
  role : Role
  bits : Nat
  deriving DecidableEq, Repr

/-- A vector in the table of a context, with the bits of its current elements. -/
structure VectorEntry where
  elem : BitSort
  size : Variable
  contents : List Nat
  deriving DecidableEq, Repr

/-- The declarations that belong together.  Contexts with different identities share nothing. -/
structure Context where
  identity : Nat
  nextId : Nat
  nextConstraintId : Nat
  cells : Std.TreeMap Nat Cell
  vectors : Std.TreeMap Nat VectorEntry
  distributions : Std.TreeMap Nat Distribution
  /-- The keys that the system answers when it is asked for entropy.  Nothing is known of them. -/
  entropy : Nat → ChaCha.Key

namespace Context

/-- A context without declarations.  Ids are counted from one. -/
def empty (identity : Nat) (entropy : Nat → ChaCha.Key := fun _ => .ofSeed 0) : Context :=
  ⟨identity, 1, 1, ∅, ∅, ∅, entropy⟩

/-- The context as text. -/
def text (c : Context) : String := s!"Context \x7b next_id: {c.nextId} \x7d"

/-! ## §2 Taking ids and entropy -/

/-- An id for a variable, vector or placeholder. -/
def takeId : StateM Context Nat := fun c => (c.nextId, { c with nextId := c.nextId + 1 })

/-- An id for a constraint or a registry. -/
def takeConstraintId : StateM Context Nat := fun c =>
  (c.nextConstraintId, { c with nextConstraintId := c.nextConstraintId + 1 })

/-- A key that is not used for anything else. -/
def takeEntropy : StateM Context ChaCha.Key := fun c =>
  (c.entropy 0, { c with entropy := fun n => c.entropy (n + 1) })

/-- Declare a scalar with given bits. -/
def addCell (type : ScalarType) (role : Role) (bits : Nat) : StateM Context Variable := do
  let id ← takeId
  modify fun c => { c with cells := c.cells.insert id ⟨type, role, bits⟩ }
  return ⟨id, type⟩

/-- Declare a random variable, whose value is zero until it is solved. -/
def declare (type : ScalarType) : StateM Context Variable := addCell type .random 0

/-- Declare a reference with a value. -/
def refer (type : ScalarType) (value : Int) : StateM Context Variable :=
  addCell type .reference (type.toBits value)

/-- Declare a vector, which is empty until it is solved, and its size variable. -/
def declareVector (type : ScalarType) : StateM Context VectorHandle := do
  let id ← takeId
  let size ← declare .size
  modify fun c => { c with vectors := c.vectors.insert id ⟨type.sort, size, []⟩ }
  return ⟨id, type, size⟩

/-- Suggest values of a distribution for a variable on every solve. -/
def distribute (c : Context) (v : Variable) (d : Distribution) : Context :=
  -- A later distribution takes the place of an earlier one.
  { c with distributions := c.distributions.insert v.id d }

/-- A fresh index placeholder. -/
def placeholder : StateM Context Expr := return .placeholder (← takeId)

/-! ## §3 Values -/

/-- The bits of a scalar, as it was last written or solved. -/
def bits (c : Context) (id : Nat) : Nat := (c.cells[id]?.map Cell.bits).getD 0

/-- The value of a scalar. -/
def value (c : Context) (v : Variable) : Int := v.type.ofBits (c.bits v.id)

/-- The bits of the elements of a vector, as it was last stored. -/
def contents (c : Context) (id : Nat) : List Nat :=
  (c.vectors[id]?.map VectorEntry.contents).getD []

/-- The elements of a vector. -/
def elements (c : Context) (v : VectorHandle) : List Int := (c.contents v.id).map v.elem.ofBits

/-- A scalar and its value as text. -/
def scalarText (c : Context) (v : Variable) : String := s!"v{v.id}={v.type.valueText (c.value v)}"

/-- A vector and its elements as text. -/
def vectorText (c : Context) (v : VectorHandle) : String :=
  s!"vec{v.id}=[" ++ ", ".intercalate ((c.elements v).map v.elem.valueText) ++ "]"

/-- Replace the bits of a declared scalar. -/
def setBits (c : Context) (id bits : Nat) : Context :=
  { c with cells := c.cells.modify id fun cell => { cell with bits := bits } }

/-- Replace the value of a scalar. -/
def setValue (c : Context) (v : Variable) (value : Int) : Context :=
  c.setBits v.id (v.type.toBits value)

/-- Whether solvers write this id. -/
def isRandom (c : Context) (id : Nat) : Bool :=
  (c.cells[id]?.map fun cell => decide (cell.role = .random)).getD false

/-- Write a result of a solver, which only a random variable takes. -/
def write (c : Context) (id bits : Nat) : Context :=
  if c.isRandom id then c.setBits id bits else c

/-- Write several results. -/
def writeAll (c : Context) (results : List (Nat × Nat)) : Context :=
  results.foldl (fun c r => c.write r.1 r.2) c

/-- The references and their bits, in the order of their ids. -/
def references (c : Context) : List (Nat × Nat) :=
  c.cells.toList.filterMap fun (id, cell) =>
    if cell.role = .reference then some (id, cell.bits) else none

/-- Replace the contents of a vector and record its length in its size variable. -/
def store (c : Context) (id : Nat) (values : List Nat) : Context :=
  match c.vectors[id]? with
  | none => c
  | some entry =>
    -- The size is set whatever its cell is for.
    { c with vectors := c.vectors.insert id { entry with contents := values } }.setBits
      entry.size.id values.length

/-- Random bits that a sort keeps. -/
def randomBits (s : BitSort) : Draw Nat := return s.truncate (← Stream.word64)

/-- Give a scalar a random value. -/
def randomize (c : Context) (v : Variable) : Draw Context := do
  return c.setBits v.id (← randomBits v.type.sort)

end Context

/-! ## §4 Things in a context -/

/-- Something together with the context that it lives in. -/
structure InContext (σ : Type) where
  context : Context
  item : σ

namespace InContext

/-- Use the context. -/
def useContext {σ α : Type} (act : StateM Context α) : Request (InContext σ) α := fun s =>
  let ⟨context, item⟩ := s
  let (a, context) := act context
  .ok (.ok a, ⟨context, item⟩)

/-- Change the thing alone. -/
def update {σ α : Type} (f : σ → α × σ) : Request (InContext σ) α := fun s =>
  let ⟨context, item⟩ := s
  let (a, item) := f item
  .ok (.ok a, ⟨context, item⟩)

/-- Use the thing alone. -/
def useItem {σ α : Type} (act : Request σ α) : Request (InContext σ) α := fun s =>
  let ⟨context, item⟩ := s
  match act item with
  | .error fault => .error fault
  | .ok (r, item) => .ok (r, ⟨context, item⟩)

end InContext

end Stimulus
