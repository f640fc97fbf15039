import Stimulus.Constraint
import Stimulus.Solver
import Stimulus.Vector.Instance

/-!
# Solving vectors

Vectors are solved once their sizes are known.  Every element gets a symbol of its own, the
constraints are instantiated for the elements, and the solution becomes the contents of the vector.
Soft constraints are ignored if there is no solution with them.

Main definitions:
- `VectorSolver`, `VectorSolver.solve`
- `VectorStage`, `VectorStage.solve`
-/

namespace Stimulus

/-! ## §1 One vector -/

/-- The constraints of a vector, and the symbols of its elements made so far. -/
structure VectorSolver where
  vectorId : Nat
  constraints : List Constraint
  elements : Array Expr

/-- The size that a solution gives to a vector, or else the default size. -/
def sizeOf? (entry : VectorEntry) (read : Nat → Except Fault (Option Nat)) (default : Nat) :
    Except Fault Nat := do
  return (← read entry.size.id).getD default

namespace VectorSolver

/-- A solver without constraints. -/
def empty (vectorId : Nat) : VectorSolver := ⟨vectorId, [], #[]⟩

/-- Add a constraint. -/
def add (s : VectorSolver) (c : Constraint) : VectorSolver :=
  { s with constraints := s.constraints ++ [c] }

/-- The ids of the symbols made so far. -/
def elementIds (s : VectorSolver) : List Nat := s.elements.toList.filterMap Expr.id?

/-- The known symbols followed by new ones. -/
def addElements (elem : BitSort) (known : Array Expr) : Nat → StateM Context (Array Expr)
  | 0 => return known
  | n + 1 => do
      let id ← Context.takeId
      addElements elem (known.push (.var id elem)) n

/-- The pairs of a list, each element with every later one. -/
def pairs {α : Type} : List α → List (α × α)
  | [] => []
  | x :: rest => rest.map ((x, ·)) ++ pairs rest

/-- The instances of a constraint for some elements, index by index.  There is none at an index that
    is skipped. -/
def instances (c : Constraint) (elements : Array Expr) : List (Except Fault (Option Expr)) :=
  match c.expr with
  | .unique _ => (pairs elements.toList).map fun (a, b) => .ok (some (.binary .notEqual a b))
  | .forEach _ placeholder body =>
      (List.range elements.size).map fun i => do
        return (← (instantiate placeholder i elements body).run).toOption
  | _ => []

/-- Add the instances of all constraints to a solver. -/
def assertInstances (elements : Array Expr) : List Constraint → Request Solver Unit
  | [] => return
  | c :: rest => do
      (instances c elements).forM fun attempt => do
        match ← Fault.ofExcept attempt with
        | some e => if c.soft then Solver.assertSoft e else Solver.assert e
        -- An index that names no element makes no demand.
        | none => pure ()
      assertInstances elements rest

end VectorSolver

/-- What solving a vector works with besides the context: its solver, the source of solvers, and
    the words for elements that are left open. -/
structure VectorWork where
  solver : VectorSolver
  source : SolverSource
  rng : Stream

namespace VectorSolver

/-- Give an element its value in the model, or else random bits. -/
def elementValue (model : Solver) (elem : BitSort) (e : Expr) : Draw Nat := do
  match ← Fault.ofExcept (model.read e) with
  | some bits => return bits
  | none => Context.randomBits elem

/-- Make symbols until there are as many as the vector has elements. -/
def grow (size : Nat) (elem : BitSort) : Request (InContext VectorWork) (Array Expr) := do
  let known := (← get).item.solver.elements
  let elements ← InContext.useContext (addElements elem known (size - known.size))
  modify fun s =>
    { s with item := { s.item with solver := { s.item.solver with elements := elements } } }
  return elements.take size

/-- A model of the constraints for some elements, if there is one. -/
def findModel (elements : Array Expr) : Request (InContext VectorWork) (Option Solver) := do
  let work := (← get).item
  let (model, source) ← Fault.ofExcept (SolverSource.create work.source)
  modify fun s => { s with item := { s.item with source := source } }
  let solving : Request Solver Bool := do
    assertInstances elements work.solver.constraints
    if ← Request.step (Solver.solve false) then return true
    -- The same solver tries again: its soft constraints are still there.
    Request.step (Solver.solve true)
  let (solved, model) ← Request.ofAttempt (solving.runOn model)
  return if solved then some model else none

/-- Size the vector, solve its constraints and store its elements.  A vector that is not declared
    has no solution. -/
def solve (read : Nat → Except Fault (Option Nat)) : Request (InContext VectorWork) Bool := do
  let ⟨context, work⟩ ← get
  let id := work.solver.vectorId
  let settings := work.source.settings
  let some entry := context.vectors[id]? | return false
  let size ← Fault.ofExcept (sizeOf? entry read settings.defaultVectorSize)
  -- Checked before any symbol is made.
  if settings.maxVectorSize < size then
    throw (.vectorTooLarge id size settings.maxVectorSize)
  let elements ← grow size entry.elem
  let some model ← findModel elements | return false
  let (values, rng) ←
    Fault.ofExcept ((elements.toList.mapM (elementValue model entry.elem)).run work.rng)
  modify fun s =>
    { s with context := s.context.store id values, item := { s.item with rng := rng } }
  return true

end VectorSolver

/-! ## §2 All vectors -/

/-- Solvers for the constrained vectors, and what they share. -/
structure VectorStage where
  source : SolverSource
  rng : Stream
  solvers : Std.TreeMap Nat VectorSolver

namespace VectorStage

/-- A stage without constraints; the words for open elements come from the first seed. -/
def create (source : SolverSource) : Except Fault VectorStage := do
  let (seed, source) ← SolverSource.nextSeed source
  return ⟨source, .ofSeed seed, ∅⟩

/-- Replace the constraints, grouped by the vector that they are about. -/
def reset (stage : VectorStage) (constraints : List Constraint) : VectorStage :=
  { stage with
    solvers := constraints.foldl (fun solvers c =>
      match c.vectorId? with
      -- A constraint without a vector is about none of them.
      | none => solvers
      | some id => solvers.insert id ((solvers[id]?.getD (.empty id)).add c)) ∅ }

/-- Solve one of the constrained vectors. -/
def solveOne (read : Nat → Except Fault (Option Nat)) (id : Nat) :
    Request (InContext VectorStage) Bool := fun s =>
  let ⟨context, stage⟩ := s
  match stage.solvers[id]? with
  | none => .ok (.ok true, ⟨context, stage⟩)
  | some solver =>
    match VectorSolver.solve read ⟨context, solver, stage.source, stage.rng⟩ with
    | .error fault => .error fault
    | .ok (r, ⟨context, solver, source, rng⟩) =>
      .ok (r, ⟨context, source, rng, stage.solvers.insert id solver⟩)

/-- Solve the constrained vectors in turn, up to the first without a solution. -/
def solveEach (read : Nat → Except Fault (Option Nat)) :
    List Nat → Request (InContext VectorStage) Bool
  | [] => return true
  | id :: rest => do
      if ← solveOne read id then solveEach read rest else return false

/-- Vectors have fewer elements than this: words of 64 bits that fill half of a 64-bit memory. -/
def elementLimit : Nat := 1 <<< 60

/-- Fill a vector that no constraint is about with random elements. -/
def fill (read : Nat → Except Fault (Option Nat)) (id : Nat) (entry : VectorEntry) :
    Request (InContext VectorStage) Unit := do
  let stage := (← get).item
  let size ← Fault.ofExcept (sizeOf? entry read stage.source.settings.defaultVectorSize)
  -- No maximum applies to a vector that nothing constrains.
  if elementLimit ≤ size then throwThe Fault .tooManyElements
  let (values, rng) ← Fault.ofExcept
    (((List.replicate size ()).mapM fun _ => Context.randomBits entry.elem).run stage.rng)
  modify fun s =>
    { s with context := s.context.store id values, item := { s.item with rng := rng } }

/-- Solve every constrained vector and fill the others. -/
def solve (read : Nat → Except Fault (Option Nat)) : Request (InContext VectorStage) Bool := do
  if !(← solveEach read (← get).item.solvers.keys) then return false
  let ⟨context, stage⟩ ← get
  context.vectors.toList.forM fun (id, entry) =>
    if stage.solvers.contains id then pure () else fill read id entry
  return true

end VectorStage

end Stimulus
