import Stimulus.Partition
import Stimulus.Solver

/-!
# Solving one partition

A partition solver is built from the hard and soft constraints of a partition.  Building it finds
the conflicts among hard constraints, which make every solve fail, and drops the soft constraints
that do not fit.  Before every solve, variables with constraints of their own are solved ahead and
their values suggested, references are assumed to have their values, and distributions suggest
theirs.

Main definitions:
- `PartitionSolver`, `PartitionSolver.build`
- `PartitionSolver.solve`, `PartitionSolver.read`
-/

namespace Stimulus

/-! ## §1 Variables and bounds -/

/-- The scalar variables of a partition.  An id that occurs with several sorts keeps the last. -/
def Partition.scalars (p : Partition) : Std.TreeMap Nat Expr :=
  (p.constraints.flatMap (·.expr.scalars)).foldl
    (fun vars v => match v.id? with
      | some id => vars.insert id v
      | none => vars) ∅

/-- Vector sizes that occur among some variables are bounded by a maximum, which is a 32-bit
    number. -/
def boundsOnSizes (context : Context) (vars : Std.TreeMap Nat Expr) (max : Nat) :
    Std.TreeMap Nat Expr :=
  let max := min max (1 <<< 32 - 1)
  context.vectors.toList.foldl (fun bounds (_, entry) =>
    -- A size that no constraint mentions is left to itself.
    match vars[entry.size.id]? with
    | some size =>
      bounds.insert entry.size.id (.binary .lessEqual size (.constant max size.sort))
    | none => bounds) ∅

/-! ## §2 Preparing a solver -/

namespace Solver

/-- Assume that those references among some variables have their values. -/
def assumeReferences (context : Context) (vars : Std.TreeMap Nat Expr) : Request Solver Unit :=
  context.references.forM fun (id, bits) =>
    match vars[id]? with
    | some e => assume (e.equalTo bits)
    | none => pure ()

/-- The values of those variables that have one in the last model. -/
def results (s : Solver) (vars : Std.TreeMap Nat Expr) : Except Fault (List (Nat × Nat)) := do
  let values ← vars.toList.mapM fun (id, e) => do return (id, ← s.read e)
  return values.filterMap fun (id, bits) => bits.map fun bits => (id, bits)

end Solver

/-! ## §3 Partition solvers -/

/-- A solver for the hard and soft constraints of a partition. -/
structure PartitionSolver where
  partition : Partition
  solver : Solver
  scalars : Std.TreeMap Nat Expr
  bounds : Std.TreeMap Nat Expr
  /-- Variables that are solved ahead from the constraints on them alone. -/
  presolvers : List (Expr × Solver)
  /-- The minimal conflicts among the hard constraints, by name. -/
  contradictions : List (List String)
  /-- The soft constraints that were dropped, by name. -/
  inactiveSofts : List String
  rng : Stream

namespace PartitionSolver

/-- Use the solver. -/
def useSolver {α : Type} (act : Request Solver α) : Request PartitionSolver α := fun s =>
  let ⟨partition, solver, scalars, bounds, presolvers, contradictions, softs, rng⟩ := s
  match act solver with
  | .error fault => .error fault
  | .ok (r, solver) =>
    .ok (r, ⟨partition, solver, scalars, bounds, presolvers, contradictions, softs, rng⟩)

/-- Draw from the words of a partition solver. -/
def draw {α : Type} (act : Draw α) : Request PartitionSolver α := fun s =>
  match act s.rng with
  | .error fault => .error fault
  | .ok (a, rng) => .ok (.ok a, { s with rng := rng })

/-- A solver from a seed that is drawn for it. -/
def newSolver (storageBits : Nat) : Request PartitionSolver Solver := do
  let seed ← draw Stream.word64
  Fault.ofExcept (Solver.empty storageBits seed)

/-! ## §4 Building -/

/-- Add the constraints of the partition, covers apart, and the bounds on sizes. -/
def addConstraints : Request PartitionSolver Unit := do
  let constraints := (← get).partition.constraints.filter (!·.cover)
  constraints.forM fun c =>
    useSolver (if c.soft then Solver.assertSoft c.expr else Solver.assert c.expr)
  let bounds := (← get).bounds.values
  bounds.forM fun bound => useSolver (Solver.assert bound)

/-- Find the conflicts among the hard constraints, with a solver of their own. -/
def findContradictions (storageBits : Nat) : Request PartitionSolver Unit := do
  let hards := (← get).partition.constraints.filter (·.isHard)
  -- A solver of its own: neither its nodes nor its slots are kept.
  let checker ← newSolver storageBits
  let numbered := hards.zipIdx.map fun (c, i) => (i, c.expr)
  let (groups, _) ← Request.ofAttempt ((Solver.conflicts (.ofList numbered)).runOn checker)
  let names := hards.toArray.map Constraint.name
  modify ({ · with contradictions := groups.map (·.map (names.getD · "")) })

/-- Make the soft constraints hard as far as they fit, the newest first. -/
def settleSofts : Request PartitionSolver Unit := do
  let softs := (← get).partition.constraints.filter (·.soft)
  if softs.isEmpty then return
  let dropped ← useSolver (Request.step Solver.dropSofts)
  let names := softs.toArray.map Constraint.name
  modify ({ · with inactiveSofts := dropped.map (names.getD · "") })

/-- Make a presolver for a variable that has hard constraints of its own, that solvers write, and
    for which there is no distribution. -/
def addPresolver (context : Context) (storageBits : Nat) (id : Nat) (e : Expr) :
    Request PartitionSolver Unit := do
  let s ← get
  let own := s.partition.singleOn id
  if own.isEmpty || !context.isRandom id || context.distributions.contains id then return
  -- A size is bounded here as it is in the solver.
  let constraints := own.map Constraint.expr ++ s.bounds[id]?.toList
  let presolver ← newSolver storageBits
  let (_, presolver) ← Request.ofAttempt ((constraints.forM Solver.assert).runOn presolver)
  modify fun s => { s with presolvers := s.presolvers ++ [(e, presolver)] }

/-- Find conflicts, or else settle the soft constraints and make the presolvers. -/
def analyse (context : Context) (storageBits : Nat) (presolve : Bool) :
    Request PartitionSolver Unit := do
  -- Soft constraints are left out, so a failure is a matter of the hard ones.
  if !(← useSolver (Request.step (Solver.solve true))) then
    findContradictions storageBits
  if (← get).contradictions.isEmpty then
    settleSofts
    if presolve then
      (← get).scalars.toList.forM fun (id, e) => addPresolver context storageBits id e

/-- The solver of a partition. -/
def build (context : Context) (storageBits : Nat) (settings : Settings) (partition : Partition)
    (seed : Nat) : Attempt PartitionSolver := do
  let (solverSeed, rng) ← Fault.ofExcept (Stream.word64 (.ofSeed seed))
  let solver ← Fault.ofExcept (Solver.empty storageBits solverSeed)
  let scalars := partition.scalars
  let bounds := boundsOnSizes context scalars settings.maxVectorSize
  let start : PartitionSolver := ⟨partition, solver, scalars, bounds, [], [], [], rng⟩
  let building : Request PartitionSolver Unit := do
    addConstraints
    if !settings.bypassAnalysis then analyse context storageBits settings.presolve
  return (← building.runOn start).2

/-! ## §5 Solving -/

/-- Solve the presolvers.  Those with a solution answer the value of their variable. -/
def solveAhead : List (Expr × Solver) → Except Fault (List (Expr × Nat) × List (Expr × Solver))
  | [] => return ([], [])
  | (e, presolver) :: rest => do
      let (solved, presolver) ← Solver.solve false presolver
      let value ← if solved then presolver.read e else pure none
      let (values, rest) ← solveAhead rest
      return ((value.map ((e, ·))).toList ++ values, (e, presolver) :: rest)

/-- Suggest the values of the presolvers. -/
def suggestAhead : Request PartitionSolver Unit := do
  let presolvers := (← get).presolvers
  -- They come back when they are solved; meanwhile nothing else holds them.
  modify ({ · with presolvers := [] })
  let (values, presolvers) ← Fault.ofExcept (solveAhead presolvers)
  modify ({ · with presolvers := presolvers })
  values.forM fun (e, bits) => useSolver (Solver.suggest (e.equalTo bits))

/-- Suggest a value from the distribution of every variable that has one. -/
def suggestDistributions (context : Context) : Request PartitionSolver Unit := do
  let scalars := (← get).scalars
  context.distributions.toList.forM fun (id, d) =>
    match scalars[id]? with
    | none => pure ()
    | some e => do
      let value ← draw d.draw
      useSolver (Solver.suggest (e.equalTo (d.type.toBits value)))

/-- Everything that holds for the next solve only. -/
def prepare (context : Context) : Request PartitionSolver Unit := do
  suggestAhead
  let scalars := (← get).scalars
  useSolver (Solver.assumeReferences context scalars)
  suggestDistributions context

/-- Solve the partition.  The answer is the value of every variable, unless there is no
    solution. -/
def solve (context : Context) : Step PartitionSolver (Option (List (Nat × Nat))) := do
  if !(← get).contradictions.isEmpty then return none
  let attempt : Request PartitionSolver Bool := do
    prepare context
    useSolver (Request.step (Solver.solve false))
  match ← attempt.run with
  | .ok true =>
    let s ← get
    return some (← Fault.ofExcept (s.solver.results s.scalars))
  -- A refusal counts as no solution.
  | _ => return none

/-- The value of a variable of the partition in the last solution. -/
def read (s : PartitionSolver) (id : Nat) : Except Fault (Option Nat) :=
  match s.scalars[id]? with
  | none => .ok none
  | some e => s.solver.read e

end PartitionSolver

end Stimulus
