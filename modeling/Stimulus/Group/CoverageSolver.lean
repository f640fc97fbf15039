import Stimulus.Group.PartitionSolver

/-!
# Covering one partition

A coverage solver hits the cover constraints of a partition one at a time: each solve looks for a
solution of the hard constraints that satisfies a cover constraint not hit before.

Main definitions:
- `CoverageSolver`, `CoverageSolver.build`
- `CoverageSolver.solve`, `CoverageSolver.read`
-/

namespace Stimulus

/-- A solver for the hard constraints of a partition, and the cover constraints hit so far. -/
structure CoverageSolver where
  partition : Partition
  solver : Solver
  scalars : Std.TreeMap Nat Expr
  /-- The names of the cover constraints hit so far. -/
  covered : Std.TreeSet String
  /-- Whether the last solve hit a cover constraint. -/
  hit : Bool

namespace CoverageSolver

/-- Use the solver. -/
def useSolver {α : Type} (act : Request Solver α) : Request CoverageSolver α := fun s =>
  let ⟨partition, solver, scalars, covered, hit⟩ := s
  match act solver with
  | .error fault => .error fault
  | .ok (r, solver) => .ok (r, ⟨partition, solver, scalars, covered, hit⟩)

/-- The coverage solver of a partition. -/
def build (context : Context) (storageBits : Nat) (settings : Settings) (partition : Partition)
    (seed : Nat) : Attempt CoverageSolver := do
  let solver ← Fault.ofExcept (Solver.empty storageBits seed)
  let scalars := partition.scalars
  let hards := (partition.constraints.filter (·.isHard)).map Constraint.expr
  let bounds := (boundsOnSizes context scalars settings.maxVectorSize).values
  let (_, solver) ← ((hards ++ bounds).forM Solver.assert).runOn solver
  return ⟨partition, solver, scalars, ∅, false⟩

/-- Look for a solution that satisfies a cover constraint. -/
def tryCover (context : Context) (cover : Constraint) : Request CoverageSolver Bool := do
  let scalars := (← get).scalars
  useSolver do
    Solver.assumeReferences context scalars
    Solver.assume cover.expr
    Request.step (Solver.solve false)

/-- Try cover constraints in turn until one is hit. -/
def hitFirst (context : Context) :
    List Constraint → Step CoverageSolver (Option (List (Nat × Nat)))
  | [] => return none
  | cover :: rest => do
      match ← (tryCover context cover).run with
      | .ok true =>
        modify fun s => { s with covered := s.covered.insert cover.name, hit := true }
        let s ← get
        return some (← Fault.ofExcept (s.solver.results s.scalars))
      -- A refusal counts as a miss.
      | _ => hitFirst context rest

/-- Hit a cover constraint not hit before.  The answer is the value of every variable, unless there
    is nothing left to hit. -/
def solve (context : Context) : Step CoverageSolver (Option (List (Nat × Nat))) := do
  modify ({ · with hit := false })
  -- Covers are told apart by their names alone.
  let s ← get
  hitFirst context (s.partition.constraints.filter fun c =>
    c.cover && !s.covered.contains c.name)

/-- The value of a variable in the last solution, after a solve that hit a cover constraint. -/
def read (s : CoverageSolver) (id : Nat) : Except Fault (Option Nat) :=
  if !s.hit then .ok none
  else
    match s.scalars[id]? with
    | none => .ok none
    | some e => s.solver.read e

end CoverageSolver

end Stimulus
