import Stimulus.Group.CoverageSolver

/-!
# Solving all partitions

An ensemble has one solver for every partition.  A plain ensemble needs a solution of each of them;
it works through the partitions one after the other, or on all of them side by side.  A coverage
ensemble needs a hit in any of them.

Main definitions:
- `Ensemble`, `Ensemble.rebuildPlain`, `Ensemble.rebuildCoverage`
- `Ensemble.solvePlain`, `Ensemble.solveCoverage`
- `inOrder`: results of workers, put back in order
-/

namespace Stimulus

/-- Solvers, one for each partition, and the source of their seeds. -/
structure Ensemble (σ : Type) where
  source : SolverSource
  solvers : List σ

namespace Ensemble

variable {σ : Type}

/-- An ensemble before any partition is known. -/
def empty (source : SolverSource) : Ensemble σ := ⟨source, []⟩

/-- Use the source of seeds. -/
def useSource {α : Type} (act : Step SolverSource α) : Request (Ensemble σ) α := fun s =>
  match act s.source with
  | .error fault => .error fault
  | .ok (a, source) => .ok (.ok a, { s with source := source })

/-! ## §1 Building one after the other -/

/-- Build a solver for each partition, each from the next seed. -/
def buildEach (make : Settings → Partition → Nat → Attempt σ) :
    List Partition → Request (Ensemble σ) (List σ)
  | [] => return []
  | p :: rest => do
      let seed ← useSource SolverSource.nextSeed
      let solver ← Request.ofAttempt (make (← get).source.settings p seed)
      return solver :: (← buildEach make rest)

/-- Replace the solvers by solvers for some partitions.  If one of them is refused, the old ones
    stay. -/
def rebuild (make : Settings → Partition → Nat → Attempt σ) (partitions : List Partition) :
    Request (Ensemble σ) Unit := do
  let solvers ← buildEach make partitions
  modify ({ · with solvers := solvers })

/-! ## §2 Building side by side -/

/-- Results of workers, each with its position, put back in the order of the positions. -/
def inOrder {α : Type} (arrived : List (Nat × α)) : List α :=
  (arrived.mergeSort (fun a b => a.1 ≤ b.1)).map Prod.snd

/-- What the workers built, unless one of them broke down or was refused. -/
def collect : List (Attempt σ) → Attempt (List σ)
  | [] => return []
  | .error _ :: _ => throwThe Fault .workerFailed
  -- A breakdown anywhere comes before a refusal.
  | .ok r :: rest =>
    match collect rest with
    | .error fault => .error fault
    | .ok others => .ok (do return (← r) :: (← others))

/-- The next seeds, one for each partition. -/
def seedsFor : List Partition → Request (Ensemble σ) (List Nat)
  | [] => return []
  | _ :: rest => do
      let seed ← useSource SolverSource.nextSeed
      return seed :: (← seedsFor rest)

/-- Replace the solvers by solvers for some partitions, built by workers.  The results arrive in
    the order that `arrive` gives them. -/
def rebuildSideBySide (arrive : List (Nat × Attempt σ) → List (Nat × Attempt σ))
    (make : Settings → Partition → Nat → Attempt σ) (partitions : List Partition) :
    Request (Ensemble σ) Unit := do
  -- The seeds are drawn beforehand, so they do not depend on who is first.
  let seeds ← seedsFor partitions
  let settings := (← get).source.settings
  let built := (partitions.zip seeds).map fun (p, seed) => make settings p seed
  let arrived := arrive (built.zipIdx.map fun (r, i) => (i, r))
  let solvers ← Request.ofAttempt (collect (inOrder arrived))
  modify ({ · with solvers := solvers })

/-! ## §3 Reading -/

/-- The first value that a solver has for a variable. -/
def firstRead (read : σ → Except Fault (Option Nat)) : List σ → Except Fault (Option Nat)
  | [] => .ok none
  | s :: rest => do
      match ← read s with
      | some bits => return some bits
      | none => firstRead read rest

end Ensemble

/-! ## §4 Plain ensembles -/

/-- Solvers that need a solution of every partition. -/
abbrev PlainEnsemble : Type := Ensemble PartitionSolver

namespace PlainEnsemble

open Ensemble

/-- Replace the solvers by solvers for some partitions. -/
def rebuildPlain (context : Context) (partitions : List Partition) :
    Request PlainEnsemble Unit := do
  let source := (← get).source
  let make := PartitionSolver.build context source.storageBits
  if source.settings.sideBySide then rebuildSideBySide id make partitions
  else rebuild make partitions

/-- Solve one partition after the other and write the results, up to the first partition without a
    solution. -/
def solveEach (context : Context) :
    List PartitionSolver → Except Fault (Bool × List PartitionSolver × Context)
  | [] => return (true, [], context)
  | s :: rest => do
      match ← PartitionSolver.solve context s with
      -- What was written for the partitions before stays.
      | (none, s) => return (false, s :: rest, context)
      | (some results, s) =>
        let (solved, rest, context) ← solveEach (context.writeAll results) rest
        return (solved, s :: rest, context)

/-- Solve all partitions; the answers stand in the order of the solvers. -/
def solveAll (context : Context) : List PartitionSolver →
    Except Fault (List (Option (List (Nat × Nat))) × List PartitionSolver)
  | [] => return ([], [])
  | s :: rest => do
      let (answer, s) ← PartitionSolver.solve context s
      let (answers, rest) ← solveAll context rest
      return (answer :: answers, s :: rest)

/-- Solve all partitions by workers.  The workers write their results at the same time, in the
    order that `interleave` gives them. -/
def solveSideBySide (interleave : List (List (Nat × Nat)) → List (Nat × Nat)) (context : Context)
    (solvers : List PartitionSolver) : Except Fault (Bool × List PartitionSolver × Context) := do
  let (answers, solvers) ← solveAll context solvers
  -- Partitions share no variable, so the order of the writes does not matter.
  let results := interleave (answers.map (·.getD []))
  return (answers.all (·.isSome), solvers, context.writeAll results)

/-- Solve every partition and write the results. -/
def solvePlain : Request (InContext PlainEnsemble) Bool := fun s =>
  let ⟨context, ⟨source, solvers⟩⟩ := s
  let outcome := if source.settings.sideBySide then solveSideBySide List.flatten context solvers
    else solveEach context solvers
  match outcome with
  | .error fault => .error fault
  | .ok (solved, solvers, context) => .ok (.ok solved, ⟨context, ⟨source, solvers⟩⟩)

/-- The value of a variable from the solver that has it. -/
def read (e : PlainEnsemble) (id : Nat) : Except Fault (Option Nat) :=
  firstRead (PartitionSolver.read · id) e.solvers

/-- The minimal conflicts of all partitions, by name. -/
def contradictions (e : PlainEnsemble) : List (List String) :=
  e.solvers.flatMap PartitionSolver.contradictions

/-- The soft constraints that were dropped in any partition, by name. -/
def inactiveSofts (e : PlainEnsemble) : List String :=
  e.solvers.flatMap PartitionSolver.inactiveSofts

end PlainEnsemble

/-! ## §5 Coverage ensembles -/

/-- Solvers that need a hit in any partition. -/
abbrev CoverageEnsemble : Type := Ensemble CoverageSolver

namespace CoverageEnsemble

open Ensemble

/-- Replace the solvers by solvers for some partitions. -/
def rebuildCoverage (context : Context) (partitions : List Partition) :
    Request CoverageEnsemble Unit := do
  rebuild (CoverageSolver.build context (← get).source.storageBits) partitions

/-- Try every partition and write the results of those that hit a cover constraint. -/
def hitEach (context : Context) :
    List CoverageSolver → Except Fault (Bool × List CoverageSolver × Context)
  | [] => return (false, [], context)
  | s :: rest => do
      let (answer, s) ← CoverageSolver.solve context s
      -- A hit does not end the round: every partition may hit one.
      let (hit, rest, context) ← hitEach (context.writeAll (answer.getD [])) rest
      return (answer.isSome || hit, s :: rest, context)

/-- Hit new cover constraints and write the results. -/
def solveCoverage : Request (InContext CoverageEnsemble) Bool := fun s =>
  let ⟨context, ⟨source, solvers⟩⟩ := s
  match hitEach context solvers with
  | .error fault => .error fault
  | .ok (hit, solvers, context) => .ok (.ok hit, ⟨context, ⟨source, solvers⟩⟩)

/-- The value of a variable from the first solver that hit a cover constraint and has it. -/
def read (e : CoverageEnsemble) (id : Nat) : Except Fault (Option Nat) :=
  firstRead (CoverageSolver.read · id) e.solvers

end CoverageEnsemble

end Stimulus
