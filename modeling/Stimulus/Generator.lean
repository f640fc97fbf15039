import Stimulus.Graphviz
import Stimulus.Group.Ensemble
import Stimulus.Vector.Solver

/-!
# Generators

A generator owns constraints and produces random solutions for them: first the scalars, partition
by partition, then the vectors, whose sizes are scalars.  The partitions and their solvers are
rebuilt by the first solve after a change.

Main definitions:
- `Generator`, `Generator.create`
- `Generator.add`, `Generator.merge`, `Generator.rebuild`
- `Generator.next`, `Generator.nextCover`, `Generator.readBits`
-/

namespace Stimulus

/-- What kind of constraint is added. -/
inductive Kind where
  | hard
  | soft
  | cover
  deriving DecidableEq, Repr

/-- Constraints and everything that solves them. -/
structure Generator where
  settings : Settings
  registry : Registry
  partitioner : Partitioner
  plain : PlainEnsemble
  vectors : VectorStage
  coverage : CoverageEnsemble
  coverageVectors : VectorStage
  /-- Whether every cover constraint was hit. -/
  covered : Bool

/-- A computation of a generator in its context. -/
abbrev Generation : Type → Type := Request (InContext Generator)

namespace Generator

/-! ## §1 Making generators -/

/-- A generator without constraints.  The tables of its solvers have the size that the settings
name, unless another one is given.  Every part gets a source of seeds of its own. -/
def create (settings : Settings) (storageBits : Nat := settings.storageBits) :
    StateT Context (Except Fault) Generator :=
  fun context => do
    let (entropy, context) := Context.takeEntropy context
    -- The forks are made in a fixed order, so a seed determines every part.
    let source := SolverSource.ofSettings settings storageBits entropy
    let (plain, source) ← SolverSource.fork source
    let (vectors, source) ← SolverSource.fork source
    let (coverage, source) ← SolverSource.fork source
    let (coverageVectors, _) ← SolverSource.fork source
    let (registry, context) := Registry.create context
    return (⟨settings, registry, .empty, .empty plain, ← VectorStage.create vectors,
      .empty coverage, ← VectorStage.create coverageVectors, false⟩, context)

/-- Use the registry. -/
def useRegistry {α : Type} (act : Request (InContext Registry) α) : Generation α := fun s =>
  let ⟨context, g⟩ := s
  match act ⟨context, g.registry⟩ with
  | .error fault => .error fault
  | .ok (r, ⟨context, registry⟩) => .ok (r, ⟨context, { g with registry := registry }⟩)

/-- Use the plain ensemble. -/
def usePlain {α : Type} (act : Request (InContext PlainEnsemble) α) : Generation α := fun s =>
  let ⟨context, settings, registry, partitioner, plain, vectors, coverage, coverageVectors,
    covered⟩ := s
  match act ⟨context, plain⟩ with
  | .error fault => .error fault
  | .ok (r, ⟨context, plain⟩) =>
    .ok (r, ⟨context, settings, registry, partitioner, plain, vectors, coverage, coverageVectors,
      covered⟩)

/-- Use the coverage ensemble. -/
def useCoverage {α : Type} (act : Request (InContext CoverageEnsemble) α) : Generation α := fun s =>
  let ⟨context, settings, registry, partitioner, plain, vectors, coverage, coverageVectors,
    covered⟩ := s
  match act ⟨context, coverage⟩ with
  | .error fault => .error fault
  | .ok (r, ⟨context, coverage⟩) =>
    .ok (r, ⟨context, settings, registry, partitioner, plain, vectors, coverage, coverageVectors,
      covered⟩)

/-- Use the vectors. -/
def useVectors {α : Type} (act : Request (InContext VectorStage) α) : Generation α := fun s =>
  match act ⟨s.context, s.item.vectors⟩ with
  | .error fault => .error fault
  | .ok (r, ⟨context, vectors⟩) => .ok (r, ⟨context, { s.item with vectors := vectors }⟩)

/-- Use the vectors of coverage solves. -/
def useCoverageVectors {α : Type} (act : Request (InContext VectorStage) α) :
    Generation α := fun s =>
  match act ⟨s.context, s.item.coverageVectors⟩ with
  | .error fault => .error fault
  | .ok (r, ⟨context, vectors⟩) =>
    .ok (r, ⟨context, { s.item with coverageVectors := vectors }⟩)

/-- Change the generator alone. -/
def change (f : Generator → Generator) : Generation Unit := InContext.update fun g => ((), f g)

/-! ## §2 Constraints -/

/-- Add a constraint. -/
def add (kind : Kind) (name : Option String) (e : Expr) : Generation Unit := do
  let _ ← useRegistry (Registry.make name e (kind = .soft) (kind = .cover))

/-- Switch a constraint on or off.  The answer tells whether the name is known. -/
def setEnabled (g : Generator) (name : String) (enabled : Bool) : Bool × Generator :=
  let (known, registry) := g.registry.setEnabled name enabled
  (known, { g with registry := registry })

/-- Forget what was merged, and the progress of coverage. -/
def reset (g : Generator) : Generator :=
  { g with registry := g.registry.acknowledge, partitioner := .empty, covered := false }

/-- Include the constraints of another registry of the same context in the next rebuild. -/
def merge (r : Registry) : Generation Unit := do
  if r.home ≠ (← get).context.identity then throwThe Fault .foreignRegistry
  change fun g => { g with partitioner := g.partitioner.merge r }

/-! ## §3 Building -/

/-- Build new coverage solvers. -/
def rebuildCoverage : Generation Unit := do
  let ⟨context, g⟩ ← get
  useCoverage (InContext.useItem
    (CoverageEnsemble.rebuildCoverage context g.partitioner.partitions))
  change fun g => { g with
    coverageVectors := g.coverageVectors.reset g.partitioner.vectorConstraints }

/-- Split what was merged and build new solvers. -/
def rebuild (includeOwn : Bool) : Generation Unit := do
  change fun g =>
    let merged := if includeOwn then g.partitioner.merge g.registry else g.partitioner
    { g with partitioner := merged.partition }
  -- The plain solvers are built from the state after the split.
  let ⟨context, g⟩ ← get
  usePlain (InContext.useItem (PlainEnsemble.rebuildPlain context g.partitioner.partitions))
  change fun g => { g with vectors := g.vectors.reset g.partitioner.vectorConstraints }
  rebuildCoverage

/-- Rebuild from the own constraints if they changed. -/
def refresh : Generation Unit := do
  if (← get).item.registry.changed then
    change reset
    rebuild true

/-! ## §4 Solving -/

/-- Produce the next solution.  The answer tells whether there is one. -/
def next : Generation Bool := do
  refresh
  if !(← usePlain PlainEnsemble.solvePlain) then return false
  -- The sizes of the vectors are read from the solve that just ended.
  let plain := (← get).item.plain
  useVectors (VectorStage.solve plain.read)

/-- Produce the next solution, or refuse when there is none. -/
def tryNext : Generation Unit := do
  if !(← next) then throw .unsatisfiable

/-- The value of a variable, from a coverage solve where there is one, else from a plain solve. -/
def readCovered (g : Generator) (id : Nat) : Except Fault (Option Nat) := do
  match ← g.coverage.read id with
  | some bits => return some bits
  | none => g.plain.read id

/-- Look for a solution that hits a cover constraint not hit before.  Partitions without a hit keep
    the values of a plain solve.  There is no answer when nothing was hit. -/
def hitNext : Generation (Option Bool) := do
  -- Coverage starts from a plain solution, which also fills the partitions without a hit.
  if !(← usePlain PlainEnsemble.solvePlain) then return some false
  if ← useCoverage CoverageEnsemble.solveCoverage then
    let g := (← get).item
    if ← useCoverageVectors (VectorStage.solve g.readCovered) then return some true
  change ({ · with covered := true })
  return none

/-- Produce a solution that hits a cover constraint not hit before, or a plain solution once all
    were hit. -/
def nextCover : Generation Bool := do
  refresh
  if !(← get).item.covered then
    if let some answer ← hitNext then return answer
  next

/-- Start coverage over. -/
def resetCoverage : Generation Unit := do
  change ({ · with covered := false })
  rebuildCoverage

/-! ## §5 Reports -/

/-- The bits of a variable in the last plain solution. -/
def readBits (g : Generator) (id : Nat) : Attempt Nat := do
  match ← Fault.ofExcept (g.plain.read id) with
  | some bits => return bits
  | none => throw (.noValue id)

/-- The value of a variable in the last plain solution. -/
def read (g : Generator) (v : Variable) : Attempt Int := return v.type.ofBits (← g.readBits v.id)

/-- The drawing of the partitions. -/
def drawing (g : Generator) : Except Fault String :=
  drawingText {} g.partitioner.partitions g.partitioner.vectorConstraints

end Generator

end Stimulus
