import Stimulus.Circuit.Encoding
import Stimulus.Diagram.Core
import Stimulus.Diagram.Count
import Stimulus.Settings
import Std.Data.TreeMap

/-!
# Solvers

A solver collects constraints as functions over one manager and draws a model of their conjunction.
Hard constraints stay; assumptions hold for the next solve only; soft constraints hold unless they
are to be ignored; suggestions hold for the next solve as far as they fit, dropped at random while
they conflict.

Main definitions:
- `Solver`, `Solver.empty`
- `Solver.assert`, `Solver.assertSoft`, `Solver.suggest`, `Solver.assume`
- `Solver.solve`, `Solver.read`, `Solver.readAll`
- `Solver.conflicts`, `Solver.dropSofts`
- `SolverSource`: makes solvers, each from a seed of its own
-/

namespace Stimulus

/-! ## §1 Solvers -/

/-- The constraints of one problem, the last model, and the words for random draws. -/
structure Solver where
  encoding : Encoding
  hard : Edge
  softs : Array Edge
  assumptions : Array Edge
  suggestions : Array Edge
  /-- The values of diagram variables in the last model. -/
  model : Std.TreeMap Nat Bool
  rng : Stream

namespace Solver

/-- A solver without constraints. -/
def empty (bits seed : Nat) : Except Fault Solver := do
  return ⟨← Encoding.empty bits, .one, #[], #[], #[], ∅, .ofSeed seed⟩

/-- The figures of a solver as text. -/
def text (s : Solver) : String :=
  "BddSolver \x7b " ++ ", ".intercalate
    [s!"nodes: {s.encoding.manager.nodeCount}", s!"softs: {s.softs.size}",
      s!"assumptions: {s.assumptions.size}", s!"suggestions: {s.suggestions.size}"] ++ " \x7d"

/-- Encode something in a solver. -/
def encode {α : Type} (act : Encode α) : Request Solver α := fun s =>
  -- Taken apart, so that the tables are not shared while they change.
  let ⟨encoding, hard, softs, assumptions, suggestions, model, rng⟩ := s
  match act encoding with
  | .error fault => .error fault
  | .ok (r, encoding) =>
    .ok (r, ⟨encoding, hard, softs, assumptions, suggestions, model, rng⟩)

/-- Store nodes in the manager of a solver. -/
def build {α : Type} (act : Build α) : Step Solver α := fun s =>
  let ⟨⟨manager, slots, domain⟩, hard, softs, assumptions, suggestions, model, rng⟩ := s
  match act manager with
  | .error fault => .error fault
  | .ok (a, manager) =>
    .ok (a, ⟨⟨manager, slots, domain⟩, hard, softs, assumptions, suggestions, model, rng⟩)

/-- Draw something from the words of a solver. -/
def draw {α : Type} (act : Draw α) : Step Solver α := fun s =>
  match act s.rng with
  | .error fault => .error fault
  | .ok (a, rng) => .ok (a, { s with rng := rng })

/-! ## §2 Constraints -/

/-- Add a constraint that has to hold from now on. -/
def assert (e : Expr) : Request Solver Unit := do
  let f ← encode e.encodeTruth
  let hard ← Request.step (build (conj (← get).hard f))
  modify ({ · with hard := hard })

/-- Add a constraint that has to hold unless soft constraints are ignored. -/
def assertSoft (e : Expr) : Request Solver Unit := do
  let f ← encode e.encodeTruth
  modify fun s => { s with softs := s.softs.push f }

/-- Add a constraint for the next solve that may be dropped. -/
def suggest (e : Expr) : Request Solver Unit := do
  let f ← encode e.encodeTruth
  modify fun s => { s with suggestions := s.suggestions.push f }

/-- Add a constraint for the next solve that has to hold. -/
def assume (e : Expr) : Request Solver Unit := do
  let f ← encode e.encodeTruth
  modify fun s => { s with assumptions := s.assumptions.push f }

/-! ## §3 Solving -/

/-- The conjunction of a function with as many suggestions as fit.  The suggestions are given last
    first, and the last one is dropped while they conflict. -/
def relax (base : Edge) : List Edge → Build Edge
  | [] => conjAll [base]
  | s :: rest => do
      let f ← conjAll ((s :: rest).reverse ++ [base])
      if f ≠ .zero then return f else relax base rest

/-- Draw a model of a function and keep it; falsehood leaves no model. -/
def drawModel (f : Edge) : Step Solver Bool := do
  let domain := (← get).encoding.domainList
  let counter ← Fault.ofExcept (Counter.ofDomain domain)
  let manager := (← get).encoding.manager
  let (values, _) ← draw (sample manager f counter)
  match values with
  | some values =>
    modify ({ · with model := Std.TreeMap.ofList (domain.zip values) })
    return true
  | none =>
    modify ({ · with model := ∅ })
    return false

/-- Search for a model.  Assumptions and suggestions are used up. -/
def solve (ignoreSofts : Bool) : Step Solver Bool := do
  let s ← get
  let (hard, softs, assumptions, suggestions) :=
    (s.hard, s.softs, s.assumptions, s.suggestions)
  -- Used up whatever comes of the solve.
  modify fun s => { s with assumptions := #[], suggestions := #[] }
  let base ← build (conjAll (assumptions.toList ++ [hard]))
  let base ← if ignoreSofts then pure base else build (conjAll (softs.toList ++ [base]))
  -- No suggestion is preferred, so chance decides which ones give way.
  let shuffled ← draw (Stream.shuffle suggestions)
  let f ← build (relax base shuffled.toList.reverse)
  drawModel f

/-- The number whose bits are given, the least significant bit first. -/
def numberOfBits : List Bool → Nat
  | [] => 0
  | b :: rest => b.toNat + 2 * numberOfBits rest

/-- The value of a variable in the last model. -/
def read (s : Solver) : Expr → Except Fault (Option Nat)
  | .var id sort => do
      let some vars ← s.encoding.variableBits id sort | return none
      return numberOfBits <$> vars.mapM (s.model[·]?)
  | _ => .ok none

/-- The values of some variables in the last model, if all of them have one. -/
def readAll (s : Solver) : List Expr → Except Fault (Option (List Nat))
  | [] => .ok (some [])
  | e :: rest => do
      let some bits ← s.read e | return none
      return (← s.readAll rest).map (bits :: ·)

/-! ## §4 Analysis -/

/-- The minimal conflicts among constraints with keys, as groups of ascending keys. -/
def conflicts (constraints : Std.TreeMap Nat Expr) : Request Solver (List (List Nat)) := do
  let fs ← constraints.toList.mapM fun (_, e) => encode e.encodeTruth
  let keys := constraints.keysArray
  let groups ← Request.step (build (minimalConflicts fs))
  return groups.map (·.map (keys.getD · 0))

/-- Make soft constraints hard, from the first to the last, unless they conflict with what is hard
    by then. -/
def keepSofts (position : Nat) : List Edge → Step Solver (List Nat)
  | [] => return []
  | soft :: rest => do
      let f ← build (conj (← get).hard soft)
      if f = .zero then
        -- The function that was refused leaves no trace but its nodes.
        return position :: (← keepSofts (position + 1) rest)
      modify ({ · with hard := f })
      keepSofts (position + 1) rest

/-- Make as many soft constraints hard as fit, the earlier ones first.  The answer lists the
    positions of those that did not fit. -/
def dropSofts : Step Solver (List Nat) := do
  let softs := (← get).softs
  -- Those that do not fit are gone as well.
  modify ({ · with softs := #[] })
  keepSofts 0 softs.toList

end Solver

/-! ## §5 Where solvers come from -/

/-- Makes solvers with tables of one size, each from the next seed of a stream. -/
structure SolverSource where
  storageBits : Nat
  settings : Settings
  rng : Stream

namespace SolverSource

/-- A source whose seeds derive from the seed of the settings, or from entropy if they have none. -/
def ofSettings (settings : Settings) (storageBits : Nat := settings.storageBits)
    (entropy : ChaCha.Key := .ofSeed 0) : SolverSource :=
  ⟨storageBits, settings, .ofSeed? settings.seed entropy⟩

/-- The next seed. -/
def nextSeed : Step SolverSource Nat := fun s =>
  match Stream.word64 s.rng with
  | .error fault => .error fault
  | .ok (seed, rng) => .ok (seed, { s with rng := rng })

/-- A source whose seeds derive from the next seed of this one. -/
def fork : Step SolverSource SolverSource := do
  let seed ← nextSeed
  return { (← get) with rng := .ofSeed seed }

/-- A solver from the next seed. -/
def create : Step SolverSource Solver := do
  let seed ← nextSeed
  Fault.ofExcept (Solver.empty (← get).storageBits seed)

/-- The source as text. -/
def text (s : SolverSource) : String := s!"SolverBuilder \x7b config: {s.settings.text} \x7d"

end SolverSource

end Stimulus
