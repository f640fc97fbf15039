import Stimulus.Diagram.Reach
import Stimulus.Diagram.Conditional

/-!
# Minimal conflicts

A set of functions conflicts when no assignment makes all of them true.  The minimal conflicts are
found with a second diagram, the *map*, over one selector variable for each function.  A model of
the map is a set of functions not yet known to conflict or not.  If it has a model it is grown as
far as possible, and from then on every set has to contain a function that was left out; otherwise
it is shrunk to a minimal conflict, and from then on every set has to lack one of its functions.

Main definitions:
- `ConflictMap`
- `enumerateConflicts`, `minimalConflicts`
-/

namespace Stimulus

/-! ## §1 Growing and shrinking -/

/-- The selector variable of a position. -/
def selector (i : Nat) : Nat := i + 1

/-- Whether the functions at some positions hold together. -/
def compatible (fs : Array Edge) (chosen : List Nat) : Build Bool := do
  return (← conjAll (chosen.map (fs.getD · .one))) ≠ .zero

/-- Extend a compatible set by every candidate that leaves it compatible. -/
def growSet (fs : Array Edge) (chosen : List Nat) : List Nat → Build (List Nat)
  | [] => return chosen
  | i :: rest => do
      if ← compatible fs (chosen ++ [i]) then growSet fs (chosen ++ [i]) rest
      else growSet fs chosen rest

/-- Drop every function of a conflict without which the others still conflict. -/
def shrinkSet (fs : Array Edge) (needed : List Nat) : List Nat → Build (List Nat)
  | [] => return needed
  | i :: rest => do
      if ← compatible fs (needed ++ rest) then shrinkSet fs (needed ++ [i]) rest
      else shrinkSet fs needed rest

/-! ## §2 The map -/

/-- The sets of functions that are not decided yet, as a function of the selectors. -/
structure ConflictMap where
  manager : Manager
  undecided : Edge

namespace ConflictMap

/-- At first nothing is decided.  The diagrams of the map have edges up to a bound of their own. -/
def empty (limit : Nat) : Except Fault ConflictMap := do
  return ⟨(← Manager.empty 10).withLimit limit, .one⟩

/-- The same map with edges for the indices below another bound. -/
def withLimit (map : ConflictMap) (limit : Nat) : ConflictMap :=
  { map with manager := map.manager.withLimit limit }

/-- An undecided set of the first `n` functions.  A selector that the model leaves open is on. -/
def seed? (map : ConflictMap) (n : Nat) : Except Fault (Option (List Nat)) := do
  let some model ← map.manager.onePath map.undecided | return none
  -- Only a selector that the path makes false leaves its function out.
  return some ((List.range n).filter fun i => !model.contains (-(selector i : Int)))

/-- From now on one of the literals has to hold. -/
def require (map : ConflictMap) (literals : List Int) : Except Fault ConflictMap := do
  let ⟨manager, undecided⟩ := map
  let (clause, manager) ← (mkClause literals).run manager
  let (undecided, manager) ← (conj undecided clause).run manager
  return ⟨manager, undecided⟩

end ConflictMap

/-! ## §3 The enumeration -/

/-- Decide undecided sets one after the other, and answer what was found with the map that is left.
    Every round decides at least one more set, so there are at most `2^n` rounds.  A grown set that
    lacks nothing ends the enumeration. -/
def conflictsFrom (fs : Array Edge) (map : ConflictMap) (found : List (List Nat)) :
    Nat → Build (List (List Nat) × ConflictMap)
  | 0 => return (found, map)
  | rounds + 1 => do
      let positions := List.range fs.size
      let some seed ← Fault.ofExcept (map.seed? fs.size) | return (found, map)
      if ← compatible fs seed then
        let grown ← growSet fs seed (positions.filter (!seed.contains ·))
        let missing := positions.filter (!grown.contains ·)
        -- All functions hold together, so there is no conflict at all.
        if missing.isEmpty then return (found, map)
        -- What is contained in the grown set holds together as well.
        let map ← Fault.ofExcept (map.require (missing.map fun i => (selector i : Int)))
        conflictsFrom fs map found rounds
      else
        let core ← shrinkSet fs [] seed
        -- What contains the core conflicts as well.
        let map ← Fault.ofExcept (map.require (core.map fun i => -(selector i : Int)))
        conflictsFrom fs map (found ++ [core]) rounds

/-- The minimal conflicts of a list of functions in the order in which they are found, and the map
    that is left.  The map has edges for the same indices as the manager of the functions. -/
def enumerateConflicts (fs : List Edge) : Build (List (List Nat) × ConflictMap) := do
  let map ← Fault.ofExcept (ConflictMap.empty (← get).limit)
  conflictsFrom fs.toArray map [] (1 <<< fs.length + 1)

/-- The minimal conflicts of a list of functions, each as ascending positions, in lexicographic
    order. -/
def minimalConflicts (fs : List Edge) : Build (List (List Nat)) := do
  let (found, _) ← enumerateConflicts fs
  return found.mergeSort (fun a b => (a.compareLex compare b).isLE)

end Stimulus
