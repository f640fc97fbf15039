import Stimulus.Diagram.Manager
import Std.Data.TreeSet

/-!
# Walking through diagrams

Main definitions:
- `Manager.descendants`, `Manager.size`: the nodes that edges lead to
- `Manager.support`: the variables that a diagram tests
- `Manager.onePath`: one way to make a function true
-/

namespace Stimulus

namespace Manager

/-! ## §1 Reachable nodes -/

/-- The nodes seen so far, together with those reachable from node `i` that were not seen yet.
    A node leads to nodes of smaller index only. -/
def reach (d : Manager) (i : Nat) (seen : Std.TreeSet Nat) : Except Fault (Std.TreeSet Nat) :=
  if seen.contains i then .ok seen
  else if i = 1 then .ok (seen.insert i)
  else
    match d.node i with
    | .error fault => .error fault
    | .ok n =>
      -- A test in place of a proof, as in the conditional.
      if n.low.index < i ∧ n.high.index < i then do
        let seen ← d.reach n.low.index (seen.insert i)
        d.reach n.high.index seen
      else .error .unordered
termination_by i

/-- The indices of all nodes that some edges lead to, the terminal included. -/
def descendants (d : Manager) (edges : List Edge) : Except Fault (Std.TreeSet Nat) :=
  edges.foldlM (fun seen e => d.reach e.index seen) ∅

/-- The number of nodes that an edge leads to. -/
def size (d : Manager) (e : Edge) : Except Fault Nat := do
  return (← d.descendants [e]).size

/-! ## §2 Support -/

/-- The variables of some nodes, without the terminal. -/
def varsOf (d : Manager) : List Nat → Except Fault (Std.TreeSet Nat)
  | [] => .ok ∅
  | i :: rest => do
      let vars ← d.varsOf rest
      if i = 1 then return vars
      return vars.insert (← d.node i).var

/-- The variables that a diagram tests, in ascending order. -/
def support (d : Manager) (e : Edge) : Except Fault (List Nat) := do
  let nodes ← d.descendants [e]
  return (← d.varsOf nodes.toList).toList

/-! ## §3 Paths -/

/-- A variable as a literal: a signed 32-bit number. -/
def literalOf (v : Nat) : Int := (BitVec.ofNat 32 v).toInt

/-- The literals on a path from an edge to truth.  The path goes along the high edge unless that
    is falsehood. -/
def pathFrom (d : Manager) (e : Edge) : Except Fault (List Int) :=
  if e = .one then .ok []
  else
    match d.node e.index with
    | .error fault => .error fault
    | .ok n =>
      let literal := literalOf n.var
      if n.low.index < e.index ∧ n.high.index < e.index then
        if n.high.complementIf e.isComplement ≠ .zero then do
          return literal :: (← d.pathFrom (n.high.complementIf e.isComplement))
        -- The least 32-bit number has no opposite.
        else if literal = (BitVec.intMin 32).toInt then .error .overflow
        else do
          return -literal :: (← d.pathFrom (n.low.complementIf e.isComplement))
      else .error .unordered
termination_by e.index

/-- One way to make a function true, as signed variables; falsehood has none. -/
def onePath (d : Manager) (e : Edge) : Except Fault (Option (List Int)) :=
  if e = .zero then .ok none else do return some (← d.pathFrom e)

end Manager

end Stimulus
