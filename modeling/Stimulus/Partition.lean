import Stimulus.Constraint

/-!
# Partitions

The scalar constraints of all registries are split into partitions that share no variable, so that
each can be solved on its own.  A partition grows from the oldest constraint that is left, round by
round, by all constraints that share a variable with it.

Main definitions:
- `Partition`, `Partition.singleOn`
- `gather`: one partition and what is left
- `partitionPool`
- `Partitioner`, `Partitioner.merge`, `Partitioner.partition`
-/

namespace Stimulus

/-! ## §1 Partitions -/

/-- Constraints that share no variable with any other partition, the newest first. -/
structure Partition where
  constraints : List Constraint
  support : Std.TreeSet Nat

namespace Partition

/-- The hard constraints whose only variable is `v`. -/
def singleOn (p : Partition) (v : Nat) : List Constraint :=
  p.constraints.filter fun c => c.isHard && c.support.toList == [v]

/-- The variables that have hard constraints of their own, with these. -/
def singles (p : Partition) : List (Nat × List Constraint) :=
  (p.support.toList.map fun v => (v, p.singleOn v)).filter (!·.2.isEmpty)

/-- The names of the constraints. -/
def names (p : Partition) : List String := p.constraints.map Constraint.name

end Partition

/-! ## §2 Gathering -/

/-- Whether a constraint has a variable of a set. -/
def Constraint.touches (c : Constraint) (support : Std.TreeSet Nat) : Bool :=
  c.support.toList.any (support.contains ·)

/-- The set together with the variables of a constraint. -/
def joinSupport (support : Std.TreeSet Nat) (c : Constraint) : Std.TreeSet Nat :=
  c.support.toList.foldl (·.insert ·) support

/-- The members and the support of a partition under construction, and the constraints left. -/
structure Gathering where
  members : List Constraint
  support : Std.TreeSet Nat
  left : List Constraint

namespace Gathering

/-- All constraints that touch the support join at once. -/
def round (g : Gathering) : Gathering :=
  let joining := g.left.filter (·.touches g.support)
  { members := g.members ++ joining
    support := joining.foldl joinSupport g.support
    left := g.left.filter (!·.touches g.support) }

/-- Rounds until nothing joins any more. -/
def close (g : Gathering) : Gathering :=
  if g.round.left.length < g.left.length then g.round.close else g
termination_by g.left.length

theorem length_left_close (g : Gathering) : g.close.left.length ≤ g.left.length := by
  fun_induction close g with
  | case1 g shorter ih => omega
  | case2 g _ => exact Nat.le_refl _

/-- The finished partition. -/
def finish (g : Gathering) : Partition :=
  ⟨g.members.mergeSort (fun a b => b.id ≤ a.id), g.support⟩

end Gathering

/-- The partition of a constraint among those that come after it. -/
def gather (c : Constraint) (pool : List Constraint) : Gathering :=
  Gathering.close ⟨[c], joinSupport ∅ c, pool⟩

/-- All partitions of a pool, in the order of their oldest constraints. -/
def partitionPool : List Constraint → List Partition
  | [] => []
  | c :: pool => (gather c pool).finish :: partitionPool (gather c pool).left
termination_by pool => pool.length
decreasing_by
  exact Nat.lt_succ_of_le (Gathering.length_left_close ⟨[c], joinSupport ∅ c, pool⟩)

/-! ## §3 The partitioner -/

/-- The constraints merged so far: those not split yet, the vector constraints, the partitions, and
    the registries that they came from. -/
structure Partitioner where
  pool : List Constraint
  vectorConstraints : List Constraint
  partitions : List Partition
  merged : Std.TreeSet Nat

namespace Partitioner

/-- A partitioner into which nothing is merged. -/
def empty : Partitioner := ⟨[], [], [], ∅⟩

/-- Add the active constraints of a registry, unless that was done before. -/
def merge (p : Partitioner) (r : Registry) : Partitioner :=
  -- Registries are told apart by their ids, so a changed one is not read again.
  if p.merged.contains r.id then p
  else
    { p with
      pool := p.pool ++ r.active.filter (!·.isVector)
      vectorConstraints := p.vectorConstraints ++ r.active.filter (·.isVector)
      merged := p.merged.insert r.id }

/-- Split what is in the pool. -/
def partition (p : Partitioner) : Partitioner :=
  -- Partitions of earlier rounds stay as they are.
  { p with pool := [], partitions := p.partitions ++ partitionPool p.pool }

/-- Whether nothing is there to solve. -/
def isEmpty (p : Partitioner) : Bool :=
  p.partitions.isEmpty && p.vectorConstraints.isEmpty && p.pool.isEmpty

end Partitioner

end Stimulus
