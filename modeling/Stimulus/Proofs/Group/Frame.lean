import Stimulus.Group.PartitionSolver
import Stimulus.Proofs.Outcome

/-!
# What partition solvers leave alone

A partition solver stays with its partition.  Only its analysis puts conflicts and soft constraints
on record; nothing that comes afterwards, a solve least of all, changes what is there.  This needs
no assumption about the solver and holds whatever a request answers.

Main definition:
- `PartitionSolver.SameRecord`: the partition, its bounds and what is on record are the same

Main statement:
- `PartitionSolver.solve_keeps`
-/

namespace Stimulus

namespace PartitionSolver

/-! ## §1 The record -/

/-- The partition and its bounds are the same, and so is what an analysis has put on record. -/
structure SameRecord (s s' : PartitionSolver) : Prop where
  partition_eq : s'.partition = s.partition
  bounds_eq : s'.bounds = s.bounds
  contradictions_eq : s'.contradictions = s.contradictions
  inactiveSofts_eq : s'.inactiveSofts = s.inactiveSofts

section

variable {s₀ s s' s'' : PartitionSolver} {α : Type}

theorem SameRecord.refl (s : PartitionSolver) : s.SameRecord s := ⟨rfl, rfl, rfl, rfl⟩

theorem SameRecord.trans (h : s.SameRecord s') (h' : s'.SameRecord s'') : s.SameRecord s'' where
  partition_eq := h'.partition_eq.trans h.partition_eq
  bounds_eq := h'.bounds_eq.trans h.bounds_eq
  contradictions_eq := h'.contradictions_eq.trans h.contradictions_eq
  inactiveSofts_eq := h'.inactiveSofts_eq.trans h.inactiveSofts_eq

/-! ## §2 Parts of a partition solver -/

theorem useSolver_keeps (act : Request Solver α) : Preserves (useSolver act) s₀.SameRecord := by
  intro s hs
  unfold Leaves Grants useSolver
  dsimp only
  cases act s.solver with
  | error fault => trivial
  | ok r => obtain ⟨refusal | a, solver⟩ := r <;> exact ⟨hs.1, hs.2, hs.3, hs.4⟩

theorem draw_keeps (act : Draw α) : Preserves (draw act) s₀.SameRecord := by
  intro s hs
  unfold Leaves Grants draw
  cases act s.rng with
  | error fault => trivial
  | ok r => exact ⟨hs.1, hs.2, hs.3, hs.4⟩

theorem addConstraints_keeps : Preserves addConstraints s₀.SameRecord := by
  unfold addConstraints
  refine .bind .get fun s => .bind (.forM fun _ => useSolver_keeps _) fun _ => ?_
  exact .bind .get fun s => .forM fun _ => useSolver_keeps _

theorem newSolver_keeps (storageBits : Nat) :
    Preserves (newSolver storageBits) s₀.SameRecord := by
  unfold newSolver
  exact .bind (draw_keeps _) fun _ => .ofExcept _

theorem addPresolver_keeps (c : Context) (storageBits id : Nat) (e : Expr) :
    Preserves (addPresolver c storageBits id e) s₀.SameRecord := by
  unfold addPresolver
  refine .bind .get fun s => ?_
  dsimp only
  split
  · exact .pure _
  · refine .bind (newSolver_keeps storageBits) fun _ => .bind (.ofAttempt _) fun _ => ?_
    exact .modify fun _ hs => ⟨hs.1, hs.2, hs.3, hs.4⟩

theorem suggestAhead_keeps : Preserves suggestAhead s₀.SameRecord := by
  unfold suggestAhead
  refine .bind .get fun s => .bind (.modify fun _ hs => ⟨hs.1, hs.2, hs.3, hs.4⟩) fun _ => ?_
  refine .bind (.ofExcept _) fun (values, presolvers) => ?_
  refine .bind (.modify fun _ hs => ⟨hs.1, hs.2, hs.3, hs.4⟩) fun _ => ?_
  exact .forM fun _ => useSolver_keeps _

theorem suggestDistributions_keeps (c : Context) :
    Preserves (suggestDistributions c) s₀.SameRecord := by
  unfold suggestDistributions
  refine .bind .get fun s => .forM fun (id, d) => ?_
  dsimp only
  cases s.scalars[id]? with
  | none => exact .pure _
  | some e => exact .bind (draw_keeps _) fun _ => useSolver_keeps _

theorem prepare_keeps (c : Context) : Preserves (prepare c) s₀.SameRecord := by
  unfold prepare
  refine .bind suggestAhead_keeps fun _ => .bind .get fun s => ?_
  exact .bind (useSolver_keeps _) fun _ => suggestDistributions_keeps c

/-! ## §3 Solving -/

/-- A solve leaves the record alone. -/
theorem solve_keeps (c : Context) (s : PartitionSolver) :
    Ensures (solve c) s (fun _ => True) fun _ s' => s.SameRecord s' := by
  have hattempt : Preserves (do
      prepare c
      useSolver (Request.step (Solver.solve false))) s.SameRecord :=
    .bind (prepare_keeps c) fun _ => useSolver_keeps _
  unfold solve
  apply Ensures.get_bind
  split
  · exact .pure (.refl s)
  · apply (hattempt s (.refl s)).run_bind
    intro r s' hs'
    rcases r with refusal | found
    · exact .pure hs'
    cases found with
    | false => exact .pure hs'
    | true =>
      apply Ensures.get_bind
      exact .ofExcept_bind (ends_true _) fun results _ => .pure hs'

end

end PartitionSolver

end Stimulus
