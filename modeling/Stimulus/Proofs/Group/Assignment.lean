import Stimulus.Proofs.Group.Ensemble
import Stimulus.Proofs.Group.Meaning

/-!
# Solvers keep to their partitions

A rebuild makes one solver for each partition, in the order of the partitions.  It is refused only
if a constraint needs a vector.  However often a solver is asked afterwards, and whatever it
answers, it stays the solver of its partition.

Main statements:
- `PlainEnsemble.rebuildPlain_assigns`, `PlainEnsemble.solvePlain_keeps`
- `CoverageEnsemble.rebuildCoverage_assigns`, `CoverageEnsemble.solveCoverage_keeps`
-/

namespace Stimulus

/-! ## §1 Coverage solvers -/

/-- What a coverage solver asserts needs a vector only if a constraint of the partition does. -/
theorem Partition.needsVector_of_assert {p : Partition} {c : Context} {max : Nat} {e : Expr}
    (he : e ∈ (p.constraints.filter (·.isHard)).map Constraint.expr ++
      (boundsOnSizes c p.scalars max).values) (hvector : e.mentionsVector = true) :
    p.NeedsVector := by
  rcases List.mem_append.mp he with he | he
  · obtain ⟨x, hx, rfl⟩ := List.mem_map.mp he
    exact ⟨x, (List.mem_filter.mp hx).1, hvector⟩
  · -- Bounds need no vector.
    obtain ⟨id, hid⟩ := mem_values_treeMap.mp he
    rw [mentionsVector_of_bounds p.variables_scalars hid] at hvector
    cases hvector

namespace CoverageSolver

section

variable {p : Partition} {α : Type}

/-- Building a coverage solver is refused only if a constraint of the partition needs a vector. -/
theorem build_assigns (c : Context) (storageBits : Nat) (settings : Settings) (p : Partition)
    (seed : Nat) :
    Attempts (build c storageBits settings p seed) (fun _ => True) (fun _ => p.NeedsVector)
      fun s => s.partition = p := by
  unfold build
  apply Attempts.ofExcept_bind (Solver.empty_means storageBits seed)
  intro solver hsolver
  dsimp only
  have hassert := (Solver.assertEach_means ((p.constraints.filter (·.isHard)).map
    Constraint.expr ++ (boundsOnSizes c p.scalars settings.maxVectorSize).values) hsolver).runOn
  refine Attempts.bind (hassert.imp (fun _ hf => hf) ?_ fun _ hs => hs) fun _ _ => rfl
  rintro _ ⟨e, he, hvector⟩
  exact p.needsVector_of_assert he hvector

theorem useSolver_keeps (act : Request Solver α) :
    Preserves (useSolver act) fun s => s.partition = p := by
  intro s hs
  unfold Leaves Grants useSolver
  dsimp only
  cases act s.solver with
  | error fault => trivial
  | ok r => obtain ⟨refusal | a, solver⟩ := r <;> exact hs

theorem hitFirst_keeps (c : Context) (covers : List Constraint) (s : CoverageSolver) :
    Ensures (hitFirst c covers) s (fun _ => True) fun _ s' => s'.partition = s.partition := by
  -- The solver changes with each attempt, so it is general in the induction.
  induction covers generalizing s with
  | nil => exact .pure rfl
  | cons cover covers ih =>
    have htry : Preserves (tryCover c cover) fun s' => s'.partition = s.partition := by
      unfold tryCover
      exact .bind .get fun _ => useSolver_keeps _
    unfold hitFirst
    apply (htry s rfl).run_bind
    intro r s' hs'
    -- A cover constraint that is refused is passed over like one that is not hit.
    rcases r with refusal | found
    · exact (ih s').mono fun _ _ h => h.trans hs'
    cases found with
    | false => exact (ih s').mono fun _ _ h => h.trans hs'
    | true =>
      apply Ensures.modify_bind
      apply Ensures.get_bind
      exact .ofExcept_bind (ends_true _) fun results _ => .pure hs'

/-- A solve stays with the partition. -/
theorem solve_keeps (c : Context) (s : CoverageSolver) :
    Ensures (solve c) s (fun _ => True) fun _ s' => s'.partition = s.partition := by
  unfold solve
  apply Ensures.modify_bind
  apply Ensures.get_bind
  exact hitFirst_keeps c _ _

end

end CoverageSolver

/-! ## §2 Plain ensembles -/

namespace PlainEnsemble

open Ensemble

section

variable {ps : List Partition}

/-- A rebuild makes one solver for each partition. -/
theorem rebuildPlain_assigns (c : Context) (e : PlainEnsemble)
    (hps : ∀ p ∈ ps, ¬ p.NeedsVector) :
    Grants (rebuildPlain c ps) e (fun _ => True) (fun _ _ => False) fun _ e' =>
      e'.solvers.map PartitionSolver.partition = ps := by
  have hmake : ∀ p ∈ ps, ∀ seed, Attempts
      (PartitionSolver.build c e.source.storageBits e.source.settings p seed) (Stuck False)
      (fun _ => False) fun s => s.partition = p := by
    intro p hp seed
    apply (PartitionSolver.build_means c e.source.storageBits e.source.settings p seed).imp
    · exact fun fault _ => stuck_of_not not_false
    · exact fun _ hvector => hps p hp hvector
    · exact fun s hs => hs.partition_eq
  -- A worker may break down, but with partitions like these it is not refused.
  apply (rebuildPlain_of_build hmake).imp (fun _ _ => trivial) (fun _ _ hr => hr)
  rintro _ e' ⟨hsolvers, -⟩
  rw [← List.forall₂_eq_eq_eq]
  exact List.forall₂_map_left_iff.mpr hsolvers

theorem solveEach_keeps (c : Context) (solvers : List PartitionSolver) :
    Ends (solveEach c solvers) (fun _ => True) fun r =>
      r.2.1.map PartitionSolver.partition = solvers.map PartitionSolver.partition := by
  induction solvers generalizing c with
  | nil => exact rfl
  | cons s solvers ih =>
    unfold solveEach
    apply Ends.bind (PartitionSolver.solve_keeps c s)
    rintro ⟨answer, s'⟩ hs'
    cases answer with
    | none => exact congrArg (· :: _) hs'.partition_eq
    | some results =>
      apply Ends.bind (ih _)
      intro r hrest
      exact congrArg₂ List.cons hs'.partition_eq hrest

theorem solveAll_keeps (c : Context) (solvers : List PartitionSolver) :
    Ends (solveAll c solvers) (fun _ => True) fun r =>
      r.2.map PartitionSolver.partition = solvers.map PartitionSolver.partition := by
  induction solvers with
  | nil => exact rfl
  | cons s solvers ih =>
    unfold solveAll
    apply Ends.bind (PartitionSolver.solve_keeps c s)
    rintro ⟨answer, s'⟩ hs'
    apply Ends.bind ih
    intro r hrest
    exact congrArg₂ List.cons hs'.partition_eq hrest

/-- Solves stay with the partitions. -/
theorem solvePlain_keeps :
    Preserves solvePlain fun s => s.item.solvers.map PartitionSolver.partition = ps := by
  intro s hs
  obtain ⟨c, source, solvers⟩ := s
  have hrun : Ends (if source.settings.sideBySide then solveSideBySide List.flatten c solvers
      else solveEach c solvers) (fun _ => True) fun r =>
        r.2.1.map PartitionSolver.partition = solvers.map PartitionSolver.partition := by
    split
    · exact Ends.bind (solveAll_keeps c solvers) fun r hr => hr
    · exact solveEach_keeps c solvers
  unfold Leaves Grants solvePlain
  dsimp only
  split
  · trivial
  · rename_i r hr
    exact (hrun.of_ok hr).trans hs

end

end PlainEnsemble

/-! ## §3 Coverage ensembles -/

namespace CoverageEnsemble

open Ensemble

section

variable {ps : List Partition}

theorem rebuildCoverage_assigns (c : Context) (e : CoverageEnsemble)
    (hps : ∀ p ∈ ps, ¬ p.NeedsVector) :
    Grants (rebuildCoverage c ps) e (fun _ => True) (fun _ _ => False) fun _ e' =>
      e'.solvers.map CoverageSolver.partition = ps := by
  -- The solver of a scalar partition is built, and is filed under that partition.
  have hmake : ∀ p ∈ ps, ∀ seed, Attempts
      (CoverageSolver.build c e.source.storageBits e.source.settings p seed) (fun _ => True)
      (fun _ => False) fun s => s.partition = p := by
    intro p hp seed
    apply (CoverageSolver.build_assigns c e.source.storageBits e.source.settings p seed).imp
    · exact fun _ hf => hf
    · exact fun _ hvector => hps p hp hvector
    · exact fun s hs => hs
  unfold rebuildCoverage
  apply Grants.get_bind
  have hrebuild := rebuild_grants (E := fun _ => True) trivial hmake
  apply hrebuild.mono
  rintro _ e' ⟨hsolvers, -⟩
  rw [← List.forall₂_eq_eq_eq]
  exact List.forall₂_map_left_iff.mpr hsolvers

theorem hitEach_keeps (c : Context) (solvers : List CoverageSolver) :
    Ends (hitEach c solvers) (fun _ => True) fun r =>
      r.2.1.map CoverageSolver.partition = solvers.map CoverageSolver.partition := by
  induction solvers generalizing c with
  | nil => exact rfl
  | cons s solvers ih =>
    unfold hitEach
    apply Ends.bind (CoverageSolver.solve_keeps c s)
    rintro ⟨answer, s'⟩ hs'
    apply Ends.bind (ih _)
    intro r hrest
    exact congrArg₂ List.cons hs' hrest

theorem solveCoverage_keeps :
    Preserves solveCoverage fun s => s.item.solvers.map CoverageSolver.partition = ps := by
  intro s hs
  obtain ⟨c, source, solvers⟩ := s
  unfold Leaves Grants solveCoverage
  dsimp only
  split
  · trivial
  · rename_i r hr
    exact ((hitEach_keeps c solvers).of_ok hr).trans hs

end

end CoverageEnsemble

end Stimulus
