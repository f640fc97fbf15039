import Stimulus.Group.CoverageSolver
import Stimulus.Proofs.Group.Problem

/-!
# What coverage solvers answer

A coverage solver poses the hard constraints of its partition and the bounds on sizes.  A solve that
hits a cover constraint finds an environment that satisfies it together with all of them and with
the values of the references; otherwise none of the cover constraints that are left can be hit.

Main definitions:
- `CoverageSolver.Ready`: a coverage solver between two solves

Main statements:
- `CoverageSolver.build_attempts`
- `CoverageSolver.solve_ensures`
-/

namespace Stimulus

namespace CoverageSolver

/-- A coverage solver between two solves: it poses the hard constraints of a partition and bounds on
    sizes. -/
structure Ready (s : CoverageSolver) (c : Context) (p : Partition) (max : Nat) : Prop where
  partition_eq : s.partition = p
  scalars_eq : s.scalars = p.scalars
  poses : ∃ bounds, Bounds c p.scalars max bounds ∧
    s.solver.Poses c.signature (p.hards ++ bounds) [] [] []

section

variable {s : CoverageSolver} {c c' : Context} {p : Partition} {max : Nat} {safe : Prop}

/-- Declarations that come later do not concern a coverage solver. -/
theorem Ready.grows (h : s.Ready c p max) (hp : p.Posed c.signature) (hc : c.WellFormed)
    (hc' : c'.WellFormed) (hgrows : c.Grows c') : s.Ready c' p max := by
  obtain ⟨bounds, hbounds, hposes⟩ := h.poses
  exact ⟨h.partition_eq, h.scalars_eq, bounds, hbounds.grows hp.declares hc hc' hgrows,
    hposes.sub hgrows.signature⟩

/-- A coverage solver is ready once it is built, and nothing counts as covered.  Building it is
    never refused. -/
theorem build_attempts {settings : Settings} {storageBits : Nat} (hc : c.WellFormed)
    (hp : p.Posed c.signature) (hfew : safe → c.signature.Few) (hbits : safe → storageBits ≤ 31)
    (seed : Nat) :
    Attempts (build c storageBits settings p seed) (Stuck safe) (fun _ => False) fun s =>
      s.Ready c p settings.maxVectorSize ∧ s.covered = ∅ := by
  unfold build
  refine Attempts.ofExcept_bind (Solver.empty_ends (Γ := c.signature) hbits) ?_
  intro solver hsolver
  dsimp only
  have hbounds := bounds_boundsOnSizes hc hp.declares settings.maxVectorSize
  -- The hard constraints and the bounds are asserted in turn; softs are left out.
  have hassert : Grants ((p.hards ++
        (boundsOnSizes c p.scalars settings.maxVectorSize).values).forM Solver.assert) solver
      (Stuck safe) (fun _ _ => False) fun _ t => t.Poses c.signature (p.hards ++
        (boundsOnSizes c p.scalars settings.maxVectorSize).values) [] [] [] :=
    grants_forM_from (I := fun done (t : Solver) => t.Poses c.signature done [] [] []) hsolver
    fun done e t ht he => by
      have hadmits : c.signature.Admits e := (List.mem_append.mp he).elim hp.admits_hards
        (hbounds.admits hc)
      exact Solver.assert_grants ht hadmits hfew
  refine Attempts.bind hassert.runOn ?_
  rintro ⟨_, solver'⟩ hsolver'
  exact ⟨⟨rfl, rfl, _, hbounds, hsolver'⟩, rfl⟩

theorem useSolver_grants {α : Type} {act : Request Solver α} {E : Fault → Prop}
    {Q : α → Solver → Prop} (h : Grants act s.solver E (fun _ _ => False) Q) :
    Grants (useSolver act) s E (fun _ _ => False) fun a s' =>
      ∃ solver, s' = { s with solver := solver } ∧ Q a solver := by
  refine (grants_focus (fun solver => { s with solver := solver }) ?_ h).imp_refusal
    fun _ _ ⟨_, _, hr⟩ => hr
  obtain ⟨partition, solver, scalars, covered, hit⟩ := s
  unfold useSolver
  dsimp only
  cases act solver <;> rfl

/-- What a solve of a coverage solver answers.  With an answer the partition has a solution that
    satisfies a cover constraint, whose name counts as covered from then on; the results are its
    values, and so is what the solver answers afterwards.  Without an answer no solution satisfies
    one of the cover constraints. -/
def Solves (s : CoverageSolver) (c : Context) (p : Partition) (max : Nat)
    (covers : List Constraint) (before : Std.TreeSet String)
    (answer : Option (List (Nat × Nat))) : Prop :=
  match answer with
  | some results => s.hit = true ∧
    (∃ env, (∃ cover ∈ covers, cover.expr.Holds env ∧ s.covered = before.insert cover.name) ∧
      Answered c p max env s.read) ∧
      ∀ id n, (id, n) ∈ results ↔ s.read id = .ok (some n)
  | none => s.hit = false ∧ s.covered = before ∧
    ∀ cover ∈ covers, ¬ ∃ env, p.SolvedBy c max env ∧ cover.expr.Holds env

/-- A try finds a model of a cover constraint and all that is posed, unless there is none. -/
theorem tryCover_grants (h : s.Ready c p max) (hp : p.Posed c.signature) (hc : c.WellFormed)
    (hfew : safe → c.signature.Few) {cover : Constraint} (hcover : cover ∈ p.constraints) :
    Grants (tryCover c cover) s (Stuck safe) (fun _ _ => False) fun found s' =>
      s'.Ready c p max ∧ (∃ solver, s' = { s with solver := solver }) ∧
        (found = true → ∃ env, cover.expr.Holds env ∧
          Answered c p max env (s'.solver.readVariable p.scalars)) ∧
        (found = false → ¬ ∃ env, p.SolvedBy c max env ∧ cover.expr.Holds env) := by
  obtain ⟨bounds, hbounds, hposes⟩ := h.poses
  have hgoal {env : Nat → Nat} :
      Expr.AllHold env (givens c p.scalars ++ [cover.expr] ++ (p.hards ++ bounds)) ↔
        Expr.AllHold env (givens c p.scalars ++ (p.hards ++ bounds)) ∧ cover.expr.Holds env := by
    have hone : Expr.AllHold env [cover.expr] ↔ cover.expr.Holds env := by simp [Expr.AllHold]
    simp only [Expr.allHold_append, hone]
    tauto
  unfold tryCover
  refine .get_bind ?_
  dsimp only
  refine (useSolver_grants (Q := fun found t => t.Poses c.signature (p.hards ++ bounds) [] [] [] ∧
    t.Solved c.signature found (givens c p.scalars ++ [cover.expr] ++ (p.hards ++ bounds)) [])
    ?_).mono ?_
  · rw [h.scalars_eq]
    refine (Solver.assumeReferences_grants hposes hp hfew).bind fun _ t₁ h₁ => ?_
    refine (Solver.assume_grants h₁ (hp cover hcover) hfew).bind fun _ t₂ h₂ => ?_
    exact (Solver.solve_ensures safe h₂ false).step
  · rintro found _ ⟨solver, rfl, hsolver, hanswer⟩
    refine ⟨⟨h.partition_eq, h.scalars_eq, bounds, hbounds, hsolver⟩, ⟨solver, rfl⟩,
      fun hfound => ?_, fun hfound => ?_⟩
    · obtain ⟨env, henv, -, hshows⟩ := hanswer.model hfound
      -- A model of everything at once is a solution in which the cover constraint holds.
      obtain ⟨hposed, hholds⟩ := hgoal.mp henv
      exact ⟨env, hholds, Solver.answered_of_shows hc hp hbounds hsolver (List.Subset.refl _)
        hposed hshows⟩
    · rintro ⟨env, hsolved, hholds⟩
      exact hanswer.noModel hfound
        ⟨env, hgoal.mpr ⟨(hbounds.solvedBy_iff hc hp).mp hsolved, hholds⟩⟩

theorem hitFirst_ensures (h : s.Ready c p max) (hc : c.WellFormed) (hp : p.Posed c.signature)
    (hfew : safe → c.signature.Few) (hhit : s.hit = false) {covers : List Constraint}
    (hcovers : ∀ cover ∈ covers, cover ∈ p.constraints) :
    Ensures (hitFirst c covers) s (Stuck safe) fun answer s' =>
      s'.Ready c p max ∧ s'.Solves c p max covers s.covered answer := by
  induction covers generalizing s with
  | nil => exact .pure ⟨h, hhit, rfl, fun cover hcover => absurd hcover List.not_mem_nil⟩
  | cons cover rest ih =>
    unfold hitFirst
    refine (tryCover_grants h hp hc hfew (hcovers cover List.mem_cons_self)).run_bind ?_
    rintro found s₁ ⟨h₁, ⟨solver, rfl⟩, hfound, hmissed⟩
    cases found with
    | false =>
      -- What a later cover constraint finds is found among all of them.
      refine (ih h₁ hhit fun x hx => hcovers x (List.mem_cons_of_mem cover hx)).mono ?_
      rintro answer s' ⟨hs', hsolves⟩
      refine ⟨hs', ?_⟩
      cases answer with
      | none =>
        obtain ⟨hhit', hcovered, hrest⟩ := hsolves
        exact ⟨hhit', hcovered, List.forall_mem_cons.mpr ⟨hmissed rfl, hrest⟩⟩
      | some results =>
        obtain ⟨hhit', ⟨env, ⟨x, hx, hholds⟩, hanswered⟩, hresults⟩ := hsolves
        exact ⟨hhit', ⟨env, ⟨x, List.mem_cons_of_mem cover hx, hholds⟩, hanswered⟩, hresults⟩
    | true =>
      obtain ⟨env, hholds, hanswered⟩ := hfound rfl
      -- The first one found is noted under its name, and the search ends.
      let s' : CoverageSolver :=
        { s with solver := solver, covered := s.covered.insert cover.name, hit := true }
      have hs' : s'.Ready c p max := ⟨h₁.partition_eq, h₁.scalars_eq, h₁.poses⟩
      have hread : s'.read = solver.readVariable p.scalars := by
        funext id
        rw [← h.scalars_eq]
        rfl
      refine .modify_bind (.get_bind (.ofExcept_bind (R := fun results =>
        ∀ id n, (id, n) ∈ results ↔ s'.read id = .ok (some n)) ?_ fun results hresults => ?_))
      · rw [hread, ← h.scalars_eq]
        exact Solver.results_ends (h.scalars_eq ▸ hanswered.ends)
      · exact .pure ⟨hs', rfl, ⟨env, ⟨cover, List.mem_cons_self, hholds, rfl⟩, hread ▸ hanswered⟩,
          hresults⟩

/-- A coverage solver is ready again after every solve. -/
theorem solve_ensures (h : s.Ready c p max) (hc : c.WellFormed) (hp : p.Posed c.signature)
    (hfew : safe → c.signature.Few) :
    Ensures (solve c) s (Stuck safe) fun answer s' => s'.Ready c p max ∧
      s'.Solves c p max (p.constraints.filter fun x => x.cover && !s.covered.contains x.name)
        s.covered answer := by
  obtain rfl := h.partition_eq
  unfold solve
  refine .modify_bind (.get_bind ?_)
  exact hitFirst_ensures (s := { s with hit := false }) ⟨rfl, h.scalars_eq, h.poses⟩ hc hp hfew rfl
    fun cover hcover => (List.mem_filter.mp hcover).1

end

end CoverageSolver

end Stimulus
