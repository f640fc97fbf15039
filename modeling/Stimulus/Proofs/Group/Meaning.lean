import Stimulus.Proofs.Group.Problem
import Stimulus.Proofs.Solver.Meaning

/-!
# What partition solvers demand

A partition solver is built once and solved many times.  Building settles which properties it
demands of environments; a solve neither adds to them nor takes any away.  So whether a solve
finds a solution depends on what was built and on the references of the context, and on nothing
that the random words decide.

Main definitions:
- `Partition.NeedsVector`: when building is refused
- `PartitionSolver.Means`: what a partition solver demands
- `PartitionSolver.Solvable`: when a solve answers a solution
- `PartitionSolver.Task`: what is settled once a partition solver is built

Main statements:
- `PartitionSolver.build_means`
- `PartitionSolver.solve_means`
- `PartitionSolver.solve_congr`
-/

namespace Stimulus

/-! ## §1 Variables -/

/-- Some constraint of the partition needs a vector, so it has no circuit. -/
def Partition.NeedsVector (p : Partition) : Prop :=
  ∃ x ∈ p.constraints, x.expr.mentionsVector = true

/-- The table knows nothing but variables, each under its own id. -/
def Variables (vars : Std.TreeMap Nat Expr) : Prop :=
  ∀ (id : Nat) (e : Expr), vars[id]? = some e → ∃ sort, e = .var id sort

/-- The scalars of a partition are variables that occur in it. -/
theorem Partition.mentions_of_scalars {p : Partition} {id : Nat} {e : Expr}
    (h : p.scalars[id]? = some e) : ∃ sort, e = .var id sort ∧ p.Mentions id sort := by
  rw [scalars_eq_tableOf] at h
  rcases mem_of_getElem?_tableOf h with hempty | ⟨x, hx, hentry⟩
  · simp at hempty
  · obtain ⟨c, hc, hmem⟩ := List.mem_flatMap.mp hx
    obtain ⟨id', sort, rfl, hmentions⟩ := Expr.mentions_of_mem_scalars hmem
    cases hentry
    exact ⟨sort, rfl, c, hc, hmentions⟩

theorem Partition.variables_scalars (p : Partition) : Variables p.scalars := by
  intro id e h
  obtain ⟨sort, he, -⟩ := mentions_of_scalars h
  exact ⟨sort, he⟩

/-- A bound on a size needs no vector, whatever sort the size has. -/
theorem mentionsVector_of_bounds {c : Context} {vars : Std.TreeMap Nat Expr} {max id : Nat}
    {e : Expr} (hvars : Variables vars) (h : (boundsOnSizes c vars max)[id]? = some e) :
    e.mentionsVector = false := by
  rw [boundsOnSizes_eq_tableOf] at h
  rcases mem_of_getElem?_tableOf h with hempty | ⟨⟨v, entry⟩, -, hentry⟩
  · simp at hempty
  · obtain ⟨size, hsize, heq⟩ := Option.map_eq_some_iff.mp hentry
    obtain ⟨sort, rfl⟩ := hvars _ _ hsize
    cases heq
    simp [Expr.constant]

namespace PartitionSolver

/-! ## §2 What a partition solver demands -/

/-- The solver of a partition demands properties of environments, everything that is solved ahead
    is a variable, and the conflicts on record are given. -/
structure Means (s : PartitionSolver) (p : Partition) (conflicts : List (List String))
    (hard : Demand) (softs assumed : List Demand) : Prop where
  partition_eq : s.partition = p
  scalars_eq : s.scalars = p.scalars
  contradictions_eq : s.contradictions = conflicts
  bounds : ∀ (id : Nat) (e : Expr), s.bounds[id]? = some e → e.mentionsVector = false
  presolvers : ∀ x ∈ s.presolvers, ∃ id sort, x.1 = .var id sort
  solver : s.solver.Means hard softs assumed

/-- Something is demanded, and nothing is assumed so far. -/
def Built (s : PartitionSolver) (p : Partition) : Prop :=
  ∃ conflicts hard softs, s.Means p conflicts hard softs []

section

variable {s : PartitionSolver} {p : Partition} {conflicts : List (List String)} {hard : Demand}
  {softs assumed : List Demand} {c : Context}

theorem Built.partition_eq (h : s.Built p) : s.partition = p := by
  obtain ⟨_, _, _, h⟩ := h
  exact h.partition_eq

theorem Means.withSolver (h : s.Means p conflicts hard softs assumed) {solver : Solver}
    {hard' : Demand} {softs' assumed' : List Demand} (hsolver : solver.Means hard' softs' assumed') :
    Means { s with solver := solver } p conflicts hard' softs' assumed' :=
  ⟨h.partition_eq, h.scalars_eq, h.contradictions_eq, h.bounds, h.presolvers, hsolver⟩

theorem Means.withRng (h : s.Means p conflicts hard softs assumed) (rng : Stream) :
    Means { s with rng := rng } p conflicts hard softs assumed :=
  ⟨h.partition_eq, h.scalars_eq, h.contradictions_eq, h.bounds, h.presolvers, h.solver⟩

theorem Means.withPresolvers (h : s.Means p conflicts hard softs assumed)
    {presolvers : List (Expr × Solver)}
    (hpresolvers : ∀ x ∈ presolvers, ∃ id sort, x.1 = .var id sort) :
    Means { s with presolvers := presolvers } p conflicts hard softs assumed :=
  ⟨h.partition_eq, h.scalars_eq, h.contradictions_eq, h.bounds, hpresolvers, h.solver⟩

theorem Means.variables (h : s.Means p conflicts hard softs assumed) : Variables s.scalars := by
  rw [h.scalars_eq]
  exact p.variables_scalars

theorem draw_means {α : Type} {R : Refusal → PartitionSolver → Prop}
    (h : s.Means p conflicts hard softs assumed) (act : Draw α) :
    Grants (draw act) s (fun _ => True) R fun _ s' => s'.Means p conflicts hard softs assumed := by
  unfold Grants draw
  cases act s.rng with
  | error fault => trivial
  | ok r => exact h.withRng r.2

theorem newSolver_means {R : Refusal → PartitionSolver → Prop}
    (h : s.Means p conflicts hard softs assumed) (storageBits : Nat) :
    Grants (newSolver storageBits) s (fun _ => True) R fun solver s' =>
      s'.Means p conflicts hard softs assumed ∧ solver.Means (fun _ => True) [] [] := by
  apply (draw_means h _).bind
  intro seed s₁ h₁
  apply (Grants.ofExcept (Solver.empty_means storageBits seed)).mono
  rintro solver _ ⟨hsolver, rfl⟩
  exact ⟨h₁, hsolver⟩

/-! ## §3 Building -/

/-- The solver takes in one more constraint, hard or soft. -/
theorem pose_means {act : Request Solver Unit} {e : Expr} {refused : Prop} (h : s.Built p)
    (hact : ∀ (solver : Solver) (hard : Demand) (softs assumed : List Demand),
      solver.Means hard softs assumed → Grants act solver (fun _ => True)
        (fun _ _ => e.mentionsVector = true) fun _ solver' =>
          ∃ hard' softs', solver'.Means hard' softs' assumed)
    (hvector : e.mentionsVector = true → refused) :
    Grants (useSolver act) s (fun _ => True) (fun _ _ => refused) fun _ s' => s'.Built p := by
  obtain ⟨conflicts, hard, softs, h⟩ := h
  apply (useSolver_focus (hact _ _ _ _ h.solver)).imp (fun _ hf => hf)
  · rintro _ _ ⟨_, -, hrefused⟩
    exact hvector hrefused
  · rintro _ _ ⟨solver, rfl, hard', softs', hsolver⟩
    exact ⟨conflicts, hard', softs', h.withSolver hsolver⟩

theorem assert_means (h : s.Built p) {e : Expr} {refused : Prop}
    (hvector : e.mentionsVector = true → refused) :
    Grants (useSolver (Solver.assert e)) s (fun _ => True) (fun _ _ => refused) fun _ s' =>
      s'.Built p := by
  apply pose_means h _ hvector
  intro solver hard softs assumed hsolver
  exact (Solver.assert_means e hsolver).mono fun _ _ ⟨hard', h'⟩ => ⟨hard', softs, h'⟩

theorem assertSoft_means (h : s.Built p) {e : Expr} {refused : Prop}
    (hvector : e.mentionsVector = true → refused) :
    Grants (useSolver (Solver.assertSoft e)) s (fun _ => True) (fun _ _ => refused) fun _ s' =>
      s'.Built p := by
  apply pose_means h _ hvector
  intro solver hard softs assumed hsolver
  exact (Solver.assertSoft_means e hsolver).mono fun _ _ ⟨softs', h'⟩ => ⟨hard, softs', h'⟩

theorem addConstraints_means (h : s.Built p) :
    Grants addConstraints s (fun _ => True) (fun _ _ => p.NeedsVector) fun _ s' =>
      s'.Built p := by
  unfold addConstraints
  apply Grants.get_bind
  rw [h.partition_eq]
  apply Grants.bind (grants_forM (I := fun s' : PartitionSolver => s'.Built p) h ?_)
  · -- Bounds on sizes are never refused.
    intro _ s₁ h₁
    obtain ⟨conflicts, hard, softs, hs₁⟩ := h₁
    apply Grants.get_bind
    apply grants_forM (I := fun s' : PartitionSolver => s'.Built p) ⟨conflicts, hard, softs, hs₁⟩
    intro b hb s₂ h₂
    obtain ⟨id, hid⟩ := mem_values_treeMap.mp hb
    have hnone := hs₁.bounds id b hid
    exact assert_means h₂ fun hvector => by simp [hnone] at hvector
  · intro x hx s₁ h₁
    have hvector : x.expr.mentionsVector = true → p.NeedsVector := fun hvector =>
      ⟨x, (List.mem_filter.mp hx).1, hvector⟩
    split
    · exact assertSoft_means h₁ hvector
    · exact assert_means h₁ hvector

theorem findContradictions_means (h : s.Built p) (storageBits : Nat) :
    Grants (findContradictions storageBits) s (fun _ => True) (fun _ _ => p.NeedsVector)
      fun _ s' => s'.Built p := by
  obtain ⟨conflicts, hard, softs, h⟩ := h
  unfold findContradictions
  apply Grants.get_bind
  apply (newSolver_means h storageBits).bind
  rintro checker s₁ ⟨h₁, -⟩
  -- Whatever the table has at a number is one of the hard constraints.
  have hnumbered : ∀ x ∈ s.partition.numberedHards.toList,
      x.2.mentionsVector = true → p.NeedsVector := by
    rintro ⟨i, e⟩ hx hvector
    have hget := Std.TreeMap.mem_toList_iff_getElem?_eq_some.mp hx
    have hhard := Partition.mem_values_numberedHards.mp (mem_values_treeMap.mpr ⟨i, hget⟩)
    rw [h.partition_eq] at hhard
    obtain ⟨y, hy, -, rfl⟩ := Partition.mem_hards.mp hhard
    exact ⟨y, hy, hvector⟩
  have hconflicts := Attempts.ofAttempt (s := s₁) (R := fun _ _ => p.NeedsVector)
    (Solver.conflicts_refuses hnumbered checker).runOn
  apply Grants.bind hconflicts
  rintro _ _ ⟨-, rfl⟩
  exact .modify ⟨_, hard, softs, h₁.partition_eq, h₁.scalars_eq, rfl, h₁.bounds, h₁.presolvers,
    h₁.solver⟩

theorem settleSofts_means (h : s.Built p) {R : Refusal → PartitionSolver → Prop} :
    Grants settleSofts s (fun _ => True) R fun _ s' => s'.Built p := by
  obtain ⟨conflicts, hard, softs, h⟩ := h
  unfold settleSofts
  apply Grants.get_bind
  dsimp only
  split
  · exact .pure ⟨conflicts, hard, softs, h⟩
  · have hdrop := (Solver.dropSofts_means h.solver).step (R := fun _ _ => False)
    apply ((useSolver_focus hdrop).imp_refusal fun _ _ hr => hr.elim fun _ hr => hr.2.elim).bind
    rintro dropped _ ⟨solver, rfl, hard', hsolver, -⟩
    have h' := h.withSolver hsolver
    exact .modify ⟨conflicts, hard', [], h'.partition_eq, h'.scalars_eq, h'.contradictions_eq,
      h'.bounds, h'.presolvers, h'.solver⟩

theorem addPresolver_means (h : s.Built p) (storageBits : Nat) {id : Nat} {e : Expr}
    (he : ∃ sort, e = .var id sort) :
    Grants (addPresolver c storageBits id e) s (fun _ => True) (fun _ _ => p.NeedsVector)
      fun _ s' => s'.Built p := by
  obtain ⟨conflicts, hard, softs, h⟩ := h
  unfold addPresolver
  apply Grants.get_bind
  dsimp only
  split
  · exact .pure ⟨conflicts, hard, softs, h⟩
  · apply (newSolver_means h storageBits).bind
    rintro presolver s₁ ⟨h₁, hpresolver⟩
    have hassert : Grants (((s.partition.singleOn id).map Constraint.expr ++
        s.bounds[id]?.toList).forM Solver.assert) presolver (fun _ => True)
        (fun _ _ => p.NeedsVector) fun _ t => ∃ hard, t.Means hard [] [] := by
      apply (Solver.assertEach_means _ hpresolver).imp_refusal ?_
      rintro _ _ ⟨b, hb, hvector⟩
      rcases List.mem_append.mp hb with hb | hb
      · obtain ⟨x, hx, rfl⟩ := List.mem_map.mp hb
        exact ⟨x, h.partition_eq ▸ (List.mem_filter.mp hx).1, hvector⟩
      · rw [h.bounds id b (Option.mem_toList.mp hb)] at hvector
        cases hvector
    apply Grants.bind (Attempts.ofAttempt (s := s₁) hassert.runOn)
    rintro _ _ ⟨-, rfl⟩
    refine .modify ⟨conflicts, hard, softs, h₁.withPresolvers fun x hx => ?_⟩
    rcases List.mem_append.mp hx with hx | hx
    · exact h₁.presolvers x hx
    · rw [List.mem_singleton.mp hx]
      exact ⟨id, he⟩

theorem analyse_means (h : s.Built p) (storageBits : Nat) (presolve : Bool) :
    Grants (analyse c storageBits presolve) s (fun _ => True) (fun _ _ => p.NeedsVector)
      fun _ s' => s'.Built p := by
  -- What comes after the first solve is the same whether or not it found a solution.
  have hrest (s : PartitionSolver) (h : s.Built p) : Grants (do
      if (← get).contradictions.isEmpty then
        settleSofts
        if presolve then
          (← get).scalars.toList.forM fun x => addPresolver c storageBits x.1 x.2) s
      (fun _ => True) (fun _ _ => p.NeedsVector) fun _ s' => s'.Built p := by
    apply Grants.get_bind
    split
    · apply (settleSofts_means h).bind
      intro _ s₁ h₁
      cases presolve with
      | false => exact .pure h₁
      | true =>
        obtain ⟨conflicts, hard, softs, hs₁⟩ := h₁
        apply Grants.get_bind
        apply grants_forM (I := fun s' : PartitionSolver => s'.Built p) ⟨conflicts, hard, softs, hs₁⟩
        rintro ⟨id, e⟩ hmem s₂ h₂
        exact addPresolver_means h₂ storageBits
          (hs₁.variables id e (Std.TreeMap.mem_toList_iff_getElem?_eq_some.mp hmem))
    · exact .pure h
  obtain ⟨conflicts, hard, softs, h⟩ := h
  unfold analyse
  have hsolve := (Solver.solve_means h.solver true).step (R := fun _ _ => False)
  apply ((useSolver_focus hsolve).imp_refusal fun _ _ hr => hr.elim fun _ hr => hr.2.elim).bind
  rintro found _ ⟨solver, rfl, hsolver, -⟩
  have h' : Built { s with solver := solver } p := ⟨conflicts, hard, softs, h.withSolver hsolver⟩
  cases found with
  | true => exact hrest _ h'
  | false => exact (findContradictions_means h' storageBits).bind fun _ s' hs' => hrest s' hs'

/-- Building a partition solver is refused only if a constraint of the partition needs a vector. -/
theorem build_means (c : Context) (storageBits : Nat) (settings : Settings) (p : Partition)
    (seed : Nat) :
    Attempts (build c storageBits settings p seed) (fun _ => True) (fun _ => p.NeedsVector)
      fun s => s.Built p := by
  unfold build
  apply Attempts.ofExcept_bind (ends_true _)
  rintro ⟨solverSeed, rng⟩ -
  apply Attempts.ofExcept_bind (Solver.empty_means storageBits solverSeed)
  intro solver hsolver
  dsimp only
  have hstart : Built ⟨p, solver, p.scalars, boundsOnSizes c p.scalars settings.maxVectorSize, [],
      [], [], rng⟩ p :=
    ⟨[], _, _, rfl, rfl, rfl, fun _ _ h => mentionsVector_of_bounds p.variables_scalars h,
      fun x hx => absurd hx List.not_mem_nil, hsolver⟩
  have hbuilding : Grants (do
      addConstraints
      if !settings.bypassAnalysis then analyse c storageBits settings.presolve)
      ⟨p, solver, p.scalars, boundsOnSizes c p.scalars settings.maxVectorSize, [], [], [], rng⟩
      (fun _ => True) (fun _ _ => p.NeedsVector) fun _ s' => s'.Built p := by
    apply (addConstraints_means hstart).bind
    intro _ s₁ h₁
    split
    · exact analyse_means h₁ storageBits settings.presolve
    · exact .pure h₁
  exact Attempts.bind hbuilding.runOn fun _ hs => hs

/-! ## §4 Solving -/

theorem solveAhead_variables {presolvers : List (Expr × Solver)}
    (h : ∀ x ∈ presolvers, ∃ id sort, x.1 = .var id sort) :
    Ends (solveAhead presolvers) (fun _ => True) fun r =>
      (∀ x ∈ r.1, ∃ id sort, x.1 = .var id sort) ∧ ∀ x ∈ r.2, ∃ id sort, x.1 = .var id sort := by
  induction presolvers with
  | nil => exact ⟨by simp, by simp⟩
  | cons x rest ih =>
    obtain ⟨e, presolver⟩ := x
    obtain ⟨he, hrest⟩ := List.forall_mem_cons.mp h
    unfold solveAhead
    apply Ends.bind (ends_true _)
    rintro ⟨solved, presolver'⟩ -
    have hvalue (value : Option Nat) : Ends (solveAhead rest >>= fun r =>
        pure ((value.map (e, ·)).toList ++ r.1, (e, presolver') :: r.2)) (fun _ => True) fun r =>
        (∀ x ∈ r.1, ∃ id sort, x.1 = .var id sort) ∧
          ∀ x ∈ r.2, ∃ id sort, x.1 = .var id sort := by
      apply Ends.bind (ih hrest)
      rintro ⟨values, rest'⟩ ⟨hvalues, hrest'⟩
      refine ⟨fun y hy => ?_, List.forall_mem_cons.mpr ⟨he, hrest'⟩⟩
      rcases List.mem_append.mp hy with hy | hy
      · obtain ⟨bits, -, rfl⟩ := Option.map_eq_some_iff.mp (Option.mem_toList.mp hy)
        exact he
      · exact hvalues y hy
    cases solved with
    | false => exact hvalue none
    | true => exact Ends.bind (ends_true _) fun value _ => hvalue value

/-- A suggestion for a variable is never refused, and it demands nothing. -/
theorem suggest_means (h : s.Means p conflicts hard softs assumed) {e : Expr}
    (he : ∃ id sort, e = .var id sort) (bits : Nat) :
    Grants (useSolver (Solver.suggest (e.equalTo bits))) s (fun _ => True) (fun _ _ => False)
      fun _ s' => s'.Means p conflicts hard softs assumed := by
  obtain ⟨id, sort, rfl⟩ := he
  apply (useSolver_focus (Solver.suggest_means _ h.solver)).imp (fun _ hf => hf)
  · rintro _ _ ⟨_, -, hvector⟩
    simp [Expr.equalTo, Expr.constant] at hvector
  · rintro _ _ ⟨solver, rfl, hsolver⟩
    exact h.withSolver hsolver

theorem suggestAhead_means (h : s.Means p conflicts hard softs assumed) :
    Grants suggestAhead s (fun _ => True) (fun _ _ => False) fun _ s' =>
      s'.Means p conflicts hard softs assumed := by
  unfold suggestAhead
  apply Grants.get_bind
  apply Grants.modify_bind
  apply Grants.ofExcept_bind (solveAhead_variables h.presolvers)
  rintro ⟨values, presolvers⟩ ⟨hvalues, hpresolvers⟩
  apply Grants.modify_bind
  apply grants_forM (I := fun s : PartitionSolver => s.Means p conflicts hard softs assumed)
    (h.withPresolvers hpresolvers)
  rintro ⟨e, bits⟩ hmem s₁ h₁
  exact suggest_means h₁ (hvalues _ hmem) bits

theorem suggestDistributions_means (h : s.Means p conflicts hard softs assumed) (c : Context) :
    Grants (suggestDistributions c) s (fun _ => True) (fun _ _ => False) fun _ s' =>
      s'.Means p conflicts hard softs assumed := by
  unfold suggestDistributions
  apply Grants.get_bind
  apply grants_forM (I := fun s : PartitionSolver => s.Means p conflicts hard softs assumed) h
  rintro ⟨id, d⟩ - s₁ h₁
  dsimp only
  cases hid : s.scalars[id]? with
  | none => exact .pure h₁
  | some e =>
    apply (draw_means h₁ d.draw).bind
    intro value s₂ h₂
    obtain ⟨sort, he⟩ := h.variables id e hid
    exact suggest_means h₂ ⟨id, sort, he⟩ _

/-- What the references among some variables demand. -/
def demands (c : Context) (vars : Std.TreeMap Nat Expr) : List Demand :=
  (givens c vars).map fun e env => e.Holds env

/-- No reference among some variables is wider than a slot. -/
def Fits (c : Context) (vars : Std.TreeMap Nat Expr) : Prop :=
  ∀ r ∈ c.references, ∀ sort, vars[r.1]? = some (.var r.1 sort) → sort.width ≤ 64

/-- References are assumed to have their values, and those that are wider than a slot cannot be. -/
theorem assumeReferences_means {solver : Solver} (h : solver.Means hard softs assumed)
    (c : Context) {vars : Std.TreeMap Nat Expr} (hvars : Variables vars) :
    Grants (Solver.assumeReferences c vars) solver (fun _ => True) (fun _ _ => False)
      fun _ solver' => solver'.Means hard softs (assumed ++ demands c vars) ∧ Fits c vars := by
  unfold Solver.assumeReferences
  -- The widths are known of those references that were gone through so far.
  apply grants_forM_from (I := fun done (t : Solver) => t.Means hard softs
    (assumed ++ (done.filterMap (given? vars)).map fun e env => e.Holds env) ∧
      ∀ r ∈ done, ∀ sort, vars[r.1]? = some (.var r.1 sort) → sort.width ≤ 64)
    ⟨by simpa using h, by simp⟩
  rintro done ⟨id, bits⟩ t ⟨ht, hfits⟩ -
  dsimp only
  rw [List.filterMap_append, List.map_append]
  cases hid : vars[id]? with
  | none =>
    have hgiven : given? vars (id, bits) = none := by simp [given?, hid]
    refine .pure ⟨by simpa [hgiven] using ht, fun r hr sort hsort => ?_⟩
    rcases List.mem_append.mp hr with hr | hr
    · exact hfits r hr sort hsort
    · obtain rfl := List.mem_singleton.mp hr
      cases hid.symm.trans hsort
  | some e =>
    obtain ⟨sort, rfl⟩ := hvars id e hid
    have hgiven : given? vars (id, bits) = some ((Expr.var id sort).equalTo bits) := by
      simp [given?, hid]
    have hwidth := Solver.width_le_of_assumeEqual id sort bits ht.wellFormed
    apply (Grants.and (Solver.assumeEqual_means id sort bits ht) hwidth).imp (fun _ _ => trivial)
      fun _ _ hr => hr.1
    rintro _ t' ⟨ht', hwidth⟩
    refine ⟨by simpa [hgiven] using ht', fun r hr sort hsort => ?_⟩
    rcases List.mem_append.mp hr with hr | hr
    · exact hfits r hr sort hsort
    · obtain rfl := List.mem_singleton.mp hr
      cases hid.symm.trans hsort
      exact hwidth

theorem prepare_means (h : s.Means p conflicts hard softs []) (c : Context) :
    Grants (prepare c) s (fun _ => True) (fun _ _ => False) fun _ s' =>
      s'.Means p conflicts hard softs (demands c p.scalars) ∧ Fits c p.scalars := by
  unfold prepare
  apply (suggestAhead_means h).bind
  intro _ s₁ h₁
  apply Grants.get_bind
  dsimp only
  have hassume := useSolver_focus (assumeReferences_means h₁.solver c h₁.variables)
  apply (hassume.imp_refusal fun _ _ hr => hr.elim fun _ hr => hr.2).bind
  rintro _ _ ⟨solver, rfl, hsolver, hfits⟩
  rw [h₁.scalars_eq] at hsolver hfits
  exact (suggestDistributions_means (h₁.withSolver hsolver) c).mono fun _ _ hs' => ⟨hs', hfits⟩

theorem map_fst_filterMap_sublist {β : Type} (values : List (Nat × Option β)) :
    ((values.filterMap fun x => x.2.map fun b => (x.1, b)).map Prod.fst).Sublist
      (values.map Prod.fst) := by
  induction values with
  | nil => exact .slnil
  | cons x values ih =>
    obtain ⟨id, b⟩ := x
    cases b with
    | none => exact ih.cons id
    | some b => exact ih.cons_cons id

/-- Every result is about a variable of its own. -/
theorem results_keys (solver : Solver) (vars : Std.TreeMap Nat Expr) :
    Ends (solver.results vars) (fun _ => True) fun results =>
      (results.map Prod.fst).Nodup ∧ ∀ r ∈ results, ∃ e, vars[r.1]? = some e := by
  -- Reading leaves the keys as they are, in their order.
  have hkeys (xs : List (Nat × Expr)) : Ends (xs.mapM fun x => do
      return (x.1, ← solver.read x.2)) (fun _ => True) fun values =>
        values.map Prod.fst = xs.map Prod.fst := by
    induction xs with
    | nil => exact rfl
    | cons x xs ih =>
      rw [List.mapM_cons]
      apply Ends.bind (P := fun y : Nat × Option Nat => y.1 = x.1)
      · exact Ends.bind (P := fun _ => True) (ends_true _) fun value _ => rfl
      intro y hy
      apply Ends.bind ih
      intro ys hys
      exact congrArg₂ List.cons hy hys
  have hnodup : (vars.toList.map Prod.fst).Nodup := by
    rw [Std.TreeMap.map_fst_toList_eq_keys]
    exact Std.TreeMap.nodup_keys
  apply Ends.bind (hkeys vars.toList)
  intro values hvalues
  have hsub := map_fst_filterMap_sublist values
  rw [hvalues] at hsub
  refine ⟨hnodup.sublist hsub, fun r hr => ?_⟩
  obtain ⟨x, hx, hkey⟩ := List.mem_map.mp (hsub.subset (List.mem_map_of_mem hr))
  exact ⟨x.2, hkey ▸ Std.TreeMap.mem_toList_iff_getElem?_eq_some.mp hx⟩

/-- There are no conflicts on record, and some environment meets what is demanded and gives the
    references their values. -/
def Solvable (c : Context) (p : Partition) (conflicts : List (List String)) (hard : Demand)
    (softs : List Demand) : Prop :=
  conflicts = [] ∧ Solver.Met false hard softs (demands c p.scalars)

/-- The results are about variables of the partition, each about another one. -/
structure Owns (p : Partition) (results : List (Nat × Nat)) : Prop where
  nodup : (results.map Prod.fst).Nodup
  mentions : ∀ r ∈ results, ∃ sort, p.Mentions r.1 sort

theorem owns_nil (p : Partition) : Owns p [] := ⟨.nil, fun _ hr => absurd hr List.not_mem_nil⟩

/-- A solve that comes to an end has an answer exactly if there is a solution, and it demands the
    same afterwards.  Unless there are conflicts on record, it found no reference that is wider than
    a slot. -/
theorem solve_means (h : s.Means p conflicts hard softs []) (c : Context) :
    Ensures (solve c) s (fun _ => True) fun answer s' =>
      s'.Means p conflicts hard softs [] ∧ Owns p (answer.getD []) ∧
        (answer.isSome = true ↔ Solvable c p conflicts hard softs) ∧
          (conflicts = [] → Fits c p.scalars) := by
  unfold solve
  apply Ensures.get_bind
  split
  · -- With conflicts on record nothing is tried.
    rename_i hconflicts
    have hsome : conflicts ≠ [] := by
      rw [h.contradictions_eq] at hconflicts
      simpa using hconflicts
    exact .pure ⟨h, owns_nil p, by simp [Solvable, hsome], fun hnone => absurd hnone hsome⟩
  · rename_i hconflicts
    have hnone : conflicts = [] := by
      rw [h.contradictions_eq] at hconflicts
      simpa using hconflicts
    have hattempt : Grants (do
        prepare c
        useSolver (Request.step (Solver.solve false))) s (fun _ => True) (fun _ _ => False)
        fun found s' => s'.Means p conflicts hard softs [] ∧ Fits c p.scalars ∧
          (found = true ↔ Solvable c p conflicts hard softs) := by
      apply (prepare_means h c).bind
      rintro _ s₁ ⟨h₁, hfits⟩
      have hsolve := (Solver.solve_means h₁.solver false).step (R := fun _ _ => False)
      apply (useSolver_focus hsolve).imp (fun _ hf => hf)
      · rintro _ _ ⟨_, -, hr⟩
        exact hr
      · rintro found _ ⟨solver, rfl, hsolver, -, hfound⟩
        exact ⟨h₁.withSolver hsolver, hfits, by simpa [Solvable, hnone] using hfound⟩
    apply hattempt.run_bind
    rintro found s' ⟨hs', hfits, hfound⟩
    cases found with
    | false => exact .pure ⟨hs', owns_nil p, by simpa using hfound, fun _ => hfits⟩
    | true =>
      apply Ensures.get_bind
      apply Ensures.ofExcept_bind (results_keys s'.solver s'.scalars)
      rintro results ⟨hnodup, hkeys⟩
      refine .pure ⟨hs', ⟨hnodup, fun r hr => ?_⟩, by simpa using hfound, fun _ => hfits⟩
      obtain ⟨e, he⟩ := hkeys r hr
      rw [hs'.scalars_eq] at he
      obtain ⟨sort, -, hmem⟩ := Partition.mentions_of_scalars he
      exact ⟨sort, hmem⟩

theorem fits_of_solve (h : s.Means p [] hard softs []) {answer : Option (List (Nat × Nat))}
    {s' : PartitionSolver} (hrun : solve c s = .ok (answer, s')) : Fits c p.scalars :=
  ((solve_means h c).of_run hrun).2.2.2 rfl

/-- What is settled once a partition solver is built. -/
structure Task where
  partition : Partition
  conflicts : List (List String)
  hard : Demand
  softs : List Demand

/-- The partition solver demands what the task says, and assumes nothing. -/
def Task.PosedBy (t : Task) (s : PartitionSolver) : Prop :=
  s.Means t.partition t.conflicts t.hard t.softs []

/-- There is a solution in a context. -/
def Task.SolvableIn (t : Task) (c : Context) : Prop :=
  Solvable c t.partition t.conflicts t.hard t.softs

theorem Built.exists_task (h : s.Built p) : ∃ t : Task, t.partition = p ∧ t.PosedBy s := by
  obtain ⟨conflicts, hard, softs, h⟩ := h
  exact ⟨⟨p, conflicts, hard, softs⟩, rfl, h⟩

/-- Of a context, a solve reads the references and the distributions only. -/
theorem solve_congr {c c' : Context} (hreferences : c.references = c'.references)
    (hdistributions : c.distributions = c'.distributions) : solve c = solve c' := by
  unfold solve prepare Solver.assumeReferences suggestDistributions
  rw [hreferences, hdistributions]

end

end PartitionSolver

end Stimulus
