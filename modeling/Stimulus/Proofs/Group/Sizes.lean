import Stimulus.Proofs.Group.Assignment
import Stimulus.Proofs.Solver.Enforcement

/-!
# Sizes that solvers answer

Whoever solves a partition bounds those of its variables that are sizes of vectors.  The bounds are
enforced from the time a solver is built, so no size that is read of a solution exceeds the maximum.
For this the constraints may be of any kind, as long as they are written with declared variables.

Main definitions:
- `Context.Limits`: the sizes that are answered are at most a maximum
- `Heeds`: a solver enforces the bounds on the sizes among its variables

Main statements:
- `PartitionSolver.build_heeds`, `PartitionSolver.solve_heeds`
- `CoverageSolver.build_heeds`, `CoverageSolver.solve_heeds`
- `PlainEnsemble.solvePlain_heeds`, `CoverageEnsemble.solveCoverage_heeds`
-/

namespace Stimulus

/-! ## §1 Sizes within a maximum -/

/-- The sizes that are answered are at most a maximum. -/
def Context.Limits (c : Context) (max : Nat) (read : Reading) : Prop :=
  ∀ (id : Nat) (entry : VectorEntry), c.vectors[id]? = some entry →
    ∀ n, read entry.size.id = .ok (some n) → n ≤ max

/-- A solver for declared variables enforces the bounds on the sizes among them. -/
structure Heeds (c : Context) (max : Nat) (vars : Std.TreeMap Nat Expr) (solver : Solver) :
    Prop where
  declares : c.Declares vars
  enforces : ∃ bounds, Bounds c vars max bounds ∧ solver.Enforces bounds

section

variable {c c' : Context} {max : Nat} {vars : Std.TreeMap Nat Expr} {solver : Solver}
  {read read' : Reading} {bounds : List Expr}

theorem Heeds.grows (h : Heeds c max vars solver) (hc : c.WellFormed) (hc' : c'.WellFormed)
    (hgrows : c.Grows c') : Heeds c' max vars solver := by
  obtain ⟨bounds, hbounds, henforces⟩ := h.enforces
  exact ⟨h.declares.grows hgrows, bounds, hbounds.grows h.declares hc hc' hgrows, henforces⟩

theorem Context.Limits.keeps (h : c.Limits max read) (hkeeps : c.Keeps c') :
    c'.Limits max read := by
  intro id entry hid n hn
  obtain ⟨contents, hcontents⟩ := hkeeps.vector_back hid
  exact h id _ hcontents n hn

theorem Context.Limits.orElse (h : c.Limits max read) (h' : c.Limits max read') :
    c.Limits max (read.orElse read') := by
  intro id entry hid n hn
  cases hread : read entry.size.id with
  | error fault =>
    unfold Reading.orElse at hn
    rw [hread] at hn
    cases hn
  | ok value =>
    cases value with
    | none =>
      rw [Reading.orElse_of_none hread] at hn
      exact h' id entry hid n hn
    | some m =>
      cases (Reading.orElse_of_some hread).symm.trans hn
      exact h id entry hid n hread

/-- The first value that one of several solvers has is the value of a solver. -/
theorem Context.limits_firstRead {σ : Type} {readOne : σ → Reading} {solvers : List σ}
    (h : ∀ s ∈ solvers, c.Limits max (readOne s)) :
    c.Limits max fun id => Ensemble.firstRead (readOne · id) solvers := by
  induction solvers with
  | nil => exact fun id entry hid n hn => nomatch hn
  | cons s solvers ih =>
    obtain ⟨hs, hrest⟩ := List.forall_mem_cons.mp h
    exact hs.orElse (ih hrest)

/-- What is read of a model that satisfies the bounds. -/
theorem Bounds.limits (h : Bounds c vars max bounds) (hc : c.WellFormed) (hvars : c.Declares vars)
    {env : Nat → Nat} (henv : Expr.AllHold env bounds) (htells : solver.Tells env) :
    c.Limits max (solver.readVariable vars) := by
  intro id entry hid n hn
  unfold Solver.readVariable at hn
  cases he : vars[entry.size.id]? with
  | none =>
    rw [he] at hn
    cases hn
  | some e =>
    rw [he, hvars.size hc hid he] at hn
    have hle := h.allHold_iff.mp henv id entry hid ⟨e, he⟩
    rw [htells.low _ _ n hn]
    exact hle.trans (Nat.min_le_left _ _)

end

/-! ## §2 Partition solvers -/

namespace PartitionSolver

/-- The variables and the bounds are given, and some constraints are enforced. -/
structure Keeping (vars table : Std.TreeMap Nat Expr) (es : List Expr) (s : PartitionSolver) :
    Prop where
  scalars_eq : s.scalars = vars
  bounds_eq : s.bounds = table
  enforces : s.solver.Enforces es

section

variable {s : PartitionSolver} {vars table : Std.TreeMap Nat Expr} {es : List Expr} {c : Context}
  {max : Nat}

theorem useSolver_keeping {α : Type} {act : Request Solver α}
    (h : Preserves act (Solver.Enforces · es)) :
    Preserves (useSolver act) (Keeping vars table es) := by
  intro s hs
  apply (useSolver_focus (h s.solver hs.enforces)).imp (fun _ hf => hf)
  all_goals
    rintro _ _ ⟨solver, rfl, hsolver⟩
    exact ⟨hs.scalars_eq, hs.bounds_eq, hsolver⟩

theorem draw_keeping {α : Type} (act : Draw α) :
    Preserves (draw act) (Keeping vars table es) := by
  intro s hs
  unfold Leaves Grants draw
  cases act s.rng with
  | error fault => trivial
  | ok r => exact ⟨hs.scalars_eq, hs.bounds_eq, hs.enforces⟩

theorem modify_keeping {f : PartitionSolver → PartitionSolver}
    (hscalars : ∀ s, (f s).scalars = s.scalars) (hbounds : ∀ s, (f s).bounds = s.bounds)
    (hsolver : ∀ s, (f s).solver = s.solver) :
    Preserves (modify f) (Keeping vars table es) :=
  .modify fun s hs => ⟨(hscalars s).trans hs.scalars_eq, (hbounds s).trans hs.bounds_eq,
    (hsolver s).symm ▸ hs.enforces⟩

theorem newSolver_keeping (storageBits : Nat) :
    Preserves (newSolver storageBits) (Keeping vars table es) := by
  unfold newSolver
  exact .bind (draw_keeping _) fun _ => .ofExcept _

theorem solve_preserves (ignoreSofts : Bool) :
    Preserves (Request.step (Solver.solve ignoreSofts)) (Solver.Enforces · es) := fun _ h =>
  (Solver.solve_enforces h ignoreSofts).step.mono fun _ _ hq => hq.1

/-- The bounds are enforced as soon as everything is added. -/
theorem addConstraints_enforces (h : s.Keeping vars table [])
    (hplain : ∀ e ∈ table.values, e.Plain) :
    Grants addConstraints s (fun _ => True) (fun _ _ => True) fun _ s' =>
      s'.Keeping vars table table.values := by
  unfold addConstraints
  apply Grants.get_bind
  apply Grants.bind (P := fun _ s' => s'.Keeping vars table [])
  · -- The constraints proper enforce nothing new, but do not undo anything either.
    have hfirst : Preserves (((s.partition.constraints.filter (!·.cover)).forM fun c =>
        useSolver (if c.soft then Solver.assertSoft c.expr else Solver.assert c.expr)))
        (Keeping vars table []) := by
      refine .forM fun c => useSolver_keeping ?_
      split
      · exact Solver.assertSoft_preserves _
      · exact Solver.assert_preserves _
    exact Grants.imp (hfirst s h) (fun _ hf => hf) (fun _ _ _ => trivial) fun _ _ hq => hq
  · intro _ s₁ h₁
    apply Grants.get_bind
    rw [h₁.bounds_eq]
    -- The bounds follow, each enforced from the moment it is asserted.
    apply grants_forM_from (I := fun done s' => Keeping vars table done s') h₁
    intro done b s₂ h₂ hb
    apply (useSolver_focus (Solver.assert_enforces b h₂.enforces)).imp (fun _ hf => hf)
      fun _ _ _ => trivial
    rintro _ _ ⟨solver, rfl, -, henforces⟩
    exact ⟨h₂.scalars_eq, h₂.bounds_eq, henforces (hplain b hb)⟩

theorem findContradictions_keeping (storageBits : Nat) :
    Preserves (findContradictions storageBits) (Keeping vars table es) := by
  unfold findContradictions
  refine .bind .get fun s => .bind (newSolver_keeping _) fun checker => ?_
  refine .bind (.ofAttempt _) fun (groups, _) => ?_
  exact modify_keeping (fun _ => rfl) (fun _ => rfl) fun _ => rfl

theorem settleSofts_keeping : Preserves settleSofts (Keeping vars table es) := by
  unfold settleSofts
  refine .bind .get fun s => ?_
  dsimp only
  split
  · exact .pure _
  · refine .bind (useSolver_keeping fun t ht => ?_) fun dropped =>
      modify_keeping (fun _ => rfl) (fun _ => rfl) fun _ => rfl
    exact (Solver.dropSofts_enforces ht).step

theorem addPresolver_keeping (c : Context) (storageBits id : Nat) (e : Expr) :
    Preserves (addPresolver c storageBits id e) (Keeping vars table es) := by
  unfold addPresolver
  refine .bind .get fun s => ?_
  dsimp only
  split
  · exact .pure _
  · refine .bind (newSolver_keeping _) fun presolver => ?_
    refine .bind (.ofAttempt _) fun (_, presolver) => ?_
    exact modify_keeping (fun _ => rfl) (fun _ => rfl) fun _ => rfl

theorem analyse_keeping (c : Context) (storageBits : Nat) (presolve : Bool) :
    Preserves (analyse c storageBits presolve) (Keeping vars table es) := by
  -- Softs are settled and presolvers added only where nothing contradicts.
  have hrest : Preserves (do
      if (← get).contradictions.isEmpty then
        settleSofts
        if presolve then
          (← get).scalars.toList.forM fun x => addPresolver c storageBits x.1 x.2)
      (Keeping vars table es) := by
    refine .bind .get fun s => ?_
    split
    · refine .bind settleSofts_keeping fun _ => ?_
      cases presolve with
      | false => exact .pure _
      | true => exact .bind .get fun s => .forM fun x => addPresolver_keeping c storageBits x.1 x.2
    · exact .pure _
  unfold analyse
  refine .bind (useSolver_keeping (solve_preserves true)) fun found => ?_
  cases found with
  | true => exact hrest
  | false => exact .bind (findContradictions_keeping storageBits) fun _ => hrest

/-- A partition solver heeds the bounds as soon as it is built. -/
theorem build_heeds {settings : Settings} {p : Partition} (hc : c.WellFormed)
    (hp : c.Declares p.scalars) (storageBits seed : Nat) :
    Attempts (build c storageBits settings p seed) (fun _ => True) (fun _ => True) fun s =>
      Heeds c settings.maxVectorSize s.scalars s.solver := by
  have hbounds := bounds_boundsOnSizes hc hp settings.maxVectorSize
  unfold build
  apply Attempts.ofExcept_bind (ends_true _)
  rintro ⟨solverSeed, rng⟩ -
  apply Attempts.ofExcept_bind (Solver.empty_enforces storageBits solverSeed)
  intro solver hsolver
  dsimp only
  generalize htable : boundsOnSizes c p.scalars settings.maxVectorSize = table at hbounds ⊢
  have hstart : Keeping p.scalars table [] ⟨p, solver, p.scalars, table, [], [], [], rng⟩ :=
    ⟨rfl, rfl, hsolver⟩
  have hbuilding : Grants (do
      addConstraints
      if !settings.bypassAnalysis then analyse c storageBits settings.presolve)
      ⟨p, solver, p.scalars, table, [], [], [], rng⟩ (fun _ => True) (fun _ _ => True) fun _ s' =>
        s'.Keeping p.scalars table table.values := by
    apply (addConstraints_enforces hstart fun e he => (hbounds.admits hc he).plain).bind
    intro _ s₁ h₁
    split
    · exact Grants.imp (analyse_keeping c storageBits settings.presolve s₁ h₁) (fun _ hf => hf)
        (fun _ _ _ => trivial) fun _ _ hq => hq
    · exact .pure h₁
  apply Attempts.bind hbuilding.runOn
  rintro ⟨_, s⟩ hs
  exact ⟨hs.scalars_eq ▸ hp, _, hs.scalars_eq ▸ hbounds, hs.enforces⟩

theorem prepare_keeping (c : Context) : Preserves (prepare c) (Keeping vars table es) := by
  have hsuggest (e : Expr) : Preserves (useSolver (Solver.suggest e)) (Keeping vars table es) :=
    useSolver_keeping (Solver.suggest_preserves e)
  -- Suggestions and assumptions hold for one solve, and leave the bounds in force.
  have hahead : Preserves suggestAhead (Keeping vars table es) := by
    unfold suggestAhead
    refine .bind .get fun s => ?_
    refine .bind (modify_keeping (fun _ => rfl) (fun _ => rfl) fun _ => rfl) fun _ => ?_
    refine .bind (.ofExcept _) fun (values, presolvers) => ?_
    refine .bind (modify_keeping (fun _ => rfl) (fun _ => rfl) fun _ => rfl) fun _ => ?_
    exact .forM fun _ => hsuggest _
  have hdistributions : Preserves (suggestDistributions c) (Keeping vars table es) := by
    unfold suggestDistributions
    refine .bind .get fun s => .forM fun (id, d) => ?_
    dsimp only
    cases s.scalars[id]? with
    | none => exact .pure _
    | some e => exact .bind (draw_keeping _) fun _ => hsuggest _
  unfold prepare
  refine .bind hahead fun _ => .bind .get fun s => ?_
  refine .bind (useSolver_keeping ?_) fun _ => hdistributions
  refine .forM fun (id, bits) => ?_
  dsimp only
  cases s.scalars[id]? with
  | none => exact .pure _
  | some e => exact Solver.assume_preserves _

/-- The sizes of a solution are within the maximum, and solving goes on to heed the bounds. -/
theorem solve_heeds (h : Heeds c max s.scalars s.solver) (hc : c.WellFormed) (c₀ : Context) :
    Ensures (solve c₀) s (fun _ => True) fun answer s' =>
      Heeds c max s'.scalars s'.solver ∧ (answer.isSome = true → c.Limits max s'.read) := by
  obtain ⟨hvars, bounds, hbounds, henforces⟩ := h
  have hheeds {s' : PartitionSolver} (h' : s'.Keeping s.scalars s.bounds bounds) :
      Heeds c max s'.scalars s'.solver :=
    ⟨h'.scalars_eq ▸ hvars, bounds, h'.scalars_eq ▸ hbounds, h'.enforces⟩
  -- Whatever the references are worth, the bounds are enforced by every model.
  have hattempt : Grants (do
      prepare c₀
      useSolver (Request.step (Solver.solve false))) s (fun _ => True)
      (fun _ s' => s'.Keeping s.scalars s.bounds bounds) fun found s' =>
        s'.Keeping s.scalars s.bounds bounds ∧
          (found = true → ∃ env, Expr.AllHold env bounds ∧ s'.solver.Tells env) := by
    apply Grants.bind (prepare_keeping c₀ s ⟨rfl, rfl, henforces⟩)
    intro _ s₁ h₁
    have hsolve := (Solver.solve_enforces h₁.enforces false).step (R := fun _ _ => False)
    apply (useSolver_focus hsolve).imp (fun _ hf => hf)
      (fun _ _ hr => hr.elim fun _ hr => hr.2.elim)
    rintro found _ ⟨solver, rfl, hsolver, hmodel⟩
    exact ⟨⟨h₁.scalars_eq, h₁.bounds_eq, hsolver⟩, hmodel⟩
  unfold solve
  apply Ensures.get_bind
  split
  · exact .pure ⟨⟨hvars, bounds, hbounds, henforces⟩, nofun⟩
  · apply hattempt.outcome_bind
    · intro refusal s' h'
      exact .pure ⟨hheeds h', nofun⟩
    · rintro found s' ⟨h', hmodel⟩
      cases found with
      | false => exact .pure ⟨hheeds h', nofun⟩
      | true =>
        obtain ⟨env, henv, htells⟩ := hmodel rfl
        apply Ensures.get_bind
        apply Ensures.ofExcept_bind (ends_true _)
        intro results _
        refine .pure ⟨hheeds h', fun _ => ?_⟩
        have hlimits := hbounds.limits hc hvars henv htells
        rw [← h'.scalars_eq] at hlimits
        exact hlimits

end

end PartitionSolver

/-! ## §3 Coverage solvers -/

namespace CoverageSolver

section

variable {s : CoverageSolver} {vars : Std.TreeMap Nat Expr} {bounds : List Expr} {c : Context}
  {max : Nat}

/-- What a coverage solver has its solver do changes nothing but that solver. -/
theorem useSolver_focus {α : Type} {act : Request Solver α} {E : Fault → Prop}
    {R : Refusal → Solver → Prop} {Q : α → Solver → Prop} (h : Grants act s.solver E R Q) :
    Grants (useSolver act) s E
      (fun refusal s' => ∃ solver, s' = { s with solver := solver } ∧ R refusal solver)
      fun a s' => ∃ solver, s' = { s with solver := solver } ∧ Q a solver := by
  refine grants_focus (fun solver => { s with solver := solver }) ?_ h
  obtain ⟨partition, solver, scalars, covered, hit⟩ := s
  unfold useSolver
  dsimp only
  cases act solver <;> rfl

/-- A coverage solver heeds the bounds as soon as it is built. -/
theorem build_heeds {settings : Settings} {p : Partition} (hc : c.WellFormed)
    (hp : c.Declares p.scalars) (storageBits seed : Nat) :
    Attempts (build c storageBits settings p seed) (fun _ => True) (fun _ => True) fun s =>
      Heeds c settings.maxVectorSize s.scalars s.solver := by
  have hbounds := bounds_boundsOnSizes hc hp settings.maxVectorSize
  unfold build
  apply Attempts.ofExcept_bind (Solver.empty_enforces storageBits seed)
  intro solver hsolver
  dsimp only
  -- The bounds come last, and whatever comes before them does no harm.
  have hassert (es bs : List Expr) (hplain : ∀ b ∈ bs, b.Plain) :
      Grants ((es ++ bs).forM Solver.assert) solver (fun _ => True) (fun _ _ => True)
        fun _ t => t.Enforces bs := by
    rw [List.forM_eq_forM, List.forM_append]
    have hfirst : Preserves (es.forM Solver.assert) (Solver.Enforces · []) :=
      .forM fun e => Solver.assert_preserves e
    apply (Grants.imp (hfirst solver hsolver) (fun _ hf => hf) (fun _ _ _ => trivial)
      fun _ _ hq => hq).bind
    intro _ t ht
    apply grants_forM_from (I := fun done t => Solver.Enforces t done) ht
    intro done b t ht hb
    exact (Solver.assert_enforces b ht).imp (fun _ hf => hf) (fun _ _ _ => trivial)
      fun _ _ hq => hq.2 (hplain b hb)
  apply Attempts.bind (hassert _ _ fun b hb => (hbounds.admits hc hb).plain).runOn
  rintro ⟨_, t⟩ ht
  exact ⟨hp, _, hbounds, ht⟩

/-- The variables are given, and the bounds are enforced. -/
structure Keeping (vars : Std.TreeMap Nat Expr) (bounds : List Expr) (s : CoverageSolver) :
    Prop where
  scalars_eq : s.scalars = vars
  enforces : s.solver.Enforces bounds

theorem tryCover_keeping (h : s.Keeping vars bounds) (c₀ : Context) (cover : Constraint) :
    Grants (tryCover c₀ cover) s (fun _ => True)
      (fun _ s' => s'.Keeping vars bounds ∧ s'.hit = s.hit)
      fun found s' => (s'.Keeping vars bounds ∧ s'.hit = s.hit) ∧
        (found = true → ∃ env, Expr.AllHold env bounds ∧ s'.solver.Tells env) := by
  have hact : Grants (do
      Solver.assumeReferences c₀ s.scalars
      Solver.assume cover.expr
      Request.step (Solver.solve false)) s.solver (fun _ => True)
      (fun _ t => t.Enforces bounds) fun found t => t.Enforces bounds ∧
        (found = true → ∃ env, Expr.AllHold env bounds ∧ t.Tells env) := by
    -- References are assumed and never asserted, so the bounds stay what they were.
    have hreferences : Preserves (Solver.assumeReferences c₀ s.scalars)
        (Solver.Enforces · bounds) := by
      refine .forM fun (id, bits) => ?_
      dsimp only
      cases s.scalars[id]? with
      | none => exact .pure _
      | some e => exact Solver.assume_preserves _
    apply Grants.bind (hreferences s.solver h.enforces)
    intro _ t₁ h₁
    apply Grants.bind (Solver.assume_preserves cover.expr t₁ h₁)
    intro _ t₂ h₂
    exact (Solver.solve_enforces h₂ false).step
  unfold tryCover
  apply Grants.get_bind
  apply (useSolver_focus hact).imp (fun _ hf => hf)
  · rintro _ _ ⟨solver, rfl, hsolver⟩
    exact ⟨⟨h.scalars_eq, hsolver⟩, rfl⟩
  · rintro found _ ⟨solver, rfl, hsolver, hmodel⟩
    exact ⟨⟨⟨h.scalars_eq, hsolver⟩, rfl⟩, hmodel⟩

/-- A solver that has hit a cover constraint tells a model of the bounds. -/
theorem hitFirst_keeping (h : s.Keeping vars bounds) (hhit : s.hit = false) (c₀ : Context)
    (covers : List Constraint) :
    Ensures (hitFirst c₀ covers) s (fun _ => True) fun _ s' => s'.Keeping vars bounds ∧
      (s'.hit = true → ∃ env, Expr.AllHold env bounds ∧ s'.solver.Tells env) := by
  induction covers generalizing s with
  | nil => exact .pure ⟨h, fun htrue => by rw [hhit] at htrue; cases htrue⟩
  | cons cover covers ih =>
    unfold hitFirst
    -- Refused or missed, the search goes on with the solver that is left.
    apply (tryCover_keeping h c₀ cover).outcome_bind
    · rintro refusal s' ⟨h', hsame⟩
      exact ih h' (hsame.trans hhit)
    · rintro found s' ⟨⟨h', hsame⟩, hmodel⟩
      cases found with
      | false => exact ih h' (hsame.trans hhit)
      | true =>
        apply Ensures.modify_bind
        apply Ensures.get_bind
        apply Ensures.ofExcept_bind (ends_true _)
        intro results _
        exact .pure ⟨⟨h'.scalars_eq, h'.enforces⟩, fun _ => hmodel rfl⟩

/-- The sizes that a coverage solver answers after a solve are within the maximum, and solving goes
on to heed the bounds. -/
theorem solve_heeds (h : Heeds c max s.scalars s.solver) (hc : c.WellFormed) (c₀ : Context) :
    Ensures (solve c₀) s (fun _ => True) fun _ s' =>
      Heeds c max s'.scalars s'.solver ∧ c.Limits max s'.read := by
  obtain ⟨hvars, bounds, hbounds, henforces⟩ := h
  unfold solve
  apply Ensures.modify_bind
  apply Ensures.get_bind
  have hstart : Keeping s.scalars bounds { s with hit := false } := ⟨rfl, henforces⟩
  apply (hitFirst_keeping hstart rfl c₀ _).mono
  rintro answer s' ⟨h', hmodel⟩
  refine ⟨⟨h'.scalars_eq ▸ hvars, bounds, h'.scalars_eq ▸ hbounds, h'.enforces⟩, ?_⟩
  intro id entry hid n hn
  unfold read at hn
  cases hhit : s'.hit with
  | false => simp [hhit] at hn
  | true =>
    obtain ⟨env, henv, htells⟩ := hmodel hhit
    rw [hhit, h'.scalars_eq] at hn
    exact hbounds.limits hc hvars henv htells id entry hid n hn

end

end CoverageSolver

/-! ## §4 Ensembles -/

section

variable {c : Context} {max : Nat} {ps : List Partition}

namespace PlainEnsemble

open Ensemble

/-- All solvers that a rebuild makes heed the bounds. -/
theorem rebuildPlain_heeds (hc : c.WellFormed) (e : PlainEnsemble)
    (hps : ∀ p ∈ ps, ¬ p.NeedsVector ∧ c.Declares p.scalars) :
    Grants (rebuildPlain c ps) e (fun _ => True) (fun _ _ => False) fun _ e' =>
      (∀ s ∈ e'.solvers, Heeds c e.source.settings.maxVectorSize s.scalars s.solver) ∧
        e.source.Alike e'.source := by
  have hmake : ∀ p ∈ ps, ∀ seed, Attempts
      (PartitionSolver.build c e.source.storageBits e.source.settings p seed) (Stuck False)
      (fun _ => False) fun s => Heeds c e.source.settings.maxVectorSize s.scalars s.solver := by
    intro p hp seed
    obtain ⟨hscalar, hdeclares⟩ := hps p hp
    have hbuild : Attempts (PartitionSolver.build c e.source.storageBits e.source.settings p seed)
      _ _ _ := PartitionSolver.build_heeds hc hdeclares e.source.storageBits seed
    -- That no scalar partition is refused is known from what the solvers mean.
    have hmeans := PartitionSolver.build_means c e.source.storageBits e.source.settings p seed
    apply (hmeans.and hbuild).imp
    · exact fun fault _ => stuck_of_not not_false
    · exact fun _ hr => hscalar hr.1
    · exact fun s hs => hs.2
  exact (rebuildPlain_of_build hmake).imp (fun _ _ => trivial) (fun _ _ hr => hr)
    fun _ _ hs => ⟨forall_of_forall₂ hs.1, hs.2⟩

/-- After all partitions are solved, the sizes that their solvers answer are within the maximum. -/
theorem solveEach_heeds (hc : c.WellFormed) (c₀ : Context) {solvers : List PartitionSolver}
    (h : ∀ s ∈ solvers, Heeds c max s.scalars s.solver) :
    Ends (solveEach c₀ solvers) (fun _ => True) fun r => c₀.Keeps r.2.2 ∧
      (∀ s ∈ r.2.1, Heeds c max s.scalars s.solver) ∧
        (r.1 = true → ∀ s ∈ r.2.1, c.Limits max s.read) := by
  -- The limits are those of the first context, while the solvers see later ones.
  induction solvers generalizing c₀ with
  | nil => exact ⟨.refl c₀, by simp, by simp⟩
  | cons s solvers ih =>
    obtain ⟨hs, hrest⟩ := List.forall_mem_cons.mp h
    unfold solveEach
    apply Ends.bind (PartitionSolver.solve_heeds hs hc c₀)
    rintro ⟨answer, s'⟩ ⟨hs', hlimits⟩
    cases answer with
    | none =>
      exact ⟨.refl c₀, List.forall_mem_cons.mpr ⟨hs', hrest⟩, fun h => absurd h Bool.false_ne_true⟩
    | some results =>
      apply Ends.bind (ih (c₀.writeAll results) hrest)
      rintro ⟨solved, rest, c'⟩ ⟨hkeeps, hrest', hlimits'⟩
      exact ⟨(c₀.keeps_writeAll results).trans hkeeps, List.forall_mem_cons.mpr ⟨hs', hrest'⟩,
        fun hsolved => List.forall_mem_cons.mpr ⟨hlimits rfl, hlimits' hsolved⟩⟩

theorem solveAll_heeds (hc : c.WellFormed) (c₀ : Context) {solvers : List PartitionSolver}
    (h : ∀ s ∈ solvers, Heeds c max s.scalars s.solver) :
    Ends (solveAll c₀ solvers) (fun _ => True) fun r =>
      (∀ s ∈ r.2, Heeds c max s.scalars s.solver) ∧
        (r.1.all (·.isSome) = true → ∀ s ∈ r.2, c.Limits max s.read) := by
  induction solvers with
  | nil => exact ⟨by simp, by simp⟩
  | cons s solvers ih =>
    obtain ⟨hs, hrest⟩ := List.forall_mem_cons.mp h
    unfold solveAll
    apply Ends.bind (PartitionSolver.solve_heeds hs hc c₀)
    rintro ⟨answer, s'⟩ ⟨hs', hlimits⟩
    apply Ends.bind (ih hrest)
    rintro ⟨answers, rest⟩ ⟨hrest', hlimits'⟩
    refine ⟨List.forall_mem_cons.mpr ⟨hs', hrest'⟩, fun hall => ?_⟩
    obtain ⟨hsome, hall⟩ := (Bool.and_eq_true _ _).mp hall
    exact List.forall_mem_cons.mpr ⟨hlimits hsome, hlimits' hall⟩

/-- The sizes that are answered after a plain solve are within the maximum. -/
theorem solvePlain_heeds (hc : c.WellFormed) {e : PlainEnsemble}
    (h : ∀ s ∈ e.solvers, Heeds c max s.scalars s.solver) :
    Grants solvePlain ⟨c, e⟩ (fun _ => True) (fun _ _ => False) fun solved s' =>
      c.Keeps s'.context ∧ s'.item.source = e.source ∧
        (∀ s ∈ s'.item.solvers, Heeds c max s.scalars s.solver) ∧
          (solved = true → c.Limits max s'.item.read) := by
  obtain ⟨source, solvers⟩ := e
  have hrun : Ends (if source.settings.sideBySide then solveSideBySide List.flatten c solvers
      else solveEach c solvers) (fun _ => True) fun r => c.Keeps r.2.2 ∧
        (∀ s ∈ r.2.1, Heeds c max s.scalars s.solver) ∧
          (r.1 = true → ∀ s ∈ r.2.1, c.Limits max s.read) := by
    split
    · apply Ends.bind (solveAll_heeds hc c h)
      exact fun r hr => ⟨c.keeps_writeAll _, hr⟩
    · exact solveEach_heeds hc c h
  unfold Grants solvePlain
  dsimp only
  split
  · trivial
  · rename_i r hr
    obtain ⟨hkeeps, hheeds, hlimits⟩ := hrun.of_ok hr
    exact ⟨hkeeps, rfl, hheeds, fun hsolved => Context.limits_firstRead (hlimits hsolved)⟩

end PlainEnsemble

namespace CoverageEnsemble

open Ensemble

theorem rebuildCoverage_heeds (hc : c.WellFormed) (e : CoverageEnsemble)
    (hps : ∀ p ∈ ps, ¬ p.NeedsVector ∧ c.Declares p.scalars) :
    Grants (rebuildCoverage c ps) e (fun _ => True) (fun _ _ => False) fun _ e' =>
      (∀ s ∈ e'.solvers, Heeds c e.source.settings.maxVectorSize s.scalars s.solver) ∧
        e.source.Alike e'.source := by
  have hmake : ∀ p ∈ ps, ∀ seed, Attempts
      (CoverageSolver.build c e.source.storageBits e.source.settings p seed) (fun _ => True)
      (fun _ => False) fun s => Heeds c e.source.settings.maxVectorSize s.scalars s.solver := by
    intro p hp seed
    obtain ⟨hscalar, hdeclares⟩ := hps p hp
    have hbuild : Attempts (CoverageSolver.build c e.source.storageBits e.source.settings p seed)
      _ _ _ := CoverageSolver.build_heeds hc hdeclares e.source.storageBits seed
    have hassigns := CoverageSolver.build_assigns c e.source.storageBits e.source.settings p seed
    apply (hassigns.and hbuild).imp
    · exact fun _ _ => trivial
    · exact fun _ hr => hscalar hr.1
    · exact fun s hs => hs.2
  unfold rebuildCoverage
  apply Grants.get_bind
  have hrebuild := rebuild_grants (E := fun _ => True) trivial hmake
  exact hrebuild.mono fun _ _ hs => ⟨forall_of_forall₂ hs.1, hs.2⟩

theorem hitEach_heeds (hc : c.WellFormed) (c₀ : Context) {solvers : List CoverageSolver}
    (h : ∀ s ∈ solvers, Heeds c max s.scalars s.solver) :
    Ends (hitEach c₀ solvers) (fun _ => True) fun r => c₀.Keeps r.2.2 ∧
      (∀ s ∈ r.2.1, Heeds c max s.scalars s.solver) ∧ ∀ s ∈ r.2.1, c.Limits max s.read := by
  induction solvers generalizing c₀ with
  | nil => exact ⟨.refl c₀, by simp, by simp⟩
  | cons s solvers ih =>
    obtain ⟨hs, hrest⟩ := List.forall_mem_cons.mp h
    unfold hitEach
    apply Ends.bind (CoverageSolver.solve_heeds hs hc c₀)
    rintro ⟨answer, s'⟩ ⟨hs', hlimits⟩
    apply Ends.bind (ih _ hrest)
    rintro ⟨hit, rest, c'⟩ ⟨hkeeps, hrest', hlimits'⟩
    exact ⟨(c₀.keeps_writeAll _).trans hkeeps, List.forall_mem_cons.mpr ⟨hs', hrest'⟩,
      List.forall_mem_cons.mpr ⟨hlimits, hlimits'⟩⟩

/-- The sizes that are answered after a coverage solve are within the maximum. -/
theorem solveCoverage_heeds (hc : c.WellFormed) {e : CoverageEnsemble}
    (h : ∀ s ∈ e.solvers, Heeds c max s.scalars s.solver) :
    Grants solveCoverage ⟨c, e⟩ (fun _ => True) (fun _ _ => False) fun _ s' =>
      c.Keeps s'.context ∧ s'.item.source = e.source ∧
        (∀ s ∈ s'.item.solvers, Heeds c max s.scalars s.solver) ∧ c.Limits max s'.item.read := by
  obtain ⟨source, solvers⟩ := e
  have hrun := hitEach_heeds hc c h
  unfold Grants solveCoverage
  dsimp only at hrun ⊢
  split
  · trivial
  · rename_i r hr
    obtain ⟨hkeeps, hheeds, hlimits⟩ := hrun.of_ok hr
    exact ⟨hkeeps, rfl, hheeds, Context.limits_firstRead hlimits⟩

end CoverageEnsemble

end

end Stimulus
