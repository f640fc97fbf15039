import Stimulus.Proofs.Group.Frame
import Stimulus.Proofs.Group.Problem

/-!
# What partition solvers answer

Building a partition solver poses the hard constraints of the partition and the bounds on sizes.
An analysis sifts the soft constraints: those that fit become hard, the others are put on record.
Every solve afterwards finds an environment that satisfies what is posed together with the values of
the references, or there is none.  Suggestions never make a solve fail.

Main definitions:
- `PartitionSolver.Poses`: what a partition solver poses
- `PartitionSolver.Analysed`: what an analysis has found
- `PartitionSolver.Settled`, `PartitionSolver.Ready`: a partition solver between two solves

Main statements:
- `PartitionSolver.build_settles`, `PartitionSolver.build_attempts`
- `PartitionSolver.solve_settled`, `PartitionSolver.solve_ensures`
-/

namespace Stimulus

namespace PartitionSolver

/-! ## §1 What a partition solver poses -/

/-- A presolver is about a declared variable and poses hard constraints only. -/
def Presolves (Γ : Signature) (x : Expr × Solver) : Prop :=
  (∃ id s, x.1 = .var id s ∧ Γ.sort? id = some s) ∧ ∃ hards, x.2.Poses Γ hards [] [] []

/-- The solver of a partition poses lists of constraints, and conflicts are on record only if the
    hard constraints of the partition and the bounds contradict each other. -/
structure Poses (s : PartitionSolver) (Γ : Signature) (p : Partition)
    (bounds : Std.TreeMap Nat Expr) (hards softs assumed suggested : List Expr) : Prop where
  partition_eq : s.partition = p
  scalars_eq : s.scalars = p.scalars
  bounds_eq : s.bounds = bounds
  solver : s.solver.Poses Γ hards softs assumed suggested
  presolvers : ∀ x ∈ s.presolvers, Presolves Γ x
  contradictions : s.contradictions ≠ [] → ¬ Satisfiable (p.hards ++ bounds.values)

section

variable {s : PartitionSolver} {c : Context} {Γ Δ : Signature} {p : Partition}
  {bounds : Std.TreeMap Nat Expr} {hards softs assumed suggested : List Expr} {safe : Prop}

theorem Poses.sub (h : s.Poses Γ p bounds hards softs assumed suggested) (hsub : Γ.Sub Δ) :
    s.Poses Δ p bounds hards softs assumed suggested where
  partition_eq := h.partition_eq
  scalars_eq := h.scalars_eq
  bounds_eq := h.bounds_eq
  solver := h.solver.sub hsub
  presolvers x hx := by
    obtain ⟨⟨id, sort, heq, hid⟩, hards, hposes⟩ := h.presolvers x hx
    exact ⟨⟨id, sort, heq, hsub id sort hid⟩, hards, hposes.sub hsub⟩
  contradictions := h.contradictions

theorem Poses.withSolver (h : s.Poses Γ p bounds hards softs assumed suggested) {solver : Solver}
    {hards' softs' assumed' suggested' : List Expr}
    (hsolver : solver.Poses Γ hards' softs' assumed' suggested') :
    Poses { s with solver := solver } Γ p bounds hards' softs' assumed' suggested' :=
  ⟨h.partition_eq, h.scalars_eq, h.bounds_eq, hsolver, h.presolvers, h.contradictions⟩

theorem Poses.withRng (h : s.Poses Γ p bounds hards softs assumed suggested) (rng : Stream) :
    Poses { s with rng := rng } Γ p bounds hards softs assumed suggested :=
  ⟨h.partition_eq, h.scalars_eq, h.bounds_eq, h.solver, h.presolvers, h.contradictions⟩

theorem Poses.withPresolvers (h : s.Poses Γ p bounds hards softs assumed suggested)
    {presolvers : List (Expr × Solver)} (hpresolvers : ∀ x ∈ presolvers, Presolves Γ x) :
    Poses { s with presolvers := presolvers } Γ p bounds hards softs assumed suggested :=
  ⟨h.partition_eq, h.scalars_eq, h.bounds_eq, h.solver, hpresolvers, h.contradictions⟩

/-! ## §2 Parts of a partition solver -/

theorem useSolver_grants {α : Type} {act : Request Solver α} {E : Fault → Prop}
    {Q : α → Solver → Prop} (h : Grants act s.solver E (fun _ _ => False) Q) :
    Grants (useSolver act) s E (fun _ _ => False) fun a s' =>
      ∃ solver, s' = { s with solver := solver } ∧ Q a solver :=
  (useSolver_focus h).imp_refusal fun _ _ ⟨_, _, hr⟩ => hr

theorem draw_grants {α : Type} {act : Draw α} {P : α → Prop} {R : Refusal → PartitionSolver → Prop}
    (h : Draws act P) : Grants (draw act) s (Stuck safe) R fun a s' =>
      P a ∧ ∃ rng, s' = { s with rng := rng } := by
  have hdraw := h s.rng
  unfold Grants draw
  unfold Ensures at hdraw
  cases hact : act s.rng with
  | error fault =>
    rw [hact] at hdraw
    cases hdraw
    exact stuck_drawNeverEnds
  | ok r =>
    rw [hact] at hdraw
    exact ⟨hdraw, r.2, rfl⟩

theorem Poses.newSolver (h : s.Poses Γ p bounds hards softs assumed suggested) {storageBits : Nat}
    (hbits : safe → storageBits ≤ 31) :
    Grants (newSolver storageBits) s (Stuck safe) (fun _ _ => False) fun solver s' =>
      s'.Poses Γ p bounds hards softs assumed suggested ∧ solver.Poses Γ [] [] [] [] := by
  refine (draw_grants (Stream.words_draws 2)).bind ?_
  rintro seed _ ⟨-, rng, rfl⟩
  refine (Grants.ofExcept (Solver.empty_ends (Γ := Γ) hbits)).mono ?_
  rintro solver _ ⟨hsolver, rfl⟩
  exact ⟨h.withRng rng, hsolver⟩

/-! ## §3 Building -/

/-- The constraints of the partition and the bounds on sizes are posed. -/
theorem addConstraints_grants (h : s.Poses Γ p bounds [] [] [] []) (hp : p.Posed Γ)
    (hbounds : ∀ b ∈ bounds.values, Γ.Admits b) (hfew : safe → Γ.Few) :
    Grants addConstraints s (Stuck safe) (fun _ _ => False) fun _ s' =>
      s'.Poses Γ p bounds (p.hards ++ bounds.values) p.softs [] [] := by
  unfold addConstraints
  refine .get_bind ?_
  dsimp only
  rw [h.partition_eq]
  let hard (cs : List Constraint) : List Expr := (cs.filter (!·.soft)).map Constraint.expr
  let soft (cs : List Constraint) : List Expr := (cs.filter (·.soft)).map Constraint.expr
  refine (grants_forM_from (I := fun done (s : PartitionSolver) =>
    s.Poses Γ p bounds (hard done) (soft done) [] []) h ?_).bind fun _ s₁ h₁ => ?_
  · intro done x s hs hx
    have hadmits := hp x (List.mem_filter.mp hx).1
    cases hsoft : x.soft with
    | true =>
      refine (useSolver_grants (Solver.assertSoft_grants hs.solver hadmits hfew)).mono ?_
      rintro _ _ ⟨solver, rfl, hsolver⟩
      exact hs.withSolver (by simpa [hard, soft, List.filter_append, hsoft] using hsolver)
    | false =>
      refine (useSolver_grants (Solver.assert_grants hs.solver hadmits hfew)).mono ?_
      rintro _ _ ⟨solver, rfl, hsolver⟩
      exact hs.withSolver (by simpa [hard, soft, List.filter_append, hsoft] using hsolver)
  · have hhards : hard (p.constraints.filter (!·.cover)) = p.hards := by
      simp [hard, Partition.hards, List.filter_filter, Constraint.isHard]
    have hsofts : soft (p.constraints.filter (!·.cover)) = p.softs := by
      simp [soft, Partition.softs, List.filter_filter]
    rw [hhards, hsofts] at h₁
    refine .get_bind ?_
    rw [h₁.bounds_eq]
    refine grants_forM_from (I := fun done (s : PartitionSolver) =>
      s.Poses Γ p bounds (p.hards ++ done) p.softs [] []) (by simpa using h₁) ?_
    intro done b s hs hb
    refine (useSolver_grants (Solver.assert_grants hs.solver (hbounds b hb) hfew)).mono ?_
    rintro _ _ ⟨solver, rfl, hsolver⟩
    exact hs.withSolver (by simpa using hsolver)

/-- Conflicts are looked for only among constraints that contradict each other.  They are found
    exactly if there are some among the hard constraints alone. -/
theorem findContradictions_grants (h : s.Poses Γ p bounds hards softs assumed suggested)
    (hp : p.Posed Γ) (hunsat : ¬ Satisfiable (p.hards ++ bounds.values)) (hfew : safe → Γ.Few)
    (hmany : safe → p.hards.length < 2 ^ 31) {storageBits : Nat} (hbits : safe → storageBits ≤ 31) :
    Grants (findContradictions storageBits) s (Stuck safe) (fun _ _ => False) fun _ s' =>
      s'.Poses Γ p bounds hards softs assumed suggested ∧ s'.inactiveSofts = s.inactiveSofts ∧
        (p.hards.length < 2 ^ 31 → (s'.contradictions = [] ↔ Satisfiable p.hards)) := by
  unfold findContradictions
  refine .get_bind ?_
  have hnew := (h.newSolver hbits).and (newSolver_keeps storageBits s (.refl s))
  refine (hnew.imp (fun _ hf => hf.1) (fun _ _ hr => hr.1) fun _ _ hq => hq).bind ?_
  rintro checker s₁ ⟨⟨h₁, hchecker⟩, hkeeps⟩
  dsimp only
  rw [h.partition_eq]
  have hadmits : ∀ (k : Nat) (e : Expr), p.numberedHards[k]? = some e → Γ.Admits e :=
    fun k e hk => hp.admits_hards
      (Partition.mem_values_numberedHards.mp (mem_values_treeMap.mpr ⟨k, hk⟩))
  have hconflicts := Attempts.ofAttempt (s := s₁) (R := fun _ _ => False)
    (Solver.conflicts_grants hchecker hadmits hfew (p.size_numberedHards ▸ hmany)).runOn
  refine Grants.bind hconflicts ?_
  rintro ⟨groups, _⟩ _ ⟨⟨-, hgroups⟩, rfl⟩
  refine .modify ⟨⟨h₁.partition_eq, h₁.scalars_eq, h₁.bounds_eq, h₁.solver, h₁.presolvers,
    fun _ => hunsat⟩, hkeeps.inactiveSofts_eq, fun hsmall => ?_⟩
  show List.map _ groups = [] ↔ _
  rw [List.map_eq_nil_iff, hgroups (p.size_numberedHards.symm ▸ hsmall)]
  exact exists_congr fun env => forall_congr' fun e =>
    imp_congr_left Partition.mem_values_numberedHards

/-- The soft constraints are sifted: those that fit with `hards` and each other are hard by now, and
    the names of those at the dropped positions are on record. -/
structure Sifted (s : PartitionSolver) (Γ : Signature) (p : Partition)
    (bounds : Std.TreeMap Nat Expr) (hards : List Expr) (dropped : List Nat) : Prop where
  sifts : Solver.Sifts hards 0 p.softs dropped
  poses : s.Poses Γ p bounds (hards ++ Solver.without dropped p.softs) [] [] []
  inactive : s.inactiveSofts = dropped.map (p.softNames.getD · "")

/-- Soft constraints become hard as far as they fit. -/
theorem settleSofts_grants (h : s.Poses Γ p bounds hards p.softs [] [])
    (hinactive : s.inactiveSofts = []) :
    Grants settleSofts s (Stuck safe) (fun _ _ => False) fun _ s' =>
      (∃ dropped, s'.Sifted Γ p bounds hards dropped) ∧
        s'.contradictions = s.contradictions := by
  unfold settleSofts
  refine .get_bind ?_
  rw [h.partition_eq]
  dsimp only
  split
  · rename_i hempty
    have hsofts : p.softs = [] := by
      unfold Partition.softs
      rw [List.map_eq_nil_iff, List.filter_eq_nil_iff]
      intro c hc
      have hsoft := List.filter_eq_nil_iff.mp (List.isEmpty_iff.mp hempty) c hc
      simp [hsoft]
    refine .pure ⟨⟨[], ?_, ?_, hinactive⟩, rfl⟩
    · rw [hsofts]
      exact .nil hards 0
    · rw [hsofts] at h ⊢
      simpa [Solver.without] using h
  · refine (useSolver_grants (Solver.dropSofts_ensures h.solver).step).bind ?_
    rintro dropped _ ⟨solver, rfl, hsifts, hsolver⟩
    have h' := h.withSolver hsolver
    refine .modify ⟨⟨dropped, hsifts, ⟨h'.partition_eq, h'.scalars_eq, h'.bounds_eq, h'.solver,
      h'.presolvers, h'.contradictions⟩, ?_⟩, rfl⟩
    simp [Partition.softNames]

theorem addPresolver_grants (h : s.Poses Γ p bounds hards softs assumed suggested)
    (hp : p.Posed Γ) (hbounds : ∀ b ∈ bounds.values, Γ.Admits b) (hfew : safe → Γ.Few)
    {storageBits : Nat} (hbits : safe → storageBits ≤ 31) {id : Nat} {e : Expr}
    (he : p.scalars[id]? = some e) :
    Grants (addPresolver c storageBits id e) s (Stuck safe) (fun _ _ => False) fun _ s' =>
      s'.Poses Γ p bounds hards softs assumed suggested := by
  unfold addPresolver
  refine .get_bind ?_
  dsimp only
  split
  · exact .pure h
  · refine (h.newSolver hbits).bind fun presolver s₁ h₁ => ?_
    obtain ⟨h₁, hpresolver⟩ := h₁
    have hassert : Grants (((s.partition.singleOn id).map Constraint.expr ++
        s.bounds[id]?.toList).forM Solver.assert) presolver (Stuck safe) (fun _ _ => False)
        fun _ t => ∃ hards, t.Poses Γ hards [] [] [] := by
      refine grants_forM (I := fun t : Solver => ∃ hards, t.Poses Γ hards [] [] [])
        ⟨[], hpresolver⟩ ?_
      rintro b hb t ⟨hards, ht⟩
      have hadmits : Γ.Admits b := by
        rcases List.mem_append.mp hb with hb | hb
        · obtain ⟨x, hx, rfl⟩ := List.mem_map.mp hb
          exact hp x (h.partition_eq ▸ (List.mem_filter.mp hx).1)
        · rw [h.bounds_eq, Option.mem_toList] at hb
          exact hbounds b (mem_values_treeMap.mpr ⟨id, hb⟩)
      exact (Solver.assert_grants ht hadmits hfew).mono fun _ t' ht' => ⟨_, ht'⟩
    refine Grants.bind (Attempts.ofAttempt (s := s₁) (R := fun _ _ => False) hassert.runOn) ?_
    rintro ⟨_, presolver'⟩ _ ⟨⟨hards', hpresolver'⟩, rfl⟩
    refine .modify (h₁.withPresolvers fun x hx => ?_)
    rcases List.mem_append.mp hx with hx | hx
    · exact h₁.presolvers x hx
    · obtain ⟨sort, rfl, hmem⟩ := hp.getElem?_scalars.mp he
      rw [List.mem_singleton.mp hx]
      exact ⟨⟨id, sort, rfl, hp.sort? hmem⟩, hards', hpresolver'⟩

/-- Without conflicts, the soft constraints are sifted before the presolvers are made. -/
theorem settle_grants (h : s.Poses Γ p bounds hards p.softs [] [])
    (hinactive : s.inactiveSofts = []) (hp : p.Posed Γ)
    (hbounds : ∀ b ∈ bounds.values, Γ.Admits b) (hfew : safe → Γ.Few) {storageBits : Nat}
    (hbits : safe → storageBits ≤ 31) (presolve : Bool) :
    Grants (do
      settleSofts
      if presolve then
        (← get).scalars.toList.forM fun (id, e) => addPresolver c storageBits id e) s
      (Stuck safe) (fun _ _ => False) fun _ s' =>
        (∃ dropped, s'.Sifted Γ p bounds hards dropped) ∧
          s'.contradictions = s.contradictions := by
  refine (settleSofts_grants h hinactive).bind ?_
  rintro _ s₁ ⟨⟨dropped, hsifted⟩, hcontradictions⟩
  have h₁ := hsifted.poses
  cases presolve with
  | false => exact .pure ⟨⟨dropped, hsifted⟩, hcontradictions⟩
  | true =>
    refine .get_bind ?_
    rw [h₁.scalars_eq]
    -- Presolvers change neither what is posed nor what is on record.
    refine (grants_forM (I := fun s : PartitionSolver =>
      s.Poses Γ p bounds (hards ++ Solver.without dropped p.softs) [] [] [] ∧ s₁.SameRecord s)
      ⟨h₁, .refl s₁⟩ ?_).mono ?_
    · rintro ⟨id, e⟩ hmem s ⟨hs, hsame⟩
      have hposes := addPresolver_grants (c := c) hs hp hbounds hfew hbits
        (Std.TreeMap.mem_toList_iff_getElem?_eq_some.mp hmem)
      have hkeeps := addPresolver_keeps c storageBits id e s hsame
      exact (hposes.and hkeeps).imp (fun _ hf => hf.1) (fun _ _ hr => hr.1) fun _ _ hq => hq
    · rintro _ s₂ ⟨h₂, hsame⟩
      exact ⟨⟨dropped, hsifted.sifts, h₂, hsame.inactiveSofts_eq.trans hsifted.inactive⟩,
        hsame.contradictions_eq.trans hcontradictions⟩

/-- What an analysis has found.  Conflicts are on record exactly if the hard constraints contradict
    each other, and then the soft constraints are left as they are; else these are sifted with the
    hard constraints and the bounds, which leaves none of them soft. -/
structure Analysed (s : PartitionSolver) (p : Partition) (bounds kept softs : List Expr) :
    Prop where
  conflicts : p.hards.length < 2 ^ 31 → (s.contradictions = [] ↔ Satisfiable p.hards)
  untouched : s.contradictions ≠ [] → kept = [] ∧ softs = p.softs ∧ s.inactiveSofts = []
  sifted : s.contradictions = [] → softs = [] ∧ ∃ dropped,
    Solver.Sifts (p.hards ++ bounds) 0 p.softs dropped ∧ kept = Solver.without dropped p.softs ∧
      s.inactiveSofts = dropped.map (p.softNames.getD · "")

/-- All constraints that are kept or still soft are soft constraints of the partition. -/
theorem Analysed.subset {bounds kept : List Expr} (h : s.Analysed p bounds kept softs) :
    kept ++ softs ⊆ p.softs := by
  by_cases hnone : s.contradictions = []
  · obtain ⟨rfl, dropped, -, rfl, -⟩ := h.sifted hnone
    rw [List.append_nil]
    exact Solver.without_subset dropped p.softs 0
  · obtain ⟨rfl, rfl, -⟩ := h.untouched hnone
    exact List.Subset.refl _

/-- The analysis leaves the hard constraints as they are; some soft constraints become hard, and
    others may be dropped. -/
theorem analyse_grants (h : s.Poses Γ p bounds (p.hards ++ bounds.values) p.softs [] [])
    (hnone : s.contradictions = []) (hinactive : s.inactiveSofts = [])
    (hp : p.Posed Γ) (hbounds : ∀ b ∈ bounds.values, Γ.Admits b) (hfew : safe → Γ.Few)
    {storageBits : Nat} (hbits : safe → storageBits ≤ 31)
    (hsearch : safe → Satisfiable (p.hards ++ bounds.values) ∨ p.hards.length < 2 ^ 31)
    (presolve : Bool) :
    Grants (analyse c storageBits presolve) s (Stuck safe) (fun _ _ => False) fun _ s' =>
      ∃ kept softs, s'.Poses Γ p bounds (p.hards ++ bounds.values ++ kept) softs [] [] ∧
        s'.Analysed p bounds.values kept softs := by
  -- What comes after the search for conflicts, whether or not it took place.
  have hrest (s : PartitionSolver)
      (hs : s.Poses Γ p bounds (p.hards ++ bounds.values) p.softs [] [])
      (hinactive : s.inactiveSofts = [])
      (hconflicts : p.hards.length < 2 ^ 31 → (s.contradictions = [] ↔ Satisfiable p.hards)) :
      Grants (do
        if (← get).contradictions.isEmpty then
          settleSofts
          if presolve then
            (← get).scalars.toList.forM fun (id, e) => addPresolver c storageBits id e) s
        (Stuck safe) (fun _ _ => False) fun _ s' => ∃ kept softs,
          s'.Poses Γ p bounds (p.hards ++ bounds.values ++ kept) softs [] [] ∧
            s'.Analysed p bounds.values kept softs := by
    refine .get_bind ?_
    split
    · rename_i hempty
      have hnone : s.contradictions = [] := List.isEmpty_iff.mp hempty
      refine (settle_grants hs hinactive hp hbounds hfew hbits presolve).mono ?_
      rintro _ s' ⟨⟨dropped, hsifted⟩, hsame⟩
      refine ⟨_, [], hsifted.poses, hsame ▸ hconflicts, fun hsome => ?_, fun _ => ?_⟩
      · exact absurd (hsame.trans hnone) hsome
      · exact ⟨rfl, dropped, hsifted.sifts, rfl, hsifted.inactive⟩
    · rename_i hsome
      rw [List.isEmpty_iff] at hsome
      exact .pure ⟨[], p.softs, by simpa using hs, hconflicts, fun _ => ⟨rfl, rfl, hinactive⟩,
        fun hnone => absurd hnone hsome⟩
  unfold analyse
  refine (useSolver_grants (Solver.solve_ensures safe h.solver true).step).bind ?_
  rintro found _ ⟨solver, rfl, hsolver, hanswer⟩
  have h' := h.withSolver hsolver
  cases found with
  | true =>
    obtain ⟨env, henv, -⟩ := hanswer.model rfl
    rw [if_pos rfl, List.nil_append, List.nil_append, Expr.allHold_append] at henv
    exact hrest _ h' hinactive fun _ => ⟨fun _ => ⟨env, henv.1⟩, fun _ => hnone⟩
  | false =>
    have hunsat : ¬ Satisfiable (p.hards ++ bounds.values) := by simpa using hanswer.noModel rfl
    have hmany (hs : safe) : p.hards.length < 2 ^ 31 := (hsearch hs).resolve_left hunsat
    refine (findContradictions_grants h' hp hunsat hfew hmany hbits).bind ?_
    rintro _ s' ⟨hs', hsame, hconflicts⟩
    exact hrest s' hs' (hsame.trans hinactive) hconflicts

/-- All constraints are posed, and analysed unless this is bypassed. -/
theorem pose_grants (h : s.Poses Γ p bounds [] [] [] []) (hnone : s.contradictions = [])
    (hinactive : s.inactiveSofts = []) (hp : p.Posed Γ) (hbounds : ∀ b ∈ bounds.values, Γ.Admits b)
    (hfew : safe → Γ.Few) {storageBits : Nat} (hbits : safe → storageBits ≤ 31)
    (hsearch : safe → Satisfiable (p.hards ++ bounds.values) ∨ p.hards.length < 2 ^ 31)
    (settings : Settings) :
    Grants (do
      addConstraints
      if !settings.bypassAnalysis then analyse c storageBits settings.presolve) s
      (Stuck safe) (fun _ _ => False) fun _ s' => ∃ kept softs,
        s'.Poses Γ p bounds (p.hards ++ bounds.values ++ kept) softs [] [] ∧
          if settings.bypassAnalysis then kept = [] ∧ softs = p.softs
          else s'.Analysed p bounds.values kept softs := by
  have hadd := (addConstraints_grants h hp hbounds hfew).and (addConstraints_keeps _ (.refl s))
  refine (hadd.imp (fun _ hf => hf.1) (fun _ _ hr => hr.1) fun _ _ hq => hq).bind ?_
  rintro _ s₁ ⟨h₁, hsame⟩
  cases settings.bypassAnalysis with
  | true => exact .pure ⟨[], p.softs, by simpa using h₁, rfl, rfl⟩
  | false =>
    exact analyse_grants h₁ (hsame.contradictions_eq.trans hnone)
      (hsame.inactiveSofts_eq.trans hinactive) hp hbounds hfew hbits hsearch _

/-- A partition solver between two solves, of which is known which soft constraints it has made hard
    and which it still poses as soft ones. -/
structure Settled (s : PartitionSolver) (c : Context) (p : Partition) (max : Nat)
    (kept softs : List Expr) : Prop where
  bounds : Bounds c p.scalars max s.bounds.values
  poses : s.Poses c.signature p s.bounds (p.hards ++ s.bounds.values ++ kept) softs [] []

/-- Declarations that come later do not concern a partition solver. -/
theorem Settled.grows {c' : Context} {max : Nat} {kept : List Expr}
    (h : s.Settled c p max kept softs) (hp : p.Posed c.signature)
    (hc : c.WellFormed) (hc' : c'.WellFormed) (hgrows : c.Grows c') :
    s.Settled c' p max kept softs where
  bounds := h.bounds.grows hp.declares hc hc' hgrows
  poses := h.poses.sub hgrows.signature

/-- A partition solver between two solves: it poses the hard constraints of a partition and bounds
    on sizes, and some of the soft constraints. -/
def Ready (s : PartitionSolver) (c : Context) (p : Partition) (max : Nat) : Prop :=
  ∃ kept softs, kept ++ softs ⊆ p.softs ∧ s.Settled c p max kept softs

theorem Ready.grows {c' : Context} {max : Nat} (h : s.Ready c p max) (hp : p.Posed c.signature)
    (hc : c.WellFormed) (hc' : c'.WellFormed) (hgrows : c.Grows c') : s.Ready c' p max := by
  obtain ⟨kept, softs, hsub, hs⟩ := h
  exact ⟨kept, softs, hsub, hs.grows hp hc hc' hgrows⟩

/-- Building a partition solver is never refused.  It bypasses the analysis or carries it out. -/
theorem build_settles {settings : Settings} {storageBits : Nat} (hc : c.WellFormed)
    (hp : p.Posed c.signature) (hfew : safe → c.signature.Few) (hbits : safe → storageBits ≤ 31)
    (hsearch : safe → p.hards.length < 2 ^ 31 ∨ ∃ env, p.SolvedBy c settings.maxVectorSize env)
    (seed : Nat) :
    Attempts (build c storageBits settings p seed) (Stuck safe) (fun _ => False) fun s =>
      s.bounds = boundsOnSizes c p.scalars settings.maxVectorSize ∧ ∃ kept softs,
        s.Settled c p settings.maxVectorSize kept softs ∧
          if settings.bypassAnalysis then kept = [] ∧ softs = p.softs
          else s.Analysed p s.bounds.values kept softs := by
  unfold build
  refine Attempts.ofExcept_bind (P := fun _ => True) ?_ ?_
  · exact (Stream.words_draws 2 _).imp (fun _ hf => hf ▸ stuck_drawNeverEnds) fun _ _ _ => trivial
  rintro ⟨solverSeed, rng⟩ -
  refine Attempts.ofExcept_bind (Solver.empty_ends (Γ := c.signature) hbits) ?_
  intro solver hsolver
  dsimp only
  let table := boundsOnSizes c p.scalars settings.maxVectorSize
  have hbounds : Bounds c p.scalars settings.maxVectorSize table.values :=
    bounds_boundsOnSizes hc hp.declares _
  have hstart : Poses ⟨p, solver, p.scalars, table, [], [], [], rng⟩ c.signature p table
      [] [] [] [] :=
    ⟨rfl, rfl, rfl, hsolver, fun x hx => absurd hx List.not_mem_nil, fun h => absurd rfl h⟩
  have hsearch' (hs : safe) : Satisfiable (p.hards ++ table.values) ∨ p.hards.length < 2 ^ 31 := by
    refine (hsearch hs).symm.imp_left ?_
    rintro ⟨env, henv⟩
    exact ⟨env, (Expr.allHold_append.mp ((hbounds.solvedBy_iff hc hp).mp henv)).2⟩
  -- All that is left to do works on the solver that has just been made.
  have hbuilding := pose_grants (c := c) hstart rfl rfl hp (fun b hb => hbounds.admits hc hb) hfew
    hbits hsearch' settings
  refine Attempts.bind hbuilding.runOn ?_
  rintro ⟨_, s⟩ ⟨kept, softs, hs, hanalysed⟩
  have htable : s.bounds = table := hs.bounds_eq
  have hsettled : s.Settled c p settings.maxVectorSize kept softs := by
    constructor <;> rw [htable]
    · exact hbounds
    · exact hs
  refine ⟨htable, kept, softs, hsettled, ?_⟩
  rw [htable]
  exact hanalysed

/-- A partition solver is ready once it is built. -/
theorem build_attempts {settings : Settings} {storageBits : Nat} (hc : c.WellFormed)
    (hp : p.Posed c.signature) (hfew : safe → c.signature.Few) (hbits : safe → storageBits ≤ 31)
    (hsat : safe → ∃ env, p.SolvedBy c settings.maxVectorSize env) (seed : Nat) :
    Attempts (build c storageBits settings p seed) (Stuck safe) (fun _ => False) fun s =>
      s.Ready c p settings.maxVectorSize := by
  refine (build_settles hc hp hfew hbits (fun hs => .inr (hsat hs)) seed).imp (fun _ hf => hf)
    (fun _ hr => hr) ?_
  rintro s ⟨-, kept, softs, hsettled, hanalysed⟩
  refine ⟨kept, softs, ?_, hsettled⟩
  split at hanalysed
  · obtain ⟨rfl, rfl⟩ := hanalysed
    exact List.Subset.refl _
  · exact hanalysed.subset

/-! ## §4 Preparing a solve -/

/-- Presolvers are solved ahead, and those with a solution answer a value for their variable. -/
theorem solveAhead_ends {presolvers : List (Expr × Solver)}
    (h : ∀ x ∈ presolvers, Presolves Γ x) :
    Ends (solveAhead presolvers) (Stuck safe) fun r =>
      (∀ x ∈ r.1, ∃ id s, x.1 = .var id s ∧ Γ.sort? id = some s) ∧ ∀ x ∈ r.2, Presolves Γ x := by
  induction presolvers with
  | nil => exact ⟨by simp, by simp⟩
  | cons x rest ih =>
    obtain ⟨e, presolver⟩ := x
    obtain ⟨⟨id, sort, rfl, hid⟩, hards, hposes⟩ := h _ List.mem_cons_self
    unfold solveAhead
    refine Ends.bind (Solver.solve_ensures safe hposes false) ?_
    rintro ⟨solved, presolver'⟩ ⟨hposes', hanswer⟩
    have hrest (value : Option Nat) : Ends (solveAhead rest >>= fun p =>
        pure ((value.map (Expr.var id sort, ·)).toList ++ p.1,
          (Expr.var id sort, presolver') :: p.2)) (Stuck safe) fun r =>
        (∀ x ∈ r.1, ∃ id s, x.1 = .var id s ∧ Γ.sort? id = some s) ∧
          ∀ x ∈ r.2, Presolves Γ x := by
      refine Ends.bind (ih fun y hy => h y (List.mem_cons_of_mem _ hy)) ?_
      rintro ⟨values, rest'⟩ ⟨hvalues, hrest⟩
      refine ⟨fun y hy => ?_, List.forall_mem_cons.mpr
        ⟨⟨⟨id, sort, rfl, hid⟩, hards, hposes'⟩, hrest⟩⟩
      rcases List.mem_append.mp hy with hy | hy
      · obtain ⟨bits, -, rfl⟩ := Option.map_eq_some_iff.mp (Option.mem_toList.mp hy)
        exact ⟨id, sort, rfl, hid⟩
      · exact hvalues y hy
    cases solved with
    | false => exact hrest none
    | true =>
      obtain ⟨env, -, -, hshows⟩ := hanswer.model rfl
      have hread : ∃ value, presolver'.read (.var id sort) = .ok value := by
        cases hslot : presolver'.encoding.slots[id]? with
        | none => exact ⟨none, Solver.read_of_unplaced hslot⟩
        | some slot => exact ⟨_, hshows id sort slot hid hslot⟩
      obtain ⟨value, hvalue⟩ := hread
      simp only [if_true]
      rw [hvalue]
      exact hrest value

theorem suggest_grants (h : s.Poses Γ p bounds hards softs assumed suggested)
    (hfew : safe → Γ.Few) {id : Nat} {sort : BitSort} (hid : Γ.sort? id = some sort) (bits : Nat) :
    Grants (useSolver (Solver.suggest ((Expr.var id sort).equalTo bits))) s (Stuck safe)
      (fun _ _ => False) fun _ s' =>
        ∃ suggested, s'.Poses Γ p bounds hards softs assumed suggested := by
  have hadmits : Γ.Admits ((Expr.var id sort).equalTo bits) := Signature.admits_equalTo hid
  refine (useSolver_grants (Solver.suggest_grants h.solver hadmits hfew)).mono ?_
  rintro _ _ ⟨solver, rfl, hsolver⟩
  exact ⟨_, h.withSolver hsolver⟩

theorem suggestAhead_grants (h : s.Poses Γ p bounds hards softs assumed suggested)
    (hfew : safe → Γ.Few) :
    Grants suggestAhead s (Stuck safe) (fun _ _ => False) fun _ s' =>
      ∃ suggested, s'.Poses Γ p bounds hards softs assumed suggested := by
  unfold suggestAhead
  refine .get_bind (.modify_bind (.ofExcept_bind (solveAhead_ends h.presolvers) ?_))
  rintro ⟨values, presolvers⟩ ⟨hvalues, hpresolvers⟩
  refine .modify_bind (grants_forM (I := fun s : PartitionSolver =>
    ∃ suggested, s.Poses Γ p bounds hards softs assumed suggested)
    ⟨suggested, h.withPresolvers hpresolvers⟩ ?_)
  rintro ⟨e, bits⟩ hmem s ⟨suggested, hs⟩
  obtain ⟨id, sort, rfl, hid⟩ := hvalues _ hmem
  exact suggest_grants hs hfew hid bits

theorem suggestDistributions_grants (hc : c.WellFormed) (hp : p.Posed c.signature)
    (h : s.Poses c.signature p bounds hards softs assumed suggested)
    (hfew : safe → c.signature.Few) :
    Grants (suggestDistributions c) s (Stuck safe) (fun _ _ => False) fun _ s' =>
      ∃ suggested, s'.Poses c.signature p bounds hards softs assumed suggested := by
  unfold suggestDistributions
  refine .get_bind (grants_forM (I := fun s : PartitionSolver =>
    ∃ suggested, s.Poses c.signature p bounds hards softs assumed suggested) ⟨suggested, h⟩ ?_)
  rintro ⟨id, d⟩ hmem s₁ ⟨suggested, hs⟩
  rw [h.scalars_eq]
  dsimp only
  cases hid : p.scalars[id]? with
  | none => exact .pure ⟨suggested, hs⟩
  | some e =>
    obtain ⟨sort, rfl, hmentions⟩ := hp.getElem?_scalars.mp hid
    have hlawful := hc.lawful id d (Std.TreeMap.mem_toList_iff_getElem?_eq_some.mp hmem)
    refine (draw_grants hlawful.draw_draws).bind ?_
    rintro value _ ⟨-, rng, rfl⟩
    exact suggest_grants (hs.withRng rng) hfew (hp.sort? hmentions) _

/-- A solve is prepared with suggestions, and with the values of the references as assumptions. -/
theorem prepare_grants (hc : c.WellFormed) (hp : p.Posed c.signature)
    (h : s.Poses c.signature p bounds hards softs [] [])
    (hfew : safe → c.signature.Few) :
    Grants (prepare c) s (Stuck safe) (fun _ _ => False) fun _ s' =>
      ∃ suggested, s'.Poses c.signature p bounds hards softs (givens c p.scalars) suggested := by
  unfold prepare
  refine (suggestAhead_grants h hfew).bind ?_
  rintro _ s₁ ⟨suggested, h₁⟩
  refine .get_bind ?_
  dsimp only
  rw [h₁.scalars_eq]
  refine (useSolver_grants (Solver.assumeReferences_grants h₁.solver hp hfew)).bind ?_
  rintro _ _ ⟨solver, rfl, hsolver⟩
  exact suggestDistributions_grants hc hp (h₁.withSolver hsolver) hfew

/-! ## §5 Solving -/

/-- What a solve of a partition answers under commitments beyond the hard constraints.  With an
    answer there is a solution that meets them; the results are its values, and so is what the
    solver answers afterwards.  Without an answer there is none. -/
def Resolves (s : PartitionSolver) (c : Context) (p : Partition) (max : Nat)
    (commitments : List Expr) (answer : Option (List (Nat × Nat))) : Prop :=
  match answer with
  | some results => (∃ env, Answered c p max env s.read ∧ Expr.AllHold env commitments ∧
      ∀ e ∈ commitments, ∀ id sort, e.Mentions id sort →
        s.read id = .ok (some (env id % 2 ^ sort.width))) ∧
      ∀ id n, (id, n) ∈ results ↔ s.read id = .ok (some n)
  | none => ¬ ∃ env, p.SolvedBy c max env ∧ Expr.AllHold env commitments

/-- A solve leaves what is posed as it is, and decides it with the values of the references. -/
theorem attempt_grants (hc : c.WellFormed) (hp : p.Posed c.signature)
    (h : s.Poses c.signature p bounds hards softs [] []) (hfew : safe → c.signature.Few) :
    Grants (do
      prepare c
      useSolver (Request.step (Solver.solve false))) s (Stuck safe) (fun _ _ => False)
      fun found s' => s'.Poses c.signature p bounds hards softs [] [] ∧
        ∃ suggested, s'.solver.Solved c.signature found
          (softs ++ (givens c p.scalars ++ hards)) suggested := by
  refine (prepare_grants hc hp h hfew).bind ?_
  rintro _ s₁ ⟨suggested, h₁⟩
  refine (useSolver_grants (Solver.solve_ensures safe h₁.solver false).step).mono ?_
  rintro found _ ⟨solver, rfl, hsolver, hanswer⟩
  exact ⟨h₁.withSolver hsolver, suggested, hanswer⟩

/-- The solutions that meet what is committed to are the models of all that a solve decides. -/
theorem Settled.allHold_iff {max : Nat} {kept : List Expr} (h : s.Settled c p max kept softs)
    (hc : c.WellFormed) (hp : p.Posed c.signature) {env : Nat → Nat} :
    Expr.AllHold env (softs ++ (givens c p.scalars ++ (p.hards ++ s.bounds.values ++ kept))) ↔
      p.SolvedBy c max env ∧ Expr.AllHold env (kept ++ softs) := by
  rw [h.bounds.solvedBy_iff hc hp]
  simp only [Expr.allHold_append]
  tauto

/-- After a solve that finds something, the solver answers a solution that meets what is committed
    to, also for the variables that only the soft constraints have. -/
theorem Settled.answered {s' : PartitionSolver} {max : Nat} {kept : List Expr}
    (h : s.Settled c p max kept softs) (hsub : kept ++ softs ⊆ p.softs) (hc : c.WellFormed)
    (hp : p.Posed c.signature)
    (hs' : s'.Poses c.signature p s.bounds (p.hards ++ s.bounds.values ++ kept) softs [] [])
    (hanswer : s'.solver.Solved c.signature true
      (softs ++ (givens c p.scalars ++ (p.hards ++ s.bounds.values ++ kept))) suggested) :
    ∃ env, Answered c p max env s'.read ∧ Expr.AllHold env (kept ++ softs) ∧
      ∀ e ∈ kept ++ softs, ∀ id sort, e.Mentions id sort →
        s'.read id = .ok (some (env id % 2 ^ sort.width)) := by
  obtain ⟨env, henv, -, hshows⟩ := hanswer.model rfl
  obtain ⟨hsolved, hcommitted⟩ := (h.allHold_iff hc hp).mp henv
  have hread : s'.read = s'.solver.readVariable p.scalars := by
    funext id
    rw [← hs'.scalars_eq]
    rfl
  refine ⟨env, ?_, hcommitted, fun e he id sort hmention => ?_⟩
  · rw [hread]
    exact Solver.answered_of_shows hc hp h.bounds hs'.solver (List.subset_append_left _ _)
      ((h.bounds.solvedBy_iff hc hp).mp hsolved) hshows
  · have hid := p.mentions_of_softs (hsub he) hmention
    have hposed : e ∈ suggested ++
        (softs ++ (givens c p.scalars ++ (p.hards ++ s.bounds.values ++ kept))) := by
      simp at he ⊢
      tauto
    -- What was encoded has slots, and these have values in every solution.
    obtain ⟨slot, hslot⟩ := hanswer.placed e hposed id sort hmention
    rw [hread, Solver.readVariable, hp.getElem?_scalars.mpr ⟨sort, rfl, hid⟩]
    exact hshows id sort slot (hp.sort? hid) hslot

/-- A partition solver commits to the same soft constraints in every solve. -/
theorem solve_settled {max : Nat} {kept : List Expr} (h : s.Settled c p max kept softs)
    (hsub : kept ++ softs ⊆ p.softs) (hc : c.WellFormed) (hp : p.Posed c.signature)
    (hfew : safe → c.signature.Few) :
    Ensures (solve c) s (Stuck safe) fun answer s' =>
      s'.Settled c p max kept softs ∧ s'.Resolves c p max (kept ++ softs) answer := by
  unfold solve
  refine .get_bind ?_
  split
  · -- There are conflicts, so there is no solution.
    rename_i hconflicts
    have hunsat := h.poses.contradictions (by simpa using hconflicts)
    refine .pure ⟨h, fun ⟨env, hsolved, _⟩ => hunsat ⟨env, ?_⟩⟩
    exact (Expr.allHold_append.mp ((h.bounds.solvedBy_iff hc hp).mp hsolved)).2
  refine (attempt_grants hc hp h.poses hfew).run_bind ?_
  rintro found s' ⟨hs', suggested, hanswer⟩
  have hsettled : s'.Settled c p max kept softs := by
    constructor <;> rw [hs'.bounds_eq]
    · exact h.bounds
    · exact hs'
  cases found with
  | false =>
    refine .pure ⟨hsettled, ?_⟩
    rintro ⟨env, hmeets⟩
    exact hanswer.noModel rfl ⟨env, (h.allHold_iff hc hp).mpr hmeets⟩
  | true =>
    obtain ⟨env, hanswered, hcommitted⟩ := h.answered hsub hc hp hs' hanswer
    refine .get_bind (.ofExcept_bind (R := fun results =>
      ∀ id n, (id, n) ∈ results ↔ s'.read id = .ok (some n))
      (Solver.results_ends hanswered.ends) fun results hresults => ?_)
    exact .pure ⟨hsettled, ⟨env, hanswered, hcommitted⟩, hresults⟩

/-- What a solve of a partition answers.  With an answer the partition has a solution; the results
    are its values, and so is what the solver answers afterwards.  Without an answer the partition
    has no solution that satisfies the soft constraints which are still posed. -/
def Solves (s : PartitionSolver) (c : Context) (p : Partition) (max : Nat)
    (answer : Option (List (Nat × Nat))) : Prop :=
  match answer with
  | some results => (∃ env, Answered c p max env s.read) ∧
      ∀ id n, (id, n) ∈ results ↔ s.read id = .ok (some n)
  | none => p.Unsolvable c max

/-- A partition solver is ready again after every solve. -/
theorem solve_ensures {max : Nat} (h : s.Ready c p max) (hc : c.WellFormed)
    (hp : p.Posed c.signature) (hfew : safe → c.signature.Few) :
    Ensures (solve c) s (Stuck safe) fun answer s' =>
      s'.Ready c p max ∧ s'.Solves c p max answer := by
  obtain ⟨kept, softs, hsub, hs⟩ := h
  refine (solve_settled hs hsub hc hp hfew).mono ?_
  rintro answer s' ⟨hs', hresolves⟩
  refine ⟨⟨kept, softs, hsub, hs'⟩, ?_⟩
  cases answer with
  | none => exact ⟨kept ++ softs, hsub, hresolves⟩
  | some results =>
    obtain ⟨⟨env, hanswered, -⟩, hresults⟩ := hresolves
    exact ⟨⟨env, hanswered⟩, hresults⟩

end

end PartitionSolver

end Stimulus
