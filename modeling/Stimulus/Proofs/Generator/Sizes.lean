import Stimulus.Proofs.Generator.Laziness
import Stimulus.Proofs.Generator.Soundness
import Stimulus.Proofs.Vector.Length

/-!
# Vectors within the maximal size

A generator bounds the sizes of vectors in two places: the solvers of partitions heed bounds on the
sizes that occur in a partition, and all other vectors get the default size.  So if the default size
is within the maximum, no vector outgrows it, whether a constraint is about the vector or not, and
no solve is refused for the size of a vector.  Nothing is assumed about the constraints but that
their variables are declared.

Main definitions:
- `Context.Names`: an expression over declared variables
- `Generator.Measured`: what holds of a generator at any time
- `Generator.Handled`: the runs of a generator whose constraints are over declared variables

Main statements:
- `Generator.next_measures`, `Generator.nextCover_measures`
- `Generator.within_of_handled`
-/

namespace Stimulus

/-- The variables of the expression are declared with their sorts, or it is about vectors. -/
def Context.Names (c : Context) (e : Expr) : Prop :=
  e.mentionsVector = false → ∀ id sort, e.Mentions id sort → c.signature.sort? id = some sort

theorem Context.Writes.names {c : Context} {e : Expr} (h : c.Writes e) : c.Names e :=
  fun hscalar id sort hmention => (h hscalar).declared id sort hmention

theorem Context.Names.mono {c c' : Context} {e : Expr} (h : c.Names e)
    (hsub : c.signature.Sub c'.signature) : c'.Names e :=
  fun hscalar id sort hmention => hsub id sort (h hscalar id sort hmention)

/-- All vectors have at most so many elements. -/
def Context.Within (c : Context) (max : Nat) : Prop :=
  ∀ (id : Nat) (entry : VectorEntry), c.vectors[id]? = some entry → entry.contents.length ≤ max

namespace Generator

/-! ## §1 What holds at any time -/

/-- The solvers of partitions heed the bounds on the sizes among their variables. -/
structure Measured (settings : Settings) (storageBits : Nat) (s : InContext Generator) : Prop
    extends Sourced settings storageBits s where
  coverageVectorSource :
    (SolverSource.ofSettings settings storageBits).Alike s.item.coverageVectors.source
  names : ∀ x ∈ s.item.registry.constraints, s.context.Names x.expr
  declares : ∀ p ∈ s.item.partitioner.partitions, s.context.Declares p.scalars
  plain : ∀ solver ∈ s.item.plain.solvers,
    Heeds s.context settings.maxVectorSize solver.scalars solver.solver
  coverage : ∀ solver ∈ s.item.coverage.solvers,
    Heeds s.context settings.maxVectorSize solver.scalars solver.solver
  vectors : VectorStage.Filed s.item.vectors.solvers
  coverageVectors : VectorStage.Filed s.item.coverageVectors.solvers

section

variable {settings : Settings} {storageBits : Nat} {s s' : InContext Generator} {r : Registry}
  {read : Reading}

theorem Measured.grows (h : Measured settings storageBits s) {c' : Context} (hc' : c'.WellFormed)
    (hgrows : s.context.Grows c') : Measured settings storageBits ⟨c', s.item⟩ :=
  { h with
    wellFormed := hc'
    names := fun x hx => (h.names x hx).mono hgrows.signature
    declares := fun p hp => (h.declares p hp).grows hgrows
    plain := fun solver hsolver => (h.plain solver hsolver).grows h.wellFormed hc' hgrows
    coverage := fun solver hsolver => (h.coverage solver hsolver).grows h.wellFormed hc' hgrows }

theorem Measured.keeps (h : Measured settings storageBits s) {c' : Context}
    (hkeeps : s.context.Keeps c') : Measured settings storageBits ⟨c', s.item⟩ :=
  h.grows (hkeeps.wellFormed h.wellFormed) hkeeps.grows

/-- The generator is measured, and its registry is a given one. -/
def MeasuredWith (settings : Settings) (storageBits : Nat) (r : Registry)
    (s : InContext Generator) : Prop :=
  Measured settings storageBits s ∧ s.item.registry = r

/-- The partitions of accepted constraints over declared variables. -/
theorem declares_partitionPool {c : Context} (horderly : r.Orderly)
    (hnames : ∀ x ∈ r.constraints, c.Names x.expr) :
    ∀ p ∈ partitionPool r.scalars, c.Declares p.scalars := by
  intro p hp id e he
  obtain ⟨sort, rfl, x, hx, hmention⟩ := Partition.mentions_of_scalars he
  have hpool := (split_partitionPool _).mem_pool hp hx
  obtain ⟨hactive, hscalar⟩ := List.mem_filter.mp hpool
  have hmem := (List.mem_filter.mp hactive).1
  have hvector := horderly.scalar x hmem (by simpa using hscalar)
  exact ⟨sort, rfl, hnames x hmem hvector id sort hmention⟩

/-! ## §2 Rebuilding -/

/-- New coverage solvers heed the bounds. -/
theorem rebuildCoverage_measures (h : Measured settings storageBits s)
    (hscalar : ∀ p ∈ s.item.partitioner.partitions, ¬ p.NeedsVector) :
    Grants rebuildCoverage s (fun _ => True) (fun _ _ => False) fun _ s' =>
      MeasuredWith settings storageBits s.item.registry s' := by
  have hbuild := CoverageEnsemble.rebuildCoverage_heeds h.wellFormed s.item.coverage
    fun p hp => ⟨hscalar p hp, h.declares p hp⟩
  rw [h.coverageSource.settings_eq] at hbuild
  unfold rebuildCoverage
  apply Grants.get_bind
  apply ((useCoverage_grants (useItem_grants hbuild)).imp_refusal ?_).bind
  · rintro _ _ ⟨_, rfl, coverage, rfl, hheeds, halike⟩
    refine change_grants ⟨?_, rfl⟩
    exact { h with
      coverageSource := h.coverageSource.trans halike
      coverage := hheeds
      coverageVectors := VectorStage.filed_reset _ _ }
  · rintro _ _ ⟨_, -, _, -, hr⟩
    exact hr

theorem resetCoverage_measures (h : Measured settings storageBits s)
    (hscalar : ∀ p ∈ s.item.partitioner.partitions, ¬ p.NeedsVector) :
    Grants resetCoverage s (fun _ => True) (fun _ _ => False) fun _ s' =>
      Measured settings storageBits s' := by
  unfold resetCoverage
  apply change_bind
  have hcoverage := rebuildCoverage_measures (s := ⟨s.context, { s.item with covered := false }⟩)
    { h with } hscalar
  exact hcoverage.mono fun _ _ hq => hq.1

/-- New solvers for partitions over declared variables heed the bounds. -/
theorem rebuild_measures (h : Measured settings storageBits s) (includeOwn : Bool)
    (hps : ∀ p ∈ (s.item.regroup includeOwn).partitioner.partitions,
      ¬ p.NeedsVector ∧ s.context.Declares p.scalars) :
    Grants (rebuild includeOwn) s (fun _ => True) (fun _ _ => False) fun _ s' =>
      MeasuredWith settings storageBits s.item.registry s' := by
  have h' : Measured settings storageBits ⟨s.context, s.item.regroup includeOwn⟩ :=
    { h with declares := fun p hp => (hps p hp).2 }
  have hregistry : (s.item.regroup includeOwn).registry = s.item.registry := rfl
  unfold rebuild
  apply change_bind
  show Grants (_ : Generation Unit) (⟨s.context, s.item.regroup includeOwn⟩ : InContext _) _ _ _
  rw [← hregistry]
  -- From here on it does not matter how the constraints were split.
  generalize s.item.regroup includeOwn = g at hps h' ⊢
  have hbuild := PlainEnsemble.rebuildPlain_heeds h'.wellFormed g.plain hps
  rw [h'.plainSource.settings_eq] at hbuild
  apply Grants.get_bind
  dsimp only
  apply ((usePlain_grants (useItem_grants hbuild)).imp_refusal ?_).bind
  · rintro _ _ ⟨_, rfl, plain, rfl, hheeds, halike⟩
    apply change_bind
    refine rebuildCoverage_measures ?_ fun p hp => (hps p hp).1
    exact { h' with
      plainSource := h'.plainSource.trans halike
      plain := hheeds
      vectors := VectorStage.filed_reset _ _ }
  · rintro _ _ ⟨_, -, _, -, hr⟩
    exact hr

theorem refresh_measures (h : Measured settings storageBits s)
    (horderly : s.item.registry.Orderly) :
    Grants refresh s (fun _ => True) (fun _ _ => False) fun _ s' =>
      MeasuredWith settings storageBits s.item.registry.acknowledge s' := by
  unfold refresh
  apply Grants.get_bind
  split
  · apply change_bind
    have hpartitions := (Partitioner.partition_merge s.item.registry.acknowledge).1
    -- What is grouped are the scalar constraints of the registry, all of whose variables are
    -- declared.
    have hps : ∀ p ∈ (s.item.reset.regroup true).partitioner.partitions,
        ¬ p.NeedsVector ∧ s.context.Declares p.scalars := by
      intro p hp
      replace hp : p ∈ partitionPool s.item.registry.scalars := hpartitions ▸ hp
      exact ⟨scalar_partitionPool horderly p hp, declares_partitionPool horderly h.names p hp⟩
    have h' : Measured settings storageBits ⟨s.context, s.item.reset⟩ :=
      { h with declares := fun p hp => absurd hp List.not_mem_nil }
    exact rebuild_measures h' true hps
  · rename_i hunchanged
    have hflag : s.item.registry.changed = false := by simpa using hunchanged
    refine .pure ⟨h, ?_⟩
    unfold Registry.acknowledge
    rw [← hflag]

/-! ## §3 Solving -/

theorem solvePlain_measures (h : MeasuredWith settings storageBits r s) :
    Grants (usePlain PlainEnsemble.solvePlain) s (fun _ => True) (fun _ _ => False)
      fun solved s' => MeasuredWith settings storageBits r s' ∧
        (solved = true → s'.context.Limits settings.maxVectorSize s'.item.plain.read) := by
  obtain ⟨h, hr⟩ := h
  apply (usePlain_grants (PlainEnsemble.solvePlain_heeds h.wellFormed h.plain)).imp
    (fun _ hf => hf) (fun _ _ ⟨_, _, hno⟩ => hno)
  rintro solved _ ⟨t, rfl, hkeeps, hsource, hheeds, hlimits⟩
  have h' := h.keeps hkeeps
  have hgrown : ∀ solver ∈ t.item.solvers,
      Heeds t.context settings.maxVectorSize solver.scalars solver.solver := fun solver hsolver =>
    (hheeds solver hsolver).grows h.wellFormed h'.wellFormed hkeeps.grows
  exact ⟨⟨{ h' with plainSource := hsource ▸ h.plainSource, plain := hgrown }, hr⟩,
    fun hsolved => (hlimits hsolved).keeps hkeeps⟩

theorem solveCoverage_measures (h : MeasuredWith settings storageBits r s) :
    Grants (useCoverage CoverageEnsemble.solveCoverage) s (fun _ => True) (fun _ _ => False)
      fun _ s' => MeasuredWith settings storageBits r s' ∧ s.context.Keeps s'.context ∧
        s'.item.plain = s.item.plain ∧
          s'.context.Limits settings.maxVectorSize s'.item.coverage.read := by
  obtain ⟨h, hr⟩ := h
  apply (useCoverage_grants (CoverageEnsemble.solveCoverage_heeds h.wellFormed h.coverage)).imp
    (fun _ hf => hf) (fun _ _ ⟨_, _, hno⟩ => hno)
  rintro _ _ ⟨t, rfl, hkeeps, hsource, hheeds, hlimits⟩
  have h' := h.keeps hkeeps
  have hgrown : ∀ solver ∈ t.item.solvers,
      Heeds t.context settings.maxVectorSize solver.scalars solver.solver := fun solver hsolver =>
    (hheeds solver hsolver).grows h.wellFormed h'.wellFormed hkeeps.grows
  exact ⟨⟨{ h' with coverageSource := hsource ▸ h.coverageSource, coverage := hgrown }, hr⟩,
    hkeeps, rfl, hlimits.keeps hkeeps⟩

/-- What holds after a solve, refused or not. -/
abbrev Measures {α : Type} (act : Generation α) (s : InContext Generator) (settings : Settings)
    (storageBits : Nat) (r : Registry) (solved : α → Prop) : Prop :=
  Grants act s (fun _ => True)
    (fun refusal s' => refusal.Unsupported ∧ MeasuredWith settings storageBits r s')
    fun a s' => MeasuredWith settings storageBits r s' ∧
      (solved a → s'.context.Within settings.maxVectorSize)

variable (hdefault : settings.defaultVectorSize ≤ settings.maxVectorSize)

include hdefault

theorem solveVectors_measures (h : MeasuredWith settings storageBits r s)
    (hlimits : s.context.Limits settings.maxVectorSize read) :
    Measures (useVectors (VectorStage.solve read)) s settings storageBits r (· = true) := by
  obtain ⟨h, hr⟩ := h
  have hsolve := VectorStage.solve_within (s := ⟨s.context, s.item.vectors⟩) h.wellFormed h.vectors
    h.vectorSource.settings_eq hlimits hdefault
  -- Whatever the stage answers, only vectors and their own source have moved.
  have hmeasured {t : InContext VectorStage}
      (ht : VectorStage.Follows read ⟨s.context, s.item.vectors⟩ t) :
      MeasuredWith settings storageBits r ⟨t.context, { s.item with vectors := t.item }⟩ :=
    ⟨{ h.keeps ht.stores.keeps with
      vectorSource := h.vectorSource.trans ht.source
      vectors := ht.filed h.vectors }, hr⟩
  apply (useVectors_grants hsolve).imp (fun _ hf => hf)
  · rintro refusal _ ⟨t, rfl, hrefusal, ht⟩
    exact ⟨hrefusal, hmeasured ht⟩
  · rintro solved _ ⟨t, rfl, ht, hwithin⟩
    exact ⟨hmeasured ht, hwithin⟩

theorem solveCoverageVectors_measures (h : MeasuredWith settings storageBits r s)
    (hlimits : s.context.Limits settings.maxVectorSize read) :
    Measures (useCoverageVectors (VectorStage.solve read)) s settings storageBits r
      (· = true) := by
  obtain ⟨h, hr⟩ := h
  have hsolve := VectorStage.solve_within (s := ⟨s.context, s.item.coverageVectors⟩) h.wellFormed
    h.coverageVectors h.coverageVectorSource.settings_eq hlimits hdefault
  have hmeasured {t : InContext VectorStage}
      (ht : VectorStage.Follows read ⟨s.context, s.item.coverageVectors⟩ t) :
      MeasuredWith settings storageBits r
        ⟨t.context, { s.item with coverageVectors := t.item }⟩ :=
    ⟨{ h.keeps ht.stores.keeps with
      coverageVectorSource := h.coverageVectorSource.trans ht.source
      coverageVectors := ht.filed h.coverageVectors }, hr⟩
  apply (useCoverageVectors_grants hsolve).imp (fun _ hf => hf)
  · rintro refusal _ ⟨t, rfl, hrefusal, ht⟩
    exact ⟨hrefusal, hmeasured ht⟩
  · rintro solved _ ⟨t, rfl, ht, hwithin⟩
    exact ⟨hmeasured ht, hwithin⟩

/-- After a plain solve no vector is larger than the maximum, and the solve is not refused for the
    size of a vector. -/
theorem next_measures (h : Measured settings storageBits s) (horderly : s.item.registry.Orderly) :
    Measures next s settings storageBits s.item.registry.acknowledge (· = true) := by
  unfold next
  apply (refresh_measures h horderly).unrefused.bind
  intro _ s₁ h₁
  apply (solvePlain_measures h₁).unrefused.bind
  rintro solved s₂ ⟨h₂, hlimits⟩
  cases solved with
  | false => exact .pure ⟨h₂, nofun⟩
  | true => exact .get_bind (solveVectors_measures hdefault h₂ (hlimits rfl))

theorem hitNext_measures (h : MeasuredWith settings storageBits r s) :
    Measures hitNext s settings storageBits r (· = some true) := by
  have hmissed {s' : InContext Generator} (h' : MeasuredWith settings storageBits r s') :
      Measures (change ({ · with covered := true }) >>= fun _ => pure none) s' settings
        storageBits r (· = some true) :=
    change_bind (.pure ⟨⟨{ h'.1 with }, h'.2⟩, nofun⟩)
  unfold hitNext
  apply (solvePlain_measures h).unrefused.bind
  rintro solved s₁ ⟨h₁, hplain⟩
  cases solved with
  | false => exact .pure ⟨h₁, nofun⟩
  | true =>
    apply (solveCoverage_measures h₁).unrefused.bind
    rintro hit s₂ ⟨h₂, hkeeps, hsame, hcoverage⟩
    cases hit with
    | false => exact hmissed h₂
    | true =>
      -- What the coverage solvers do not answer is answered by the plain solvers.
      have hread : s₂.item.readCovered =
          Reading.orElse s₂.item.coverage.read s₁.item.plain.read := by
        rw [← hsame]
        rfl
      have hlimits : s₂.context.Limits settings.maxVectorSize s₂.item.readCovered :=
        hread ▸ hcoverage.orElse ((hplain rfl).keeps hkeeps)
      apply Grants.get_bind
      apply (solveCoverageVectors_measures hdefault h₂ hlimits).bind
      rintro solved s₃ ⟨h₃, hwithin⟩
      cases solved with
      | false => exact hmissed h₃
      | true => exact .pure ⟨h₃, fun _ => hwithin rfl⟩

theorem nextCover_measures (h : Measured settings storageBits s)
    (horderly : s.item.registry.Orderly) :
    Measures nextCover s settings storageBits s.item.registry.acknowledge (· = true) := by
  -- A plain solve in the end finds nothing changed.
  have hnext {t : InContext Generator}
      (ht : MeasuredWith settings storageBits s.item.registry.acknowledge t) :
      Measures next t settings storageBits s.item.registry.acknowledge (· = true) := by
    obtain ⟨ht, hr⟩ := ht
    have hagain := next_measures hdefault ht (hr.symm ▸ horderly.congr rfl)
    rwa [hr] at hagain
  unfold nextCover
  apply (refresh_measures h horderly).unrefused.bind
  intro _ s₁ h₁
  apply Grants.get_bind
  split
  · apply (hitNext_measures hdefault h₁).bind
    rintro answer s₂ ⟨h₂, hwithin⟩
    cases answer with
    | none => exact hnext h₂
    | some answer => exact .pure ⟨h₂, fun hsolved => hwithin (congrArg some hsolved)⟩
  · exact hnext h₁

end

/-! ## §4 Runs -/

/-- The runs of a generator whose constraints are over the variables of its context.  A call may be
    refused, but it may not be stopped by a fault. -/
inductive Handled (settings : Settings) (storageBits : Nat) : InContext Generator → Prop where
  | create {c c' : Context} {g : Generator} (hc : c.Reached)
      (h : create settings storageBits c = .ok (g, c')) : Handled settings storageBits ⟨c', g⟩
  | change {s : InContext Generator} {c' : Context} (hs : Handled settings storageBits s)
      (h : s.context.Changes c') : Handled settings storageBits ⟨c', s.item⟩
  | add {s s' : InContext Generator} {kind : Kind} {name : Option String} {e : Expr}
      {a : Except Refusal Unit} (hs : Handled settings storageBits s) (he : s.context.Names e)
      (h : add kind name e s = .ok (a, s')) : Handled settings storageBits s'
  | setEnabled {s : InContext Generator} (hs : Handled settings storageBits s) (name : String)
      (enabled : Bool) : Handled settings storageBits ⟨s.context, (s.item.setEnabled name enabled).2⟩
  | next {s s' : InContext Generator} {a : Except Refusal Bool} (hs : Handled settings storageBits s)
      (h : next s = .ok (a, s')) : Handled settings storageBits s'
  | nextCover {s s' : InContext Generator} {a : Except Refusal Bool}
      (hs : Handled settings storageBits s) (h : nextCover s = .ok (a, s')) :
      Handled settings storageBits s'
  | resetCoverage {s s' : InContext Generator} {a : Except Refusal Unit}
      (hs : Handled settings storageBits s) (h : resetCoverage s = .ok (a, s')) :
      Handled settings storageBits s'

section

variable {settings : Settings} {storageBits : Nat} {s s' : InContext Generator}

theorem Handled.used (h : Handled settings storageBits s) : Used settings storageBits s := by
  induction h with
  | create _ hrun => exact .create hrun
  | change _ _ ih => exact .solve ih (.context _ _)
  | add _ _ hrun ih => exact .add ih hrun
  | setEnabled _ name enabled ih => exact .setEnabled ih name enabled
  | next _ hrun ih => exact .solve ih (.next hrun)
  | nextCover _ hrun ih => exact .solve ih (.nextCover hrun)
  | resetCoverage _ hrun ih => exact .solve ih (.resetCoverage hrun)

/-- Constraints that can be encoded are over declared variables. -/
theorem Reached.handled (h : Reached settings storageBits s) : Handled settings storageBits s := by
  induction h with
  | create hc hrun => exact .create hc hrun
  | call _ hcall ih =>
    cases hcall with
    | change g hchanges => exact .change ih hchanges
    | add he hrun => exact .add ih he.names hrun
    | setEnabled c g name enabled => exact .setEnabled ih name enabled
    | next hrun => exact .next ih hrun
    | nextCover hrun => exact .nextCover ih hrun
    | resetCoverage hrun => exact .resetCoverage ih hrun

/-- A new generator has no solvers. -/
theorem measured_create {c c' : Context} {g : Generator} (hc : c.WellFormed)
    (hrun : create settings storageBits c = .ok (g, c')) :
    Measured settings storageBits ⟨c', g⟩ := by
  obtain ⟨hkeeps, hfresh, hsources⟩ := (create_fresh c).of_run hrun
  have hfiled {stage : VectorStage} (h : stage.solvers = ∅) : VectorStage.Filed stage.solvers :=
    fun id solver hid => by simp [h] at hid
  exact {
    wellFormed := hkeeps.wellFormed hc
    plainSource := hsources _ (by simp [sources])
    vectorSource := hsources _ (by simp [sources])
    coverageSource := hsources _ (by simp [sources])
    coverageVectorSource := hsources _ (by simp [sources])
    names := by simp [hfresh.constraints]
    declares := by simp [hfresh.partitioner, Partitioner.empty]
    plain := by simp [hfresh.plain]
    coverage := by simp [hfresh.coverage]
    vectors := hfiled hfresh.vectors
    coverageVectors := hfiled hfresh.coverageVectors }

theorem Measured.add (h : Measured settings storageBits s) {e : Expr} (he : s.context.Names e)
    (kind : Kind) (name : Option String) :
    Leaves (add kind name e) s (Measured settings storageBits) := by
  have hmake := useRegistry_grants (s := s) (E := fun _ => True)
    (Registry.make_grants name e (kind = .soft) (kind = .cover))
  unfold Generator.add
  apply Grants.bind (P := fun _ s' => Measured settings storageBits s')
    (hmake.imp (fun _ hf => hf) ?_ ?_)
  · exact fun _ _ hs' => .pure hs'
  · rintro _ _ ⟨t, rfl, hkeeps, hitem⟩
    rw [hitem]
    exact h.keeps hkeeps
  · rintro x _ ⟨t, rfl, hadds⟩
    have h' := h.keeps hadds.keeps
    refine { h' with names := fun y hy => ?_ }
    dsimp only at hy
    rw [hadds.item_eq] at hy
    -- The new constraint is the last of the list.
    rcases List.mem_append.mp hy with hy | hy
    · exact h'.names y hy
    · rw [List.mem_singleton.mp hy, hadds.expr_eq]
      exact he.mono hadds.keeps.grows.signature

theorem Measured.setEnabled (h : Measured settings storageBits s)
    (horderly : s.item.registry.Orderly) (name : String) (enabled : Bool) :
    Measured settings storageBits ⟨s.context, (s.item.setEnabled name enabled).2⟩ := by
  have hconstraints : (s.item.setEnabled name enabled).2.registry.constraints =
      s.item.registry.constraints.map (.switch name enabled) :=
    horderly.constraints_setEnabled name enabled
  refine { h with names := fun x hx => ?_ }
  dsimp only at hx
  rw [hconstraints] at hx
  obtain ⟨y, hy, rfl⟩ := List.mem_map.mp hx
  have hexpr : (y.switch name enabled).expr = y.expr := by
    unfold Constraint.switch
    split <;> rfl
  rw [hexpr]
  exact h.names y hy

/-- In every run the solvers heed the bounds. -/
theorem Handled.measured (h : Handled settings storageBits s)
    (hdefault : settings.defaultVectorSize ≤ settings.maxVectorSize) :
    Measured settings storageBits s := by
  have hafter {α : Type} {act : Generation α} {s s' : InContext Generator} {a : Except Refusal α}
      {r : Registry} {solved : α → Prop} (hact : Measures act s settings storageBits r solved)
      (hrun : act s = .ok (a, s')) : Measured settings storageBits s' := by
    cases a with
    | error refusal => exact (hact.of_refusal hrun).2.1
    | ok a => exact (hact.of_run hrun).1.1
  -- An operation that is refused keeps the invariant too, so the answer does not matter.
  induction h with
  | create hc hrun => exact measured_create hc.wellFormed hrun
  | change _ hchanges ih =>
    exact ih.grows (hchanges.wellFormed ih.wellFormed) (hchanges.grows ih.wellFormed)
  | add _ he hrun ih => exact (ih.add he _ _).of_run hrun
  | setEnabled hs name enabled ih => exact ih.setEnabled hs.used.lasting.orderly name enabled
  | next hs hrun ih => exact hafter (next_measures hdefault ih hs.used.lasting.orderly) hrun
  | nextCover hs hrun ih =>
    exact hafter (nextCover_measures hdefault ih hs.used.lasting.orderly) hrun
  | @resetCoverage s _ a hs hrun ih =>
    have hreset := resetCoverage_measures ih hs.used.lasting.scalar
    cases a with
    | error refusal => exact (hreset.of_refusal hrun).elim
    | ok u => exact hreset.of_run hrun

/-- If the default size of vectors is within the maximum, no solve is ever refused for the size of a
    vector, and after every solve that succeeds all vectors are within the maximum, those without
    constraints too. -/
theorem within_of_handled (h : Handled settings storageBits s)
    (hdefault : settings.defaultVectorSize ≤ settings.maxVectorSize) {a : Except Refusal Bool}
    (hrun : next s = .ok (a, s') ∨ nextCover s = .ok (a, s')) :
    (∀ vector size max, a ≠ .error (.vectorTooLarge vector size max)) ∧
      (a = .ok true → s'.context.Within settings.maxVectorSize) := by
  have hsolve {act : Generation Bool} {r : Registry}
      (hact : Measures act s settings storageBits r (· = true)) (hrun : act s = .ok (a, s')) :
      (∀ vector size max, a ≠ .error (.vectorTooLarge vector size max)) ∧
        (a = .ok true → s'.context.Within settings.maxVectorSize) := by
    cases a with
    | error refusal =>
      -- The only refusal there is concerns an unsupported node.
      obtain ⟨⟨what, rfl⟩, -⟩ := hact.of_refusal hrun
      exact ⟨nofun, nofun⟩
    | ok solved =>
      refine ⟨nofun, fun hsolved => (hact.of_run hrun).2 ?_⟩
      cases hsolved
      rfl
  have hmeasured := h.measured hdefault
  have horderly := h.used.lasting.orderly
  rcases hrun with hrun | hrun
  · exact hsolve (next_measures hdefault hmeasured horderly) hrun
  · exact hsolve (nextCover_measures hdefault hmeasured horderly) hrun

end

/-- A context with a vector of bytes and a placeholder. -/
def shelf : Context :=
  (Context.placeholder (Context.declareVector (.int .bits8 false) (.empty 0)).2).2

theorem reached_shelf : shelf.Reached :=
  ⟨0, _, .tail (.tail .refl (.declareVector _ _)) (.takeId _)⟩

/-- What is said at every index of the vector. -/
def everyByte (body : Expr) : Expr := .forEach (.vector 1 (.unsigned 8)) 3 body

/-- All elements are less than five. -/
def smallBytes : Expr :=
  everyByte (.binary .less (.element (.vector 1 (.unsigned 8)) (.placeholder 3)) (.literal 5))

/-- A second vector next to it. -/
def shelves : Context := (Context.declareVector (.int .bits8 false) shelf).2

theorem reached_shelves : shelves.Reached := by
  obtain ⟨identity, entropy, hchanges⟩ := reached_shelf
  exact ⟨identity, entropy, hchanges.tail (.declareVector _ _)⟩

/-- The elements of one vector are constrained, the other vector is not, and both get the default
    size, which is below the maximum. -/
theorem within_after_start : ∃ s s',
    Handled { defaultVectorSize := 2, maxVectorSize := 3, seed := some 1 } 4 s ∧ 2 ≤ 3 ∧
    s.item.registry.active.map Constraint.expr = [smallBytes] ∧ next s = .ok (.ok true, s') ∧
    (s'.context.contents 1).length = 2 ∧ (s'.context.contents 4).length = 2 ∧
    s'.context.Within 3 := by
  obtain ⟨s, hrun, htest⟩ := exists_of_toOption_any
    (x := started { defaultVectorSize := 2, maxVectorSize := 3, seed := some 1 } 4 shelves
      [smallBytes])
    (p := fun s => decide (s.item.registry.active.map Constraint.expr = [smallBytes]) &&
      (granted? (next s)).any fun (solved, s') =>
        solved && decide ((s'.context.contents 1).length = 2) &&
          decide ((s'.context.contents 4).length = 2)) (by
    -- The kernel does not see through the search for the least id of a set.
    simp only [next, refresh, rebuild, VectorStage.reset, Constraint.vectorId?,
      Std.TreeSet.min?_eq_head?_toList]
    decide +kernel)
  obtain ⟨hactive, hnext⟩ := (Bool.and_eq_true _ _).mp htest
  obtain ⟨solved, s', hnext, hfound⟩ := exists_of_granted?_any hnext
  simp only [Bool.and_eq_true, decide_eq_true_eq] at hfound
  obtain ⟨⟨rfl, hfirst⟩, hsecond⟩ := hfound
  -- What is about a vector need not be written with scalars.
  have hwrites : ∀ e ∈ [smallBytes], shelves.Writes e := by
    intro e he hscalar
    obtain rfl := List.mem_singleton.mp he
    cases hscalar
  have hhandled := (reached_started reached_shelves hwrites hrun).handled
  exact ⟨s, s', hhandled, by decide, of_decide_eq_true hactive, hnext, hfirst, hsecond,
    (within_of_handled hhandled (by decide) (.inl hnext)).2 rfl⟩

end Generator

end Stimulus
