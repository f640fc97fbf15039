import Stimulus.Generator
import Stimulus.Proofs.Group.Ensemble
import Stimulus.Proofs.Partition.Components
import Stimulus.Proofs.Vector.Solver

/-!
# What rebuilding a generator leaves

A generator keeps solvers for the partitions that it was built from, and they are ready for a solve
at any time.  The partitions are those of the active constraints, unless constraints were added or
switched since; the next solve then rebuilds everything first.

Main definitions:
- `Constraint.Written`: a constraint over the variables of a context
- `Generator.Founded`: what holds of a generator and its context at any time

Main statements:
- `separate_partitionPool`
- `Generator.refresh_grants`
-/

namespace Stimulus

/-! ## §1 Written constraints -/

/-- The constraint is written over the declared variables. -/
structure Constraint.Written (x : Constraint) (Γ : Signature) : Prop where
  support_eq : x.support = x.expr.support
  admits : x.isVector = false → Γ.Admits x.expr

theorem Constraint.Written.mono {x : Constraint} {Γ Δ : Signature} (h : x.Written Γ)
    (hsub : Γ.Sub Δ) : x.Written Δ :=
  ⟨h.support_eq, fun hx => (h.admits hx).mono hsub⟩

theorem Constraint.Written.mem_support {x : Constraint} {Γ : Signature} (h : x.Written Γ)
    (hx : x.isVector = false) {v : Nat} : v ∈ x.support ↔ ∃ s, x.expr.Mentions v s := by
  rw [h.support_eq, Expr.mem_support, (h.admits hx).plain.mem_occurrences]

/-- The partitions of written constraints can be solved one apart from the other. -/
theorem separate_partitionPool {pool : List Constraint} {Γ : Signature}
    (hpool : ∀ x ∈ pool, x.Written Γ ∧ x.isVector = false) :
    Separate Γ (partitionPool pool) := by
  have hsplit := split_partitionPool pool
  have hmem {p : Partition} (hp : p ∈ partitionPool pool) {id : Nat} {s : BitSort}
      (hid : p.Mentions id s) : id ∈ p.support := by
    obtain ⟨x, hx, hs⟩ := hid
    obtain ⟨hwritten, hscalar⟩ := hpool x (hsplit.mem_pool hp hx)
    exact hsplit.mem_support hp hx ((hwritten.mem_support hscalar).mpr ⟨s, hs⟩)
  refine ⟨fun p hp x hx => ?_, ?_⟩
  · obtain ⟨hwritten, hscalar⟩ := hpool x (hsplit.mem_pool hp hx)
    exact hwritten.admits hscalar
  · refine hsplit.disjoint.imp_of_mem fun hp hq hdisjoint id s s' hid hid' => ?_
    exact hdisjoint id (hmem hp hid) (hmem hq hid')

namespace Registry

/-- The active constraints on scalars. -/
def scalars (r : Registry) : List Constraint := r.active.filter (!·.isVector)

/-- The active constraints on whole vectors. -/
def onVectors (r : Registry) : List Constraint := r.active.filter (·.isVector)

theorem scalars_eq_active {r : Registry} (h : ∀ x ∈ r.active, x.isVector = false) :
    r.scalars = r.active :=
  List.filter_eq_self.mpr fun x hx => by simp [h x hx]

end Registry

/-- Merging one registry into an empty partitioner and splitting it. -/
theorem Partitioner.partition_merge (r : Registry) :
    (Partitioner.empty.merge r).partition.partitions = partitionPool r.scalars ∧
      (Partitioner.empty.merge r).partition.vectorConstraints = r.onVectors := by
  have hnew : ¬ Partitioner.empty.merged.contains r.id = true := by simp [Partitioner.empty]
  rw [merge, if_neg hnew]
  exact ⟨rfl, rfl⟩

namespace Generator

/-! ## §2 Parts of a generator -/

section

variable {α β : Type} {s : InContext Generator} {E : Fault → Prop}

/-- The thing in a context is used alone. -/
theorem useItem_grants {σ : Type} {act : Request σ α} {s : InContext σ} {R : Refusal → σ → Prop}
    {Q : α → σ → Prop} (h : Grants act s.item E R Q) :
    Grants (InContext.useItem act) s E (fun r s' => ∃ item, s' = ⟨s.context, item⟩ ∧ R r item)
      fun a s' => ∃ item, s' = ⟨s.context, item⟩ ∧ Q a item := by
  refine grants_focus _ ?_ h
  obtain ⟨c, item⟩ := s
  unfold InContext.useItem
  dsimp only
  cases act item <;> rfl

theorem change_bind {f : Generator → Generator} {k : Unit → Generation β}
    {R : Refusal → InContext Generator → Prop} {Q : β → InContext Generator → Prop}
    (h : Grants (k ()) ⟨s.context, f s.item⟩ E R Q) : Grants (change f >>= k) s E R Q := h

theorem change_grants {f : Generator → Generator} {R : Refusal → InContext Generator → Prop}
    {Q : Unit → InContext Generator → Prop} (h : Q () ⟨s.context, f s.item⟩) :
    Grants (change f) s E R Q := h

theorem usePlain_grants {act : Request (InContext PlainEnsemble) α}
    {R : Refusal → InContext PlainEnsemble → Prop} {Q : α → InContext PlainEnsemble → Prop}
    (h : Grants act ⟨s.context, s.item.plain⟩ E R Q) :
    Grants (usePlain act) s E
      (fun r s' => ∃ t, s' = ⟨t.context, { s.item with plain := t.item }⟩ ∧ R r t)
      fun a s' => ∃ t, s' = ⟨t.context, { s.item with plain := t.item }⟩ ∧ Q a t := by
  refine grants_focus (fun t : InContext PlainEnsemble =>
    (⟨t.context, { s.item with plain := t.item }⟩ : InContext Generator)) ?_ h
  obtain ⟨c, settings, registry, partitioner, plain, vectors, coverage, stage, covered⟩ := s
  unfold usePlain
  dsimp only
  cases act ⟨c, plain⟩ <;> rfl

theorem useCoverage_grants {act : Request (InContext CoverageEnsemble) α}
    {R : Refusal → InContext CoverageEnsemble → Prop} {Q : α → InContext CoverageEnsemble → Prop}
    (h : Grants act ⟨s.context, s.item.coverage⟩ E R Q) :
    Grants (useCoverage act) s E
      (fun r s' => ∃ t, s' = ⟨t.context, { s.item with coverage := t.item }⟩ ∧ R r t)
      fun a s' => ∃ t, s' = ⟨t.context, { s.item with coverage := t.item }⟩ ∧ Q a t := by
  refine grants_focus (fun t : InContext CoverageEnsemble =>
    (⟨t.context, { s.item with coverage := t.item }⟩ : InContext Generator)) ?_ h
  obtain ⟨c, settings, registry, partitioner, plain, vectors, coverage, stage, covered⟩ := s
  unfold useCoverage
  dsimp only
  cases act ⟨c, coverage⟩ <;> rfl

theorem useVectors_grants {act : Request (InContext VectorStage) α}
    {R : Refusal → InContext VectorStage → Prop} {Q : α → InContext VectorStage → Prop}
    (h : Grants act ⟨s.context, s.item.vectors⟩ E R Q) :
    Grants (useVectors act) s E
      (fun r s' => ∃ t, s' = ⟨t.context, { s.item with vectors := t.item }⟩ ∧ R r t)
      fun a s' => ∃ t, s' = ⟨t.context, { s.item with vectors := t.item }⟩ ∧ Q a t := by
  refine grants_focus (fun t : InContext VectorStage =>
    (⟨t.context, { s.item with vectors := t.item }⟩ : InContext Generator)) ?_ h
  unfold useVectors
  cases act ⟨s.context, s.item.vectors⟩ <;> rfl

theorem useCoverageVectors_grants {act : Request (InContext VectorStage) α}
    {R : Refusal → InContext VectorStage → Prop} {Q : α → InContext VectorStage → Prop}
    (h : Grants act ⟨s.context, s.item.coverageVectors⟩ E R Q) :
    Grants (useCoverageVectors act) s E
      (fun r s' => ∃ t, s' = ⟨t.context, { s.item with coverageVectors := t.item }⟩ ∧ R r t)
      fun a s' => ∃ t, s' = ⟨t.context, { s.item with coverageVectors := t.item }⟩ ∧ Q a t := by
  refine grants_focus (fun t : InContext VectorStage =>
    (⟨t.context, { s.item with coverageVectors := t.item }⟩ : InContext Generator)) ?_ h
  unfold useCoverageVectors
  cases act ⟨s.context, s.item.coverageVectors⟩ <;> rfl

end

/-- The constraints are the same, and so are the partitions and the vectors that have solvers. -/
structure SameProblem (g g' : Generator) : Prop where
  registry_eq : g'.registry = g.registry
  partitioner_eq : g'.partitioner = g.partitioner
  vectors : ∀ id, id ∈ g'.vectors.solvers ↔ id ∈ g.vectors.solvers

theorem SameProblem.trans {g₁ g₂ g₃ : Generator} (h : SameProblem g₁ g₂) (h' : SameProblem g₂ g₃) :
    SameProblem g₁ g₃ :=
  ⟨h'.registry_eq.trans h.registry_eq, h'.partitioner_eq.trans h.partitioner_eq,
    fun id => (h'.vectors id).trans (h.vectors id)⟩

/-! ## §3 What holds at any time -/

/-- New solvers are made as the settings say. -/
structure Sourced (settings : Settings) (storageBits : Nat) (s : InContext Generator) : Prop where
  wellFormed : s.context.WellFormed
  plainSource : (SolverSource.ofSettings settings storageBits).Alike s.item.plain.source
  vectorSource : (SolverSource.ofSettings settings storageBits).Alike s.item.vectors.source
  coverageSource : (SolverSource.ofSettings settings storageBits).Alike s.item.coverage.source

/-- Every solver is ready for the partition that it was built for. -/
structure Ready (settings : Settings) (storageBits : Nat) (s : InContext Generator) : Prop
    extends Sourced settings storageBits s where
  separate : Separate s.context.signature s.item.partitioner.partitions
  plain : PartitionSolver.ReadyEach s.context settings.maxVectorSize s.item.plain.solvers
    s.item.partitioner.partitions
  coverage : CoverageSolver.ReadyEach s.context settings.maxVectorSize s.item.coverage.solvers
    s.item.partitioner.partitions
  vectors : VectorStage.Filed s.item.vectors.solvers
  coverageVectors : VectorStage.Filed s.item.coverageVectors.solvers

/-- The solvers are those of some constraints. -/
structure Current (scalars onVectors : List Constraint) (g : Generator) : Prop where
  partitions_eq : g.partitioner.partitions = partitionPool scalars
  vectors : onVectors = [] → ∀ id, id ∉ g.vectors.solvers

/-- What holds of a generator and its context between two calls: its solvers are ready, and if no
    constraint has changed, they are those of the active constraints. -/
structure Founded (settings : Settings) (storageBits : Nat) (s : InContext Generator) : Prop
    extends Ready settings storageBits s where
  written : ∀ x ∈ s.item.registry.constraints, x.Written s.context.signature
  current : s.item.registry.changed = false →
    s.item.Current s.item.registry.scalars s.item.registry.onVectors

section

variable {settings : Settings} {storageBits : Nat} {s s' : InContext Generator} {safe : Prop}
  {scalars onVectors : List Constraint}

theorem Current.same {g g' : Generator} (h : g.Current scalars onVectors)
    (hsame : SameProblem g g') : g'.Current scalars onVectors :=
  ⟨hsame.partitioner_eq ▸ h.partitions_eq,
    fun hnone id hid => h.vectors hnone id ((hsame.vectors id).mp hid)⟩

/-- The context has changed alone. -/
theorem Ready.grows {c c' : Context} {g : Generator} (h : Ready settings storageBits ⟨c, g⟩)
    (hc' : c'.WellFormed) (hgrows : c.Grows c') : Ready settings storageBits ⟨c', g⟩ where
  wellFormed := hc'
  plainSource := h.plainSource
  vectorSource := h.vectorSource
  coverageSource := h.coverageSource
  separate := h.separate.mono hgrows.signature
  plain := h.plain.grows h.separate h.wellFormed hc' hgrows
  coverage := h.coverage.grows h.separate h.wellFormed hc' hgrows
  vectors := h.vectors
  coverageVectors := h.coverageVectors

/-- The context has kept its declarations. -/
theorem Ready.keeps (h : Ready settings storageBits s) {c' : Context}
    (hkeeps : s.context.Keeps c') : Ready settings storageBits ⟨c', s.item⟩ :=
  h.grows (hkeeps.wellFormed h.wellFormed) hkeeps.grows

theorem Founded.grows {c c' : Context} {g : Generator} (h : Founded settings storageBits ⟨c, g⟩)
    (hc' : c'.WellFormed) (hgrows : c.Grows c') : Founded settings storageBits ⟨c', g⟩ :=
  ⟨h.toReady.grows hc' hgrows, fun x hx => (h.written x hx).mono hgrows.signature, h.current⟩

theorem Founded.keeps (h : Founded settings storageBits s) {c' : Context}
    (hkeeps : s.context.Keeps c') : Founded settings storageBits ⟨c', s.item⟩ :=
  h.grows (hkeeps.wellFormed h.wellFormed) hkeeps.grows

/-- The solvers have worked, but their problem is the same. -/
theorem Founded.same (h : Founded settings storageBits s) (hready : Ready settings storageBits s')
    (hsame : SameProblem s.item s'.item) (hkeeps : s.context.Keeps s'.context) :
    Founded settings storageBits s' := by
  refine ⟨hready, fun x hx => ?_, fun hunchanged => ?_⟩
  · rw [hsame.registry_eq] at hx
    exact (h.written x hx).mono hkeeps.grows.signature
  · rw [hsame.registry_eq] at hunchanged ⊢
    exact (h.current hunchanged).same hsame

theorem Founded.written_of_mem (h : Founded settings storageBits s) {x : Constraint}
    (hx : x ∈ s.item.registry.scalars) :
    x.Written s.context.signature ∧ x.isVector = false := by
  obtain ⟨hactive, hscalar⟩ := List.mem_filter.mp hx
  exact ⟨h.written x (List.mem_filter.mp hactive).1, by simpa using hscalar⟩

/-! ## §4 Rebuilding -/

/-- New coverage solvers for the partitions that there are. -/
theorem rebuildCoverage_grants (safe : Prop) (h : Sourced settings storageBits s)
    (hps : Separate s.context.signature s.item.partitioner.partitions)
    (hfew : safe → s.context.signature.Few) (hbits : safe → storageBits ≤ 31) :
    Grants rebuildCoverage s (Stuck safe) (fun _ _ => False) fun _ s' =>
      ∃ coverage stage,
        s' = ⟨s.context, { s.item with coverage := coverage, coverageVectors := stage }⟩ ∧
        (SolverSource.ofSettings settings storageBits).Alike coverage.source ∧
        CoverageSolver.ReadyEach s.context settings.maxVectorSize coverage.solvers
          s.item.partitioner.partitions ∧ VectorStage.Filed stage.solvers := by
  -- The coverage solvers are built of the groups that are there, with settings of their own source.
  have hbuild := CoverageEnsemble.rebuildCoverage_grants (e := s.item.coverage) h.wellFormed hps
    hfew fun hs => h.coverageSource.storageBits_eq ▸ hbits hs
  rw [h.coverageSource.settings_eq] at hbuild
  unfold rebuildCoverage
  refine .get_bind (((useCoverage_grants (useItem_grants hbuild)).imp_refusal ?_).bind ?_)
  · rintro _ _ ⟨_, -, _, -, hr⟩
    exact hr
  · rintro _ _ ⟨_, rfl, coverage, rfl, hready, halike⟩
    exact change_grants ⟨coverage, _, rfl, h.coverageSource.trans halike, hready,
      VectorStage.filed_reset _ _⟩

/-- New solvers for what was merged. -/
theorem rebuild_grants (safe : Prop) (h : Sourced settings storageBits s) (includeOwn : Bool)
    {merged : Partitioner} (hmerged : (if includeOwn then
      s.item.partitioner.merge s.item.registry else s.item.partitioner) = merged)
    (hscalars : merged.partition.partitions = partitionPool scalars)
    (hvectors : merged.vectorConstraints = onVectors)
    (hwritten : ∀ x ∈ scalars, x.Written s.context.signature ∧ x.isVector = false)
    (hfew : safe → s.context.signature.Few) (hbits : safe → storageBits ≤ 31)
    (hsat : safe → ∀ p ∈ partitionPool scalars,
      ∃ env, p.SolvedBy s.context settings.maxVectorSize env) :
    Grants (rebuild includeOwn) s
      (Ensemble.Stalled safe (PartitionSolver.build s.context storageBits settings) s.item.plain
        (partitionPool scalars)) (fun _ _ => False) fun _ s' =>
          Ready settings storageBits s' ∧ s'.item.Current scalars onVectors ∧
            s'.context = s.context ∧ s'.item.registry = s.item.registry := by
  have hps : Separate s.context.signature (partitionPool scalars) := separate_partitionPool hwritten
  unfold rebuild
  refine change_bind (.get_bind ?_)
  dsimp only
  rw [hmerged, hscalars]
  have hbuild := PlainEnsemble.rebuildPlain_grants (e := s.item.plain) h.wellFormed hps hfew
    (fun hs => h.plainSource.storageBits_eq ▸ hbits hs)
    (fun hs => h.plainSource.settings_eq ▸ hsat hs)
  rw [h.plainSource.settings_eq, h.plainSource.storageBits_eq] at hbuild
  -- The plain solvers come first, and only they look for a solution while they are built.
  refine Grants.bind (Grants.imp (usePlain_grants (useItem_grants hbuild)) (fun _ hf => hf) ?_
    fun _ _ h => h) ?_
  · rintro _ _ ⟨_, -, _, -, hr⟩
    exact hr
  rintro _ _ ⟨_, rfl, plain, rfl, hready, halike⟩
  refine change_bind ?_
  dsimp only
  have hsource := h.plainSource.trans halike
  refine Grants.imp (rebuildCoverage_grants safe
    ⟨h.wellFormed, hsource, h.vectorSource, h.coverageSource⟩ ?_ hfew hbits)
    (fun _ hf => Ensemble.Stuck.stalled hf) (fun _ _ hr => hr) ?_
  · exact hscalars ▸ hps
  rintro _ _ ⟨coverage, stage, rfl, hcoverage, hreadyCoverage, hfiled⟩
  refine ⟨⟨⟨h.wellFormed, hsource, h.vectorSource, hcoverage⟩, ?_, ?_, hreadyCoverage,
    VectorStage.filed_reset _ _, hfiled⟩, ⟨hscalars, fun hnone id => ?_⟩, rfl, rfl⟩
  · exact hscalars ▸ hps
  · exact hscalars ▸ hready
  · have hempty : merged.partition.vectorConstraints = [] := hvectors.trans hnone
    dsimp only
    rw [hempty]
    exact Std.TreeMap.not_mem_emptyc

/-- Nothing is rebuilt unless a constraint has changed. -/
theorem refresh_bind {β : Type} {k : Unit → Generation β} {E : Fault → Prop}
    {R : Refusal → InContext Generator → Prop} {Q : β → InContext Generator → Prop}
    (h : s.item.registry.changed = false) :
    Grants (refresh >>= k) s E R Q ↔ Grants (k ()) s E R Q := by
  have hrefresh : refresh s = .ok (.ok (), s) := by
    unfold refresh
    show (if s.item.registry.changed = true then change reset >>= fun _ => rebuild true
      else pure () : Generation Unit) s = _
    rw [if_neg (by simp [h])]
    rfl
  show Ends (refresh s >>= _) E _ ↔ _
  rw [hrefresh]
  rfl

/-- Before a solve everything is rebuilt that is not up to date. -/
theorem refresh_grants (safe : Prop) (h : Founded settings storageBits s)
    (hfew : safe → s.context.signature.Few) (hbits : safe → storageBits ≤ 31)
    (hsat : safe → ∀ p ∈ partitionPool s.item.registry.scalars,
      ∃ env, p.SolvedBy s.context settings.maxVectorSize env) :
    Grants refresh s (Ensemble.Stalled safe (PartitionSolver.build s.context storageBits settings)
      s.item.plain (partitionPool s.item.registry.scalars)) (fun _ _ => False) fun _ s' =>
        Founded settings storageBits s' ∧ s'.context = s.context ∧
          s'.item.registry = s.item.registry.acknowledge := by
  unfold refresh
  refine .get_bind ?_
  split
  · obtain ⟨hscalars, hvectors⟩ := Partitioner.partition_merge s.item.registry.acknowledge
    refine change_bind ?_
    refine Grants.imp (rebuild_grants safe (s := ⟨s.context, s.item.reset⟩)
      ⟨h.wellFormed, h.plainSource, h.vectorSource, h.coverageSource⟩ true rfl hscalars hvectors
      (fun x hx => h.written_of_mem hx) hfew hbits hsat) (fun _ hf => hf) (fun _ _ hr => hr) ?_
    rintro _ s' ⟨hready, hcurrent, hcontext, hregistry⟩
    refine ⟨⟨hready, ?_, fun _ => ?_⟩, hcontext, hregistry⟩
    · rw [hcontext, hregistry]
      exact h.written
    · rw [hregistry]
      exact hcurrent
  · rename_i hchanged
    have hfalse : s.item.registry.changed = false := by simpa using hchanged
    -- Nothing changed since the last rebuild, which was made of these very constraints.
    refine .pure ⟨h, rfl, ?_⟩
    rw [Registry.acknowledge, ← hfalse]

end

end Generator

end Stimulus
