import Mathlib.Algebra.Order.BigOperators.Group.List
import Stimulus.Proofs.Generator.Merge
import Stimulus.Proofs.Generator.Sizes
import Stimulus.Proofs.Group.Hits
import Stimulus.Proofs.Partition.Rounds

/-!
# Progress of coverage

As long as a coverage solve does not report exhaustion, it has hit a cover constraint whose name was
new to the solver of its partition, and it leaves values that satisfy it.  So every such solve
uses up a cover constraint, and there are no more of them than there were cover constraints left.
After exhaustion was reported, it stays reported.  For the count it does not matter what the
constraints are, how often registries were merged and split, and what the generator did before.

Main definitions:
- `Generator.pending`: the cover constraints that are left
- `Generator.Tracked`: what holds of a generator at any time
- `Generator.Operated`: the runs of a generator with all its operations
- `Generator.Covering`: coverage solves that succeed, with harmless operations in between

Main statements:
- `Generator.nextCover_tracks`
- `Generator.Operated.tracked`
- `Generator.coverage_ends_of_operated`
-/

namespace Stimulus

/-! ## §1 Constraints over declared variables -/

/-- The constraint is on scalars, all of which are declared. -/
structure Constraint.Grounded (x : Constraint) (c : Context) : Prop where
  scalar : x.expr.mentionsVector = false
  declared : ∀ id sort, x.expr.Mentions id sort → c.signature.sort? id = some sort

/-- The registry holds constraints over declared variables, as it accepted them. -/
structure Registry.Grounded (r : Registry) (c : Context) : Prop extends r.Orderly where
  support_eq : ∀ x ∈ r.constraints, x.support = x.expr.support
  names : ∀ x ∈ r.constraints, c.Names x.expr

/-- The partitions do not share the size of a vector. -/
def Partition.SizesApart (c : Context) (p q : Partition) : Prop :=
  ∀ (id : Nat) (entry : VectorEntry), c.vectors[id]? = some entry → ∀ s s',
    p.Mentions entry.size.id s → ¬ q.Mentions entry.size.id s'

section

variable {c c' : Context} {x : Constraint} {r r' : Registry} {p q : Partition}

theorem Constraint.Grounded.grows (h : x.Grounded c) (hgrows : c.Grows c') : x.Grounded c' :=
  ⟨h.scalar, fun id sort hmention => hgrows.signature id sort (h.declared id sort hmention)⟩

namespace Registry.Grounded

theorem grows (h : r.Grounded c) (hgrows : c.Grows c') : r.Grounded c' :=
  { h with names := fun x hx => (h.names x hx).mono hgrows.signature }

theorem congr (h : r.Grounded c) (hsame : r'.constraints = r.constraints) : r'.Grounded c := by
  obtain ⟨horderly, support, names⟩ := h
  rw [← hsame] at support names
  exact ⟨horderly.congr hsame, support, names⟩

theorem setEnabled (h : r.Grounded c) (name : String) (enabled : Bool) :
    (r.setEnabled name enabled).2.Grounded c := by
  have hconstraints := h.constraints_setEnabled name enabled
  refine ⟨h.toOrderly.setEnabled name enabled, fun x hx => ?_, fun x hx => ?_⟩
  all_goals
    rw [hconstraints] at hx
    obtain ⟨y, hy, rfl⟩ := List.mem_map.mp hx
    unfold Constraint.switch
  · split <;> exact h.support_eq y hy
  · split <;> exact h.names y hy

/-- A constraint is added that is over declared variables. -/
theorem add {e : Expr} {s : InContext Registry} (h : r.Grounded c) (he : c.Names e)
    (hadds : Registry.Adds c r e x s) : s.item.Grounded s.context := by
  have h' := h.grows hadds.keeps.grows
  have horderly := h.toOrderly.add hadds
  rw [hadds.item_eq] at horderly ⊢
  refine ⟨horderly, fun y hy => ?_, fun y hy => ?_⟩
  all_goals
    rcases List.mem_append.mp hy with hy | hy
  · exact h.support_eq y hy
  · rw [List.mem_singleton.mp hy, hadds.support_eq, hadds.expr_eq]
  · exact h'.names y hy
  · rw [List.mem_singleton.mp hy, hadds.expr_eq]
    exact he.mono hadds.keeps.grows.signature

theorem scalars (h : r.Grounded c) (hx : x ∈ r.scalars) : x.Grounded c := by
  obtain ⟨hactive, hscalar⟩ := List.mem_filter.mp hx
  have hmem := (List.mem_filter.mp hactive).1
  have hvector := h.scalar x hmem (by simpa using hscalar)
  exact ⟨hvector, h.names x hmem hvector⟩

/-- The partitions of one registry share nothing at all. -/
theorem sizesApart (h : r.Grounded c) (c' : Context) :
    (partitionPool r.scalars).Pairwise (Partition.SizesApart c') := by
  have hsplit := split_partitionPool r.scalars
  have hsupport {p : Partition} (hp : p ∈ partitionPool r.scalars) {id : Nat} {sort : BitSort}
      (hmention : p.Mentions id sort) : id ∈ p.support := by
    obtain ⟨x, hx, hmem⟩ := hmention
    have hactive := (List.mem_filter.mp (hsplit.mem_pool hp hx)).1
    apply hsplit.mem_support hp hx
    rw [h.support_eq x (List.mem_filter.mp hactive).1]
    exact hmem.mem_support
  refine hsplit.disjoint.imp_of_mem fun hp hq hdisjoint id entry _ s s' hs hs' => ?_
  exact hdisjoint _ (hsupport hp hs) (hsupport hq hs')

end Registry.Grounded

theorem Partition.scalar_declared (h : ∀ x ∈ p.constraints, x.Grounded c) :
    ¬ p.NeedsVector ∧ p.Declared c.signature := by
  constructor
  · rintro ⟨x, hx, hvector⟩
    rw [(h x hx).scalar] at hvector
    cases hvector
  · rintro id sort ⟨x, hx, hmention⟩
    exact (h x hx).declared id sort hmention

/-- Vectors that are declared later have new sizes. -/
theorem Partition.SizesApart.grows (h : p.SizesApart c q) (hp : p.Declared c.signature)
    (hc : c.WellFormed) (hc' : c'.WellFormed) (hgrows : c.Grows c') : p.SizesApart c' q := by
  intro id entry hid s s' hs
  obtain ⟨cell, hcell, -⟩ := Option.map_eq_some_iff.mp (hp _ _ hs)
  have hlt := hc.cell_lt _ _ hcell
  rw [hc'.size_next id entry hid] at hlt
  obtain ⟨contents, hcontents⟩ := hgrows.vectors_back id entry hid (by simp at hlt; omega)
  exact h id _ hcontents s s' hs

end

namespace Generator

/-! ## §2 What is left to cover -/

/-- The cover constraints that the coverage solvers have not hit. -/
def uncovered (g : Generator) : List Constraint :=
  g.coverage.solvers.flatMap CoverageSolver.remaining

/-- The cover constraints that are left.  Before a rebuild these are all that are switched on. -/
def pending (g : Generator) : List Constraint :=
  if g.registry.changed then g.registry.scalars.filter Constraint.cover else g.uncovered

/-- The coverage solvers do not share the size of a vector, unless they are to be rebuilt. -/
def Apart (s : InContext Generator) : Prop :=
  s.item.registry.changed = false →
    (s.item.coverage.solvers.map CoverageSolver.partition).Pairwise
      (Partition.SizesApart s.context)

/-- What holds of a generator at any time. -/
structure Tracked (s : InContext Generator) : Prop where
  wellFormed : s.context.WellFormed
  registry : s.item.registry.Grounded s.context
  pool : ∀ x ∈ s.item.partitioner.pool, x.Grounded s.context
  partitions : ∀ p ∈ s.item.partitioner.partitions, ∀ x ∈ p.constraints, x.Grounded s.context
  coverage : ∀ solver ∈ s.item.coverage.solvers, solver.Working s.context
  vectors : VectorStage.Filed s.item.vectors.solvers
  coverageVectors : VectorStage.Filed s.item.coverageVectors.solvers

/-- Coverage has not gone back from one state to the next: nothing is left that was not left
    before, and exhaustion stays reported unless something has changed. -/
structure Forward (s s' : InContext Generator) : Prop where
  grows : s.context.Grows s'.context
  subperm : s'.item.pending.Subperm s.item.pending
  apart : Apart s → Apart s'
  unchanged : s.item.registry.changed = false → s'.item.registry.changed = false
  covered : s.item.registry.changed = false → s.item.covered = true → s'.item.covered = true

/-- What coverage works on is the same. -/
structure Still (s s' : InContext Generator) : Prop where
  keeps : s.context.Keeps s'.context
  registry_eq : s'.item.registry = s.item.registry
  partitioner_eq : s'.item.partitioner = s.item.partitioner
  coverage_eq : s'.item.coverage = s.item.coverage
  covered_eq : s'.item.covered = s.item.covered

section

variable {s s' s'' : InContext Generator} {read : Reading}

theorem pending_of_unchanged {g : Generator} (h : g.registry.changed = false) :
    g.pending = g.uncovered := if_neg (by simp [h])

theorem pending_of_changed {g : Generator} (h : g.registry.changed = true) :
    g.pending = g.registry.scalars.filter Constraint.cover := if_pos h

theorem Forward.refl (s : InContext Generator) : Forward s s :=
  ⟨.refl _, .refl _, fun h => h, fun h => h, fun _ h => h⟩

theorem Forward.trans (h : Forward s s') (h' : Forward s' s'') : Forward s s'' where
  grows := h.grows.trans h'.grows
  subperm := h'.subperm.trans h.subperm
  apart hs := h'.apart (h.apart hs)
  unchanged hs := h'.unchanged (h.unchanged hs)
  covered hs hcovered := h'.covered (h.unchanged hs) (h.covered hs hcovered)

theorem Tracked.grows (h : Tracked s) {c' : Context} (hc' : c'.WellFormed)
    (hgrows : s.context.Grows c') : Tracked ⟨c', s.item⟩ :=
  { h with
    wellFormed := hc'
    registry := h.registry.grows hgrows
    pool := fun x hx => (h.pool x hx).grows hgrows
    partitions := fun p hp x hx => (h.partitions p hp x hx).grows hgrows
    coverage := fun solver hsolver => (h.coverage solver hsolver).grows hgrows }

/-- A larger context. -/
theorem Tracked.forward (h : Tracked s) {c' : Context} (hc' : c'.WellFormed)
    (hgrows : s.context.Grows c') : Forward s ⟨c', s.item⟩ where
  grows := hgrows
  subperm := .refl _
  apart hs hunchanged := by
    refine (hs hunchanged).imp_of_mem fun hp _ hapart => ?_
    obtain ⟨solver, hsolver, rfl⟩ := List.mem_map.mp hp
    exact hapart.grows (h.coverage solver hsolver).declared h.wellFormed hc' hgrows
  unchanged := fun h => h
  covered := fun _ h => h

theorem Still.forward (hstill : Still s s') (h : Tracked s) : Forward s s' := by
  have hforward := h.forward (hstill.keeps.wellFormed h.wellFormed) hstill.keeps.grows
  have hpending : s'.item.pending = s.item.pending := by
    unfold pending uncovered
    rw [hstill.registry_eq, hstill.coverage_eq]
  refine ⟨hstill.keeps.grows, hpending ▸ .refl _, fun hs hunchanged => ?_, fun hs => ?_,
    fun _ hcovered => ?_⟩
  · rw [hstill.coverage_eq]
    exact hforward.apart hs (hstill.registry_eq ▸ hunchanged)
  · rw [hstill.registry_eq, hs]
  · rw [hstill.covered_eq, hcovered]

/-! ## §3 Rebuilding -/

/-- A registry that is merged waits for the next rebuild. -/
theorem Tracked.merge (h : Tracked s) {r : Registry} (hr : r.Grounded s.context) :
    Tracked ⟨s.context, { s.item with partitioner := s.item.partitioner.merge r }⟩ := by
  refine { h with pool := fun x hx => ?_, partitions := fun p hp => ?_ }
  · change x ∈ (s.item.partitioner.merge r).pool at hx
    unfold Partitioner.merge at hx
    split at hx
    · exact h.pool x hx
    · exact (List.mem_append.mp hx).elim (h.pool x) hr.scalars
  · change p ∈ (s.item.partitioner.merge r).partitions at hp
    rw [Partitioner.partitions_merge] at hp
    exact h.partitions p hp

/-- The constraints that were merged are split, so all partitions are over declared variables. -/
theorem Tracked.regroup (h : Tracked s) (includeOwn : Bool) :
    Tracked ⟨s.context, s.item.regroup includeOwn⟩ := by
  have hmerged : Tracked ⟨s.context, { s.item with
      partitioner := if includeOwn then s.item.partitioner.merge s.item.registry
        else s.item.partitioner }⟩ := by
    cases includeOwn with
    | false => exact h
    | true => exact h.merge h.registry
  refine { h with
    pool := fun x hx => absurd hx List.not_mem_nil
    partitions := fun p hp x hx => ?_ }
  rcases List.mem_append.mp hp with hp | hp
  · exact hmerged.partitions p hp x hx
  · exact hmerged.pool x ((split_partitionPool _).mem_pool hp hx)

/-- New coverage solvers have everything before them that was split. -/
theorem rebuildCoverage_tracks (h : Tracked s) :
    Grants rebuildCoverage s (fun _ => True) (fun _ _ => False) fun _ s' => Tracked s' ∧
      s'.context = s.context ∧ s'.item.registry = s.item.registry ∧
        s'.item.covered = s.item.covered ∧
          s'.item.coverage.solvers.map CoverageSolver.partition = s.item.partitioner.partitions ∧
            s'.item.uncovered = s.item.partitioner.partitions.flatMap fun p =>
              p.constraints.filter Constraint.cover := by
  have hbuild := CoverageEnsemble.rebuildCoverage_works (c := s.context) s.item.coverage
    fun p hp => Partition.scalar_declared (h.partitions p hp)
  unfold rebuildCoverage
  apply Grants.get_bind
  apply ((useCoverage_grants (useItem_grants hbuild)).imp_refusal ?_).bind
  · rintro _ _ ⟨_, rfl, coverage, rfl, hworking, hpartitions, huncovered⟩
    refine change_grants ⟨?_, rfl, rfl, rfl, hpartitions, huncovered⟩
    exact { h with coverage := hworking, coverageVectors := VectorStage.filed_reset _ _ }
  · rintro _ _ ⟨_, -, _, -, hr⟩
    exact hr

theorem rebuild_tracks (h : Tracked s) (includeOwn : Bool) :
    Grants (rebuild includeOwn) s (fun _ => True) (fun _ _ => False) fun _ s' => Tracked s' ∧
      s'.context = s.context ∧ s'.item.registry = s.item.registry ∧
        s'.item.covered = s.item.covered ∧
          s'.item.coverage.solvers.map CoverageSolver.partition =
            (s.item.regroup includeOwn).partitioner.partitions ∧
            s'.item.uncovered = (s.item.regroup includeOwn).partitioner.partitions.flatMap fun p =>
              p.constraints.filter Constraint.cover := by
  have h' := h.regroup includeOwn
  have hbuild := PlainEnsemble.rebuildPlain_assigns s.context (s.item.regroup includeOwn).plain
    fun p hp => (Partition.scalar_declared (h'.partitions p hp)).1
  unfold rebuild
  apply change_bind
  show Grants (_ : Generation Unit) (⟨s.context, s.item.regroup includeOwn⟩ : InContext _) _ _ _
  have hregistry : (s.item.regroup includeOwn).registry = s.item.registry := rfl
  have hcovered : (s.item.regroup includeOwn).covered = s.item.covered := rfl
  rw [← hregistry, ← hcovered]
  -- Only the groups matter for the solvers that are built, not how they came about.
  generalize s.item.regroup includeOwn = g at h' hbuild ⊢
  apply Grants.get_bind
  apply ((usePlain_grants (s := ⟨s.context, g⟩) (useItem_grants hbuild)).imp_refusal ?_).bind
  · rintro _ _ ⟨_, rfl, plain, rfl, -⟩
    apply change_bind
    have hvectors : Tracked ⟨s.context, { g with
        plain := plain, vectors := g.vectors.reset g.partitioner.vectorConstraints }⟩ :=
      { h' with vectors := VectorStage.filed_reset _ _ }
    exact rebuildCoverage_tracks hvectors
  · rintro _ _ ⟨_, -, _, -, hr⟩
    exact hr

/-- A refresh leaves the same cover constraints to be hit. -/
theorem refresh_tracks (h : Tracked s) :
    Grants refresh s (fun _ => True) (fun _ _ => False) fun _ s' => Tracked s' ∧ Forward s s' ∧
      s'.item.registry.changed = false ∧ s'.item.pending.Perm s.item.pending := by
  unfold refresh
  apply Grants.get_bind
  split
  · rename_i hchanged
    apply change_bind
    have hpartitions := (Partitioner.partition_merge s.item.registry.acknowledge).1
    have h' : Tracked ⟨s.context, s.item.reset⟩ :=
      { h with
        registry := h.registry.congr rfl
        pool := fun x hx => absurd hx List.not_mem_nil
        partitions := fun p hp => absurd hp List.not_mem_nil }
    apply (rebuild_tracks h' true).mono
    rintro _ s' ⟨hs', hcontext, hregistry, -, hsolvers, huncovered⟩
    replace hsolvers : s'.item.coverage.solvers.map CoverageSolver.partition =
        partitionPool s.item.registry.scalars := hsolvers.trans hpartitions
    replace huncovered : s'.item.uncovered =
        (partitionPool s.item.registry.scalars).flatMap fun p =>
          p.constraints.filter Constraint.cover := by
      rw [huncovered]
      exact congrArg _ hpartitions
    have hunchanged : s'.item.registry.changed = false := by rw [hregistry]; rfl
    -- Grouping moves cover constraints around, and neither loses nor repeats one.
    have hperm : s'.item.pending.Perm s.item.pending := by
      rw [pending_of_unchanged hunchanged, pending_of_changed hchanged, huncovered,
        ← List.filter_flatMap]
      exact (split_partitionPool s.item.registry.scalars).perm.filter _
    -- What is said of a registry that did not change is void here.
    have hno {P : Prop} (hs : s.item.registry.changed = false) : P := by
      rw [hs] at hchanged
      cases hchanged
    refine ⟨hs', ⟨hcontext ▸ .refl _, hperm.subperm, fun _ _ => ?_, fun hs => hno hs,
      fun hs => hno hs⟩, hunchanged, hperm⟩
    rw [hsolvers]
    exact h.registry.sizesApart _
  · rename_i hunchanged
    -- A generator that is up to date is left alone.
    exact .pure ⟨h, .refl s, by simpa using hunchanged, .refl _⟩

/-! ## §4 Solving -/

/-- A plain solve does not concern coverage. -/
theorem solvePlain_stills (h : Tracked s) :
    Grants (usePlain PlainEnsemble.solvePlain) s (fun _ => True) (fun _ _ => False)
      fun _ s' => Tracked s' ∧ Still s s' := by
  apply (usePlain_grants (PlainEnsemble.solvePlain_writes ⟨s.context, s.item.plain⟩)).imp
    (fun _ hf => hf)
  · rintro _ _ ⟨_, -, hr⟩
    exact hr
  · rintro _ _ ⟨t, rfl, hkeeps⟩
    have h' := h.grows (hkeeps.wellFormed h.wellFormed) hkeeps.grows
    exact ⟨{ h' with }, hkeeps, rfl, rfl, rfl, rfl⟩

/-- Solving vectors does not concern coverage. -/
theorem solveVectors_stills (h : Tracked s) (read : Reading) :
    Leaves (useVectors (VectorStage.solve read)) s fun s' => Tracked s' ∧ Still s s' := by
  have hfollows {t : InContext VectorStage}
      (ht : VectorStage.Follows read ⟨s.context, s.item.vectors⟩ t) :
      Tracked ⟨t.context, { s.item with vectors := t.item }⟩ ∧
        Still s ⟨t.context, { s.item with vectors := t.item }⟩ := by
    have hkeeps := ht.stores.keeps
    have h' := h.grows (hkeeps.wellFormed h.wellFormed) hkeeps.grows
    exact ⟨{ h' with vectors := ht.filed h.vectors }, hkeeps, rfl, rfl, rfl, rfl⟩
  apply Grants.imp (useVectors_grants (VectorStage.solve_grants False h.wellFormed h.vectors
    nofun nofun)) fun _ _ => trivial
  · rintro _ _ ⟨t, rfl, -, ht⟩
    exact hfollows ht
  · rintro _ _ ⟨t, rfl, ht, -⟩
    exact hfollows ht

/-- In a coverage solve the variables keep their values, sizes that were not answered apart. -/
theorem solveCoverageVectors_stills (h : Tracked s) (read : Reading) :
    Leaves (useCoverageVectors (VectorStage.solve read)) s fun s' =>
      Tracked s' ∧ Still s s' ∧ s.context.Stores read s'.context := by
  -- Vectors are written, and the plain and the coverage solvers are not touched.
  have hfollows {t : InContext VectorStage}
      (ht : VectorStage.Follows read ⟨s.context, s.item.coverageVectors⟩ t) :
      Tracked ⟨t.context, { s.item with coverageVectors := t.item }⟩ ∧
        Still s ⟨t.context, { s.item with coverageVectors := t.item }⟩ ∧
          s.context.Stores read t.context := by
    have hkeeps := ht.stores.keeps
    have h' := h.grows (hkeeps.wellFormed h.wellFormed) hkeeps.grows
    exact ⟨{ h' with coverageVectors := ht.filed h.coverageVectors }, ⟨hkeeps, rfl, rfl, rfl, rfl⟩,
      ht.stores⟩
  apply Grants.imp (useCoverageVectors_grants (VectorStage.solve_grants False h.wellFormed
    h.coverageVectors nofun nofun)) fun _ _ => trivial
  · rintro _ _ ⟨t, rfl, -, ht⟩
    exact hfollows ht
  · rintro _ _ ⟨t, rfl, ht, -⟩
    exact hfollows ht

/-- A round of the coverage solvers. -/
theorem solveCoverage_tracks (h : Tracked s) (hunchanged : s.item.registry.changed = false) :
    Grants (useCoverage CoverageEnsemble.solveCoverage) s (fun _ => True) (fun _ _ => False)
      fun hit s' => Tracked s' ∧ Forward s s' ∧ s'.item.registry.changed = false ∧
        CoverageEnsemble.Round s.context s'.context s.item.coverage.solvers
          s'.item.coverage.solvers hit := by
  apply (useCoverage_grants (CoverageEnsemble.solveCoverage_works h.wellFormed h.coverage)).imp
    (fun _ hf => hf)
  · rintro _ _ ⟨_, -, hr⟩
    exact hr
  · rintro hit _ ⟨t, rfl, hround⟩
    have hc := hround.keeps.wellFormed h.wellFormed
    have h' := h.grows hc hround.keeps.grows
    have hforward := h.forward hc hround.keeps.grows
    refine ⟨{ h' with coverage := hround.working }, ⟨hround.keeps.grows, ?_, fun hs _ => ?_,
      fun hs => hs, fun _ hcovered => hcovered⟩, hunchanged, hround⟩
    · have hleft : pending { s.item with coverage := t.item } =
          t.item.solvers.flatMap CoverageSolver.remaining := pending_of_unchanged hunchanged
      -- What remains to be hit afterwards is part of what remained before.
      show (pending { s.item with coverage := t.item }).Subperm s.item.pending
      rw [hleft, pending_of_unchanged hunchanged]
      exact hround.sublist.subperm
    · rw [hround.partitions_eq]
      exact hforward.apart hs hunchanged

theorem next_tracks (h : Tracked s) :
    Leaves next s fun s' => Tracked s' ∧ Forward s s' ∧ s'.item.registry.changed = false := by
  unfold next
  apply Grants.bind (refresh_tracks h).unrefused
  rintro _ s₁ ⟨h₁, hforward₁, hunchanged₁, -⟩
  apply Grants.bind (solvePlain_stills h₁).unrefused
  rintro solved s₂ ⟨h₂, hstill₂⟩
  have hforward₂ := hforward₁.trans (hstill₂.forward h₁)
  have hunchanged₂ := (hstill₂.forward h₁).unchanged hunchanged₁
  cases solved with
  | false => exact .pure ⟨h₂, hforward₂, hunchanged₂⟩
  | true =>
    apply Grants.get_bind
    apply Leaves.imp (solveVectors_stills h₂ _)
    rintro s₃ ⟨h₃, hstill₃⟩
    have hforward₃ := hstill₃.forward h₂
    exact ⟨h₃, hforward₂.trans hforward₃, hforward₃.unchanged hunchanged₂⟩

/-- A cover constraint that was left was hit: its name has come to count as covered, and it holds if
    it is plain and no partitions share the size of a vector. -/
structure Hits (s s' : InContext Generator) : Prop where
  fewer : s'.item.pending.length < s.item.pending.length
  satisfied : ∃ x ∈ s.item.pending, (∃ solver ∈ s'.item.coverage.solvers,
    x ∈ solver.partition.constraints ∧ x.name ∈ solver.covered) ∧
      (x.expr.Plain → Apart s → x.expr.Holds s'.context.bits)

/-- The values of a cover constraint that was hit last are answered, unless another partition knows
    the same size of a vector. -/
theorem settled_of_lastHit {before : List Constraint} {x : Constraint} (h : Tracked s)
    (hunchanged : s.item.registry.changed = false) (hapart : Apart s)
    (hx : CoverageEnsemble.LastHit s.context before s.item.coverage.solvers x) {id : Nat}
    {sort : BitSort} (hmention : x.expr.Mentions id sort) :
    s.context.Settled s.item.readCovered id := by
  intro vector entry hvector hsize
  subst hsize
  obtain ⟨first, solver, last, hsolvers, hmem, -, hanswered⟩ := hx.hitter
  -- The size occurs in the partition of the solver that was hit, so no other one knows it.
  have hfirst : ∀ t ∈ first, CoverageSolver.read t entry.size.id = .ok none := by
    intro t ht
    have hworking := h.coverage t (by simp [hsolvers, ht])
    have hpairwise := hapart hunchanged
    rw [hsolvers, List.map_append, List.map_cons, List.pairwise_append] at hpairwise
    have hnone : t.scalars[entry.size.id]? = none := by
      rw [Option.eq_none_iff_forall_ne_some, hworking.scalars_eq]
      intro e he
      obtain ⟨s', -, hmention'⟩ := hworking.declared.getElem?_scalars.mp he
      exact hpairwise.2.2 t.partition (List.mem_map_of_mem ht) solver.partition
        List.mem_cons_self vector entry hvector s' sort hmention' ⟨x, hmem, hmention⟩
    unfold CoverageSolver.read
    rw [hnone]
    split <;> rfl
  -- Hence the solver that was hit is the first that answers for the size.
  have hread : s.item.coverage.read entry.size.id =
      .ok (some (s.context.bits entry.size.id)) := by
    unfold CoverageEnsemble.read
    rw [hsolvers]
    clear hsolvers
    induction first with
    | nil =>
      rw [List.nil_append, Ensemble.firstRead, hanswered _ _ hmention]
      rfl
    | cons t first ih =>
      rw [List.cons_append, Ensemble.firstRead, hfirst t List.mem_cons_self]
      exact ih fun t' ht' => hfirst t' (List.mem_cons_of_mem t ht')
  unfold readCovered
  rw [hread]
  rfl

theorem hitNext_tracks (h : Tracked s) (hunchanged : s.item.registry.changed = false) :
    Grants hitNext s (fun _ => True) (fun _ s' => Tracked s' ∧ Forward s s')
      fun answer s' => Tracked s' ∧ Forward s s' ∧ (answer = some true → Hits s s') ∧
        (answer = none → s'.item.covered = true) := by
  -- A round that hits nothing marks the generator as covered, and keeps all else.
  have hmissed {s' : InContext Generator} (h' : Tracked s') (hforward : Forward s s') :
      Grants (change ({ · with covered := true }) >>= fun _ => pure none) s' (fun _ => True)
        (fun _ s' => Tracked s' ∧ Forward s s')
        fun answer s' => Tracked s' ∧ Forward s s' ∧ (answer = some true → Hits s s') ∧
          (answer = none → s'.item.covered = true) := by
    refine change_bind (.pure ⟨{ h' with }, ?_, nofun, fun _ => rfl⟩)
    exact { hforward with covered := fun _ _ => rfl }
  unfold hitNext
  apply Grants.bind (solvePlain_stills h).unrefused
  rintro solved s₁ ⟨h₁, hstill₁⟩
  have hforward₁ := hstill₁.forward h
  have hunchanged₁ := hforward₁.unchanged hunchanged
  cases solved with
  | false => exact .pure ⟨h₁, hforward₁, nofun, nofun⟩
  | true =>
    apply Grants.bind (solveCoverage_tracks h₁ hunchanged₁).unrefused
    rintro hit s₂ ⟨h₂, hforward₂, hunchanged₂, hround⟩
    have hforward₂ := hforward₁.trans hforward₂
    cases hit with
    | false => exact hmissed h₂ hforward₂
    | true =>
      apply Grants.get_bind
      apply Grants.bind (Grants.imp (solveCoverageVectors_stills h₂ s₂.item.readCovered)
        (fun _ hf => hf) ?_ fun _ _ hq => hq)
      · rintro solved s₃ ⟨h₃, hstill₃, hstores⟩
        have hforward₃ := hstill₃.forward h₂
        cases solved with
        | false => exact hmissed h₃ (hforward₂.trans hforward₃)
        | true =>
          refine .pure ⟨h₃, hforward₂.trans hforward₃, fun _ => ⟨?_, ?_⟩, nofun⟩
          · -- One constraint fewer is pending after the round; the solves around it add none.
            have hle₁ := hforward₁.subperm.length_le
            have hlt₂ := hround.fewer rfl
            have hle₃ := hforward₃.subperm.length_le
            rw [pending_of_unchanged hunchanged₁] at hle₁
            rw [pending_of_unchanged hunchanged₂] at hle₃
            exact hle₃.trans_lt (hlt₂.trans_le hle₁)
          · obtain ⟨x, hx⟩ := hround.lastHit rfl
            obtain ⟨first, solver, last, hsolvers, hmem, hname, -⟩ := hx.hitter
            refine ⟨x, ?_, ⟨solver, ?_, hmem, hname⟩, fun hplain hapart => ?_⟩
            · rw [pending_of_unchanged hunchanged, uncovered, ← hstill₁.coverage_eq]
              exact hx.remained
            · simp [hstill₃.coverage_eq, hsolvers]
            · -- The values of the hit are not overwritten when vectors get their sizes.
              apply (Expr.holds_congr fun id sort hmention => ?_).mpr (hx.holds hplain)
              have hsettled :=
                settled_of_lastHit h₂ hunchanged₂ (hforward₂.apart hapart) hx hmention
              rw [hstores.bits_eq id hsettled]
      · rintro _ s₃ ⟨h₃, hstill₃, -⟩
        exact ⟨h₃, hforward₂.trans (hstill₃.forward h₂)⟩

/-- A coverage solve that succeeds without a report of exhaustion has hit what was left. -/
theorem nextCover_tracks (h : Tracked s) :
    Grants nextCover s (fun _ => True) (fun _ s' => Tracked s' ∧ Forward s s')
      fun answer s' => Tracked s' ∧ Forward s s' ∧ s'.item.registry.changed = false ∧
        (answer = true → s'.item.covered = false → Hits s s') := by
  unfold nextCover
  apply Grants.bind (refresh_tracks h).unrefused
  rintro _ s₁ ⟨h₁, hforward₁, hunchanged₁, hperm⟩
  -- Once everything is covered, what remains is a plain solve, which does not uncover anything.
  have hcovered {s₂ : InContext Generator} (h₂ : Tracked s₂) (hforward₂ : Forward s₁ s₂)
      (hcovered : s₂.item.covered = true) :
      Grants next s₂ (fun _ => True) (fun _ s' => Tracked s' ∧ Forward s s')
        fun answer s' => Tracked s' ∧ Forward s s' ∧ s'.item.registry.changed = false ∧
          (answer = true → s'.item.covered = false → Hits s s') := by
    have hunchanged₂ := hforward₂.unchanged hunchanged₁
    apply Grants.imp (next_tracks h₂) fun _ hf => hf
    · rintro _ s' ⟨h', hforward, -⟩
      exact ⟨h', hforward₁.trans (hforward₂.trans hforward)⟩
    · rintro _ s' ⟨h', hforward, hunchanged⟩
      refine ⟨h', hforward₁.trans (hforward₂.trans hforward), hunchanged, fun _ hno => ?_⟩
      rw [hforward.covered hunchanged₂ hcovered] at hno
      cases hno
  apply Grants.get_bind
  split
  · apply ((hitNext_tracks h₁ hunchanged₁).imp_refusal
      fun _ _ hr => ⟨hr.1, hforward₁.trans hr.2⟩).bind
    rintro answer s₂ ⟨h₂, hforward₂, hhits, hexhausted⟩
    cases answer with
    | none => exact hcovered h₂ hforward₂ (hexhausted rfl)
    | some answer =>
      refine .pure ⟨h₂, hforward₁.trans hforward₂, hforward₂.unchanged hunchanged₁, fun hok _ => ?_⟩
      -- The hit is counted against what was pending before the refresh.
      obtain ⟨hfewer, x, hx, hcounted, hholds⟩ := hhits (by rw [hok])
      rw [hperm.length_eq] at hfewer
      exact ⟨hfewer, x, hperm.mem_iff.mp hx, hcounted,
        fun hplain hapart => hholds hplain (hforward₁.apart hapart)⟩
  · rename_i hcov
    exact hcovered h₁ (.refl s₁) (by simpa using hcov)

end

/-! ## §5 Runs -/

/-- The runs of a generator with all its operations.  A call may be refused, but it may not be
    stopped by a fault. -/
inductive Operated (settings : Settings) (storageBits : Nat) : InContext Generator → Prop where
  | create {c c' : Context} {g : Generator} (hc : c.Reached)
      (h : create settings storageBits c = .ok (g, c')) : Operated settings storageBits ⟨c', g⟩
  | change {s : InContext Generator} {c' : Context} (hs : Operated settings storageBits s)
      (h : s.context.Changes c') : Operated settings storageBits ⟨c', s.item⟩
  | add {s s' : InContext Generator} {kind : Kind} {name : Option String} {e : Expr}
      {a : Except Refusal Unit} (hs : Operated settings storageBits s) (he : s.context.Names e)
      (h : add kind name e s = .ok (a, s')) : Operated settings storageBits s'
  | setEnabled {s : InContext Generator} (hs : Operated settings storageBits s) (name : String)
      (enabled : Bool) :
      Operated settings storageBits ⟨s.context, (s.item.setEnabled name enabled).2⟩
  | merge {s s' : InContext Generator} {r : Registry} {a : Except Refusal Unit}
      (hs : Operated settings storageBits s) (hr : r.Grounded s.context)
      (h : merge r s = .ok (a, s')) : Operated settings storageBits s'
  | reset {s : InContext Generator} (hs : Operated settings storageBits s) :
      Operated settings storageBits ⟨s.context, s.item.reset⟩
  | rebuild {s s' : InContext Generator} {includeOwn : Bool} {a : Except Refusal Unit}
      (hs : Operated settings storageBits s) (h : rebuild includeOwn s = .ok (a, s')) :
      Operated settings storageBits s'
  | next {s s' : InContext Generator} {a : Except Refusal Bool}
      (hs : Operated settings storageBits s) (h : next s = .ok (a, s')) :
      Operated settings storageBits s'
  | tryNext {s s' : InContext Generator} {a : Except Refusal Unit}
      (hs : Operated settings storageBits s) (h : tryNext s = .ok (a, s')) :
      Operated settings storageBits s'
  | nextCover {s s' : InContext Generator} {a : Except Refusal Bool}
      (hs : Operated settings storageBits s) (h : nextCover s = .ok (a, s')) :
      Operated settings storageBits s'
  | resetCoverage {s s' : InContext Generator} {a : Except Refusal Unit}
      (hs : Operated settings storageBits s) (h : resetCoverage s = .ok (a, s')) :
      Operated settings storageBits s'

/-- What does not interfere with coverage: the context changes, registries are merged for a later
    rebuild, and the generator solves. -/
inductive Quiet : InContext Generator → InContext Generator → Prop where
  | change {c : Context} (s : InContext Generator) (h : s.context.Changes c) : Quiet s ⟨c, s.item⟩
  | merge {s s' : InContext Generator} {r : Registry} {a : Except Refusal Unit}
      (hr : r.Grounded s.context) (h : merge r s = .ok (a, s')) : Quiet s s'
  | next {s s' : InContext Generator} {a : Except Refusal Bool} (h : next s = .ok (a, s')) :
      Quiet s s'

/-- A run of coverage solves that all succeed, given by the states before and after each of them. -/
inductive Covering : InContext Generator → List (InContext Generator × InContext Generator) → Prop
  where
  | nil (s : InContext Generator) : Covering s []
  | quiet {s s' : InContext Generator} {calls : List (InContext Generator × InContext Generator)}
      (h : Quiet s s') (hrest : Covering s' calls) : Covering s calls
  | call {s s' : InContext Generator} {calls : List (InContext Generator × InContext Generator)}
      (h : nextCover s = .ok (.ok true, s')) (hrest : Covering s' calls) :
      Covering s ((s, s') :: calls)

section

variable {settings : Settings} {storageBits : Nat} {s s' : InContext Generator}
  {calls : List (InContext Generator × InContext Generator)}

theorem tracked_create {c c' : Context} {g : Generator} (hc : c.WellFormed)
    (hrun : create settings storageBits c = .ok (g, c')) : Tracked ⟨c', g⟩ := by
  obtain ⟨hkeeps, hfresh, -⟩ := (create_fresh c).of_run hrun
  have hfiled {stage : VectorStage} (h : stage.solvers = ∅) : VectorStage.Filed stage.solvers :=
    fun id solver hid => by simp [h] at hid
  have hnone {P : Constraint → Prop} : ∀ x ∈ g.registry.constraints, P x := by
    simp [hfresh.constraints]
  exact {
    wellFormed := hkeeps.wellFormed hc
    registry := ⟨⟨by simp [hfresh.constraints], hnone, hnone⟩, hnone, hnone⟩
    pool := by simp [hfresh.partitioner, Partitioner.empty]
    partitions := by simp [hfresh.partitioner, Partitioner.empty]
    coverage := by simp [hfresh.coverage]
    vectors := hfiled hfresh.vectors
    coverageVectors := hfiled hfresh.coverageVectors }

theorem Tracked.change {c' : Context} (h : Tracked s) (hchanges : s.context.Changes c') :
    Tracked ⟨c', s.item⟩ ∧ Forward s ⟨c', s.item⟩ := by
  have hc' := hchanges.wellFormed h.wellFormed
  have hgrows := hchanges.grows h.wellFormed
  exact ⟨h.grows hc' hgrows, h.forward hc' hgrows⟩

theorem Tracked.add (h : Tracked s) {e : Expr} (he : s.context.Names e) (kind : Kind)
    (name : Option String) : Leaves (add kind name e) s Tracked := by
  have hmake := useRegistry_grants (s := s) (E := fun _ => True)
    (Registry.make_grants name e (kind = .soft) (kind = .cover))
  unfold Generator.add
  apply Grants.bind (P := fun _ s' => Tracked s') (hmake.imp (fun _ hf => hf) ?_ ?_)
  · exact fun _ _ hs' => .pure hs'
  · rintro _ _ ⟨t, rfl, hkeeps, hitem⟩
    rw [hitem]
    exact h.grows (hkeeps.wellFormed h.wellFormed) hkeeps.grows
  · rintro x _ ⟨t, rfl, hadds⟩
    have h' := h.grows (hadds.keeps.wellFormed h.wellFormed) hadds.keeps.grows
    exact { h' with registry := h.registry.add he hadds }

theorem merge_tracks (h : Tracked s) {r : Registry} (hr : r.Grounded s.context) :
    Leaves (merge r) s fun s' => Tracked s' ∧ Forward s s' := by
  apply Leaves.imp (Merging.merge_leaves r s)
  rintro _ rfl
  exact ⟨h.merge hr, .refl _, .refl _, fun hs => hs, fun hs => hs, fun _ hcovered => hcovered⟩

theorem tryNext_tracks (h : Tracked s) : Leaves tryNext s Tracked := by
  unfold tryNext
  apply Leaves.bind (Leaves.imp (next_tracks h) fun _ hs' => hs'.1)
  intro solved
  cases solved with
  | false => exact .throw _
  | true => exact .pure _

theorem resetCoverage_tracks (h : Tracked s) : Leaves resetCoverage s Tracked := by
  unfold resetCoverage
  apply change_bind
  have h' : Tracked ⟨s.context, { s.item with covered := false }⟩ := { h with }
  exact (rebuildCoverage_tracks h').unrefused.mono fun _ _ hs' => hs'.1

/-- All operations keep what holds of a generator at any time. -/
theorem Operated.tracked (h : Operated settings storageBits s) : Tracked s := by
  -- One case for each operation; only the solves and the rebuilds touch the solvers.
  induction h with
  | create hc hrun => exact tracked_create hc.wellFormed hrun
  | change _ hchanges ih => exact (ih.change hchanges).1
  | add _ he hrun ih => exact (ih.add he _ _).of_run hrun
  | setEnabled _ name enabled ih =>
    exact { ih with registry := ih.registry.setEnabled name enabled }
  | merge _ hr hrun ih => exact ((merge_tracks ih hr).of_run hrun).1
  | reset _ ih =>
    exact { ih with
      registry := ih.registry.congr rfl
      pool := fun x hx => absurd hx List.not_mem_nil
      partitions := fun p hp => absurd hp List.not_mem_nil }
  | @rebuild _ _ _ a _ hrun ih =>
    cases a with
    | error refusal => exact ((rebuild_tracks ih _).of_refusal hrun).elim
    | ok u => exact ((rebuild_tracks ih _).of_run hrun).1
  | next _ hrun ih => exact ((next_tracks ih).of_run hrun).1
  | tryNext _ hrun ih => exact (tryNext_tracks ih).of_run hrun
  | @nextCover _ _ a _ hrun ih =>
    cases a with
    | error refusal => exact ((nextCover_tracks ih).of_refusal hrun).1
    | ok solved => exact ((nextCover_tracks ih).of_run hrun).1
  | resetCoverage _ hrun ih => exact (resetCoverage_tracks ih).of_run hrun

theorem Quiet.tracks (h : Quiet s s') (hs : Tracked s) : Tracked s' ∧ Forward s s' := by
  cases h with
  | change _ hchanges => exact hs.change hchanges
  | merge hr hrun => exact (merge_tracks hs hr).of_run hrun
  | next hrun =>
    obtain ⟨hs', hforward, -⟩ := (next_tracks hs).of_run hrun
    exact ⟨hs', hforward⟩

/-- What is known of the coverage solves of a run. -/
structure Course (s : InContext Generator)
    (calls : List (InContext Generator × InContext Generator)) :
    Prop where
  hits : ∀ call ∈ calls, Forward s call.1 ∧ (call.2.item.covered = false → Hits call.1 call.2)
  few : (calls.filter fun call => !call.2.item.covered).length ≤ s.item.pending.length
  lasts : calls.Pairwise fun call later =>
    call.2.item.covered = true → later.2.item.covered = true
  exhausted : s.item.registry.changed = false → s.item.covered = true →
    ∀ call ∈ calls, call.2.item.covered = true

/-- Every coverage solve uses up some of what is left, until exhaustion is reported. -/
theorem Covering.course (hrun : Covering s calls) (h : Tracked s) : Course s calls := by
  -- The calls are taken from the first to the last, each leaving fewer pending constraints.
  induction hrun with
  | nil s => exact ⟨by simp, by simp, .nil, by simp⟩
  | quiet hquiet _ ih =>
    obtain ⟨h', hforward⟩ := hquiet.tracks h
    obtain ⟨hhits, hfew, hlasts, hexhausted⟩ := ih h'
    refine ⟨fun call hcall => ?_, hfew.trans hforward.subperm.length_le, hlasts,
      fun hs hcovered => ?_⟩
    · exact ⟨hforward.trans (hhits call hcall).1, (hhits call hcall).2⟩
    · exact hexhausted (hforward.unchanged hs) (hforward.covered hs hcovered)
  | @call s s' calls hcall _ ih =>
    obtain ⟨h', hforward, hunchanged, hhit⟩ := (nextCover_tracks h).of_run hcall
    obtain ⟨hhits, hfew, hlasts, hexhausted⟩ := ih h'
    replace hhit := hhit rfl
    refine ⟨List.forall_mem_cons.mpr ⟨⟨.refl s, hhit⟩, fun call hmem => ?_⟩, ?_,
      .cons (fun call hmem hcovered => hexhausted hunchanged hcovered call hmem) hlasts,
      fun hs hcovered => ?_⟩
    · exact ⟨hforward.trans (hhits call hmem).1, (hhits call hmem).2⟩
    · -- A call that hits nothing covers the generator, and is not counted.
      cases hcovered : s'.item.covered with
      | true =>
        rw [List.filter_cons_of_neg (by simp [hcovered])]
        exact hfew.trans hforward.subperm.length_le
      | false =>
        have hfewer := (hhit hcovered).fewer
        rw [List.filter_cons_of_pos (by simp [hcovered]), List.length_cons]
        omega
    · have hcovered' := hforward.covered hs hcovered
      exact List.forall_mem_cons.mpr ⟨hcovered', hexhausted hunchanged hcovered'⟩

/-- While the partitions are those of the own constraints, they share nothing, and what is left are
    some of the own cover constraints. -/
theorem Tracked.own (h : Tracked s)
    (hown : s.item.registry.changed = true ∨ Used settings storageBits s) :
    Apart s ∧ s.item.pending.length ≤ (s.item.registry.active.filter Constraint.cover).length := by
  -- Cover constraints on vectors are never pending.
  have hscalars : (s.item.registry.scalars.filter Constraint.cover).length ≤
      (s.item.registry.active.filter Constraint.cover).length :=
    (List.filter_sublist.filter Constraint.cover).length_le
  cases hchanged : s.item.registry.changed with
  | true =>
    refine ⟨fun hunchanged => ?_, ?_⟩
    · rw [hchanged] at hunchanged
      cases hunchanged
    · rw [pending_of_changed hchanged]
      exact hscalars
  | false =>
    have hused := hown.resolve_left (by simp [hchanged])
    have hupToDate := hused.lasting.upToDate hchanged
    have hpartitions := hupToDate.coverage.trans hupToDate.partitions_eq
    refine ⟨fun _ => ?_, ?_⟩
    · rw [hpartitions]
      exact h.registry.sizesApart _
    · refine le_trans ?_ hscalars
      -- What was hit already is taken out of the groups, which hold all the rest.
      have hperm := (split_partitionPool s.item.registry.scalars).perm.filter Constraint.cover
      rw [← hperm.length_eq, pending_of_unchanged hchanged, ← hpartitions, List.flatMap_map,
        List.filter_flatMap, uncovered, List.length_flatMap, List.length_flatMap]
      apply List.sum_le_sum
      intro solver _
      refine (List.monotone_filter_right solver.partition.constraints fun x hx => ?_).length_le
      exact ((Bool.and_eq_true _ _).mp hx).1

/-- Coverage makes progress and ends, whatever was done with the generator before.  A coverage solve
    that succeeds without a report of exhaustion has hit a cover constraint that was left, and the
    values satisfy it if it is plain and no partitions share the size of a vector.  There are no
    more such solves than there were cover constraints left, and once exhaustion was reported, it
    stays reported.  While the partitions are those of the own constraints, no more cover
    constraints are left than are switched on. -/
theorem coverage_ends_of_operated (h : Operated settings storageBits s) (hrun : Covering s calls) :
    (∀ call ∈ calls, call.2.item.covered = false → ∃ x ∈ call.1.item.pending,
      (∃ solver ∈ call.2.item.coverage.solvers,
        x ∈ solver.partition.constraints ∧ x.name ∈ solver.covered) ∧
        (x.expr.Plain → Apart s → x.expr.Holds call.2.context.bits)) ∧
    (calls.filter fun call => !call.2.item.covered).length ≤ s.item.pending.length ∧
    (calls.Pairwise fun call later => call.2.item.covered = true → later.2.item.covered = true) ∧
    (s.item.registry.changed = true ∨ Used settings storageBits s → Apart s ∧
      s.item.pending.length ≤ (s.item.registry.active.filter Constraint.cover).length) := by
  obtain ⟨hhits, hfew, hlasts, -⟩ := hrun.course h.tracked
  refine ⟨fun call hcall hcovered => ?_, hfew, hlasts, h.tracked.own⟩
  obtain ⟨hforward, hhit⟩ := hhits call hcall
  obtain ⟨x, hx, hcounted, hholds⟩ := (hhit hcovered).satisfied
  exact ⟨x, hx, hcounted, fun hplain hapart => hholds hplain (hforward.apart hapart)⟩

end

/-- A context with a random truth value. -/
def coin : Context := (Context.declare .bool (.empty 0)).2

/-- The truth value is true. -/
def heads : Expr := .var 1 .bool

theorem names_heads : coin.Names heads := by
  intro _ id sort hmention
  cases hmention with
  | head => rfl
  | tail _ hmem => cases hmem

/-- A generator with one constraint to cover, which is called hit. -/
def covering (e : Expr) : Except Fault (InContext Generator) := do
  let (g, c) ← create { seed := some 1 } 4 coin
  let (_, s) ← add .cover (some "hit") e ⟨c, g⟩
  return s

theorem operated_covering {e : Expr} {s : InContext Generator} (he : coin.Names e)
    (hrun : covering e = .ok s) : Operated { seed := some 1 } 4 s := by
  unfold covering at hrun
  obtain ⟨⟨g, c⟩, hcreate, hrun⟩ := exists_ok_of_bind hrun
  obtain ⟨⟨_, s₁⟩, hadd, hrun⟩ := exists_ok_of_bind hrun
  cases hrun
  have hkeeps := ((create_fresh coin).of_run hcreate).1
  have hreached : coin.Reached := ⟨0, _, .tail .refl (.declare _ _)⟩
  refine .add (.create hreached hcreate) ?_ hadd
  exact he.mono hkeeps.grows.signature

/-- The first coverage solve makes the truth value true, and the second one reports exhaustion. -/
theorem coverage_ends_after_heads : ∃ s s₁ s₂, Operated { seed := some 1 } 4 s ∧
    Covering s [(s, s₁), (s₁, s₂)] ∧ s₁.item.covered = false ∧ s₂.item.covered = true ∧
    s.item.pending.map Constraint.expr = [heads] ∧ heads.Holds s₁.context.bits := by
  obtain ⟨s, hrun, htest⟩ := exists_of_toOption_any (x := covering heads) (p := fun s =>
    decide (s.item.pending.map Constraint.expr = [heads]) && s.item.registry.changed &&
    (granted? (nextCover s)).any fun (solved₁, s₁) => solved₁ && !s₁.item.covered &&
      (granted? (nextCover s₁)).any fun (solved₂, s₂) => solved₂ && s₂.item.covered)
    (by decide +kernel)
  simp only [Bool.and_eq_true, decide_eq_true_eq] at htest
  obtain ⟨⟨hpending, hchanged⟩, htest⟩ := htest
  obtain ⟨solved₁, s₁, hrun₁, htest⟩ := exists_of_granted?_any htest
  simp only [Bool.and_eq_true, Bool.not_eq_true'] at htest
  obtain ⟨⟨rfl, hcovered₁⟩, htest⟩ := htest
  obtain ⟨solved₂, s₂, hrun₂, htest⟩ := exists_of_granted?_any htest
  simp only [Bool.and_eq_true] at htest
  obtain ⟨rfl, hcovered₂⟩ := htest
  have hoperated := operated_covering names_heads hrun
  have hcovering : Covering s [(s, s₁), (s₁, s₂)] := .call hrun₁ (.call hrun₂ (.nil s₂))
  obtain ⟨hhits, -, -, hown⟩ := coverage_ends_of_operated hoperated hcovering
  obtain ⟨x, hx, -, hholds⟩ := hhits (s, s₁) List.mem_cons_self hcovered₁
  have hexpr : x.expr = heads :=
    List.mem_singleton.mp (hpending ▸ List.mem_map_of_mem (f := Constraint.expr) hx)
  rw [hexpr] at hholds
  exact ⟨s, s₁, s₂, hoperated, hcovering, hcovered₁, hcovered₂, hpending,
    hholds (by decide) (hown (.inl hchanged)).1⟩

/-- The coverage solvers outlive a reset: a constraint that is switched off by then is hit.  And
    a constraint without a value is hit, which no values satisfy. -/
theorem coverage_goes_astray :
    (∃ s₀ s₁ s s', covering heads = .ok s₀ ∧ next s₀ = .ok (.ok true, s₁) ∧
      s = ⟨s₁.context, (s₁.item.setEnabled "hit" false).2.reset⟩ ∧
      nextCover s = .ok (.ok true, s') ∧ s'.item.covered = false ∧
      s.item.registry.active.filter Constraint.cover = []) ∧
    ∃ s s', covering shiftedNothing = .ok s ∧ nextCover s = .ok (.ok true, s') ∧
      s'.item.covered = false ∧
      ∀ x ∈ s.item.registry.constraints, ¬ x.expr.Holds s'.context.bits := by
  -- First a reset that keeps the old solvers, then a constraint that counts as hit without holding.
  constructor
  · obtain ⟨s₀, hrun, htest⟩ := exists_of_toOption_any (x := covering heads) (p := fun s₀ =>
      (granted? (next s₀)).any fun (solved, s₁) => solved &&
        ((s₁.item.setEnabled "hit" false).2.reset.registry.active.filter Constraint.cover).isEmpty &&
        (granted? (nextCover ⟨s₁.context, (s₁.item.setEnabled "hit" false).2.reset⟩)).any
          fun (solved, s') => solved && !s'.item.covered) (by decide +kernel)
    obtain ⟨solved, s₁, hnext, htest⟩ := exists_of_granted?_any htest
    simp only [Bool.and_eq_true, List.isEmpty_iff] at htest
    obtain ⟨⟨rfl, hnone⟩, htest⟩ := htest
    obtain ⟨solved, s', hcover, htest⟩ := exists_of_granted?_any htest
    simp only [Bool.and_eq_true, Bool.not_eq_true'] at htest
    obtain ⟨rfl, hcovered⟩ := htest
    exact ⟨s₀, s₁, _, s', hrun, hnext, rfl, hcover, hcovered, hnone⟩
  · obtain ⟨s, hrun, htest⟩ := exists_of_toOption_any (x := covering shiftedNothing) (p := fun s =>
      decide (s.item.registry.constraints.map Constraint.expr = [shiftedNothing]) &&
      (granted? (nextCover s)).any fun (solved, s') => solved && !s'.item.covered)
      (by decide +kernel)
    simp only [Bool.and_eq_true, decide_eq_true_eq] at htest
    obtain ⟨hexprs, htest⟩ := htest
    obtain ⟨solved, s', hcover, htest⟩ := exists_of_granted?_any htest
    simp only [Bool.and_eq_true, Bool.not_eq_true'] at htest
    obtain ⟨rfl, hcovered⟩ := htest
    refine ⟨s, s', hrun, hcover, hcovered, fun x hx => ?_⟩
    have hexpr : x.expr = shiftedNothing :=
      List.mem_singleton.mp (hexprs ▸ List.mem_map_of_mem (f := Constraint.expr) hx)
    rw [hexpr]
    exact not_holds_shiftedNothing _

end Generator

end Stimulus
