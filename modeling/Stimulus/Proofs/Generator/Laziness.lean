import Stimulus.Proofs.Generator.Frame
import Stimulus.Proofs.Generator.Run
import Stimulus.Proofs.Group.Assignment
import Stimulus.Proofs.Vector.Grouping

/-!
# Rebuilding only after a change

A generator rebuilds before a solve, and only if one of its constraints was added or switched since
it rebuilt last.  Nobody can tell from the partitions: whatever was called before, they are those of
the constraints that are switched on.  This takes no assumption about the constraints, because a
registry accepts only those for which solvers can be built.

Main definitions:
- `Registry.Orderly`: what a registry accepts
- `Generator.Lasting`: what holds of a generator at any time
- `Generator.UpToDate`: the solvers were built from the constraints that are switched on
- `Generator.Used`: the runs of a generator

Main statements:
- `Generator.refresh_lasting`
- `Generator.Used.lasting`
- `Generator.upToDate_of_used`
-/

namespace Stimulus

open Relation (ReflTransGen)

/-! ## §1 Switching constraints -/

/-- The constraint, switched on or off if it has the name. -/
def Constraint.switch (name : String) (enabled : Bool) (c : Constraint) : Constraint :=
  if c.name == name then { c with enabled := enabled } else c

theorem Constraint.switch_of_ne {name : String} {enabled : Bool} {c : Constraint}
    (h : c.name ≠ name) : c.switch name enabled = c :=
  if_neg (by simpa using h)

theorem Constraint.switch_of_eq {name : String} {enabled : Bool} {c : Constraint}
    (h : c.name = name) : c.switch name enabled = { c with enabled := enabled } :=
  if_pos (by simpa using h)

@[simp]
theorem Constraint.name_switch (name : String) (enabled : Bool) (c : Constraint) :
    (c.switch name enabled).name = c.name := by
  unfold switch
  split <;> rfl

namespace Registry

/-- Every constraint has a name of its own and can be solved: one on scalars needs no vector, and
    one on a whole vector tells which. -/
structure Orderly (r : Registry) : Prop where
  named : (r.constraints.map Constraint.name).Nodup
  scalar : ∀ x ∈ r.constraints, x.isVector = false → x.expr.mentionsVector = false
  onVector : ∀ x ∈ r.constraints, x.isVector = true → x.vectorId?.isSome = true

section

variable {r r' : Registry} {name : String} {enabled : Bool} {x y : Constraint}

theorem Orderly.congr (h : r.Orderly) (hsame : r'.constraints = r.constraints) : r'.Orderly := by
  obtain ⟨named, scalar, onVector⟩ := h
  rw [← hsame] at named scalar onVector
  exact ⟨named, scalar, onVector⟩

theorem Orderly.eq_of_find? (h : r.Orderly) (hfind : r.find? name = some x)
    (hy : y ∈ r.constraints) (hname : y.name = name) : y = x := by
  have hx := List.mem_of_find?_eq_some hfind
  have hxname : x.name = name := by simpa using List.find?_some hfind
  exact List.inj_on_of_nodup_map h.named hy hx (hname.trans hxname.symm)

/-- Switching concerns the constraint of that name alone, if there is one. -/
theorem Orderly.constraints_setEnabled (h : r.Orderly) (name : String) (enabled : Bool) :
    (r.setEnabled name enabled).2.constraints = r.constraints.map (.switch name enabled) := by
  have hsame (hkept : ∀ y ∈ r.constraints, y.switch name enabled = y) :
      r.constraints = r.constraints.map (.switch name enabled) := by
    conv => lhs; rw [← List.map_id r.constraints]
    exact List.map_congr_left fun y hy => (hkept y hy).symm
  -- Names are in use once, so switching the constraint that is found switches all of that name.
  unfold setEnabled
  cases hfind : r.find? name with
  | none =>
    apply hsame
    intro y hy
    apply Constraint.switch_of_ne
    simpa using List.find?_eq_none.mp hfind y hy
  | some x =>
    dsimp only
    split
    · -- The constraint is in that state already.
      rename_i henabled
      apply hsame
      intro y hy
      by_cases hname : y.name = name
      · obtain rfl := h.eq_of_find? hfind hy hname
        rw [Constraint.switch_of_eq hname, ← eq_of_beq henabled]
      · exact Constraint.switch_of_ne hname
    · rfl

theorem Orderly.setEnabled (h : r.Orderly) (name : String) (enabled : Bool) :
    (r.setEnabled name enabled).2.Orderly := by
  have hconstraints := h.constraints_setEnabled name enabled
  -- What holds of a constraint switched on or off holds of the whole list.
  have hall {P : Constraint → Prop} (hP : ∀ y ∈ r.constraints, P y)
      (hswitch : ∀ y, P y → P (y.switch name enabled)) :
      ∀ z ∈ (r.setEnabled name enabled).2.constraints, P z := by
    intro z hz
    rw [hconstraints] at hz
    obtain ⟨y, hy, rfl⟩ := List.mem_map.mp hz
    exact hswitch y (hP y hy)
  refine ⟨?_, hall h.scalar fun y hy => ?_, hall h.onVector fun y hy => ?_⟩
  · rw [hconstraints, List.map_map]
    have hnames : Constraint.name ∘ Constraint.switch name enabled = Constraint.name :=
      funext fun y => y.name_switch name enabled
    rw [hnames]
    exact h.named
  all_goals
    unfold Constraint.switch
    split <;> exact hy

/-- Switching a constraint and then switching it back restores the constraints, whatever became of
    the rest of the registry. -/
theorem Orderly.constraints_roundTrip (h : r.Orderly) (hfind : r.find? name = some x)
    (hr' : r'.constraints = (r.setEnabled name (!x.enabled)).2.constraints) :
    (r'.setEnabled name x.enabled).2.constraints = r.constraints := by
  have horderly : r'.Orderly := (h.setEnabled name (!x.enabled)).congr hr'
  rw [horderly.constraints_setEnabled, hr', h.constraints_setEnabled, List.map_map]
  conv => rhs; rw [← List.map_id r.constraints]
  apply List.map_congr_left
  intro y hy
  by_cases hname : y.name = name
  · obtain rfl := h.eq_of_find? hfind hy hname
    show (y.switch name (!y.enabled)).switch name y.enabled = y
    rw [Constraint.switch_of_eq (by simpa using hname), Constraint.switch_of_eq hname]
  · show (y.switch name (!x.enabled)).switch name x.enabled = y
    rw [Constraint.switch_of_ne hname, Constraint.switch_of_ne hname]

/-- A registry that does not count as changed by a switch is the same. -/
theorem setEnabled_of_unchanged (h : (r.setEnabled name enabled).2.changed = false) :
    (r.setEnabled name enabled).2 = r := by
  unfold setEnabled at h ⊢
  cases hfind : r.find? name with
  | none => rfl
  | some x =>
    rw [hfind] at h
    dsimp only at h ⊢
    split
    · rfl
    · rename_i hne
      rw [if_neg hne] at h
      cases h

/-- A constraint that is added gets a name that is not in use. -/
theorem Orderly.add {c : Context} {e : Expr} {s : InContext Registry} (h : r.Orderly)
    (hadds : Adds c r e x s) : s.item.Orderly := by
  rw [hadds.item_eq]
  have hall {P : Constraint → Prop} (hP : ∀ y ∈ r.constraints, P y) (hx : P x) :
      ∀ z ∈ r.constraints ++ [x], P z := by
    intro z hz
    rcases List.mem_append.mp hz with hz | hz
    · exact hP z hz
    · rwa [List.mem_singleton.mp hz]
  refine ⟨?_, hall h.scalar fun hscalar => ?_, hall h.onVector fun hvector => ?_⟩
  · rw [List.map_append]
    refine List.Nodup.append h.named (List.nodup_singleton _) ?_
    intro n hn hx
    -- The registry was asked for the name, and it had no constraint of that name.
    obtain ⟨y, hy, hname⟩ := List.mem_map.mp hn
    have hfresh := hadds.fresh
    unfold has find? at hfresh
    rw [Option.isSome_eq_false_iff, Option.isNone_iff_eq_none, List.find?_eq_none] at hfresh
    have hxname : n = x.name := by simpa using hx
    exact hfresh y hy (by simpa using hname.trans hxname)
  · rw [Constraint.isVector, hadds.expr_eq] at hscalar
    rw [hadds.expr_eq]
    exact hadds.scalar hscalar
  · unfold Constraint.vectorId?
    rw [if_pos hvector, hadds.support_eq]
    rw [Constraint.isVector, hadds.expr_eq] at hvector
    rw [Std.TreeSet.isSome_min?_eq_not_isEmpty, Std.TreeSet.isEmpty_eq_size_eq_zero,
      hadds.single hvector]
    rfl

end

end Registry

namespace Generator

/-! ## §2 Solvers and what they were built from -/

/-- The solvers are those of the partitions and of the vector constraints that were split last. -/
structure Staffed (g : Generator) : Prop where
  plain : g.plain.solvers.map PartitionSolver.partition = g.partitioner.partitions
  vectors : VectorStage.Groups g.vectors.solvers g.partitioner.vectorConstraints
  coverage : g.coverage.solvers.map CoverageSolver.partition = g.partitioner.partitions
  coverageVectors : VectorStage.Groups g.coverageVectors.solvers g.partitioner.vectorConstraints

/-- What was split last are the constraints that are switched on. -/
structure SplitFrom (p : Partitioner) (r : Registry) : Prop where
  partitions_eq : p.partitions = partitionPool r.scalars
  vectorConstraints_eq : p.vectorConstraints = r.onVectors

/-- What holds of a generator at any time: there are solvers for everything that was split last, and
    unless something has changed since, that was what is switched on. -/
structure Lasting (g : Generator) : Prop where
  orderly : g.registry.Orderly
  scalar : ∀ p ∈ g.partitioner.partitions, ¬ p.NeedsVector
  staffed : g.Staffed
  current : g.registry.changed = false → SplitFrom g.partitioner g.registry

section

variable {s s' : InContext Generator} {g g' : Generator} {r : Registry}

/-- Solvers have worked, or were replaced. -/
theorem Lasting.same (h : g.Lasting) (hregistry : g'.registry = g.registry)
    (hpartitioner : g'.partitioner = g.partitioner) (hstaffed : g'.Staffed) : g'.Lasting where
  orderly := hregistry ▸ h.orderly
  scalar := hpartitioner ▸ h.scalar
  staffed := hstaffed
  current hunchanged := by
    rw [hregistry] at hunchanged ⊢
    rw [hpartitioner]
    exact h.current hunchanged

/-- The partitions of accepted constraints need no vectors. -/
theorem scalar_partitionPool (h : r.Orderly) :
    ∀ p ∈ partitionPool r.scalars, ¬ p.NeedsVector := by
  rintro p hp ⟨x, hx, hvector⟩
  have hpool := (split_partitionPool _).mem_pool hp hx
  obtain ⟨hactive, hscalar⟩ := List.mem_filter.mp hpool
  rw [h.scalar x (List.mem_filter.mp hactive).1 (by simpa using hscalar)] at hvector
  cases hvector

/-! ## §3 Rebuilding -/

/-- New coverage solvers are built for everything that was split last. -/
theorem rebuildCoverage_staffs (hscalar : ∀ p ∈ s.item.partitioner.partitions, ¬ p.NeedsVector) :
    Grants rebuildCoverage s (fun _ => True) (fun _ _ => False) fun _ s' =>
      ∃ coverage stage,
        s' = ⟨s.context, { s.item with coverage := coverage, coverageVectors := stage }⟩ ∧
        coverage.solvers.map CoverageSolver.partition = s.item.partitioner.partitions ∧
        VectorStage.Groups stage.solvers s.item.partitioner.vectorConstraints := by
  have hbuild := CoverageEnsemble.rebuildCoverage_assigns s.context s.item.coverage hscalar
  unfold rebuildCoverage
  apply Grants.get_bind
  apply ((useCoverage_grants (useItem_grants hbuild)).imp_refusal ?_).bind
  · rintro _ _ ⟨_, rfl, coverage, rfl, hassigned⟩
    exact change_grants ⟨coverage, _, rfl, hassigned, VectorStage.groups_reset _ _⟩
  · rintro _ _ ⟨_, -, _, -, hr⟩
    exact hr

/-- A rebuild builds solvers for everything that it splits. -/
theorem rebuild_staffs (includeOwn : Bool)
    (hscalar : ∀ p ∈ (s.item.regroup includeOwn).partitioner.partitions, ¬ p.NeedsVector) :
    Grants (rebuild includeOwn) s (fun _ => True) (fun _ _ => False) fun _ s' =>
      s'.item.registry = s.item.registry ∧
        s'.item.partitioner = (s.item.regroup includeOwn).partitioner ∧ s'.item.Staffed := by
  have hregistry : (s.item.regroup includeOwn).registry = s.item.registry := rfl
  unfold rebuild
  apply change_bind
  show Grants (_ : Generation Unit) (⟨s.context, s.item.regroup includeOwn⟩ : InContext _) _ _ _
  rw [← hregistry]
  -- From here on it does not matter how the constraints were split.
  generalize s.item.regroup includeOwn = g at hscalar ⊢
  have hbuild := PlainEnsemble.rebuildPlain_assigns s.context g.plain hscalar
  apply Grants.get_bind
  dsimp only
  -- The plain solvers are filed first, then those for coverage.
  apply ((usePlain_grants (useItem_grants hbuild)).imp_refusal ?_).bind
  · rintro _ _ ⟨_, rfl, plain, rfl, hplain⟩
    apply change_bind
    apply (rebuildCoverage_staffs hscalar).mono
    rintro _ _ ⟨coverage, stage, rfl, hcoverage, hgroups⟩
    exact ⟨rfl, rfl, hplain, VectorStage.groups_reset _ _, hcoverage, hgroups⟩
  · rintro _ _ ⟨_, -, _, -, hr⟩
    exact hr

/-- After a refresh nothing counts as changed, and a refresh is never refused. -/
theorem refresh_lasting (h : s.item.Lasting) :
    Grants refresh s (fun _ => True) (fun _ _ => False) fun _ s' =>
      s'.item.Lasting ∧ s'.item.registry = s.item.registry.acknowledge := by
  unfold refresh
  apply Grants.get_bind
  split
  · -- Everything is split anew, and nothing counts as changed while solvers are built.
    apply change_bind
    have hpartitioner := Partitioner.partition_merge s.item.registry.acknowledge
    have hscalar := scalar_partitionPool h.orderly
    rw [show s.item.registry.scalars = s.item.registry.acknowledge.scalars from rfl,
      ← hpartitioner.1] at hscalar
    apply (rebuild_staffs (s := ⟨s.context, s.item.reset⟩) true hscalar).mono
    rintro _ s' ⟨hregistry, hpartitions, hstaffed⟩
    have horderly : s'.item.registry.Orderly := hregistry ▸ h.orderly.congr rfl
    refine ⟨⟨horderly, hpartitions ▸ hscalar, hstaffed, fun _ => ?_⟩, hregistry⟩
    rw [hregistry]
    exact ⟨hpartitions ▸ hpartitioner.1, hpartitions ▸ hpartitioner.2⟩
  · rename_i hunchanged
    -- Nothing changed, so nothing is done, and acknowledging changes nothing either.
    refine .pure ⟨h, ?_⟩
    have hflag : s.item.registry.changed = false := by simpa using hunchanged
    unfold Registry.acknowledge
    rw [← hflag]

/-! ## §4 Solving -/

/-- The generator is in order, and its registry is a given one. -/
def LastsWith (r : Registry) (s : InContext Generator) : Prop :=
  s.item.Lasting ∧ s.item.registry = r

theorem solvePlain_lasts : Preserves (usePlain PlainEnsemble.solvePlain) (LastsWith r) := by
  rintro s ⟨h, hr⟩
  have hkeeps := PlainEnsemble.solvePlain_keeps ⟨s.context, s.item.plain⟩ h.staffed.plain
  apply (usePlain_grants hkeeps).imp (fun _ hf => hf)
  all_goals
    rintro _ _ ⟨t, rfl, ht⟩
    exact ⟨h.same rfl rfl { h.staffed with plain := ht }, hr⟩

theorem solveCoverage_lasts :
    Preserves (useCoverage CoverageEnsemble.solveCoverage) (LastsWith r) := by
  rintro s ⟨h, hr⟩
  have hkeeps := CoverageEnsemble.solveCoverage_keeps ⟨s.context, s.item.coverage⟩
    h.staffed.coverage
  apply (useCoverage_grants hkeeps).imp (fun _ hf => hf)
  all_goals
    rintro _ _ ⟨t, rfl, ht⟩
    exact ⟨h.same rfl rfl { h.staffed with coverage := ht }, hr⟩

theorem solveVectors_lasts (read : Reading) :
    Preserves (useVectors (VectorStage.solve read)) (LastsWith r) := by
  rintro s ⟨h, hr⟩
  have hkeeps := VectorStage.solve_keeps read ⟨s.context, s.item.vectors⟩ h.staffed.vectors
  apply (useVectors_grants hkeeps).imp (fun _ hf => hf)
  all_goals
    rintro _ _ ⟨t, rfl, ht⟩
    exact ⟨h.same rfl rfl { h.staffed with vectors := ht }, hr⟩

theorem solveCoverageVectors_lasts (read : Reading) :
    Preserves (useCoverageVectors (VectorStage.solve read)) (LastsWith r) := by
  rintro s ⟨h, hr⟩
  have hkeeps := VectorStage.solve_keeps read ⟨s.context, s.item.coverageVectors⟩
    h.staffed.coverageVectors
  apply (useCoverageVectors_grants hkeeps).imp (fun _ hf => hf)
  all_goals
    rintro _ _ ⟨t, rfl, ht⟩
    exact ⟨h.same rfl rfl { h.staffed with coverageVectors := ht }, hr⟩

/-- Whether everything counts as covered does not matter. -/
theorem change_lasts (covered : Bool) :
    Preserves (change ({ · with covered := covered })) (LastsWith r) :=
  fun _ ⟨h, hr⟩ => ⟨h.same rfl rfl { h.staffed with }, hr⟩

theorem refresh_lasts (h : s.item.Lasting) :
    Leaves refresh s (LastsWith s.item.registry.acknowledge) :=
  (refresh_lasting h).unrefused

/-- A solve that is not stopped leaves the generator in order, whatever it answers. -/
theorem next_lasts (h : s.item.Lasting) :
    Leaves next s (LastsWith s.item.registry.acknowledge) := by
  unfold next
  apply (refresh_lasts h).bind
  intro _
  refine .bind solvePlain_lasts fun solved => ?_
  cases solved with
  | false => exact .pure _
  | true => exact .bind .get fun s => solveVectors_lasts _

/-- A second solve finds nothing changed. -/
theorem next_lasts_again : Preserves next (LastsWith r.acknowledge) := by
  rintro s ⟨h, hr⟩
  have hnext := next_lasts h
  rwa [hr] at hnext

theorem hitNext_lasts : Preserves hitNext (LastsWith r) := by
  have hmissed : Preserves (change ({ · with covered := true }) >>= fun _ =>
      (pure none : Generation (Option Bool))) (LastsWith r) :=
    .bind (change_lasts true) fun _ => .pure _
  unfold hitNext
  refine .bind solvePlain_lasts fun solved => ?_
  cases solved with
  | false => exact .pure _
  | true =>
    refine .bind solveCoverage_lasts fun hit => ?_
    cases hit with
    | false => exact hmissed
    | true =>
      refine .bind .get fun s => .bind (solveCoverageVectors_lasts _) fun answered => ?_
      cases answered with
      | false => exact hmissed
      | true => exact .pure _

theorem nextCover_lasts (h : s.item.Lasting) :
    Leaves nextCover s (LastsWith s.item.registry.acknowledge) := by
  unfold nextCover
  apply (refresh_lasts h).bind
  intro _
  refine .bind .get fun t => ?_
  split
  · refine .bind hitNext_lasts fun answer => ?_
    cases answer with
    | none => exact next_lasts_again
    | some answer => exact .pure _
  · exact next_lasts_again

theorem resetCoverage_lasts : Preserves resetCoverage (LastsWith r) := by
  unfold resetCoverage
  refine .bind (change_lasts false) fun _ => ?_
  rintro s ⟨h, hr⟩
  apply (rebuildCoverage_staffs h.scalar).imp (fun _ hf => hf) (fun _ _ hno => hno.elim)
  rintro _ _ ⟨coverage, stage, rfl, hcoverage, hgroups⟩
  exact ⟨h.same rfl rfl ⟨h.staffed.plain, h.staffed.vectors, hcoverage, hgroups⟩, hr⟩

/-! ## §5 Runs -/

/-- The constraints that the solvers of plain solutions were built from. -/
def plainConstraints (g : Generator) : List Constraint :=
  g.plain.solvers.flatMap (·.partition.constraints) ++
    g.vectors.solvers.values.flatMap VectorSolver.constraints

/-- The constraints that the solvers of coverage were built from. -/
def coverConstraints (g : Generator) : List Constraint :=
  g.coverage.solvers.flatMap (·.partition.constraints) ++
    g.coverageVectors.solvers.values.flatMap VectorSolver.constraints

/-- The partitions are those of the scalar constraints that are switched on, in the order of their
    declaration; and all solvers were built from what is switched on. -/
structure UpToDate (g : Generator) : Prop where
  partitions_eq : g.partitioner.partitions = partitionPool g.registry.scalars
  plain : g.plain.solvers.map PartitionSolver.partition = g.partitioner.partitions
  coverage : g.coverage.solvers.map CoverageSolver.partition = g.partitioner.partitions
  mem_plain : ∀ x, x ∈ g.plainConstraints ↔ x ∈ g.registry.active
  mem_cover : ∀ x, x ∈ g.coverConstraints ↔ x ∈ g.registry.active

/-- Partitions and groups together have the constraints that are switched on. -/
theorem mem_active_iff (h : r.Orderly) {solvers : Std.TreeMap Nat VectorSolver} {x : Constraint}
    (hgroups : VectorStage.Groups solvers r.onVectors) :
    x ∈ (partitionPool r.scalars).flatMap Partition.constraints ++
      solvers.values.flatMap VectorSolver.constraints ↔ x ∈ r.active := by
  rw [List.mem_append, (split_partitionPool r.scalars).perm.mem_iff, List.mem_flatMap,
    hgroups.mem_iff]
  unfold Registry.scalars Registry.onVectors
  rw [List.mem_filter, List.mem_filter]
  constructor
  · rintro (⟨hx, -⟩ | ⟨⟨hx, -⟩, -⟩)
    · exact hx
    · exact hx
  · intro hx
    cases hvector : x.isVector with
    | false => exact .inl ⟨hx, rfl⟩
    | true => exact .inr ⟨⟨hx, rfl⟩, h.onVector x (List.mem_filter.mp hx).1 hvector⟩

/-- Unless something has changed, a generator is up to date. -/
theorem Lasting.upToDate (h : g.Lasting) (hunchanged : g.registry.changed = false) :
    g.UpToDate := by
  have hcurrent := h.current hunchanged
  have hplain := h.staffed.plain
  have hcoverage := h.staffed.coverage
  have hvectors := h.staffed.vectors
  have hcoverageVectors := h.staffed.coverageVectors
  rw [hcurrent.vectorConstraints_eq] at hvectors hcoverageVectors
  refine ⟨hcurrent.partitions_eq, hplain, hcoverage, fun x => ?_, fun x => ?_⟩
  all_goals rw [hcurrent.partitions_eq] at hplain hcoverage
  · rw [← mem_active_iff h.orderly hvectors, ← hplain, List.flatMap_map]
    rfl
  · rw [← mem_active_iff h.orderly hcoverageVectors, ← hcoverage, List.flatMap_map]
    rfl

/-- A call that solves or starts coverage over, or anything that happens to the context between two
    calls.  A call may be refused, but it may not be stopped by a fault. -/
inductive Solve : InContext Generator → InContext Generator → Prop where
  | context (s : InContext Generator) (c : Context) : Solve s ⟨c, s.item⟩
  | next {s s' : InContext Generator} {a : Except Refusal Bool} (h : next s = .ok (a, s')) :
      Solve s s'
  | nextCover {s s' : InContext Generator} {a : Except Refusal Bool}
      (h : nextCover s = .ok (a, s')) : Solve s s'
  | resetCoverage {s s' : InContext Generator} {a : Except Refusal Unit}
      (h : resetCoverage s = .ok (a, s')) : Solve s s'

/-- The runs of a generator: it is made, it solves, and constraints are added and switched. -/
inductive Used (settings : Settings) (storageBits : Nat) : InContext Generator → Prop where
  | create {c c' : Context} {g : Generator} (h : create settings storageBits c = .ok (g, c')) :
      Used settings storageBits ⟨c', g⟩
  | solve {s s' : InContext Generator} (hs : Used settings storageBits s) (h : Solve s s') :
      Used settings storageBits s'
  | add {s s' : InContext Generator} {kind : Kind} {name : Option String} {e : Expr}
      {a : Except Refusal Unit} (hs : Used settings storageBits s)
      (h : add kind name e s = .ok (a, s')) : Used settings storageBits s'
  | setEnabled {s : InContext Generator} (hs : Used settings storageBits s) (name : String)
      (enabled : Bool) : Used settings storageBits ⟨s.context, (s.item.setEnabled name enabled).2⟩

/-- A new generator has nothing to be out of date with. -/
theorem lasting_create {settings : Settings} {storageBits : Nat} {c c' : Context}
    (hrun : create settings storageBits c = .ok (g, c')) : g.Lasting := by
  obtain ⟨-, hfresh, -⟩ := (create_fresh c).of_run hrun
  obtain ⟨-, hconstraints, hpartitioner, hplain, hvectors, hcoverage, hcoverageVectors, -⟩ := hfresh
  have hnone {P : Constraint → Prop} : ∀ x ∈ g.registry.constraints, P x := by simp [hconstraints]
  -- Without constraints there are no groups, and no solvers to have.
  refine ⟨⟨by simp [hconstraints], hnone, hnone⟩, by simp [hpartitioner, Partitioner.empty], ?_,
    fun _ => ?_⟩
  · refine ⟨?_, ?_, ?_, ?_⟩
    · rw [hplain, hpartitioner]
      rfl
    · rw [hvectors, hpartitioner]
      exact VectorStage.groups_empty
    · rw [hcoverage, hpartitioner]
      rfl
    · rw [hcoverageVectors, hpartitioner]
      exact VectorStage.groups_empty
  · have hactive : g.registry.active = [] := by simp [Registry.active, hconstraints]
    rw [hpartitioner]
    constructor
    · rw [Registry.scalars, hactive, List.filter_nil, partitionPool]
      rfl
    · rw [Registry.onVectors, hactive]
      rfl

/-- A call that solves leaves the constraints as they are. -/
theorem Solve.lasting (h : Solve s s') (hs : s.item.Lasting) :
    s'.item.Lasting ∧ s'.item.registry.constraints = s.item.registry.constraints := by
  cases h with
  | context c => exact ⟨hs, rfl⟩
  | next hrun =>
    obtain ⟨h', hregistry⟩ := (next_lasts hs).of_run hrun
    rw [hregistry]
    exact ⟨h', rfl⟩
  | nextCover hrun =>
    obtain ⟨h', hregistry⟩ := (nextCover_lasts hs).of_run hrun
    rw [hregistry]
    exact ⟨h', rfl⟩
  | resetCoverage hrun =>
    obtain ⟨h', hregistry⟩ := (resetCoverage_lasts s ⟨hs, rfl⟩).of_run hrun
    rw [hregistry]
    exact ⟨h', rfl⟩

theorem Lasting.of_solves (h : s.item.Lasting) (hsolves : ReflTransGen Solve s s') :
    s'.item.Lasting ∧ s'.item.registry.constraints = s.item.registry.constraints := by
  induction hsolves with
  | refl => exact ⟨h, rfl⟩
  | tail _ hstep ih =>
    obtain ⟨h', hsame⟩ := hstep.lasting ih.1
    exact ⟨h', hsame.trans ih.2⟩

/-- A switch leaves the solvers as they are, and it counts as a change if it makes a difference. -/
theorem Lasting.setEnabled (h : g.Lasting) (name : String) (enabled : Bool) :
    (g.setEnabled name enabled).2.Lasting where
  orderly := h.orderly.setEnabled name enabled
  scalar := h.scalar
  staffed := ⟨h.staffed.plain, h.staffed.vectors, h.staffed.coverage, h.staffed.coverageVectors⟩
  current hunchanged := by
    have hsame : (g.setEnabled name enabled).2.registry = g.registry :=
      Registry.setEnabled_of_unchanged hunchanged
    rw [hsame] at hunchanged ⊢
    exact h.current hunchanged

/-- An addition leaves the solvers as they are, and it counts as a change unless it is refused. -/
theorem Lasting.add (h : s.item.Lasting) (kind : Kind) (name : Option String) (e : Expr) :
    Leaves (add kind name e) s fun s' => s'.item.Lasting := by
  have hmake := useRegistry_grants (s := s) (E := fun _ => True)
    (Registry.make_grants name e (kind = .soft) (kind = .cover))
  unfold Generator.add
  apply Grants.bind (P := fun _ s' => s'.item.Lasting) (hmake.imp (fun _ hf => hf) ?_ ?_)
  · exact fun _ _ hs' => .pure hs'
  · rintro _ _ ⟨t, rfl, -, hitem⟩
    rw [hitem]
    exact h
  · rintro x _ ⟨t, rfl, hadds⟩
    refine ⟨h.orderly.add hadds, h.scalar, ⟨h.staffed.plain, h.staffed.vectors,
      h.staffed.coverage, h.staffed.coverageVectors⟩, fun hunchanged => ?_⟩
    dsimp only at hunchanged
    rw [hadds.item_eq] at hunchanged
    cases hunchanged

/-- A generator is in order in every run. -/
theorem Used.lasting {settings : Settings} {storageBits : Nat}
    (h : Used settings storageBits s) : s.item.Lasting := by
  induction h with
  | create hrun => exact lasting_create hrun
  | solve _ hsolve ih => exact (hsolve.lasting ih).1
  | add _ hrun ih => exact (ih.add _ _ _).of_run hrun
  | setEnabled _ name enabled ih => exact ih.setEnabled name enabled

theorem Lasting.of_next {a : Except Refusal Bool} (h : s.item.Lasting)
    (hrun : Generator.next s = .ok (a, s') ∨ Generator.nextCover s = .ok (a, s')) :
    LastsWith s.item.registry.acknowledge s' := by
  rcases hrun with hrun | hrun
  · exact (next_lasts h).of_run hrun
  · exact (nextCover_lasts h).of_run hrun

/-- Nobody can tell when a generator rebuilds.  After every solve that is not stopped by a fault,
    whatever it answers, the partitions and the solvers are those of the constraints that are
    switched on.  A constraint that is switched over and back leads to the same partitions, however
    often the generator solves in between.  And while nothing counts as changed, the solvers were
    built from what is switched on. -/
theorem upToDate_of_used {settings : Settings} {storageBits : Nat}
    (h : Used settings storageBits s) :
    (∀ a s', next s = .ok (a, s') ∨ nextCover s = .ok (a, s') →
      s'.item.registry = s.item.registry.acknowledge ∧ s'.item.UpToDate) ∧
    (∀ name x t a s', s.item.registry.find? name = some x →
      ReflTransGen Solve ⟨s.context, (s.item.setEnabled name (!x.enabled)).2⟩ t →
      (next ⟨t.context, (t.item.setEnabled name x.enabled).2⟩ = .ok (a, s') ∨
        nextCover ⟨t.context, (t.item.setEnabled name x.enabled).2⟩ = .ok (a, s')) →
      s'.item.partitioner.partitions = partitionPool s.item.registry.scalars) ∧
    (s.item.registry.changed = false → s.item.UpToDate) := by
  have hs := h.lasting
  refine ⟨fun a s' hrun => ?_, fun name x t a s' hfind hsolves hrun => ?_, hs.upToDate⟩
  · -- A solve refreshes, and after that the groups are those of the registry.
    obtain ⟨hs', hregistry⟩ := hs.of_next hrun
    exact ⟨hregistry, hs'.upToDate (by rw [hregistry]; rfl)⟩
  · -- Solves in between leave the constraints, so switching back restores what there was.
    have hswitched := hs.setEnabled name (!x.enabled)
    obtain ⟨ht, hconstraints⟩ := Lasting.of_solves hswitched hsolves
    obtain ⟨hs', hregistry⟩ := Lasting.of_next (ht.setEnabled name x.enabled) hrun
    have hback := hs.orderly.constraints_roundTrip hfind hconstraints
    have hupToDate := hs'.upToDate (by rw [hregistry]; rfl)
    rw [hupToDate.partitions_eq, hregistry]
    unfold Registry.scalars Registry.active
    exact congrArg (fun xs => partitionPool ((xs.filter Constraint.enabled).filter (!·.isVector)))
      hback

end

/-- A generator gets one constraint, which is called held, and solves. -/
def solvedOnce : Except Fault (InContext Generator) := do
  let (g, c) ← create { seed := some 1 } 4 (.empty 0)
  let (_, s) ← add .hard (some "held") (.truth true) ⟨c, g⟩
  let (_, s) ← next s
  return s

theorem used_solvedOnce {s : InContext Generator} (h : solvedOnce = .ok s) :
    Used { seed := some 1 } 4 s := by
  unfold solvedOnce at h
  obtain ⟨⟨g, c⟩, hcreate, h⟩ := exists_ok_of_bind h
  obtain ⟨⟨_, s₁⟩, hadd, h⟩ := exists_ok_of_bind h
  obtain ⟨⟨_, s₂⟩, hnext, h⟩ := exists_ok_of_bind h
  cases h
  exact .solve (.add (.create hcreate) hadd) (.next hnext)

/-- The constraint is switched off, the generator solves, and the constraint is switched on again:
    the next solve works on the partition that there was before. -/
theorem upToDate_after_roundTrip : ∃ s x t s', Used { seed := some 1 } 4 s ∧
    s.item.registry.find? "held" = some x ∧ x.enabled = true ∧
    next ⟨s.context, (s.item.setEnabled "held" false).2⟩ = .ok (.ok true, t) ∧
    t.item.partitioner.partitions = [] ∧
    next ⟨t.context, (t.item.setEnabled "held" true).2⟩ = .ok (.ok true, s') ∧
    s'.item.partitioner.partitions = s.item.partitioner.partitions ∧ s'.item.UpToDate := by
  obtain ⟨s, hrun, htest⟩ := exists_of_toOption_any (x := solvedOnce) (p := fun s =>
    !s.item.registry.changed && (s.item.registry.find? "held").any Constraint.enabled &&
    (granted? (next ⟨s.context, (s.item.setEnabled "held" false).2⟩)).any fun (found, t) =>
      found && t.item.partitioner.partitions.isEmpty &&
      (granted? (next ⟨t.context, (t.item.setEnabled "held" true).2⟩)).any Prod.fst)
    (by decide +kernel)
  simp only [Bool.and_eq_true, Bool.not_eq_true'] at htest
  obtain ⟨⟨hunchanged, hfind⟩, htest⟩ := htest
  rw [Option.any_eq_true] at hfind
  obtain ⟨x, hfind, henabled⟩ := hfind
  obtain ⟨found, t, hoff, htest⟩ := exists_of_granted?_any htest
  simp only [Bool.and_eq_true, List.isEmpty_iff] at htest
  obtain ⟨⟨rfl, hnone⟩, htest⟩ := htest
  obtain ⟨found, s', hon, hfound⟩ := exists_of_granted?_any htest
  obtain rfl : found = true := hfound
  have hused := used_solvedOnce hrun
  obtain ⟨-, hroundTrip, hupToDate⟩ := upToDate_of_used hused
  have hback := hroundTrip "held" x t (.ok true) s' hfind
  rw [henabled] at hback
  have hsame := hback (.single (.next hoff)) (.inl hon)
  -- The generator that is switched on again is in use as well, so it is up to date.
  have hused' := (((hused.setEnabled "held" false).solve (.next hoff)).setEnabled "held" true)
  have hlast := ((upToDate_of_used hused').1 _ _ (.inl hon)).2
  exact ⟨s, x, t, s', hused, hfind, henabled, hoff, hnone, hon,
    hsame.trans (hupToDate hunchanged).partitions_eq.symm, hlast⟩

end Generator

end Stimulus
