import Stimulus.Proofs.Generator.Soundness
import Stimulus.Proofs.Object.Run

/-!
# Solves of trees

An object keeps the generator of its last rebuild, and uses it until something in its tree has
changed.  Marks tell what has changed, one for each object.  A rebuild merges the registries of the
whole tree into a generator of its own, and takes away all marks of the tree.  So what a solve
promises depends on whether the generator of the object is up to date: then, if the solve succeeds,
the values satisfy all that is active in the tree.

Main definitions:
- `RandObject.Serves`, `RandObject.UpToDate`: what is known of the generator of an object
- `RandObject.Fulfilled`: the values satisfy the active constraints of a tree
- `RandObject.Lulls`: what a solve leaves below the object

Main statements:
- `RandObject.UpToDate.fulfilled`, `RandObject.Solve.upToDate`
- `RandObject.fulfilled_of_changed`
- `RandObject.lulls_of_answered`
-/

namespace Stimulus

/-! ## §1 Generators for several registries -/

namespace Registry

/-- The active constraints of several registries that are on scalars. -/
def scalarsEach (rs : List Registry) : List Constraint :=
  (rs.flatMap active).filter (!·.isVector)

/-- The active constraints of several registries that are on vectors. -/
def onVectorsEach (rs : List Registry) : List Constraint :=
  (rs.flatMap active).filter (·.isVector)

/-- Whether something has changed does not matter for what is active. -/
theorem active_acknowledge (r : Registry) : r.acknowledge.active = r.active := rfl

/-- Switching leaves a registry as it was, or marks it. -/
theorem setEnabled_changed (r : Registry) (name : String) (enabled : Bool) :
    (r.setEnabled name enabled).2 = r ∨ (r.setEnabled name enabled).2.changed = true := by
  unfold setEnabled
  cases r.find? name with
  | none => exact .inl rfl
  | some x =>
    dsimp only
    split
    · exact .inl rfl
    · exact .inr rfl

theorem flatMap_active_of_acknowledge {rs rs' : List Registry}
    (h : rs'.map acknowledge = rs.map acknowledge) : rs'.flatMap active = rs.flatMap active := by
  have hactive (rs : List Registry) : rs.flatMap active = (rs.map acknowledge).flatMap active := by
    rw [List.flatMap_map]
    exact List.flatMap_congr fun r _ => (active_acknowledge r).symm
  rw [hactive rs', h, ← hactive]

end Registry

namespace Generator

open Registry (scalarsEach onVectorsEach)

variable {settings : Settings} {storageBits : Nat} {s s' : InContext Generator} {c : Context}
  {g : Generator}

/-- Merging a registry is never refused. -/
theorem merge_grants (r : Registry) :
    Grants (merge r) s (fun _ => True) (fun _ _ => False) fun _ s' =>
      s' = ⟨s.context, { s.item with partitioner := s.item.partitioner.merge r }⟩ := by
  unfold merge
  apply Grants.get_bind
  split
  · exact Grants.bind (.fault trivial) fun _ _ h => h
  · exact change_grants rfl

/-- Registries are merged one after the other. -/
theorem mergeAll_grants (rs : List Registry) :
    Grants (rs.forM merge) s (fun _ => True) (fun _ _ => False) fun _ s' => s' =
      ⟨s.context, { s.item with partitioner := rs.foldl Partitioner.merge s.item.partitioner }⟩ := by
  induction rs generalizing s with
  | nil => rfl
  | cons r rs ih =>
    apply Grants.bind (merge_grants r)
    rintro _ _ rfl
    exact ih

/-- The solvers of a generator into which registries were merged are those of their active
    constraints. -/
theorem rebuildMerged_grants {rs : List Registry} (hids : (rs.map Registry.id).Nodup)
    (hwritten : ∀ r ∈ rs, ∀ x ∈ r.constraints, x.Written c.signature)
    (hg : g.partitioner = rs.foldl Partitioner.merge .empty)
    (hsourced : Sourced settings storageBits ⟨c, g⟩) :
    Grants (rebuild false) ⟨c, g⟩ (fun _ => True) (fun _ _ => False) fun _ s' =>
      s'.context = c ∧ s'.item.registry = g.registry ∧ Ready settings storageBits s' ∧
        s'.item.Current (scalarsEach rs) (onVectorsEach rs) := by
  obtain ⟨hpool, hvectors, hpartitions⟩ := Partitioner.foldl_merge (p := .empty)
    (fun r _ => Std.TreeSet.not_mem_emptyc) hids
  have hsplit : g.partitioner.partition.partitions = partitionPool (scalarsEach rs) := by
    rw [hg, Partitioner.partition, hpool, hpartitions]
    rfl
  have hon : g.partitioner.vectorConstraints = onVectorsEach rs := by
    rw [hg, hvectors]
    rfl
  -- What was merged is written in the registries it comes from.
  have hpooled : ∀ x ∈ scalarsEach rs, x.Written c.signature ∧ x.isVector = false := by
    intro x hx
    obtain ⟨hmem, hscalar⟩ := List.mem_filter.mp hx
    obtain ⟨r, hr, hactive⟩ := List.mem_flatMap.mp hmem
    exact ⟨hwritten r hr x (List.mem_filter.mp hactive).1, by simpa using hscalar⟩
  refine (rebuild_grants False hsourced false rfl hsplit hon hpooled False.elim False.elim
    False.elim).imp (fun _ _ => trivial) (fun _ _ hr => hr) ?_
  rintro _ s' ⟨hready, hcurrent, hcontext, hregistry⟩
  exact ⟨hcontext, hregistry, hready, hcurrent⟩

/-- The solvers have worked on the same problem, and are ready for the next call. -/
structure Continued (settings : Settings) (storageBits : Nat) (s s' : InContext Generator) : Prop
    where
  ready : Ready settings storageBits s'
  same : SameProblem s.item s'.item
  keeps : s.context.Keeps s'.context

/-- The call leaves the solvers ready, whatever happens.  When it answers as wanted, then the values
    satisfy the constraints that the solvers are for. -/
def Operates {α : Type} (act : Generation α) (wanted : α → Prop) : Prop :=
  ∀ {settings : Settings} {storageBits : Nat} {s : InContext Generator}
    {scalars onVectors : List Constraint}, Ready settings storageBits s →
    s.item.registry.changed = false → s.item.Current scalars onVectors →
    Grants act s (fun _ => True) (fun _ s' => Continued settings storageBits s s') fun a s' =>
      Continued settings storageBits s s' ∧
        (wanted a → Satisfied settings.maxVectorSize scalars s'.context)

theorem operates_next : Operates next (· = true) := by
  intro settings storageBits s scalars onVectors hready hunchanged hcurrent
  refine (hready.next_grants False hunchanged hcurrent nofun nofun nofun).imp (fun _ _ => trivial)
    ?_ ?_
  · rintro _ s' ⟨-, hready', hsame, hkeeps⟩
    exact ⟨hready', hsame, hkeeps⟩
  · rintro solved s' ⟨hready', hsame, hkeeps, -, hsatisfied⟩
    exact ⟨⟨hready', hsame, hkeeps⟩, hsatisfied⟩

theorem operates_nextCover : Operates nextCover (· = true) := by
  intro settings storageBits s scalars onVectors hready hunchanged hcurrent
  refine (hready.nextCover_grants hunchanged hcurrent).imp (fun _ hf => hf) ?_ ?_
  · rintro _ s' ⟨hready', hsame, hkeeps⟩
    exact ⟨hready', hsame, hkeeps⟩
  · rintro solved s' ⟨hready', hsame, hkeeps, hsatisfied⟩
    exact ⟨⟨hready', hsame, hkeeps⟩, hsatisfied⟩

/-- Starting coverage over solves nothing. -/
theorem operates_resetCoverage : Operates resetCoverage fun _ => False := by
  intro settings storageBits s scalars onVectors hready hunchanged hcurrent
  unfold resetCoverage
  refine change_bind ?_
  have hready' : Ready settings storageBits ⟨s.context, { s.item with covered := false }⟩ :=
    { hready with }
  refine (rebuildCoverage_grants False hready'.toSourced hready'.separate nofun nofun).imp
    (fun _ _ => trivial) (fun _ _ hr => hr.elim) ?_
  rintro _ _ ⟨coverage, stage, rfl, hsource, hbuilt, hfiled⟩
  refine ⟨⟨?_, ⟨rfl, rfl, fun _ => .rfl⟩, .refl _⟩, False.elim⟩
  exact { hready' with
    coverageSource := hsource
    coverage := hbuilt
    coverageVectors := hfiled }

end Generator

namespace RandObject

open Generator (Continued Operates Fresh Satisfied create_fresh operates_next operates_nextCover
  operates_resetCoverage)
open Registry (scalarsEach onVectorsEach)

/-! ## §2 The generator of an object -/

/-- The generator has solvers for the active constraints of the tree, which are ready. -/
structure Serves (g : Generator) (o : RandObject) (c : Context) : Prop where
  unchanged : g.registry.changed = false
  ready : ∃ settings storageBits, Generator.Ready settings storageBits ⟨c, g⟩
  current : g.Current (scalarsEach o.registries) (onVectorsEach o.registries)

/-- As long as nothing in the tree has changed, the generator of the object serves it, if there is
    one. -/
def UpToDate (o : RandObject) (c : Context) : Prop :=
  o.isDirty = false → ∀ g, o.core.generator = some g → Serves g o c

/-- The values satisfy the active hard constraints of the tree, as far as they are on scalars. -/
def Fulfilled (o : RandObject) (c : Context) : Prop :=
  ∀ r ∈ o.registries, ∀ x ∈ r.active, x.isHard = true → x.isVector = false → x.expr.Holds c.bits

section

variable {α : Type} {o o' t : RandObject} {c c' : Context} {g g' : Generator}
  {s s' : InContext RandObject} {core core' : ObjectCore} {children : List RandObject}

theorem Serves.becomes (h : Serves g o c) (hbecomes : c.Becomes c') : Serves g o c' := by
  obtain ⟨settings, storageBits, hready⟩ := h.ready
  have hc := hready.wellFormed
  exact ⟨h.unchanged, ⟨settings, storageBits,
    hready.grows (hbecomes.wellFormed hc) (hbecomes.grows hc)⟩, h.current⟩

/-- Only what is active in the tree matters. -/
theorem Serves.same (h : Serves g o c)
    (hactive : o'.registries.flatMap Registry.active = o.registries.flatMap Registry.active) :
    Serves g o' c := by
  refine ⟨h.unchanged, h.ready, ?_⟩
  unfold scalarsEach onVectorsEach
  rw [hactive]
  exact h.current

theorem UpToDate.becomes (h : o.UpToDate c) (hbecomes : c.Becomes c') : o.UpToDate c' :=
  fun hclean g hg => (h hclean g hg).becomes hbecomes

/-- What was solved is all that is active. -/
theorem fulfilled_of_satisfied {max : Nat} (h : Satisfied max (scalarsEach o.registries) c) :
    o.Fulfilled c := by
  intro r hr x hx hhard hscalar
  refine h.hards x (List.mem_filter.mpr ⟨List.mem_flatMap.mpr ⟨r, hr, hx⟩, ?_⟩) hhard
  simpa using hscalar

theorem Fulfilled.same (h : o.Fulfilled c)
    (hactive : o'.registries.flatMap Registry.active = o.registries.flatMap Registry.active) :
    o'.Fulfilled c := by
  intro r hr x hx
  have hmem : x ∈ o'.registries.flatMap Registry.active := List.mem_flatMap.mpr ⟨r, hr, hx⟩
  rw [hactive] at hmem
  obtain ⟨q, hq, hx⟩ := List.mem_flatMap.mp hmem
  exact h q hq x hx

/-- A solve changes nothing about what is active. -/
theorem Aside.flatMap_active (h : Aside ObjectCore.skeleton s s') :
    s'.item.registries.flatMap Registry.active = s.item.registries.flatMap Registry.active := by
  refine Registry.flatMap_active_of_acknowledge ?_
  have hcores := congrArg (List.map ObjectCore.registry) (cores_of_same h.same)
  rw [List.map_map, List.map_map] at hcores
  rw [registries_eq, registries_eq, List.map_map, List.map_map]
  exact hcores

/-! ## §3 Getting a generator -/

/-- The registries of the tree are merged into a generator that was just made. -/
theorem newGenerator_grants (settings : Settings) (hc : s.context.WellFormed) :
    Grants (newGenerator settings) s (fun _ => True) (fun _ _ => False) fun g s' =>
      s'.item = s.item ∧ s.context.Keeps s'.context ∧ g.registry.changed = false ∧
        g.partitioner = s.item.registries.foldl Partitioner.merge .empty ∧
          Generator.Sourced settings settings.storageBits ⟨s'.context, g⟩ := by
  have hcreate : Ensures (Generator.create settings) s.context (fun _ => True) fun g c =>
      s.context.Keeps c ∧ g.Fresh ∧ ∀ source ∈ g.sources,
        (SolverSource.ofSettings settings settings.storageBits).Alike source :=
    create_fresh s.context
  unfold newGenerator
  apply Grants.get_bind
  apply Grants.ofExcept_bind hcreate
  rintro ⟨g, c⟩ ⟨hkeeps, hfresh, hsources⟩
  apply Grants.modify_bind
  apply Grants.get_bind
  have hmerge := withGenerator_grants (s := ⟨c, s.item⟩)
    (Generator.mergeAll_grants (s := ⟨c, g⟩) s.item.registries)
  refine Grants.bind (hmerge.imp_refusal fun _ _ ⟨_, _, hr⟩ => hr) ?_
  rintro ⟨u, g'⟩ s' ⟨hitem, heq⟩
  obtain ⟨rfl, rfl⟩ := InContext.mk.inj heq
  refine .pure ⟨hitem, hkeeps, hfresh.unchanged, by rw [← hfresh.partitioner], ?_⟩
  -- A new generator has only what was merged, and its sources are those of the object.
  exact {
    wellFormed := hkeeps.wellFormed hc
    plainSource := hsources _ (by simp [Generator.sources])
    vectorSource := hsources _ (by simp [Generator.sources])
    coverageSource := hsources _ (by simp [Generator.sources]) }

/-- Random values for the members. -/
theorem preRandomize_grants (hrandom : s.item.MembersRandom s.context) :
    Grants preRandomize s (fun _ => True) (fun _ _ => False) fun _ s' =>
      s'.item.undrawn = s.item.undrawn ∧ s.context.Becomes s'.context ∧
        s.context.Keeps s'.context := by
  have hscatter := scatter_ends s.context s.item
  unfold Grants preRandomize
  cases hrun : s.item.scatter s.context with
  | error fault => trivial
  | ok r =>
    obtain ⟨hsame, hbecomes⟩ := hscatter.of_ok hrun
    exact ⟨hsame, hbecomes hrandom⟩

theorem flatMap_active_markClean (o : RandObject) :
    o.markClean.registries.flatMap Registry.active = o.registries.flatMap Registry.active := by
  refine Registry.flatMap_active_of_acknowledge ?_
  rw [registries_eq, registries_eq, markClean_eq, subtrees_mapCores, List.map_map, List.map_map,
    List.map_map]
  refine List.map_congr_left fun t _ => ?_
  simp [Registry.acknowledge]

theorem Kept.written_of_mem (h : o.Kept c) {r : Registry} (hr : r ∈ o.registries) :
    ∀ x ∈ r.constraints, x.Written c.signature := by
  rw [registries_eq] at hr
  obtain ⟨t, ht, rfl⟩ := List.mem_map.mp hr
  exact (h t ht).written

/-- The object has a generator, which serves it. -/
def Served (s : InContext RandObject) : Prop :=
  ∃ g, s.item.core.generator = some g ∧ Serves g s.item s.context

theorem Served.upToDate (h : Served s) : s.item.UpToDate s.context := by
  obtain ⟨g, hg, hserves⟩ := h
  intro _ g' hg'
  cases hg.symm.trans hg'
  exact hserves

/-- A rebuild makes a generator that serves the object. -/
theorem rebuild_grants (hsound : s.item.Sound s.context) :
    Grants rebuild s (fun _ => True) (fun _ _ => False) fun _ s' => Served s' := by
  unfold RandObject.rebuild
  apply Grants.get_bind
  apply Grants.bind (newGenerator_grants _ hsound.wellFormed)
  rintro g ⟨c₁, o₁⟩ ⟨hitem, hkeeps, hunchanged, hg, hsourced⟩
  cases hitem
  apply Grants.modify_bind
  -- The marks go before the solvers are built, but the constraints were merged before that.
  have hwritten : ∀ r ∈ s.item.registries, ∀ x ∈ r.constraints, x.Written c₁.signature :=
    fun r hr x hx => (hsound.kept.written_of_mem hr x hx).mono hkeeps.grows.signature
  have hrebuild := withGenerator_grants (s := ⟨c₁, s.item.markClean⟩)
    (Generator.rebuildMerged_grants hsound.taken.nodup hwritten hg hsourced)
  refine Grants.bind (hrebuild.imp_refusal fun _ _ ⟨_, _, hr⟩ => hr.elim) ?_
  rintro ⟨u, g'⟩ ⟨c₂, o₂⟩ ⟨hitem, hcontext, hregistry, hready, hcurrent⟩
  cases hitem
  cases hcontext
  apply Grants.modify
  have hserves : Serves g' s.item c₁ :=
    ⟨hregistry ▸ hunchanged, ⟨_, _, hready⟩, hcurrent⟩
  refine ⟨g', core_mapCore ▸ rfl, hserves.same ?_⟩
  rw [registries_mapCore rfl]
  exact flatMap_active_markClean s.item

/-- Before a solve the object gets a generator that serves it, unless it has one. -/
theorem prepare_grants (hsound : s.item.Sound s.context) (h : s.item.UpToDate s.context) :
    Grants prepare s (fun _ => True) (fun _ _ => False) fun _ s' => Served s' := by
  -- Scattering writes to the variables, and leaves the generator and its constraints.
  have hscatter {s₁ : InContext RandObject} (haside : Aside ObjectCore.skeleton s s₁)
      (hserved : Served s₁) :
      Grants preRandomize s₁ (fun _ => True) (fun _ _ => False) fun _ s' => Served s' := by
    obtain ⟨hc, hkept, -⟩ := hsound
    have hrandom : s₁.item.MembersRandom s₁.context :=
      view_skeleton.membersRandom haside.same hkept.membersRandom
        ((haside.becomes hc hkept.membersRandom).grows hc)
    apply (preRandomize_grants hrandom).mono
    rintro _ s' ⟨hsame, hbecomes, -⟩
    obtain ⟨g, hg, hserves⟩ := hserved
    obtain ⟨hregistries, -, hgenerator⟩ := same_of_undrawn hsame
    exact ⟨g, hgenerator.trans hg, (hserves.becomes hbecomes).same (by rw [hregistries])⟩
  unfold prepare
  apply Grants.get_bind
  dsimp only
  split
  · have hrebuild := (rebuild_grants hsound).and (rebuild_aside s (.refl _ s))
    refine Grants.bind (hrebuild.imp (fun _ _ => trivial) (fun _ _ hr => hr.1) fun _ _ hq => hq) ?_
    rintro _ s₁ ⟨hserved, haside⟩
    exact hscatter haside hserved
  · rename_i hchanged
    simp only [Bool.or_eq_true, not_or, Bool.not_eq_true, Option.isNone_eq_false_iff,
      Option.isSome_iff_exists] at hchanged
    obtain ⟨⟨g, hg⟩, hclean⟩ := hchanged
    -- Nothing is marked, so the generator that is there still serves.
    exact hscatter (.refl _ s) ⟨g, hg, h hclean g hg⟩

/-! ## §4 Solving -/

/-- What the generator of an object delivers is granted by the object. -/
theorem useGenerator_grants {act : Generation α} {wanted : α → Prop} (hact : Operates act wanted)
    (h : Served s) :
    Grants (useGenerator act) s (fun _ => True) (fun _ s' => Served s') fun a s' =>
      Served s' ∧ ∀ b, a = some b → wanted b → s'.item.Fulfilled s'.context := by
  obtain ⟨g, hg, hunchanged, ⟨settings, storageBits, hready⟩, hcurrent⟩ := h
  have hoperates := hact hready hunchanged hcurrent
  obtain ⟨c, ⟨core, children⟩⟩ := s
  obtain ⟨name, home, own, registry, members, generator, rng, stale⟩ := core
  cases hg
  unfold Grants useGenerator
  dsimp only
  -- The generator keeps its problem, whatever the operation answers.
  have hserved {c' : Context} {g' : Generator}
      (hcontinued : Continued settings storageBits ⟨c, g⟩ ⟨c', g'⟩) :
      Served ⟨c', node ⟨name, home, own, registry, members, some g', rng, stale⟩ children⟩ :=
    ⟨g', rfl, hcontinued.same.registry_eq ▸ hunchanged, ⟨_, _, hcontinued.ready⟩,
      hcurrent.same hcontinued.same⟩
  cases hrun : act ⟨c, g⟩ with
  | error fault => trivial
  | ok r =>
    obtain ⟨refusal | a, c', g'⟩ := r
    · exact hserved (hoperates.of_refusal hrun)
    · obtain ⟨hcontinued, hsatisfied⟩ := hoperates.of_run hrun
      refine ⟨hserved hcontinued, ?_⟩
      rintro b hb hwanted
      cases hb
      exact fulfilled_of_satisfied (hsatisfied hwanted)

/-- A solve of an object whose generator is up to date leaves it so, and when it succeeds, then the
    values satisfy the constraints of the tree. -/
theorem solve_grants {act : Generation Bool} (hact : Operates act (· = true))
    (hsound : s.item.Sound s.context) (h : s.item.UpToDate s.context) :
    Grants (do prepare; return (← useGenerator act).getD false) s (fun _ => True)
      (fun _ s' => Served s') fun solved s' =>
        Served s' ∧ (solved = true → s'.item.Fulfilled s'.context) := by
  refine Grants.bind (prepare_grants hsound h).unrefused ?_
  rintro _ s₁ hserved
  apply Grants.bind (useGenerator_grants hact hserved)
  rintro a s' ⟨hserved', hfulfilled⟩
  refine .pure ⟨hserved', fun hsolved => ?_⟩
  cases a with
  | none => cases hsolved
  | some solved => exact hfulfilled solved rfl hsolved

/-- A call that uses the generator of the object. -/
inductive Solve : {α : Type} → Objective α → Prop where
  | next : Solve next
  | tryNext : Solve tryNext
  | nextCover : Solve nextCover
  | resetCoverage : Solve resetCoverage

theorem next_grants (hsound : s.item.Sound s.context) (h : s.item.UpToDate s.context) :
    Grants next s (fun _ => True) (fun _ s' => Served s') fun solved s' =>
      Served s' ∧ (solved = true → s'.item.Fulfilled s'.context) :=
  solve_grants operates_next hsound h

theorem nextCover_grants (hsound : s.item.Sound s.context) (h : s.item.UpToDate s.context) :
    Grants nextCover s (fun _ => True) (fun _ s' => Served s') fun solved s' =>
      Served s' ∧ (solved = true → s'.item.Fulfilled s'.context) :=
  solve_grants operates_nextCover hsound h

theorem useGenerator_none {act : Generation α} (h : s.item.core.generator = none) :
    useGenerator act s = .ok (.ok none, s) := by
  obtain ⟨c, ⟨core, children⟩⟩ := s
  obtain ⟨name, home, settings, registry, members, generator, rng, stale⟩ := core
  cases h
  rfl

/-- The object changes its generator alone. -/
theorem useGenerator_leaves (act : Generation α) : Leaves (useGenerator act) s fun s' =>
    ∃ generator, s'.item = s.item.mapCore fun core => { core with generator := generator } := by
  obtain ⟨c, ⟨core, children⟩⟩ := s
  obtain ⟨name, home, settings, registry, members, generator, rng, stale⟩ := core
  unfold Leaves Grants useGenerator
  dsimp only
  cases generator with
  | none => exact ⟨none, rfl⟩
  | some g =>
    dsimp only
    cases act ⟨c, g⟩ with
    | error fault => trivial
    | ok r =>
      obtain ⟨refusal | a, c', g'⟩ := r
      · exact ⟨some g', rfl⟩
      · exact ⟨some g', rfl⟩

theorem resetCoverage_upToDate (h : s.item.UpToDate s.context) :
    Leaves resetCoverage s fun s' => s'.item.UpToDate s'.context := by
  unfold RandObject.resetCoverage
  refine Leaves.bind ?_ fun _ => .pure _
  by_cases hdirty : s.item.isDirty = true
  · -- The generator may be of no use, but the object is still marked.
    refine Leaves.imp (useGenerator_leaves _) ?_
    rintro s' ⟨generator, hitem⟩ hclean
    rw [hitem, isDirty_mapCore rfl rfl, hdirty] at hclean
    cases hclean
  · cases hg : s.item.core.generator with
    | none =>
      unfold Leaves Grants
      rw [useGenerator_none hg]
      exact h
    | some g =>
      have hserved : Served s := ⟨g, hg, h (by simpa using hdirty) g hg⟩
      exact (useGenerator_grants operates_resetCoverage hserved).imp (fun _ hf => hf)
        (fun _ _ hr => hr.upToDate) fun _ _ hq => hq.1.upToDate

/-- Whatever the answer of a solve is, the generator of the object is up to date after it. -/
theorem Solve.upToDate {act : Objective α} (hact : Solve act) (hsound : s.item.Sound s.context)
    (h : s.item.UpToDate s.context) : Leaves act s fun s' => s'.item.UpToDate s'.context := by
  have hnext : Leaves RandObject.next s fun s' => s'.item.UpToDate s'.context :=
    (next_grants hsound h).imp (fun _ hf => hf) (fun _ _ hr => hr.upToDate)
      fun _ _ hq => hq.1.upToDate
  cases hact with
  | next => exact hnext
  | tryNext =>
    unfold RandObject.tryNext
    refine hnext.bind fun solved => ?_
    cases solved with
    | false => exact .throw _
    | true => exact .pure _
  | nextCover =>
    exact (nextCover_grants hsound h).imp (fun _ hf => hf) (fun _ _ hr => hr.upToDate)
      fun _ _ hq => hq.1.upToDate
  | resetCoverage => exact resetCoverage_upToDate h

/-- A solve that succeeds satisfies the constraints of the tree, if the generator of the object is
up to date. -/
theorem UpToDate.fulfilled (h : s.item.UpToDate s.context) (hsound : s.item.Sound s.context)
    {act : Objective Bool} (hact : act = next ∨ act = nextCover) (hrun : act s = .ok (.ok true, s')) :
    s.item.Fulfilled s'.context := by
  rcases hact with rfl | rfl
  · have hfulfilled := ((next_grants hsound h).of_run hrun).2 rfl
    exact hfulfilled.same ((next_aside s (.refl _ s)).of_run hrun).flatMap_active.symm
  · have hfulfilled := ((nextCover_grants hsound h).of_run hrun).2 rfl
    exact hfulfilled.same ((nextCover_aside s (.refl _ s)).of_run hrun).flatMap_active.symm

/-- A solve that rebuilds satisfies the constraints of the tree, wherever the object stands and
    whatever was done before. -/
theorem fulfilled_of_changed (hstands : s.item.Stands s.context)
    (hchanged : s.item.core.generator = none ∨ s.item.isDirty = true) {act : Objective Bool}
    (hact : act = next ∨ act = nextCover) (hrun : act s = .ok (.ok true, s')) :
    s.item.Fulfilled s'.context := by
  refine UpToDate.fulfilled ?_ hstands.sound hact hrun
  intro hclean g hg
  rcases hchanged with hnone | hdirty
  · cases hnone.symm.trans hg
  · cases hdirty.symm.trans hclean

/-! ## §5 What solves leave below the object -/

/-- The generators of the objects below the object. -/
def generatorsBelow (o : RandObject) : List (Option Generator) :=
  (o.children.flatMap subtrees).map fun t => t.core.generator

theorem generatorsBelow_mapCore {f : ObjectCore → ObjectCore} :
    (o.mapCore f).generatorsBelow = o.generatorsBelow := by
  cases o
  rfl

theorem generatorsBelow_mapCores {f : ObjectCore → ObjectCore}
    (h : ∀ core, (f core).generator = core.generator) :
    (o.mapCores f).generatorsBelow = o.generatorsBelow := by
  obtain ⟨core, children⟩ := o
  rw [mapCores_node]
  show ((children.map (mapCores f)).flatMap subtrees).map _ = (children.flatMap subtrees).map _
  rw [List.flatMap_map, List.map_flatMap, List.map_flatMap]
  refine List.flatMap_congr fun t _ => ?_
  rw [subtrees_mapCores, List.map_map]
  exact List.map_congr_left fun u _ => by rw [Function.comp_apply, core_mapCores, h]

theorem generatorsBelow_of_undrawn (h : o'.undrawn = o.undrawn) :
    o'.generatorsBelow = o.generatorsBelow := by
  have hbelow (o : RandObject) : o.undrawn.generatorsBelow = o.generatorsBelow :=
    generatorsBelow_mapCores fun _ => rfl
  rw [← hbelow o', h, hbelow]

/-- Nothing in the tree is marked, and the generators below the object are those that were there
    before. -/
structure Lulls (o o' : RandObject) : Prop where
  clean : o'.isDirty = false
  generators : o'.generatorsBelow = o.generatorsBelow

theorem Lulls.undrawn {o₁ o₂ : RandObject} (h : Lulls o o₁) (hsame : o₂.undrawn = o₁.undrawn) :
    Lulls o o₂ :=
  ⟨(same_of_undrawn hsame).2.1.trans h.clean,
    (generatorsBelow_of_undrawn hsame).trans h.generators⟩

theorem Lulls.withGenerator (h : Lulls o o') (generator : Option Generator) :
    Lulls o (o'.mapCore fun core => { core with generator := generator }) :=
  ⟨(isDirty_mapCore rfl rfl).trans h.clean, generatorsBelow_mapCore.trans h.generators⟩

theorem lulls_markClean (o : RandObject) : Lulls o o.markClean := by
  refine ⟨isDirty_markClean o, ?_⟩
  rw [markClean_eq]
  exact generatorsBelow_mapCores fun _ => rfl

theorem rebuild_lulls : Grants rebuild s (fun _ => True) (fun _ _ => True) fun _ s' =>
    Lulls s.item s'.item := by
  unfold RandObject.rebuild
  apply Grants.get_bind
  have hnew := view_undrawn.newGenerator s.item.core.settings s (.refl _ s)
  refine (Grants.imp hnew (fun _ hf => hf) (fun _ _ _ => trivial) fun _ _ hq => hq).bind ?_
  rintro g s₁ ⟨hsame₁, -⟩
  apply Grants.modify_bind
  have hrebuild := view_undrawn.withGenerator g (Generator.lenient_rebuild false)
    ⟨s₁.context, s₁.item.markClean⟩ (.refl _ _)
  refine (Grants.imp hrebuild (fun _ hf => hf) (fun _ _ _ => trivial) fun _ _ hq => hq).bind ?_
  rintro ⟨u, g'⟩ s₂ ⟨hsame₂, -⟩
  apply Grants.modify
  obtain ⟨hclean, hgenerators⟩ := lulls_markClean s₁.item
  have hlulls : Lulls s.item s₁.item.markClean :=
    ⟨hclean, hgenerators.trans (generatorsBelow_of_undrawn hsame₁)⟩
  exact (hlulls.undrawn hsame₂).withGenerator (some g')

theorem prepare_lulls : Grants prepare s (fun _ => True) (fun _ _ => True) fun _ s' =>
    Lulls s.item s'.item := by
  have hscatter {s₁ : InContext RandObject} (hlulls : Lulls s.item s₁.item) :
      Grants preRandomize s₁ (fun _ => True) (fun _ _ => True) fun _ s' =>
        Lulls s.item s'.item :=
    Grants.imp (view_undrawn.preRandomize s₁ (.refl _ s₁)) (fun _ hf => hf) (fun _ _ _ => trivial)
      fun _ _ haside => hlulls.undrawn haside.same
  unfold prepare
  apply Grants.get_bind
  dsimp only
  split
  · exact rebuild_lulls.bind fun _ _ hlulls => hscatter hlulls
  · rename_i hchanged
    simp only [Bool.or_eq_true, not_or, Bool.not_eq_true] at hchanged
    exact hscatter ⟨hchanged.2, rfl⟩

theorem solve_lulls (act : Generation Bool) :
    Grants (do prepare; return (← useGenerator act).getD false) s (fun _ => True) (fun _ _ => True)
      fun _ s' => Lulls s.item s'.item := by
  refine prepare_lulls.bind fun _ s₁ hlulls => ?_
  refine (Grants.imp (useGenerator_leaves act) (fun _ hf => hf) (fun _ _ _ => trivial)
    fun _ _ hq => hq).bind ?_
  rintro a s₂ ⟨generator, hitem⟩
  exact .pure (hitem ▸ hlulls.withGenerator generator)

/-- A solve that is answered takes away all marks of the tree.  But below the object it leaves the
    generators that were there before, whether they are up to date or not. -/
theorem lulls_of_answered {act : Objective Bool} (hact : act = next ∨ act = nextCover)
    {solved : Bool} (hrun : act s = .ok (.ok solved, s')) : Lulls s.item s'.item := by
  rcases hact with rfl | rfl
  · exact (solve_lulls Generator.next).of_run hrun
  · exact (solve_lulls Generator.nextCover).of_run hrun

end

end RandObject

end Stimulus
