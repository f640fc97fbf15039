import Stimulus.Proofs.Generator.Solve

/-!
# Runs of generators

A run of a generator is any sequence of calls: constraints are added and switched, the generator
solves, and between the calls anybody may change the context.  What holds of a generator at any
time is kept by every call, so it holds in every run.

Main definitions:
- `Generator.Call`, `Generator.Reached`: the calls and the runs of a generator
- `Generator.started`: a run in which constraints are added

Main statements:
- `Generator.Founded.call`
- `Generator.Reached.founded`
-/

namespace Stimulus

open Relation

/-! ## §1 Adding and switching constraints -/

/-- The expression is written with variables of the context, or it is about vectors. -/
def Context.Writes (c : Context) (e : Expr) : Prop :=
  e.mentionsVector = false → c.signature.Admits e

namespace Registry

/-- Without objections an expression is about a whole vector or about no vector at all. -/
theorem mentionsVector_of_objection? {e : Expr} {soft cover : Bool}
    (h : objection? e soft cover = none) (he : e.isVectorConstraint = false) :
    e.mentionsVector = false := by
  unfold objection? at h
  split at h
  · cases h
  · rw [if_neg (by simp [he])] at h
    split at h
    · cases h
    · rename_i hmentions
      simpa using hmentions

/-- Without objections a constraint on a whole vector is about a single one. -/
theorem size_of_objection? {e : Expr} {soft cover : Bool}
    (h : objection? e soft cover = none) (he : e.isVectorConstraint = true) :
    e.support.size = 1 := by
  unfold objection? at h
  split at h
  · cases h
  · split at h
    · cases h
    · split at h
      · cases h
      · rename_i hsize
        simpa using hsize

/-- The registry has one constraint more, which is as it was written and has a name of its own. -/
structure Adds (c : Context) (r : Registry) (e : Expr) (x : Constraint)
    (s : InContext Registry) : Prop where
  keeps : c.Keeps s.context
  expr_eq : x.expr = e
  support_eq : x.support = e.support
  scalar : e.isVectorConstraint = false → e.mentionsVector = false
  single : e.isVectorConstraint = true → e.support.size = 1
  fresh : r.has x.name = false
  item_eq : s.item = { r with constraints := r.constraints ++ [x], changed := true }

/-- A constraint is added, or the registry stays as it is. -/
theorem make_grants {c : Context} {r : Registry} {E : Fault → Prop} (name : Option String)
    (e : Expr) (soft cover : Bool) :
    Grants (make name e soft cover) ⟨c, r⟩ E (fun _ s' => c.Keeps s'.context ∧ s'.item = r)
      fun x s' => Adds c r e x s' := by
  unfold make
  extract_lets last rest
  -- Past the checks an id is taken, and it stays taken if the default name is refused.
  have hlast (hobjection : objection? e soft cover = none) :
      Grants (last ()) ⟨c, r⟩ E (fun _ s' => c.Keeps s'.context ∧ s'.item = r)
        fun x s' => Adds c r e x s' := by
    have htaken := Context.keeps_takeConstraintId c
    dsimp only [last]
    have htake : Grants (InContext.useContext Context.takeConstraintId) ⟨c, r⟩ E
        (fun _ s' => c.Keeps s'.context ∧ s'.item = r)
        fun _ s' => s' = ⟨(Context.takeConstraintId c).2, r⟩ := rfl
    refine htake.bind ?_
    rintro id _ rfl
    refine .get_bind ?_
    split
    · exact .bind (.throw ⟨htaken, rfl⟩) fun _ _ h => h
    · rename_i hfresh
      exact .modify_bind (.pure ⟨htaken, rfl, rfl, mentionsVector_of_objection? hobjection,
        size_of_objection? hobjection, by simpa using hfresh, rfl⟩)
  have hrest : Grants (rest ()) ⟨c, r⟩ E (fun _ s' => c.Keeps s'.context ∧ s'.item = r)
      fun x s' => Adds c r e x s' := by
    dsimp only [rest]
    cases hobjection : objection? e soft cover with
    | some reason => exact Grants.bind (.throw ⟨.refl c, rfl⟩) fun _ _ h => h
    | none => exact hlast hobjection
  split
  · refine .get_bind ?_
    split
    · exact .bind (.throw ⟨.refl c, rfl⟩) fun _ _ h => h
    · exact hrest
  · exact hrest

end Registry

/-! ## §2 Runs -/

/-- A context that anybody can come by: every change of an empty context. -/
def Context.Reached (c : Context) : Prop :=
  ∃ identity entropy, ReflTransGen Changes (empty identity entropy) c

theorem Context.Reached.wellFormed {c : Context} (h : c.Reached) : c.WellFormed := by
  obtain ⟨identity, entropy, hsteps⟩ := h
  induction hsteps with
  | refl => exact wellFormed_empty identity entropy
  | tail _ hstep ih => exact hstep.wellFormed ih

namespace Generator

/-- One call of a generator, or a change of its context between two calls.  A call may be refused,
    but it may not be stopped by a fault. -/
inductive Call : InContext Generator → InContext Generator → Prop where
  | change {c c' : Context} (g : Generator) (h : c.Changes c') : Call ⟨c, g⟩ ⟨c', g⟩
  | add {s s' : InContext Generator} {kind : Kind} {name : Option String} {e : Expr}
      {r : Except Refusal Unit} (he : s.context.Writes e) (h : add kind name e s = .ok (r, s')) :
      Call s s'
  | setEnabled (c : Context) (g : Generator) (name : String) (enabled : Bool) :
      Call ⟨c, g⟩ ⟨c, (g.setEnabled name enabled).2⟩
  | next {s s' : InContext Generator} {r : Except Refusal Bool} (h : next s = .ok (r, s')) :
      Call s s'
  | nextCover {s s' : InContext Generator} {r : Except Refusal Bool}
      (h : nextCover s = .ok (r, s')) : Call s s'
  | resetCoverage {s s' : InContext Generator} {r : Except Refusal Unit}
      (h : resetCoverage s = .ok (r, s')) : Call s s'

/-- The runs of a generator with given settings: it is made in some context, and then called. -/
inductive Reached (settings : Settings) (storageBits : Nat) : InContext Generator → Prop where
  | create {c c' : Context} {g : Generator} (hc : c.Reached)
      (h : create settings storageBits c = .ok (g, c')) : Reached settings storageBits ⟨c', g⟩
  | call {s s' : InContext Generator} (hs : Reached settings storageBits s) (h : Call s s') :
      Reached settings storageBits s'

section

variable {settings : Settings} {storageBits : Nat} {s s' : InContext Generator}

/-- A new stage has no solvers, and its words do not run out. -/
theorem createStage_ends (source : SolverSource) : Ends (VectorStage.create source)
    (fun _ => True) fun stage =>
      source.Alike stage.source ∧ stage.solvers = ∅ ∧ stage.rng.Endless := by
  refine Ends.bind (SolverSource.nextSeed_ensures.imp (fun _ _ => trivial) fun _ _ h => h) ?_
  rintro ⟨seed, source'⟩ hsource
  exact ⟨hsource, rfl, Stream.endless_of_cipher rfl⟩

/-- A generator that was just made. -/
structure Fresh (g : Generator) : Prop where
  unchanged : g.registry.changed = false
  constraints : g.registry.constraints = []
  partitioner : g.partitioner = .empty
  plain : g.plain.solvers = []
  vectors : g.vectors.solvers = ∅
  coverage : g.coverage.solvers = []
  coverageVectors : g.coverageVectors.solvers = ∅
  endless : g.vectors.rng.Endless

/-- The sources of solvers and seeds that the parts of a generator have. -/
def sources (g : Generator) : List SolverSource :=
  [g.plain.source, g.vectors.source, g.coverage.source, g.coverageVectors.source]

/-- A new generator has nothing but sources, which all make solvers as the settings say. -/
theorem create_fresh (c : Context) :
    Ensures (create settings storageBits) c (fun _ => True) fun g c' =>
      c.Keeps c' ∧ g.Fresh ∧
        ∀ source ∈ g.sources, (SolverSource.ofSettings settings storageBits).Alike source := by
  have hfork (source : SolverSource) : Ends (SolverSource.fork source) (fun _ => True)
      fun p => source.Alike p.1 ∧ source.Alike p.2 :=
    (SolverSource.fork_ensures (s := source)).imp (fun _ _ => trivial) fun _ _ h => h
  unfold Ensures create
  -- Four sources are forked one after the other, each of the settings of the one before.
  refine Ends.bind (hfork _) ?_
  rintro ⟨plain, source₁⟩ ⟨hplain, h₁⟩
  refine Ends.bind (hfork _) ?_
  rintro ⟨vectors, source₂⟩ ⟨hvectors, h₂⟩
  refine Ends.bind (hfork _) ?_
  rintro ⟨coverage, source₃⟩ ⟨hcoverage, h₃⟩
  refine Ends.bind (hfork _) ?_
  rintro ⟨coverageVectors, source₄⟩ ⟨hcoverageVectors, -⟩
  refine Ends.bind (createStage_ends vectors) ?_
  rintro stage ⟨hstage, hsolvers, hrng⟩
  refine Ends.bind (createStage_ends coverageVectors) ?_
  rintro coverageStage ⟨hcoverageStage, hcoverageSolvers, -⟩
  refine ⟨(Context.keeps_takeEntropy c).trans (Context.keeps_takeConstraintId _),
    ⟨rfl, rfl, rfl, rfl, hsolvers, rfl, hcoverageSolvers, hrng⟩, ?_⟩
  -- Entropy decides the seeds alone, not what the solvers that are made look like.
  have h₀ : (SolverSource.ofSettings settings storageBits).Alike
      (.ofSettings settings storageBits (c.entropy 0)) := ⟨rfl, rfl⟩
  intro source hsource
  simp only [sources, List.mem_cons, List.not_mem_nil, or_false] at hsource
  rcases hsource with rfl | rfl | rfl | rfl
  · exact h₀.trans hplain
  · exact h₀.trans ((h₁.trans hvectors).trans hstage)
  · exact h₀.trans ((h₁.trans h₂).trans hcoverage)
  · exact h₀.trans (((h₁.trans h₂).trans h₃).trans (hcoverageVectors.trans hcoverageStage))

/-- A new generator has neither constraints nor partitions. -/
theorem create_ensures {c : Context} (hc : c.WellFormed) :
    Ensures (create settings storageBits) c (fun _ => True) fun g c' =>
      c.Keeps c' ∧ Founded settings storageBits ⟨c', g⟩ ∧ g.Fresh := by
  apply (create_fresh c).mono
  rintro g c' ⟨hkeeps, hfresh, hsources⟩
  have hfiled {stage : VectorStage} (h : stage.solvers = ∅) : VectorStage.Filed stage.solvers :=
    fun id solver hid => by simp [h] at hid
  have hempty : partitionPool [] = [] := by rw [partitionPool]
  have hpartitions : g.partitioner.partitions = [] := by rw [hfresh.partitioner]; rfl
  have hscalars : g.registry.scalars = [] := by
    simp [Registry.scalars, Registry.active, hfresh.constraints]
  refine ⟨hkeeps, ?_, hfresh⟩
  -- There is nothing to keep true yet, apart from the sources and the context.
  exact {
    wellFormed := hkeeps.wellFormed hc
    plainSource := hsources _ (by simp [sources])
    vectorSource := hsources _ (by simp [sources])
    coverageSource := hsources _ (by simp [sources])
    written := by simp [hfresh.constraints]
    separate := by rw [hpartitions]; exact ⟨by simp, .nil⟩
    plain := by rw [hpartitions, hfresh.plain]; exact .nil
    coverage := by rw [hpartitions, hfresh.coverage]; exact .nil
    vectors := hfiled hfresh.vectors
    coverageVectors := hfiled hfresh.coverageVectors
    current := fun _ => ⟨by rw [hpartitions, hscalars, hempty], fun _ id hid =>
      Std.TreeMap.not_mem_emptyc (hfresh.vectors ▸ hid)⟩ }

theorem useRegistry_grants {α : Type} {E : Fault → Prop}
    {act : Request (InContext Registry) α} {R : Refusal → InContext Registry → Prop}
    {Q : α → InContext Registry → Prop} (h : Grants act ⟨s.context, s.item.registry⟩ E R Q) :
    Grants (useRegistry act) s E
      (fun r s' => ∃ t, s' = ⟨t.context, { s.item with registry := t.item }⟩ ∧ R r t)
      fun a s' => ∃ t, s' = ⟨t.context, { s.item with registry := t.item }⟩ ∧ Q a t := by
  refine grants_focus (fun t : InContext Registry =>
    (⟨t.context, { s.item with registry := t.item }⟩ : InContext Generator)) ?_ h
  obtain ⟨c, g⟩ := s
  unfold useRegistry
  dsimp only
  cases act ⟨c, g.registry⟩ <;> rfl

/-- The constraints of a registry that counts as changed do not matter for the solvers. -/
theorem Founded.withRegistry (h : Founded settings storageBits s) {r : Registry}
    (hwritten : ∀ x ∈ r.constraints, x.Written s.context.signature) (hchanged : r.changed = true) :
    Founded settings storageBits ⟨s.context, { s.item with registry := r }⟩ :=
  { h with
    written := hwritten
    current := fun hc => by rw [hchanged] at hc; cases hc }

/-- An added constraint is written over the declared variables. -/
theorem Founded.add (h : Founded settings storageBits s) {e : Expr} (he : s.context.Writes e)
    (kind : Kind) (name : Option String) :
    Grants (add kind name e) s (fun _ => True)
      (fun _ s' => s.context.Keeps s'.context ∧ Founded settings storageBits s')
      fun _ s' => s.context.Keeps s'.context ∧ Founded settings storageBits s' := by
  unfold Generator.add
  refine Grants.bind (P := fun _ s' => s.context.Keeps s'.context ∧ Founded settings storageBits s')
    ((useRegistry_grants (Registry.make_grants name e _ _)).imp (fun _ hf => hf) ?_ ?_)
    fun _ _ hs' => .pure hs'
  · rintro _ _ ⟨t, rfl, hkeeps, hitem⟩
    rw [hitem]
    exact ⟨hkeeps, h.keeps hkeeps⟩
  · rintro x _ ⟨t, rfl, hadds⟩
    rw [hadds.item_eq]
    refine ⟨hadds.keeps, (h.keeps hadds.keeps).withRegistry (fun y hy => ?_) rfl⟩
    -- The constraints from before were written already, so only the new one is to be checked.
    rcases List.mem_append.mp hy with hy | hy
    · exact (h.keeps hadds.keeps).written y hy
    · cases List.mem_singleton.mp hy
      refine ⟨by rw [hadds.support_eq, hadds.expr_eq], fun hscalar => ?_⟩
      rw [Constraint.isVector, hadds.expr_eq] at hscalar
      rw [hadds.keeps.signature, hadds.expr_eq]
      exact he (hadds.scalar hscalar)

/-- Switching a constraint changes nothing else about it. -/
theorem Founded.setEnabled {c : Context} {g : Generator} (h : Founded settings storageBits ⟨c, g⟩)
    (name : String) (enabled : Bool) :
    Founded settings storageBits ⟨c, (g.setEnabled name enabled).2⟩ := by
  unfold Generator.setEnabled Registry.setEnabled
  dsimp only
  cases g.registry.find? name with
  | none => exact h
  | some x =>
    dsimp only
    split
    · exact h
    · refine h.withRegistry (fun y hy => ?_) rfl
      obtain ⟨z, hz, rfl⟩ := List.mem_map.mp hy
      have hwritten := h.written z hz
      split
      · exact ⟨hwritten.support_eq, hwritten.admits⟩
      · exact hwritten

/-- Starting coverage over makes new coverage solvers. -/
theorem Founded.resetCoverage (h : Founded settings storageBits s) :
    Grants resetCoverage s (fun _ => True) (fun _ _ => False)
      fun _ s' => Founded settings storageBits s' := by
  unfold Generator.resetCoverage
  refine change_bind ?_
  have h' : Founded settings storageBits ⟨s.context, { s.item with covered := false }⟩ :=
    { h with current := fun hunchanged => { h.current hunchanged with } }
  refine Grants.imp (rebuildCoverage_grants False h'.toSourced h'.separate nofun nofun)
    (fun _ _ => trivial) (fun _ _ hr => hr) ?_
  rintro _ _ ⟨coverage, stage, rfl, hsource, hready, hfiled⟩
  exact { h' with
    coverageSource := hsource
    coverage := hready
    coverageVectors := hfiled
    current := fun hunchanged => { h'.current hunchanged with } }

/-- Every call keeps what holds of a generator at any time. -/
theorem Founded.call (h : Founded settings storageBits s) (hcall : Call s s') :
    Founded settings storageBits s' := by
  -- What is refused in the middle of a solve is founded as well, since the caller may go on.
  cases hcall with
  | change g hchanges =>
    exact h.grows (hchanges.wellFormed h.wellFormed) (hchanges.grows h.wellFormed)
  | @add _ _ kind name e r he hrun =>
    have hadd := h.add he kind name
    cases r with
    | error refusal => exact (hadd.of_refusal hrun).2
    | ok u => exact (hadd.of_run hrun).2
  | setEnabled c g name enabled => exact h.setEnabled name enabled
  | @next _ _ r hrun =>
    have hnext := next_grants False h nofun nofun nofun nofun
    cases r with
    | error refusal => exact (hnext.of_refusal hrun).2.1
    | ok solved => exact (hnext.of_run hrun).1
  | @nextCover _ _ r hrun =>
    have hnext := nextCover_grants h
    cases r with
    | error refusal => exact (hnext.of_refusal hrun).1
    | ok solved => exact (hnext.of_run hrun).1
  | @resetCoverage _ _ r hrun =>
    have hreset := h.resetCoverage
    cases r with
    | error refusal => exact (hreset.of_refusal hrun).elim
    | ok u => exact hreset.of_run hrun

/-- It holds in every run. -/
theorem Reached.founded (h : Reached settings storageBits s) : Founded settings storageBits s := by
  induction h with
  | create hc hrun => exact ((create_ensures hc.wellFormed).of_run hrun).2.1
  | call _ hcall ih => exact ih.call hcall

end

/-! ## §3 Runs in which constraints are added -/

section

variable {settings : Settings} {storageBits : Nat} {s s' : InContext Generator}

/-- Add hard constraints without names. -/
def addAll : List Expr → InContext Generator → Except Fault (InContext Generator)
  | [], s => .ok s
  | e :: es, s => do
      let (_, s) ← add .hard none e s
      addAll es s

/-- Make a generator and add constraints to it. -/
def started (settings : Settings) (storageBits : Nat) (c : Context) (es : List Expr) :
    Except Fault (InContext Generator) := do
  let (g, c) ← create settings storageBits c
  addAll es ⟨c, g⟩

/-- Adding a constraint is a call that leaves the context with its variables. -/
theorem Reached.add (h : Reached settings storageBits s) {kind : Kind} {name : Option String}
    {e : Expr} {r : Except Refusal Unit} (he : s.context.Writes e)
    (hrun : add kind name e s = .ok (r, s')) :
    Reached settings storageBits s' ∧ s.context.Keeps s'.context := by
  have hadd := h.founded.add he kind name
  refine ⟨.call h (.add he hrun), ?_⟩
  cases r with
  | error refusal => exact (hadd.of_refusal hrun).1
  | ok u => exact (hadd.of_run hrun).1

theorem reached_addAll {es : List Expr} (h : Reached settings storageBits s)
    (hes : ∀ e ∈ es, s.context.Writes e) (hrun : addAll es s = .ok s') :
    Reached settings storageBits s' := by
  induction es generalizing s with
  | nil =>
    cases hrun
    exact h
  | cons e es ih =>
    obtain ⟨⟨r, s₁⟩, hadd, hrun⟩ := exists_ok_of_bind hrun
    obtain ⟨h₁, hkeeps⟩ := h.add (hes e List.mem_cons_self) hadd
    refine ih h₁ (fun e' he' hmentions => ?_) hrun
    rw [hkeeps.signature]
    exact hes e' (List.mem_cons_of_mem e he') hmentions

theorem reached_started {c : Context} {es : List Expr} (hc : c.Reached)
    (hes : ∀ e ∈ es, c.Writes e) (hrun : started settings storageBits c es = .ok s) :
    Reached settings storageBits s := by
  unfold started at hrun
  cases hcreate : create settings storageBits c with
  | error fault =>
    rw [hcreate] at hrun
    cases hrun
  | ok p =>
    rw [hcreate] at hrun
    have hkeeps := ((create_ensures hc.wellFormed).of_run hcreate).1
    refine reached_addAll (.create hc hcreate) (fun e he hmentions => ?_) hrun
    rw [hkeeps.signature]
    exact hes e he hmentions

end

end Generator

end Stimulus
