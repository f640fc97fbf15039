import Stimulus.Proofs.Generator.Rebuild

/-!
# What a generator leaves alone

A solve works on the solvers and on the values in the context.  It changes the context as anybody
could change it, and once everything is up to date it touches neither the constraints nor the
partitions.
These facts need no assumption about the solvers, so they also hold after constraints of other
registries were merged.

Main definitions:
- `Context.Becomes`: changes of a context that anybody could make
- `Generator.SameSources`: the constraints and what was merged are the same
- `Generator.regroup`, `Generator.renew`: what a rebuild does before it makes solvers

Main statements:
- `Generator.rebuild_regroups`
- `Generator.next_renews`, `Generator.nextCover_renews`
-/

namespace Stimulus

open Relation (ReflTransGen)

/-! ## §1 What a solve does to its context -/

namespace Context

/-- The second context comes from the first one by changes that anybody could make. -/
abbrev Becomes : Context → Context → Prop := ReflTransGen Changes

section

variable {c c' : Context}

theorem Becomes.wellFormed (h : c.Becomes c') (hc : c.WellFormed) : c'.WellFormed := by
  induction h with
  | refl => exact hc
  | tail _ hchanges ih => exact hchanges.wellFormed ih

theorem Becomes.grows (h : c.Becomes c') (hc : c.WellFormed) : c.Grows c' := by
  induction h with
  | refl => exact .refl c
  | tail hbefore hchanges ih => exact ih.trans (hchanges.grows (Becomes.wellFormed hbefore hc))

theorem becomes_writeAll (c : Context) (results : List (Nat × Nat)) :
    c.Becomes (c.writeAll results) := by
  induction results generalizing c with
  | nil => exact .refl
  | cons r results ih => exact .head (.write c r.1 r.2) (ih (c.write r.1 r.2))

/-- A change of a context takes ids, and gives none back. -/
theorem Changes.nextConstraintId_le (h : c.Changes c') :
    c.nextConstraintId ≤ c'.nextConstraintId := by
  cases h with
  | takeConstraintId => exact Nat.le_succ _
  | write id bits =>
    unfold Context.write
    split <;> exact Nat.le_refl _
  | store id values =>
    unfold Context.store
    split <;> exact Nat.le_refl _
  | _ => exact Nat.le_refl _

theorem Becomes.nextConstraintId_le (h : c.Becomes c') :
    c.nextConstraintId ≤ c'.nextConstraintId := by
  induction h with
  | refl => exact Nat.le_refl _
  | tail _ hchanges ih => exact ih.trans hchanges.nextConstraintId_le

end

end Context

theorem VectorSolver.becomes_addElements (elem : BitSort) (known : Array Expr) (n : Nat)
    (c : Context) : c.Becomes (addElements elem known n c).2 := by
  induction n generalizing known c with
  | zero => exact .refl
  | succ n ih =>
    exact .head (.takeId c) (ih (known.push (.var c.nextId elem)) (Context.takeId c).2)

/-- The context comes from a given one by changes that anybody could make. -/
def InContext.Since {σ : Type} (c : Context) (s : InContext σ) : Prop := c.Becomes s.context

namespace PlainEnsemble

/-- Nothing but results is written, also before an early stop. -/
theorem solveEach_becomes (c : Context) (solvers : List PartitionSolver) :
    Ends (solveEach c solvers) (fun _ => True) fun r => c.Becomes r.2.2 := by
  induction solvers generalizing c with
  | nil => exact .refl
  | cons solver solvers ih =>
    unfold solveEach
    apply Ends.bind (ends_true _)
    intro r _
    obtain ⟨answer, solver'⟩ := r
    cases answer with
    | none => exact .refl
    | some results =>
      apply (ih (c.writeAll results)).bind
      intro r hr
      exact (c.becomes_writeAll results).trans hr

theorem solveSideBySide_becomes (c : Context) (solvers : List PartitionSolver) :
    Ends (solveSideBySide List.flatten c solvers) (fun _ => True) fun r => c.Becomes r.2.2 := by
  apply Ends.bind (ends_true _)
  intro r _
  exact c.becomes_writeAll _

/-- Solving the partitions writes results. -/
theorem solvePlain_since (c : Context) : Preserves solvePlain (InContext.Since c) := by
  intro s hs
  obtain ⟨c', source, solvers⟩ := s
  have hrun : Ends (if source.settings.sideBySide then solveSideBySide List.flatten c' solvers
      else solveEach c' solvers) (fun _ => True) fun r => c'.Becomes r.2.2 := by
    split
    · exact solveSideBySide_becomes c' solvers
    · exact solveEach_becomes c' solvers
  unfold Leaves Grants solvePlain
  dsimp only
  split
  · trivial
  · rename_i r hr
    exact hs.trans (hrun.of_ok hr)

end PlainEnsemble

namespace CoverageEnsemble

theorem hitEach_becomes (c : Context) (solvers : List CoverageSolver) :
    Ends (hitEach c solvers) (fun _ => True) fun r => c.Becomes r.2.2 := by
  induction solvers generalizing c with
  | nil => exact .refl
  | cons solver solvers ih =>
    unfold hitEach
    apply Ends.bind (ends_true _)
    intro r _
    obtain ⟨answer, solver'⟩ := r
    apply (ih (c.writeAll (answer.getD []))).bind
    intro r hr
    exact (c.becomes_writeAll _).trans hr

/-- Solving for coverage writes results. -/
theorem solveCoverage_since (c : Context) : Preserves solveCoverage (InContext.Since c) := by
  intro s hs
  obtain ⟨c', source, solvers⟩ := s
  unfold Leaves Grants solveCoverage
  dsimp only
  split
  · trivial
  · rename_i r hr
    exact hs.trans ((hitEach_becomes c' solvers).of_ok hr)

end CoverageEnsemble

namespace VectorSolver

variable {c₀ : Context}

/-- New symbols take ids. -/
theorem grow_since (size : Nat) (elem : BitSort) :
    Preserves (grow size elem) (InContext.Since c₀) := by
  unfold grow
  refine .bind .get fun s => ?_
  refine .bind ?_ fun elements => .bind (.modify fun _ h => h) fun _ => .pure _
  intro s hs
  exact hs.trans (becomes_addElements elem _ _ s.context)

theorem findModel_since (elements : Array Expr) :
    Preserves (findModel elements) (InContext.Since c₀) := by
  unfold findModel
  refine .bind .get fun s => .bind (.ofExcept _) fun (model, source) => ?_
  refine .bind (.modify fun _ h => h) fun _ => .bind (.ofAttempt _) fun (solved, model) => ?_
  exact .pure _

/-- Solving a vector takes ids for its elements and stores them. -/
theorem solve_since (read : Reading) : Preserves (solve read) (InContext.Since c₀) := by
  unfold solve
  refine .bind .get fun ⟨c, work⟩ => ?_
  dsimp only
  cases c.vectors[work.solver.vectorId]? with
  | none => exact .pure _
  | some entry =>
    refine .bind (.ofExcept _) fun size => ?_
    split
    · exact .throw_bind _ _
    -- Every step moves the context forward, the last one by storing what was found.
    refine .bind (grow_since size entry.elem) fun elements => ?_
    refine .bind (findModel_since elements) fun model => ?_
    cases model with
    | none => exact .pure _
    | some model =>
      refine .bind (.ofExcept _) fun (values, rng) => ?_
      refine .bind (.modify fun s hs => ?_) fun _ => .pure _
      exact hs.tail (.store s.context _ values)

end VectorSolver

namespace VectorStage

variable {c₀ : Context}

theorem solveOne_since (read : Reading) (id : Nat) :
    Preserves (solveOne read id) (InContext.Since c₀) := by
  intro s hs
  unfold Leaves Grants solveOne
  dsimp only
  cases s.item.solvers[id]? with
  | none => exact hs
  | some solver =>
    dsimp only
    cases hrun : VectorSolver.solve read ⟨s.context, solver, s.item.source, s.item.rng⟩ with
    | error fault => trivial
    | ok r =>
      have hsince := (VectorSolver.solve_since read _ hs).of_run hrun
      obtain ⟨refusal | solved, c, work⟩ := r <;> exact hsince

theorem solveEach_since (read : Reading) (ids : List Nat) :
    Preserves (solveEach read ids) (InContext.Since c₀) := by
  induction ids with
  | nil => exact .pure _
  | cons id ids ih =>
    refine .bind (solveOne_since read id) fun solved => ?_
    cases solved with
    | false => exact .pure _
    | true => exact ih

theorem fill_since (read : Reading) (id : Nat) (entry : VectorEntry) :
    Preserves (fill read id entry) (InContext.Since c₀) := by
  unfold fill
  refine .bind .get fun s => .bind (.ofExcept _) fun size => ?_
  split
  · exact .fault_bind _ _
  refine .bind (.ofExcept _) fun (values, rng) => .modify fun s hs => ?_
  exact hs.tail (.store s.context id values)

/-- Solving the vectors takes ids for elements and stores them. -/
theorem solve_since (read : Reading) : Preserves (solve read) (InContext.Since c₀) := by
  unfold solve
  refine .bind .get fun s => .bind (solveEach_since read _) fun solved => ?_
  cases solved with
  | false => exact .pure _
  | true =>
    refine .bind .get fun ⟨c, stage⟩ => .bind (.forM fun (id, entry) => ?_) fun _ => .pure _
    dsimp only
    split
    · exact .pure _
    · exact fill_since read id entry

end VectorStage

/-- A new constraint takes an id. -/
theorem Registry.make_since (name : Option String) (e : Expr) (soft cover : Bool) (c₀ : Context) :
    Preserves (make name e soft cover) (InContext.Since c₀) := by
  unfold make
  extract_lets last rest
  have hlast : Preserves (last ()) (InContext.Since c₀) := by
    -- The id is taken even if the name turns out to be in use.
    have htake : Preserves (InContext.useContext (σ := Registry) Context.takeConstraintId)
        (InContext.Since c₀) := fun s hs => hs.tail (.takeConstraintId s.context)
    refine .bind htake fun id => .bind .get fun s => ?_
    split
    · exact .throw_bind _ _
    · exact .bind (.modify fun _ hs => hs) fun _ => .pure _
  have hrest : Preserves (rest ()) (InContext.Since c₀) := by
    dsimp only [rest]
    split
    · exact .throw_bind _ _
    · exact hlast
  split
  · refine .bind .get fun s => ?_
    split
    · exact .throw_bind _ _
    · exact hrest
  · exact hrest

/-- What runs on the thing alone leaves the context alone. -/
theorem InContext.useItem_since {σ α : Type} (act : Request σ α) (c₀ : Context) :
    Preserves (useItem act) (Since c₀) := by
  intro ⟨c, item⟩ hs
  unfold Leaves Grants useItem
  dsimp only
  cases act item with
  | error fault => trivial
  | ok r => obtain ⟨refusal | a, item'⟩ := r <;> exact hs

namespace Generator

/-! ## §2 Constraints and what was merged -/

/-- The constraints and what was merged are the same, and the context has changed as anybody could
    change it. -/
structure SameSources (s s' : InContext Generator) : Prop where
  registry_eq : s'.item.registry = s.item.registry
  partitioner_eq : s'.item.partitioner = s.item.partitioner
  becomes : s.context.Becomes s'.context

section

variable {α : Type} {s₀ s : InContext Generator}

theorem SameSources.refl (s : InContext Generator) : SameSources s s := ⟨rfl, rfl, .refl⟩

theorem SameSources.trans {s₁ s₂ s₃ : InContext Generator} (h : SameSources s₁ s₂)
    (h' : SameSources s₂ s₃) : SameSources s₁ s₃ :=
  ⟨h'.registry_eq.trans h.registry_eq, h'.partitioner_eq.trans h.partitioner_eq,
    h.becomes.trans h'.becomes⟩

theorem change_sameSources {f : Generator → Generator}
    (hregistry : ∀ g, (f g).registry = g.registry)
    (hpartitioner : ∀ g, (f g).partitioner = g.partitioner) :
    Preserves (change f) (SameSources s₀) :=
  fun s hs => hs.trans ⟨hregistry s.item, hpartitioner s.item, .refl⟩

/-- A part of the generator is used, and put back with its context. -/
theorem preserves_sameSources {σ : Type} {act : Request (InContext σ) α} {use : Generation α}
    {get : InContext Generator → InContext σ}
    {put : InContext Generator → InContext σ → InContext Generator}
    (hact : ∀ c, Preserves act (InContext.Since c)) (hget : ∀ s, (get s).context = s.context)
    (huse : ∀ s c, Leaves act (get s) (InContext.Since c) → Grants use s (fun _ => True)
      (fun _ s' => ∃ t, s' = put s t ∧ InContext.Since c t)
      fun _ s' => ∃ t, s' = put s t ∧ InContext.Since c t)
    (hput : ∀ s t, InContext.Since s.context t → SameSources s (put s t)) :
    Preserves use (SameSources s₀) := by
  intro s hs
  -- The part starts from the context of the whole, so nothing has happened to it yet.
  have hsince : InContext.Since s.context (get s) := by
    unfold InContext.Since
    rw [hget]
  refine (huse s _ (hact _ _ hsince)).imp (fun _ hf => hf) ?_ ?_
  all_goals
    intro _ _ hleft
    obtain ⟨t, rfl, ht⟩ := hleft
    exact hs.trans (hput s t ht)

theorem usePlain_sameSources {act : Request (InContext PlainEnsemble) α}
    (h : ∀ c, Preserves act (InContext.Since c)) : Preserves (usePlain act) (SameSources s₀) :=
  preserves_sameSources h (fun _ => rfl) (fun _ _ => usePlain_grants) fun _ _ ht => ⟨rfl, rfl, ht⟩

theorem useCoverage_sameSources {act : Request (InContext CoverageEnsemble) α}
    (h : ∀ c, Preserves act (InContext.Since c)) :
    Preserves (useCoverage act) (SameSources s₀) :=
  preserves_sameSources h (fun _ => rfl) (fun _ _ => useCoverage_grants)
    fun _ _ ht => ⟨rfl, rfl, ht⟩

theorem useVectors_sameSources {act : Request (InContext VectorStage) α}
    (h : ∀ c, Preserves act (InContext.Since c)) :
    Preserves (useVectors act) (SameSources s₀) :=
  preserves_sameSources h (fun _ => rfl) (fun _ _ => useVectors_grants) fun _ _ ht => ⟨rfl, rfl, ht⟩

theorem useCoverageVectors_sameSources {act : Request (InContext VectorStage) α}
    (h : ∀ c, Preserves act (InContext.Since c)) :
    Preserves (useCoverageVectors act) (SameSources s₀) :=
  preserves_sameSources h (fun _ => rfl) (fun _ _ => useCoverageVectors_grants)
    fun _ _ ht => ⟨rfl, rfl, ht⟩

/-! ## §3 Rebuilding -/

theorem rebuildCoverage_sameSources : Preserves rebuildCoverage (SameSources s₀) := by
  unfold rebuildCoverage
  refine .bind .get fun ⟨c, g⟩ => ?_
  refine .bind (useCoverage_sameSources (InContext.useItem_since _)) fun _ => ?_
  exact change_sameSources (fun _ => rfl) fun _ => rfl

/-- Split what was merged, with the own constraints or without them. -/
def regroup (g : Generator) (includeOwn : Bool) : Generator :=
  let merged := if includeOwn then g.partitioner.merge g.registry else g.partitioner
  { g with partitioner := merged.partition }

/-- A rebuild splits what was merged, even if a solver is refused. -/
theorem rebuild_regroups (includeOwn : Bool) (s : InContext Generator) :
    Leaves (rebuild includeOwn) s (SameSources ⟨s.context, s.item.regroup includeOwn⟩) := by
  unfold rebuild
  refine change_bind ((?_ : Preserves _ (SameSources ⟨s.context, s.item.regroup includeOwn⟩)) _
    (.refl _))
  refine .bind .get fun ⟨c, g⟩ => ?_
  refine .bind (usePlain_sameSources (InContext.useItem_since _)) fun _ => ?_
  refine .bind (change_sameSources (fun _ => rfl) fun _ => rfl) fun _ => ?_
  exact rebuildCoverage_sameSources

/-- Forget what was merged and split the own constraints, if these have changed. -/
def renew (g : Generator) : Generator := if g.registry.changed then g.reset.regroup true else g

theorem renew_of_changed {g : Generator} (h : g.registry.changed = true) :
    g.renew = g.reset.regroup true := if_pos h

theorem renew_of_unchanged {g : Generator} (h : g.registry.changed = false) : g.renew = g :=
  if_neg (by simp [h])

theorem changed_renew (g : Generator) : g.renew.registry.changed = false := by
  unfold renew
  split
  · rfl
  · simp_all

/-- A rebuild from the own constraints has these in its partitions, and no others. -/
theorem partitions_renew {g : Generator} (h : g.registry.changed = true) :
    g.renew.partitioner.partitions = partitionPool g.registry.scalars := by
  rw [renew_of_changed h]
  exact (Partitioner.partition_merge g.registry.acknowledge).1

theorem refresh_renews (s : InContext Generator) :
    Leaves refresh s (SameSources ⟨s.context, s.item.renew⟩) := by
  unfold refresh
  refine .get_bind ?_
  split
  · rename_i hchanged
    rw [renew_of_changed hchanged]
    exact change_bind (rebuild_regroups true ⟨s.context, s.item.reset⟩)
  · rename_i hchanged
    rw [renew_of_unchanged (by simpa using hchanged)]
    exact .pure (.refl s)

/-! ## §4 Solving -/

/-- What follows the rebuild of a solve leaves the constraints and the partitions alone. -/
theorem next_renews (s : InContext Generator) :
    Leaves next s (SameSources ⟨s.context, s.item.renew⟩) := by
  unfold next
  refine (refresh_renews s).bind fun _ => ?_
  refine .bind (usePlain_sameSources PlainEnsemble.solvePlain_since) fun solved => ?_
  cases solved with
  | false => exact .pure _
  | true => exact .bind .get fun s => useVectors_sameSources fun c => VectorStage.solve_since _

/-- A refusal instead of an answer makes no difference. -/
theorem tryNext_renews (s : InContext Generator) :
    Leaves tryNext s (SameSources ⟨s.context, s.item.renew⟩) := by
  unfold tryNext
  refine (next_renews s).bind fun solved => ?_
  cases solved with
  | false => exact .throw _
  | true => exact .pure _

/-- A solve without a rebuild. -/
theorem next_sameSources (h : s₀.item.registry.changed = false) :
    Preserves next (SameSources s₀) := by
  intro s hs
  have hunchanged : s.item.renew = s.item :=
    renew_of_unchanged (by rw [hs.registry_eq, h])
  have hnext := next_renews s
  rw [hunchanged] at hnext
  exact hnext.imp fun _ h' => hs.trans h'

theorem hitNext_sameSources : Preserves hitNext (SameSources s₀) := by
  have hmissed : Preserves (change ({ · with covered := true }) >>= fun _ =>
      (pure none : Generation (Option Bool))) (SameSources s₀) :=
    .bind (change_sameSources (fun _ => rfl) fun _ => rfl) fun _ => .pure _
  -- Stage by stage: solvers and the context change, the constraints and what was merged do not.
  unfold hitNext
  refine .bind (usePlain_sameSources PlainEnsemble.solvePlain_since) fun solved => ?_
  cases solved with
  | false => exact .pure _
  | true =>
    refine .bind (useCoverage_sameSources CoverageEnsemble.solveCoverage_since) fun hit => ?_
    cases hit with
    | false => exact hmissed
    | true =>
      refine .bind .get fun s => ?_
      refine .bind (useCoverageVectors_sameSources fun c => VectorStage.solve_since _)
        fun answered => ?_
      cases answered with
      | false => exact hmissed
      | true => exact .pure _

theorem nextCover_renews (s : InContext Generator) :
    Leaves nextCover s (SameSources ⟨s.context, s.item.renew⟩) := by
  unfold nextCover
  -- After the refresh nothing counts as changed, so a plain solve that follows rebuilds nothing.
  have hnext : Preserves next (SameSources ⟨s.context, s.item.renew⟩) :=
    next_sameSources (changed_renew _)
  refine (refresh_renews s).bind fun _ => .bind .get fun t => ?_
  split
  · refine .bind hitNext_sameSources fun answer => ?_
    cases answer with
    | none => exact hnext
    | some answer => exact .pure _
  · exact hnext

theorem resetCoverage_sameSources : Preserves resetCoverage (SameSources s₀) := by
  unfold resetCoverage
  refine .bind (change_sameSources (fun _ => rfl) fun _ => rfl) fun _ => ?_
  exact rebuildCoverage_sameSources

end

end Generator

end Stimulus
