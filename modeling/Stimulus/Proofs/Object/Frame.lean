import Stimulus.Proofs.Generator.Merge
import Stimulus.Proofs.Object.Tree

/-!
# What solving leaves of a tree

A solve works on the generator of one object, takes words from the sources of the objects below, and
writes to the context as anybody could.  A solve with further constraints uses a generator of its
own, so it does not even touch that: the tree is as before, apart from its sources of randomness.

Main definitions:
- `ObjectCore.skeleton`: what no solve changes about an object
- `RandObject.Aside`: what a solve leaves of a tree and of its context

Main statements:
- `RandObject.nextWith_aside`
- `RandObject.next_aside`, `RandObject.nextCover_aside`
-/

namespace Stimulus

/-- A new generator takes entropy, and one id, for its registry. -/
theorem Generator.create_takes (settings : Settings) (storageBits : Nat) (c : Context) :
    Ensures (create settings storageBits) c (fun _ => True) fun _ c' =>
      c' = (Context.takeConstraintId (Context.takeEntropy c).2).2 := by
  unfold Ensures create
  apply Ends.bind (ends_true _)
  rintro ⟨plain, source₁⟩ -
  apply Ends.bind (ends_true _)
  rintro ⟨vectors, source₂⟩ -
  apply Ends.bind (ends_true _)
  rintro ⟨coverage, source₃⟩ -
  apply Ends.bind (ends_true _)
  rintro ⟨coverageVectors, source₄⟩ -
  apply Ends.bind (ends_true _)
  rintro stage -
  apply Ends.bind (ends_true _)
  rintro coverageStage -
  exact rfl

namespace Generator

/-- The request changes the context as anybody could. -/
def Lenient {α : Type} (act : Generation α) : Prop := ∀ c, Preserves act (InContext.Since c)

theorem lenient_of_leaves {α : Type} {act : Generation α}
    {J : InContext Generator → InContext Generator → Prop} (h : ∀ s, Leaves act s (J s))
    (hJ : ∀ s s', J s s' → s.context.Becomes s'.context) : Lenient act :=
  fun _ s hs => Leaves.imp (h s) fun s' hs' => hs.trans (hJ s s' hs')

theorem lenient_merge (r : Registry) : Lenient (merge r) :=
  lenient_of_leaves (Merging.merge_leaves r) fun _ _ h => h ▸ .refl

theorem lenient_rebuild (includeOwn : Bool) : Lenient (rebuild includeOwn) :=
  lenient_of_leaves (rebuild_regroups includeOwn) fun _ _ h => h.becomes

theorem lenient_next : Lenient next := lenient_of_leaves next_renews fun _ _ h => h.becomes

theorem lenient_nextCover : Lenient nextCover :=
  lenient_of_leaves nextCover_renews fun _ _ h => h.becomes

theorem lenient_resetCoverage : Lenient resetCoverage :=
  lenient_of_leaves (fun s => resetCoverage_sameSources s (.refl s)) fun _ _ h => h.becomes

end Generator

/-- What no solve changes about an object. -/
def ObjectCore.skeleton (core : ObjectCore) : ObjectCore :=
  { core with
    registry := core.registry.acknowledge
    generator := none
    rng := .ofSeed 0
    stale := false }

namespace RandObject

open Generator (Lenient lenient_merge lenient_rebuild lenient_next lenient_nextCover
  lenient_resetCoverage)

/-! ## §1 Views of a tree -/

/-- A part of what an object has of its own: not its source of randomness, but its members. -/
structure View (f : ObjectCore → ObjectCore) : Prop where
  rng : ∀ core rng, f { core with rng := rng } = f core
  members : ∀ core, (f core).members = core.members

theorem view_undrawn : View ObjectCore.undrawn := ⟨fun _ _ => rfl, fun _ => rfl⟩

theorem view_skeleton : View ObjectCore.skeleton := ⟨fun _ _ => rfl, fun _ => rfl⟩

/-- The tree is the same in some view, and the context has changed as anybody could change it if the
    members are random variables. -/
structure Aside (f : ObjectCore → ObjectCore) (s s' : InContext RandObject) : Prop where
  same : s'.item.mapCores f = s.item.mapCores f
  becomes : s.context.WellFormed → s.item.MembersRandom s.context →
    s.context.Becomes s'.context

section

variable {α : Type} {f : ObjectCore → ObjectCore} {s₀ s s' s'' : InContext RandObject}

theorem Aside.refl (f : ObjectCore → ObjectCore) (s : InContext RandObject) : Aside f s s :=
  ⟨rfl, fun _ _ => .refl⟩

/-- Trees that look the same have objects that look the same. -/
theorem cores_of_same {o o' : RandObject} (h : o'.mapCores f = o.mapCores f) :
    (o'.subtrees.map fun t => f t.core) = o.subtrees.map fun t => f t.core := by
  have hcores (o : RandObject) :
      (o.mapCores f).subtrees.map core = o.subtrees.map fun t => f t.core := by
    rw [subtrees_mapCores, List.map_map]
    exact List.map_congr_left fun t _ => core_mapCores
  rw [← hcores, ← hcores, h]

theorem exists_of_same {o o' t : RandObject} (h : o'.mapCores f = o.mapCores f)
    (ht : t ∈ o'.subtrees) : ∃ u ∈ o.subtrees, f u.core = f t.core := by
  have hmem := List.mem_map_of_mem (f := fun t => f t.core) ht
  rw [cores_of_same h] at hmem
  exact List.mem_map.mp hmem

theorem View.membersRandom (hf : View f) {o o' : RandObject} {c c' : Context}
    (hsame : o'.mapCores f = o.mapCores f) (h : o.MembersRandom c) (hgrows : c.Grows c') :
    o'.MembersRandom c' := by
  intro t ht v hv
  obtain ⟨u, hu, heq⟩ := exists_of_same hsame ht
  have hmembers : u.core.members = t.core.members := by
    rw [← hf.members u.core, heq, hf.members]
  obtain ⟨cell, hcell, hrole⟩ := Context.isRandom_iff.mp (h u hu v (hmembers ▸ hv))
  obtain ⟨bits, hbits⟩ := hgrows.cells v.id cell hcell
  exact Context.isRandom_iff.mpr ⟨_, hbits, hrole⟩

theorem View.trans (hf : View f) (h : Aside f s s') (h' : Aside f s' s'') : Aside f s s'' := by
  refine ⟨h'.same.trans h.same, fun hc hrandom => ?_⟩
  have hbecomes := h.becomes hc hrandom
  exact hbecomes.trans (h'.becomes (hbecomes.wellFormed hc)
    (hf.membersRandom h.same hrandom (hbecomes.grows hc)))

/-- The tree is the same, and the context has changed. -/
theorem View.context (hf : View f) {c : Context} (h : Aside f s₀ s) (hc : s.context.Becomes c) :
    Aside f s₀ ⟨c, s.item⟩ :=
  hf.trans h ⟨rfl, fun _ _ => hc⟩

/-- A generator of its own works in the context of the object, and does not touch the object. -/
theorem withGenerator_grants {E : Fault → Prop} {g : Generator} {act : Generation α}
    {R : Refusal → InContext Generator → Prop} {Q : α → InContext Generator → Prop}
    (h : Grants act ⟨s.context, g⟩ E R Q) :
    Grants (withGenerator g act) s E
      (fun r s' => s'.item = s.item ∧ ∃ g', R r ⟨s'.context, g'⟩)
      fun p s' => s'.item = s.item ∧ Q p.1 ⟨s'.context, p.2⟩ := by
  unfold Grants at h ⊢
  unfold withGenerator
  cases hact : act ⟨s.context, g⟩ with
  | error fault =>
    rw [hact] at h
    exact h
  | ok p =>
    rw [hact] at h
    obtain ⟨refusal | a, c, g'⟩ := p
    · exact ⟨rfl, g', h⟩
    · exact ⟨rfl, h⟩

theorem View.withGenerator (hf : View f) (g : Generator) {act : Generation α} (hact : Lenient act) :
    Preserves (withGenerator g act) (Aside f s₀) := by
  intro s hs
  apply (withGenerator_grants (hact s.context ⟨s.context, g⟩ .refl)).imp (fun _ h => h)
  · rintro _ ⟨c, o⟩ ⟨rfl, g', hbecomes⟩
    exact hf.context hs hbecomes
  · rintro _ ⟨c, o⟩ ⟨rfl, hbecomes⟩
    exact hf.context hs hbecomes

theorem View.preRandomize (hf : View f) : Preserves preRandomize (Aside f s₀) := by
  intro s hs
  have hscatter := scatter_ends s.context s.item
  unfold Leaves Grants RandObject.preRandomize
  cases hrun : s.item.scatter s.context with
  | error fault => trivial
  | ok r =>
    obtain ⟨hsame, hbecomes⟩ := hscatter.of_ok hrun
    refine hf.trans hs ⟨?_, fun _ hrandom => (hbecomes hrandom).1⟩
    have hview (o : RandObject) : o.undrawn.mapCores f = o.mapCores f := by
      unfold RandObject.undrawn
      rw [mapCores_mapCores]
      exact congrArg (mapCores · o) (funext fun core => hf.rng core _)
    rw [← hview r.1, hsame, hview]

/-! ## §2 A solve with further constraints -/

/-- The registry of further constraints takes ids from the context. -/
theorem View.inlineRegistry (hf : View f) (es : List Expr) :
    Preserves (inlineRegistry es) (Aside f s₀) := by
  have hadding (c : Context) : Preserves (es.forM fun e => do
      let _ ← Registry.make none e false false) (InContext.Since c) :=
    .forM fun e => .bind (Registry.make_since none e false false c) fun _ => .pure _
  have hcreate : Preserves (InContext.useContext (σ := RandObject) Registry.create) (Aside f s₀) :=
    fun s hs => hf.context hs (.single (.takeConstraintId s.context))
  unfold RandObject.inlineRegistry
  refine .bind hcreate fun registry => ?_
  intro s hs
  apply Grants.get_bind
  dsimp only
  cases hrun : (es.forM fun e => do
      let _ ← Registry.make none e false false : Request (InContext Registry) Unit)
        ⟨s.context, registry⟩ with
  | error fault => trivial
  | ok r =>
    have hsince := (hadding s.context ⟨s.context, registry⟩ .refl).of_run hrun
    obtain ⟨answer, c, registry'⟩ := r
    have hs' : Aside f s₀ ⟨c, s.item⟩ := hf.context hs hsince
    apply Grants.modify_bind
    cases answer with
    | error refusal => exact hs'
    | ok u => exact hs'

/-- The seed of a generator that is used once is a word of the object. -/
theorem View.inlineSeed (hf : View f) : Preserves inlineSeed (Aside f s₀) := by
  intro s hs
  obtain ⟨c, ⟨core, children⟩⟩ := s
  unfold Leaves Grants RandObject.inlineSeed
  dsimp only
  cases core.settings.seed with
  | none => exact hs
  | some seed =>
    dsimp only
    cases core.rng.word64 with
    | error fault => trivial
    | ok r =>
      refine hf.trans hs ⟨?_, fun _ _ => .refl⟩
      rw [mapCores_node, mapCores_node, hf.rng]

theorem View.newGenerator (hf : View f) (settings : Settings) :
    Preserves (newGenerator settings) (Aside f s₀) := by
  intro s hs
  unfold RandObject.newGenerator
  apply Grants.get_bind
  apply Grants.ofExcept_bind (Generator.create_takes settings _ s.context)
  rintro ⟨g, c⟩ hc
  apply Grants.modify_bind
  dsimp only at hc ⊢
  subst hc
  have hs' : Aside f s₀ ⟨(Context.takeConstraintId (Context.takeEntropy s.context).2).2, s.item⟩ :=
    hf.context hs (.tail (.single (.takeEntropy s.context)) (.takeConstraintId _))
  apply Grants.get_bind
  exact Leaves.bind (hf.withGenerator g (fun c => .forM fun r => lenient_merge r c) _ hs') fun _ =>
    .pure _

theorem View.nextWith (hf : View f) (es : List Expr) : Preserves (nextWith es) (Aside f s₀) := by
  unfold RandObject.nextWith
  refine .bind (hf.inlineRegistry es) fun extra => .bind hf.inlineSeed fun seed => ?_
  refine .bind .get fun s => ?_
  refine .bind (hf.newGenerator _) fun g => ?_
  refine .bind (hf.withGenerator g fun c => .bind (lenient_merge extra c) fun _ =>
    lenient_rebuild false c) fun (_, g) => ?_
  refine .bind hf.preRandomize fun _ => ?_
  exact .bind (hf.withGenerator g lenient_next) fun _ => .pure _

/-! ## §3 Solves with the generator of an object -/

theorem aside_mapCore {g : ObjectCore → ObjectCore}
    (hg : ∀ core, (g core).skeleton = core.skeleton) (h : Aside ObjectCore.skeleton s₀ s) :
    Aside ObjectCore.skeleton s₀ ⟨s.context, s.item.mapCore g⟩ := by
  refine view_skeleton.trans h ⟨?_, fun _ _ => .refl⟩
  obtain ⟨c, ⟨core, children⟩⟩ := s
  show (node (g core) children).mapCores _ = (node core children).mapCores _
  rw [mapCores_node, mapCores_node, hg]

theorem aside_markClean (h : Aside ObjectCore.skeleton s₀ s) :
    Aside ObjectCore.skeleton s₀ ⟨s.context, s.item.markClean⟩ := by
  refine view_skeleton.trans h ⟨?_, fun _ _ => .refl⟩
  rw [markClean_eq, mapCores_mapCores]
  rfl

theorem useGenerator_aside {act : Generation α} (hact : Lenient act) :
    Preserves (useGenerator act) (Aside ObjectCore.skeleton s₀) := by
  intro s hs
  obtain ⟨c, ⟨core, children⟩⟩ := s
  obtain ⟨name, home, settings, registry, members, generator, rng, stale⟩ := core
  unfold Leaves Grants useGenerator
  dsimp only
  cases generator with
  | none => exact hs
  | some g =>
    dsimp only
    cases hrun : act ⟨c, g⟩ with
    | error fault => trivial
    | ok r =>
      have hbecomes := (hact c ⟨c, g⟩ .refl).of_run hrun
      obtain ⟨answer, c', g'⟩ := r
      have hgenerator := aside_mapCore (g := fun core => { core with generator := some g' })
        (fun _ => rfl) (view_skeleton.context hs hbecomes)
      cases answer <;> exact hgenerator

theorem rebuild_aside : Preserves rebuild (Aside ObjectCore.skeleton s₀) := by
  unfold RandObject.rebuild
  refine .bind .get fun s => .bind (view_skeleton.newGenerator _) fun g => ?_
  refine .bind (.modify fun _ => aside_markClean) fun _ => ?_
  refine .bind (view_skeleton.withGenerator g (lenient_rebuild false)) fun (_, g) => ?_
  exact .modify fun _ => aside_mapCore fun _ => rfl

theorem prepare_aside : Preserves prepare (Aside ObjectCore.skeleton s₀) := by
  unfold prepare
  refine .bind .get fun s => ?_
  dsimp only
  split
  · exact .bind rebuild_aside fun _ => view_skeleton.preRandomize
  · exact view_skeleton.preRandomize

theorem next_aside : Preserves next (Aside ObjectCore.skeleton s₀) := by
  unfold RandObject.next
  exact .bind prepare_aside fun _ => .bind (useGenerator_aside lenient_next) fun _ => .pure _

theorem tryNext_aside : Preserves tryNext (Aside ObjectCore.skeleton s₀) := by
  unfold RandObject.tryNext
  refine .bind next_aside fun solved => ?_
  cases solved with
  | false => exact .throw _
  | true => exact .pure _

theorem nextCover_aside : Preserves nextCover (Aside ObjectCore.skeleton s₀) := by
  unfold RandObject.nextCover
  exact .bind prepare_aside fun _ => .bind (useGenerator_aside lenient_nextCover) fun _ => .pure _

theorem resetCoverage_aside : Preserves resetCoverage (Aside ObjectCore.skeleton s₀) := by
  unfold RandObject.resetCoverage
  exact .bind (useGenerator_aside lenient_resetCoverage) fun _ => .pure _

end

end RandObject

end Stimulus
