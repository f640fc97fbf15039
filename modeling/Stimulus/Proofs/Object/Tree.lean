import Stimulus.Proofs.Generator.Frame
import Stimulus.RandObject

/-!
# Trees of objects

Everything about a tree of objects is about what its objects have of their own.  So the tree is best
seen as the list of its subtrees, and a change of it as the same change of every object.

Main definitions:
- `RandObject.subtrees`: the object and all its descendants
- `RandObject.mapCores`: a change of what every object has of its own
- `RandObject.undrawn`: the tree apart from its sources of randomness

Main statements:
- `RandObject.registries_eq`, `RandObject.isDirty_eq`, `RandObject.markClean_eq`
- `RandObject.scatter_ends`
-/

namespace Stimulus

/-- An object apart from its source of randomness, which is the same one for all objects. -/
def ObjectCore.undrawn (core : ObjectCore) : ObjectCore := { core with rng := .ofSeed 0 }

namespace RandObject

/-! ## §1 Subtrees -/

/-- What holds of an object if it holds of its children holds of all objects. -/
theorem induct {P : RandObject → Prop}
    (node : ∀ core children, (∀ c ∈ children, P c) → P (.node core children)) : ∀ o, P o
  | .node core children => node core children fun c _ => induct node c

/-- The object and all its descendants, those before it. -/
def subtrees : RandObject → List RandObject
  | .node core children =>
    (children.attach.flatMap fun ⟨c, _⟩ => c.subtrees) ++ [.node core children]

/-- Change what every object of the subtree has of its own. -/
def mapCores (f : ObjectCore → ObjectCore) : RandObject → RandObject
  | .node core children => .node (f core) (children.attach.map fun ⟨c, _⟩ => c.mapCores f)

section

variable {o t : RandObject} {core : ObjectCore} {children : List RandObject}
  {f g : ObjectCore → ObjectCore}

theorem subtrees_node : (node core children).subtrees =
    children.flatMap subtrees ++ [node core children] := by
  rw [subtrees]
  simp [List.flatMap_subtype]

/-- What holds of all objects of a tree holds of the one at the root and of those of each child. -/
theorem forall_subtrees_node {p : RandObject → Prop} :
    (∀ t ∈ (node core children).subtrees, p t) ↔
      p (node core children) ∧ ∀ t ∈ children, ∀ u ∈ t.subtrees, p u := by
  rw [subtrees_node]
  simp only [List.mem_append, List.mem_flatMap, List.mem_singleton]
  constructor
  · exact fun h => ⟨h _ (.inr rfl), fun t ht u hu => h u (.inl ⟨t, ht, hu⟩)⟩
  · rintro ⟨hroot, hchildren⟩ t (⟨u, hu, ht⟩ | rfl)
    · exact hchildren u hu t ht
    · exact hroot

theorem mem_subtrees_self (o : RandObject) : o ∈ o.subtrees := by
  obtain ⟨core, children⟩ := o
  rw [subtrees_node]
  exact List.mem_append_right _ List.mem_cons_self

theorem mem_subtrees_of_child (h : t ∈ o.children) : t ∈ o.subtrees := by
  obtain ⟨core, children⟩ := o
  rw [subtrees_node]
  exact List.mem_append_left _ (List.mem_flatMap.mpr ⟨t, h, t.mem_subtrees_self⟩)

theorem subtrees_sublist (h : t ∈ o.subtrees) : t.subtrees.Sublist o.subtrees := by
  induction o using induct with
  | node core children ih =>
    rw [subtrees_node] at h
    rcases List.mem_append.mp h with h | h
    · obtain ⟨c, hc, ht⟩ := List.mem_flatMap.mp h
      rw [subtrees_node]
      refine ((ih c hc ht).trans ?_).trans (List.sublist_append_left _ _)
      exact List.sublist_flatten_of_mem (List.mem_map_of_mem hc)
    · rw [List.mem_singleton.mp h]

theorem mapCores_node :
    (node core children).mapCores f = node (f core) (children.map (mapCores f)) := by
  rw [mapCores]
  simp

@[simp]
theorem core_mapCores : (o.mapCores f).core = f o.core := by
  obtain ⟨core, children⟩ := o
  rw [mapCores_node]
  rfl

theorem mapCores_mapCores : (o.mapCores f).mapCores g = o.mapCores fun core => g (f core) := by
  induction o using induct with
  | node core children ih =>
    rw [mapCores_node, mapCores_node, mapCores_node, List.map_map]
    exact congrArg _ (List.map_congr_left ih)

theorem subtrees_mapCores : (o.mapCores f).subtrees = o.subtrees.map (mapCores f) := by
  induction o using induct with
  | node core children ih =>
    rw [mapCores_node, subtrees_node, subtrees_node, List.map_append, List.map_flatMap,
      List.flatMap_map]
    refine congrArg₂ _ ?_ ?_
    · rw [List.flatMap_def, List.flatMap_def]
      exact congrArg _ (List.map_congr_left ih)
    · simp [mapCores_node]

/-- A list of trees around one of them, in whose place others can be put. -/
theorem exists_split_set {ts : List RandObject} {i : Nat} (h : ts[i]? = some t) :
    ∃ before after, ts = before ++ t :: after ∧ ∀ u, ts.set i u = before ++ u :: after := by
  obtain ⟨hlt, rfl⟩ := List.getElem?_eq_some_iff.mp h
  exact ⟨ts.take i, ts.drop (i + 1), by simp,
    fun u => List.set_eq_take_append_cons_drop.trans (if_pos hlt)⟩

theorem registriesEach_eq (ts : List RandObject) : registriesEach ts = ts.flatMap registries := by
  induction ts with
  | nil => rfl
  | cons t ts ih => rw [registriesEach, ih, List.flatMap_cons]

theorem isDirtyAny_eq (ts : List RandObject) : isDirtyAny ts = ts.any isDirty := by
  induction ts with
  | nil => rfl
  | cons t ts ih => rw [isDirtyAny, ih, List.any_cons]

theorem markCleanEach_eq (ts : List RandObject) : markCleanEach ts = ts.map markClean := by
  induction ts with
  | nil => rfl
  | cons t ts ih => rw [markCleanEach, ih, List.map_cons]

/-- The registries are those of all subtrees. -/
theorem registries_eq : o.registries = o.subtrees.map fun t => t.core.registry := by
  induction o using induct with
  | node core children ih =>
    rw [registries, registriesEach_eq, subtrees_node, List.map_append, List.map_flatMap]
    refine congrArg₂ _ ?_ rfl
    rw [List.flatMap_def, List.flatMap_def]
    exact congrArg _ (List.map_congr_left ih)

/-- Something in the tree has changed if it has in one of the subtrees. -/
theorem isDirty_eq :
    o.isDirty = o.subtrees.any fun t => t.core.stale || t.core.registry.changed := by
  induction o using induct with
  | node core children ih =>
    rw [isDirty, isDirtyAny_eq, subtrees_node, List.any_append, List.any_flatMap]
    have hchildren : children.any isDirty = children.any fun c =>
        c.subtrees.any fun t => t.core.stale || t.core.registry.changed := by
      rw [Bool.eq_iff_iff, List.any_eq_true, List.any_eq_true]
      exact exists_congr fun c => and_congr_right fun hc => by rw [ih c hc]
    rw [hchildren, Bool.or_comm]
    simp [RandObject.core]

theorem markClean_eq : o.markClean = o.mapCores fun core =>
    { core with registry := core.registry.acknowledge, stale := false } := by
  induction o using induct with
  | node core children ih =>
    rw [markClean, markCleanEach_eq, mapCores_node]
    exact congrArg _ (List.map_congr_left ih)

/-- What has been acknowledged is no change any more. -/
theorem isDirty_markClean (o : RandObject) : o.markClean.isDirty = false := by
  rw [isDirty_eq, markClean_eq, subtrees_mapCores, List.any_map, List.any_eq_false]
  intro t _
  simp [Registry.acknowledge]

@[simp]
theorem core_mapCore : (o.mapCore f).core = f o.core := by
  cases o
  rfl

theorem registries_mapCore (h : (f o.core).registry = o.core.registry) :
    (o.mapCore f).registries = o.registries := by
  obtain ⟨core, children⟩ := o
  exact congrArg (fun r => registriesEach children ++ [r]) h

theorem isDirty_mapCore (h : (f o.core).registry = o.core.registry)
    (hstale : (f o.core).stale = o.core.stale) : (o.mapCore f).isDirty = o.isDirty := by
  obtain ⟨core, children⟩ := o
  show ((f core).stale || (f core).registry.changed || isDirtyAny children) = _
  rw [show (f core).registry = core.registry from h, show (f core).stale = core.stale from hstale]
  rfl

end

/-! ## §2 Sources of randomness -/

/-- The tree apart from its sources of randomness. -/
def undrawn (o : RandObject) : RandObject := o.mapCores ObjectCore.undrawn

section

variable {o o' : RandObject} {core : ObjectCore} {children : List RandObject} {c : Context}

/-- Trees that differ in their sources of randomness alone have the same registries, and the same
    has changed in them. -/
theorem same_of_undrawn (h : o'.undrawn = o.undrawn) :
    o'.registries = o.registries ∧ o'.isDirty = o.isDirty ∧
      o'.core.generator = o.core.generator := by
  have hregistries (o : RandObject) : o.undrawn.registries = o.registries := by
    rw [registries_eq, registries_eq, undrawn, subtrees_mapCores, List.map_map]
    exact List.map_congr_left fun t _ => by
      rw [Function.comp_apply, core_mapCores, ObjectCore.undrawn]
  have hdirty (o : RandObject) : o.undrawn.isDirty = o.isDirty := by
    rw [isDirty_eq, isDirty_eq, undrawn, subtrees_mapCores, List.any_map]
    exact List.any_congr rfl fun t => by rw [Function.comp_apply, core_mapCores, ObjectCore.undrawn]
  have hgenerator (o : RandObject) : o.undrawn.core.generator = o.core.generator := by
    rw [undrawn, core_mapCores, ObjectCore.undrawn]
  refine ⟨?_, ?_, ?_⟩
  · rw [← hregistries o', h, hregistries]
  · rw [← hdirty o', h, hdirty]
  · rw [← hgenerator o', h, hgenerator]

theorem undrawn_node :
    (node core children).undrawn = node core.undrawn (children.map undrawn) :=
  mapCores_node

/-! ## §3 Random values -/

/-- The members of the objects of the tree are random variables. -/
def MembersRandom (o : RandObject) (c : Context) : Prop :=
  ∀ t ∈ o.subtrees, ∀ v ∈ t.core.members, c.isRandom v.id = true

theorem MembersRandom.keeps {c' : Context} (h : o.MembersRandom c) (hkeeps : c.Keeps c') :
    o.MembersRandom c' :=
  fun t ht v hv => by rw [hkeeps.isRandom, h t ht v hv]

theorem membersRandom_node : (node core children).MembersRandom c ↔
    (∀ v ∈ core.members, c.isRandom v.id = true) ∧ ∀ t ∈ children, t.MembersRandom c :=
  forall_subtrees_node

/-- Random values for random variables. -/
theorem randomizeAll_ends (c : Context) (vs : List Variable) (rng : Stream) :
    Ends (randomizeAll c vs rng) (fun _ => True) fun r =>
      (∀ v ∈ vs, c.isRandom v.id = true) → c.Becomes r.1 ∧ c.Keeps r.1 := by
  induction vs generalizing c rng with
  | nil => exact fun _ => ⟨.refl, .refl c⟩
  | cons v vs ih =>
    unfold randomizeAll Context.randomize
    apply Ends.bind (P := fun r => ∃ bits, r.1 = c.setBits v.id bits)
    · apply Ends.bind (ends_true (Context.randomBits v.type.sort rng))
      exact fun r _ => ⟨r.1, rfl⟩
    · rintro ⟨_, rng'⟩ ⟨bits, rfl⟩
      apply (ih (c.setBits v.id bits) rng').imp (fun _ hf => hf)
      rintro r hr hrandom
      obtain ⟨hv, hrest⟩ := List.forall_mem_cons.mp hrandom
      -- The variable is random, so setting its bits is writing to it.
      have hwrite : c.setBits v.id bits = c.write v.id bits := (if_pos hv).symm
      rw [hwrite] at hr
      have hkeeps := c.keeps_write v.id bits
      obtain ⟨hbecomes', hkeeps'⟩ := hr fun w hw => by rw [hkeeps.isRandom, hrest w hw]
      exact ⟨.head (.write c v.id bits) hbecomes', hkeeps.trans hkeeps'⟩

/-- What scattering leaves of a tree and of its context. -/
def Scattered (c : Context) (o : RandObject) (r : RandObject × Context) : Prop :=
  r.1.undrawn = o.undrawn ∧ (o.MembersRandom c → c.Becomes r.2 ∧ c.Keeps r.2)

/-- Several subtrees are scattered one after the other. -/
theorem scatterEach_ends {ts : List RandObject}
    (h : ∀ t ∈ ts, ∀ c, Ends (t.scatter c) (fun _ => True) (Scattered c t)) (c : Context) :
    Ends (scatterEach c ts) (fun _ => True) fun r => r.1.map undrawn = ts.map undrawn ∧
      ((∀ t ∈ ts, t.MembersRandom c) → c.Becomes r.2 ∧ c.Keeps r.2) := by
  induction ts generalizing c with
  | nil => exact ⟨rfl, fun _ => ⟨.refl, .refl c⟩⟩
  | cons t ts ih =>
    obtain ⟨ht, hts⟩ := List.forall_mem_cons.mp h
    unfold scatterEach
    apply Ends.bind (ht c)
    rintro ⟨t', c₁⟩ ⟨hsame, hc₁⟩
    apply Ends.bind (ih hts c₁)
    rintro ⟨ts', c₂⟩ ⟨hrest, hc₂⟩
    refine ⟨congrArg₂ List.cons hsame hrest, fun hrandom => ?_⟩
    obtain ⟨hfirst, hothers⟩ := List.forall_mem_cons.mp hrandom
    obtain ⟨hbecomes, hkeeps⟩ := hc₁ hfirst
    obtain ⟨hbecomes', hkeeps'⟩ := hc₂ fun u hu => (hothers u hu).keeps hkeeps
    exact ⟨hbecomes.trans hbecomes', hkeeps.trans hkeeps'⟩

/-- Giving random values to the members takes words from the sources, and changes nothing else. -/
theorem scatter_ends (c : Context) (o : RandObject) :
    Ends (o.scatter c) (fun _ => True) (Scattered c o) := by
  induction o using induct generalizing c with
  | node core children ih =>
    unfold scatter
    apply Ends.bind (randomizeAll_ends c core.members core.rng)
    rintro ⟨c₁, rng⟩ hc₁
    apply Ends.bind (scatterEach_ends (fun t ht c => ih t ht c) c₁)
    rintro ⟨children', c₂⟩ ⟨hsame, hc₂⟩
    refine ⟨?_, fun hrandom => ?_⟩
    · rw [undrawn_node, undrawn_node, hsame]
      rfl
    · obtain ⟨hcore, hchildren⟩ := membersRandom_node.mp hrandom
      obtain ⟨hbecomes, hkeeps⟩ := hc₁ hcore
      obtain ⟨hbecomes', hkeeps'⟩ := hc₂ fun t ht => (hchildren t ht).keeps hkeeps
      exact ⟨hbecomes.trans hbecomes', hkeeps.trans hkeeps'⟩

end

end RandObject

end Stimulus
