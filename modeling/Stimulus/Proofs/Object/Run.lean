import Stimulus.Proofs.Object.Frame

/-!
# Runs of objects

Objects of one context are made, attached to each other and worked on, and between this anybody may
change the context.  Whatever is done, the registries of all objects have ids of their own, their
constraints are written over the variables of the context, and the members are random variables.

Main definitions:
- `RandObject.Kept`: what holds of an object in its context at any time
- `RandObject.Act`: what an object can be asked for
- `Forest`, `Forest.Step`, `Forest.Grown`: the objects of a context and their runs
- `RandObject.Stands`: objects that stand anywhere in such a forest

Main statements:
- `RandObject.within_evolves`
- `Forest.Grown.sound`
-/

namespace Stimulus

open Relation (ReflTransGen)
open Registries (Taken)

/-- Switching changes nothing about a constraint but whether it is switched on. -/
theorem Registry.mem_setEnabled {r : Registry} {name : String} {enabled : Bool} {x : Constraint}
    (h : x ∈ (r.setEnabled name enabled).2.constraints) :
    ∃ y ∈ r.constraints, x.expr = y.expr ∧ x.support = y.support := by
  unfold Registry.setEnabled at h
  cases hfind : r.find? name with
  | none =>
    rw [hfind] at h
    exact ⟨x, h, rfl, rfl⟩
  | some y =>
    rw [hfind] at h
    dsimp only at h
    split at h
    · exact ⟨x, h, rfl, rfl⟩
    · obtain ⟨z, hz, rfl⟩ := List.mem_map.mp h
      refine ⟨z, hz, ?_⟩
      split <;> exact ⟨rfl, rfl⟩

/-- The constraints of the object are over the variables of the context, and its members are random
    variables. -/
structure ObjectCore.Kept (core : ObjectCore) (c : Context) : Prop where
  written : ∀ x ∈ core.registry.constraints, x.Written c.signature
  random : ∀ v ∈ core.members, c.isRandom v.id = true

theorem ObjectCore.Kept.becomes {core : ObjectCore} {c c' : Context} (h : core.Kept c)
    (hc : c.WellFormed) (hbecomes : c.Becomes c') : core.Kept c' where
  written x hx := (h.written x hx).mono (hbecomes.grows hc).signature
  random v hv := by
    obtain ⟨cell, hcell, hrole⟩ := Context.isRandom_iff.mp (h.random v hv)
    obtain ⟨bits, hbits⟩ := (hbecomes.grows hc).cells v.id cell hcell
    exact Context.isRandom_iff.mpr ⟨_, hbits, hrole⟩

namespace RandObject

/-! ## §1 What holds at any time -/

/-- What holds of an object in its context at any time. -/
def Kept (o : RandObject) (c : Context) : Prop := ∀ t ∈ o.subtrees, t.core.Kept c

/-- The ids of the registries of the tree. -/
def ids (o : RandObject) : List Nat := o.registries.map Registry.id

/-- The object is kept, and some ids may have come to it. -/
structure Evolves (new : List Nat) (s s' : InContext RandObject) : Prop where
  becomes : s.context.Becomes s'.context
  kept : s'.item.Kept s'.context
  ids : s'.item.ids.Subperm (new ++ s.item.ids)

section

variable {o o' t : RandObject} {core core' : ObjectCore} {children : List RandObject}
  {c c' : Context} {s s' : InContext RandObject} {new : List Nat}

theorem Kept.becomes (h : o.Kept c) (hc : c.WellFormed) (hbecomes : c.Becomes c') : o.Kept c' :=
  fun t ht => (h t ht).becomes hc hbecomes

theorem Kept.subtree (h : o.Kept c) (ht : t ∈ o.subtrees) : t.Kept c :=
  fun u hu => h u ((subtrees_sublist ht).subset hu)

theorem Kept.membersRandom (h : o.Kept c) : o.MembersRandom c := fun t ht => (h t ht).random

theorem kept_node : (node core children).Kept c ↔ core.Kept c ∧ ∀ t ∈ children, t.Kept c :=
  forall_subtrees_node

theorem ids_eq (o : RandObject) : o.ids = o.subtrees.map fun t => t.core.registry.id := by
  unfold ids
  rw [registries_eq, List.map_map]
  rfl

theorem ids_node : (node core children).ids = children.flatMap ids ++ [core.registry.id] := by
  rw [ids_eq, subtrees_node, List.map_append, List.map_flatMap]
  simp only [← ids_eq]
  rfl

theorem Evolves.refl (h : s.item.Kept s.context) (new : List Nat) : Evolves new s s :=
  ⟨.refl, h, (List.sublist_append_right _ _).subperm⟩

/-- A solve evolves the object. -/
theorem Aside.evolves (h : Aside ObjectCore.skeleton s s') (hc : s.context.WellFormed)
    (hkept : s.item.Kept s.context) : Evolves [] s s' := by
  have hbecomes := h.becomes hc hkept.membersRandom
  refine ⟨hbecomes, fun t ht => ?_, ?_⟩
  · obtain ⟨u, hu, heq⟩ := exists_of_same h.same ht
    obtain ⟨hwritten, hrandom⟩ := (hkept u hu).becomes hc hbecomes
    have hconstraints := congrArg (fun core => core.registry.constraints) heq
    have hmembers := congrArg ObjectCore.members heq
    dsimp only [ObjectCore.skeleton, Registry.acknowledge] at hconstraints hmembers
    exact ⟨hconstraints ▸ hwritten, hmembers ▸ hrandom⟩
  · have hids := congrArg (List.map fun core => core.registry.id) (cores_of_same h.same)
    rw [List.map_map, List.map_map] at hids
    rw [ids_eq, ids_eq]
    exact List.Perm.subperm (.of_eq hids)

/-- The root alone has changed. -/
theorem evolves_root (hc : c.WellFormed) (hkept : (node core children).Kept c)
    (hbecomes : c.Becomes c') (hcore : core'.Kept c') (hid : core'.registry.id = core.registry.id) :
    Evolves [] ⟨c, node core children⟩ ⟨c', node core' children⟩ := by
  refine ⟨hbecomes, kept_node.mpr ⟨hcore, fun t ht => ?_⟩, ?_⟩
  · exact ((kept_node.mp hkept).2 t ht).becomes hc hbecomes
  · rw [List.nil_append, ids_node, ids_node, hid]

/-- A member is declared. -/
theorem evolves_declare (hc : c.WellFormed) (hkept : (node core children).Kept c)
    (hchanges : c.Changes c') {v : Variable} (hv : c'.isRandom v.id = true) :
    Evolves [] ⟨c, node core children⟩
      ⟨c', node { core with members := core.members ++ [v] } children⟩ := by
  have hcore := (kept_node.mp hkept).1.becomes hc (.single hchanges)
  refine evolves_root hc hkept (.single hchanges) ⟨hcore.written, fun w hw => ?_⟩ rfl
  rcases List.mem_append.mp hw with hw | hw
  · exact hcore.random w hw
  · exact List.mem_singleton.mp hw ▸ hv

theorem declare_evolves (hc : s.context.WellFormed) (hkept : s.item.Kept s.context)
    (type : ScalarType) : Leaves (declare type) s (Evolves [] s) := by
  obtain ⟨c, ⟨core, children⟩⟩ := s
  refine evolves_declare hc hkept (.declare c type) ?_
  refine Context.isRandom_iff.mpr ⟨⟨type, .random, 0⟩, ?_, rfl⟩
  exact (Context.cells_withCell c ⟨type, .random, 0⟩ c.nextId).trans (if_pos rfl)

theorem declareVector_evolves (hc : s.context.WellFormed) (hkept : s.item.Kept s.context)
    (type : ScalarType) : Leaves (declareVector type) s (Evolves [] s) := by
  obtain ⟨c, ⟨core, children⟩⟩ := s
  refine evolves_declare hc hkept (.declareVector c type) ?_
  refine Context.isRandom_iff.mpr ⟨⟨.size, .random, 0⟩, ?_, rfl⟩
  exact (Context.cells_withCell (Context.takeId c).2 ⟨.size, .random, 0⟩ _).trans (if_pos rfl)

/-- The constraints with one that is written. -/
theorem written_append {r : Registry} {e : Expr} {x : Constraint} {s : InContext Registry}
    (hr : ∀ y ∈ r.constraints, y.Written c.signature) (he : c.Writes e)
    (hadds : Registry.Adds c r e x s) :
    ∀ y ∈ s.item.constraints, y.Written s.context.signature := by
  intro y hy
  rw [hadds.keeps.signature]
  rw [hadds.item_eq] at hy
  rcases List.mem_append.mp hy with hy | hy
  · exact hr y hy
  · cases List.mem_singleton.mp hy
    refine ⟨by rw [hadds.support_eq, hadds.expr_eq], fun hscalar => ?_⟩
    rw [Constraint.isVector, hadds.expr_eq] at hscalar
    rw [hadds.expr_eq]
    exact he (hadds.scalar hscalar)

theorem add_evolves (hc : s.context.WellFormed) (hkept : s.item.Kept s.context) {e : Expr}
    (he : s.context.Writes e) (kind : Kind) (name : Option String) :
    Leaves (add kind name e) s (Evolves [] s) := by
  obtain ⟨c, ⟨core, children⟩⟩ := s
  have hcore := (kept_node.mp hkept).1
  unfold Leaves Grants RandObject.add
  dsimp only
  cases hrun : Registry.make name e (kind = .soft) (kind = .cover) ⟨c, core.registry⟩ with
  | error fault => trivial
  | ok r =>
    have hbecomes : c.Becomes r.2.context :=
      (Registry.make_since name e _ _ c ⟨c, core.registry⟩ .refl).of_run hrun
    have hcore' := hcore.becomes hc hbecomes
    have hmake := Registry.make_grants (c := c) (r := core.registry) (E := fun _ => True) name e
      (kind = .soft) (kind = .cover)
    -- A constraint that is refused may have taken an id, which the context remembers.
    obtain ⟨refusal | x, c', registry⟩ := r
    · obtain ⟨-, rfl⟩ := hmake.of_refusal hrun
      exact evolves_root hc hkept hbecomes hcore' rfl
    · have hadds := hmake.of_run hrun
      have hregistry := hadds.item_eq
      dsimp only at hregistry
      refine evolves_root hc hkept hbecomes ⟨?_, hcore'.random⟩ ?_
      · exact written_append hcore.written he hadds
      · rw [hregistry]

/-- Switch a constraint of the object on or off. -/
def switch (name : String) (enabled : Bool) : Objective Bool :=
  InContext.update fun o => o.setEnabled name enabled

theorem switch_evolves (hc : s.context.WellFormed) (hkept : s.item.Kept s.context) (name : String)
    (enabled : Bool) : Leaves (switch name enabled) s (Evolves [] s) := by
  obtain ⟨c, ⟨core, children⟩⟩ := s
  have hcore := (kept_node.mp hkept).1
  refine evolves_root hc hkept .refl ⟨fun x hx => ?_, hcore.random⟩ ?_
  · obtain ⟨y, hy, hexpr, hsupport⟩ := Registry.mem_setEnabled hx
    obtain ⟨hsame, hadmits⟩ := hcore.written y hy
    refine ⟨by rw [hexpr, hsupport, hsame], fun hscalar => ?_⟩
    rw [hexpr]
    exact hadmits (by rwa [Constraint.isVector, ← hexpr])
  · exact core.registry.id_setEnabled name enabled

/-- Attach an object. -/
def attaching (child : RandObject) : Objective Unit := fun s =>
  match s.item.attach child with
  | .error fault => .error fault
  | .ok o => .ok (.ok (), ⟨s.context, o⟩)

theorem attaching_evolves (hkept : s.item.Kept s.context) {child : RandObject}
    (hchild : child.Kept s.context) : Leaves (attaching child) s (Evolves child.ids s) := by
  obtain ⟨c, ⟨core, children⟩⟩ := s
  obtain ⟨hcore, hchildren⟩ := kept_node.mp hkept
  unfold Leaves Grants attaching attach
  dsimp only
  by_cases hhome : core.home = child.core.home
  · rw [if_pos hhome]
    refine ⟨.refl, kept_node.mpr ⟨⟨hcore.written, hcore.random⟩, fun t ht => ?_⟩, ?_⟩
    · rcases List.mem_append.mp ht with ht | ht
      · exact hchildren t ht
      · exact List.mem_singleton.mp ht ▸ hchild
    · rw [ids_node, ids_node, List.flatMap_append, List.append_assoc]
      refine List.Perm.subperm ?_
      simpa using List.perm_append_comm_assoc (children.flatMap ids) child.ids [core.registry.id]
  · rw [if_neg hhome]
    trivial

/-- One of the children has evolved. -/
theorem evolves_set (hc : c.WellFormed) (hkept : (node core children).Kept c) {i : Nat}
    (hi : children[i]? = some t) (h : Evolves new ⟨c, t⟩ ⟨c', o⟩) :
    Evolves new ⟨c, node core children⟩ ⟨c', node core (children.set i o)⟩ := by
  obtain ⟨hbecomes, ho, hids⟩ := h
  obtain ⟨hcore, hchildren⟩ := kept_node.mp hkept
  refine ⟨hbecomes, kept_node.mpr ⟨hcore.becomes hc hbecomes, fun u hu => ?_⟩, ?_⟩
  · rcases List.mem_or_eq_of_mem_set hu with hu | rfl
    · exact (hchildren u hu).becomes hc hbecomes
    · exact ho
  · obtain ⟨before, after, rfl, hset⟩ := exists_split_set hi
    rw [ids_node, ids_node, hset]
    simp only [List.flatMap_append, List.flatMap_cons, List.append_assoc]
    -- What has come to the child has come to the tree.
    refine List.Subperm.trans ?_ (List.perm_append_comm_assoc _ _ _).subperm
    rw [List.subperm_append_left, ← List.append_assoc new, List.subperm_append_right]
    exact hids

/-- A descendant evolves as it does on its own. -/
theorem within_evolves {α : Type} {act : Objective α} (new : List Nat) (hc : c.WellFormed)
    (h : ∀ o : RandObject, o.Kept c → Leaves act ⟨c, o⟩ (Evolves new ⟨c, o⟩)) (path : List Nat)
    (hkept : o.Kept c) : Leaves (within act path) ⟨c, o⟩ (Evolves new ⟨c, o⟩) := by
  -- What evolves below evolves the whole, one level at a time.
  induction path generalizing o with
  | nil => exact (h o hkept).bind fun a => .pure _
  | cons i path ih =>
    obtain ⟨core, children⟩ := o
    unfold Leaves Grants within
    dsimp only
    cases hi : children[i]? with
    | none => exact .refl hkept new
    | some t =>
      have ht := (kept_node.mp hkept).2 t (List.mem_of_getElem? hi)
      dsimp only
      cases hrun : within act path ⟨c, t⟩ with
      | error fault => trivial
      | ok r =>
        have hevolves := evolves_set hc hkept hi ((ih ht).of_run hrun)
        obtain ⟨refusal | a, c', t'⟩ := r <;> exact hevolves

end

/-! ## §2 What an object can be asked for -/

/-- What an object can be asked for.  Constraints are written over the variables of the context. -/
inductive Act (c : Context) : {α : Type} → Objective α → Prop where
  | declare (type : ScalarType) : Act c (declare type)
  | declareVector (type : ScalarType) : Act c (declareVector type)
  | add {e : Expr} (he : c.Writes e) (kind : Kind) (name : Option String) :
      Act c (add kind name e)
  | switch (name : String) (enabled : Bool) : Act c (switch name enabled)
  | preRandomize : Act c preRandomize
  | next : Act c next
  | tryNext : Act c tryNext
  | nextCover : Act c nextCover
  | resetCoverage : Act c resetCoverage
  | nextWith {es : List Expr} (hes : ∀ e ∈ es, c.Writes e) : Act c (nextWith es)

theorem Act.evolves {α : Type} {act : Objective α} {c : Context} {o : RandObject} (h : Act c act)
    (hc : c.WellFormed) (hkept : o.Kept c) : Leaves act ⟨c, o⟩ (Evolves [] ⟨c, o⟩) := by
  have hsolve {β : Type} {act : Objective β}
      (hact : Preserves act (Aside ObjectCore.skeleton ⟨c, o⟩)) :
      Leaves act ⟨c, o⟩ (Evolves [] ⟨c, o⟩) :=
    Leaves.imp (hact _ (.refl _ _)) fun _ hs => hs.evolves hc hkept
  cases h with
  | declare type => exact declare_evolves hc hkept type
  | declareVector type => exact declareVector_evolves hc hkept type
  | add he kind name => exact add_evolves hc hkept he kind name
  | switch name enabled => exact switch_evolves hc hkept name enabled
  | preRandomize => exact hsolve view_skeleton.preRandomize
  | next => exact hsolve next_aside
  | tryNext => exact hsolve tryNext_aside
  | nextCover => exact hsolve nextCover_aside
  | resetCoverage => exact hsolve resetCoverage_aside
  | nextWith hes => exact hsolve (view_skeleton.nextWith _)

end RandObject

/-! ## §3 Forests -/

/-- A context and the objects that were made in it and are not attached to others, with all their
    descendants. -/
structure Forest where
  context : Context
  trees : List RandObject

namespace Forest

open RandObject

/-- A step of those who hold the objects. -/
inductive Step : Forest → Forest → Prop where
  /-- Anybody changes the context. -/
  | change {c c' : Context} (ts : List RandObject) (h : c.Changes c') : Step ⟨c, ts⟩ ⟨c', ts⟩
  /-- An object is made, as the first one of the context or by a descendant of another one. -/
  | create (c : Context) (ts : List RandObject) (name : String) (settings : Settings) :
      Step ⟨c, ts⟩ ⟨(create name settings c).2, (create name settings c).1 :: ts⟩
  | child {t parent : RandObject} {ts : List RandObject} (c : Context) (ht : t ∈ ts)
      (hparent : parent ∈ t.subtrees) (name : String) :
      Step ⟨c, ts⟩ ⟨(parent.child name c).2, (parent.child name c).1 :: ts⟩
  /-- An object is attached to a descendant of another one. -/
  | attach {c c' : Context} {ts rest : List RandObject} {child t t' : RandObject} {path : List Nat}
      {a : Except Refusal (Option Unit)} (hts : ts.Perm (child :: t :: rest))
      (h : within (attaching child) path ⟨c, t⟩ = .ok (a, ⟨c', t'⟩)) :
      Step ⟨c, ts⟩ ⟨c', t' :: rest⟩
  /-- A descendant of an object is asked for something. -/
  | act {α : Type} {act : Objective α} {c c' : Context} {ts rest : List RandObject}
      {t t' : RandObject} {path : List Nat} {a : Except Refusal (Option α)} (hact : Act c act)
      (hts : ts.Perm (t :: rest)) (h : within act path ⟨c, t⟩ = .ok (a, ⟨c', t'⟩)) :
      Step ⟨c, ts⟩ ⟨c', t' :: rest⟩

/-- The forests that grow in a context. -/
inductive Grown : Forest → Prop where
  | empty (identity : Nat) (entropy : Nat → ChaCha.Key) : Grown ⟨.empty identity entropy, []⟩
  | step {w w' : Forest} (hw : Grown w) (h : Step w w') : Grown w'

/-- What holds of a forest at any time. -/
structure Sound (w : Forest) : Prop where
  wellFormed : w.context.WellFormed
  kept : ∀ t ∈ w.trees, t.Kept w.context
  taken : Taken w.context (w.trees.flatMap ids)

section

variable {w w' : Forest} {c c' : Context} {ts rest : List RandObject} {t t' : RandObject}

theorem taken_subperm {ids ids' : List Nat} (h : Taken c ids) (hsub : ids'.Subperm ids) :
    Taken c ids' := by
  refine ⟨?_, fun id hid => h.lt id (hsub.subset hid)⟩
  obtain ⟨l, hperm, hsublist⟩ := hsub
  exact hperm.nodup_iff.mp (hsublist.nodup h.nodup)

/-- A tree has evolved, and others may have come to it. -/
theorem Sound.evolve (h : Sound ⟨c, ts⟩) (gone : List RandObject)
    (hts : ts.Perm (gone ++ t :: rest)) (hevolves : Evolves (gone.flatMap ids) ⟨c, t⟩ ⟨c', t'⟩) :
    Sound ⟨c', t' :: rest⟩ := by
  obtain ⟨hbecomes, ht', hids⟩ := hevolves
  refine ⟨hbecomes.wellFormed h.wellFormed, List.forall_mem_cons.mpr ⟨ht', fun u hu => ?_⟩, ?_⟩
  · exact (h.kept u (hts.mem_iff.mpr (by simp [hu]))).becomes h.wellFormed hbecomes
  · refine (taken_subperm h.taken ?_).mono hbecomes.nextConstraintId_le
    refine List.Subperm.trans ?_ (hts.flatMap_right ids).symm.subperm
    rw [List.flatMap_append, List.flatMap_cons, List.flatMap_cons, ← List.append_assoc,
      List.subperm_append_right]
    exact hids

/-- A new object takes an id, for its registry, and entropy. -/
theorem create_becomes (name : String) (settings : Settings) (c : Context) :
    c.Becomes (create name settings c).2 :=
  .tail (.single (.takeConstraintId c)) (.takeEntropy _)

/-- An object is made. -/
theorem Sound.create (h : Sound ⟨c, ts⟩) (name : String) (settings : Settings) :
    Sound ⟨(create name settings c).2, (create name settings c).1 :: ts⟩ := by
  have hbecomes : c.Becomes (RandObject.create name settings c).2 := create_becomes name settings c
  refine ⟨hbecomes.wellFormed h.wellFormed, List.forall_mem_cons.mpr ⟨?_, fun t ht => ?_⟩, ?_⟩
  · exact kept_node.mpr ⟨⟨fun x hx => absurd hx List.not_mem_nil,
      fun v hv => absurd hv List.not_mem_nil⟩, fun t ht => absurd ht List.not_mem_nil⟩
  · exact (h.kept t ht).becomes h.wellFormed hbecomes
  · have hids : (RandObject.create name settings c).1.ids = [c.nextConstraintId] := ids_node
    rw [List.flatMap_cons, hids]
    exact h.taken.cons.mono (Nat.le_refl _)

theorem Sound.change (h : Sound ⟨c, ts⟩) (hchanges : c.Changes c') : Sound ⟨c', ts⟩ :=
  ⟨hchanges.wellFormed h.wellFormed, fun t ht => (h.kept t ht).becomes h.wellFormed (.single hchanges),
    h.taken.mono hchanges.nextConstraintId_le⟩

theorem Step.sound (hstep : Step w w') (h : w.Sound) : w'.Sound := by
  -- Objects are added, joined or operated on; in each case the others stay as they are.
  cases hstep with
  | change ts hchanges => exact h.change hchanges
  | create c ts name settings => exact h.create name settings
  | child c ht hparent name =>
    rename_i t parent ts
    unfold RandObject.child
    cases parent.core.settings.seed with
    | none => exact h.create name _
    | some seed => exact (h.change (.takeId c)).create name _
  | attach hts hrun =>
    rename_i c c' ts rest child t t' path a
    have hchild := h.kept child (hts.mem_iff.mpr List.mem_cons_self)
    have ht := h.kept t (hts.mem_iff.mpr (List.mem_cons_of_mem _ List.mem_cons_self))
    have hattach := within_evolves child.ids h.wellFormed
      (fun o ho => attaching_evolves (s := ⟨c, o⟩) ho hchild) path ht
    exact h.evolve [child] hts (by simpa using hattach.of_run hrun)
  | act hact hts hrun =>
    rename_i α act c c' ts rest t t' path a
    have ht := h.kept t (hts.mem_iff.mpr List.mem_cons_self)
    have hevolves :=
      within_evolves [] h.wellFormed (fun o ho => hact.evolves h.wellFormed ho) path ht
    exact h.evolve [] hts (hevolves.of_run hrun)

/-- In every run the registries have ids of their own, and constraints are written over the
variables of the context. -/
theorem Grown.sound (h : w.Grown) : w.Sound := by
  induction h with
  | empty identity entropy =>
    exact ⟨Context.wellFormed_empty identity entropy, fun t ht => absurd ht List.not_mem_nil,
      List.nodup_nil, fun id hid => absurd hid List.not_mem_nil⟩
  | step _ hstep ih => exact hstep.sound ih

end

end Forest

/-! ## §4 Objects in forests -/

namespace RandObject

variable {o t : RandObject} {c : Context}

/-- The object stands for itself or below another one in a forest. -/
def Stands (o : RandObject) (c : Context) : Prop :=
  ∃ w : Forest, w.Grown ∧ w.context = c ∧ ∃ t ∈ w.trees, o ∈ t.subtrees

theorem ids_sublist (h : t ∈ o.subtrees) : t.ids.Sublist o.ids := by
  rw [ids_eq, ids_eq]
  exact (subtrees_sublist h).map _

/-- What holds of an object in a forest at any time. -/
structure Sound (o : RandObject) (c : Context) : Prop where
  wellFormed : c.WellFormed
  kept : o.Kept c
  taken : Taken c o.ids

/-- What holds of a forest holds of each of its objects. -/
theorem sound_of_forest {w : Forest} (h : w.Sound) (ht : t ∈ w.trees) (ho : o ∈ t.subtrees) :
    o.Sound w.context := by
  have hids : o.ids.Sublist (w.trees.flatMap ids) :=
    (ids_sublist ho).trans (List.sublist_flatten_of_mem (List.mem_map_of_mem ht))
  exact ⟨h.wellFormed, (h.kept t ht).subtree ho, Forest.taken_subperm h.taken hids.subperm⟩

theorem Stands.sound (h : o.Stands c) : o.Sound c := by
  obtain ⟨w, hw, rfl, t, ht, ho⟩ := h
  exact sound_of_forest hw.sound ht ho

/-- A leaf and a root that were made in an empty context. -/
def seedlings : RandObject × RandObject × Context :=
  let settings : Settings := { seed := some 1, storageBits := 4 }
  let (leaf, c) := create "leaf" settings (.empty 0)
  let (root, c) := create "root" settings c
  (leaf, root, c)

theorem grown_seedlings : Forest.Grown ⟨seedlings.2.2, [seedlings.2.1, seedlings.1]⟩ :=
  .step (.step (.empty 0 _) (.create _ _ "leaf" _)) (.create _ _ "root" _)

end RandObject

end Stimulus
