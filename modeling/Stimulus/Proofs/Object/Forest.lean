import Stimulus.Proofs.Object.Solve

/-!
# Forests whose trees are solved as wholes

Those who hold objects edit them in any order, attach them to each other, and solve them now and
then.  If they solve nothing but whole trees, then the generators of these are up to date at any
time, and every solve that succeeds satisfies all that is active in the tree.  Below a root this is
not so: a solve of the root takes away the marks that tell when the generator of an object below is
out of date.

Main definitions:
- `RandObject.Edit`, `RandObject.Spares`: calls that use no generator, and what they leave
- `Forest.Tend`, `Forest.Tended`: runs in which whole trees are solved

Main statements:
- `Forest.Tended.fulfils`: whole trees
- `RandObject.fulfilled_of_answered`: any object
- `RandObject.unfulfilled_below_root`
-/

namespace Stimulus

namespace RandObject

/-! ## §1 Edits -/

/-- A call that uses no generator that an object keeps. -/
inductive Edit (c : Context) : {α : Type} → Objective α → Prop where
  | declare (type : ScalarType) : Edit c (declare type)
  | declareVector (type : ScalarType) : Edit c (declareVector type)
  | add {e : Expr} (he : c.Writes e) (kind : Kind) (name : Option String) :
      Edit c (add kind name e)
  | switch (name : String) (enabled : Bool) : Edit c (switch name enabled)
  | preRandomize : Edit c preRandomize
  | nextWith {es : List Expr} (hes : ∀ e ∈ es, c.Writes e) : Edit c (nextWith es)

/-- The generator of the object is the same.  If it seems that nothing has changed in the tree, then
    it seemed so before, and nothing has. -/
structure Spares (o o' : RandObject) : Prop where
  generator : o'.core.generator = o.core.generator
  unchanged : o'.isDirty = false → o.isDirty = false ∧ o'.registries = o.registries

section

variable {α : Type} {o o' t t' : RandObject} {c c' : Context} {core : ObjectCore}
  {children : List RandObject} {s s' : InContext RandObject}

theorem Edit.act {act : Objective α} (h : Edit c act) : Act c act := by
  cases h with
  | declare type => exact .declare type
  | declareVector type => exact .declareVector type
  | add he kind name => exact .add he kind name
  | switch name enabled => exact .switch name enabled
  | preRandomize => exact .preRandomize
  | nextWith hes => exact .nextWith hes

theorem Solve.act {act : Objective α} (h : Solve act) : Act c act := by
  cases h with
  | next => exact .next
  | tryNext => exact .tryNext
  | nextCover => exact .nextCover
  | resetCoverage => exact .resetCoverage

theorem Spares.refl (o : RandObject) : Spares o o := ⟨rfl, fun hclean => ⟨hclean, rfl⟩⟩

/-- The change of the tree is marked. -/
theorem spares_of_dirty (hgenerator : o'.core.generator = o.core.generator)
    (hdirty : o'.isDirty = true) : Spares o o' :=
  ⟨hgenerator, fun hclean => nomatch hdirty.symm.trans hclean⟩

theorem spares_members (members : List Variable) :
    Spares (node core children) (node { core with members := members } children) :=
  ⟨rfl, fun hclean => ⟨hclean, rfl⟩⟩

theorem spares_of_undrawn (h : o'.undrawn = o.undrawn) : Spares o o' := by
  obtain ⟨hregistries, hdirty, hgenerator⟩ := same_of_undrawn h
  exact ⟨hgenerator, fun hclean => ⟨hdirty.symm.trans hclean, hregistries⟩⟩

theorem UpToDate.spares (h : o.UpToDate c) (hspares : Spares o o') (hbecomes : c.Becomes c') :
    o'.UpToDate c' := by
  intro hclean g hg
  obtain ⟨hclean', hregistries⟩ := hspares.unchanged hclean
  have hserves := h hclean' g (hspares.generator ▸ hg)
  exact (hserves.becomes hbecomes).same (by rw [hregistries])

/-- A registry that has changed is a mark. -/
theorem isDirty_of_changed (h : core.registry.changed = true) :
    (node core children).isDirty = true := by
  simp [isDirty, h]

theorem add_spares (kind : Kind) (name : Option String) (e : Expr) :
    Leaves (add kind name e) s fun s' => Spares s.item s'.item := by
  obtain ⟨c, ⟨core, children⟩⟩ := s
  have hmake := Registry.make_grants (c := c) (r := core.registry) (E := fun _ => True) name e
    (kind = .soft) (kind = .cover)
  unfold Leaves Grants RandObject.add
  dsimp only
  cases hrun : Registry.make name e (kind = .soft) (kind = .cover) ⟨c, core.registry⟩ with
  | error fault => trivial
  | ok r =>
    obtain ⟨refusal | x, c', registry⟩ := r
    · obtain ⟨-, rfl⟩ := hmake.of_refusal hrun
      exact .refl _
    · have hregistry := (hmake.of_run hrun).item_eq
      dsimp only at hregistry
      exact spares_of_dirty rfl (isDirty_of_changed (by rw [hregistry]))

theorem switch_spares (name : String) (enabled : Bool) :
    Leaves (switch name enabled) s fun s' => Spares s.item s'.item := by
  obtain ⟨c, ⟨core, children⟩⟩ := s
  rcases core.registry.setEnabled_changed name enabled with hsame | hchanged
  · show Spares (node core children)
      (node { core with registry := (core.registry.setEnabled name enabled).2 } children)
    rw [hsame]
    exact .refl _
  · exact spares_of_dirty rfl (isDirty_of_changed hchanged)

/-- No edit takes a mark away, and what it changes is marked. -/
theorem Edit.spares {act : Objective α} (h : Edit c act) :
    Leaves act ⟨c, o⟩ fun s' => Spares o s'.item := by
  cases h with
  | declare type =>
    obtain ⟨core, children⟩ := o
    exact spares_members _
  | declareVector type =>
    obtain ⟨core, children⟩ := o
    exact spares_members _
  | add he kind name => exact add_spares kind name _
  | switch name enabled => exact switch_spares name enabled
  | preRandomize =>
    exact Leaves.imp (view_undrawn.preRandomize _ (.refl _ _)) fun _ hs => spares_of_undrawn hs.same
  | nextWith hes =>
    exact Leaves.imp (view_undrawn.nextWith _ _ (.refl _ _)) fun _ hs => spares_of_undrawn hs.same

/-- A child that has been attached is a mark. -/
theorem attaching_spares (child : RandObject) :
    Leaves (attaching child) s fun s' => Spares s.item s'.item := by
  obtain ⟨c, ⟨core, children⟩⟩ := s
  unfold Leaves Grants attaching attach
  dsimp only
  by_cases hhome : core.home = child.core.home
  · rw [if_pos hhome]
    exact spares_of_dirty rfl (by simp [isDirty])
  · rw [if_neg hhome]
    trivial

/-- What spares a child spares the object. -/
theorem spares_set {i : Nat} (hi : children[i]? = some t) (h : Spares t t') :
    Spares (node core children) (node core (children.set i t')) := by
  obtain ⟨before, after, rfl, hset⟩ := exists_split_set hi
  refine ⟨rfl, fun hclean => ?_⟩
  rw [isDirty, isDirtyAny_eq, hset] at hclean
  rw [isDirty, isDirtyAny_eq, registries, registries, registriesEach_eq, registriesEach_eq, hset]
  simp only [List.any_append, List.any_cons, List.flatMap_append, List.flatMap_cons,
    Bool.or_eq_false_iff] at hclean ⊢
  obtain ⟨hcore, hbefore, ht', hafter⟩ := hclean
  obtain ⟨ht, hregistries⟩ := h.unchanged ht'
  exact ⟨⟨hcore, hbefore, ht, hafter⟩, by rw [hregistries]⟩

/-- What spares any object spares one below which it is done. -/
theorem within_spares {act : Objective α} (h : ∀ o : RandObject, Leaves act ⟨c, o⟩ fun s' =>
    Spares o s'.item) (path : List Nat) (o : RandObject) :
    Leaves (within act path) ⟨c, o⟩ fun s' => Spares o s'.item := by
  -- The path leads down one child at a time, and the others are not touched.
  induction path generalizing o with
  | nil => exact (h o).bind fun a => .pure _
  | cons i path ih =>
    obtain ⟨core, children⟩ := o
    unfold Leaves Grants within
    dsimp only
    cases hi : children[i]? with
    | none => exact .refl _
    | some t =>
      dsimp only
      cases hrun : within act path ⟨c, t⟩ with
      | error fault => trivial
      | ok r =>
        have hspares : Spares (node core children) (node core (children.set i r.2.item)) :=
          spares_set hi ((ih t).of_run hrun)
        obtain ⟨refusal | a, c', t'⟩ := r <;> exact hspares

end

end RandObject

/-! ## §2 Whole trees -/

namespace Forest

open RandObject

/-- A step of those who hold the objects and solve whole trees.  They edit any object, and solve
    with further constraints anywhere. -/
inductive Tend : Forest → Forest → Prop where
  | change {c c' : Context} (ts : List RandObject) (h : c.Changes c') : Tend ⟨c, ts⟩ ⟨c', ts⟩
  | create (c : Context) (ts : List RandObject) (name : String) (settings : Settings) :
      Tend ⟨c, ts⟩ ⟨(create name settings c).2, (create name settings c).1 :: ts⟩
  | child {t parent : RandObject} {ts : List RandObject} (c : Context) (ht : t ∈ ts)
      (hparent : parent ∈ t.subtrees) (name : String) :
      Tend ⟨c, ts⟩ ⟨(parent.child name c).2, (parent.child name c).1 :: ts⟩
  | attach {c c' : Context} {ts rest : List RandObject} {child t t' : RandObject} {path : List Nat}
      {a : Except Refusal (Option Unit)} (hts : ts.Perm (child :: t :: rest))
      (h : within (attaching child) path ⟨c, t⟩ = .ok (a, ⟨c', t'⟩)) :
      Tend ⟨c, ts⟩ ⟨c', t' :: rest⟩
  | edit {α : Type} {act : Objective α} {c c' : Context} {ts rest : List RandObject}
      {t t' : RandObject} {path : List Nat} {a : Except Refusal (Option α)} (hact : Edit c act)
      (hts : ts.Perm (t :: rest)) (h : within act path ⟨c, t⟩ = .ok (a, ⟨c', t'⟩)) :
      Tend ⟨c, ts⟩ ⟨c', t' :: rest⟩
  | solve {α : Type} {act : Objective α} {c c' : Context} {ts rest : List RandObject}
      {t t' : RandObject} {a : Except Refusal α} (hact : Solve act) (hts : ts.Perm (t :: rest))
      (h : act ⟨c, t⟩ = .ok (a, ⟨c', t'⟩)) : Tend ⟨c, ts⟩ ⟨c', t' :: rest⟩

/-- The forests that grow in a context in which whole trees are solved. -/
inductive Tended : Forest → Prop where
  | empty (identity : Nat) (entropy : Nat → ChaCha.Key) : Tended ⟨.empty identity entropy, []⟩
  | step {w w' : Forest} (hw : Tended w) (h : Tend w w') : Tended w'

section

variable {w w' : Forest} {c c' : Context} {ts rest : List RandObject} {t t' : RandObject}

/-- A whole tree is the descendant at the end of the empty path. -/
theorem within_nil {α : Type} {act : Objective α} {s s' : InContext RandObject}
    {a : Except Refusal α} (h : act s = .ok (a, s')) :
    within act [] s = .ok (a.map some, s') := by
  show (act s >>= fun p =>
    ExceptT.bindCont (fun b => (pure (some b) : Objective (Option α))) p.1 p.2) = _
  rw [h]
  cases a <;> rfl

theorem Tend.step (h : Tend w w') : Step w w' := by
  cases h with
  | change ts hchanges => exact .change ts hchanges
  | create c ts name settings => exact .create c ts name settings
  | child c ht hparent name => exact .child c ht hparent name
  | attach hts hrun => exact .attach hts hrun
  | edit hact hts hrun => exact .act hact.act hts hrun
  | solve hact hts hrun => exact .act hact.act hts (within_nil hrun)

theorem Tended.grown (h : w.Tended) : w.Grown := by
  induction h with
  | empty identity entropy => exact .empty identity entropy
  | step _ htend ih => exact ih.step htend.step

/-- The generators of whole trees are up to date. -/
def Current (w : Forest) : Prop := ∀ t ∈ w.trees, t.UpToDate w.context

/-- An object that was just made has no generator. -/
theorem Current.create (h : Current ⟨c, ts⟩) (name : String) (settings : Settings) :
    Current ⟨(create name settings c).2, (create name settings c).1 :: ts⟩ := by
  refine List.forall_mem_cons.mpr ⟨fun _ g hg => (nomatch hg), fun t ht => ?_⟩
  exact (h t ht).becomes (create_becomes name settings c)

theorem Current.change (h : Current ⟨c, ts⟩) (hchanges : c.Changes c') : Current ⟨c', ts⟩ :=
  fun t ht => (h t ht).becomes (.single hchanges)

/-- The others only see that the context has changed. -/
theorem Current.evolve (h : Current ⟨c, ts⟩) (gone : List RandObject)
    (hts : ts.Perm (gone ++ t :: rest)) (hbecomes : c.Becomes c') (ht' : t'.UpToDate c') :
    Current ⟨c', t' :: rest⟩ := by
  refine List.forall_mem_cons.mpr ⟨ht', fun u hu => ?_⟩
  exact (h u (hts.mem_iff.mpr (by simp [hu]))).becomes hbecomes

/-- Whole trees stay up to date. -/
theorem Tend.current (htend : Tend w w') (hsound : w.Sound) (h : w.Current) : w'.Current := by
  -- What does not solve marks the objects that it changes, and a solve rebuilds those that are
  -- marked.
  cases htend with
  | change ts hchanges => exact h.change hchanges
  | create c ts name settings => exact h.create name settings
  | child c ht hparent name =>
    rename_i t parent ts
    unfold RandObject.child
    cases parent.core.settings.seed with
    | none => exact h.create name _
    | some seed => exact (h.change (.takeId c)).create name _
  | attach hts hrun =>
    rename_i c c' ts rest child t t' path a
    have hchild : child ∈ ts := hts.mem_iff.mpr List.mem_cons_self
    have hmem : t ∈ ts := hts.mem_iff.mpr (List.mem_cons_of_mem _ List.mem_cons_self)
    have hevolves := (within_evolves child.ids hsound.wellFormed (fun o ho =>
      attaching_evolves (s := ⟨c, o⟩) ho (hsound.kept child hchild)) path
      (hsound.kept t hmem)).of_run hrun
    have hspares := (within_spares (fun o => attaching_spares child) path t).of_run hrun
    exact h.evolve [child] hts hevolves.becomes
      ((h t hmem).spares hspares hevolves.becomes)
  | edit hact hts hrun =>
    rename_i α act c c' ts rest t t' path a
    have hmem : t ∈ ts := hts.mem_iff.mpr List.mem_cons_self
    have hevolves := (within_evolves [] hsound.wellFormed
      (fun o ho => hact.act.evolves hsound.wellFormed ho) path (hsound.kept t hmem)).of_run hrun
    have hspares := (within_spares (fun o => hact.spares) path t).of_run hrun
    exact h.evolve [] hts hevolves.becomes ((h t hmem).spares hspares hevolves.becomes)
  | solve hact hts hrun =>
    rename_i α act c c' ts rest t t' a
    have hmem : t ∈ ts := hts.mem_iff.mpr List.mem_cons_self
    have htree : t.Sound c := sound_of_forest hsound hmem t.mem_subtrees_self
    have hevolves := (hact.act.evolves htree.wellFormed htree.kept).of_run hrun
    have hsolve := hact.upToDate (s := ⟨c, t⟩) htree (h t hmem)
    exact h.evolve [] hts hevolves.becomes (hsolve.of_run hrun)

theorem Tended.current (h : w.Tended) : w.Current := by
  induction h with
  | empty identity => exact fun t ht => absurd ht List.not_mem_nil
  | step hw htend ih => exact htend.current hw.grown.sound ih

/-- As long as whole trees are solved, every solve of one that succeeds satisfies the active hard
    constraints of all its objects, whoever edited them in which order. -/
theorem Tended.fulfils (h : w.Tended) (ht : t ∈ w.trees) {act : Objective Bool}
    (hact : act = next ∨ act = nextCover) (hrun : act ⟨w.context, t⟩ = .ok (.ok true, ⟨c', t'⟩)) :
    t.Fulfilled c' := by
  have hsound : t.Sound w.context := sound_of_forest h.grown.sound ht t.mem_subtrees_self
  exact UpToDate.fulfilled (s := ⟨w.context, t⟩) (h.current t ht) hsound hact hrun

end

end Forest

namespace RandObject

/-- A solve that is answered takes away all marks of the tree, and leaves the generators below the
    object.  If it succeeds, then it satisfies the active hard constraints of the tree, unless it
    neither rebuilds nor solves a whole tree in a forest where all solves do that. -/
theorem fulfilled_of_answered {act : Objective Bool} (hact : act = next ∨ act = nextCover)
    {s s' : InContext RandObject} {solved : Bool} (hrun : act s = .ok (.ok solved, s')) :
    Lulls s.item s'.item ∧
      (solved = true → (s.item.Stands s.context ∧
            (s.item.core.generator = none ∨ s.item.isDirty = true)) ∨
          (∃ w : Forest, w.Tended ∧ w.context = s.context ∧ s.item ∈ w.trees) →
        s.item.Fulfilled s'.context) := by
  refine ⟨lulls_of_answered hact hrun, ?_⟩
  rintro rfl (⟨hstands, hchanged⟩ | ⟨⟨c, ts⟩, htended, rfl, ht⟩)
  · exact fulfilled_of_changed hstands hchanged hact hrun
  · exact htended.fulfils ht hact hrun

/-- A leaf is attached to a root and gets a truth value. -/
def sprouted : Except Fault (InContext RandObject) := do
  let (leaf, root, c) := seedlings
  let (_, s) ← within (attaching leaf) [] ⟨c, root⟩
  let (_, s) ← within (declare .bool) [0] s
  return s

theorem tended_sprouted {s : InContext RandObject} (hrun : sprouted = .ok s) :
    Forest.Tended ⟨s.context, [s.item]⟩ ∧ s.context.Writes (.var 1 .bool) := by
  unfold sprouted at hrun
  obtain ⟨⟨a₁, s₁⟩, hrun₁, hrun⟩ := exists_ok_of_bind hrun
  obtain ⟨⟨a₂, s₂⟩, hrun₂, hrun⟩ := exists_ok_of_bind hrun
  cases hrun
  have h₀ : Forest.Tended ⟨seedlings.2.2, [seedlings.2.1, seedlings.1]⟩ :=
    .step (.step (.empty 0 _) (.create _ _ "leaf" _)) (.create _ _ "root" _)
  have h₁ := h₀.step (.attach (.swap _ _ _) hrun₁)
  refine ⟨h₁.step (.edit (.declare .bool) (.refl _) hrun₂), ?_⟩
  -- The context is a closed term once the two runs are evaluated.
  cases hrun₁
  cases hrun₂
  refine fun _ => ⟨by decide, fun id sort hmention => ?_⟩
  cases hmention with
  | head => rfl
  | tail _ hmem => cases hmem

/-- Whether the value of the first variable is to be true in the tree. -/
def ruled (t : RandObject) : Bool :=
  t.registries.any fun r => r.active.any fun x =>
    decide (x.expr = .var 1 .bool) && x.isHard && !x.isVector

/-- What rules the tree is an active hard constraint of one of its objects. -/
theorem exists_of_ruled {t : RandObject} (h : t.ruled = true) :
    ∃ r ∈ t.registries, ∃ x ∈ r.active,
      x.expr = .var 1 .bool ∧ x.isHard = true ∧ x.isVector = false := by
  simp only [ruled, List.any_eq_true, Bool.and_eq_true, decide_eq_true_eq, Bool.not_eq_true',
    and_assoc] at h
  exact h

/-- The leaf holds its truth value true. -/
def planted : Except Fault (InContext RandObject) := do
  let s ← sprouted
  let (_, s) ← within (add .hard none (.var 1 .bool)) [0] s
  return s

/-- A solve of the root gives the leaf what it asks for. -/
theorem fulfilled_after_planting : ∃ s s', Forest.Tended ⟨s.context, [s.item]⟩ ∧
    s.item.ruled = true ∧ next s = .ok (.ok true, s') ∧ Lulls s.item s'.item ∧
    s.item.Fulfilled s'.context ∧ (Expr.var 1 .bool).Holds s'.context.bits := by
  obtain ⟨s, hrun, htest⟩ := exists_of_toOption_any (x := planted) (p := fun s =>
    s.item.ruled && (granted? (next s)).any Prod.fst) (by decide +kernel)
  rw [Bool.and_eq_true] at htest
  obtain ⟨hruled, htest⟩ := htest
  obtain ⟨solved, s', hnext, rfl⟩ := exists_of_granted?_any htest
  obtain ⟨s₁, hsprouted, hrun⟩ := exists_ok_of_bind hrun
  obtain ⟨⟨a, s₂⟩, hadd, hrun⟩ := exists_ok_of_bind hrun
  cases hrun
  obtain ⟨h₁, hwrites⟩ := tended_sprouted hsprouted
  have h₂ := h₁.step (.edit (.add hwrites .hard none) (.refl _) hadd)
  obtain ⟨hlulls, hfulfils⟩ := fulfilled_of_answered (.inl rfl) hnext
  -- The leaf was planted before the solve, so the solve is about its constraint as well.
  have hfulfilled := hfulfils rfl (.inr ⟨_, h₂, rfl, List.mem_cons_self⟩)
  obtain ⟨r, hr, x, hx, hexpr, hhard, hscalar⟩ := exists_of_ruled hruled
  exact ⟨s, s', h₂, hruled, hnext, hlulls, hfulfilled,
    hexpr ▸ hfulfilled r hr x hx hhard hscalar⟩

/-- The leaf is solved.  Then it holds its truth value true, and its root is solved. -/
def overtaken : Except Fault (InContext RandObject) := do
  let s ← sprouted
  let (_, s) ← within next [0] s
  let (_, s) ← within (add .hard none (.var 1 .bool)) [0] s
  let (_, s) ← within next [] s
  return s

theorem grown_overtaken {s : InContext RandObject} (hrun : overtaken = .ok s) :
    Forest.Grown ⟨s.context, [s.item]⟩ := by
  unfold overtaken at hrun
  obtain ⟨s₁, hsprouted, hrun⟩ := exists_ok_of_bind hrun
  obtain ⟨⟨a₂, s₂⟩, hrun₂, hrun⟩ := exists_ok_of_bind hrun
  obtain ⟨⟨a₃, s₃⟩, hrun₃, hrun⟩ := exists_ok_of_bind hrun
  obtain ⟨⟨a₄, s₄⟩, hrun₄, hrun⟩ := exists_ok_of_bind hrun
  cases hrun
  obtain ⟨htended, hwrites₁⟩ := tended_sprouted hsprouted
  have h₁ := htended.grown
  have h₂ := h₁.step (.act .next (.refl _) hrun₂)
  -- The solve of the leaf leaves the variables as they are declared.
  have hbecomes := ((within_evolves [] h₁.sound.wellFormed (fun o ho =>
    Act.next.evolves h₁.sound.wellFormed ho) [0] (h₁.sound.kept _ List.mem_cons_self)).of_run
    hrun₂).becomes
  have hwrites : s₂.context.Writes (.var 1 .bool) := fun hscalar =>
    (hwrites₁ hscalar).mono (hbecomes.grows h₁.sound.wellFormed).signature
  have h₃ := h₂.step (.act (.add hwrites .hard none) (.refl _) hrun₃)
  exact h₃.step (.act .next (.refl _) hrun₄)

/-- Below the root this is different: the solve of the root has taken away the mark that the
    generator of the leaf is out of date. -/
theorem unfulfilled_below_root : ∃ s s', s.item.Stands s.context ∧
    next s = .ok (.ok true, s') ∧ ¬ s.item.Fulfilled s'.context := by
  obtain ⟨s, hrun, htest⟩ := exists_of_toOption_any (x := overtaken) (p := fun s =>
    s.item.children.any fun t => t.ruled &&
      (granted? (next ⟨s.context, t⟩)).any fun (solved, s') =>
        solved && decide (s'.context.bits 1 = 0)) (by decide +kernel)
  simp only [Bool.and_eq_true, List.any_eq_true] at htest
  obtain ⟨t, ht, hruled, htest⟩ := htest
  obtain ⟨r, hr, x, hx, hexpr, hhard, hscalar⟩ := exists_of_ruled hruled
  obtain ⟨solved, s', hnext, htest⟩ := exists_of_granted?_any htest
  simp only [Bool.and_eq_true, decide_eq_true_eq] at htest
  obtain ⟨rfl, hbits⟩ := htest
  refine ⟨⟨s.context, t⟩, s', ⟨⟨s.context, [s.item]⟩, grown_overtaken hrun, rfl, s.item,
    List.mem_cons_self, mem_subtrees_of_child ht⟩, hnext, fun hfulfilled => ?_⟩
  exact Expr.not_holds_var hbits (hexpr ▸ hfulfilled r hr x hx hhard hscalar)

end RandObject

end Stimulus
