import Stimulus.Proofs.Object.Solve

/-!
# Solving once with further constraints

A solve with further constraints works on a generator of its own, into which the registries of the
tree and one for the further constraints are merged.  If it succeeds, the values satisfy them all;
and whatever it answers, the tree is as before, so the further constraints are forgotten.

Main definitions:
- `RandObject.Further`: the registry of the further constraints
- `RandObject.Met`: the values satisfy the further constraints and those of the tree

Main statements:
- `RandObject.nextWith_grants`
- `RandObject.nextWith_once`
-/

namespace Stimulus

open Registries (Taken)

/-! ## §1 The registry of further constraints -/

/-- A constraint of the kind that was asked for, which is switched on. -/
theorem Registry.make_kind {s : InContext Registry} (name : Option String) (e : Expr)
    (soft cover : Bool) : Grants (make name e soft cover) s (fun _ => True) (fun _ _ => True)
      fun x _ => x.soft = soft ∧ x.cover = cover ∧ x.enabled = true := by
  unfold make
  extract_lets last rest
  have hlast (s : InContext Registry) : Grants (last ()) s (fun _ => True) (fun _ _ => True)
      fun x _ => x.soft = soft ∧ x.cover = cover ∧ x.enabled = true := by
    dsimp only [last]
    have htake : Grants (InContext.useContext Context.takeConstraintId) s (fun _ => True)
        (fun _ _ => True) fun _ _ => True := trivial
    refine htake.bind fun id s' _ => .get_bind ?_
    split
    · exact .bind (.throw trivial) fun _ _ h => h
    · exact .modify_bind (.pure ⟨rfl, rfl, rfl⟩)
  have hrest (s : InContext Registry) : Grants (rest ()) s (fun _ => True) (fun _ _ => True)
      fun x _ => x.soft = soft ∧ x.cover = cover ∧ x.enabled = true := by
    dsimp only [rest]
    split
    · exact Grants.bind (.throw trivial) fun _ _ h => h
    · exact hlast s
  split
  · refine .get_bind ?_
    split
    · exact .bind (.throw trivial) fun _ _ h => h
    · exact hrest s
  · exact hrest s

namespace RandObject

/-- The registry has the further constraints, all of which are hard and switched on. -/
structure Further (es : List Expr) (r : Registry) (c : Context) : Prop where
  exprs : r.constraints.map Constraint.expr = es
  hard : ∀ x ∈ r.constraints, x.isHard = true
  enabled : ∀ x ∈ r.constraints, x.enabled = true
  written : ∀ x ∈ r.constraints, x.Written c.signature

section

variable {s : InContext RandObject} {es : List Expr}

/-- The further constraints are added one after the other. -/
theorem addEach_grants {c : Context} {r : Registry} (hr : r.constraints = [])
    (hes : ∀ e ∈ es, c.Writes e) :
    Grants (es.forM fun e => do
        let _ ← Registry.make none e false false : Request (InContext Registry) Unit) ⟨c, r⟩
      (fun _ => True) (fun _ _ => True) fun _ (t : InContext Registry) =>
        c.Keeps t.context ∧ t.item.id = r.id ∧ Further es t.item t.context := by
  refine grants_forM_from (I := fun done (t : InContext Registry) =>
    c.Keeps t.context ∧ t.item.id = r.id ∧ Further done t.item t.context) ⟨.refl c, rfl, ?_⟩ ?_
  · exact ⟨by simp [hr], by simp [hr], by simp [hr], by simp [hr]⟩
  rintro done e ⟨c₁, r₁⟩ ⟨hkeeps, hid, hexprs, hhard, henabled, hwritten⟩ he
  have hmake := (Registry.make_grants (c := c₁) (r := r₁) (E := fun _ => True) none e false
    false).and (Registry.make_kind none e false false)
  apply Grants.bind hmake.results
  rintro x t ⟨hadds, hsoft, hcover, hon⟩
  have hwrites : c₁.Writes e := fun hscalar => by
    rw [hkeeps.signature]
    exact hes e he hscalar
  -- What holds of the old constraints and of the new one holds of all.
  have hall {P : Constraint → Prop} (hP : ∀ y ∈ r₁.constraints, P y) (hx : P x) :
      ∀ y ∈ t.item.constraints, P y := by
    intro y hy
    rw [hadds.item_eq] at hy
    rcases List.mem_append.mp hy with hy | hy
    · exact hP y hy
    · exact List.mem_singleton.mp hy ▸ hx
  refine .pure ⟨hkeeps.trans hadds.keeps, ?_, ?_, hall hhard (by simp [Constraint.isHard, *]),
    hall henabled hon, written_append hwritten hwrites hadds⟩
  · rw [hadds.item_eq]
    exact hid
  · rw [hadds.item_eq, List.map_append, hexprs, List.map_singleton, hadds.expr_eq]

/-- The registry of the further constraints is a new one, and has them all. -/
theorem inlineRegistry_grants (hes : ∀ e ∈ es, s.context.Writes e) :
    Grants (inlineRegistry es) s (fun _ => True) (fun _ _ => True) fun extra s' =>
      s'.item = s.item ∧ s.context.Keeps s'.context ∧ extra.id = s.context.nextConstraintId ∧
        Further es extra s'.context := by
  have htaken := Context.keeps_takeConstraintId s.context
  have hadding := addEach_grants (r := (Registry.create s.context).1) rfl fun e he hscalar => by
    rw [htaken.signature]
    exact hes e he hscalar
  unfold inlineRegistry
  have hcreate : Grants (InContext.useContext (σ := RandObject) Registry.create) s
      (fun _ => True) (fun _ _ => True) fun r s' =>
        r = (Registry.create s.context).1 ∧
          s' = ⟨(Context.takeConstraintId s.context).2, s.item⟩ := ⟨rfl, rfl⟩
  refine hcreate.bind ?_
  rintro _ _ ⟨rfl, rfl⟩
  apply Grants.get_bind
  dsimp only
  unfold Grants at hadding
  split
  · exact Grants.fault trivial
  · rename_i answer c r hrun
    rw [hrun] at hadding
    apply Grants.modify_bind
    cases answer with
    | error refusal => exact .throw trivial
    | ok u =>
      obtain ⟨hkeeps, hid, hfurther⟩ := hadding
      exact .pure ⟨rfl, htaken.trans hkeeps, hid, hfurther⟩

/-! ## §2 The generator that is used once -/

/-- The seed is a word of the object. -/
theorem inlineSeed_grants : Grants inlineSeed s (fun _ => True) (fun _ _ => False) fun _ s' =>
    s'.context = s.context ∧ s'.item.undrawn = s.item.undrawn := by
  obtain ⟨c, ⟨core, children⟩⟩ := s
  unfold Grants inlineSeed
  dsimp only
  cases core.settings.seed with
  | none => exact ⟨rfl, rfl⟩
  | some seed =>
    dsimp only
    cases core.rng.word64 with
    | error fault => trivial
    | ok r => exact ⟨rfl, by rw [undrawn_node, undrawn_node]; rfl⟩

/-- The solvers of the generator are those of the constraints of the tree and of the further
    ones. -/
theorem mergeFurther_grants {settings : Settings} {storageBits : Nat} {c : Context} {g : Generator}
    {rs : List Registry} {extra : Registry} (hids : (rs.map Registry.id).Nodup)
    (hextra : extra.id ∉ rs.map Registry.id)
    (hwritten : ∀ r ∈ rs, ∀ x ∈ r.constraints, x.Written c.signature)
    (hfurther : Further es extra c) (hg : g.partitioner = rs.foldl Partitioner.merge .empty)
    (hsourced : Generator.Sourced settings storageBits ⟨c, g⟩) :
    Grants (Generator.merge extra >>= fun _ => Generator.rebuild false) ⟨c, g⟩ (fun _ => True)
      (fun _ _ => False) fun _ s' => s'.context = c ∧ s'.item.registry = g.registry ∧
        Generator.Ready settings storageBits s' ∧
          s'.item.Current (Registry.scalarsEach (rs ++ [extra]))
            (Registry.onVectorsEach (rs ++ [extra])) := by
  have hall : ((rs ++ [extra]).map Registry.id).Nodup := by
    rw [List.map_append, List.map_singleton]
    exact List.nodup_append'.mpr ⟨hids, List.nodup_singleton _, by simpa using hextra⟩
  refine Grants.bind (Generator.merge_grants extra) ?_
  rintro _ _ rfl
  have hmerged : g.partitioner.merge extra = (rs ++ [extra]).foldl Partitioner.merge .empty := by
    rw [List.foldl_append, ← hg]
    rfl
  have hwritten' : ∀ r ∈ rs ++ [extra], ∀ x ∈ r.constraints, x.Written c.signature := by
    intro r hr
    rcases List.mem_append.mp hr with hr | hr
    · exact hwritten r hr
    · cases List.mem_singleton.mp hr
      exact hfurther.written
  exact Generator.rebuildMerged_grants hall hwritten' hmerged { hsourced with }

/-! ## §3 Solving once -/

/-- The values satisfy the further constraints, as far as they are on scalars, and those of the
    tree. -/
structure Met (es : List Expr) (o : RandObject) (c : Context) : Prop where
  further : ∀ e ∈ es, e.isVectorConstraint = false → e.Holds c.bits
  own : ∀ r ∈ o.registries, ∀ x ∈ r.active, x.isHard = true → x.isVector = false →
    x.expr.Holds c.bits

/-- What was solved is all that is active. -/
theorem met_of_satisfied {max : Nat} {o : RandObject} {extra : Registry} {c c' : Context}
    (hfurther : Further es extra c)
    (h : Generator.Satisfied max (Registry.scalarsEach (o.registries ++ [extra])) c') :
    Met es o c' := by
  have hholds {r : Registry} (hr : r ∈ o.registries ++ [extra]) {x : Constraint}
      (hx : x ∈ r.active) (hhard : x.isHard = true) (hscalar : x.isVector = false) :
      x.expr.Holds c'.bits := by
    refine h.hards x (List.mem_filter.mpr ⟨List.mem_flatMap.mpr ⟨r, hr, hx⟩, ?_⟩) hhard
    simpa using hscalar
  refine ⟨fun e he hscalar => ?_, fun r hr x hx => hholds (List.mem_append_left _ hr) hx⟩
  rw [← hfurther.exprs] at he
  obtain ⟨x, hx, rfl⟩ := List.mem_map.mp he
  have hactive : x ∈ extra.active := List.mem_filter.mpr ⟨hx, hfurther.enabled x hx⟩
  exact hholds (List.mem_append_right _ List.mem_cons_self) hactive (hfurther.hard x hx) hscalar

/-- A solve with further constraints satisfies them and all of the tree. -/
theorem nextWith_grants (hsound : s.item.Sound s.context) (hes : ∀ e ∈ es, s.context.Writes e) :
    Grants (nextWith es) s (fun _ => True) (fun _ _ => True) fun solved s' =>
      solved = true → Met es s.item s'.context := by
  obtain ⟨hc, hkept, htaken⟩ := hsound
  unfold nextWith
  apply Grants.bind (inlineRegistry_grants hes)
  rintro extra s₁ ⟨hitem₁, hkeeps₁, hid, hfurther⟩
  apply Grants.bind inlineSeed_grants.unrefused
  rintro seed s₂ ⟨hcontext₂, hitem₂⟩
  apply Grants.get_bind
  have hc₂ : s₂.context.WellFormed := hcontext₂ ▸ hkeeps₁.wellFormed hc
  apply Grants.bind (newGenerator_grants _ hc₂).unrefused
  rintro g s₃ ⟨hitem₃, hkeeps₃, hunchanged, hg, hsourced⟩
  have hsame : s₃.item.undrawn = s.item.undrawn := by rw [hitem₃, hitem₂, hitem₁]
  have hregistries : s₂.item.registries = s.item.registries :=
    (same_of_undrawn (hitem₂.trans (congrArg undrawn hitem₁))).1
  have hkeeps : s.context.Keeps s₃.context := hkeeps₁.trans (hcontext₂ ▸ hkeeps₃)
  rw [hregistries] at hg
  -- The id of the further constraints was taken after those of the tree.
  have hextra : extra.id ∉ s.item.registries.map Registry.id := fun hmem =>
    Nat.lt_irrefl _ (hid ▸ htaken.lt _ hmem)
  have hwritten : ∀ r ∈ s.item.registries, ∀ x ∈ r.constraints,
      x.Written s₃.context.signature :=
    fun r hr x hx => (hkept.written_of_mem hr x hx).mono hkeeps.grows.signature
  have hfurther₃ : Further es extra s₃.context :=
    { hfurther with
      written := fun x hx => (hfurther.written x hx).mono (hcontext₂ ▸ hkeeps₃.grows.signature) }
  apply Grants.bind ((withGenerator_grants (mergeFurther_grants htaken.nodup hextra hwritten
    hfurther₃ hg hsourced)).imp_refusal fun _ _ ⟨_, _, hr⟩ => hr.elim)
  rintro ⟨u, g₄⟩ s₄ ⟨hitem₄, hcontext₄, hregistry, hready, hcurrent⟩
  dsimp only at hcontext₄ hregistry hready hcurrent ⊢
  have hrandom : s₄.item.MembersRandom s₄.context := by
    rw [hitem₄, hcontext₄]
    exact view_undrawn.membersRandom hsame hkept.membersRandom hkeeps.grows
  apply Grants.bind (preRandomize_grants hrandom).unrefused
  rintro _ s₅ ⟨-, -, hkeeps₅⟩
  have hnext := (hready.keeps hkeeps₅).next_grants False (hregistry ▸ hunchanged) hcurrent
    False.elim False.elim False.elim
  apply Grants.bind (withGenerator_grants hnext).results
  rintro ⟨solved, g₆⟩ s₆ ⟨-, -, -, -, -, hsatisfied⟩
  exact .pure fun hsolved => met_of_satisfied hfurther (hsatisfied hsolved)

end

/-- Whatever a solve with further constraints answers, the tree is as before, apart from its sources
    of randomness: all objects have the same generators, registries and marks.  If it succeeds, the
    values satisfy the further constraints and those of the tree. -/
theorem nextWith_once {es : List Expr} {s s' : InContext RandObject} {a : Except Refusal Bool}
    (hrun : nextWith es s = .ok (a, s')) :
    s'.item.undrawn = s.item.undrawn ∧ s'.item.registries = s.item.registries ∧
      s'.item.isDirty = s.item.isDirty ∧
      (s'.item.subtrees.map fun t => (t.core.generator, t.core.stale, t.core.registry)) =
        (s.item.subtrees.map fun t => (t.core.generator, t.core.stale, t.core.registry)) ∧
      (s.item.Stands s.context → (∀ e ∈ es, s.context.Writes e) → a = .ok true →
        Met es s.item s'.context) := by
  have haside := (view_undrawn.nextWith es s (.refl _ s)).of_run hrun
  have hsame : s'.item.undrawn = s.item.undrawn := haside.same
  obtain ⟨hregistries, hdirty, -⟩ := same_of_undrawn hsame
  refine ⟨hsame, hregistries, hdirty, ?_, ?_⟩
  · have hcores := congrArg (List.map fun core : ObjectCore =>
      (core.generator, core.stale, core.registry)) (cores_of_same hsame)
    rwa [List.map_map, List.map_map] at hcores
  · rintro hstands hes rfl
    exact (nextWith_grants hstands.sound hes).of_run hrun rfl

/-- A root with two random truth values, the first of which its leaf holds true. -/
def sapling : Except Fault (InContext RandObject) := do
  let (leaf, root, c) := seedlings
  let (_, s) ← within (attaching leaf) [] ⟨c, root⟩
  let (_, s) ← within (declare .bool) [] s
  let (_, s) ← within (declare .bool) [] s
  let (_, s) ← within (add .hard none (.var 1 .bool)) [0] s
  return s

theorem stands_sapling {s : InContext RandObject} (hrun : sapling = .ok s) :
    s.item.Stands s.context := by
  refine ⟨⟨s.context, [s.item]⟩, ?_, rfl, s.item, List.mem_cons_self, s.item.mem_subtrees_self⟩
  unfold sapling at hrun
  obtain ⟨⟨a₁, s₁⟩, hrun₁, hrun⟩ := exists_ok_of_bind hrun
  obtain ⟨⟨a₂, s₂⟩, hrun₂, hrun⟩ := exists_ok_of_bind hrun
  obtain ⟨⟨a₃, s₃⟩, hrun₃, hrun⟩ := exists_ok_of_bind hrun
  obtain ⟨⟨a₄, s₄⟩, hrun₄, hrun⟩ := exists_ok_of_bind hrun
  cases hrun
  have h₁ := grown_seedlings.step (.attach (.swap _ _ _) hrun₁)
  have h₂ := h₁.step (.act (.declare .bool) (.refl _) hrun₂)
  have h₃ := h₂.step (.act (.declare .bool) (.refl _) hrun₃)
  refine h₃.step (.act (.add (fun _ => ⟨by decide, fun id sort hmention => ?_⟩) .hard none)
    (.refl _) hrun₄)
  cases hrun₁
  cases hrun₂
  cases hrun₃
  cases hmention with
  | head => rfl
  | tail _ hmem => cases hmem

/-- The second truth value is held true once, and both are true then. -/
theorem nextWith_once_of_sapling : ∃ s s', sapling = .ok s ∧ s.item.Stands s.context ∧
    nextWith [.var 2 .bool] s = .ok (.ok true, s') ∧ s'.item.undrawn = s.item.undrawn ∧
      s.item.isDirty = true ∧ s'.item.isDirty = true ∧
        (Expr.var 1 .bool).Holds s'.context.bits ∧ (Expr.var 2 .bool).Holds s'.context.bits := by
  obtain ⟨s, hrun, htest⟩ := exists_of_toOption_any (x := sapling) (p := fun s =>
    decide (s.context.signature.sort? 2 = some .bool) && s.item.isDirty &&
    (s.item.registries.any fun r => r.active.any fun x => decide (x.expr = .var 1 .bool) &&
      x.isHard && !x.isVector) &&
    (granted? (nextWith [.var 2 .bool] s)).any fun (solved, _) => solved) (by decide +kernel)
  simp only [Bool.and_eq_true, decide_eq_true_eq, List.any_eq_true, Bool.not_eq_true'] at htest
  obtain ⟨⟨⟨hdeclared, hdirty⟩, r, hr, x, hx, ⟨hexpr, hhard⟩, hscalar⟩, htest⟩ := htest
  obtain ⟨solved, s', hnext, hsolved⟩ := exists_of_granted?_any htest
  cases hsolved
  have hstands := stands_sapling hrun
  have hwrites : ∀ e ∈ [Expr.var 2 .bool], s.context.Writes e := by
    intro e he _
    cases List.mem_singleton.mp he
    refine ⟨by decide, fun id sort hmention => ?_⟩
    cases hmention with
    | head => exact hdeclared
    | tail _ hmem => cases hmem
  obtain ⟨hsame, -, hmark, -, hmet⟩ := nextWith_once hnext
  obtain ⟨hfurther, hown⟩ := hmet hstands hwrites rfl
  exact ⟨s, s', hrun, hstands, hnext, hsame, hdirty, hmark.trans hdirty,
    hexpr ▸ hown r hr x hx hhard hscalar, hfurther _ List.mem_cons_self rfl⟩

/-- A shift of a word of 200 bits, which is too wide to have a value, compared with nothing. -/
def shiftedFar : Expr :=
  .binary .equal
    (.binary .shr (.extend (.const 0 (.unsigned 8)) 192) (.const 150 (.unsigned 8)))
    (.const 0 (.unsigned 8))

theorem not_holds_shiftedFar (env : Nat → Nat) : ¬ shiftedFar.Holds env := by
  rintro ⟨v, hv, -⟩
  cases hv

/-- A solve succeeds with further constraints that have no value. -/
theorem nextWith_without_value : ∃ s, sapling = .ok s ∧ s.item.Stands s.context ∧
    (∃ s', nextWith [Generator.shiftedNothing] s = .ok (.ok true, s') ∧
      Generator.shiftedNothing.isVectorConstraint = false ∧
        ¬ Generator.shiftedNothing.Holds s'.context.bits) ∧
    ∃ s', nextWith [shiftedFar] s = .ok (.ok true, s') ∧
      shiftedFar.isVectorConstraint = false ∧ ¬ shiftedFar.Holds s'.context.bits := by
  obtain ⟨s, hrun, htest⟩ := exists_of_toOption_any (x := sapling) (p := fun s =>
    ((granted? (nextWith [Generator.shiftedNothing] s)).any fun (solved, _) => solved) &&
      (granted? (nextWith [shiftedFar] s)).any fun (solved, _) => solved) (by decide +kernel)
  simp only [Bool.and_eq_true] at htest
  obtain ⟨htest, htest'⟩ := htest
  refine ⟨s, hrun, stands_sapling hrun, ?_, ?_⟩
  · obtain ⟨solved, s', hnext, hsolved⟩ := exists_of_granted?_any htest
    cases hsolved
    exact ⟨s', hnext, rfl, Generator.not_holds_shiftedNothing _⟩
  · obtain ⟨solved, s', hnext, hsolved⟩ := exists_of_granted?_any htest'
    cases hsolved
    exact ⟨s', hnext, rfl, not_holds_shiftedFar _⟩

end RandObject

end Stimulus
