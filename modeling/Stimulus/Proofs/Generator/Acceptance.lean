import Stimulus.Proofs.Generator.Progress
import Stimulus.Proofs.Vector.Instantiable

/-!
# Accepted constraints can be solved

A registry accepts constraints on scalars, which mention no vector, and constraints on one whole
vector.  If the bodies of the latter are elementwise, there is a circuit for whatever the generator
comes to solve, whichever constraints it owns or was merged with, so that no solve is refused for
want of one.

Main definitions:
- `Generator.Clear`: all instances of the constraints have circuits
- `Generator.Supplied`: the runs of a generator that is given such constraints

Main statements:
- `Registry.vectorId?_of_make`
- `Generator.next_clears`, `Generator.nextCover_clears`
- `Generator.solves_of_supplied`
-/

namespace Stimulus

/-! ## §1 The vector of a constraint -/

/-- What is about vectors names no variables that have to be declared. -/
theorem Context.Names.of_mentionsVector {c : Context} {e : Expr} (h : e.mentionsVector = true) :
    c.Names e :=
  fun hscalar => absurd (h.symm.trans hscalar) Bool.noConfusion

/-- An accepted constraint on a whole vector is about the only id of its support. -/
theorem Registry.vectorId?_of_make {name : Option String} {e : Expr} {soft cover : Bool}
    {s s' : InContext Registry} {x : Constraint}
    (hrun : make name e soft cover s = .ok (.ok x, s')) (hvector : e.isVectorConstraint = true) :
    ∃ id, x.vectorId? = some id ∧ ∀ j, j ∈ e.support ↔ j = id := by
  have hadds := (make_grants (c := s.context) (r := s.item) (E := fun _ => True) name e soft
    cover).of_run hrun
  have hlength : e.support.toList.length = 1 := by
    rw [Std.TreeSet.length_toList, hadds.single hvector]
  obtain ⟨id, hid⟩ := List.length_eq_one_iff.mp hlength
  refine ⟨id, ?_, fun j => ?_⟩
  · -- The least id of a set that has one only is that one.
    unfold Constraint.vectorId? Constraint.isVector
    rw [hadds.expr_eq, if_pos hvector, hadds.support_eq, Std.TreeSet.min?_eq_head?_toList, hid]
    rfl
  · rw [← Std.TreeSet.mem_toList, hid, List.mem_singleton]

namespace Generator

/-! ## §2 Constraints that have circuits -/

/-- All instances of the constraints have circuits: of the own constraints, of those that were
    merged, and of those that the vectors are solved with. -/
structure Clear (g : Generator) : Prop where
  registry : ∀ x ∈ g.registry.constraints, x.expr.Instantiable
  merged : ∀ x ∈ g.partitioner.vectorConstraints, x.expr.Instantiable
  vectors : VectorStage.Clear g.vectors.solvers
  coverageVectors : VectorStage.Clear g.coverageVectors.solvers

section

variable {α : Type} {s : InContext Generator} {g : Generator} {r : Registry}

theorem Clear.merge (h : g.Clear) (hr : ∀ x ∈ r.constraints, x.expr.Instantiable) :
    Clear { g with partitioner := g.partitioner.merge r } := by
  refine { h with merged := fun x hx => ?_ }
  change x ∈ (g.partitioner.merge r).vectorConstraints at hx
  unfold Partitioner.merge at hx
  split at hx
  · exact h.merged x hx
  · rcases List.mem_append.mp hx with hx | hx
    · exact h.merged x hx
    · exact hr x (List.mem_filter.mp (List.mem_filter.mp hx).1).1

theorem Clear.regroup (h : g.Clear) (includeOwn : Bool) : (g.regroup includeOwn).Clear := by
  cases includeOwn with
  | false => exact { h with }
  | true => exact { h.merge h.registry with }

theorem Clear.reset (h : g.Clear) : g.reset.Clear :=
  { h with merged := fun _ hx => absurd hx List.not_mem_nil }

theorem change_clears {f : Generator → Generator} (h : ∀ g : Generator, g.Clear → (f g).Clear) :
    Preserves (change f) fun s => s.item.Clear :=
  fun s hs => h s.item hs

theorem usePlain_clears (act : Request (InContext PlainEnsemble) α) :
    Preserves (usePlain act) fun s => s.item.Clear := by
  intro s hs
  apply (usePlain_grants (leaves_true act _)).imp (fun _ hf => hf)
  -- Refused or not, only the solvers of scalars are others than before.
  all_goals
    intro _ _ hleft
    obtain ⟨t, rfl, -⟩ := hleft
    exact { hs with }

theorem useCoverage_clears (act : Request (InContext CoverageEnsemble) α) :
    Preserves (useCoverage act) fun s => s.item.Clear := by
  intro s hs
  apply (useCoverage_grants (leaves_true act _)).imp (fun _ hf => hf)
  all_goals
    intro _ _ hleft
    obtain ⟨t, rfl, -⟩ := hleft
    exact { hs with }

theorem rebuildCoverage_clears : Preserves rebuildCoverage fun s => s.item.Clear := by
  unfold rebuildCoverage
  refine .bind .get fun ⟨c, g⟩ => .bind (useCoverage_clears _) fun _ => change_clears fun g hg => ?_
  exact { hg with coverageVectors := VectorStage.clear_reset _ hg.merged }

theorem rebuild_clears (includeOwn : Bool) :
    Preserves (rebuild includeOwn) fun s => s.item.Clear := by
  unfold rebuild
  refine .bind (change_clears fun g hg => hg.regroup includeOwn) fun _ => ?_
  refine .bind .get fun ⟨c, g⟩ => .bind (usePlain_clears _) fun _ => ?_
  refine .bind (change_clears fun g hg => ?_) fun _ => rebuildCoverage_clears
  exact { hg with vectors := VectorStage.clear_reset _ hg.merged }

theorem refresh_clears : Preserves refresh fun s => s.item.Clear := by
  unfold refresh
  refine .bind .get fun s => ?_
  split
  · exact .bind (change_clears fun g hg => hg.reset) fun _ => rebuild_clears true
  · exact .pure _

/-! ## §3 Solving -/

/-- No solve of vectors is refused for want of a circuit. -/
theorem solveVectors_clears (read : Reading) (h : s.item.Clear) :
    Clears (useVectors (VectorStage.solve read)) s fun s' => s'.item.Clear := by
  apply (useVectors_grants (VectorStage.solve_clears h.vectors)).imp (fun _ hf => hf)
  · intro refusal _ hleft
    obtain ⟨t, rfl, hrefused, ht⟩ := hleft
    exact ⟨hrefused, { h with vectors := ht }⟩
  · intro _ _ hleft
    obtain ⟨t, rfl, ht⟩ := hleft
    exact { h with vectors := ht }

theorem solveCoverageVectors_clears (read : Reading) (h : s.item.Clear) :
    Clears (useCoverageVectors (VectorStage.solve read)) s fun s' => s'.item.Clear := by
  apply (useCoverageVectors_grants (VectorStage.solve_clears h.coverageVectors)).imp
    (fun _ hf => hf)
  · intro refusal _ hleft
    obtain ⟨t, rfl, hrefused, ht⟩ := hleft
    exact ⟨hrefused, { h with coverageVectors := ht }⟩
  · intro _ _ hleft
    obtain ⟨t, rfl, ht⟩ := hleft
    exact { h with coverageVectors := ht }

theorem next_clears (h : Tracked s) (hs : s.item.Clear) :
    Clears next s fun s' => s'.item.Clear := by
  unfold next
  -- Neither the rebuild nor the scalars are refused at all.
  apply Clears.bind_of_leaves (refresh_clears s hs) (refresh_tracks h)
  intro _ s₁ htracks hs₁
  apply Clears.bind_of_leaves (usePlain_clears _ s₁ hs₁) (solvePlain_stills htracks.1)
  intro solved s₂ _ hs₂
  cases solved with
  | false => exact .pure hs₂
  | true => exact .get_bind (solveVectors_clears _ hs₂)

theorem hitNext_clears (h : Tracked s) (hunchanged : s.item.registry.changed = false)
    (hs : s.item.Clear) : Clears hitNext s fun s' => s'.item.Clear := by
  have hmissed {s' : InContext Generator} (hs' : s'.item.Clear) :
      Clears (change ({ · with covered := true }) >>= fun _ => pure (none : Option Bool)) s'
        fun s' => s'.item.Clear := change_bind (.pure { hs' with })
  -- A refusal would have to come from a stage, and none of the three refuses what is clear.
  unfold hitNext
  apply Clears.bind_of_leaves (usePlain_clears _ s hs) (solvePlain_stills h)
  intro solved s₁ hstills hs₁
  obtain ⟨h₁, hstill⟩ := hstills
  cases solved with
  | false => exact .pure hs₁
  | true =>
    have hunchanged₁ := hstill.registry_eq ▸ hunchanged
    apply Clears.bind_of_leaves (useCoverage_clears _ s₁ hs₁) (solveCoverage_tracks h₁ hunchanged₁)
    intro hit s₂ _ hs₂
    cases hit with
    | false => exact hmissed hs₂
    | true =>
      apply Grants.get_bind
      apply (solveCoverageVectors_clears _ hs₂).bind
      intro answered s₃ hs₃
      cases answered with
      | false => exact hmissed hs₃
      | true => exact .pure hs₃

theorem nextCover_clears (h : Tracked s) (hs : s.item.Clear) :
    Clears nextCover s fun s' => s'.item.Clear := by
  unfold nextCover
  apply Clears.bind_of_leaves (refresh_clears s hs) (refresh_tracks h)
  intro _ s₁ htracks hs₁
  obtain ⟨h₁, -, hunchanged₁, -⟩ := htracks
  apply Grants.get_bind
  split
  · apply (hitNext_clears h₁ hunchanged₁ hs₁).bind_of_grants (hitNext_tracks h₁ hunchanged₁)
    intro answer s₂ htracks hs₂
    cases answer with
    | none =>
      -- Nothing was hit, so the answer is that of a plain solve.
      exact next_clears htracks.1 hs₂
    | some answer => exact .pure hs₂
  · exact next_clears h₁ hs₁

end

/-! ## §4 Runs -/

/-- What brings no constraints: the context changes, constraints are switched, and the generator is
    reset, rebuilt or solved.  A solve may be refused. -/
inductive Works : InContext Generator → InContext Generator → Prop where
  | change {s : InContext Generator} {c' : Context} (h : s.context.Changes c') :
      Works s ⟨c', s.item⟩
  | setEnabled (s : InContext Generator) (name : String) (enabled : Bool) :
      Works s ⟨s.context, (s.item.setEnabled name enabled).2⟩
  | reset (s : InContext Generator) : Works s ⟨s.context, s.item.reset⟩
  | rebuild {s s' : InContext Generator} {includeOwn : Bool} {a : Except Refusal Unit}
      (h : rebuild includeOwn s = .ok (a, s')) : Works s s'
  | next {s s' : InContext Generator} {a : Except Refusal Bool} (h : next s = .ok (a, s')) :
      Works s s'
  | tryNext {s s' : InContext Generator} {a : Except Refusal Unit} (h : tryNext s = .ok (a, s')) :
      Works s s'
  | nextCover {s s' : InContext Generator} {a : Except Refusal Bool}
      (h : nextCover s = .ok (a, s')) : Works s s'
  | resetCoverage {s s' : InContext Generator} {a : Except Refusal Unit}
      (h : resetCoverage s = .ok (a, s')) : Works s s'

/-- The runs of a generator all of whose constraints have instances with circuits, whether it owns
    them or they come with a registry that is merged. -/
inductive Supplied (settings : Settings) (storageBits : Nat) : InContext Generator → Prop where
  | create {c c' : Context} {g : Generator} (hc : c.Reached)
      (h : create settings storageBits c = .ok (g, c')) : Supplied settings storageBits ⟨c', g⟩
  | add {s s' : InContext Generator} {kind : Kind} {name : Option String} {e : Expr}
      {a : Except Refusal Unit} (hs : Supplied settings storageBits s) (he : s.context.Names e)
      (hform : a = .ok () → e.Instantiable) (h : add kind name e s = .ok (a, s')) :
      Supplied settings storageBits s'
  | merge {s s' : InContext Generator} {r : Registry} {a : Except Refusal Unit}
      (hs : Supplied settings storageBits s) (hr : r.Grounded s.context)
      (hform : ∀ x ∈ r.constraints, x.expr.Instantiable) (h : merge r s = .ok (a, s')) :
      Supplied settings storageBits s'
  | work {s s' : InContext Generator} (hs : Supplied settings storageBits s) (h : Works s s') :
      Supplied settings storageBits s'

section

variable {settings : Settings} {storageBits : Nat} {s s' : InContext Generator}

theorem Supplied.operated (h : Supplied settings storageBits s) :
    Operated settings storageBits s := by
  induction h with
  | create hc hrun => exact .create hc hrun
  | add _ he _ hrun ih => exact .add ih he hrun
  | merge _ hr _ hrun ih => exact .merge ih hr hrun
  | work _ hwork ih =>
    cases hwork with
    | change h => exact .change ih h
    | setEnabled name enabled => exact .setEnabled ih name enabled
    | reset => exact .reset ih
    | rebuild h => exact .rebuild ih h
    | next h => exact .next ih h
    | tryNext h => exact .tryNext ih h
    | nextCover h => exact .nextCover ih h
    | resetCoverage h => exact .resetCoverage ih h

theorem Clear.add (hs : s.item.Clear) (kind : Kind) (name : Option String) (e : Expr) :
    Grants (add kind name e) s (fun _ => True) (fun _ s' => s'.item.Clear)
      fun _ s' => e.Instantiable → s'.item.Clear := by
  have hmake := useRegistry_grants (s := s) (E := fun _ => True)
    (Registry.make_grants name e (kind = .soft) (kind = .cover))
  unfold Generator.add
  apply Grants.bind (P := fun _ s' => e.Instantiable → s'.item.Clear)
    (hmake.imp (fun _ hf => hf) ?_ ?_)
  · exact fun _ _ hs' => .pure hs'
  · -- A rejected constraint leaves the registry alone.
    intro _ _ hleft
    obtain ⟨t, rfl, -, hitem⟩ := hleft
    exact { hs with registry := hitem ▸ hs.registry }
  · intro x _ hleft hform
    obtain ⟨t, rfl, hadds⟩ := hleft
    refine { hs with registry := ?_ }
    dsimp only
    rw [hadds.item_eq]
    refine List.forall_mem_append.mpr ⟨hs.registry, List.forall_mem_singleton.mpr ?_⟩
    rw [hadds.expr_eq]
    exact hform

theorem Clear.setEnabled (hs : s.item.Clear) (h : Tracked s) (name : String) (enabled : Bool) :
    (s.item.setEnabled name enabled).2.Clear := by
  refine { hs with registry := fun x hx => ?_ }
  change x ∈ (s.item.registry.setEnabled name enabled).2.constraints at hx
  rw [h.registry.constraints_setEnabled] at hx
  obtain ⟨y, hy, rfl⟩ := List.mem_map.mp hx
  unfold Constraint.switch
  split <;> exact hs.registry y hy

theorem Works.clears (hwork : Works s s') (h : Tracked s) (hs : s.item.Clear) : s'.item.Clear := by
  have hnext := (next_clears h hs).leaves
  -- No work adds a constraint: a switch keeps the expressions, a solve at most regroups them.
  cases hwork with
  | change => exact hs
  | setEnabled name enabled => exact hs.setEnabled h name enabled
  | reset => exact hs.reset
  | rebuild hrun => exact (rebuild_clears _ s hs).of_run hrun
  | next hrun => exact hnext.of_run hrun
  | tryNext hrun =>
    -- It refuses what is not solved, and is a solve otherwise.
    have htry : Leaves Generator.tryNext s fun s' => s'.item.Clear := by
      unfold Generator.tryNext
      refine hnext.bind fun solved => ?_
      cases solved with
      | false => exact .throw _
      | true => exact .pure _
    exact htry.of_run hrun
  | nextCover hrun => exact (nextCover_clears h hs).leaves.of_run hrun
  | resetCoverage hrun =>
    have hreset : Preserves Generator.resetCoverage fun s => s.item.Clear := by
      unfold Generator.resetCoverage
      exact .bind (change_clears fun g hg => { hg with }) fun _ => rebuildCoverage_clears
    exact (hreset s hs).of_run hrun

/-- All operations keep that the constraints have circuits. -/
theorem Supplied.clear (h : Supplied settings storageBits s) : s.item.Clear := by
  induction h with
  | @create _ _ g hc hrun =>
    -- A new generator has no constraints at all.
    obtain ⟨-, hfresh, -⟩ := (create_fresh _).of_run hrun
    exact {
      registry := by simp [hfresh.constraints]
      merged := by simp [hfresh.partitioner, Partitioner.empty]
      vectors := hfresh.vectors ▸ VectorStage.clear_empty
      coverageVectors := hfresh.coverageVectors ▸ VectorStage.clear_empty }
  | @add _ _ kind name e a _ _ hform hrun ih =>
    cases a with
    | error refusal => exact (ih.add kind name e).of_refusal hrun
    | ok u => exact (ih.add kind name e).of_run hrun (hform rfl)
  | @merge s _ r _ _ _ hform hrun ih =>
    -- What is merged is instantiable by assumption.
    obtain rfl := (Merging.merge_leaves r s).of_run hrun
    exact ih.merge hform
  | work hs hwork ih => exact hwork.clears hs.operated.tracked ih

/-- What is accepted can be solved, if bodies are elementwise: in every run of a generator whose
    constraints on vectors have such bodies, no solve is refused for want of a circuit.  And every
    accepted constraint on a whole vector is about the only id of its support, which is that of
    every vector in it. -/
theorem solves_of_supplied (h : Supplied settings storageBits s) :
    (∀ what s', next s ≠ .ok (.error (.unsupported what), s')) ∧
    (∀ what s', nextCover s ≠ .ok (.error (.unsupported what), s')) ∧
    ∀ (name : Option String) (e : Expr) (soft cover : Bool) (r r' : InContext Registry)
      (x : Constraint), Registry.make name e soft cover r = .ok (.ok x, r') →
      e.isVectorConstraint = true →
        (∃ id, x.vectorId? = some id ∧ ∀ j, j ∈ e.support ↔ j = id) ∧
          ∀ j elem, .vector j elem ∈ e.preorder → x.vectorId? = some j := by
  have hs := h.operated.tracked
  refine ⟨fun what s' hrun => ?_, fun what s' hrun => ?_, ?_⟩
  · exact (Grants.of_refusal (next_clears hs h.clear) hrun).1 ⟨what, rfl⟩
  · exact (Grants.of_refusal (nextCover_clears hs h.clear) hrun).1 ⟨what, rfl⟩
  · intro name e soft cover r r' x hrun hvector
    obtain ⟨id, hid, hsupport⟩ := Registry.vectorId?_of_make hrun hvector
    refine ⟨⟨id, hid, hsupport⟩, fun j elem hmem => ?_⟩
    -- The vector of an access is part of the support, which is a single one.
    have hj : j ∈ e.support := by
      rw [Expr.support, Std.TreeSet.mem_ofList, List.contains_iff_mem]
      exact List.mem_filterMap.mpr ⟨_, hmem, rfl⟩
    rw [hid, (hsupport j).mp hj]

end

/-- At every index, all elements are distinct. -/
def distinctBytes : Expr := everyByte (.unique (.vector 1 (.unsigned 8)))

/-- A new generator is given a constraint; it makes vectors of two elements. -/
def shelving (e : Expr) : Except Fault (Except Refusal Unit × InContext Generator) := do
  let (g, c) ← create { defaultVectorSize := 2, seed := some 1 } 4 shelf
  add .hard none e ⟨c, g⟩

theorem supplied_shelving {e : Expr} {a : Except Refusal Unit} {s : InContext Generator}
    (hvector : e.mentionsVector = true) (hform : e.Instantiable) (hrun : shelving e = .ok (a, s)) :
    Supplied { defaultVectorSize := 2, seed := some 1 } 4 s := by
  obtain ⟨⟨g, c⟩, hcreate, hadd⟩ := exists_ok_of_bind hrun
  exact .add (.create reached_shelf hcreate) (.of_mentionsVector hvector) (fun _ => hform) hadd

/-- The vector is solved, and it is what the constraint is about when it is added once more. -/
theorem solves_of_smallBytes : ∃ s s' x r',
    Supplied { defaultVectorSize := 2, seed := some 1 } 4 s ∧ next s = .ok (.ok true, s') ∧
    (∀ what t, nextCover s ≠ .ok (.error (.unsupported what), t)) ∧
    Registry.make none smallBytes true false ⟨s.context, s.item.registry⟩ = .ok (.ok x, r') ∧
    smallBytes.isVectorConstraint = true ∧ x.vectorId? = some 1 := by
  obtain ⟨_, s, hrun, htest⟩ := exists_of_granted?_any (x := shelving smallBytes) (p := fun (_, s) =>
    (granted? (next s)).any Prod.fst && (granted? (Registry.make none smallBytes true false
      ⟨s.context, s.item.registry⟩)).isSome) (by
    -- The kernel does not see through the search for the least id of a set.
    simp only [next, refresh, rebuild, VectorStage.reset, Constraint.vectorId?,
      Std.TreeSet.min?_eq_head?_toList]
    decide +kernel)
  obtain ⟨hnext, hmake⟩ := (Bool.and_eq_true _ _).mp htest
  obtain ⟨_, s', hnext, rfl⟩ := exists_of_granted?_any hnext
  obtain ⟨x, r', hmake, -⟩ := exists_of_granted?_any (p := fun _ => true) (by
    rwa [Option.any_true])
  have hsupplied := supplied_shelving (e := smallBytes) rfl ⟨trivial, trivial⟩ hrun
  -- The theorem gives the clauses that the run does not show.
  obtain ⟨-, hcover, hvectors⟩ := solves_of_supplied hsupplied
  obtain ⟨-, hid⟩ := hvectors _ _ _ _ _ _ _ hmake rfl
  exact ⟨s, s', x, r', hsupplied, hnext, hcover, hmake, rfl, hid 1 (.unsigned 8) (by decide)⟩

/-- A constraint on the whole vector in the body of another one is accepted, and there is no circuit
    for it. -/
theorem refused_distinctBytes : ∃ s s', Operated { defaultVectorSize := 2, seed := some 1 } 4 s ∧
    shelving distinctBytes = .ok (.ok (), s) ∧
    next s = .ok (.error (.unsupported "unique"), s') := by
  obtain ⟨_, s, hrun, htest⟩ := exists_of_granted?_any (x := shelving distinctBytes)
    (p := fun (_, s) => (refused? (next s)).any fun (refusal, _) =>
      decide (refusal = .unsupported "unique")) (by
    -- The kernel does not see through the search for the least id of a set.
    simp only [next, refresh, rebuild, VectorStage.reset, Constraint.vectorId?,
      Std.TreeSet.min?_eq_head?_toList]
    decide +kernel)
  obtain ⟨refusal, s', hnext, hrefusal⟩ := exists_of_refused?_any htest
  obtain rfl := of_decide_eq_true hrefusal
  obtain ⟨⟨g, c⟩, hcreate, hadd⟩ := exists_ok_of_bind hrun
  have hoperated := Operated.add (.create reached_shelf hcreate) (.of_mentionsVector rfl) hadd
  exact ⟨s, s', hoperated, hrun, hnext⟩

/-- The elements of a scalar, as if it were a vector, are distinct. -/
def distinctScalar : Expr := .unique (.var 1 (.unsigned 8))

/-- A constraint on a scalar as if it were a vector is accepted, and then it is the scalar that the
    constraint is about. -/
theorem accepted_distinctScalar : ∃ x r',
    Registry.make none distinctScalar false false ⟨sample, (Registry.create sample).1⟩ =
      .ok (.ok x, r') ∧ x.expr = distinctScalar ∧ x.vectorId? = some 1 := by
  obtain ⟨x, r', hmake, htest⟩ := exists_of_granted?_any (x := Registry.make none distinctScalar
    false false ⟨sample, (Registry.create sample).1⟩) (p := fun result =>
      decide (result.1.expr = distinctScalar) && decide (result.1.vectorId? = some 1)) (by
    simp only [Constraint.vectorId?, Std.TreeSet.min?_eq_head?_toList]
    decide +kernel)
  simp only [Bool.and_eq_true, decide_eq_true_eq] at htest
  exact ⟨x, r', hmake, htest⟩

/-- Neither of the two is a matter of the constraints alone: a solve may have no circuit, and the
    identifier may be that of a scalar. -/
theorem unsupported_distinctBytes :
    (∃ s s', Operated { defaultVectorSize := 2, seed := some 1 } 4 s ∧
      shelving distinctBytes = .ok (.ok (), s) ∧
      next s = .ok (.error (.unsupported "unique"), s')) ∧
    ∃ x r', sample.cells[1]?.map (·.type.sort) = some (.unsigned 8) ∧
      Registry.make none distinctScalar false false ⟨sample, (Registry.create sample).1⟩ =
        .ok (.ok x, r') ∧ x.expr = distinctScalar ∧ distinctScalar.isVectorConstraint = true ∧
      x.vectorId? = some 1 ∧ ∀ elem, .vector 1 elem ∉ distinctScalar.preorder := by
  obtain ⟨x, r', hmake, hexpr, hid⟩ := accepted_distinctScalar
  exact ⟨refused_distinctBytes, x, r', rfl, hmake, hexpr, rfl, hid,
    by simp [distinctScalar, Expr.preorder]⟩

end Generator

end Stimulus
