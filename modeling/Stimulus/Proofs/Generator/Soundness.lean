import Stimulus.Proofs.Generator.Run

/-!
# Solutions are sound

Whenever a solve succeeds, plain or for coverage, the values in the context satisfy the active hard
constraints on scalars, and the size variable of every vector holds its length, as far as its 32
bits reach.  This needs constraints that have a value: a signed shift to the right of a word without
bits has none, although it can be encoded.

Main statements:
- `Generator.satisfied_of_reached`
- `Generator.solved_without_value`
-/

namespace Stimulus

namespace Generator

open Relation

/-! ## §1 Generators without constraints -/

section

variable {settings : Settings} {storageBits : Nat} {s s' : InContext Generator}

/-- Without partitions there is nothing to solve. -/
theorem solvePlain_nil {e : InContext PlainEnsemble} (h : e.item.solvers = []) :
    PlainEnsemble.solvePlain e = .ok (.ok true, e) := by
  obtain ⟨c, source, solvers⟩ := e
  cases h
  have houtcome : (if source.settings.sideBySide then
      PlainEnsemble.solveSideBySide List.flatten c [] else PlainEnsemble.solveEach c []) =
        .ok (true, [], c) := by
    split <;> rfl
  unfold PlainEnsemble.solvePlain
  dsimp only
  rw [houtcome]

/-- A generator that was just made fills every vector to the default size. -/
theorem Fresh.next_grants (h : s.item.Fresh)
    (hdefault : s.item.vectors.source.settings.defaultVectorSize < VectorStage.elementLimit) :
    Grants next s (fun _ => False) (fun _ _ => False) fun solved s' => solved = true ∧
      ∀ (id : Nat) (entry : VectorEntry), s'.context.vectors[id]? = some entry →
        entry.contents.length = s.item.vectors.source.settings.defaultVectorSize := by
  have hplain : Grants PlainEnsemble.solvePlain ⟨s.context, s.item.plain⟩ (fun _ => False)
      (fun _ _ => False) fun solved e => solved = true ∧ e = ⟨s.context, s.item.plain⟩ := by
    unfold Grants
    rw [solvePlain_nil h.plain]
    exact ⟨rfl, rfl⟩
  unfold next refresh
  refine Grants.bind (P := fun _ s' => s = s') ?_ ?_
  · refine .get_bind ?_
    rw [h.unchanged]
    exact .pure rfl
  rintro _ _ rfl
  refine Grants.bind ((usePlain_grants hplain).imp_refusal fun _ _ ⟨_, _, hr⟩ => hr) ?_
  rintro _ _ ⟨t, rfl, rfl, rfl⟩
  refine .get_bind ?_
  refine (useVectors_grants (VectorStage.solve_default h.vectors (fun id => ?_) h.endless
    hdefault)).imp (fun _ hf => hf) (fun _ _ ⟨_, _, hr⟩ => hr) ?_
  · unfold PlainEnsemble.read
    rw [h.plain]
    rfl
  · rintro solved _ ⟨t, rfl, hsolved, hlength⟩
    exact ⟨hsolved, hlength⟩

end

/-! ## §2 Solutions are sound -/

section

variable {settings : Settings} {storageBits : Nat} {s s' : InContext Generator}

/-- A size variable holds the low 32 bits of the length of its vector. -/
theorem value_of_sized {c : Context} (hc : c.WellFormed) (hsized : ∀ id, c.Sized id) {id : Nat}
    {entry : VectorEntry} (hid : c.vectors[id]? = some entry) :
    c.bits entry.size.id = entry.contents.length ∧
      c.value entry.size = (entry.contents.length % 2 ^ 32 : Nat) := by
  have hbits := hsized id entry hid
  have htype : entry.size.type = .size := by rw [hc.size_next id entry hid]
  refine ⟨hbits, ?_⟩
  rw [Context.value, hbits, htype]
  simp [ScalarType.ofBits, IntSize.width]

/-- Whenever a solve succeeds, plain or for coverage, the values in the context satisfy every active
    hard constraint on scalars, and the size variable of every vector holds its length. -/
theorem satisfied_of_reached (h : Reached settings storageBits s)
    (hsolve : next s = .ok (.ok true, s') ∨ nextCover s = .ok (.ok true, s')) :
    s'.item.registry.constraints = s.item.registry.constraints ∧
      (∀ x ∈ s.item.registry.active, x.isHard = true → x.isVector = false →
        x.expr.Holds s'.context.bits) ∧
      ∀ (id : Nat) (entry : VectorEntry), s'.context.vectors[id]? = some entry →
        s'.context.bits entry.size.id = entry.contents.length ∧
          s'.context.value entry.size = (entry.contents.length % 2 ^ 32 : Nat) := by
  have hall : Founded settings storageBits s' ∧ Unchanged s s' ∧
      Satisfied settings.maxVectorSize s.item.registry.scalars s'.context := by
    rcases hsolve with hrun | hrun
    · have hnext := (next_grants False h.founded nofun nofun nofun nofun).of_run hrun
      exact ⟨hnext.1, hnext.2.1, hnext.2.2.2.2 rfl⟩
    · have hnext := (nextCover_grants h.founded).of_run hrun
      exact ⟨hnext.1, hnext.2.1, hnext.2.2 rfl⟩
  obtain ⟨hfounded, hunchanged, hsatisfied⟩ := hall
  refine ⟨by rw [hunchanged]; rfl, fun x hx hhard hscalar => ?_,
    fun id entry hid => value_of_sized hfounded.wellFormed hsatisfied.sized hid⟩
  exact hsatisfied.hards x (List.mem_filter.mpr ⟨hx, by simpa using hscalar⟩) hhard

/-- The answer of a solve that was neither refused nor stopped by a fault. -/
def answer? {σ : Type} : Except Fault (Except Refusal Bool × σ) → Option Bool
  | .ok (.ok solved, _) => some solved
  | _ => none

theorem exists_of_answer? {σ : Type} {x : Except Fault (Except Refusal Bool × σ)} {solved : Bool}
    (h : answer? x = some solved) : ∃ s, x = .ok (.ok solved, s) := by
  unfold answer? at h
  split at h
  · cases h
    exact ⟨_, rfl⟩
  · cases h

end

/-- A context with a random variable, a reference and a vector of bytes. -/
def sample : Context :=
  (Context.declareVector (.int .bits8 false) (Context.refer (.int .bits8 false) 7
    (Context.declare (.int .bits8 false) (.empty 0)).2).2).2

theorem reached_sample : sample.Reached :=
  ⟨0, _, ((ReflTransGen.refl.tail (.declare _ _)).tail (.refer _ _ _)).tail (.declareVector _ _)⟩

/-- A constraint without variables. -/
def oneLessTwo : Expr := .binary .less (.const 1 (.unsigned 8)) (.const 2 (.unsigned 8))

/-- A context with two random flags, a flag whose value is given, and a vector of bytes. -/
def flagged : Context :=
  (Context.declareVector (.int .bits8 false) (Context.refer .bool 1
    (Context.declare .bool (Context.declare .bool (.empty 0)).2).2).2).2

theorem reached_flagged : flagged.Reached :=
  ⟨0, _, (((ReflTransGen.refl.tail (.declare _ _)).tail (.declare _ _)).tail (.refer _ _ _)).tail
    (.declareVector _ _)⟩

/-- One of the flags is set, and the other one agrees with the one that is given. -/
def flags : List Expr := [.var 1 .bool, .binary .equal (.var 2 .bool) (.var 3 .bool)]

theorem writes_flags : ∀ e ∈ flags, flagged.Writes e := by
  have hdeclared : ∀ id ∈ [1, 2, 3], flagged.signature.sort? id = some .bool := by decide
  intro e he _
  simp only [flags, List.mem_cons, List.not_mem_nil, or_false] at he
  rcases he with rfl | rfl
  all_goals
    refine ⟨by decide, fun id sort hmention => ?_⟩
    simp only [Expr.mentions_binary, Expr.mentions_var] at hmention
  · obtain ⟨rfl, rfl⟩ := hmention
    exact hdeclared _ (by simp)
  · rcases hmention with ⟨rfl, rfl⟩ | ⟨rfl, rfl⟩ <;> exact hdeclared _ (by simp)

/-- Two partitions are solved, one of which reads a reference. -/
theorem satisfied_after_start :
    ∃ s s', Reached { seed := some 1 } 4 s ∧ s.item.registry.active.map Constraint.expr = flags ∧
      next s = .ok (.ok true, s') ∧
      s'.item.registry.constraints = s.item.registry.constraints ∧
      (∀ x ∈ s.item.registry.active, x.isHard = true → x.isVector = false →
        x.expr.Holds s'.context.bits) ∧
      ∀ (id : Nat) (entry : VectorEntry), s'.context.vectors[id]? = some entry →
        s'.context.bits entry.size.id = entry.contents.length ∧
          s'.context.value entry.size = (entry.contents.length % 2 ^ 32 : Nat) := by
  obtain ⟨s, hrun, htest⟩ := exists_of_toOption_any
    (x := started { seed := some 1 } 4 flagged flags)
    (p := fun s => decide (s.item.registry.active.map Constraint.expr = flags) &&
      decide (answer? (next s) = some true)) (by decide +kernel)
  simp only [Bool.and_eq_true, decide_eq_true_eq] at htest
  obtain ⟨hactive, hanswer⟩ := htest
  obtain ⟨s', hnext⟩ := exists_of_answer? hanswer
  have hreached := reached_started reached_flagged writes_flags hrun
  exact ⟨s, s', hreached, hactive, hnext, satisfied_of_reached hreached (.inl hnext)⟩

/-- A signed shift of a word without bits, which has no value, compared with nothing. -/
def shiftedNothing : Expr :=
  .binary .equal (.binary .shr (.const 0 (.signed 0)) (.const 1 (.signed 32))) (.const 0 (.signed 32))

theorem not_holds_shiftedNothing (env : Nat → Nat) : ¬ shiftedNothing.Holds env := by
  rintro ⟨v, hv, -⟩
  cases hv

/-- The circuit of the shift is a word without bits, so the solve succeeds. -/
theorem solved_shiftedNothing :
    ∃ s s', started { seed := some 1 } 4 sample [shiftedNothing] = .ok s ∧
      next s = .ok (.ok true, s') ∧ ∃ x ∈ s.item.registry.active,
        x.isHard = true ∧ x.isVector = false ∧ x.expr = shiftedNothing := by
  obtain ⟨s, hrun, htest⟩ := exists_of_toOption_any
    (x := started { seed := some 1 } 4 sample [shiftedNothing]) (p := fun s =>
      decide (answer? (next s) = some true) && s.item.registry.active.any fun x =>
        x.isHard && !x.isVector && decide (x.expr = shiftedNothing)) (by decide +kernel)
  simp only [Bool.and_eq_true, decide_eq_true_eq, List.any_eq_true, Bool.not_eq_true'] at htest
  obtain ⟨hanswer, x, hx, ⟨hhard, hscalar⟩, hexpr⟩ := htest
  obtain ⟨s', hnext⟩ := exists_of_answer? hanswer
  exact ⟨s, s', hrun, hnext, x, hx, hhard, hscalar, hexpr⟩

/-- A solve that succeeds with a constraint that has no value, and one in which a vector gets more
    elements than its size variable can count. -/
theorem solved_without_value :
    (∃ s s', started { seed := some 1 } 4 sample [shiftedNothing] = .ok s ∧
      next s = .ok (.ok true, s') ∧ ∃ x ∈ s.item.registry.active, x.isHard = true ∧
        x.isVector = false ∧ ¬ x.expr.Holds s'.context.bits) ∧
    ∃ g c s', create { defaultVectorSize := 2 ^ 32, seed := some 1 } 4 sample = .ok (g, c) ∧
      next ⟨c, g⟩ = .ok (.ok true, s') ∧ ∃ (id : Nat) (entry : VectorEntry),
        s'.context.vectors[id]? = some entry ∧
          s'.context.value entry.size ≠ entry.contents.length := by
  refine ⟨?_, ?_⟩
  · obtain ⟨s, s', hrun, hnext, x, hx, hhard, hscalar, hexpr⟩ := solved_shiftedNothing
    exact ⟨s, s', hrun, hnext, x, hx, hhard, hscalar, hexpr ▸ not_holds_shiftedNothing _⟩
  · obtain ⟨⟨g, c⟩, hrun, -⟩ := exists_of_toOption_any
      (x := create { defaultVectorSize := 2 ^ 32, seed := some 1 } 4 sample)
      (p := fun _ => true) (by decide +kernel)
    obtain ⟨hkeeps, hfounded, hfresh⟩ := (create_ensures reached_sample.wellFormed).of_run hrun
    have hdefault : g.vectors.source.settings.defaultVectorSize = 2 ^ 32 := by
      rw [hfounded.vectorSource.settings_eq]
      rfl
    have hlimit : g.vectors.source.settings.defaultVectorSize < VectorStage.elementLimit := by
      rw [hdefault]
      decide
    obtain ⟨solved, s', hnext, rfl, hlength⟩ :=
      (hfresh.next_grants (s := ⟨c, g⟩) hlimit).exists_ok
    obtain ⟨hfounded', -, hkeeps', -, hsatisfied⟩ :=
      (next_grants False hfounded nofun nofun nofun nofun).of_run hnext
    have hdeclared : sample.vectors[3]? = some ⟨.unsigned 8, ⟨4, .size⟩, []⟩ := rfl
    obtain ⟨contents, hentry⟩ := (hkeeps.trans hkeeps').vector hdeclared
    refine ⟨g, c, s', hrun, hnext, 3, _, hentry, ?_⟩
    -- The value is a number of 32 bits, the length is not.
    rw [(value_of_sized hfounded'.wellFormed (hsatisfied rfl).sized hentry).2,
      hlength 3 _ hentry, hdefault]
    decide

end Generator

end Stimulus
