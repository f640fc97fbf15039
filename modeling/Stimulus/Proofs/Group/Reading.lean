import Stimulus.Proofs.Group.Analysis
import Stimulus.Proofs.Group.Hits
import Stimulus.Proofs.Group.Meaning

/-!
# What a partition solver reads

Reading asks the last model for the bits of a variable.  A solve that fails leaves no model behind,
and one that succeeds leaves the model whose values it answers.  So after a solve a variable has a
value only if the solve had an answer, and the value is the one that was answered; variables without
bits always have the value zero.

Nothing of the kind holds before the first solve.  The analysis draws a model with the same solver,
which stays there for the first one who reads.

Main definitions:
- `PartitionSolver.Quiet`: there is no model if there are conflicts
- `PartitionSolver.Shown`: what a solve leaves to read

Main statements:
- `PartitionSolver.read_of_solved`: what is read after a solve
- `PartitionSolver.read_of_bypassed`: what is read before, if there was no analysis
- `PartitionSolver.read_of_built`: what is read at any time
-/

namespace Stimulus

open Relation (ReflTransGen)

/-! ## §1 Models -/

namespace Solver

theorem drawModel_clears (f : Edge) (s : Solver) :
    Ensures (drawModel f) s (fun _ => True) fun found s' => found = false → s'.model = ∅ := by
  unfold drawModel
  refine .get_bind (.ofExcept_bind (ends_true _) fun counter _ => .get_bind ?_)
  refine (ensures_true _ s).bind ?_
  rintro ⟨values, counter'⟩ s₁ -
  cases values with
  | none => exact .modify_bind (.pure fun _ => rfl)
  | some values => exact .modify_bind (.pure nofun)

/-- A solve that finds nothing leaves no model. -/
theorem solve_clears (ignoreSofts : Bool) (s : Solver) :
    Ensures (solve ignoreSofts) s (fun _ => True) fun found s' => found = false → s'.model = ∅ := by
  -- The last part of a solve, which draws the model.
  have hsearch (base : Edge) (suggestions : Array Edge) (s : Solver) : Ensures (do
      let shuffled ← draw (Stream.shuffle suggestions)
      let f ← build (relax base shuffled.toList.reverse)
      drawModel f) s (fun _ => True) fun found s' => found = false → s'.model = ∅ := by
    refine (ensures_true _ s).bind fun shuffled s₁ _ => (ensures_true _ s₁).bind fun f s₂ _ => ?_
    exact drawModel_clears f s₂
  unfold solve
  refine .get_bind (.modify_bind ((ensures_true _ _).bind fun base s₁ _ => ?_))
  cases ignoreSofts with
  | true => exact hsearch base _ s₁
  | false => exact (ensures_true _ s₁).bind fun base' s₂ _ => hsearch base' _ s₂

/-- Without a model only variables without bits have a value. -/
theorem read_of_no_model {s : Solver} (hwf : s.encoding.WellFormed) (hmodel : s.model = ∅)
    {id b : Nat} {sort : BitSort} (hread : s.read (.var id sort) = .ok (some b)) :
    sort.width = 0 ∧ b = 0 := by
  have hopen : ∀ v : Nat, s.model[v]? = none := by simp [hmodel]
  cases hslot : s.encoding.slots[id]? with
  | none =>
    rw [read_of_unplaced hslot] at hread
    cases hread
  | some slot =>
    simp only [read, Encoding.variableBits, hslot, bitVariables_eq (hwf.slots.slot_lt hslot)]
      at hread
    by_cases hwidth : sort.width ≤ 64
    · rw [if_pos hwidth] at hread
      obtain ⟨bits, hbits, rfl⟩ := Option.map_eq_some_iff.mp (Except.ok.inj hread)
      cases hvars : (List.range sort.width).map (bitIndex slot) with
      | nil =>
        rw [hvars] at hbits
        cases hbits
        exact ⟨by simpa using hvars, rfl⟩
      | cons v vs =>
        -- The first bit has no value.
        rw [hvars, List.mapM_cons, hopen v] at hbits
        cases hbits
    · rw [if_neg hwidth] at hread
      cases hread

section

variable {α : Type} {m : Std.TreeMap Nat Bool}

theorem encode_keeps_model (act : Encode α) : Preserves (encode act) fun s => s.model = m := by
  intro s hs
  refine (encode_focus (leaves_true act s.encoding)).imp (fun _ hf => hf) ?_ ?_
  all_goals
    rintro _ _ ⟨encoding, rfl, -⟩
    exact hs

theorem build_keeps_model (act : Build α) :
    Preserves (Request.step (build act)) fun s => s.model = m := by
  rintro ⟨⟨manager, slots, domain⟩, hard, softs, assumptions, suggestions, model, rng⟩ hs
  refine Ensures.step (P := fun _ (s' : Solver) => s'.model = m) ?_
  unfold Ensures build
  dsimp only
  cases act manager with
  | error fault => trivial
  | ok r => exact hs

/-- Only a solve touches the model. -/
theorem assert_keeps_model (e : Expr) : Preserves (assert e) fun s => s.model = m := by
  unfold assert
  refine .bind (encode_keeps_model _) fun f => .bind .get fun s => ?_
  exact .bind (build_keeps_model _) fun hard => .modify fun _ hs => hs

theorem assertSoft_keeps_model (e : Expr) : Preserves (assertSoft e) fun s => s.model = m := by
  unfold assertSoft
  exact .bind (encode_keeps_model _) fun f => .modify fun _ hs => hs

end

end Solver

namespace PartitionSolver

/-! ## §2 Building -/

/-- If there are conflicts on record, then there is no model. -/
def Quiet (s : PartitionSolver) : Prop := s.contradictions = [] ∨ s.solver.model = ∅

section

variable {s s' : PartitionSolver} {α : Type} {storageBits : Nat}

theorem useSolver_keeps_model {act : Request Solver α} {m : Std.TreeMap Nat Bool}
    (h : Preserves act fun s => s.model = m) :
    Preserves (useSolver act) fun s => s.solver.model = m := by
  intro s hs
  refine (useSolver_focus (h s.solver hs)).imp (fun _ hf => hf) ?_ ?_
  all_goals
    rintro _ _ ⟨solver, rfl, hmodel⟩
    exact hmodel

theorem addConstraints_keeps_model {m : Std.TreeMap Nat Bool} :
    Preserves addConstraints fun s => s.solver.model = m := by
  unfold addConstraints
  refine .bind .get fun s => .bind (.forM fun x => useSolver_keeps_model ?_) fun _ => ?_
  · split
    · exact Solver.assertSoft_keeps_model _
    · exact Solver.assert_keeps_model _
  · exact .bind .get fun s => .forM fun b => useSolver_keeps_model (Solver.assert_keeps_model b)

/-- Conflicts are looked for with another solver. -/
theorem findContradictions_keeps_model (storageBits : Nat) {m : Std.TreeMap Nat Bool} :
    Preserves (findContradictions storageBits) fun s => s.solver.model = m := by
  have hdraw {α : Type} (act : Draw α) : Preserves (draw act) fun s => s.solver.model = m := by
    intro s hs
    unfold Leaves Grants draw
    cases act s.rng with
    | error fault => trivial
    | ok r => exact hs
  unfold findContradictions newSolver
  refine .bind .get fun s => .bind (.bind (hdraw _) fun seed => .ofExcept _) fun checker => ?_
  exact .bind (.ofAttempt _) fun (groups, _) => .modify fun _ hs => hs

/-- What leaves the record alone puts no conflicts on it. -/
theorem keeps_no_contradictions {act : Request PartitionSolver α}
    (h : ∀ s₀ : PartitionSolver, Preserves act s₀.SameRecord) :
    Preserves act fun s => s.contradictions = [] := fun s hs =>
  (h s s (.refl s)).imp fun _ hsame => hsame.contradictions_eq.trans hs

theorem settleSofts_keeps_no_contradictions :
    Preserves settleSofts fun s => s.contradictions = [] := by
  unfold settleSofts
  refine .bind .get fun s => ?_
  dsimp only
  split
  · exact .pure _
  · refine .bind (keeps_no_contradictions fun _ => useSolver_keeps _) fun dropped => ?_
    exact .modify fun _ hs => hs

/-- What an analysis does without conflicts brings none about. -/
theorem settle_keeps_no_contradictions (c : Context) (storageBits : Nat) (presolve : Bool) :
    Preserves (do
      settleSofts
      if presolve then
        (← get).scalars.toList.forM fun x => addPresolver c storageBits x.1 x.2)
      fun s => s.contradictions = [] := by
  refine .bind settleSofts_keeps_no_contradictions fun _ => ?_
  cases presolve with
  | false => exact .pure _
  | true =>
    refine .bind .get fun s => .forM fun x => ?_
    exact keeps_no_contradictions fun _ => addPresolver_keeps c storageBits x.1 x.2

/-- A search with the solver of the partition leaves the conflicts as they are. -/
theorem search_clears (ignoreSofts : Bool) (s : PartitionSolver) :
    Grants (useSolver (Request.step (Solver.solve ignoreSofts))) s (fun _ => True)
      (fun _ _ => False) fun found s' =>
        s'.contradictions = s.contradictions ∧ (found = false → s'.solver.model = ∅) := by
  have hsolve := (Solver.solve_clears ignoreSofts s.solver).step (R := fun _ _ => False)
  refine (useSolver_focus hsolve).imp (fun _ hf => hf) (fun _ _ ⟨_, _, hr⟩ => hr) ?_
  rintro found _ ⟨solver, rfl, hmodel⟩
  exact ⟨rfl, hmodel⟩

/-- After an analysis there is no model if there are conflicts: the search for a model failed. -/
theorem analyse_quiet (c : Context) (storageBits : Nat) (presolve : Bool)
    (hnone : s.contradictions = []) : Leaves (analyse c storageBits presolve) s Quiet := by
  -- The second part of an analysis does something only if there are no conflicts.
  have hrest : Preserves (do
      if (← get).contradictions.isEmpty then
        settleSofts
        if presolve then
          (← get).scalars.toList.forM fun x => addPresolver c storageBits x.1 x.2) Quiet := by
    intro s hquiet
    refine Grants.get_bind ?_
    split
    · rename_i hempty
      have hsettle := settle_keeps_no_contradictions c storageBits presolve s
        (List.isEmpty_iff.mp hempty)
      exact hsettle.imp fun _ hs' => .inl hs'
    · exact .pure hquiet
  unfold analyse
  refine Grants.bind (search_clears true s).unrefused fun found s₁ ⟨hsame, hmodel⟩ => ?_
  cases found with
  | true =>
    -- There is a model, and no conflicts are looked for.
    exact hrest s₁ (.inl (hsame.trans hnone))
  | false =>
    -- There is no model any more when the conflicts are put on record.
    have hfind := findContradictions_keeps_model storageBits s₁ (hmodel rfl)
    exact (hfind.imp fun _ hs' => .inr hs').bind fun _ => hrest

/-- A solver that was built has no model if there are conflicts, or if there was no analysis. -/
theorem build_quiet (c : Context) (storageBits : Nat) (settings : Settings) (p : Partition)
    (seed : Nat) :
    Attempts (build c storageBits settings p seed) (fun _ => True) (fun _ => True) fun s =>
      s.Quiet ∧ (settings.bypassAnalysis = true → s.solver.model = ∅) := by
  unfold build
  refine Attempts.ofExcept_bind (ends_true _) fun (solverSeed, rng) _ => ?_
  have hempty : Ends (Solver.empty storageBits solverSeed) (fun _ => True) fun solver =>
      solver.model = ∅ := Ends.bind (ends_true _) fun _ _ => rfl
  refine Attempts.ofExcept_bind hempty fun solver hsolver => ?_
  dsimp only
  let start : PartitionSolver := ⟨p, solver, p.scalars,
    boundsOnSizes c p.scalars settings.maxVectorSize, [], [], [], rng⟩
  have hbuilding : Grants (do
      addConstraints
      if !settings.bypassAnalysis then analyse c storageBits settings.presolve) start
      (fun _ => True) (fun _ _ => True) fun _ s' =>
        s'.Quiet ∧ (settings.bypassAnalysis = true → s'.solver.model = ∅) := by
    have hadd := (addConstraints_keeps_model start hsolver).and
      (keeps_no_contradictions (fun _ => addConstraints_keeps) start rfl)
    refine Grants.bind hadd.results
      fun _ s₁ ⟨hmodel, hnone⟩ => ?_
    cases settings.bypassAnalysis with
    | true => exact .pure ⟨.inl hnone, fun _ => hmodel⟩
    | false =>
      exact Grants.imp (analyse_quiet c storageBits settings.presolve hnone) (fun _ hf => hf)
        (fun _ _ _ => trivial) fun _ _ hquiet => ⟨hquiet, nofun⟩
  exact Attempts.bind hbuilding.runOn fun _ hs => hs

/-! ## §3 Solving -/

/-- What a solve leaves to read: the results that it answers, or no model. -/
def Shown (s : PartitionSolver) (answer : Option (List (Nat × Nat))) : Prop :=
  match answer with
  | some results => ∀ id n, (id, n) ∈ results ↔ s.read id = .ok (some n)
  | none => s.solver.model = ∅

variable {p : Partition} {t t' : InContext PartitionSolver} {answer : Option (List (Nat × Nat))}
  {id b : Nat}

/-- Preparing a solve is never refused, so a solve without an answer has searched in vain. -/
theorem solve_shown (h : s.Built p) (hquiet : s.Quiet) (c : Context) :
    Ensures (solve c) s (fun _ => True) fun answer s' => s'.Shown answer ∧ s'.Quiet := by
  obtain ⟨conflicts, hard, softs, h⟩ := h
  unfold solve
  refine .get_bind ?_
  split
  · -- With conflicts on record nothing is tried.
    rename_i hconflicts
    have hmodel : s.solver.model = ∅ := hquiet.resolve_left (by simpa using hconflicts)
    exact .pure ⟨hmodel, hquiet⟩
  · rename_i hconflicts
    have hnone : conflicts = [] := by
      rw [h.contradictions_eq] at hconflicts
      simpa using hconflicts
    have hattempt : Grants (do
        prepare c
        useSolver (Request.step (Solver.solve false))) s (fun _ => True) (fun _ _ => False)
        fun found s' => s'.contradictions = [] ∧ (found = false → s'.solver.model = ∅) := by
      refine (prepare_means h c).bind fun _ s₁ ⟨h₁, _⟩ => (search_clears false s₁).mono ?_
      rintro found s' ⟨hsame, hmodel⟩
      exact ⟨hsame.trans (h₁.contradictions_eq.trans hnone), hmodel⟩
    refine hattempt.run_bind ?_
    rintro found s' ⟨hnone', hmodel⟩
    cases found with
    | false => exact .pure ⟨hmodel rfl, .inl hnone'⟩
    | true =>
      have hresults : Ends (s'.solver.results s'.scalars) (fun _ => True) fun results =>
          ∀ id n, (id, n) ∈ results ↔ s'.read id = .ok (some n) := by
        cases hrun : s'.solver.results s'.scalars with
        | error fault => trivial
        | ok results => exact Solver.mem_results_of_run hrun
      exact .get_bind (.ofExcept_bind hresults fun results hshown => .pure ⟨hshown, .inl hnone'⟩)

/-- Without a model only variables without bits have a value. -/
theorem read_of_no_model (h : s.Built p) (hmodel : s.solver.model = ∅)
    (hread : s.read id = .ok (some b)) :
    b = 0 ∧ ∃ sort, p.scalars[id]? = some (.var id sort) ∧ sort.width = 0 := by
  obtain ⟨conflicts, hard, softs, h⟩ := h
  unfold read at hread
  rw [h.scalars_eq] at hread
  cases hid : p.scalars[id]? with
  | none =>
    rw [hid] at hread
    cases hread
  | some e =>
    obtain ⟨sort, rfl⟩ := p.variables_scalars id e hid
    rw [hid] at hread
    obtain ⟨hwidth, hb⟩ := Solver.read_of_no_model h.solver.wellFormed hmodel hread
    exact ⟨hb, sort, rfl, hwidth⟩

/-- A partition solver stays as it was built over all solves. -/
theorem built_of_run (hrun : ReflTransGen Advances t t') (h : t.item.Built p)
    (hquiet : t.item.Quiet) : t'.item.Built p ∧ t'.item.Quiet := by
  induction hrun with
  | refl => exact ⟨h, hquiet⟩
  | tail _ hstep ih =>
    obtain ⟨hbuilt, hquiet⟩ := ih
    cases hstep with
    | change s hchanges => exact ⟨hbuilt, hquiet⟩
    | @solve c s s' answer hsolve =>
      have hquiet' := ((solve_shown hbuilt hquiet c).of_run hsolve).2
      obtain ⟨conflicts, hard, softs, hmeans⟩ := hbuilt
      exact ⟨⟨conflicts, hard, softs, ((solve_means hmeans c).of_run hsolve).1⟩, hquiet'⟩

/-- Without an analysis there is nothing to read before the first solve. -/
theorem read_of_bypassed {c : Context} {settings : Settings} {seed : Nat}
    (hbypass : settings.bypassAnalysis = true)
    (hbuild : build c storageBits settings p seed = .ok (.ok s))
    (hread : s.read id = .ok (some b)) :
    b = 0 ∧ ∃ sort, p.scalars[id]? = some (.var id sort) ∧ sort.width = 0 :=
  read_of_no_model ((build_means c storageBits settings p seed).of_run hbuild)
    (((build_quiet c storageBits settings p seed).of_run hbuild).2 hbypass) hread

/-- After a solve a variable has a value only if that solve had an answer.  The value is among the
    results, and it is what a random variable of the context has by then.  Variables without bits
    are apart, which have the value zero in any case. -/
theorem read_of_solved {c c' : Context} {settings : Settings} {seed : Nat}
    (hbuild : build c storageBits settings p seed = .ok (.ok s))
    (hrun : ReflTransGen Advances ⟨c', s⟩ t) (hsolve : solve t.context t.item = .ok (answer, s'))
    (hread : s'.read id = .ok (some b)) :
    (∃ results, answer = some results ∧ (id, b) ∈ results ∧
        (t.context.isRandom id = true → (t.context.writeAll results).bits id = b)) ∨
      answer = none ∧ b = 0 ∧ ∃ sort, p.scalars[id]? = some (.var id sort) ∧ sort.width = 0 := by
  have hbuilt := (build_means c storageBits settings p seed).of_run hbuild
  have hquiet := ((build_quiet c storageBits settings p seed).of_run hbuild).1
  obtain ⟨hbuilt, hquiet⟩ := built_of_run hrun hbuilt hquiet
  have hshown := ((solve_shown hbuilt hquiet t.context).of_run hsolve).1
  cases answer with
  | some results =>
    have hmem := (hshown id b).mpr hread
    refine .inl ⟨results, rfl, hmem, fun hrandom => Context.bits_writeAll hrandom hmem ?_⟩
    -- There is one result for the variable.
    intro n hn
    have hsame := hread.symm.trans ((hshown id n).mp hn)
    cases hsame
    rfl
  | none =>
    obtain ⟨conflicts, hard, softs, hmeans⟩ := hbuilt
    have hbuilt' : s'.Built p := ⟨conflicts, hard, softs,
      ((solve_means hmeans t.context).of_run hsolve).1⟩
    exact .inr ⟨rfl, read_of_no_model hbuilt' hshown hread⟩

end

/-- At any time a variable with bits has a value only if the last solve had an answer, and then it
is the value that was answered and written.  Before the first solve this takes a solver without an
analysis. -/
theorem read_of_built {p : Partition} {c : Context} {storageBits : Nat} {settings : Settings}
    {seed : Nat} {s : PartitionSolver}
    (hbuild : build c storageBits settings p seed = .ok (.ok s)) :
    (settings.bypassAnalysis = true → ∀ id b, s.read id = .ok (some b) →
      b = 0 ∧ ∃ sort, p.scalars[id]? = some (.var id sort) ∧ sort.width = 0) ∧
    ∀ c' t answer s', ReflTransGen Advances ⟨c', s⟩ t →
      solve t.context t.item = .ok (answer, s') → ∀ id b, s'.read id = .ok (some b) →
        (∃ results, answer = some results ∧ (id, b) ∈ results ∧
            (t.context.isRandom id = true → (t.context.writeAll results).bits id = b)) ∨
          answer = none ∧ b = 0 ∧
            ∃ sort, p.scalars[id]? = some (.var id sort) ∧ sort.width = 0 :=
  ⟨fun hbypass _ _ hread => read_of_bypassed hbypass hbuild hread,
    fun _ _ _ _ hrun hsolve _ _ hread => read_of_solved hbuild hrun hsolve hread⟩

/-- The first coin is bound to be true. -/
def heads : Partition := ⟨[ruling 1 "heads" (.var 1 .bool) false], .ofList [1]⟩

/-- Without an analysis there is no value of the first coin.  After a solve it is read as it was
    answered and written. -/
theorem read_of_built_heads : ∃ s results s',
    build coins 4 { bypassAnalysis := true } heads 1 = .ok (.ok s) ∧
    (∀ b, s.read 1 ≠ .ok (some b)) ∧ solve coins s = .ok (some results, s') ∧
    s'.read 1 = .ok (some 1) ∧ (1, 1) ∈ results ∧ (coins.writeAll results).bits 1 = 1 := by
  obtain ⟨s, hbuild, htest⟩ := exists_of_attempted?_any
    (x := build coins 4 { bypassAnalysis := true } heads 1)
    (p := fun s => (solve coins s).toOption.any fun solved => solved.1.isSome &&
      (solved.2.read 1).toOption.any (· = some 1)) (by decide +kernel)
  obtain ⟨⟨answer, s'⟩, hsolve, htest⟩ := exists_of_toOption_any htest
  rw [Bool.and_eq_true] at htest
  obtain ⟨hsome, htest⟩ := htest
  obtain ⟨value, hvalue, hone⟩ := exists_of_toOption_any htest
  obtain ⟨results, rfl⟩ := Option.isSome_iff_exists.mp hsome
  have hread : s'.read 1 = .ok (some 1) := of_decide_eq_true hone ▸ hvalue
  have hrandom : coins.isRandom 1 = true := rfl
  have hscalars : heads.scalars[1]? = some (.var 1 .bool) := rfl
  obtain ⟨hbefore, hafter⟩ := read_of_built hbuild
  refine ⟨s, results, s', hbuild, fun b hb => ?_, hsolve, hread, ?_⟩
  · -- The coin has a bit.
    obtain ⟨-, sort, hsort, hwidth⟩ := hbefore rfl 1 b hb
    cases hscalars.symm.trans hsort
    cases hwidth
  · rcases hafter coins _ _ _ .refl hsolve 1 1 hread with ⟨_, heq, hmem, hbits⟩ | ⟨hnone, -⟩
    · cases heq
      exact ⟨hmem, hbits hrandom⟩
    · cases hnone

/-- After an analysis there is something to read although nothing was solved. -/
theorem read_of_analysed : ∃ s, build coins 4 {} heads 1 = .ok (.ok s) ∧
    s.read 1 = .ok (some 1) := by
  obtain ⟨s, hrun, htest⟩ := exists_of_attempted?_any (x := build coins 4 {} heads 1)
    (p := fun s => (s.read 1).toOption.any (· = some 1)) (by decide +kernel)
  obtain ⟨value, hvalue, hone⟩ := exists_of_toOption_any htest
  exact ⟨s, hrun, of_decide_eq_true hone ▸ hvalue⟩

end PartitionSolver

end Stimulus
