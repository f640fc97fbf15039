import Mathlib.Logic.Relation
import Stimulus.Proofs.Group.Ensemble
import Stimulus.Proofs.Group.Meaning
import Stimulus.Proofs.Likeness

/-!
# Workers

An ensemble can be built and solved by workers, one for every partition.  The results of building
arrive in any order; while solving, the workers take turns in any order, and each of them writes its
results one by one as soon as it has them.

However they are scheduled, the workers build the solvers that are built one after the other, each
from the same seed, and a solve that comes to an end is one in which every solver is asked once and
the results are written in some order.

Main definitions:
- `Worker`, `PlainEnsemble.Turn`: one worker takes a step
- `PlainEnsemble.SolvesAbreast`: a solve in which workers take turns

Main statements:
- `Ensemble.rebuildSideBySide_eq_granted`
- `PlainEnsemble.SolvesAbreast.answers`
- `PlainEnsemble.solvesAbreast_of_solveSideBySide`
-/

namespace Stimulus

open Relation (ReflTransGen)

/-! ## §1 Building -/

namespace Ensemble

section

variable {σ : Type} {e e' : Ensemble σ} {ps : List Partition}
  {make : Settings → Partition → Nat → Attempt σ}

/-- A worker that broke down or was refused leaves nothing to collect. -/
theorem collect_cons_eq_granted {x : Attempt σ} {built : List (Attempt σ)} {solvers : List σ} :
    collect (x :: built) = .ok (.ok solvers) ↔
      ∃ t others, x = .ok (.ok t) ∧ collect built = .ok (.ok others) ∧ solvers = t :: others := by
  constructor
  · intro h
    rcases x with fault | refusal | t
    · cases h
    · unfold collect at h
      split at h <;> cases h
    · unfold collect at h
      split at h
      · cases h
      · rename_i others hrest
        cases others with
        | error refusal => cases h
        | ok others =>
          cases h
          exact ⟨t, others, rfl, hrest, rfl⟩
  · rintro ⟨t, others, rfl, hrest, rfl⟩
    unfold collect
    rw [hrest]
    rfl

/-- Everything that was built is collected if nothing broke down and nothing was refused. -/
theorem collect_eq_granted {built : List (Attempt σ)} {solvers : List σ} :
    collect built = .ok (.ok solvers) ↔ built = solvers.map fun t => .ok (.ok t) := by
  -- All are granted exactly if each one is.
  induction built generalizing solvers with
  | nil =>
    rw [eq_comm (a := []), List.map_eq_nil_iff]
    constructor
    · intro h
      cases h
      rfl
    · rintro rfl
      rfl
  | cons x built ih =>
    rw [collect_cons_eq_granted, eq_comm, List.map_eq_cons_iff]
    constructor
    · rintro ⟨t, others, rfl, hrest, rfl⟩
      exact ⟨t, others, rfl, rfl, (ih.mp hrest).symm⟩
    · rintro ⟨t, others, rfl, hx, hrest⟩
      exact ⟨t, others, hx.symm, ih.mpr hrest.symm, rfl⟩

/-- The next seed is drawn from the source, and the solvers stay. -/
theorem nextSeed_granted {e₁ : Ensemble σ} {seed : Nat}
    (h : useSource SolverSource.nextSeed e = .ok (.ok seed, e₁)) :
    e₁.source.settings = e.source.settings := by
  have hseed := nextSeed_grants (s := e) (E := fun _ => True) (R := fun _ _ => True) trivial
  exact (hseed.of_run h).settings_eq

/-- Building one after the other draws all seeds and builds each solver from its own. -/
theorem buildEach_eq_granted {solvers : List σ} :
    buildEach make ps e = .ok (.ok solvers, e') ↔
      ∃ seeds, seedsFor ps e = .ok (.ok seeds, e') ∧
        (ps.zip seeds).map (fun x => make e.source.settings x.1 x.2) =
          solvers.map fun t => .ok (.ok t) := by
  induction ps generalizing e solvers with
  | nil =>
    constructor
    · intro h
      cases h
      exact ⟨[], rfl, rfl⟩
    · rintro ⟨seeds, hseeds, hbuilt⟩
      cases hseeds
      rw [List.zip_nil_left, List.map_nil, eq_comm, List.map_eq_nil_iff] at hbuilt
      rw [hbuilt]
      rfl
  | cons p ps ih =>
    unfold buildEach seedsFor
    simp only [bind_eq_granted, ofAttempt_eq_granted]
    -- The seeds that are drawn first leave the settings, so building can wait.
    constructor
    · rintro ⟨seed, e₁, hseed, _, _, hget, t, _, ⟨hmake, rfl⟩, rest, _, hrest, hpure⟩
      cases hget
      cases hpure
      obtain ⟨seeds, hseeds, hbuilt⟩ := ih.mp hrest
      rw [nextSeed_granted hseed] at hmake hbuilt
      refine ⟨seed :: seeds, ⟨seed, e₁, hseed, seeds, e', hseeds, rfl⟩, ?_⟩
      rw [List.zip_cons_cons, List.map_cons, List.map_cons, hmake, hbuilt]
    · rintro ⟨_, ⟨seed, e₁, hseed, seeds, _, hseeds, hpure⟩, hbuilt⟩
      cases hpure
      cases solvers with
      | nil => cases hbuilt
      | cons t solvers =>
        rw [List.zip_cons_cons, List.map_cons, List.map_cons, List.cons.injEq] at hbuilt
        obtain ⟨hmake, hbuilt⟩ := hbuilt
        rw [← nextSeed_granted hseed] at hmake hbuilt
        have hrest := ih.mpr ⟨seeds, hseeds, hbuilt⟩
        exact ⟨seed, e₁, hseed, e₁, e₁, rfl, t, e₁, ⟨hmake, rfl⟩, solvers, e', hrest, rfl⟩

/-- There are as many seeds as partitions, and drawing them leaves the settings. -/
theorem seedsFor_granted {seeds : List Nat} (h : seedsFor ps e = .ok (.ok seeds, e')) :
    seeds.length = ps.length ∧ e'.source.settings = e.source.settings := by
  obtain ⟨hlength, halike⟩ := Grants.of_run (seedsFor_grants (E := fun _ => True) trivial) h
  exact ⟨hlength, halike.settings_eq⟩

/-- Workers build what is built one after the other, whatever the order in which they are through:
    each solver from the seed that belongs to its position. -/
theorem rebuildSideBySide_eq_granted {arrive : List (Nat × Attempt σ) → List (Nat × Attempt σ)}
    (harrive : ∀ built, (arrive built).Perm built) :
    rebuildSideBySide arrive make ps e = .ok (.ok (), e') ↔
      rebuild make ps e = .ok (.ok (), e') := by
  unfold rebuildSideBySide rebuild
  simp only [bind_eq_granted, ofAttempt_eq_granted, buildEach_eq_granted,
    inOrder_of_perm (harrive _), collect_eq_granted]
  constructor
  · rintro ⟨seeds, e₁, hseeds, _, _, hget, solvers, _, ⟨hbuilt, rfl⟩, hmodify⟩
    cases hget
    rw [(seedsFor_granted hseeds).2] at hbuilt
    exact ⟨solvers, e₁, ⟨seeds, hseeds, hbuilt⟩, hmodify⟩
  · rintro ⟨solvers, e₁, ⟨seeds, hseeds, hbuilt⟩, hmodify⟩
    rw [← (seedsFor_granted hseeds).2] at hbuilt
    exact ⟨seeds, e₁, hseeds, e₁, e₁, rfl, solvers, e₁, ⟨hbuilt, rfl⟩, hmodify⟩

/-- What every solver that can be built has in common holds of all solvers after a rebuild. -/
theorem solvers_of_rebuild {built : Partition → σ → Prop}
    (hmake : ∀ p seed, Attempts (make e.source.settings p seed) (fun _ => True) (fun _ => True)
      (built p)) (h : rebuild make ps e = .ok (.ok (), e')) :
    List.Forall₂ built ps e'.solvers := by
  unfold rebuild at h
  simp only [bind_eq_granted, buildEach_eq_granted] at h
  obtain ⟨solvers, e₁, ⟨seeds, hseeds, hbuilt⟩, hmodify⟩ := h
  cases hmodify
  have hlength := (seedsFor_granted hseeds).1
  clear hseeds
  show List.Forall₂ built ps solvers
  -- Each partition takes the next seed, so the two lists are followed together.
  induction ps generalizing seeds solvers with
  | nil =>
    rw [List.zip_nil_left, List.map_nil, eq_comm, List.map_eq_nil_iff] at hbuilt
    rw [hbuilt]
    exact .nil
  | cons p ps ih =>
    cases seeds with
    | nil => cases hlength
    | cons seed seeds =>
      cases solvers with
      | nil => cases hbuilt
      | cons t solvers =>
        rw [List.zip_cons_cons, List.map_cons, List.map_cons, List.cons.injEq] at hbuilt
        have hfirst := Ends.of_ok (hmake p seed) hbuilt.1
        exact .cons hfirst (ih solvers seeds hbuilt.2 (Nat.succ.inj hlength))

end

end Ensemble

/-! ## §2 Turns -/

/-- What a worker is about: it has yet to solve its partition, or it has solved it and some of the
    results are left to write. -/
inductive Worker where
  | waiting (s : PartitionSolver)
  | writing (s : PartitionSolver) (found : Bool) (left : List (Nat × Nat))

namespace PlainEnsemble

/-- One of the workers takes a step: it solves its partition in the table as it is at that moment,
    or it writes the next of its results. -/
inductive Turn : Context → List Worker → Context → List Worker → Prop where
  | solve {c : Context} {s s' : PartitionSolver} {answer : Option (List (Nat × Nat))}
      (workers : List Worker) (hrun : PartitionSolver.solve c s = .ok (answer, s')) :
      Turn c (.waiting s :: workers) c (.writing s' answer.isSome (answer.getD []) :: workers)
  | write (c : Context) (s : PartitionSolver) (found : Bool) (r : Nat × Nat)
      (left : List (Nat × Nat)) (workers : List Worker) :
      Turn c (.writing s found (r :: left) :: workers) (c.write r.1 r.2)
        (.writing s found left :: workers)
  | other {c c' : Context} {workers workers' : List Worker} (w : Worker)
      (hturn : Turn c workers c' workers') : Turn c (w :: workers) c' (w :: workers')

/-- Turns one after the other. -/
abbrev Turns : Context × List Worker → Context × List Worker → Prop :=
  ReflTransGen fun s s' => Turn s.1 s.2 s'.1 s'.2

/-- A solve by workers that take turns until all of them are through.  It finds a solution if each
    of them does. -/
def SolvesAbreast (c : Context) (solvers : List PartitionSolver) (found : Bool)
    (solvers' : List PartitionSolver) (c' : Context) : Prop :=
  ∃ finished : List (PartitionSolver × Bool),
    Turns (c, solvers.map .waiting) (c', finished.map fun x => .writing x.1 x.2 []) ∧
      solvers' = finished.map Prod.fst ∧ found = finished.all Prod.snd

section

variable {c c' : Context} {solvers solvers' : List PartitionSolver}

/-- How far a worker came with a solver, and what it has written so far. -/
inductive Came (c : Context) : PartitionSolver × List (Nat × Nat) → Worker → Prop where
  | waiting (s : PartitionSolver) : Came c (s, []) (.waiting s)
  | writing {s s' : PartitionSolver} {answer : Option (List (Nat × Nat))}
      {written left : List (Nat × Nat)} (hrun : PartitionSolver.solve c s = .ok (answer, s'))
      (hsplit : answer.getD [] = written ++ left) :
      Came c (s, written) (.writing s' answer.isSome left)

theorem solve_eq_of_alike {c₀ : Context} (h : c₀.Alike Cell.premise c) :
    PartitionSolver.solve c = PartitionSolver.solve c₀ :=
  PartitionSolver.solve_congr h.references h.distributions

/-- A turn writes at most one result.  What was written before does not concern a worker that solves
    only now. -/
theorem Turn.came {c₀ : Context} {workers workers' : List Worker}
    {jobs : List (PartitionSolver × List (Nat × Nat))} (hturn : Turn c workers c' workers')
    (hc : c₀.Alike Cell.premise c) (h : List.Forall₂ (Came c₀) jobs workers) :
    ∃ jobs' extra, List.Forall₂ (Came c₀) jobs' workers' ∧
      jobs'.map Prod.fst = jobs.map Prod.fst ∧ c' = c.writeAll extra ∧
        (jobs'.flatMap Prod.snd).Perm (jobs.flatMap Prod.snd ++ extra) := by
  induction hturn generalizing jobs with
  | @solve s s' answer workers hrun =>
    obtain ⟨_, rest, hfirst, hrest, rfl⟩ := List.forall₂_cons_right_iff.mp h
    cases hfirst
    -- The references are still those of the start, so the worker answers as it would have then.
    rw [solve_eq_of_alike hc] at hrun
    refine ⟨(s, []) :: rest, [], .cons (.writing hrun rfl) hrest, rfl, rfl, ?_⟩
    rw [List.append_nil]
  | @write s' found r left workers =>
    obtain ⟨_, rest, hfirst, hrest, rfl⟩ := List.forall₂_cons_right_iff.mp h
    cases hfirst with
    | @writing s _ answer written _ hrun hsplit =>
      refine ⟨(s, written ++ [r]) :: rest, [r], .cons (.writing hrun ?_) hrest, rfl, rfl, ?_⟩
      · rw [hsplit, List.append_assoc]
        rfl
      · -- The new result moves behind those of the other workers.
        rw [List.flatMap_cons, List.flatMap_cons, List.append_assoc, List.append_assoc]
        exact List.perm_append_comm.append_left written
  | @other c' workers workers' w hturn ih =>
    obtain ⟨job, rest, hfirst, hrest, rfl⟩ := List.forall₂_cons_right_iff.mp h
    obtain ⟨rest', extra, hrest', hsame, hwritten, hperm⟩ := ih hrest
    refine ⟨job :: rest', extra, .cons hfirst hrest', ?_, hwritten, ?_⟩
    · rw [List.map_cons, List.map_cons, hsame]
    · rw [List.flatMap_cons, List.flatMap_cons, List.append_assoc]
      exact hperm.append_left job.2

/-- After any number of turns, the table has those results that are written, in the order in which
    they were written. -/
theorem Turns.came {st : Context × List Worker} (hturns : Turns (c, solvers.map .waiting) st) :
    ∃ jobs written, List.Forall₂ (Came c) jobs st.2 ∧ jobs.map Prod.fst = solvers ∧
      st.1 = c.writeAll written ∧ (jobs.flatMap Prod.snd).Perm written := by
  induction hturns with
  | refl =>
    refine ⟨solvers.map fun s => (s, []), [], ?_, ?_, rfl, ?_⟩
    · rw [List.forall₂_map_left_iff, List.forall₂_map_right_iff, List.forall₂_same]
      exact fun s _ => .waiting s
    · rw [List.map_map]
      exact List.map_id solvers
    · simp
  | tail _ hturn ih =>
    obtain ⟨jobs, written, hjobs, hsolvers, hc, hperm⟩ := ih
    have halike := c.alike_writeAll written
    rw [← hc] at halike
    obtain ⟨jobs', extra, hjobs', hsame, hc', hperm'⟩ := hturn.came halike hjobs
    refine ⟨jobs', written ++ extra, hjobs', hsame.trans hsolvers, ?_, ?_⟩
    · rw [hc', hc, Context.writeAll, Context.writeAll, Context.writeAll, List.foldl_append]
    · exact hperm'.trans (hperm.append_right extra)

theorem solveAll_cons {s s' : PartitionSolver} {answer : Option (List (Nat × Nat))}
    {answers : List (Option (List (Nat × Nat)))}
    (hfirst : PartitionSolver.solve c s = .ok (answer, s'))
    (hrest : solveAll c solvers = .ok (answers, solvers')) :
    solveAll c (s :: solvers) = .ok (answer :: answers, s' :: solvers') := by
  show (PartitionSolver.solve c s >>= _) = _
  rw [hfirst]
  show (solveAll c solvers >>= _) = _
  rw [hrest]
  rfl

/-- Workers that are through have asked every solver once, and have written all results in some
    order. -/
theorem SolvesAbreast.answers {found : Bool} (h : SolvesAbreast c solvers found solvers' c') :
    ∃ answers results, solveAll c solvers = .ok (answers, solvers') ∧
      found = answers.all (·.isSome) ∧ (answers.map (·.getD [])).flatten.Perm results ∧
        c' = c.writeAll results := by
  obtain ⟨finished, hturns, rfl, rfl⟩ := h
  obtain ⟨jobs, written, hjobs, rfl, hc, hperm⟩ := hturns.came
  suffices hall : ∃ answers, solveAll c (jobs.map Prod.fst) = .ok (answers, finished.map Prod.fst) ∧
      finished.all Prod.snd = answers.all (·.isSome) ∧
        answers.map (·.getD []) = jobs.map Prod.snd by
    obtain ⟨answers, hsolve, hfound, hresults⟩ := hall
    refine ⟨answers, written, hsolve, hfound, ?_, hc⟩
    rw [hresults, ← List.flatMap_def]
    exact hperm
  -- Nothing is left to write, so what each worker has written is what it answered.
  clear hturns hperm hc
  rw [List.forall₂_map_right_iff] at hjobs
  induction hjobs with
  | nil => exact ⟨[], rfl, rfl, rfl⟩
  | @cons job x jobs finished hfirst _ ih =>
    obtain ⟨answers, hsolve, hfound, hresults⟩ := ih
    obtain ⟨s, written⟩ := job
    obtain ⟨s', found⟩ := x
    cases hfirst with
    | @writing _ _ answer _ _ hrun hsplit =>
      refine ⟨answer :: answers, ?_, ?_, ?_⟩
      · exact solveAll_cons hrun hsolve
      · rw [List.all_cons, List.all_cons, hfound]
        cases answer <;> rfl
      · rw [List.map_cons, List.map_cons, hresults, hsplit, List.append_nil]

/-! ## §3 One schedule -/

theorem Turns.other {s s' : Context × List Worker} (h : Turns s s') (w : Worker) :
    Turns (s.1, w :: s.2) (s'.1, w :: s'.2) := by
  induction h with
  | refl => exact .refl
  | tail _ hturn ih => exact ih.tail (.other w hturn)

/-- All workers solve before any of them writes. -/
theorem turns_of_solveAll {answers : List (Option (List (Nat × Nat)))}
    (h : solveAll c solvers = .ok (answers, solvers')) :
    Turns (c, solvers.map .waiting) (c, (solvers'.zip answers).map fun x =>
      .writing x.1 x.2.isSome (x.2.getD [])) ∧ solvers'.length = answers.length := by
  induction solvers generalizing answers solvers' with
  | nil =>
    cases h
    exact ⟨.refl, rfl⟩
  | cons s solvers ih =>
    obtain ⟨⟨answer, s'⟩, hfirst, h⟩ := exists_ok_of_bind h
    obtain ⟨⟨answers', rest⟩, hrest, h⟩ := exists_ok_of_bind h
    cases h
    obtain ⟨hturns, hlength⟩ := ih hrest
    refine ⟨?_, congrArg (· + 1) hlength⟩
    exact (hturns.other (.waiting s)).tail (.solve _ hfirst)

/-- A worker writes all that is left. -/
theorem turns_of_writing (c : Context) (s : PartitionSolver) (found : Bool)
    (left : List (Nat × Nat)) (workers : List Worker) :
    Turns (c, .writing s found left :: workers)
      (c.writeAll left, .writing s found [] :: workers) := by
  induction left generalizing c with
  | nil => exact .refl
  | cons r left ih => exact .head (Turn.write c s found r left workers) (ih (c.write r.1 r.2))

/-- The workers write one after the other. -/
theorem turns_of_writeAll (c : Context) (xs : List (PartitionSolver × Option (List (Nat × Nat)))) :
    Turns (c, xs.map fun x => .writing x.1 x.2.isSome (x.2.getD []))
      (c.writeAll (xs.map fun x => x.2.getD []).flatten,
        xs.map fun x => .writing x.1 x.2.isSome []) := by
  induction xs generalizing c with
  | nil => exact .refl
  | cons x xs ih =>
    have hfirst := turns_of_writing c x.1 x.2.isSome (x.2.getD [])
      (xs.map fun x => .writing x.1 x.2.isSome (x.2.getD []))
    have hrest := (ih (c.writeAll (x.2.getD []))).other (.writing x.1 x.2.isSome [])
    rw [List.map_cons, List.map_cons, List.map_cons, List.flatten_cons, Context.writeAll,
      List.foldl_append]
    exact hfirst.trans hrest

/-- A solve side by side is one of those in which the workers take turns. -/
theorem solvesAbreast_of_solveSideBySide {found : Bool}
    (h : solveSideBySide List.flatten c solvers = .ok (found, solvers', c')) :
    SolvesAbreast c solvers found solvers' c' := by
  obtain ⟨⟨answers, rest⟩, hsolve, h⟩ := exists_ok_of_bind h
  cases h
  obtain ⟨hturns, hlength⟩ := turns_of_solveAll hsolve
  have hsolvers : (solvers'.zip answers).map Prod.fst = solvers' := List.map_fst_zip hlength.le
  have hanswers : (solvers'.zip answers).map Prod.snd = answers := List.map_snd_zip hlength.ge
  have hwrites := turns_of_writeAll c (solvers'.zip answers)
  refine ⟨(solvers'.zip answers).map fun x => (x.1, x.2.isSome), ?_, ?_, ?_⟩
  · rw [List.map_map]
    have hresults : answers.map (·.getD []) = (solvers'.zip answers).map fun x => x.2.getD [] := by
      conv => lhs; rw [← hanswers, List.map_map]
      rfl
    rw [hresults]
    exact hturns.trans hwrites
  · rw [List.map_map]
    exact hsolvers.symm
  · rw [List.all_map]
    conv => lhs; rw [← hanswers, List.all_map]
    rfl

end

end PlainEnsemble

end Stimulus
