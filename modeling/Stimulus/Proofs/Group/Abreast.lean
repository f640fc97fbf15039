import Stimulus.Proofs.Group.Workers

/-!
# Solving side by side

Two tables start out the same, each with the same solvers.  In the first the partitions are solved
one after the other, up to the first one without a solution; in the second they are solved by
workers.  A client does the same to both tables in between.

Whether there is a solution depends on the references alone, so both give the same answers on every
run.  As long as there was a solution every time, the workers also drew the same random words, so
both tables have the same values, and both ensembles read alike.  Only after a solve without a
solution do they go apart, because the partitions behind the one that failed were not tried in the
first.

Main definitions:
- `PlainEnsemble.InOrder`, `PlainEnsemble.ByWorkers`: the two ways to solve
- `PlainEnsemble.Abreast`: two runs side by side
- `PlainEnsemble.Agree`: what both runs have in common

Main statements:
- `PlainEnsemble.agree_of_abreast`
-/

namespace Stimulus

open Relation (ReflTransGen)

namespace PartitionSolver

/-- The references settle whether there is a solution. -/
theorem Task.solvableIn_congr {t : Task} {c c' : Context} (h : c.Alike Cell.premise c') :
    t.SolvableIn c' ↔ t.SolvableIn c := by
  unfold SolvableIn Solvable demands givens
  rw [h.references]

end PartitionSolver

namespace PlainEnsemble

open Ensemble PartitionSolver

section

variable {c c' c₀ : Context} {solvers solvers' : List PartitionSolver} {tasks : List Task}

/-! ## §1 What the answers depend on -/

/-- Every solver demands what its task says. -/
abbrev PosedEach : List Task → List PartitionSolver → Prop := List.Forall₂ Task.PosedBy

/-- All solvers are asked, and each of them answers whether its task has a solution. -/
theorem solveAll_means (h : PosedEach tasks solvers) (c : Context) :
    Ends (solveAll c solvers) (fun _ => True) fun r => PosedEach tasks r.2 ∧
      List.Forall₂ (fun t answer => Owns t.partition (answer.getD []) ∧
        (answer.isSome = true ↔ t.SolvableIn c)) tasks r.1 := by
  induction h with
  | nil => exact ⟨.nil, .nil⟩
  | @cons t s tasks solvers hs _ ih =>
    unfold solveAll
    apply Ends.bind (solve_means hs c)
    rintro ⟨answer, s'⟩ ⟨hs', howns, hanswer, -⟩
    apply Ends.bind ih
    rintro ⟨answers, rest⟩ ⟨hrest, hanswers⟩
    exact ⟨.cons hs' hrest, .cons ⟨howns, hanswer⟩ hanswers⟩

theorem all_isSome_iff {answers : List (Option (List (Nat × Nat)))}
    (h : List.Forall₂ (fun t answer => Owns t.partition (answer.getD []) ∧
      (answer.isSome = true ↔ t.SolvableIn c)) tasks answers) :
    answers.all (·.isSome) = true ↔ ∀ t ∈ tasks, t.SolvableIn c := by
  induction h with
  | nil => simp
  | cons hfirst _ ih => rw [List.all_cons, Bool.and_eq_true, hfirst.2, ih, List.forall_mem_cons]

/-- Solvers are asked up to the first one without a solution, and what the others wrote does not
    concern them. -/
theorem solveEach_means (h : PosedEach tasks solvers) (c : Context) :
    Ends (solveEach c solvers) (fun _ => True) fun r => PosedEach tasks r.2.1 ∧
      c.Alike Cell.premise r.2.2 ∧ (r.1 = true ↔ ∀ t ∈ tasks, t.SolvableIn c) := by
  induction h generalizing c with
  | nil => exact ⟨.nil, .refl _ c, by simp⟩
  | @cons t s tasks solvers hs hsolvers ih =>
    unfold solveEach
    apply Ends.bind (solve_means hs c)
    rintro ⟨answer, s'⟩ ⟨hs', -, hanswer, -⟩
    cases answer with
    | none =>
      -- The others are not asked, and one task without a solution is enough.
      have hunsolvable : ¬ t.SolvableIn c := fun hsolvable => by simpa using hanswer.mpr hsolvable
      refine ⟨.cons hs' hsolvers, .refl _ c, ?_⟩
      simp [hunsolvable]
    | some results =>
      have hwritten := c.alike_writeAll results
      apply Ends.bind (ih (c.writeAll results))
      rintro ⟨found, rest, c'⟩ ⟨hrest, halike, hfound⟩
      refine ⟨.cons hs' hrest, hwritten.trans halike, ?_⟩
      have hsolvable : t.SolvableIn c := hanswer.mp rfl
      rw [List.forall_mem_cons, hfound]
      simp only [hsolvable, true_and]
      exact forall₂_congr fun u _ => Task.solvableIn_congr hwritten

/-- What solving all of them answers tells what solving one after the other does: it finds a
    solution if each of them has one, and then it leaves the same solvers and writes all results. -/
theorem solveEach_of_solveAll {answers : List (Option (List (Nat × Nat)))}
    (h : solveAll c solvers = .ok (answers, solvers')) (hc : c.Alike Cell.premise c₀) :
    ∃ rest c', solveEach c₀ solvers = .ok (answers.all (·.isSome), rest, c') ∧
      (answers.all (·.isSome) = true →
        rest = solvers' ∧ c' = c₀.writeAll (answers.map (·.getD [])).flatten) := by
  induction solvers generalizing c₀ answers solvers' with
  | nil =>
    cases h
    exact ⟨[], c₀, rfl, fun _ => ⟨rfl, rfl⟩⟩
  | cons s solvers ih =>
    obtain ⟨⟨answer, s'⟩, hfirst, h⟩ := exists_ok_of_bind h
    obtain ⟨⟨answers', rest⟩, hrest, h⟩ := exists_ok_of_bind h
    cases h
    -- Results that were written before leave the references, so the solver answers the same.
    rw [← solve_eq_of_alike hc] at hfirst
    have hrun (k : Option (List (Nat × Nat)) × PartitionSolver →
        Except Fault (Bool × List PartitionSolver × Context)) :
        (PartitionSolver.solve c₀ s >>= k) = k (answer, s') := by
      rw [hfirst]
      rfl
    cases answer with
    | none => exact ⟨s' :: solvers, c₀, hrun _, nofun⟩
    | some results =>
      obtain ⟨rest', c', hsolve, hall⟩ := ih hrest (hc.trans (c₀.alike_writeAll results))
      refine ⟨s' :: rest', c', ?_, ?_⟩
      · rw [solveEach, hrun]
        show (solveEach (c₀.writeAll results) solvers >>= _) = _
        rw [hsolve]
        rfl
      · intro hfound
        obtain ⟨rfl, rfl⟩ := hall hfound
        refine ⟨rfl, ?_⟩
        rw [List.map_cons, List.flatten_cons, Context.writeAll, Context.writeAll, Context.writeAll,
          List.foldl_append]
        rfl

/-- A solve one after the other that finds a solution has asked all solvers. -/
theorem solveAll_of_solveEach (h : solveEach c solvers = .ok (true, solvers', c'))
    (hc : c.Alike Cell.premise c₀) : ∃ answers, solveAll c₀ solvers = .ok (answers, solvers') ∧
      answers.all (·.isSome) = true := by
  induction solvers generalizing c solvers' with
  | nil =>
    cases h
    exact ⟨[], rfl, rfl⟩
  | cons s solvers ih =>
    obtain ⟨⟨answer, s'⟩, hfirst, h⟩ := exists_ok_of_bind h
    cases answer with
    | none => cases h
    | some results =>
      obtain ⟨⟨found, rest, c''⟩, hrest, h⟩ := exists_ok_of_bind h
      cases h
      obtain ⟨answers, hall, hfound⟩ := ih hrest ((c.alike_writeAll results).symm.trans hc)
      rw [← solve_eq_of_alike hc] at hfirst
      exact ⟨some results :: answers, solveAll_cons hfirst hall, by simpa using hfound⟩

theorem exists_of_mem_right {α β : Type} {R : α → β → Prop} {as : List α} {bs : List β}
    (h : List.Forall₂ R as bs) {b : β} (hb : b ∈ bs) : ∃ a ∈ as, R a b := by
  induction h with
  | nil => cases hb
  | cons hfirst _ ih =>
    rcases List.mem_cons.mp hb with rfl | hb
    · exact ⟨_, List.mem_cons_self, hfirst⟩
    · obtain ⟨a, ha, hab⟩ := ih hb
      exact ⟨a, List.mem_cons_of_mem _ ha, hab⟩

/-- Partitions without a common variable have no common result. -/
theorem nodup_results {answers : List (Option (List (Nat × Nat)))}
    (h : List.Forall₂ (fun t answer => Owns t.partition (answer.getD []) ∧
      (answer.isSome = true ↔ t.SolvableIn c)) tasks answers)
    (hapart : (tasks.map Task.partition).Pairwise Partition.Apart) :
    ((answers.map (·.getD [])).flatten.map Prod.fst).Nodup := by
  induction h with
  | nil => exact .nil
  | @cons t answer tasks answers hfirst hrest ih =>
    rw [List.map_cons, List.pairwise_cons] at hapart
    obtain ⟨hhead, htail⟩ := hapart
    rw [List.map_cons, List.flatten_cons, List.map_append]
    refine List.Nodup.append hfirst.1.nodup (ih htail) ?_
    -- A result of two partitions would be about a variable of both.
    intro i hi hi'
    obtain ⟨r, hr, rfl⟩ := List.mem_map.mp hi
    obtain ⟨r', hr', heq⟩ := List.mem_map.mp hi'
    obtain ⟨results, hresults, hmem⟩ := List.mem_flatten.mp hr'
    obtain ⟨answer', hanswer', rfl⟩ := List.mem_map.mp hresults
    obtain ⟨u, hu, howns, -⟩ := exists_of_mem_right hrest hanswer'
    obtain ⟨sort, hmentions⟩ := hfirst.1.mentions r hr
    obtain ⟨sort', hmentions'⟩ := howns.mentions r' hmem
    rw [heq] at hmentions'
    exact hhead _ (List.mem_map_of_mem hu) r.1 sort sort' hmentions hmentions'

end

/-! ## §2 Two runs -/

/-- The partitions are solved one after the other. -/
def InOrder (s : InContext PlainEnsemble) (found : Bool) (t : InContext PlainEnsemble) : Prop :=
  solveEach s.context s.item.solvers = .ok (found, t.item.solvers, t.context) ∧
    t.item.source = s.item.source

/-- The partitions are solved by workers that take turns. -/
def ByWorkers (s : InContext PlainEnsemble) (found : Bool) (t : InContext PlainEnsemble) : Prop :=
  SolvesAbreast s.context s.item.solvers found t.item.solvers t.context ∧
    t.item.source = s.item.source

/-- The settings tell which of the two ways is taken. -/
theorem inOrder_iff_solvePlain {s t : InContext PlainEnsemble} {found : Bool}
    (h : s.item.source.settings.sideBySide = false) :
    InOrder s found t ↔ solvePlain s = .ok (.ok found, t) := by
  obtain ⟨c, source, solvers⟩ := s
  obtain ⟨c', source', solvers'⟩ := t
  have hsettings : source.settings.sideBySide = false := h
  unfold InOrder solvePlain
  dsimp only
  rw [hsettings]
  cases hsolve : solveEach c solvers with
  | error fault => simp
  | ok r =>
    obtain ⟨found', rest, c''⟩ := r
    constructor
    · rintro ⟨heq, rfl⟩
      cases heq
      rfl
    · intro heq
      cases heq
      exact ⟨rfl, rfl⟩

theorem byWorkers_of_solvePlain {s t : InContext PlainEnsemble} {found : Bool}
    (h : s.item.source.settings.sideBySide = true) (hrun : solvePlain s = .ok (.ok found, t)) :
    ByWorkers s found t := by
  obtain ⟨c, source, solvers⟩ := s
  have hsettings : source.settings.sideBySide = true := h
  unfold solvePlain at hrun
  dsimp only at hrun
  rw [hsettings] at hrun
  cases hsolve : solveSideBySide List.flatten c solvers with
  | error fault =>
    rw [if_pos rfl, hsolve] at hrun
    cases hrun
  | ok r =>
    rw [if_pos rfl, hsolve] at hrun
    cases hrun
    exact ⟨solvesAbreast_of_solveSideBySide hsolve, rfl⟩

/-- However far the workers came, all of them can come to an end: none breaks down. -/
def Completes (s : InContext PlainEnsemble) : Prop :=
  ∀ st, Turns (s.context, s.item.solvers.map .waiting) st →
    ∃ finished : List (PartitionSolver × Bool), ∃ c,
      Turns st (c, finished.map fun x => .writing x.1 x.2 [])

/-- Two runs that start from the same table and the same solvers.  In the first the partitions are
    solved one after the other, in the second by workers, and what is done to the tables in between
    is the same.  It is noted whether every solve found a solution. -/
inductive Abreast (s₀ : InContext PlainEnsemble) :
    Bool → InContext PlainEnsemble → InContext PlainEnsemble → Prop where
  | start : Abreast s₀ true s₀ s₀
  | edit {unbroken : Bool} {s s' : InContext PlainEnsemble} (hrun : Abreast s₀ unbroken s s')
      (edit : Context.Edit) :
      Abreast s₀ unbroken ⟨edit.apply s.context, s.item⟩ ⟨edit.apply s'.context, s'.item⟩
  | solve {unbroken found found' : Bool} {s s' t t' : InContext PlainEnsemble}
      (hrun : Abreast s₀ unbroken s s') (horder : InOrder s found t)
      (hworkers : ByWorkers s' found' t') : Abreast s₀ (unbroken && found && found') t t'

/-- All variables have the same values, and everybody reads the same. -/
structure SameValues (s s' : InContext PlainEnsemble) : Prop where
  bits : ∀ id, s'.context.bits id = s.context.bits id
  read : ∀ id, s'.item.read id = s.item.read id

/-- What two runs have in common that come to `s` and `s'`.  The next solves of both answer the
    same; and as long as there was a solution every time, one of them comes to an end if the other
    one does, and a solution has the same values in both. -/
structure Agree (unbroken : Bool) (s s' : InContext PlainEnsemble) : Prop where
  same : ∀ found t found' t', InOrder s found t → ByWorkers s' found' t' →
    found' = found ∧ (unbroken = true → found = true → SameValues t t')
  returns : unbroken = true → ∀ found' t', ByWorkers s' found' t' → ∃ found t, InOrder s found t
  completes : unbroken = true → ∀ t, InOrder s true t → Completes s'

section

variable {s s' t t' : InContext PlainEnsemble} {unbroken found found' : Bool} {tasks : List Task}

/-- Both ensembles have the same tasks, and both tables the same references.  As long as there was
    a solution every time, even the solvers and the values are the same. -/
structure Kindred (tasks : List Task) (unbroken : Bool) (s s' : InContext PlainEnsemble) :
    Prop where
  first : PosedEach tasks s.item.solvers
  second : PosedEach tasks s'.item.solvers
  premises : s.context.Alike Cell.premise s'.context
  context : unbroken = true → s.context.Alike id s'.context
  solvers : unbroken = true → s'.item.solvers = s.item.solvers

/-- A solve in both runs. -/
theorem Kindred.solve (h : Kindred tasks unbroken s s')
    (hapart : (tasks.map Task.partition).Pairwise Partition.Apart) (horder : InOrder s found t)
    (hworkers : ByWorkers s' found' t') :
    found' = found ∧ Kindred tasks (unbroken && found) t t' := by
  obtain ⟨hplain, -⟩ := horder
  obtain ⟨answers, results, hall, rfl, hperm, hwritten⟩ := hworkers.1.answers
  obtain ⟨hfirst, hpremises, hfound⟩ := Ends.of_ok (solveEach_means h.first s.context) hplain
  obtain ⟨hsecond, hanswers⟩ := Ends.of_ok (solveAll_means h.second s'.context) hall
  -- Either answer tells whether all tasks have solutions, which the references settle.
  have hsame : answers.all (·.isSome) = found := by
    rw [Bool.eq_iff_iff, all_isSome_iff hanswers]
    rw [show found = true ↔ _ from hfound]
    exact forall₂_congr fun u _ => Task.solvableIn_congr h.premises
  have hpremises' : s'.context.Alike Cell.premise t'.context := by
    rw [hwritten]
    exact s'.context.alike_writeAll results
  refine ⟨hsame, hfirst, hsecond, ?_, fun hboth => ?_, fun hboth => ?_⟩
  · exact (hpremises.symm.trans h.premises).trans hpremises'
  all_goals
    -- The first run asked the same solvers, and wrote the same results in the order of them.
    obtain ⟨hunbroken, hfound⟩ := (Bool.and_eq_true _ _).mp hboth
    obtain ⟨rest, c', heach, hrest⟩ := solveEach_of_solveAll hall h.premises.symm
    rw [h.solvers hunbroken, hplain] at heach
    cases heach
    obtain ⟨hsolvers, hcontext⟩ := hrest hfound
  · rw [hcontext, hwritten]
    have hsame := (h.context hunbroken).writeAll lawful_id (answers.map (·.getD [])).flatten
    exact hsame.trans (Context.alike_writeAll_perm hperm (nodup_results hanswers hapart) _)
  · exact hsolvers.symm

/-- What is done to both tables keeps both runs together. -/
theorem Kindred.edit (h : Kindred tasks unbroken s s') (edit : Context.Edit) :
    Kindred tasks unbroken ⟨edit.apply s.context, s.item⟩ ⟨edit.apply s'.context, s'.item⟩ where
  first := h.first
  second := h.second
  premises := h.premises.edit lawful_premise edit
  context hunbroken := (h.context hunbroken).edit lawful_id edit
  solvers := h.solvers

/-- Both runs stay together, step by step. -/
theorem Abreast.kindred {s₀ : InContext PlainEnsemble} (hrun : Abreast s₀ unbroken s s')
    (h₀ : PosedEach tasks s₀.item.solvers)
    (hapart : (tasks.map Task.partition).Pairwise Partition.Apart) :
    Kindred tasks unbroken s s' := by
  induction hrun with
  | start => exact ⟨h₀, h₀, .refl _ _, fun _ => .refl _ _, fun _ => rfl⟩
  | edit _ edit ih => exact ih.edit edit
  | solve _ horder hworkers ih =>
    obtain ⟨rfl, h⟩ := ih.solve hapart horder hworkers
    rwa [Bool.and_assoc, Bool.and_self]

/-- Workers whose solvers all come to an end come to an end themselves, wherever they stand. -/
theorem completes_of_came {c c₀ : Context} {jobs : List (PartitionSolver × List (Nat × Nat))}
    {workers : List Worker} (h : List.Forall₂ (Came c₀) jobs workers)
    (hsolve : ∀ job ∈ jobs, ∃ r, PartitionSolver.solve c₀ job.1 = .ok r)
    (hc : c₀.Alike Cell.premise c) :
    ∃ finished : List (PartitionSolver × Bool), ∃ c',
      Turns (c, workers) (c', finished.map fun x => .writing x.1 x.2 []) := by
  induction h generalizing c with
  | nil => exact ⟨[], c, .refl⟩
  | @cons job w jobs workers hfirst _ ih =>
    obtain ⟨hhead, htail⟩ := List.forall_mem_cons.mp hsolve
    -- The first worker goes on until it is through, then the others do.
    have hthrough : ∃ s found left, Turns (c, w :: workers) (c.writeAll left,
        .writing s found [] :: workers) := by
      cases hfirst with
      | waiting s =>
        obtain ⟨⟨answer, s'⟩, hrun⟩ := hhead
        rw [← solve_eq_of_alike hc] at hrun
        exact ⟨s', answer.isSome, answer.getD [],
          .head (.solve workers hrun) (turns_of_writing c s' _ _ workers)⟩
      | @writing _ s' answer _ left => exact ⟨s', _, left, turns_of_writing c s' _ left workers⟩
    obtain ⟨s, found, left, hturns⟩ := hthrough
    obtain ⟨finished, c', hrest⟩ := ih htail (hc.trans (c.alike_writeAll left))
    exact ⟨(s, found) :: finished, c', hturns.trans (hrest.other (.writing s found []))⟩

theorem exists_solve_of_solveAll {c : Context} {solvers solvers' : List PartitionSolver}
    {answers : List (Option (List (Nat × Nat)))}
    (h : solveAll c solvers = .ok (answers, solvers')) :
    ∀ s ∈ solvers, ∃ r, PartitionSolver.solve c s = .ok r := by
  induction solvers generalizing answers solvers' with
  | nil => simp
  | cons s solvers ih =>
    obtain ⟨r, hfirst, h⟩ := exists_ok_of_bind h
    obtain ⟨r', hrest, h⟩ := exists_ok_of_bind h
    exact List.forall_mem_cons.mpr ⟨⟨r, hfirst⟩, ih hrest⟩

theorem Kindred.agree (h : Kindred tasks unbroken s s')
    (hapart : (tasks.map Task.partition).Pairwise Partition.Apart) : Agree unbroken s s' where
  same found t found' t' horder hworkers := by
    obtain ⟨rfl, hnext⟩ := h.solve hapart horder hworkers
    refine ⟨rfl, fun hunbroken hfound => ?_⟩
    have hboth : (unbroken && found') = true := by simp [hunbroken, hfound]
    refine ⟨fun i => ?_, fun i => ?_⟩
    · unfold Context.bits
      rw [(hnext.context hboth).getElem? i]
    · unfold PlainEnsemble.read
      rw [hnext.solvers hboth]
  returns hunbroken found' t' hworkers := by
    obtain ⟨answers, results, hall, -⟩ := hworkers.1.answers
    obtain ⟨rest, c', heach, -⟩ := solveEach_of_solveAll hall h.premises.symm
    rw [h.solvers hunbroken] at heach
    exact ⟨_, ⟨c', ⟨s.item.source, rest⟩⟩, heach, rfl⟩
  completes hunbroken t horder := by
    obtain ⟨answers, hall, -⟩ := solveAll_of_solveEach horder.1 h.premises
    rw [← h.solvers hunbroken] at hall
    intro st hturns
    -- The workers have written results at most, and the solvers come to an end all the same.
    obtain ⟨jobs, written, hjobs, hsolvers, hcontext, -⟩ := hturns.came
    have hc := s'.context.alike_writeAll written
    rw [← hcontext] at hc
    refine completes_of_came hjobs (fun job hjob => ?_) hc
    apply exists_solve_of_solveAll hall
    rw [← hsolvers]
    exact List.mem_map_of_mem hjob

end

/-! ## §3 Agreement -/

/-- A rebuild leaves one solver for each partition. -/
theorem built_of_rebuild {c : Context} {bits : Nat} {ps : List Partition} {e e' : PlainEnsemble}
    (h : rebuild (PartitionSolver.build c bits) ps e = .ok (.ok (), e')) :
    List.Forall₂ (fun p s => PartitionSolver.Built s p) ps e'.solvers := by
  apply solvers_of_rebuild _ h
  intro p seed
  exact (build_means c bits e.source.settings p seed).imp (fun _ hf => hf) (fun _ _ => trivial)
    fun _ hs => hs

/-- The solvers that are built for partitions have tasks. -/
theorem exists_tasks {ps : List Partition} {solvers : List PartitionSolver}
    (h : List.Forall₂ (fun p s => s.Built p) ps solvers) :
    ∃ tasks : List Task, tasks.map Task.partition = ps ∧ PosedEach tasks solvers := by
  induction h with
  | nil => exact ⟨[], rfl, .nil⟩
  | cons hfirst _ ih =>
    obtain ⟨t, ht, hposed⟩ := hfirst.exists_task
    obtain ⟨tasks, htasks, hrest⟩ := ih
    exact ⟨t :: tasks, congrArg₂ List.cons ht htasks, .cons hposed hrest⟩

/-- Workers agree with what is done one after the other.  They build the same solvers in the order
    of the partitions, from the same seeds, in whatever order they are through.  On every run that
    follows, solves of partitions without a common variable answer the same, in whatever order the
    workers take turns; and as long as there was a solution every time, all values are the same. -/
theorem agree_of_abreast {c : Context} {e e' : PlainEnsemble} {ps : List Partition}
    {arrive : List (Nat × Attempt PartitionSolver) → List (Nat × Attempt PartitionSolver)}
    (hapart : ps.Pairwise Partition.Apart) (harrive : ∀ built, (arrive built).Perm built) :
    (rebuildSideBySide arrive (PartitionSolver.build c e.source.storageBits) ps e =
        .ok (.ok (), e') ↔
      rebuild (PartitionSolver.build c e.source.storageBits) ps e = .ok (.ok (), e')) ∧
    (rebuild (PartitionSolver.build c e.source.storageBits) ps e = .ok (.ok (), e') →
      e'.solvers.map PartitionSolver.partition = ps ∧
      ∀ unbroken s s', Abreast ⟨c, e'⟩ unbroken s s' → Agree unbroken s s') := by
  refine ⟨rebuildSideBySide_eq_granted harrive, fun hrebuild => ?_⟩
  obtain ⟨tasks, rfl, hposed⟩ := exists_tasks (built_of_rebuild hrebuild)
  refine ⟨?_, fun unbroken s s' hrun => (hrun.kindred hposed hapart).agree hapart⟩
  clear hrebuild hapart
  generalize e'.solvers = solvers at hposed
  induction hposed with
  | nil => rfl
  | cons hfirst _ ih => exact congrArg₂ List.cons hfirst.partition_eq ih

/-! Partitions of a single constraint. -/

/-- A partition of one constraint. -/
def lone (c : Constraint) : Partition := ⟨[c], c.support⟩

/-- An ensemble with small tables, before any partition is known. -/
def unbuilt : PlainEnsemble := .empty (.ofSettings { seed := some 1 } 4)

/-- A table with two random flags and one that is given. -/
def threeFlags : Context :=
  (Context.refer .bool 1 (Context.declare .bool (Context.declare .bool (.empty 0)).2).2).2

/-- The first flag has to be set, and the second one should agree with the one that is given. -/
def setAndFollowing : List Partition :=
  [lone ⟨2, "set", .var 1 .bool, .ofList [1], false, false, true⟩,
    lone ⟨3, "following", .binary .equal (.var 2 .bool) (.var 3 .bool), .ofList [2, 3], true, false,
      true⟩]

/-- The results of building arrive the wrong way round, both runs set both flags, and then the
    reference is changed. -/
theorem agree_of_abreast_reversed : ∃ e' t t',
    rebuildSideBySide List.reverse (PartitionSolver.build threeFlags unbuilt.source.storageBits)
      setAndFollowing unbuilt = .ok (.ok (), e') ∧
    e'.solvers.map PartitionSolver.partition = setAndFollowing ∧
    InOrder ⟨threeFlags, e'⟩ true t ∧ ByWorkers ⟨threeFlags, e'⟩ true t' ∧
    t.context.bits 1 = 1 ∧ t.context.bits 2 = 1 ∧ SameValues t t' ∧
    Agree true ⟨t.context.setValue ⟨3, .bool⟩ 0, t.item⟩
      ⟨t'.context.setValue ⟨3, .bool⟩ 0, t'.item⟩ := by
  obtain ⟨⟨⟩, e', hrebuild, htest⟩ := exists_of_granted?_any (x := rebuild
      (PartitionSolver.build threeFlags unbuilt.source.storageBits) setAndFollowing unbuilt)
    (p := fun built => ((solveEach threeFlags built.2.solvers).toOption.any
        fun (r : Bool × List PartitionSolver × Context) =>
          r.1 && decide (r.2.2.bits 1 = 1) && decide (r.2.2.bits 2 = 1)) &&
      (solveSideBySide List.flatten threeFlags built.2.solvers).toOption.any Prod.fst)
    (by decide +kernel)
  obtain ⟨heach, hbeside⟩ := (Bool.and_eq_true _ _).mp htest
  obtain ⟨⟨found, solvers, c⟩, heach, hfound⟩ := exists_of_toOption_any heach
  obtain ⟨⟨found', solvers', c'⟩, hbeside, hfound'⟩ := exists_of_toOption_any hbeside
  simp only [Bool.and_eq_true, decide_eq_true_eq] at hfound
  obtain ⟨⟨rfl, hset⟩, hfollowing⟩ := hfound
  obtain rfl : found' = true := hfound'
  have horder : InOrder ⟨threeFlags, e'⟩ true ⟨c, e'.source, solvers⟩ := ⟨heach, rfl⟩
  have hworkers : ByWorkers ⟨threeFlags, e'⟩ true ⟨c', e'.source, solvers'⟩ :=
    ⟨solvesAbreast_of_solveSideBySide hbeside, rfl⟩
  have hapart : setAndFollowing.Pairwise Partition.Apart := by
    simp only [setAndFollowing, lone, Partition.Apart, Partition.Mentions, List.pairwise_pair,
      List.mem_singleton, exists_eq_left, Expr.mentions_binary, Expr.mentions_var]
    rintro id sort sort' ⟨rfl, -⟩ (⟨hid, -⟩ | ⟨hid, -⟩) <;> cases hid
  obtain ⟨hsame, hruns⟩ := agree_of_abreast hapart List.reverse_perm
  obtain ⟨hpartitions, hagree⟩ := hruns hrebuild
  have hvalues := (hagree _ _ _ .start).same _ _ _ _ horder hworkers
  have hrun : Abreast ⟨threeFlags, e'⟩ true _ _ := .solve .start horder hworkers
  exact ⟨e', _, _, hsame.mpr hrebuild, hpartitions, horder, hworkers, hset, hfollowing,
    hvalues.2 rfl rfl, hagree _ _ _ (hrun.edit (.setValue _ 0))⟩

/-- A reference with 8 bits. -/
def oneReference : Context := (Context.refer (.int .bits8 false) 5 (.empty 0)).2

/-- Nothing satisfies the first partition, and the second one has the reference at 100 bits. -/
def refutedAndWide : List Partition :=
  [lone ⟨2, "refuted", .truth false, ∅, false, false, true⟩,
    lone ⟨3, "wide", (Expr.var 1 (.unsigned 100)).equalTo 5, .ofList [1], false, true, true⟩]

/-- Whoever solves the partitions one after the other stops at the first one; the workers break
    down at the second one. -/
theorem agree_of_abreast_fails : ∃ e',
    (refutedAndWide.Pairwise fun p q => ∀ v ∈ p.support, v ∉ q.support) ∧
    rebuild (PartitionSolver.build oneReference unbuilt.source.storageBits) refutedAndWide unbuilt =
      .ok (.ok (), e') ∧
    rebuildSideBySide id (PartitionSolver.build oneReference unbuilt.source.storageBits)
      refutedAndWide unbuilt = .ok (.ok (), e') ∧
    (∃ t, InOrder ⟨oneReference, e'⟩ false t) ∧
    ∀ found t, ¬ ByWorkers ⟨oneReference, e'⟩ found t := by
  obtain ⟨⟨⟩, e', hrebuild, htest⟩ := exists_of_granted?_any (x := rebuild
      (PartitionSolver.build oneReference unbuilt.source.storageBits) refutedAndWide unbuilt)
    (p := fun built => built.2.solvers.getLast?.any (·.contradictions.isEmpty) &&
      (solveEach oneReference built.2.solvers).toOption.any (!·.1)) (by decide +kernel)
  obtain ⟨hconflicts, hsolve⟩ := (Bool.and_eq_true _ _).mp htest
  obtain ⟨⟨found, solvers, c⟩, hsolve, hfound⟩ := exists_of_toOption_any hsolve
  obtain rfl : found = false := by simpa using hfound
  refine ⟨e', by simp [refutedAndWide, lone], hrebuild, ?_,
    ⟨⟨c, e'.source, solvers⟩, hsolve, rfl⟩, ?_⟩
  · exact (rebuildSideBySide_eq_granted fun built => .refl built).mpr hrebuild
  intro found t hworkers
  obtain ⟨s₁, _, -, hrest, hsolvers⟩ := List.forall₂_cons_left_iff.mp (built_of_rebuild hrebuild)
  obtain ⟨s₂, _, ⟨conflicts, hard, softs, hmeans⟩, hnil, rfl⟩ := List.forall₂_cons_left_iff.mp hrest
  obtain rfl := List.forall₂_nil_left_iff.mp hnil
  dsimp only at hconflicts
  rw [hsolvers] at hconflicts
  obtain rfl : conflicts = [] := by
    rw [← hmeans.contradictions_eq]
    simpa using hconflicts
  -- All workers are through, so the second one as well.
  obtain ⟨answers, results, hall, -⟩ := hworkers.1.answers
  obtain ⟨⟨answer, s'⟩, hrun⟩ := exists_solve_of_solveAll hall s₂ (by simp [hsolvers])
  have hmem : (1, 5) ∈ oneReference.references := by decide
  have hfits := fits_of_solve hmeans hrun (1, 5) hmem (.unsigned 100) rfl
  exact absurd hfits (by decide)

end PlainEnsemble

end Stimulus
