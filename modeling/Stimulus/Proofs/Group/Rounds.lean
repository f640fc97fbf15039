import Stimulus.Proofs.Group.Ensemble

/-!
# Rounds of coverage

A coverage solver is asked again and again, until a round hits nothing.  What it remembers of the
rounds are the names of the cover constraints that were hit, and it passes over a constraint whose
name it knows.  The names of one registry differ, but a partition may have constraints of several
registries.  So a round that misses shows that every cover constraint which cannot be hit any more
has no solution, or shares its name with one that was hit; if the names differ, it was hit itself.

Main definitions:
- `CoverageSolver.Rounds`: a coverage solver and the cover constraints that its rounds have hit
- `CoverageSolver.Exhausted`: nothing is left to hit
- `CoverageEnsemble.Advances`: the runs of all coverage solvers

Main statements:
- `CoverageSolver.Rounds.next`: every solve is a round
- `CoverageSolver.Rounds.exhausted`: a round that misses
- `CoverageEnsemble.exhausted_of_rebuild`: any run of all coverage solvers
- `CoverageEnsemble.missed_of_shared_name`
-/

namespace Stimulus

open Relation

namespace CoverageSolver

/-! ## §1 One solver -/

/-- The cover constraints that a solve tries. -/
theorem mem_left {s : CoverageSolver} {xs : List Constraint} {x : Constraint} :
    (x ∈ xs.filter fun x => x.cover && !s.covered.contains x.name) ↔
      x ∈ xs ∧ x.cover = true ∧ x.name ∉ s.covered := by
  simp only [List.mem_filter, Bool.and_eq_true, Bool.not_eq_true', ← Bool.not_eq_true,
    Std.TreeSet.contains_iff_mem]

/-- The rounds of a coverage solver that was built for a partition, with the cover constraints that
    they hit, the last one first.  From one round to the next the values of random variables may
    change, those of references do not. -/
inductive Rounds (p : Partition) (max : Nat) :
    Context → CoverageSolver → List Constraint → Prop where
  | start {c : Context} {s : CoverageSolver} (hc : c.WellFormed) (hp : p.Posed c.signature)
      (hready : s.Ready c p max) (hcovered : s.covered = ∅) : Rounds p max c s []
  | keep {c c' : Context} {s : CoverageSolver} {hits : List Constraint}
      (h : Rounds p max c s hits) (hkeeps : c.Keeps c') : Rounds p max c' s hits
  | hit {c : Context} {s s' : CoverageSolver} {hits : List Constraint} {x : Constraint}
      {results : List (Nat × Nat)} {env : Nat → Nat} (h : Rounds p max c s hits)
      (hrun : solve c s = .ok (some results, s')) (hx : x ∈ p.constraints)
      (hcover : x.cover = true) (hnew : x.name ∉ s.covered) (hholds : x.expr.Holds env)
      (hanswered : Answered c p max env s'.read) (hcovered : s'.covered = s.covered.insert x.name) :
      Rounds p max c s' (x :: hits)
  | miss {c : Context} {s s' : CoverageSolver} {hits : List Constraint}
      (h : Rounds p max c s hits) (hrun : solve c s = .ok (none, s')) : Rounds p max c s' hits

/-- Nothing is left to hit: every cover constraint has no solution, or one of its name was hit.  If
no two of them share a name, then it was hit itself. -/
structure Exhausted (p : Partition) (max : Nat) (c : Context) (hits : List Constraint) : Prop where
  named : ∀ x ∈ p.constraints, x.cover = true →
    (∃ y ∈ hits, y.name = x.name) ∨ ¬ ∃ env, p.SolvedBy c max env ∧ x.expr.Holds env
  itself : (∀ x ∈ p.constraints, ∀ y ∈ p.constraints, x.cover = true → y.cover = true →
      x.name = y.name → x = y) → ∀ x ∈ p.constraints, x.cover = true →
    x ∈ hits ∨ ¬ ∃ env, p.SolvedBy c max env ∧ x.expr.Holds env

namespace Rounds

variable {p : Partition} {max : Nat} {c : Context} {s s' : CoverageSolver}
  {hits : List Constraint} {x : Constraint}

theorem wellFormed_posed (h : Rounds p max c s hits) : c.WellFormed ∧ p.Posed c.signature := by
  induction h with
  | start hc hp _ _ => exact ⟨hc, hp⟩
  | keep _ hkeeps ih => exact ⟨hkeeps.wellFormed ih.1, hkeeps.signature ▸ ih.2⟩
  | hit => assumption
  | miss => assumption

/-- The solver is ready for the next round. -/
theorem ready (h : Rounds p max c s hits) : s.Ready c p max := by
  induction h with
  | start _ _ hready _ => exact hready
  | keep h hkeeps ih =>
    obtain ⟨hc, hp⟩ := h.wellFormed_posed
    exact ih.grows hp hc (hkeeps.wellFormed hc) hkeeps.grows
  | hit h hrun _ _ _ _ _ _ ih =>
    obtain ⟨hc, hp⟩ := h.wellFormed_posed
    exact ((solve_ensures ih hc hp (nofun : False → _)).of_run hrun).1
  | miss h hrun ih =>
    obtain ⟨hc, hp⟩ := h.wellFormed_posed
    exact ((solve_ensures ih hc hp (nofun : False → _)).of_run hrun).1

/-- What a solve answers after some rounds. -/
theorem solves (h : Rounds p max c s hits) {answer : Option (List (Nat × Nat))}
    (hrun : solve c s = .ok (answer, s')) :
    s'.Solves c p max (p.constraints.filter fun x => x.cover && !s.covered.contains x.name)
      s.covered answer := by
  obtain ⟨hc, hp⟩ := h.wellFormed_posed
  exact ((solve_ensures h.ready hc hp (nofun : False → _)).of_run hrun).2

/-- The names that count as covered are those of the constraints that were hit. -/
theorem mem_covered (h : Rounds p max c s hits) {name : String} :
    name ∈ s.covered ↔ ∃ x ∈ hits, x.name = name := by
  induction h with
  | start _ _ _ hcovered => simp [hcovered]
  | keep _ _ ih => exact ih
  | hit _ _ _ _ _ _ _ hcovered ih =>
    rw [hcovered, Std.TreeSet.mem_insert, Std.LawfulEqCmp.compare_eq_iff_eq, ih]
    simp
  | miss h hrun ih =>
    obtain ⟨-, hcovered, -⟩ := h.solves hrun
    rw [hcovered, ih]

/-- What was hit is a cover constraint of the partition, and it still has a solution. -/
theorem of_mem (h : Rounds p max c s hits) (hx : x ∈ hits) :
    x ∈ p.constraints ∧ x.cover = true ∧ ∃ env, p.SolvedBy c max env ∧ x.expr.Holds env := by
  induction h with
  | start => cases hx
  | keep _ hkeeps ih =>
    obtain ⟨hmem, hcover, env, hsolved, hholds⟩ := ih hx
    exact ⟨hmem, hcover, env, hsolved.keeps hkeeps, hholds⟩
  | hit _ _ hmem hcover _ hholds hanswered _ ih =>
    rcases List.mem_cons.mp hx with rfl | hx
    · exact ⟨hmem, hcover, _, hanswered.solves, hholds⟩
    · exact ih hx
  | miss _ _ ih => exact ih hx

/-- Every solve is a round: it hits a cover constraint with a new name, or it misses. -/
theorem next (h : Rounds p max c s hits) {answer : Option (List (Nat × Nat))}
    (hrun : solve c s = .ok (answer, s')) : ∃ hits', Rounds p max c s' hits' := by
  cases answer with
  | none => exact ⟨hits, h.miss hrun⟩
  | some results =>
    obtain ⟨-, ⟨env, ⟨x, hx, hholds, hcovered⟩, hanswered⟩, -⟩ := h.solves hrun
    obtain ⟨hmem, hcover, hnew⟩ := mem_left.mp hx
    exact ⟨x :: hits, h.hit hrun hmem hcover hnew hholds hanswered hcovered⟩

/-- When a round misses, nothing is left to hit. -/
theorem exhausted (h : Rounds p max c s hits) (hrun : solve c s = .ok (none, s')) :
    Exhausted p max c hits := by
  have hnamed : ∀ x ∈ p.constraints, x.cover = true →
      (∃ y ∈ hits, y.name = x.name) ∨ ¬ ∃ env, p.SolvedBy c max env ∧ x.expr.Holds env := by
    intro x hx hcover
    by_cases hname : x.name ∈ s.covered
    · -- The constraint was passed over, whoever has hit its name.
      exact .inl (h.mem_covered.mp hname)
    · obtain ⟨-, -, hno⟩ := h.solves hrun
      exact .inr (hno x (mem_left.mpr ⟨hx, hcover, hname⟩))
  refine ⟨hnamed, fun hnames x hx hcover => (hnamed x hx hcover).imp_left ?_⟩
  -- Where no name is shared, the one who has hit the name is the constraint itself.
  rintro ⟨y, hy, hname⟩
  obtain ⟨hmem, hcover', -⟩ := h.of_mem hy
  rwa [hnames x hx y hmem hcover hcover' hname.symm]

end Rounds

end CoverageSolver

/-! ## §2 All solvers -/

namespace CoverageEnsemble

open CoverageSolver

variable {c c' : Context} {ps : List Partition} {max : Nat} {solvers solvers' : List CoverageSolver}

/-- Every solver has some rounds behind it. -/
abbrev Covering (ps : List Partition) (max : Nat) (s : InContext CoverageEnsemble) : Prop :=
  List.Forall₂ (fun t p => ∃ hits, Rounds p max s.context t hits) s.item.solvers ps

/-- A round of all solvers is a round of each of them. -/
theorem hitEach_rounds {hit : Bool}
    (h : List.Forall₂ (fun s p => ∃ hits, Rounds p max c s hits) solvers ps)
    (hrun : hitEach c solvers = .ok (hit, solvers', c')) :
    c.Keeps c' ∧ List.Forall₂ (fun s p => ∃ hits, Rounds p max c' s hits) solvers' ps := by
  induction solvers generalizing c ps hit solvers' with
  | nil =>
    cases h
    cases hrun
    exact ⟨.refl _, .nil⟩
  | cons s solvers ih =>
    obtain ⟨p, ps, ⟨hits, hs⟩, hsolvers, rfl⟩ := List.forall₂_cons_left_iff.mp h
    obtain ⟨⟨answer, s'⟩, hsolve, hrun⟩ := exists_ok_of_bind hrun
    obtain ⟨⟨hit', rest, c''⟩, hrest, hrun⟩ := exists_ok_of_bind hrun
    cases hrun
    -- The results of the first solver are written before the others are asked.
    have hwritten := c.keeps_writeAll (answer.getD [])
    have hsolvers' := hsolvers.imp fun t q hq => hq.imp fun _ ht => ht.keep hwritten
    obtain ⟨hkeeps, hready⟩ := ih hsolvers' hrest
    obtain ⟨hits', hs'⟩ := hs.next hsolve
    have hall := hwritten.trans hkeeps
    exact ⟨hall, .cons ⟨hits', hs'.keep hall⟩ hready⟩

/-- A round of all solvers that hits nothing leaves the context alone, and each of them misses. -/
theorem hitEach_missed (hrun : hitEach c solvers = .ok (false, solvers', c')) :
    c' = c ∧ List.Forall₂ (fun s s' => solve c s = .ok (none, s')) solvers solvers' := by
  induction solvers generalizing solvers' with
  | nil =>
    cases hrun
    exact ⟨rfl, .nil⟩
  | cons s solvers ih =>
    obtain ⟨⟨answer, s'⟩, hsolve, hrun⟩ := exists_ok_of_bind hrun
    obtain ⟨⟨hit', rest, c''⟩, hrest, hrun⟩ := exists_ok_of_bind hrun
    cases answer with
    | some results => cases hrun
    | none =>
      -- Without results the context is written as it was.
      obtain ⟨rfl, rfl, rfl⟩ : hit' = false ∧ s' :: rest = solvers' ∧ c'' = c' := by
        simpa [pure, Except.pure] using hrun
      obtain ⟨rfl, hmissed⟩ := ih hrest
      exact ⟨rfl, .cons hsolve hmissed⟩

/-- When all solvers miss, nothing is left to hit in any partition. -/
theorem exhausted_of_missed
    (h : List.Forall₂ (fun s p => ∃ hits, Rounds p max c s hits) solvers ps)
    (hrun : hitEach c solvers = .ok (false, solvers', c')) :
    List.Forall₂ (fun s p => ∃ hits, Rounds p max c s hits ∧ Exhausted p max c hits)
      solvers ps := by
  have hmissed := (hitEach_missed hrun).2
  clear hrun
  induction h generalizing solvers' with
  | nil => exact .nil
  | cons hs _ ih =>
    obtain ⟨hits, hs⟩ := hs
    cases hmissed with
    | cons hsolve hmissed => exact .cons ⟨hits, hs, hs.exhausted hsolve⟩ (ih hmissed)

/-! ## §3 Runs of an ensemble -/

/-- The solvers that a rebuild makes have no rounds behind them. -/
theorem rebuildCoverage_covering {e : CoverageEnsemble} {safe : Prop} (hc : c.WellFormed)
    (hps : Separate c.signature ps) (hfew : safe → c.signature.Few)
    (hbits : safe → e.source.storageBits ≤ 31) :
    Grants (rebuildCoverage c ps) e (Stuck safe) (fun _ _ => False) fun _ e' =>
      Covering ps e.source.settings.maxVectorSize ⟨c, e'⟩ := by
  have hmake : ∀ p ∈ ps, ∀ seed, Attempts
      (CoverageSolver.build c e.source.storageBits e.source.settings p seed) (Stuck safe)
      (fun _ => False) fun s => ∃ hits, Rounds p e.source.settings.maxVectorSize c s hits := by
    intro p hp seed
    have hposed := hps.posed p hp
    refine (build_attempts hc hposed hfew hbits seed).imp (fun _ hf => hf) (fun _ hr => hr) ?_
    intro s hs
    exact ⟨[], .start hc hposed hs.1 hs.2⟩
  refine .get_bind ?_
  exact (Ensemble.rebuild_grants stuck_drawNeverEnds hmake).imp (fun _ hf => hf) (fun _ _ hr => hr)
    fun _ _ hq => hq.1

/-- A coverage solve, or a change of the context in between that keeps the references. -/
inductive Advances : InContext CoverageEnsemble → InContext CoverageEnsemble → Prop where
  | keep {c c' : Context} (e : CoverageEnsemble) (hkeeps : c.Keeps c') : Advances ⟨c, e⟩ ⟨c', e⟩
  | solve {s s' : InContext CoverageEnsemble} {hit : Bool}
      (hrun : solveCoverage s = .ok (.ok hit, s')) : Advances s s'

theorem hitEach_of_solveCoverage {s s' : InContext CoverageEnsemble} {hit : Bool}
    (hrun : solveCoverage s = .ok (.ok hit, s')) :
    hitEach s.context s.item.solvers = .ok (hit, s'.item.solvers, s'.context) := by
  unfold solveCoverage at hrun
  dsimp only at hrun
  split at hrun
  · cases hrun
  · rename_i hhit
    cases hrun
    exact hhit

/-- Every step of an ensemble leaves rounds behind each solver. -/
theorem Advances.covering {s s' : InContext CoverageEnsemble} (hstep : Advances s s')
    (h : Covering ps max s) : Covering ps max s' := by
  cases hstep with
  | keep e hkeeps => exact h.imp fun t p ht => ht.imp fun _ ht => ht.keep hkeeps
  | solve hrun => exact (hitEach_rounds h (hitEach_of_solveCoverage hrun)).2

theorem covering_of_run {s₀ s : InContext CoverageEnsemble} (h₀ : Covering ps max s₀)
    (hrun : ReflTransGen Advances s₀ s) : Covering ps max s := by
  induction hrun with
  | refl => exact h₀
  | tail _ hstep ih => exact hstep.covering ih

/-- Coverage is complete by name: when a solve hits nothing after any run, nothing is left to hit in
    any partition. -/
theorem exhausted_of_rebuild {e e' : CoverageEnsemble} {s s' : InContext CoverageEnsemble}
    (hc : c.WellFormed) (hps : Separate c.signature ps)
    (hrebuild : rebuildCoverage c ps e = .ok (.ok (), e'))
    (hrun : ReflTransGen Advances ⟨c, e'⟩ s)
    (hmissed : solveCoverage s = .ok (.ok false, s')) :
    List.Forall₂ (fun t p => ∃ hits, Rounds p e.source.settings.maxVectorSize s.context t hits ∧
      Exhausted p e.source.settings.maxVectorSize s.context hits) s.item.solvers ps := by
  -- What a solver becomes is the same whether or not the run is safe from faults.
  have h₀ := (rebuildCoverage_covering hc hps (fun never : False => never.elim)
    fun never : False => never.elim).of_run hrebuild
  exact exhausted_of_missed (covering_of_run h₀ hrun) (hitEach_of_solveCoverage hmissed)

/-- A context with a random flag. -/
def oneFlag : Context := (Context.declare .bool (.empty 0)).2

/-- The flag is to be set once and to be cleared once. -/
def bothSides (set cleared : String) : Partition :=
  ⟨[⟨2, cleared, .unary .not (.var 1 .bool), .ofList [1], false, true, true⟩,
    ⟨1, set, .var 1 .bool, .ofList [1], false, true, true⟩], .ofList [1]⟩

/-- Coverage solvers with small tables, before any partition is known. -/
def unbuilt : CoverageEnsemble := .empty (.ofSettings { seed := some 1 } 4)

theorem separate_bothSides (set cleared : String) :
    Separate oneFlag.signature [bothSides set cleared] := by
  have hflag : oneFlag.signature.sort? 1 = some .bool := rfl
  refine ⟨fun p hp => ?_, List.pairwise_singleton _ _⟩
  obtain rfl := List.mem_singleton.mp hp
  intro x hx
  simp only [bothSides, List.mem_cons, List.not_mem_nil, or_false] at hx
  rcases hx with rfl | rfl
  all_goals
    refine ⟨Nat.le_of_ble_eq_true rfl, fun id sort hmention => ?_⟩
    simp only [Expr.mentions_unary, Expr.mentions_var] at hmention
    rwa [hmention.1, hmention.2]

/-- Two rounds hit the constraints, and the third one shows that both were hit. -/
theorem exhausted_after_both : ∃ e' s₁ s₂ s₃,
    rebuildCoverage oneFlag [bothSides "set" "cleared"] unbuilt = .ok (.ok (), e') ∧
    solveCoverage ⟨oneFlag, e'⟩ = .ok (.ok true, s₁) ∧ solveCoverage s₁ = .ok (.ok true, s₂) ∧
    solveCoverage s₂ = .ok (.ok false, s₃) ∧
    List.Forall₂ (fun t p => ∃ hits, Rounds p 1000 s₂.context t hits ∧
      Exhausted p 1000 s₂.context hits) s₂.item.solvers [bothSides "set" "cleared"] := by
  obtain ⟨⟨⟩, e', hrebuild, htest⟩ := exists_of_granted?_any
    (x := rebuildCoverage oneFlag [bothSides "set" "cleared"] unbuilt) (p := fun (_, e') =>
      (granted? (solveCoverage ⟨oneFlag, e'⟩)).any fun (hit₁, s₁) => hit₁ &&
        (granted? (solveCoverage s₁)).any fun (hit₂, s₂) => hit₂ &&
          (granted? (solveCoverage s₂)).any fun (hit₃, _) => !hit₃) (by decide +kernel)
  obtain ⟨hit₁, s₁, hrun₁, htest⟩ := exists_of_granted?_any htest
  obtain ⟨rfl, htest⟩ := (Bool.and_eq_true _ _).mp htest
  obtain ⟨hit₂, s₂, hrun₂, htest⟩ := exists_of_granted?_any htest
  obtain ⟨rfl, htest⟩ := (Bool.and_eq_true _ _).mp htest
  obtain ⟨hit₃, s₃, hrun₃, htest⟩ := exists_of_granted?_any htest
  obtain rfl : hit₃ = false := by simpa using htest
  have hrun : ReflTransGen Advances ⟨oneFlag, e'⟩ s₂ :=
    .tail (.single (.solve hrun₁)) (.solve hrun₂)
  have hwf : oneFlag.WellFormed :=
    (Context.Changes.declare _ _).wellFormed (Context.wellFormed_empty 0 _)
  exact ⟨e', s₁, s₂, s₃, hrebuild, hrun₁, hrun₂, hrun₃,
    exhausted_of_rebuild hwf (separate_bothSides _ _) hrebuild hrun hrun₃⟩

/-- Two constraints of one name: after the first round nothing is hit any more, although the
    constraint that was not hit has a solution. -/
theorem missed_of_shared_name : ∃ e' s₁ s₂,
    rebuildCoverage oneFlag [bothSides "hit" "hit"] unbuilt = .ok (.ok (), e') ∧
    solveCoverage ⟨oneFlag, e'⟩ = .ok (.ok true, s₁) ∧ solveCoverage s₁ = .ok (.ok false, s₂) ∧
    ∃ x ∈ (bothSides "hit" "hit").constraints, x.cover = true ∧ ¬ x.expr.Holds s₁.context.bits ∧
      ∃ env, (bothSides "hit" "hit").SolvedBy oneFlag 1000 env ∧ x.expr.Holds env := by
  obtain ⟨⟨⟩, e', hrebuild, htest⟩ := exists_of_granted?_any
    (x := rebuildCoverage oneFlag [bothSides "hit" "hit"] unbuilt) (p := fun (_, e') =>
      (granted? (solveCoverage ⟨oneFlag, e'⟩)).any fun (hit₁, s₁) => hit₁ &&
        decide (s₁.context.bits 1 = 0) &&
        (granted? (solveCoverage s₁)).any fun (hit₂, _) => !hit₂) (by decide +kernel)
  obtain ⟨hit₁, s₁, hrun₁, htest⟩ := exists_of_granted?_any htest
  simp only [Bool.and_eq_true, decide_eq_true_eq] at htest
  obtain ⟨⟨rfl, hcleared⟩, htest⟩ := htest
  obtain ⟨hit₂, s₂, hrun₂, htest⟩ := exists_of_granted?_any htest
  obtain rfl : hit₂ = false := by simpa using htest
  refine ⟨e', s₁, s₂, hrebuild, hrun₁, hrun₂, _, List.mem_cons_of_mem _ List.mem_cons_self, rfl,
    Expr.not_holds_var hcleared, fun _ => 1, ⟨?_, ?_, ?_⟩, ?_⟩
  · -- No constraint has to hold.
    exact fun e he => nomatch he
  · have hnone : oneFlag.vectors = ∅ := rfl
    intro id entry hvector
    simp [hnone] at hvector
  · -- The only cell is random.
    intro id cell hcell hrole
    rw [show oneFlag.cells[id]? = _ from Context.cells_withCell _ _ id] at hcell
    split at hcell
    · cases hcell
      cases hrole
    · cases hcell
  · exact ⟨_, rfl, by decide⟩

end CoverageEnsemble

end Stimulus
