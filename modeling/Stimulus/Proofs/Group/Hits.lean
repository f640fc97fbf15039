import Stimulus.Proofs.Group.Rounds
import Stimulus.Proofs.Group.Sizes

/-!
# What a hit leaves behind

A coverage solver that hits a cover constraint writes a model of it.  The cover constraint may
mention variables that no hard constraint mentions, and the hard constraints may be of any kind: as
long as all variables of the partition are declared, the values that are written satisfy the cover
constraint, and its name is a new one.  When several solvers hit, those that hit last have the last
word.

Main definitions:
- `CoverageSolver.remaining`: the cover constraints that were not hit so far
- `CoverageSolver.Working`: a coverage solver that may be in the middle of a round
- `CoverageSolver.Hit`: what a hit of a cover constraint leaves behind

Main statements:
- `CoverageSolver.solve_works`
- `CoverageEnsemble.hitEach_works`
-/

namespace Stimulus

/-! ## §1 Reading and assuming -/

theorem exists_of_mapM_run {α β ε : Type} {f : α → Except ε β} {as : List α} {bs : List β}
    (h : as.mapM f = .ok bs) {a : α} (ha : a ∈ as) : ∃ b, f a = .ok b := by
  induction as generalizing bs with
  | nil => cases ha
  | cons a' as ih =>
    rw [List.mapM_cons] at h
    obtain ⟨b, hb, h⟩ := exists_ok_of_bind h
    obtain ⟨cs, hcs, -⟩ := exists_ok_of_bind h
    rcases List.mem_cons.mp ha with rfl | ha
    · exact ⟨b, hb⟩
    · exact ih hcs ha

namespace Solver

section

variable {s : Solver} {hard : Demand} {softs assumed : List Demand}

/-- If the results can be read at all, they are the values of the variables that have one. -/
theorem mem_results_of_run {vars : Std.TreeMap Nat Expr} {results : List (Nat × Nat)}
    (hrun : s.results vars = .ok results) (id n : Nat) :
    (id, n) ∈ results ↔ s.readVariable vars id = .ok (some n) := by
  have hreads : ∀ id, ∃ value, s.readVariable vars id = .ok value := by
    intro id
    unfold readVariable
    cases hid : vars[id]? with
    | none => exact ⟨none, rfl⟩
    | some e =>
      obtain ⟨values, hvalues, -⟩ := exists_ok_of_bind hrun
      have hmem := Std.TreeMap.mem_toList_iff_getElem?_eq_some.mpr hid
      obtain ⟨b, hb⟩ := exists_of_mapM_run hvalues hmem
      obtain ⟨value, hvalue, -⟩ := exists_ok_of_bind hb
      exact ⟨value, hvalue⟩
  have hends : Ends (s.results vars) (fun _ => True) _ := results_ends hreads
  exact hends.of_ok hrun id n

/-- An assumption demands that the constraint holds if it is plain, and brings its variables into
    use. -/
theorem assume_works (e : Expr) (h : s.Means hard softs assumed) :
    Grants (assume e) s (fun _ => True) (fun _ s' => s'.Means hard softs assumed) fun _ s' =>
      ∃ P, s'.Means hard softs (assumed ++ [P]) ∧ (e.Plain → ∀ env, P env ↔ e.Holds env) ∧
        s'.encoding.CarriesAll e := by
  have hcarries : Grants (encode e.encodeTruth) s (fun _ => True) _ _ :=
    encode_focus (e.encodeTruth_carries s.encoding)
  apply Grants.bind (((encode_keeps e h).and hcarries).imp (fun _ _ => trivial)
    (fun _ _ hr => hr.1) fun _ _ hq => hq)
  rintro f s₁ ⟨⟨h₁, P, hf, hplain⟩, encoding, rfl, -, hcarries⟩
  refine .modify ⟨P, ⟨h₁.wellFormed, h₁.hard, h₁.softs, ?_, h₁.suggestions⟩, hplain, hcarries⟩
  rw [Array.toList_push]
  exact List.rel_append h₁.assumptions (.cons hf .nil)

end

end Solver

namespace CoverageSolver

/-! ## §2 One solver -/

/-- The cover constraints that were not hit so far. -/
def remaining (s : CoverageSolver) : List Constraint :=
  s.partition.constraints.filter fun x => x.cover && !s.covered.contains x.name

/-- The coverage solver of a partition over declared variables.  Assumptions of a round that was
    refused may be left over. -/
structure Working (s : CoverageSolver) (c : Context) : Prop where
  scalars_eq : s.scalars = s.partition.scalars
  declared : s.partition.Declared c.signature
  means : ∃ hard softs assumed, s.solver.Means hard softs assumed

/-- The last model is one of the constraint and of the references of the partition. -/
structure Finds (s : CoverageSolver) (c : Context) (x : Constraint) (env : Nat → Nat) : Prop where
  holds : x.expr.Plain → x.expr.Holds env
  references : ∀ (id : Nat) (cell : Cell), c.cells[id]? = some cell → cell.role = .reference →
    (∃ sort, s.partition.Mentions id sort) → env id % 2 ^ cell.type.sort.width = cell.bits
  read : ∀ id sort, x.expr.Mentions id sort →
    s.solver.read (.var id sort) = .ok (some (env id % 2 ^ sort.width))

/-- The constraint was hit: its name counts as covered, it holds once the results are written if it
    is plain, and its variables are answered with the values that they have then. -/
structure Hit (s : CoverageSolver) (c : Context) (before : Std.TreeSet String) (x : Constraint)
    (results : List (Nat × Nat)) : Prop where
  covered_eq : s.covered = before.insert x.name
  holds : x.expr.Plain → x.expr.Holds (c.writeAll results).bits
  answered : ∀ id sort, x.expr.Mentions id sort →
    s.read id = .ok (some ((c.writeAll results).bits id))

section

variable {s : CoverageSolver} {c c' : Context} {x : Constraint} {env : Nat → Nat}

theorem Working.grows (h : s.Working c) (hgrows : c.Grows c') : s.Working c' :=
  ⟨h.scalars_eq, fun id sort hmention => hgrows.signature id sort (h.declared id sort hmention),
    h.means⟩

/-- A coverage solver is working as soon as it is built. -/
theorem build_works {settings : Settings} {p : Partition} (hp : p.Declared c.signature)
    (storageBits seed : Nat) :
    Attempts (build c storageBits settings p seed) (fun _ => True) (fun _ => p.NeedsVector)
      fun s => s.Working c ∧ s.partition = p ∧ s.covered = ∅ := by
  unfold build
  apply Attempts.ofExcept_bind (Solver.empty_means storageBits seed)
  intro solver hsolver
  dsimp only
  have hassert := (Solver.assertEach_means ((p.constraints.filter (·.isHard)).map
    Constraint.expr ++ (boundsOnSizes c p.scalars settings.maxVectorSize).values) hsolver).runOn
  refine Attempts.bind (hassert.imp (fun _ hf => hf) ?_ fun _ hs => hs) ?_
  · rintro _ ⟨e, he, hvector⟩
    exact p.needsVector_of_assert he hvector
  · rintro ⟨_, solver'⟩ ⟨hard, hsolver'⟩
    exact ⟨⟨rfl, hp, hard, _, _, hsolver'⟩, rfl, rfl⟩

/-- A try finds a model of the cover constraint, if it finds one at all. -/
theorem tryCover_works (h : s.Working c) (hc : c.WellFormed) (x : Constraint) :
    Grants (tryCover c x) s (fun _ => True)
      (fun _ s' => s'.Working c ∧ ∃ solver, s' = { s with solver := solver }) fun found s' =>
        (s'.Working c ∧ ∃ solver, s' = { s with solver := solver }) ∧
          (found = true → ∃ env, s'.Finds c x env) := by
  obtain ⟨hard, softs, assumed, hmeans⟩ := h.means
  have hworking {solver : Solver} {assumed' : List Demand}
      (hsolver : solver.Means hard softs assumed') :
      Working { s with solver := solver } c :=
    ⟨h.scalars_eq, h.declared, hard, softs, assumed', hsolver⟩
  have hvars : Variables s.scalars := h.scalars_eq ▸ s.partition.variables_scalars
  -- The demands of the references and of the cover constraint are assumed for this one solve.
  have hact : Grants (do
      Solver.assumeReferences c s.scalars
      Solver.assume x.expr
      Request.step (Solver.solve false)) s.solver (fun _ => True)
      (fun _ t => ∃ assumed', t.Means hard softs assumed') fun found t =>
        t.Means hard softs [] ∧ (found = true → ∃ env,
          (∀ P ∈ PartitionSolver.demands c s.scalars, P env) ∧
            (x.expr.Plain → x.expr.Holds env) ∧ t.Tells env ∧ t.encoding.CarriesAll x.expr) := by
    apply Grants.bind (PartitionSolver.assumeReferences_means hmeans c hvars).unrefused
    rintro _ t₁ ⟨h₁, -⟩
    apply Grants.bind ((Solver.assume_works x.expr h₁).imp_refusal fun _ _ hr => ⟨_, hr⟩)
    rintro _ t₂ ⟨P, h₂, hplain, hcarries⟩
    apply (Solver.solve_finds h₂ false).step.mono
    rintro found t ⟨ht, -, hgrows, -, hmodel⟩
    refine ⟨ht, fun hfound => ?_⟩
    obtain ⟨env, -, hassumed, -, htells⟩ := hmodel hfound
    refine ⟨env, fun Q hQ => hassumed Q (by simp [hQ]), fun hx => ?_, htells, hcarries.mono hgrows⟩
    exact (hplain hx env).mp (hassumed P (by simp))
  unfold tryCover
  apply Grants.get_bind
  apply (useSolver_focus hact).imp (fun _ hf => hf)
  · rintro _ _ ⟨solver, rfl, assumed', hsolver⟩
    exact ⟨hworking hsolver, solver, rfl⟩
  · rintro found _ ⟨solver, rfl, hsolver, hmodel⟩
    refine ⟨⟨hworking hsolver, solver, rfl⟩, fun hfound => ?_⟩
    obtain ⟨env, hdemands, hholds, htells, hcarries⟩ := hmodel hfound
    have hgivens : Expr.AllHold env (givens c s.partition.scalars) := by
      rw [← h.scalars_eq]
      exact fun e he => hdemands _ (List.mem_map_of_mem he)
    -- A model tells of every variable of the cover constraint, whose bits are all in use.
    exact ⟨env, hholds, (allHold_givens hc h.declared).mp hgivens,
      fun id sort hmention => htells.carried id sort (hcarries id sort hmention)⟩

/-- The model that was found is written. -/
theorem Finds.hit (h : s.Finds c x env) (hs : s.Working c) (hx : x ∈ s.partition.constraints)
    (hhit : s.hit = true) {before : Std.TreeSet String}
    (hcovered : s.covered = before.insert x.name) {results : List (Nat × Nat)}
    (hrun : s.solver.results s.scalars = .ok results) : s.Hit c before x results := by
  have hmentions : ∀ id sort, x.expr.Mentions id sort → s.partition.Mentions id sort :=
    fun id sort hmention => ⟨x, hx, hmention⟩
  have hread : s.read = s.solver.readVariable s.scalars := by
    funext id
    unfold CoverageSolver.read
    rw [hhit]
    rfl
  have hvalue : ∀ id sort, x.expr.Mentions id sort →
      s.read id = .ok (some (env id % 2 ^ sort.width)) := by
    intro id sort hmention
    have hid := hs.declared.getElem?_scalars.mpr ⟨sort, rfl, hmentions id sort hmention⟩
    rw [hread, Solver.readVariable, hs.scalars_eq, hid]
    exact h.read id sort hmention
  -- Once the results are written, the variables of the constraint hold the values of the model.
  have hbits : ∀ id sort, x.expr.Mentions id sort →
      (c.writeAll results).bits id = env id % 2 ^ sort.width := by
    intro id sort hmention
    have hmem (n : Nat) : (id, n) ∈ results ↔ n = env id % 2 ^ sort.width := by
      rw [Solver.mem_results_of_run hrun, ← hread, hvalue id sort hmention]
      simp [eq_comm]
    obtain ⟨cell, hcell, hsort⟩ := Option.map_eq_some_iff.mp
      (hs.declared id sort (hmentions id sort hmention))
    cases hrole : cell.role with
    | random =>
      have hrandom : c.isRandom id = true := Context.isRandom_iff.mpr ⟨cell, hcell, hrole⟩
      exact Context.bits_writeAll hrandom ((hmem _).mpr rfl) fun m hm => (hmem m).mp hm
    | reference =>
      -- A reference is not written, and the model has its value.
      have hfixed : c.isRandom id = false := by
        simp [Context.isRandom, hcell, hrole]
      have hsame := h.references id cell hcell hrole ⟨sort, hmentions id sort hmention⟩
      rw [Context.bits_writeAll_of_not_mem fun _ _ => hfixed, Context.bits, hcell, ← hsort, hsame]
      rfl
  refine ⟨hcovered, fun hplain => ?_, fun id sort hmention => ?_⟩
  · refine (Expr.holds_congr fun id sort hmention => ?_).mp (h.holds hplain)
    rw [hbits id sort hmention, Nat.mod_mod]
  · rw [hbits id sort hmention, hvalue id sort hmention]

/-- What a solve answers: a new cover constraint was hit, or nothing is new. -/
def Answers (s : CoverageSolver) (c : Context) (covers : List Constraint)
    (before : Std.TreeSet String) : Option (List (Nat × Nat)) → Prop
  | none => s.covered = before ∧ s.hit = false
  | some results => ∃ x ∈ covers, s.Hit c before x results

theorem hitFirst_works (h : s.Working c) (hc : c.WellFormed) (hhit : s.hit = false)
    {covers : List Constraint} (hcovers : covers ⊆ s.partition.constraints) :
    Ensures (hitFirst c covers) s (fun _ => True) fun answer s' =>
      s'.Working c ∧ s'.partition = s.partition ∧ s'.Answers c covers s.covered answer := by
  induction covers generalizing s with
  | nil => exact .pure ⟨h, rfl, rfl, hhit⟩
  | cons x covers ih =>
    obtain ⟨hx, hrest⟩ := List.cons_subset.mp hcovers
    -- A cover constraint that is refused and one without a model both leave the search to the
    -- others.
    have hmissed {s' : CoverageSolver}
        (h' : s'.Working c ∧ ∃ solver, s' = { s with solver := solver }) :
        Ensures (hitFirst c covers) s' (fun _ => True) fun answer s'' => s''.Working c ∧
          s''.partition = s.partition ∧ s''.Answers c (x :: covers) s.covered answer := by
      obtain ⟨h', solver, rfl⟩ := h'
      apply (ih h' hhit hrest).mono
      rintro answer s'' ⟨h'', hpartition, hanswers⟩
      refine ⟨h'', hpartition, ?_⟩
      cases answer with
      | none => exact hanswers
      | some results =>
        obtain ⟨y, hy, hs''⟩ := hanswers
        exact ⟨y, List.mem_cons_of_mem x hy, hs''⟩
    unfold hitFirst
    apply (tryCover_works h hc x).outcome_bind
    · intro refusal s' h'
      exact hmissed h'
    · rintro found s' ⟨h', hmodel⟩
      cases found with
      | false => exact hmissed h'
      | true =>
        obtain ⟨env, hfinds⟩ := hmodel rfl
        obtain ⟨hworking, solver, rfl⟩ := h'
        apply Ensures.modify_bind
        apply Ensures.get_bind
        let s₁ : CoverageSolver :=
          { s with solver := solver, covered := s.covered.insert x.name, hit := true }
        have h₁ : s₁.Working c := ⟨hworking.scalars_eq, hworking.declared, hworking.means⟩
        have hfinds₁ : s₁.Finds c x env := ⟨hfinds.holds, hfinds.references, hfinds.read⟩
        apply Ensures.ofExcept_bind (R := fun results =>
          s₁.solver.results s₁.scalars = .ok results)
        · unfold Ends
          split
          · trivial
          · assumption
        · intro results hrun
          exact .pure ⟨h₁, rfl, x, List.mem_cons_self, hfinds₁.hit h₁ hx rfl rfl hrun⟩

/-- A solve hits a cover constraint that was not hit before, or nothing new counts as covered. -/
theorem solve_works (h : s.Working c) (hc : c.WellFormed) :
    Ensures (solve c) s (fun _ => True) fun answer s' =>
      s'.Working c ∧ s'.partition = s.partition ∧ s'.Answers c s.remaining s.covered answer := by
  unfold solve
  apply Ensures.modify_bind
  apply Ensures.get_bind
  have h' : Working { s with hit := false } c := ⟨h.scalars_eq, h.declared, h.means⟩
  exact hitFirst_works h' hc rfl fun x hx => (mem_left.mp hx).1

/-- What remains when one more name counts as covered. -/
theorem filter_insert (xs : List Constraint) (covered : Std.TreeSet String) (name : String) :
    (xs.filter fun x => x.cover && !(covered.insert name).contains x.name) =
      (xs.filter fun x => x.cover && !covered.contains x.name).filter (·.name != name) := by
  rw [List.filter_filter]
  apply List.filter_congr
  intro x _
  rw [Std.TreeSet.contains_insert]
  by_cases hname : x.name = name
  · simp [hname]
  · have hother : (compare name x.name == .eq) = false :=
      beq_false_of_ne fun heq => hname (Std.LawfulEqCmp.eq_of_compare heq).symm
    have hne : (x.name != name) = true := bne_iff_ne.mpr hname
    rw [hother, hne, Bool.false_or, Bool.true_and]

/-- Nothing remains that did not remain before, and less remains after a hit. -/
theorem Answers.remaining_sublist {s' : CoverageSolver} {answer : Option (List (Nat × Nat))}
    (h : s'.Answers c s.remaining s.covered answer) (hpartition : s'.partition = s.partition) :
    s'.remaining.Sublist s.remaining ∧
      (answer.isSome = true → s'.remaining.length < s.remaining.length) := by
  unfold remaining
  rw [hpartition]
  cases answer with
  | none =>
    rw [h.1]
    exact ⟨.refl _, nofun⟩
  | some results =>
    obtain ⟨x, hx, hhit⟩ := h
    rw [hhit.covered_eq, filter_insert]
    exact ⟨List.filter_sublist,
      fun _ => List.length_filter_lt_length_iff_exists.mpr ⟨x, hx, by simp⟩⟩

end

end CoverageSolver

/-! ## §3 All solvers -/

namespace CoverageEnsemble

open CoverageSolver

section

variable {c c' : Context} {solvers solvers' : List CoverageSolver}

/-- One of the solvers has hit a cover constraint, and none that came after it has overwritten the
    values of its variables. -/
structure LastHit (c : Context) (before : List Constraint) (solvers : List CoverageSolver)
    (x : Constraint) : Prop where
  remained : x ∈ before
  holds : x.expr.Plain → x.expr.Holds c.bits
  hitter : ∃ first s last, solvers = first ++ s :: last ∧ x ∈ s.partition.constraints ∧
    x.name ∈ s.covered ∧ ∀ id sort, x.expr.Mentions id sort → s.read id = .ok (some (c.bits id))

/-- What remains of a round of all solvers. -/
structure Round (c c' : Context) (solvers solvers' : List CoverageSolver) (hit : Bool) : Prop where
  keeps : c.Keeps c'
  working : ∀ s ∈ solvers', s.Working c'
  partitions_eq : solvers'.map CoverageSolver.partition = solvers.map CoverageSolver.partition
  sublist : (solvers'.flatMap remaining).Sublist (solvers.flatMap remaining)
  fewer : hit = true → (solvers'.flatMap remaining).length < (solvers.flatMap remaining).length
  missed : hit = false → c' = c
  lastHit : hit = true → ∃ x, LastHit c' (solvers.flatMap remaining) solvers' x

theorem hitEach_works (hc : c.WellFormed) (h : ∀ s ∈ solvers, s.Working c) :
    Ends (hitEach c solvers) (fun _ => True) fun r => Round c r.2.2 solvers r.2.1 r.1 := by
  induction solvers generalizing c with
  | nil => exact ⟨.refl c, by simp, rfl, .refl _, nofun, fun _ => rfl, nofun⟩
  | cons s solvers ih =>
    obtain ⟨hs, hrest⟩ := List.forall_mem_cons.mp h
    unfold hitEach
    apply Ends.bind (CoverageSolver.solve_works hs hc)
    rintro ⟨answer, s'⟩ ⟨hworking, hpartition, hanswers⟩
    have hwritten := c.keeps_writeAll (answer.getD [])
    apply Ends.bind (ih (hwritten.wellFormed hc) fun t ht => (hrest t ht).grows hwritten.grows)
    rintro ⟨hit, rest, c'⟩ hround
    dsimp only at hworking hpartition hanswers hround hwritten ⊢
    obtain ⟨hsublist, hfewer⟩ := hanswers.remaining_sublist hpartition
    have hrestLe := hround.sublist.length_le
    have hheadLe := hsublist.length_le
    refine ⟨hwritten.trans hround.keeps, List.forall_mem_cons.mpr
        ⟨hworking.grows (hwritten.trans hround.keeps).grows, hround.working⟩,
      congrArg₂ List.cons hpartition hround.partitions_eq, ?_, fun hhit => ?_, fun hmissed => ?_,
      fun hhit => ?_⟩
    · exact hsublist.append hround.sublist
    · simp only [List.flatMap_cons, List.length_append]
      rcases (Bool.or_eq_true _ _).mp hhit with hhit | hhit
      · have := hfewer hhit
        omega
      · have := hround.fewer hhit
        omega
    · obtain ⟨hnone, hmissed⟩ := (Bool.or_eq_false_iff).mp hmissed
      rw [Option.isSome_eq_false_iff, Option.isNone_iff_eq_none] at hnone
      subst hnone
      exact hround.missed hmissed
    · cases hit with
      | true =>
        obtain ⟨x, hremained, hholds, first, t, last, rfl, hx⟩ := hround.lastHit rfl
        exact ⟨x, List.mem_append_right _ hremained, hholds, s' :: first, t, last, rfl, hx⟩
      | false =>
        -- Nothing was written after the first solver.
        have hsome : answer.isSome = true := by simpa using hhit
        obtain ⟨results, rfl⟩ := Option.isSome_iff_exists.mp hsome
        obtain ⟨x, hx, hhit'⟩ := hanswers
        have hsame : c' = c.writeAll results := hround.missed rfl
        obtain ⟨hmem, -, -⟩ := mem_left.mp hx
        refine ⟨x, List.mem_append_left _ hx, hsame ▸ hhit'.holds, [], s', rest, rfl,
          hpartition ▸ hmem, ?_, hsame ▸ hhit'.answered⟩
        rw [hhit'.covered_eq, Std.TreeSet.mem_insert]
        exact .inl Std.ReflCmp.compare_self

theorem solveCoverage_works {e : CoverageEnsemble} (hc : c.WellFormed)
    (h : ∀ s ∈ e.solvers, s.Working c) :
    Grants solveCoverage ⟨c, e⟩ (fun _ => True) (fun _ _ => False) fun hit s' =>
      Round c s'.context e.solvers s'.item.solvers hit := by
  obtain ⟨source, solvers⟩ := e
  have hrun := hitEach_works hc h
  unfold Grants solveCoverage
  dsimp only at hrun ⊢
  split
  · trivial
  · rename_i r hr
    exact hrun.of_ok hr

/-- New solvers have all cover constraints of their partitions before them. -/
theorem rebuildCoverage_works (e : CoverageEnsemble) {ps : List Partition}
    (hps : ∀ p ∈ ps, ¬ p.NeedsVector ∧ p.Declared c.signature) :
    Grants (rebuildCoverage c ps) e (fun _ => True) (fun _ _ => False) fun _ e' =>
      (∀ s ∈ e'.solvers, s.Working c) ∧ e'.solvers.map CoverageSolver.partition = ps ∧
        e'.solvers.flatMap remaining = ps.flatMap fun p => p.constraints.filter Constraint.cover := by
  have hmake : ∀ p ∈ ps, ∀ seed, Attempts
      (CoverageSolver.build c e.source.storageBits e.source.settings p seed) (fun _ => True)
      (fun _ => False) fun s => s.Working c ∧ s.partition = p ∧ s.covered = ∅ := by
    intro p hp seed
    exact (CoverageSolver.build_works (hps p hp).2 e.source.storageBits seed).imp
      (fun _ hf => hf) (fun _ hr => (hps p hp).1 hr) fun _ hs => hs
  unfold rebuildCoverage
  apply Grants.get_bind
  apply (Ensemble.rebuild_grants (E := fun _ => True) trivial hmake).mono
  rintro _ e' ⟨hsolvers, -⟩
  generalize e'.solvers = solvers at hsolvers
  clear hmake hps
  induction hsolvers with
  | nil => exact ⟨by simp, rfl, rfl⟩
  | cons hs _ ih =>
    obtain ⟨hworking, rfl, hcovered⟩ := hs
    obtain ⟨hall, hpartitions, hremaining⟩ := ih
    refine ⟨List.forall_mem_cons.mpr ⟨hworking, hall⟩, congrArg _ hpartitions, ?_⟩
    rw [List.flatMap_cons, List.flatMap_cons, hremaining]
    simp [CoverageSolver.remaining, hcovered]

end

end CoverageEnsemble

/-! ## §4 Plain ensembles -/

namespace PlainEnsemble

theorem solveEach_writes (c : Context) (solvers : List PartitionSolver) :
    Ends (solveEach c solvers) (fun _ => True) fun r => c.Keeps r.2.2 := by
  induction solvers generalizing c with
  | nil => exact .refl c
  | cons s solvers ih =>
    unfold solveEach
    apply Ends.bind (ends_true _)
    rintro ⟨answer, s'⟩ -
    cases answer with
    | none => exact .refl c
    | some results =>
      apply Ends.bind (ih (c.writeAll results))
      exact fun r hkeeps => (c.keeps_writeAll results).trans hkeeps

/-- A plain solve writes random variables only, whatever its solvers are. -/
theorem solvePlain_writes (s : InContext PlainEnsemble) :
    Grants solvePlain s (fun _ => True) (fun _ _ => False) fun _ s' =>
      s.context.Keeps s'.context := by
  obtain ⟨c, source, solvers⟩ := s
  have hrun : Ends (if source.settings.sideBySide then solveSideBySide List.flatten c solvers
      else solveEach c solvers) (fun _ => True) fun r => c.Keeps r.2.2 := by
    split
    · exact Ends.bind (ends_true _) fun _ _ => c.keeps_writeAll _
    · exact solveEach_writes c solvers
  unfold Grants solvePlain
  dsimp only
  split
  · trivial
  · rename_i r hr
    exact hrun.of_ok hr

end PlainEnsemble

end Stimulus
