import Stimulus.Proofs.Generator.Soundness
import Stimulus.Proofs.Group.Ensemble

/-!
# What an analysis keeps of the soft constraints

The analysis of a partition goes through its soft constraints once, the newest first, and keeps each
one that fits with the hard constraints, the bounds on sizes and what it has kept before.  So the
constraints that are kept fit together, and none of the others could be added.  What was kept is
hard from then on.

The values of references are not known to an analysis.  A soft constraint that is kept may
contradict them later, and then a partition has no solution that it would have without its soft
constraints.

Main definitions:
- `Verdict`: which soft constraints are kept, and which are listed as inactive
- `PartitionSolver.Advances`: solves, and changes of the context in between
- `Partition.bare`: a partition without its soft constraints

Main statements:
- `PartitionSolver.serves_of_run`: what was kept is kept over all solves
- `PartitionSolver.analysis_exact`
- `PartitionSolver.solve_beside_bare`
-/

namespace Stimulus

open Relation (ReflTransGen)
open Solver (without)

/-! ## §1 Verdicts -/

/-- The verdict on soft constraints that are judged in their order, together with what is hard
    anyway.  The dropped ones are given by their positions. -/
structure Verdict (base : List Expr) (xs : List Constraint) (dropped : List Nat)
    (inactive : List String) : Prop where
  /-- The constraints are judged from the newest to the oldest. -/
  newest : xs.Pairwise fun x y => y.id ≤ x.id
  ascending : dropped.Pairwise (· < ·)
  /-- The names of the dropped constraints are listed. -/
  listed : List.Forall₂ (fun i name => ∃ x, xs[i]? = some x ∧ x.name = name) dropped inactive
  /-- A constraint is dropped exactly if it contradicts what was kept before it. -/
  dropped_iff : ∀ (i : Nat) (hi : i < xs.length), i ∈ dropped ↔ ¬ Satisfiable
    (base ++ without dropped ((xs.take i).map Constraint.expr) ++ [xs[i].expr])
  /-- What is kept fits together. -/
  fits : Satisfiable (base ++ without dropped (xs.map Constraint.expr))
  /-- Nothing that is dropped could be added. -/
  maximal : ∀ (i : Nat) (hi : i < xs.length), i ∈ dropped →
    ¬ Satisfiable (base ++ without dropped (xs.map Constraint.expr) ++ [xs[i].expr])

/-- The outcome of a pass over constraints is a verdict on them. -/
theorem Solver.Sifts.verdict {base : List Expr} {xs : List Constraint} {dropped : List Nat}
    (h : Solver.Sifts base 0 (xs.map Constraint.expr) dropped) (hbase : Satisfiable base)
    (hnewest : xs.Pairwise fun x y => y.id ≤ x.id) :
    Verdict base xs dropped (dropped.map ((xs.map Constraint.name).getD · "")) where
  newest := hnewest
  ascending := h.ascending
  listed := by
    rw [List.forall₂_map_right_iff]
    refine List.forall₂_same.mpr fun i hi => ?_
    have hlt : i < xs.length := by simpa using h.lt i hi
    exact ⟨xs[i], by simp [hlt], by simp [hlt]⟩
  dropped_iff i hi := by
    have hiff := h.mem_iff (i := i) (by simpa using hi)
    simpa [List.map_take] using hiff
  fits := h.satisfiable hbase
  maximal i hi hdropped := by
    have hconflicts := h.conflicts (i := i) (by simpa using hi) (by simpa using hdropped)
    simpa using hconflicts

namespace Partition

/-- Registries refuse constraints that are both soft and to be covered. -/
def Classified (p : Partition) : Prop := ∀ x ∈ p.constraints, x.soft = true → x.cover = false

theorem Classified.softs_eq {p : Partition} (h : p.Classified) :
    p.softs = (p.constraints.filter (·.soft)).map Constraint.expr := by
  unfold softs
  congr 1
  refine List.filter_congr fun x hx => ?_
  cases hsoft : x.soft with
  | false => rfl
  | true => rw [h x hx hsoft]; rfl

end Partition

namespace PartitionSolver

/-! ## §2 Runs -/

/-- A solve, which writes its results, or a change of the context in between. -/
inductive Advances : InContext PartitionSolver → InContext PartitionSolver → Prop where
  | change {c c' : Context} (s : PartitionSolver) (hchanges : c.Changes c') :
      Advances ⟨c, s⟩ ⟨c', s⟩
  | solve {c : Context} {s s' : PartitionSolver} {answer : Option (List (Nat × Nat))}
      (hrun : solve c s = .ok (answer, s')) : Advances ⟨c, s⟩ ⟨c.writeAll (answer.getD []), s'⟩

/-- A partition solver that keeps its commitments, in a context in which its partition is posed. -/
structure Serves (t : InContext PartitionSolver) (p : Partition) (max : Nat)
    (kept softs : List Expr) : Prop where
  wellFormed : t.context.WellFormed
  posed : p.Posed t.context.signature
  settled : t.item.Settled t.context p max kept softs

section

variable {t t' : InContext PartitionSolver} {s s' : PartitionSolver} {c c' : Context}
  {p : Partition} {max : Nat} {kept softs commitments : List Expr}

/-- Growth of the context does not concern what is settled. -/
theorem Serves.grows (h : Serves ⟨c, s⟩ p max kept softs) (hc' : c'.WellFormed)
    (hgrows : c.Grows c') : Serves ⟨c', s⟩ p max kept softs :=
  ⟨hc', h.posed.mono hgrows.signature, h.settled.grows h.posed h.wellFormed hc' hgrows⟩

/-- What a solve answers at any time. -/
theorem Serves.resolves (h : Serves ⟨c, s⟩ p max kept softs) (hsub : kept ++ softs ⊆ p.softs)
    (safe : Prop) (hfew : safe → c.signature.Few) :
    Ensures (solve c) s (Stuck safe) fun answer s' =>
      s'.Settled c p max kept softs ∧ s'.Resolves c p max (kept ++ softs) answer :=
  solve_settled h.settled hsub h.wellFormed h.posed hfew

/-- One step keeps the commitments and the record. -/
theorem Advances.serves (hstep : Advances t t') (hsub : kept ++ softs ⊆ p.softs)
    (h : Serves t p max kept softs) :
    Serves t' p max kept softs ∧ t.item.SameRecord t'.item := by
  cases hstep with
  | change s hchanges =>
    exact ⟨h.grows (hchanges.wellFormed h.wellFormed) (hchanges.grows h.wellFormed), .refl s⟩
  | @solve c s s' answer hrun =>
    have hsettled := ((h.resolves hsub False nofun).of_run hrun).1
    have hkeeps := c.keeps_writeAll (answer.getD [])
    have hserves : Serves ⟨c, s'⟩ p max kept softs := ⟨h.wellFormed, h.posed, hsettled⟩
    exact ⟨hserves.grows (hkeeps.wellFormed h.wellFormed) hkeeps.grows,
      (solve_keeps c s).of_run hrun⟩

/-- So does every run. -/
theorem serves_of_run (hrun : ReflTransGen Advances t t') (hsub : kept ++ softs ⊆ p.softs)
    (h : Serves t p max kept softs) :
    Serves t' p max kept softs ∧ t.item.SameRecord t'.item := by
  induction hrun with
  | refl => exact ⟨h, .refl _⟩
  | tail _ hstep ih =>
    obtain ⟨hserves, hsame⟩ := hstep.serves hsub ih.1
    exact ⟨hserves, ih.2.trans hsame⟩

/-- The values that a solve writes meet the commitments. -/
theorem Resolves.holds {results : List (Nat × Nat)}
    (h : s.Resolves c p max commitments (some results)) (hp : p.Posed c.signature) :
    Expr.AllHold (c.writeAll results).bits commitments := by
  obtain ⟨⟨env, hanswered, hcommitted, hread⟩, hresults⟩ := h
  have hwrote := wrote_writeAll hanswered hp hresults (.refl c)
  intro e he
  refine (Expr.holds_congr fun id sort hmention => ?_).mp (hcommitted e he)
  rw [hwrote.bits (hread e he id sort hmention), Nat.mod_mod]

/-- There is an answer exactly if there is a solution that meets the commitments. -/
theorem Resolves.isSome_iff {answer : Option (List (Nat × Nat))}
    (h : s.Resolves c p max commitments answer) : answer.isSome = true ↔
      ∃ env, p.SolvedBy c max env ∧ Expr.AllHold env commitments := by
  cases answer with
  | none => exact ⟨nofun, fun hsolved => absurd hsolved h⟩
  | some results =>
    obtain ⟨⟨env, hanswered, hcommitted, -⟩, -⟩ := h
    exact ⟨fun _ => ⟨env, hanswered.solves, hcommitted⟩, fun _ => rfl⟩

/-! ## §3 What an analysis finds -/

/-- With conflicts on record, no solve ever has an answer, and it changes nothing. -/
theorem solve_of_contradictions (h : s.contradictions ≠ []) (c : Context) :
    solve c s = .ok (none, s) := by
  have hempty : s.contradictions.isEmpty = false := by simpa using h
  show (if !s.contradictions.isEmpty then pure none else _ : Step PartitionSolver _) s = _
  rw [hempty]
  rfl

/-- The analysis of a partition.  If the hard constraints and the bounds on sizes fit together, then
    there are no conflicts, the soft constraints are judged from the newest to the oldest, and all
    that are kept hold after every solve with an answer, whatever comes in between.  If the hard
    constraints alone contradict each other, then there are conflicts and no solve has an answer. -/
theorem analysis_exact {settings : Settings} {storageBits : Nat} (hc : c.WellFormed)
    (hp : p.Posed c.signature) (hclassified : p.Classified)
    (hnewest : p.constraints.Pairwise fun x y => y.id ≤ x.id)
    (hmany : p.constraints.length < 2 ^ 31) (hanalysis : settings.bypassAnalysis = false)
    (seed : Nat) :
    let xs := p.constraints.filter (·.soft)
    let base := p.hards ++ (boundsOnSizes c p.scalars settings.maxVectorSize).values
    Attempts (build c storageBits settings p seed)
      (Stuck (storageBits ≤ 31 ∧ c.cells.size < slotLimit)) (fun _ => False) fun s =>
        (Satisfiable base → s.contradictions = [] ∧ ∃ dropped,
          Verdict base xs dropped s.inactiveSofts ∧
          ∀ t, ReflTransGen Advances ⟨c, s⟩ t → s.SameRecord t.item ∧
            ∀ results s', solve t.context t.item = .ok (some results, s') →
              Expr.AllHold (t.context.writeAll results).bits
                (without dropped (xs.map Constraint.expr))) ∧
        (¬ Satisfiable p.hards →
          s.contradictions ≠ [] ∧ ∀ c', solve c' s = .ok (none, s)) := by
  intro xs base
  have hhards : p.hards.length < 2 ^ 31 := p.length_hards_le.trans_lt hmany
  refine (build_settles hc hp
    (fun hs : storageBits ≤ 31 ∧ c.cells.size < slotLimit => few_signature hs.2) (fun hs => hs.1)
    (fun _ => .inl hhards) seed).imp (fun _ hf => hf) (fun _ hr => hr) ?_
  rintro s ⟨hbounds, kept, softs, hsettled, hanalysed⟩
  rw [hanalysis, if_neg Bool.false_ne_true, hbounds] at hanalysed
  have hconflicts := hanalysed.conflicts hhards
  have hsub := hanalysed.subset
  constructor
  · rintro ⟨env, henv⟩
    -- What fits with the bounds fits without them, so there was nothing to put on record.
    have hnone := hconflicts.mpr ⟨env, (Expr.allHold_append.mp henv).1⟩
    obtain ⟨rfl, dropped, hsifts, rfl, hinactive⟩ := hanalysed.sifted hnone
    rw [hclassified.softs_eq] at hsifts
    refine ⟨hnone, dropped, hinactive ▸ hsifts.verdict ⟨env, henv⟩ (hnewest.filter _),
      fun t hrun => ?_⟩
    -- Nothing is soft any more, so the commitments of every solve are what was kept.
    obtain ⟨hserves, hsame⟩ := serves_of_run hrun hsub ⟨hc, hp, hsettled⟩
    refine ⟨hsame, fun results s' hsolve => ?_⟩
    have hresolves := ((hserves.resolves hsub False nofun).of_run hsolve).2
    rw [List.append_nil, hclassified.softs_eq] at hresolves
    exact hresolves.holds hserves.posed
  · intro hunsat
    have hsome : s.contradictions ≠ [] := fun hnone => hunsat (hconflicts.mp hnone)
    exact ⟨hsome, solve_of_contradictions hsome⟩

end

/-- A context with two random truth values. -/
def coins : Context := (Context.declare .bool (Context.declare .bool (.empty 0)).2).2

theorem wellFormed_coins : coins.WellFormed := by
  have hreached : coins.Reached :=
    ⟨0, _, (ReflTransGen.refl.tail (.declare _ _)).tail (.declare _ _)⟩
  exact hreached.wellFormed

/-- An enabled constraint that is not to be covered. -/
def ruling (id : Nat) (name : String) (e : Expr) (soft : Bool) : Constraint :=
  ⟨id, name, e, e.support, soft, false, true⟩

/-- The truth values differ, and each of them would like to be true. -/
def rivals : Partition where
  constraints := [ruling 3 "second" (.var 2 .bool) true, ruling 2 "first" (.var 1 .bool) true,
    ruling 1 "apart" (.binary .notEqual (.var 1 .bool) (.var 2 .bool)) false]
  support := .ofList [1, 2]

theorem posed_rivals : rivals.Posed coins.signature := by
  have hfirst : coins.signature.sort? 1 = some .bool := rfl
  have hsecond : coins.signature.sort? 2 = some .bool := rfl
  intro x hx
  simp only [rivals, List.mem_cons, List.not_mem_nil, or_false] at hx
  rcases hx with rfl | rfl | rfl
  all_goals
    refine ⟨by decide, fun id sort hmention => ?_⟩
    simp only [ruling, Expr.mentions_binary, Expr.mentions_var] at hmention
  · rwa [hmention.1, hmention.2]
  · rwa [hmention.1, hmention.2]
  · rcases hmention with ⟨rfl, rfl⟩ | ⟨rfl, rfl⟩
    · exact hfirst
    · exact hsecond

theorem satisfiable_rivals :
    Satisfiable (rivals.hards ++ (boundsOnSizes coins rivals.scalars 1000).values) := by
  have hbounds : (boundsOnSizes coins rivals.scalars 1000).values = [] := rfl
  have hhards : rivals.hards = [.binary .notEqual (.var 1 .bool) (.var 2 .bool)] := rfl
  rw [hbounds, hhards]
  refine ⟨fun id => id, fun e he => ?_⟩
  obtain rfl := List.mem_singleton.mp he
  exact ⟨_, rfl, by decide⟩

theorem built_rivals : ∃ s answer s', build coins 4 {} rivals 1 = .ok (.ok s) ∧
    s.inactiveSofts = ["first"] ∧ solve coins s = .ok (answer, s') ∧ answer.isSome = true := by
  obtain ⟨s, hrun, htest⟩ := exists_of_attempted?_any (x := build coins 4 {} rivals 1)
    (p := fun s => decide (s.inactiveSofts = ["first"]) &&
      (solve coins s).toOption.any fun q => q.1.isSome) (by decide +kernel)
  obtain ⟨hinactive, htest⟩ := (Bool.and_eq_true _ _).mp htest
  obtain ⟨⟨answer, s'⟩, hsolve, hsome⟩ := exists_of_toOption_any htest
  exact ⟨s, answer, s', hrun, of_decide_eq_true hinactive, hsolve, hsome⟩

/-- The newer one of the rivals is kept and becomes true, and the other one is inactive. -/
theorem analysis_exact_of_rivals : ∃ s results s',
    build coins 4 {} rivals 1 = .ok (.ok s) ∧ s.contradictions = [] ∧
      s.inactiveSofts = ["first"] ∧ solve coins s = .ok (some results, s') ∧
        (Expr.var 2 .bool).Holds (coins.writeAll results).bits := by
  obtain ⟨s, answer, s', hrun, hinactive, hsolve, hsome⟩ := built_rivals
  obtain ⟨results, rfl⟩ := Option.isSome_iff_exists.mp hsome
  have hexact := @analysis_exact coins rivals {} 4 wellFormed_coins
    posed_rivals (by simp [Partition.Classified, rivals, ruling]) (by decide) (by decide) rfl 1
  obtain ⟨hnone, dropped, hverdict, hkept⟩ := (hexact.of_run hrun).1 satisfiable_rivals
  -- The name that is listed is that of the constraint at the second position.
  have hlisted := hverdict.listed
  rw [hinactive] at hlisted
  obtain ⟨i, rest, ⟨x, hx, hname⟩, hrest, rfl⟩ := List.forall₂_cons_right_iff.mp hlisted
  obtain rfl := List.forall₂_nil_right_iff.mp hrest
  have hi : i = 1 := by
    have hlt : i < 2 := (List.getElem?_eq_some_iff.mp hx).1
    rcases (by omega : i = 0 ∨ i = 1) with rfl | rfl
    · cases hx
      exact absurd hname (by decide)
    · rfl
  subst hi
  exact ⟨s, results, s', hrun, hnone, hinactive, hsolve,
    (hkept _ .refl).2 results s' hsolve _ List.mem_cons_self⟩

/-- A soft constraint without a value. -/
def hopeless : Partition := ⟨[ruling 1 "odd" Generator.shiftedNothing true], ∅⟩

/-- A soft constraint without a value: no values satisfy it, and yet it is not inactive.  And hard
    constraints that fit together, but have no solver with more buckets than a manager may have. -/
theorem analysis_overlooks :
    (∃ s, build (.empty 0) 4 {} hopeless 1 = .ok (.ok s) ∧
      Satisfiable (hopeless.hards ++ (boundsOnSizes (.empty 0) hopeless.scalars 1000).values) ∧
      (∃ x, hopeless.constraints = [x] ∧ x.soft = true ∧ ¬ Satisfiable (hopeless.hards ++
        (boundsOnSizes (.empty 0) hopeless.scalars 1000).values ++ [x.expr])) ∧
      s.inactiveSofts = []) ∧
    Satisfiable (rivals.hards ++ (boundsOnSizes coins rivals.scalars 1000).values) ∧
      build coins 32 {} rivals 1 = .error .managerBits := by
  refine ⟨?_, satisfiable_rivals, eq_error_of_fault? (by decide +kernel)⟩
  obtain ⟨s, hrun, htest⟩ := exists_of_attempted?_any (x := build (.empty 0) 4 {} hopeless 1)
    (p := fun s => s.inactiveSofts.isEmpty) (by decide +kernel)
  have hbase : hopeless.hards ++ (boundsOnSizes (.empty 0) hopeless.scalars 1000).values = [] :=
    rfl
  rw [hbase]
  refine ⟨s, hrun, ⟨fun _ => 0, by simp [Expr.AllHold]⟩, ⟨_, rfl, rfl, ?_⟩, by simpa using htest⟩
  rintro ⟨env, henv⟩
  exact Generator.not_holds_shiftedNothing env (henv _ (by simp [ruling]))

end PartitionSolver

/-! ## §4 Partitions without their soft constraints -/

namespace Partition

/-- The partition without its soft constraints. -/
def bare (p : Partition) : Partition :=
  let constraints := p.constraints.filter (!·.soft)
  ⟨constraints, constraints.foldl joinSupport ∅⟩

section

variable {p : Partition} {c : Context} {max : Nat} {env : Nat → Nat}

theorem hards_bare (p : Partition) : p.bare.hards = p.hards := by
  unfold hards bare
  rw [List.filter_filter]
  congr 2
  funext x
  unfold Constraint.isHard
  cases x.soft <;> simp

theorem softs_bare (p : Partition) : p.bare.softs = [] := by
  unfold softs bare
  rw [List.map_eq_nil_iff, List.filter_eq_nil_iff]
  intro x hx
  have hhard := (List.mem_filter.mp hx).2
  simp_all

theorem mentions_of_bare {id : Nat} {sort : BitSort} (h : p.bare.Mentions id sort) :
    p.Mentions id sort := by
  obtain ⟨x, hx, hmention⟩ := h
  exact ⟨x, (List.mem_filter.mp hx).1, hmention⟩

theorem mentions_bare_of_hards {e : Expr} (he : e ∈ p.hards) {id : Nat} {sort : BitSort}
    (hmention : e.Mentions id sort) : p.bare.Mentions id sort := by
  rw [← p.hards_bare] at he
  obtain ⟨x, hx, -, rfl⟩ := mem_hards.mp he
  exact ⟨x, hx, hmention⟩

theorem Posed.bare {Γ : Signature} (h : p.Posed Γ) : p.bare.Posed Γ :=
  fun x hx => h x (List.mem_filter.mp hx).1

/-- A solution of the partition is one of what is left without its soft constraints. -/
theorem SolvedBy.bare (h : p.SolvedBy c max env) : p.bare.SolvedBy c max env where
  hards := p.hards_bare.symm ▸ h.hards
  sizes id entry hid hmention := h.sizes id entry hid (hmention.imp fun _ => mentions_of_bare)
  references id cell hid hrole hmention :=
    h.references id cell hid hrole (hmention.imp fun _ => mentions_of_bare)

/-- Variables that only soft constraints have may be given the value of a reference, or nought. -/
theorem SolvedBy.of_bare (h : p.bare.SolvedBy c max env) (hc : c.WellFormed) :
    ∃ env', p.SolvedBy c max env' := by
  classical
  -- The hard constraints and the bounds that count have only variables of the bare partition.
  let env' (id : Nat) : Nat :=
    if ∃ sort, p.bare.Mentions id sort then env id else if c.isRandom id then 0 else c.bits id
  have hkept (id : Nat) (hmention : ∃ sort, p.bare.Mentions id sort) : env' id = env id :=
    if_pos hmention
  refine ⟨env', fun e he => ?_, fun id entry hid _ => ?_, fun id cell hid hrole _ => ?_⟩
  · refine (Expr.holds_congr fun id sort hmention => ?_).mp
      (h.hards e (p.hards_bare.symm ▸ he))
    rw [hkept id ⟨sort, mentions_bare_of_hards he hmention⟩]
  · by_cases hmention : ∃ sort, p.bare.Mentions entry.size.id sort
    · rw [hkept _ hmention]
      exact h.sizes id entry hid hmention
    · obtain ⟨bits, hcell⟩ := hc.size_cell id entry hid
      rw [hc.size_next id entry hid] at hmention ⊢
      have hrandom : c.isRandom (id + 1) = true := Context.isRandom_iff.mpr ⟨_, hcell, rfl⟩
      have hnought : env' (id + 1) = 0 := by simp [env', hmention, hrandom]
      simp [hnought]
  · by_cases hmention : ∃ sort, p.bare.Mentions id sort
    · rw [hkept _ hmention]
      exact h.references id cell hid hrole hmention
    · have hfixed : c.isRandom id = false := by simp [Context.isRandom, hid, hrole]
      have hvalue : env' id = cell.bits := by simp [env', hmention, hfixed, Context.bits, hid]
      rw [hvalue, Nat.mod_eq_of_lt (hc.reference_lt id cell hid hrole)]

/-- No constraint of the partition has a reference. -/
def Unreferenced (p : Partition) (c : Context) : Prop :=
  ∀ (id : Nat) (cell : Cell), c.cells[id]? = some cell → cell.role = .reference →
    ¬ ∃ sort, p.Mentions id sort

end

end Partition

namespace PartitionSolver

section

variable {s : PartitionSolver} {c : Context} {p : Partition} {max : Nat} {kept softs : List Expr}

/-- An analysis commits to the soft constraints that are not on record as inactive, and these fit
    with the hard constraints and the bounds if anything does. -/
theorem exists_commitments (h : s.Settled c p max kept softs)
    (hanalysed : s.Analysed p s.bounds.values kept softs) :
    ∃ dropped, s.inactiveSofts = dropped.map (p.softNames.getD · "") ∧
      kept ++ softs = without dropped p.softs ∧ (Satisfiable (p.hards ++ s.bounds.values) →
        Satisfiable (p.hards ++ s.bounds.values ++ (kept ++ softs))) := by
  by_cases hnone : s.contradictions = []
  · obtain ⟨rfl, dropped, hsifts, rfl, hinactive⟩ := hanalysed.sifted hnone
    exact ⟨dropped, hinactive, List.append_nil _, by simpa using hsifts.satisfiable⟩
  · obtain ⟨rfl, rfl, hinactive⟩ := hanalysed.untouched hnone
    exact ⟨[], hinactive, by simp [without], fun hsat => absurd hsat (h.poses.contradictions hnone)⟩

/-- Without references in the partition, commitments that fit do not cost a solution. -/
theorem Serves.exists_solution (h : Serves ⟨c, s⟩ p max kept softs) (hfree : p.Unreferenced c)
    (hfits : Satisfiable (p.hards ++ s.bounds.values) →
      Satisfiable (p.hards ++ s.bounds.values ++ (kept ++ softs)))
    (hsolved : ∃ env, p.SolvedBy c max env) :
    ∃ env, p.SolvedBy c max env ∧ Expr.AllHold env (kept ++ softs) := by
  obtain ⟨env, hsolved⟩ := hsolved
  -- The solution may not meet the commitments, but another environment meets them with the rest.
  have hposed := (h.settled.bounds.solvedBy_iff h.wellFormed h.posed).mp hsolved
  obtain ⟨env', henv'⟩ := hfits ⟨env, (Expr.allHold_append.mp hposed).2⟩
  obtain ⟨hbase, hcommitted⟩ := Expr.allHold_append.mp henv'
  have hgivens : Expr.AllHold env' (givens c p.scalars) :=
    (allHold_givens h.wellFormed h.posed.declared).mpr fun id cell hid hrole hmention =>
      absurd hmention (hfree id cell hid hrole)
  exact ⟨env', (h.settled.bounds.solvedBy_iff h.wellFormed h.posed).mpr
    (Expr.allHold_append.mpr ⟨hgivens, hbase⟩), hcommitted⟩

/-- Without soft constraints there is nothing to commit to. -/
theorem serves_of_bare {t : InContext PartitionSolver} {settings : Settings}
    {storageBits seed : Nat} (hc : c.WellFormed) (hp : p.Posed c.signature)
    (hanalysis : settings.bypassAnalysis = false)
    (hbuild : build c storageBits settings p.bare seed = .ok (.ok s))
    (hrun : ReflTransGen Advances ⟨c, s⟩ t) : Serves t p.bare settings.maxVectorSize [] [] := by
  obtain ⟨-, kept, softs, hsettled, hanalysed⟩ := (build_settles hc hp.bare
    (fun hs : False => hs.elim) nofun nofun seed).of_run hbuild
  rw [hanalysis, if_neg Bool.false_ne_true] at hanalysed
  have hsub := hanalysed.subset
  obtain ⟨rfl, rfl⟩ : kept = [] ∧ softs = [] := by
    rw [p.softs_bare] at hsub
    simpa using hsub
  exact (serves_of_run hrun hsub ⟨hc, hp.bare, hsettled⟩).1

/-- Solvers of a partition with and without its soft constraints, asked at any time with the same
    values of the references.  Without them there is an answer exactly if the partition has a
    solution.  With them this solution has to meet all that an analysis has kept.  So where no
    reference is in the partition, soft constraints never cost an answer. -/
theorem solve_beside_bare {settings : Settings} {storageBits : Nat} (hc : c.WellFormed)
    (hp : p.Posed c.signature) (hmany : p.constraints.length < 2 ^ 31)
    (hanalysis : settings.bypassAnalysis = false) (seed : Nat) :
    Attempts (build c storageBits settings p seed)
      (Stuck (storageBits ≤ 31 ∧ c.cells.size < slotLimit)) (fun _ => False) fun s =>
      ∃ dropped, s.inactiveSofts = dropped.map (p.softNames.getD · "") ∧
        ∀ seed₀ s₀, build c storageBits settings p.bare seed₀ = .ok (.ok s₀) →
          ∀ t t₀, ReflTransGen Advances ⟨c, s⟩ t → ReflTransGen Advances ⟨c, s₀⟩ t₀ →
            t₀.context.Keeps t.context →
              ∀ answer₀ s₀', solve t₀.context t₀.item = .ok (answer₀, s₀') →
                (answer₀.isSome = true ↔ ∃ env, p.SolvedBy t.context settings.maxVectorSize env) ∧
                Ensures (solve t.context) t.item (Stuck (t.context.cells.size < slotLimit))
                  fun answer _ =>
                    (answer.isSome = true ↔ ∃ env, p.SolvedBy t.context settings.maxVectorSize env ∧
                      Expr.AllHold env (without dropped p.softs)) ∧
                    (p.Unreferenced t.context → answer₀.isSome = true → answer.isSome = true) := by
  have hhards : p.hards.length < 2 ^ 31 := p.length_hards_le.trans_lt hmany
  refine (build_settles hc hp
    (fun hs : storageBits ≤ 31 ∧ c.cells.size < slotLimit => few_signature hs.2) (fun hs => hs.1)
    (fun _ => .inl hhards) seed).imp (fun _ hf => hf) (fun _ hr => hr) ?_
  rintro s ⟨-, kept, softs, hsettled, hanalysed⟩
  rw [hanalysis, if_neg Bool.false_ne_true] at hanalysed
  have hsub := hanalysed.subset
  obtain ⟨dropped, hinactive, hcommitments, hfits⟩ := exists_commitments hsettled hanalysed
  refine ⟨dropped, hinactive, ?_⟩
  rintro seed₀ s₀ hbuild ⟨c', s'⟩ ⟨c₀, s₁⟩ hrun hrun₀ hkeeps answer₀ s₂ hsolve
  obtain ⟨hserves, hsame⟩ := serves_of_run hrun hsub ⟨hc, hp, hsettled⟩
  have hserves₀ := serves_of_bare hc hp hanalysis hbuild hrun₀
  -- Both ask for solutions with the same values of the references.
  have hbare : answer₀.isSome = true ↔ ∃ env, p.SolvedBy c' settings.maxVectorSize env := by
    have hresolves := ((hserves₀.resolves (by simp) False nofun).of_run hsolve).2
    rw [hresolves.isSome_iff]
    constructor
    · rintro ⟨env, hsolved, -⟩
      exact (hsolved.keeps hkeeps).of_bare hserves.wellFormed
    · rintro ⟨env, hsolved⟩
      exact ⟨env, hsolved.bare.keeps_back hkeeps, by simp [Expr.AllHold]⟩
  refine ⟨hbare, (hserves.resolves hsub _ few_signature).mono ?_⟩
  rintro answer s₃ ⟨-, hresolves⟩
  rw [← hcommitments, hresolves.isSome_iff]
  refine ⟨Iff.rfl, fun hfree hanswer₀ => ?_⟩
  -- The bounds are still those that the analysis was made with.
  rw [← hsame.bounds_eq] at hfits
  exact hserves.exists_solution hfree hfits (hbare.mp hanswer₀)

end

theorem unreferenced_coins : rivals.Unreferenced coins := by
  intro id cell hid hrole
  have hnone : coins.references = [] := rfl
  have hmem := mem_references.mpr ⟨cell, hid, hrole, rfl⟩
  rw [hnone] at hmem
  cases hmem

/-- Without their wishes the rivals have a solution.  Their wishes do not cost it: there is still
one that meets the wish that was kept. -/
theorem solve_beside_bare_of_rivals : ∃ s s₀ results₀ s₀' results s',
    build coins 4 {} rivals 1 = .ok (.ok s) ∧ build coins 4 {} rivals.bare 1 = .ok (.ok s₀) ∧
    solve coins s₀ = .ok (some results₀, s₀') ∧ solve coins s = .ok (some results, s') ∧
    ∃ dropped, s.inactiveSofts = dropped.map (rivals.softNames.getD · "") ∧
      ∃ env, rivals.SolvedBy coins 1000 env ∧ Expr.AllHold env (without dropped rivals.softs) := by
  obtain ⟨s, answer, s', hrun, -, hsolve, -⟩ := built_rivals
  obtain ⟨s₀, hrun₀, htest⟩ := exists_of_attempted?_any (x := build coins 4 {} rivals.bare 1)
    (p := fun s₀ => (solve coins s₀).toOption.any fun q => q.1.isSome) (by decide +kernel)
  obtain ⟨⟨answer₀, s₀'⟩, hsolve₀, hsome⟩ := exists_of_toOption_any htest
  obtain ⟨results₀, rfl⟩ := Option.isSome_iff_exists.mp hsome
  obtain ⟨dropped, hinactive, hbeside⟩ := (@solve_beside_bare coins rivals {} 4
    wellFormed_coins posed_rivals (by decide) rfl 1).of_run hrun
  obtain ⟨-, hanswers⟩ := hbeside 1 s₀ hrun₀ _ _ .refl .refl (.refl coins) _ s₀' hsolve₀
  -- The solver without wishes has answered, so the one with wishes answers as well.
  obtain ⟨hmet, hfree⟩ := hanswers.of_run hsolve
  have hanswered := hfree unreferenced_coins rfl
  obtain ⟨results, rfl⟩ := Option.isSome_iff_exists.mp hanswered
  exact ⟨s, s₀, results₀, s₀', results, s', hrun, hrun₀, hsolve₀, hsolve, dropped, hinactive,
    hmet.mp rfl⟩

/-- A soft constraint that asks for another value than a reference has. -/
def wishful : Partition where
  constraints := [ruling 1 "seven" ((Expr.var 1 (.unsigned 8)).equalTo 7) true]
  support := .ofList [1]

/-- The wish fits as long as the value of the reference is not known, and it costs the solution.
And with more buckets than a manager may have there is no solver at all. -/
theorem soft_costs_solution : ∃ c s s' s₀ results s₀',
    c = (Context.refer (.int .bits8 false) 5 (.empty 0)).2 ∧
    build c 4 {} wishful 1 = .ok (.ok s) ∧ build c 4 {} wishful.bare 1 = .ok (.ok s₀) ∧
      solve c s₀ = .ok (some results, s₀') ∧ solve c s = .ok (none, s') ∧
      build c 32 {} wishful 1 = .error .managerBits := by
  let c := (Context.refer (.int .bits8 false) 5 (.empty 0)).2
  obtain ⟨s, hrun, htest⟩ := exists_of_attempted?_any (x := build c 4 {} wishful 1)
    (p := fun s => (solve c s).toOption.any fun q => q.1.isNone) (by decide +kernel)
  obtain ⟨⟨answer, s'⟩, hsolve, hnone⟩ := exists_of_toOption_any htest
  obtain rfl := Option.isNone_iff_eq_none.mp hnone
  obtain ⟨s₀, hrun₀, htest⟩ := exists_of_attempted?_any (x := build c 4 {} wishful.bare 1)
    (p := fun s₀ => (solve c s₀).toOption.any fun q => q.1.isSome) (by decide +kernel)
  obtain ⟨⟨answer, s₀'⟩, hsolve₀, hsome⟩ := exists_of_toOption_any htest
  obtain ⟨results, rfl⟩ := Option.isSome_iff_exists.mp hsome
  exact ⟨c, s, s', s₀, results, s₀', rfl, hrun, hrun₀, hsolve₀, hsolve,
    eq_error_of_fault? (by decide +kernel)⟩

end PartitionSolver

end Stimulus
