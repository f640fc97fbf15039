import Stimulus.Proofs.Generator.Soundness

/-!
# Solutions are complete

Without soft constraints and constraints on vectors a solve succeeds exactly if one assignment of
all variables satisfies everything at once, as long as nodes and words do not run out.  The solver
never looks at all constraints together: it solves the partitions one by one, and a solution of each
of them gives one of the whole, because what a partition says depends on its own variables only.

Main definitions:
- `Generator.Solves`: what an assignment satisfies
- `Generator.RunsOut`: when nodes or words run out

Main statements:
- `Generator.next_iff_of_reached`
- `Generator.next_iff_fails`
-/

namespace Stimulus

namespace Context

variable {c : Context} {env : Nat → Nat} {id : Nat} {cell : Cell}

/-- The values of declared variables, cut to their widths. -/
def fit (c : Context) (env : Nat → Nat) (id : Nat) : Nat :=
  (c.cells[id]?.map fun cell => env id % 2 ^ cell.type.sort.width).getD 0

theorem fit_of_cell (h : c.cells[id]? = some cell) :
    c.fit env id = env id % 2 ^ cell.type.sort.width := by
  rw [fit, h]
  rfl

theorem fit_lt (h : c.cells[id]? = some cell) : c.fit env id < 2 ^ cell.type.sort.width := by
  rw [fit_of_cell h]
  exact Nat.mod_lt _ (Nat.two_pow_pos _)

end Context

namespace Generator

section

variable {settings : Settings} {storageBits : Nat} {s s' : InContext Generator}

/-! ## §1 Solutions are complete -/

/-- An assignment of all variables that satisfies everything at once: the active hard constraints,
    the references that active constraints read at their current values, and the maximal size for
    every vector whose size variable occurs in an active constraint. -/
structure Solves (s : InContext Generator) (max : Nat) (env : Nat → Nat) : Prop where
  width : ∀ (id : Nat) (cell : Cell), s.context.cells[id]? = some cell →
    env id < 2 ^ cell.type.sort.width
  hards : ∀ x ∈ s.item.registry.active, x.isHard = true → x.expr.Holds env
  references : ∀ (id : Nat) (cell : Cell), s.context.cells[id]? = some cell →
    cell.role = .reference → ∀ x ∈ s.item.registry.active, ∀ sort, x.expr.Mentions id sort →
      env id = cell.bits
  sizes : ∀ (id : Nat) (entry : VectorEntry), s.context.vectors[id]? = some entry →
    ∀ x ∈ s.item.registry.active, ∀ sort, x.expr.Mentions entry.size.id sort →
      env entry.size.id ≤ max

/-- The next solve runs out of nodes or words, possibly in a worker that builds the solver of a
    partition from the seed drawn for it. -/
def RunsOut (settings : Settings) (storageBits : Nat) (s : InContext Generator) : Prop :=
  ∃ fault, next s = .error fault ∧ (fault.Exhausts ∨ fault = .workerFailed ∧
    ∃ seeds plain, Ensemble.seedsFor (partitionPool s.item.registry.scalars) s.item.plain =
      .ok (.ok seeds, plain) ∧ ∃ x ∈ (partitionPool s.item.registry.scalars).zip seeds, ∃ fault',
        PartitionSolver.build s.context storageBits settings x.1 x.2 = .error fault' ∧
          fault'.Exhausts)

/-- The part of an assignment that concerns one partition. -/
theorem Solves.solvedBy {env : Nat → Nat} (h : Solves s settings.maxVectorSize env)
    (hfounded : Founded settings storageBits s) {p : Partition}
    (hp : p ∈ partitionPool s.item.registry.active) :
    p.SolvedBy s.context settings.maxVectorSize env where
  hards e he := by
    obtain ⟨x, hx, hhard, rfl⟩ := Partition.mem_hards.mp he
    exact h.hards x ((split_partitionPool _).mem_pool hp hx) hhard
  sizes id entry hid := by
    rintro ⟨sort, x, hx, hmention⟩
    have hle := h.sizes id entry hid x ((split_partitionPool _).mem_pool hp hx) sort hmention
    omega
  references id cell hid hrole := by
    rintro ⟨sort, x, hx, hmention⟩
    rw [h.references id cell hid hrole x ((split_partitionPool _).mem_pool hp hx) sort hmention]
    exact Nat.mod_eq_of_lt (hfounded.wellFormed.reference_lt id cell hid hrole)

/-- Without soft constraints and constraints on vectors, everything is solvable that one assignment
    satisfies at once. -/
theorem Solves.solvable {env : Nat → Nat} (h : Solves s settings.maxVectorSize env)
    (hfounded : Founded settings storageBits s)
    (hsofts : ∀ x ∈ s.item.registry.active, x.soft = false)
    (hvectors : ∀ x ∈ s.item.registry.active, x.isVector = false)
    (hdefault : ∀ (id : Nat) (entry : VectorEntry), s.context.vectors[id]? = some entry →
      (∀ x ∈ s.item.registry.active, ∀ sort, ¬ x.expr.Mentions entry.size.id sort) →
        settings.defaultVectorSize < 2 ^ 60) :
    Solvable settings s.item.registry.scalars s.context := by
  rw [Registry.scalars_eq_active hvectors]
  exact ⟨hsofts, fun p hp => ⟨env, h.solvedBy hfounded hp⟩, hdefault⟩

/-- After a solve the values in the context are such an assignment, as far as variables reach. -/
theorem Satisfied.solves {c : Context}
    (h : Satisfied settings.maxVectorSize s.item.registry.scalars c)
    (hfounded : Founded settings storageBits s) (hkeeps : s.context.Keeps c)
    (hvectors : ∀ x ∈ s.item.registry.active, x.isVector = false) :
    Solves s settings.maxVectorSize (s.context.fit c.bits) := by
  have hscalars := Registry.scalars_eq_active hvectors
  refine ⟨fun id cell hid => Context.fit_lt hid, fun x hx hhard => ?_,
    fun id cell hid hrole _ _ _ _ => ?_, fun id entry hid x hx sort hmention => ?_⟩
  · -- The constraint holds of what is stored, and is asked of the stored bits cut to the widths.
    have hholds := h.hards x (hscalars ▸ hx) hhard
    refine (Expr.holds_congr fun id sort hmention => ?_).mp hholds
    have hwritten := hfounded.written x (List.mem_filter.mp hx).1
    have hsort := (hwritten.admits (hvectors x hx)).declared id sort hmention
    obtain ⟨cell, hcell, rfl⟩ := Option.map_eq_some_iff.mp hsort
    rw [Context.fit_of_cell hcell, Nat.mod_mod]
  · -- A reference is not assigned, so it still has the value from before.
    have hkept := hkeeps.references id cell hid hrole
    rw [Context.fit_of_cell hid, Context.bits, hkept]
    exact Nat.mod_eq_of_lt (hfounded.wellFormed.reference_lt id cell hid hrole)
  · -- The size that was chosen is within the bound, and cutting makes it no larger.
    obtain ⟨contents, hcontents⟩ := hkeeps.vector hid
    have hle := h.sizes id _ hcontents x (hscalars ▸ hx) sort hmention
    obtain ⟨bits, hcell⟩ := hfounded.wellFormed.size_cell id entry hid
    rw [hfounded.wellFormed.size_next id entry hid] at hle ⊢
    rw [Context.fit_of_cell hcell]
    exact (Nat.mod_le _ _).trans (hle.trans (Nat.min_le_left _ _))

/-- Without soft constraints and constraints on vectors, a solve succeeds exactly if one assignment
    satisfies everything at once. -/
theorem next_iff_of_reached (h : Reached settings storageBits s)
    (hsofts : ∀ x ∈ s.item.registry.active, x.soft = false)
    (hvectors : ∀ x ∈ s.item.registry.active, x.isVector = false)
    (hfew : s.context.cells.size < 65536) (hbits : storageBits ≤ 31)
    (hdefault : ∀ (id : Nat) (entry : VectorEntry), s.context.vectors[id]? = some entry →
      (∀ x ∈ s.item.registry.active, ∀ sort, ¬ x.expr.Mentions entry.size.id sort) →
        settings.defaultVectorSize < 2 ^ 60)
    (hruns : ¬ RunsOut settings storageBits s) :
    (∃ s', next s = .ok (.ok true, s')) ↔ ∃ env, Solves s settings.maxVectorSize env := by
  constructor
  · -- A solve that succeeds leaves its solution in the variables.
    rintro ⟨s', hrun⟩
    obtain ⟨-, -, hkeeps, -, hsatisfied⟩ :=
      (next_grants False h.founded nofun nofun nofun nofun).of_run hrun
    exact ⟨_, (hsatisfied rfl).solves h.founded hkeeps hvectors⟩
  · -- Conversely a solution leaves no way out but success: the faults are those that are excluded.
    rintro ⟨env, henv⟩
    have hnone : s.item.registry.onVectors = [] :=
      List.filter_eq_nil_iff.mpr fun x hx => by simp [hvectors x hx]
    have hnext := next_grants True h.founded (fun _ => few_signature hfew) (fun _ => hbits)
      (fun _ => hnone) fun _ => henv.solvable h.founded hsofts hvectors hdefault
    unfold Grants at hnext
    cases hrun : next s with
    | error fault =>
      rw [hrun] at hnext
      exact absurd ⟨fault, hrun, hnext trivial⟩ hruns
    | ok r =>
      rw [hrun] at hnext
      obtain ⟨refusal | solved, s'⟩ := r
      · exact absurd trivial hnext.1
      · cases hnext.2.2.2.1 trivial
        exact ⟨s', rfl⟩

/-- Constraints without variables that hold are satisfied at once. -/
theorem exists_solves_of_closed {max : Nat}
    (hhards : ∀ x ∈ s.item.registry.active, x.isHard = true → ∀ env, x.expr.Holds env)
    (hclosed : ∀ x ∈ s.item.registry.active, ∀ id sort, ¬ x.expr.Mentions id sort) :
    ∃ env, Solves s max env :=
  ⟨s.context.fit fun _ => 0, {
    width := fun _ _ hid => Context.fit_lt hid
    hards := fun x hx hhard => hhards x hx hhard _
    references := fun id _ _ _ x hx sort hmention => absurd hmention (hclosed x hx id sort)
    sizes := fun _ entry _ x hx sort hmention => absurd hmention (hclosed x hx entry.size.id sort) }⟩

end

theorem holds_oneLessTwo (env : Nat → Nat) : oneLessTwo.Holds env := ⟨_, rfl, by decide⟩

/-- A solve of two partitions. -/
theorem next_iff_after_start :
    ∃ s, Reached { seed := some 1 } 4 s ∧ s.item.registry.active.map Constraint.expr = flags ∧
      (∃ s', next s = .ok (.ok true, s')) ∧
      ((∃ s', next s = .ok (.ok true, s')) ↔
        ∃ env, Solves s (Settings.maxVectorSize { seed := some 1 }) env) := by
  obtain ⟨s, hrun, htest⟩ := exists_of_toOption_any
    (x := started { seed := some 1 } 4 flagged flags)
    (p := fun s => decide (answer? (next s) = some true) &&
      decide (s.item.registry.active.map Constraint.expr = flags) &&
      s.item.registry.active.all (fun x => !x.soft && !x.isVector) &&
        decide (s.context.cells.size < 65536)) (by decide +kernel)
  simp only [Bool.and_eq_true, decide_eq_true_eq, List.all_eq_true, Bool.not_eq_true'] at htest
  obtain ⟨⟨⟨hanswer, hactive⟩, hkinds⟩, hfew⟩ := htest
  obtain ⟨s', hnext⟩ := exists_of_answer? hanswer
  have hreached := reached_started reached_flagged writes_flags hrun
  refine ⟨s, hreached, hactive, ⟨s', hnext⟩, ?_⟩
  refine next_iff_of_reached hreached (fun x hx => (hkinds x hx).1) (fun x hx => (hkinds x hx).2)
    hfew (by decide) (fun _ _ _ _ => by decide) ?_
  rintro ⟨fault, hfault, -⟩
  cases hnext.symm.trans hfault

/-- Runs in which a solve fails or succeeds against the constraints: with more buckets than a
    manager may have, with vectors larger than memory, and with a constraint that has no value. -/
theorem next_iff_fails :
    (∃ s, started { seed := some 1 } 32 sample [oneLessTwo] = .ok s ∧
      next s = .error .managerBits ∧
        ∃ env, Solves s (Settings.maxVectorSize { seed := some 1 }) env) ∧
    (∃ s, started { defaultVectorSize := 2 ^ 60, seed := some 1 } 4 sample [] = .ok s ∧
      next s = .error .tooManyElements ∧
        ∃ env, Solves s (Settings.maxVectorSize { seed := some 1 }) env) ∧
    ∃ s s', started { seed := some 1 } 4 sample [shiftedNothing] = .ok s ∧
      next s = .ok (.ok true, s') ∧
        ¬ ∃ env, Solves s (Settings.maxVectorSize { seed := some 1 }) env := by
  -- One run for each of the three conditions: bits of storage, default size, shift of no bits.
  refine ⟨?_, ?_, ?_⟩
  · obtain ⟨s, hrun, htest⟩ := exists_of_toOption_any
      (x := started { seed := some 1 } 32 sample [oneLessTwo])
      (p := fun s => decide (fault? (next s) = some .managerBits) &&
        s.item.registry.active.all fun x => decide (x.expr = oneLessTwo)) (by decide +kernel)
    simp only [Bool.and_eq_true, decide_eq_true_eq, List.all_eq_true] at htest
    obtain ⟨hfault, hactive⟩ := htest
    refine ⟨s, hrun, eq_error_of_fault? hfault, exists_solves_of_closed ?_ ?_⟩
    · exact fun x hx _ env => hactive x hx ▸ holds_oneLessTwo env
    · exact fun x hx id sort => hactive x hx ▸ by simp [oneLessTwo]
  · obtain ⟨s, hrun, htest⟩ := exists_of_toOption_any
      (x := started { defaultVectorSize := 2 ^ 60, seed := some 1 } 4 sample [])
      (p := fun s => decide (fault? (next s) = some .tooManyElements) &&
        s.item.registry.active.isEmpty) (by decide +kernel)
    simp only [Bool.and_eq_true, decide_eq_true_eq, List.isEmpty_iff] at htest
    obtain ⟨hfault, hactive⟩ := htest
    refine ⟨s, hrun, eq_error_of_fault? hfault, exists_solves_of_closed ?_ ?_⟩ <;>
      exact fun x hx => absurd hx (hactive ▸ List.not_mem_nil)
  · obtain ⟨s, s', hrun, hnext, x, hx, hhard, -, hexpr⟩ := solved_shiftedNothing
    refine ⟨s, s', hrun, hnext, ?_⟩
    rintro ⟨env, henv⟩
    exact not_holds_shiftedNothing env (hexpr ▸ henv.hards x hx hhard)

end Generator

end Stimulus
