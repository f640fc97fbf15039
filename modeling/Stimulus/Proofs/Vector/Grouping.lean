import Stimulus.Proofs.Vector.Solver

/-!
# The constraints of vectors

A stage groups its constraints by the vector that they are about, in the order in which they are
given.  Solving makes symbols for elements and stores values, and it leaves the groups as they are.

Main definitions:
- `VectorStage.constraintsOn`: the constraints of one vector
- `VectorStage.Groups`: the solvers of a stage have given constraints

Main statements:
- `VectorStage.groups_reset`
- `VectorStage.solve_keeps`
-/

namespace Stimulus

/-! ## §1 One vector -/

namespace VectorSolver

variable {I : VectorSolver → Prop} {cs : List Constraint}

theorem findModel_keeps (elements : Array Expr) :
    Preserves (findModel elements) fun s => I s.item.solver := by
  unfold findModel
  refine .bind .get fun s => .bind (.ofExcept _) fun (model, source) => ?_
  refine .bind (.modify fun _ hs => hs) fun _ => .bind (.ofAttempt _) fun (solved, model) => ?_
  exact .pure _

/-- Nothing but new symbols changes the solver of a vector. -/
theorem solve_preserves (read : Reading)
    (hgrow : ∀ size elem, Preserves (grow size elem) fun s => I s.item.solver) :
    Preserves (solve read) fun s => I s.item.solver := by
  unfold solve
  refine .bind .get fun ⟨c, work⟩ => ?_
  dsimp only
  cases c.vectors[work.solver.vectorId]? with
  | none => exact .pure _
  | some entry =>
    refine .bind (.ofExcept _) fun size => ?_
    split
    · exact .throw_bind _ _
    refine .bind (hgrow size entry.elem) fun elements => ?_
    refine .bind (findModel_keeps elements) fun model => ?_
    cases model with
    | none => exact .pure _
    | some model =>
      refine .bind (.ofExcept _) fun (values, rng) => ?_
      exact .bind (.modify fun _ hs => hs) fun _ => .pure _

/-- A vector keeps its constraints. -/
theorem solve_keeps (read : Reading) :
    Preserves (solve read) fun s => s.item.solver.constraints = cs := by
  refine solve_preserves (I := fun solver => solver.constraints = cs) read fun size elem => ?_
  unfold grow
  refine .bind .get fun s => .bind (fun _ hs => hs) fun elements => ?_
  exact .bind (.modify fun _ hs => hs) fun _ => .pure _

end VectorSolver

/-! ## §2 All vectors -/

namespace VectorStage

/-- The constraints of a vector that has a solver. -/
def constraintsOn (solvers : Std.TreeMap Nat VectorSolver) (id : Nat) : List Constraint :=
  (solvers[id]?.map VectorSolver.constraints).getD []

/-- The solvers have the given constraints, each at the vector that it is about. -/
def Groups (solvers : Std.TreeMap Nat VectorSolver) (cs : List Constraint) : Prop :=
  ∀ id, constraintsOn solvers id = cs.filter fun c => c.vectorId? = some id

section

variable {solvers : Std.TreeMap Nat VectorSolver} {cs : List Constraint} {x : Constraint}

theorem groups_empty : Groups ∅ [] := fun id => by simp [constraintsOn]

theorem constraintsOn_insert (solvers : Std.TreeMap Nat VectorSolver) (id : Nat)
    (solver : VectorSolver) (id' : Nat) :
    constraintsOn (solvers.insert id solver) id' =
      if id = id' then solver.constraints else constraintsOn solvers id' := by
  unfold constraintsOn
  rw [getElem?_treeMap_insert]
  split <;> rfl

/-- A reset groups the constraints. -/
theorem groups_reset (stage : VectorStage) (cs : List Constraint) :
    Groups (stage.reset cs).solvers cs := by
  -- One constraint goes behind those that its vector has so far.
  let file (solvers : Std.TreeMap Nat VectorSolver) (c : Constraint) :=
    c.vectorId?.elim solvers fun id => solvers.insert id ((solvers[id]?.getD (.empty id)).add c)
  have hfile (solvers : Std.TreeMap Nat VectorSolver) (c : Constraint) (id : Nat) :
      constraintsOn (file solvers c) id =
        constraintsOn solvers id ++ [c].filter fun c => c.vectorId? = some id := by
    dsimp only [file]
    cases hc : c.vectorId? with
    | none => simp [hc]
    | some id' =>
      rw [Option.elim_some, constraintsOn_insert]
      by_cases heq : id' = id
      · subst heq
        rw [if_pos rfl, List.filter_cons_of_pos (by simp [hc])]
        unfold constraintsOn VectorSolver.add
        cases solvers[id']? <;> simp [VectorSolver.empty]
      · rw [if_neg heq, List.filter_cons_of_neg (by simp [hc, heq])]
        simp
  have hreset : (stage.reset cs).solvers = cs.foldl file ∅ := by
    unfold reset
    dsimp only
    congr
    funext solvers c
    dsimp only [file]
    cases c.vectorId? <;> rfl
  suffices hall : ∀ (solvers : Std.TreeMap Nat VectorSolver) (id : Nat),
      constraintsOn (cs.foldl file solvers) id =
        constraintsOn solvers id ++ cs.filter fun c => c.vectorId? = some id by
    intro id
    rw [hreset, hall]
    rfl
  clear hreset
  -- The claim is made for any start, as filing goes through intermediate tables.
  intro solvers id
  induction cs generalizing solvers with
  | nil => simp
  | cons c cs ih =>
    rw [List.foldl_cons, ih, hfile, List.append_assoc, ← List.filter_append]
    rfl

/-- Every constraint on a vector has a solver that knows it. -/
theorem Groups.mem_iff (h : Groups solvers cs) :
    (∃ solver ∈ solvers.values, x ∈ solver.constraints) ↔ x ∈ cs ∧ x.vectorId?.isSome := by
  constructor
  · rintro ⟨solver, hsolver, hx⟩
    obtain ⟨id, hid⟩ := mem_values_treeMap.mp hsolver
    have hgroup := h id
    unfold constraintsOn at hgroup
    rw [hid] at hgroup
    have hmem : x ∈ cs.filter fun c => c.vectorId? = some id := hgroup ▸ hx
    obtain ⟨hx, hvector⟩ := List.mem_filter.mp hmem
    exact ⟨hx, by simp [of_decide_eq_true hvector]⟩
  · rintro ⟨hx, hvector⟩
    obtain ⟨id, hid⟩ := Option.isSome_iff_exists.mp hvector
    have hmem : x ∈ constraintsOn solvers id := by
      rw [h id]
      exact List.mem_filter.mpr ⟨hx, by simp [hid]⟩
    unfold constraintsOn at hmem
    cases hsolver : solvers[id]? with
    | none => simp [hsolver] at hmem
    | some solver =>
      rw [hsolver] at hmem
      exact ⟨solver, mem_values_treeMap.mpr ⟨id, hsolver⟩, hmem⟩

theorem solveOne_keeps (read : Reading) (id : Nat) :
    Preserves (solveOne read id) fun s => Groups s.item.solvers cs := by
  intro s hs
  unfold Leaves Grants solveOne
  dsimp only
  cases hid : s.item.solvers[id]? with
  | none => exact hs
  | some solver =>
    dsimp only
    cases hrun : VectorSolver.solve read ⟨s.context, solver, s.item.source, s.item.rng⟩ with
    | error fault => trivial
    | ok r =>
      have hsame := (VectorSolver.solve_keeps read _ rfl).of_run hrun
      -- Only the solver that was asked is replaced.
      have hgroups : Groups (s.item.solvers.insert id r.2.item.solver) cs := by
        intro id'
        rw [constraintsOn_insert, ← hs id', hsame]
        split
        · rename_i heq
          rw [← heq, constraintsOn, hid]
          rfl
        · rfl
      obtain ⟨refusal | solved, c, work⟩ := r <;> exact hgroups

theorem solveEach_keeps (read : Reading) (ids : List Nat) :
    Preserves (solveEach read ids) fun s => Groups s.item.solvers cs := by
  induction ids with
  | nil => exact .pure _
  | cons id ids ih =>
    refine .bind (solveOne_keeps read id) fun solved => ?_
    cases solved with
    | false => exact .pure _
    | true => exact ih

theorem fill_keeps (read : Reading) (id : Nat) (entry : VectorEntry) :
    Preserves (fill read id entry) fun s => Groups s.item.solvers cs := by
  unfold fill
  refine .bind .get fun s => .bind (.ofExcept _) fun size => ?_
  split
  · exact .fault_bind _ _
  exact .bind (.ofExcept _) fun (values, rng) => .modify fun _ hs => hs

/-- Solving leaves the groups as they are. -/
theorem solve_keeps (read : Reading) :
    Preserves (solve read) fun s => Groups s.item.solvers cs := by
  unfold solve
  refine .bind .get fun s => .bind (solveEach_keeps read _) fun solved => ?_
  cases solved with
  | false => exact .pure _
  | true =>
    refine .bind .get fun ⟨c, stage⟩ => .bind (.forM fun (id, entry) => ?_) fun _ => .pure _
    dsimp only
    split
    · exact .pure _
    · exact fill_keeps read id entry

end

end VectorStage

end Stimulus
