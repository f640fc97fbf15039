import Stimulus.Proofs.Vector.Contents
import Stimulus.Proofs.Vector.Grouping
import Stimulus.Proofs.Vector.Length

/-!
# Constraints on vectors that have circuits

There is no circuit for vectors, elements and placeholders.  The instances of a constraint are free
of them if its body has none of them outside element accesses, the placeholder that is bound apart.
Then a vector is refused for its size only.

Main definitions:
- `Expr.Elementwise`: a body that needs its elements one by one
- `Expr.Instantiable`: a constraint whose instances have circuits
- `Clears`: a request that is not refused for want of a circuit
- `VectorSolver.Clear`, `VectorStage.Clear`: solvers with such constraints

Main statements:
- `Expr.instantiate_clear`
- `VectorSolver.solve_clears`, `VectorStage.solve_clears`
-/

namespace Stimulus

/-! ## §1 Instances -/

/-- The attempt has a result of the given kind, if it has one. -/
def Finds {α : Type} (x : ExceptT Skip (Except Fault) α) (Q : α → Prop) : Prop :=
  ∀ a, x.run = .ok (.ok a) → Q a

section

variable {α β : Type} {x : ExceptT Skip (Except Fault) α} {P : α → Prop} {Q : β → Prop}

theorem Finds.pure {a : α} (h : P a) : Finds (Pure.pure a) P := by
  intro b hb
  exact Except.ok.inj (Except.ok.inj hb) ▸ h

theorem Finds.throw (skip : Skip) : Finds (throwThe Skip skip) P := by
  intro a ha
  cases ha

theorem Finds.bind {k : α → ExceptT Skip (Except Fault) β} (h : Finds x P)
    (hk : ∀ a, P a → Finds (k a) Q) : Finds (x >>= k) Q := by
  intro b hb
  rw [ExceptT.run_bind] at hb
  match hx : x.run with
  | .error fault =>
    rw [hx] at hb
    cases hb
  | .ok (.error skip) =>
    rw [hx] at hb
    cases hb
  | .ok (.ok a) =>
    rw [hx] at hb
    exact hk a (h a hx) b hb

theorem Finds.ofExcept {x : Except Fault α} (h : ∀ a, x = .ok a → P a) :
    Finds (Fault.ofExcept x) P := by
  intro a ha
  cases x with
  | error fault => cases ha
  | ok b =>
    cases ha
    exact h a rfl

end

namespace Expr

/-- Outside element accesses the only placeholder is the given one, and there is neither a vector
nor a constraint on a whole vector. -/
def Elementwise (p : Nat) : Expr → Prop
  | .var _ _ => True
  | .const _ _ => True
  | .placeholder q => q = p
  | .vector _ _ => False
  | .element _ _ => True
  | .forEach _ _ _ => False
  | .unique _ => False
  | .unary _ arg => arg.Elementwise p
  | .inside arg _ => arg.Elementwise p
  | .extend arg _ => arg.Elementwise p
  | .slice arg _ _ => arg.Elementwise p
  | .ite cond yes no => cond.Elementwise p ∧ yes.Elementwise p ∧ no.Elementwise p
  | .binary _ lhs rhs => lhs.Elementwise p ∧ rhs.Elementwise p

/-- The instances of the expression have circuits, if it is a constraint on a whole vector. -/
def Instantiable : Expr → Prop
  | .forEach _ p body => body.Elementwise p
  | _ => True

section

variable {p i : Nat} {elements : Array Expr}

theorem checked_eq {e e' : Expr} (h : checked e = .ok e') : e = e' := by
  have hpassed (overflows : Bool)
      (hchecked : (if overflows then .error .overflow else .ok e : Except Fault Expr) = .ok e') :
      e = e' := by
    cases overflows with
    | true => cases hchecked
    | false => exact Except.ok.inj hchecked
  exact hpassed _ h

/-- An access is replaced by one of the symbols. -/
theorem elementNamed_finds (index : Expr) : Finds (elementNamed elements index) (· ∈ elements) := by
  unfold elementNamed
  refine Finds.bind (P := fun _ => True) (.ofExcept fun _ _ => trivial) fun k _ => ?_
  cases k with
  | none => exact .throw _
  | some k =>
    dsimp only
    split
    · exact .throw _
    · split
      · rename_i e he
        exact .pure (Array.mem_of_getElem? he)
      · exact .throw _

/-- The instances of an elementwise body need no vector. -/
theorem instantiate_clear {body : Expr} (h : body.Elementwise p)
    (helements : ∀ e ∈ elements, e.mentionsVector = false) :
    Finds (instantiate p i elements body) fun e => e.mentionsVector = false := by
  induction body with
  | var id s => exact .pure rfl
  | const bits s => exact .pure rfl
  | placeholder q =>
    have heq : q = p := h
    show Finds (Pure.pure (if q = p then constant i indexSort else placeholder q)) _
    rw [if_pos heq]
    exact .pure rfl
  | element v index _ _ =>
    -- Whatever the index is, nothing is left of it.
    refine Finds.bind (P := fun _ => True) (fun _ _ => trivial) fun v' _ => ?_
    refine Finds.bind (P := fun _ => True) (fun _ _ => trivial) fun index' _ => ?_
    intro e he
    exact helements e (elementNamed_finds index' e he)
  | unary op arg ih => exact (ih h).bind fun a ha => .pure (by simpa using ha)
  | inside arg set ih => exact (ih h).bind fun a ha => .pure (by simpa using ha)
  | extend arg extra ih =>
    refine (ih h).bind fun a ha => .ofExcept fun e he => ?_
    rw [← checked_eq he]
    simpa using ha
  | slice arg hi lo ih => exact (ih h).bind fun a ha => .pure (by simpa using ha)
  | ite cond yes no ihc iht ihe =>
    refine (ihc h.1).bind fun c hc => (iht h.2.1).bind fun t ht => (ihe h.2.2).bind fun f hf =>
      .ofExcept fun e he => ?_
    rw [← checked_eq he]
    simp [hc, ht, hf]
  | binary op lhs rhs ihl ihr =>
    refine (ihl h.1).bind fun l hl => (ihr h.2).bind fun r hr => .ofExcept fun e he => ?_
    rw [← checked_eq he]
    simp [hl, hr]
  | _ => exact absurd h id

end

end Expr

/-! ## §2 Requests -/

/-- The request is not refused for want of a circuit, and it leaves a state as the property says,
    refused or not. -/
def Clears {σ α : Type} (act : Request σ α) (s : σ) (I : σ → Prop) : Prop :=
  Grants act s (fun _ => True) (fun refusal s' => ¬ refusal.Unsupported ∧ I s') fun _ s' => I s'

section

variable {σ α β : Type} {act : Request σ α} {k : α → Request σ β} {s : σ} {I : σ → Prop}
  {R : Refusal → σ → Prop} {P : α → σ → Prop}

theorem Clears.leaves (h : Clears act s I) : Leaves act s I :=
  Grants.imp h (fun _ hf => hf) (fun _ _ hr => hr.2) fun _ _ hp => hp

theorem Clears.pure {a : α} (hs : I s) : Clears (Pure.pure a) s I := hs

theorem Clears.bind (h : Clears act s I) (hk : ∀ a s', I s' → Clears (k a) s' I) :
    Clears (act >>= k) s I :=
  Grants.bind h hk

/-- What follows may use whatever else is known of the request. -/
theorem Clears.bind_of_grants (h : Clears act s I) (hgrants : Grants act s (fun _ => True) R P)
    (hk : ∀ a s', P a s' → I s' → Clears (k a) s' I) : Clears (act >>= k) s I := by
  have hboth : Grants act s (fun _ => True) (fun refusal s' => ¬ refusal.Unsupported ∧ I s')
      fun a s' => P a s' ∧ I s' :=
    (hgrants.and h).imp (fun _ _ => trivial) (fun _ _ hr => hr.2) fun _ _ hp => hp
  exact Grants.bind hboth fun a s' ⟨hp, hs'⟩ => hk a s' hp hs'

/-- What is never refused is not refused for want of a circuit. -/
theorem Clears.bind_of_leaves (h : Leaves act s I)
    (hgrants : Grants act s (fun _ => True) (fun _ _ => False) P)
    (hk : ∀ a s', P a s' → I s' → Clears (k a) s' I) : Clears (act >>= k) s I := by
  have hclears : Clears act s I :=
    (hgrants.and h).imp (fun _ _ => trivial) (fun _ _ hr => hr.1.elim) fun _ _ hp => hp.2
  exact hclears.bind_of_grants hgrants hk

end

/-! ## §3 One vector -/

namespace VectorSolver

/-- All instances of the constraints have circuits, because no symbol needs a vector. -/
structure Clear (s : VectorSolver) : Prop where
  constraints : ∀ c ∈ s.constraints, c.expr.Instantiable
  elements : ∀ e ∈ s.elements, e.mentionsVector = false

theorem mem_of_mem_pairs {α : Type} {xs : List α} {p : α × α} (h : p ∈ pairs xs) :
    p.1 ∈ xs ∧ p.2 ∈ xs :=
  forall_mem_pairs.mpr (List.pairwise_of_forall_mem_list fun _ ha _ hb => And.intro ha hb) p h

/-- No instance needs a vector. -/
theorem instances_clear {c : Constraint} {elements : Array Expr} (hc : c.expr.Instantiable)
    (helements : ∀ e ∈ elements, e.mentionsVector = false) {e : Expr}
    (h : .ok (some e) ∈ instances c elements) : e.mentionsVector = false := by
  unfold instances at h
  split at h
  · -- The elements of every pair are different.
    obtain ⟨⟨a, b⟩, hmem, heq⟩ := List.mem_map.mp h
    cases heq
    obtain ⟨ha, hb⟩ := mem_of_mem_pairs hmem
    simp [helements a (Array.mem_toList_iff.mp ha), helements b (Array.mem_toList_iff.mp hb)]
  · rename_i v p body hexpr
    obtain ⟨i, -, heq⟩ := List.mem_map.mp h
    rw [hexpr] at hc
    cases hrun : (instantiate p i elements body).run with
    | error fault =>
      rw [hrun] at heq
      cases heq
    | ok r =>
      rw [hrun] at heq
      cases r with
      | error skip => cases heq
      | ok e' =>
        cases heq
        exact Expr.instantiate_clear hc helements _ hrun
  · cases h

variable {s : VectorSolver} {w : InContext VectorWork} {read : Reading}

theorem Clear.symbols {elements : Array Expr} (h : s.Clear) (hextends : s.Extends elements) :
    ∀ e ∈ elements, e.mentionsVector = false := by
  intro e he
  rcases hextends e he with hmem | ⟨id, elem, rfl⟩
  · exact h.elements e hmem
  · rfl

theorem Clear.not_unclear {elements : Array Expr} (h : s.Clear) (hextends : s.Extends elements) :
    ¬ Unclear s.constraints elements := by
  intro hunclear
  obtain ⟨c, hc, e, he, hmentions⟩ := hunclear
  rw [instances_clear (h.constraints c hc) (h.symbols hextends) he] at hmentions
  cases hmentions

theorem clear_empty (id : Nat) : (empty id).Clear := ⟨by simp [empty], by simp [empty]⟩

theorem Clear.add {c : Constraint} (h : s.Clear) (hc : c.expr.Instantiable) : (s.add c).Clear :=
  ⟨List.forall_mem_append.mpr ⟨h.constraints, List.forall_mem_singleton.mpr hc⟩, h.elements⟩

/-- New symbols are variables. -/
theorem Clear.grown (h : s.Clear) (size next : Nat) (elem : BitSort) :
    (s.grown size next elem).Clear := by
  refine ⟨h.constraints, fun e he => ?_⟩
  rcases Array.mem_append.mp he with hmem | hmem
  · exact h.elements e hmem
  · obtain ⟨id, -, rfl⟩ := List.mem_map.mp (List.mem_toArray.mp hmem)
    rfl

/-- A vector whose constraints have circuits is refused for its size only, and stays so. -/
theorem solve_clears (h : w.item.solver.Clear) :
    Clears (solve read) w fun w' => w'.item.solver.Clear := by
  have hclear : Leaves (solve read) w fun w' => w'.item.solver.Clear := by
    refine solve_preserves read (fun size elem w hw => ?_) w h
    unfold Leaves Grants
    rw [grow_eq]
    exact hw.grown size _ elem
  apply ((solve_fills read).and hclear).imp (fun _ _ => trivial)
  · intro refusal w' hleft
    obtain ⟨⟨-, hrefused⟩, hw'⟩ := hleft
    refine ⟨fun hunsupported => ?_, hw'⟩
    obtain ⟨what, rfl⟩ := hunsupported
    rcases hrefused with ⟨-, elements, hextends, hunclear⟩ | ⟨_, _, _, _, _, _, heq⟩
    · exact h.not_unclear hextends hunclear
    · -- It was refused for its size.
      cases heq
  · exact fun _ _ hw' => hw'.2

end VectorSolver

/-! ## §4 All vectors -/

namespace VectorStage

/-- All instances of the constraints have circuits. -/
def Clear (solvers : Std.TreeMap Nat VectorSolver) : Prop :=
  ∀ (id : Nat) (solver : VectorSolver), solvers[id]? = some solver → solver.Clear

variable {s : InContext VectorStage} {solvers : Std.TreeMap Nat VectorSolver} {read : Reading}

theorem clear_empty : Clear ∅ := fun id solver hid => by simp at hid

theorem Clear.insert (h : Clear solvers) {solver : VectorSolver} (hsolver : solver.Clear)
    (id : Nat) :
    Clear (solvers.insert id solver) := by
  intro id' solver' hid'
  rw [getElem?_treeMap_insert] at hid'
  split at hid'
  · cases hid'
    exact hsolver
  · exact h id' solver' hid'

theorem clear_reset (stage : VectorStage) {cs : List Constraint}
    (h : ∀ c ∈ cs, c.expr.Instantiable) : Clear (stage.reset cs).solvers := by
  have hempty := clear_empty
  unfold reset
  dsimp only
  generalize (∅ : Std.TreeMap Nat VectorSolver) = solvers at hempty ⊢
  induction cs generalizing solvers with
  | nil => exact hempty
  | cons c cs ih =>
    refine ih (fun d hd => h d (List.mem_cons_of_mem c hd)) _ ?_
    dsimp only
    cases c.vectorId? with
    | none => exact hempty
    | some id =>
      -- The constraint is added to what its vector has so far.
      have hknown : (solvers[id]?.getD (.empty id)).Clear := by
        cases hid : solvers[id]? with
        | none => exact VectorSolver.clear_empty id
        | some solver => exact hempty id solver hid
      exact hempty.insert (hknown.add (h c List.mem_cons_self)) id

theorem solveOne_clears (id : Nat) (h : Clear s.item.solvers) :
    Clears (solveOne read id) s fun s' => Clear s'.item.solvers := by
  unfold Clears Grants solveOne
  dsimp only
  cases hid : s.item.solvers[id]? with
  | none => exact h
  | some solver =>
    have hsolve : Clears (VectorSolver.solve read)
        ⟨s.context, solver, s.item.source, s.item.rng⟩ fun w' => w'.item.solver.Clear :=
      VectorSolver.solve_clears (h id solver hid)
    unfold Clears Grants at hsolve
    dsimp only
    cases hrun : VectorSolver.solve read ⟨s.context, solver, s.item.source, s.item.rng⟩ with
    | error fault => trivial
    | ok r =>
      rw [hrun] at hsolve
      obtain ⟨refusal | solved, c, solver', source, rng⟩ := r
      · exact ⟨hsolve.1, h.insert hsolve.2 id⟩
      · exact h.insert hsolve id

theorem solveEach_clears (ids : List Nat) (h : Clear s.item.solvers) :
    Clears (solveEach read ids) s fun s' => Clear s'.item.solvers := by
  induction ids generalizing s with
  | nil => exact .pure h
  | cons id ids ih =>
    apply (solveOne_clears id h).bind
    intro solved s' h'
    cases solved with
    | false => exact .pure h'
    | true => exact ih h'

/-- A vector without constraints is filled, and nothing is refused. -/
theorem fill_clears (id : Nat) (entry : VectorEntry) (h : Clear s.item.solvers) :
    Clears (fill read id entry) s fun s' => Clear s'.item.solvers := by
  unfold fill
  apply Grants.get_bind
  apply Grants.ofExcept_bind (ends_true _)
  intro size _
  split
  · -- Too many elements are a fault, not a refusal.
    trivial
  apply Grants.ofExcept_bind (ends_true _)
  intro p _
  exact .modify h

/-- Vectors whose constraints have circuits are refused for their size only. -/
theorem solve_clears (h : Clear s.item.solvers) :
    Clears (solve read) s fun s' => Clear s'.item.solvers := by
  unfold solve
  apply Grants.get_bind
  apply (solveEach_clears _ h).bind
  intro solved s₁ h₁
  cases solved with
  | false => exact .pure h₁
  | true =>
    apply Grants.get_bind
    dsimp only
    apply Grants.bind (P := fun _ s' => Clear s'.item.solvers)
    · apply grants_forM (I := fun s' : InContext VectorStage => Clear s'.item.solvers) h₁
      intro p _ s' h'
      split
      · exact .pure h'
      · exact fill_clears p.1 p.2 h'
    · exact fun _ s' h' => .pure h'

end VectorStage

end Stimulus
