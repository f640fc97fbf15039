import Mathlib.Data.List.ReduceOption
import Stimulus.Proofs.Context
import Stimulus.Proofs.Solver
import Stimulus.Proofs.Vector.Instance
import Stimulus.Vector.Solver

/-!
# What constraints say of the contents of a vector

A constraint that makes the elements distinct is posed as one inequality for each pair of them, a
constraint on all elements as its instances.  Together they hold of numbers for the symbols exactly
if the constraint holds of the vector that has these numbers as its elements.

Main definitions:
- `Constraint.Ranges`: a constraint that is about one vector
- `Constraint.HoldsOn`: what a constraint says of the elements of a vector
- `Renders`: expressions that say together what is wanted

Main statements:
- `VectorSolver.instances_render`
- `VectorSolver.assertInstances_grants`
-/

namespace Stimulus

/-! ## §1 Constraints on a vector -/

namespace Constraint

/-- A constraint on a declared vector that a registry takes: it is about the vector and nothing
    else, and no variable has the id of the vector. -/
structure Ranges (x : Constraint) (v : VectorHandle) : Prop where
  shape : x.expr = .unique v.expr ∨ ∃ p body, x.expr = .forEach v.expr p body ∧
    body.Bounded v.elem.sort ∧ body.Closed p
  single : x.expr.support.size = 1
  apart : ∀ s, ¬ x.expr.Mentions v.id s

/-- The constraint is true of these elements: they are distinct, or the body is true at every index
    at which all its accesses resolve. -/
def HoldsOn (x : Constraint) (values : List Nat) : Prop :=
  match x.expr with
  | .unique _ => values.Nodup
  | .forEach _ p body => ∀ i < values.length, body.Resolves p i values.length →
      ∃ v, body.valueAt p i (fun _ => none) (values[·]?) = pure v ∧ v.isTrue = true
  | _ => True

section

variable {x : Constraint} {v : VectorHandle}

/-- The only id in the support is that of the vector. -/
theorem Ranges.not_mentions (h : x.Ranges v) (j : Nat) (s : BitSort) : ¬ x.expr.Mentions j s := by
  intro hmem
  have hvector : Expr.vector v.id v.elem.sort ∈ x.expr.preorder := by
    rcases h.shape with hx | ⟨p, body, hx, -⟩
    · rw [hx]
      simp [Expr.preorder, VectorHandle.expr]
    · rw [hx]
      simp [Expr.preorder, VectorHandle.expr]
  have hsupport {id : Nat} {t : Expr} (ht : t ∈ x.expr.preorder) (hid : t.supportId? = some id) :
      id ∈ x.expr.support.toList := by
    rw [Std.TreeSet.mem_toList, Expr.support, Std.TreeSet.mem_ofList, List.contains_iff_mem]
    exact List.mem_filterMap.mpr ⟨t, ht, hid⟩
  obtain ⟨id, hone⟩ := List.length_eq_one_iff.mp
    (Std.TreeSet.length_toList.trans h.single)
  have hj := hsupport hmem rfl
  have hv := hsupport hvector rfl
  rw [hone, List.mem_singleton] at hj hv
  rw [hj, ← hv] at hmem
  exact h.apart s hmem

end

end Constraint

/-! ## §2 Distinct numbers -/

namespace Expr

section

variable {a b : Nat} {s : BitSort}

theorem plain_notEqual (hs : s.width ≤ 64) : (binary .notEqual (.var a s) (.var b s)).Plain := by
  refine ⟨hs, hs, ?_, fun h => by cases h⟩
  show (s.common s).width ≤ 128
  rw [BitSort.common_self]
  omega

/-- Two variables of one sort are unequal if their low bits are. -/
theorem holds_notEqual (hs : s.width ≤ 64) {env : Nat → Nat} :
    (binary .notEqual (.var a s) (.var b s)).Holds env ↔
      env a % 2 ^ s.width ≠ env b % 2 ^ s.width := by
  have heval : (binary .notEqual (.var a s) (.var b s)).eval (fun id => some (env id)) =
      pure (.truth (env a % 2 ^ s.width != env b % 2 ^ s.width)) :=
    eval_same hs rfl (eval_var rfl) (eval_var rfl)
  unfold Holds
  rw [heval]
  constructor
  · rintro ⟨v, hv, htrue⟩
    cases hv
    simpa [Value.truth, Value.isTrue] using htrue
  · intro hne
    exact ⟨_, rfl, by simp [Value.truth, Value.isTrue, hne]⟩

end

end Expr

namespace VectorSolver

theorem pairs_map {α β : Type} (f : α → β) (xs : List α) :
    pairs (xs.map f) = (pairs xs).map fun p => (f p.1, f p.2) := by
  induction xs with
  | nil => rfl
  | cons x xs ih => simp [pairs, ih, Function.comp_def]

/-- The pairs of a list are those that `List.Pairwise` is about. -/
theorem forall_mem_pairs {α : Type} {R : α → α → Prop} {xs : List α} :
    (∀ p ∈ pairs xs, R p.1 p.2) ↔ xs.Pairwise R := by
  induction xs with
  | nil => simp [pairs]
  | cons x xs ih =>
    rw [pairs, List.forall_mem_append, List.forall_mem_map, ih, List.pairwise_cons]

end VectorSolver

/-! ## §3 Expressions for constraints -/

/-- The symbols of elements. -/
def elementSymbols (ids : List Nat) (elem : BitSort) (h : elem.width ≤ 64) : Signature where
  sort? j := if j ∈ ids then some elem else none
  width_le j s hj := by
    split at hj
    · cases hj
      exact h
    · cases hj

/-- Expressions that can be encoded, and that hold together exactly if the property does. -/
structure Renders (Γ : Signature) (es : List Expr) (P : (Nat → Nat) → Prop) : Prop where
  admits : ∀ e ∈ es, Γ.Admits e
  allHold_iff : ∀ env, Expr.AllHold env es ↔ P env

section

variable {Γ : Signature} {es fs : List Expr} {P P' : (Nat → Nat) → Prop}

theorem renders_nil : Renders Γ [] fun _ => True :=
  ⟨fun _ he => absurd he List.not_mem_nil, fun _ =>
    ⟨fun _ => trivial, fun _ _ he => absurd he List.not_mem_nil⟩⟩

theorem Renders.append (h : Renders Γ es P) (h' : Renders Γ fs P') :
    Renders Γ (es ++ fs) fun env => P env ∧ P' env where
  admits e he := (List.mem_append.mp he).elim (h.admits e) (h'.admits e)
  allHold_iff env := by rw [Expr.allHold_append, h.allHold_iff, h'.allHold_iff]

theorem Renders.congr (h : Renders Γ es P) (hP : ∀ env, P env ↔ P' env) : Renders Γ es P' :=
  ⟨h.admits, fun env => (h.allHold_iff env).trans (hP env)⟩

theorem elementSymbols_few {ids : List Nat} {elem : BitSort} {h : elem.width ≤ 64}
    (hids : ids.length < slotLimit) : (elementSymbols ids elem h).Few := by
  intro slots hslots
  refine lt_of_le_of_lt (size_treeMap_le fun j slot hslot => ?_) hids
  obtain ⟨s, hs⟩ := hslots j slot hslot
  by_contra hno
  rw [elementSymbols] at hs
  dsimp only at hs
  rw [if_neg hno] at hs
  cases hs

end

/-- None of the attempts fails, and these are their results. -/
def Results (attempts : List (Except Fault (Option Expr))) (es : List Expr) : Prop :=
  ∃ os : List (Option Expr), attempts = os.map .ok ∧ os.reduceOption = es

theorem reduceOption_cons {α : Type} (o : Option α) (os : List (Option α)) :
    (o :: os).reduceOption = o.toList ++ os.reduceOption := by
  cases o with
  | none => exact List.reduceOption_cons_of_none os
  | some a => exact List.reduceOption_cons_of_some a os

section

variable {Γ : Signature}

/-- Attempts for a list of things give expressions that say together what each of them is to say. -/
theorem exists_results {α : Type} {xs : List α} {attempt : α → Except Fault (Option Expr)}
    {P : α → (Nat → Nat) → Prop}
    (h : ∀ x ∈ xs, ∃ o : Option Expr, attempt x = .ok o ∧ Renders Γ o.toList (P x)) :
    ∃ es, Results (xs.map attempt) es ∧ Renders Γ es fun env => ∀ x ∈ xs, P x env := by
  induction xs with
  | nil => exact ⟨[], ⟨[], rfl, rfl⟩, renders_nil.congr fun env => by simp⟩
  | cons x xs ih =>
    obtain ⟨o, ho, hx⟩ := h x List.mem_cons_self
    obtain ⟨es, ⟨os, hos, rfl⟩, hes⟩ := ih fun y hy => h y (List.mem_cons_of_mem x hy)
    refine ⟨_, ⟨o :: os, ?_, reduceOption_cons o os⟩, (hx.append hes).congr fun env => ?_⟩
    · rw [List.map_cons, List.map_cons, ho, hos]
    · exact (List.forall_mem_cons (p := fun y => P y env)).symm

end

/-! ## §4 Instances for some elements -/

namespace VectorSolver

section

variable {v : VectorHandle} {ids : List Nat} {elements : Array Expr} {x : Constraint}

/-- The elements that numbers for their symbols stand for. -/
def elementsOf (v : VectorHandle) (ids : List Nat) (env : Nat → Nat) : List Nat :=
  ids.map fun j => env j % 2 ^ v.elem.sort.width

/-- The signature of the elements of a vector. -/
abbrev symbols (v : VectorHandle) (ids : List Nat) : Signature :=
  elementSymbols ids v.elem.sort (Context.width_sort_le v.elem)

theorem sort?_symbols {j : Nat} (hj : j ∈ ids) : (symbols v ids).sort? j = some v.elem.sort :=
  if_pos hj

/-- An instance says at its index what the body says there. -/
theorem instance_renders {p i : Nat} {body e : Expr} (hbounded : body.Bounded v.elem.sort)
    (hclosed : body.Closed p) (hmentions : ∀ j s, ¬ body.Mentions j s)
    (h : Expr.InstanceOf p i v.elem.sort ids body e) :
    Renders (symbols v ids) [e] fun env => ∃ u, body.valueAt p i (fun _ => none)
      ((elementsOf v ids env)[·]?) = pure u ∧ u.isTrue = true where
  admits := List.forall_mem_singleton.mpr
    ⟨h.plain hbounded (Context.width_sort_le v.elem) hclosed, fun j s hmem => by
      -- Whatever an instance mentions is an element, as the body mentions no variable.
      rcases h.mentions j s hmem with hmem | ⟨hj, rfl⟩
      · exact absurd hmem (hmentions j s)
      · exact sort?_symbols hj⟩
  allHold_iff env := by
    have hvalue : e.eval (fun j => some (env j)) =
        body.valueAt p i (fun _ => none) ((elementsOf v ids env)[·]?) := by
      rw [h.eval_eq]
      refine Expr.valueAt_congr hbounded (fun j s hmem => absurd hmem (hmentions j s)) fun k => ?_
      rw [elementsOf, List.getElem?_map]
      cases ids[k]? with
      | none => rfl
      | some j => exact congrArg some (Expr.wrap_eq_of_mod_eq (Nat.mod_mod _ _).symm)
    rw [← hvalue]
    exact List.forall_mem_singleton

/-- One inequality for each pair says that all elements are distinct. -/
theorem inequalities_render (hexpr : x.expr = .unique v.expr)
    (helements : elements.toList = ids.map (Expr.var · v.elem.sort)) :
    ∃ es, Results (instances x elements) es ∧
      Renders (symbols v ids) es fun env => x.HoldsOn (elementsOf v ids env) := by
  -- The elements are variables, so the pairs of elements are those of their ids.
  have hpairs : instances x elements = (pairs ids).map fun q =>
      .ok (some (.binary .notEqual (.var q.1 v.elem.sort) (.var q.2 v.elem.sort))) := by
    unfold instances
    rw [hexpr]
    dsimp only
    rw [helements, pairs_map, List.map_map]
    rfl
  have hmem : ∀ q ∈ pairs ids, q.1 ∈ ids ∧ q.2 ∈ ids :=
    (forall_mem_pairs (R := fun a b => a ∈ ids ∧ b ∈ ids)).mpr
      (List.Pairwise.imp_of_mem (fun ha hb _ => ⟨ha, hb⟩)
        (List.pairwise_of_forall fun _ _ => trivial))
  have hresults : ∃ es, Results (instances x elements) es ∧ Renders (symbols v ids) es fun env =>
      ∀ q ∈ pairs ids, env q.1 % 2 ^ v.elem.sort.width ≠ env q.2 % 2 ^ v.elem.sort.width := by
    have helem := Context.width_sort_le v.elem
    rw [hpairs]
    refine exists_results fun q hq => ⟨_, rfl, List.forall_mem_singleton.mpr
      ⟨Expr.plain_notEqual helem, fun j s hj => ?_⟩,
      fun env => List.forall_mem_singleton.trans (Expr.holds_notEqual helem)⟩
    rcases Expr.mentions_binary.mp hj with hj | hj
    · obtain ⟨rfl, rfl⟩ := Expr.mentions_var.mp hj
      exact sort?_symbols (hmem q hq).1
    · obtain ⟨rfl, rfl⟩ := Expr.mentions_var.mp hj
      exact sort?_symbols (hmem q hq).2
  obtain ⟨es, hes, hrenders⟩ := hresults
  refine ⟨es, hes, hrenders.congr fun env => ?_⟩
  unfold Constraint.HoldsOn
  rw [hexpr, forall_mem_pairs (R := fun a b => env a % 2 ^ v.elem.sort.width ≠
    env b % 2 ^ v.elem.sort.width)]
  exact List.pairwise_map.symm

/-- The instances of a body say that it is true at every index at which its accesses resolve. -/
theorem bodies_render {p : Nat} {body : Expr} (hexpr : x.expr = .forEach v.expr p body)
    (hbounded : body.Bounded v.elem.sort) (hclosed : body.Closed p)
    (hmentions : ∀ j s, ¬ body.Mentions j s)
    (helements : elements.toList = ids.map (Expr.var · v.elem.sort)) :
    ∃ es, Results (instances x elements) es ∧
      Renders (symbols v ids) es fun env => x.HoldsOn (elementsOf v ids env) := by
  have hsize : elements.size = ids.length := by
    rw [← Array.length_toList, helements, List.length_map]
  have hindices : instances x elements = (List.range ids.length).map fun i => do
      return (← (instantiate p i elements body).run).toOption := by
    unfold instances
    rw [hexpr, hsize]
  have hresults : ∃ es, Results (instances x elements) es ∧ Renders (symbols v ids) es fun env =>
      ∀ i ∈ List.range ids.length, body.Resolves p i ids.length → ∃ u, body.valueAt p i
        (fun _ => none) ((elementsOf v ids env)[·]?) = pure u ∧ u.isTrue = true := by
    rw [hindices]
    refine exists_results fun i _ => ?_
    have hskips := Expr.instantiate_skipsUnless (p := p) (i := i) hbounded.built
      (fun _ : True => hbounded) (fun _ => Context.width_sort_le v.elem) helements
    by_cases hresolves : body.Resolves p i ids.length
    · obtain ⟨e, hrun⟩ := hskips.exists_iff.mpr hresolves
      refine ⟨some e, by rw [hrun]; rfl, ?_⟩
      exact (instance_renders hbounded hclosed hmentions (hskips.of_run hrun)).congr fun env =>
        ⟨fun hu _ => hu, fun hu => hu hresolves⟩
    · -- Nothing is posed at an index that is skipped, and nothing is said of it.
      obtain ⟨skip, hrun⟩ := hskips.exists_skip trivial hresolves
      refine ⟨none, by rw [hrun]; rfl, renders_nil.congr fun env => ?_⟩
      exact ⟨fun _ h => absurd h hresolves, fun _ => trivial⟩
  obtain ⟨es, hes, hrenders⟩ := hresults
  refine ⟨es, hes, hrenders.congr fun env => ?_⟩
  unfold Constraint.HoldsOn
  rw [hexpr]
  simp only [List.mem_range, elementsOf, List.length_map]

/-- The instances of a constraint say of the elements what the constraint says. -/
theorem instances_render (hx : x.Ranges v)
    (helements : elements.toList = ids.map (Expr.var · v.elem.sort)) :
    ∃ es, Results (instances x elements) es ∧
      Renders (symbols v ids) es fun env => x.HoldsOn (elementsOf v ids env) := by
  rcases hx.shape with hexpr | ⟨p, body, hexpr, hbounded, hclosed⟩
  · exact inequalities_render hexpr helements
  · refine bodies_render hexpr hbounded hclosed (fun j s hmem => hx.not_mentions j s ?_) helements
    rw [hexpr]
    exact List.mem_cons_of_mem _ (List.mem_append_right _ hmem)

/-! ## §5 Posing the instances -/

variable {t : Solver} {Γ : Signature} {hards softs es : List Expr} {safe : Prop}

/-- What a list of attempts results in is posed, one expression after the other. -/
theorem assertEach_grants {attempts : List (Except Fault (Option Expr))} (soft : Bool)
    (h : t.Poses Γ hards softs [] []) (hes : Results attempts es)
    (hadmits : ∀ e ∈ es, Γ.Admits e) (hfew : safe → Γ.Few) :
    Grants (attempts.forM fun attempt => do
      match ← Fault.ofExcept attempt with
      | some e => if soft then Solver.assertSoft e else Solver.assert e
      | none => pure ()) t (Stuck safe) (fun _ _ => False) fun _ t' =>
        t'.Poses Γ (hards ++ if soft then [] else es) (softs ++ if soft then es else []) [] [] := by
  obtain ⟨os, rfl, rfl⟩ := hes
  -- Attempts that gave nothing are passed over, so the list shrinks to what is posed.
  induction os generalizing t hards softs with
  | nil => exact Grants.pure (by simpa using h)
  | cons o os ih =>
    rw [reduceOption_cons] at hadmits ⊢
    obtain ⟨hfirst, hrest⟩ := List.forall_mem_append.mp hadmits
    refine Grants.bind (P := fun _ t' => t'.Poses Γ (hards ++ if soft then [] else o.toList)
      (softs ++ if soft then o.toList else []) [] []) ?_ fun _ t₁ h₁ => ?_
    · cases o with
      | none => exact Grants.pure (by simpa using h)
      | some e =>
        have he := hfirst e List.mem_cons_self
        refine Grants.ofExcept_bind (T := (· = some e)) rfl ?_
        rintro _ rfl
        cases soft with
        | true => simpa using Solver.assertSoft_grants h he hfew
        | false => simpa using Solver.assert_grants h he hfew
    · refine (ih h₁ hrest).mono fun _ t₂ h₂ => ?_
      cases soft <;> simpa using h₂

/-- The hard constraints hold of these elements. -/
def HardHold (cs : List Constraint) (values : List Nat) : Prop :=
  ∀ x ∈ cs, x.soft = false → x.HoldsOn values

/-- The soft constraints hold of these elements. -/
def SoftHold (cs : List Constraint) (values : List Nat) : Prop :=
  ∀ x ∈ cs, x.soft = true → x.HoldsOn values

/-- A solver poses the instances of all constraints, those of soft ones as soft ones. -/
theorem assertInstances_grants {cs : List Constraint}
    (h : t.Poses (symbols v ids) hards softs [] []) (hcs : ∀ x ∈ cs, x.Ranges v)
    (helements : elements.toList = ids.map (Expr.var · v.elem.sort))
    (hfew : safe → (symbols v ids).Few) :
    Grants (assertInstances elements cs) t (Stuck safe) (fun _ _ => False) fun _ t' =>
      ∃ es fs, t'.Poses (symbols v ids) (hards ++ es) (softs ++ fs) [] [] ∧
        Renders (symbols v ids) es (fun env => HardHold cs (elementsOf v ids env)) ∧
          Renders (symbols v ids) fs fun env => SoftHold cs (elementsOf v ids env) := by
  induction cs generalizing t hards softs with
  | nil =>
    refine .pure ⟨[], [], by simpa using h, renders_nil.congr fun env => ?_,
      renders_nil.congr fun env => ?_⟩
    · simp [HardHold]
    · simp [SoftHold]
  | cons x cs ih =>
    obtain ⟨hx, hrest⟩ := List.forall_mem_cons.mp hcs
    -- The instances of the first constraint, and what they say of the elements.
    obtain ⟨new, hresults, hnew⟩ := instances_render hx helements
    unfold assertInstances
    refine (assertEach_grants x.soft h hresults hnew.admits hfew).bind fun _ t₁ h₁ => ?_
    refine (ih h₁ hrest).mono fun _ t₂ ⟨es, fs, h₂, hes, hfs⟩ => ?_
    have hhard (env : Nat → Nat) : HardHold (x :: cs) (elementsOf v ids env) ↔
        (x.soft = false → x.HoldsOn (elementsOf v ids env)) ∧ HardHold cs (elementsOf v ids env) :=
      List.forall_mem_cons
    have hsoft (env : Nat → Nat) : SoftHold (x :: cs) (elementsOf v ids env) ↔
        (x.soft = true → x.HoldsOn (elementsOf v ids env)) ∧ SoftHold cs (elementsOf v ids env) :=
      List.forall_mem_cons
    -- The instances of one constraint go to the hard or to the soft ones, all of them alike.
    cases hkind : x.soft with
    | true =>
      rw [hkind] at h₂ hhard hsoft
      refine ⟨es, new ++ fs, by simpa using h₂, hes.congr fun env => ?_,
        (hnew.append hfs).congr fun env => ?_⟩
      · simp [hhard]
      · simp [hsoft]
    | false =>
      rw [hkind] at h₂ hhard hsoft
      refine ⟨new ++ es, fs, by simpa using h₂, (hnew.append hes).congr fun env => ?_,
        hfs.congr fun env => ?_⟩
      · simp [hhard]
      · simp [hsoft]

end

end VectorSolver

end Stimulus
