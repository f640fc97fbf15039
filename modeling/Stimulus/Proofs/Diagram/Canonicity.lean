import Mathlib.Logic.Function.Basic
import Stimulus.Proofs.Diagram.Run

/-!
# Canonicity

In a well-formed manager two edges are equal as soon as they denote the same function.  So the
questions whether a function is unsatisfiable, valid, or equal to another are comparisons of two
edges.

The proof follows the diagrams.  The assignment that makes every variable true tells whether an edge
carries a complement mark, because high edges carry none.  If two edges with the same function
test the same variable first, then their children agree, and a node is stored once; if one of them
tests an earlier variable, its function does not depend on that variable, so its children agree,
which no reduced node allows.

Main statements:
- `Manager.WellFormed.eq_of_value_eq`
- `canonical_of_reached`
-/

namespace Stimulus

namespace Manager

variable {d : Manager}

/-! ## §1 Functions and variables -/

/-- A function that starts below `v` does not depend on `v`. -/
theorem WellFormed.value_update (hd : d.WellFormed) {v : Nat} {e : Edge} (he : d.Valid e)
    (hs : d.StartsFrom (v + 1) e) (env : Nat → Bool) (b : Bool) :
    d.value (Function.update env v b) e = d.value env e := by
  induction hw : e.index using Nat.strongRecOn generalizing e with
  | _ w ih =>
    by_cases hterm : e.isTerminal = true
    · rw [value_of_isTerminal hterm, value_of_isTerminal hterm]
    · obtain ⟨n, hn, hred⟩ := hd.exists_reduced he hterm
      have hvar : v + 1 ≤ n.var := hs.le_var hterm hn
      have hdec := decides_of_reduced he hn hred
      have hsame : Function.update env v b n.var = env n.var :=
        Function.update_of_ne (by omega) _ _
      have hlow := ih _ (by simpa [← hw] using hred.low_lt) (hred.low_valid.complementIf _)
        ((hred.low_below.complementIf e.isComplement).mono (by omega)) rfl
      have hhigh := ih _ (by simpa [← hw] using hred.high_lt) (hred.high_valid.complementIf _)
        ((hred.high_below.complementIf e.isComplement).mono (by omega)) rfl
      -- The node tests a later variable, and so do its children.
      rw [hdec.value_eq, hdec.value_eq, hsame, hlow, hhigh]

/-- The assignment that makes every variable true reads the complement mark. -/
theorem WellFormed.value_all_true (hd : d.WellFormed) {e : Edge} (he : d.Valid e) :
    d.value (fun _ => true) e = !e.isComplement := by
  induction hw : e.index using Nat.strongRecOn generalizing e with
  | _ w ih =>
    by_cases hterm : e.isTerminal = true
    · exact value_of_isTerminal hterm
    · obtain ⟨n, hn, hred⟩ := hd.exists_reduced he hterm
      have hdec := decides_of_reduced he hn hred
      have hhigh := ih _ (by simpa [← hw] using hred.high_lt)
        (hred.high_valid.complementIf e.isComplement) rfl
      -- All decisions take the high edge, which carries no mark.
      rw [hdec.value_eq, if_pos rfl, hhigh,
        Edge.isComplement_complementIf hred.high_valid.index_ne_zero, hred.high_regular,
        Bool.false_xor]

/-- A child is the function of its node with the variable of the node fixed. -/
theorem WellFormed.value_child (hd : d.WellFormed) {e : Edge} {n : Node} (he : d.Valid e)
    (hn : d.node e.index = .ok n) (hred : d.Reduced e.index n) (env : Nat → Bool) :
    d.value env (n.low.complementIf e.isComplement) =
        d.value (Function.update env n.var false) e ∧
      d.value env (n.high.complementIf e.isComplement) =
        d.value (Function.update env n.var true) e := by
  have hdec := decides_of_reduced he hn hred
  have hlow := hd.value_update (hred.low_valid.complementIf e.isComplement)
    (hred.low_below.complementIf _) env false
  have hhigh := hd.value_update (hred.high_valid.complementIf e.isComplement)
    (hred.high_below.complementIf _) env true
  rw [hdec.value_eq, hdec.value_eq, Function.update_self, Function.update_self]
  exact ⟨hlow.symm, hhigh.symm⟩

theorem complementIf_injective {e f : Edge} (c : Bool) (h : e.complementIf c = f.complementIf c) :
    e = f := by
  cases c with
  | false => exact h
  | true => exact (Edge.neg_neg e).symm.trans ((congrArg Neg.neg h).trans (Edge.neg_neg f))

/-! ## §2 Equal functions -/

/-- Two edges whose indices sum to less than `w` are equal if their functions are. -/
def EqualBelow (d : Manager) (w : Nat) : Prop :=
  ∀ f g, d.Valid f → d.Valid g → f.index + g.index < w →
    (∀ env, d.value env f = d.value env g) → f = g

/-- A node differs from every function that starts below its variable. -/
theorem WellFormed.ne_of_startsFrom (hd : d.WellFormed) {f g : Edge} {n : Node}
    (hf : d.Valid f) (hg : d.Valid g) (hn : d.node g.index = .ok n) (hred : d.Reduced g.index n)
    (hs : d.StartsFrom (n.var + 1) f) (ih : d.EqualBelow (f.index + g.index)) :
    ¬ ∀ env, d.value env f = d.value env g := by
  intro h
  -- The function does not depend on the variable, so both children denote it.
  have hchild := fun env => hd.value_child hg hn hred env
  have hlow : f = n.low.complementIf g.isComplement := by
    refine ih _ _ hf (hred.low_valid.complementIf _) (by simpa using hred.low_lt) fun env => ?_
    rw [(hchild env).1, ← h, hd.value_update hf hs]
  have hhigh : f = n.high.complementIf g.isComplement := by
    refine ih _ _ hf (hred.high_valid.complementIf _) (by simpa using hred.high_lt) fun env => ?_
    rw [(hchild env).2, ← h, hd.value_update hf hs]
  exact hred.low_ne_high (complementIf_injective _ (hlow.symm.trans hhigh))

/-- Two nodes that decide the same function on the same variable have the same children. -/
theorem WellFormed.node_eq_of_value_eq (hd : d.WellFormed) {f g : Edge} {m n : Node}
    (hf : d.Valid f) (hg : d.Valid g) (hm : d.node f.index = .ok m) (hn : d.node g.index = .ok n)
    (hredm : d.Reduced f.index m) (hredn : d.Reduced g.index n) (hvar : m.var = n.var)
    (hmark : f.isComplement = g.isComplement) (ih : d.EqualBelow (f.index + g.index))
    (h : ∀ env, d.value env f = d.value env g) : m = n := by
  have hchildf := fun env => hd.value_child hf hm hredm env
  have hchildg := fun env => hd.value_child hg hn hredn env
  have hlow : m.low = n.low := by
    have hlt : m.low.index + n.low.index < f.index + g.index :=
      Nat.add_lt_add hredm.low_lt hredn.low_lt
    apply complementIf_injective f.isComplement
    refine ih _ _ (hredm.low_valid.complementIf _) (hredn.low_valid.complementIf _)
      (by simpa using hlt) fun env => ?_
    rw [(hchildf env).1, hmark, (hchildg env).1, h, hvar]
  have hhigh : m.high = n.high := by
    have hlt : m.high.index + n.high.index < f.index + g.index :=
      Nat.add_lt_add hredm.high_lt hredn.high_lt
    apply complementIf_injective f.isComplement
    refine ih _ _ (hredm.high_valid.complementIf _) (hredn.high_valid.complementIf _)
      (by simpa using hlt) fun env => ?_
    rw [(hchildf env).2, hmark, (hchildg env).2, h, hvar]
  obtain ⟨mv, ml, mh⟩ := m
  obtain ⟨nv, nl, nh⟩ := n
  cases hvar
  cases hlow
  cases hhigh
  rfl

/-- Edges with the same function are equal. -/
theorem WellFormed.eq_of_value_eq (hd : d.WellFormed) {f g : Edge} (hf : d.Valid f) (hg : d.Valid g)
    (h : ∀ env, d.value env f = d.value env g) : f = g := by
  induction hw : f.index + g.index using Nat.strongRecOn generalizing f g with
  | _ w ih =>
    have ih : d.EqualBelow (f.index + g.index) :=
      fun f' g' hf' hg' hlt heq => ih _ (hw ▸ hlt) hf' hg' heq rfl
    have ihsymm : d.EqualBelow (g.index + f.index) := by
      rwa [Nat.add_comm]
    have hsymm : ∀ env, d.value env g = d.value env f := fun env => (h env).symm
    -- The complement marks are read off at the assignment that makes all variables true.
    have hmark : f.isComplement = g.isComplement := by
      have hall := h fun _ => true
      rw [hd.value_all_true hf, hd.value_all_true hg] at hall
      exact Bool.not_inj hall
    by_cases htf : f.isTerminal = true
    · by_cases htg : g.isTerminal = true
      · exact Edge.ext_index ((isTerminal_iff.mp htf).trans (isTerminal_iff.mp htg).symm) hmark
      · -- A constant is no node.
        obtain ⟨n, hn, hred⟩ := hd.exists_reduced hg htg
        exact absurd h (hd.ne_of_startsFrom hf hg hn hred (.inl htf) ih)
    · obtain ⟨m, hm, hredm⟩ := hd.exists_reduced hf htf
      by_cases htg : g.isTerminal = true
      · exact absurd hsymm (hd.ne_of_startsFrom hg hf hm hredm (.inl htg) ihsymm)
      · obtain ⟨n, hn, hredn⟩ := hd.exists_reduced hg htg
        rcases Nat.lt_trichotomy m.var n.var with hlt | heq | hgt
        · -- Only the first function may depend on the variable that it tests first.
          exact absurd hsymm (hd.ne_of_startsFrom hg hf hm hredm (.inr ⟨n, hn, hlt⟩) ihsymm)
        · -- The nodes are equal, and the unique table stores them once.
          have hnode := hd.node_eq_of_value_eq hf hg hm hn hredm hredn heq hmark ih h
          exact Edge.ext_index (hd.eq_of_node_eq hm (hnode ▸ hn) hredm.var_ne_zero) hmark
        · exact absurd h (hd.ne_of_startsFrom hf hg hn hredn (.inr ⟨m, hm, hgt⟩) ih)

theorem WellFormed.eq_iff (hd : d.WellFormed) {f g : Edge} (hf : d.Valid f) (hg : d.Valid g) :
    f = g ↔ ∀ env, d.value env f = d.value env g :=
  ⟨fun h _ => h ▸ rfl, hd.eq_of_value_eq hf hg⟩

/-- Only falsehood is unsatisfiable. -/
theorem WellFormed.eq_zero_iff (hd : d.WellFormed) {f : Edge} (hf : d.Valid f) :
    f = .zero ↔ ∀ env, d.value env f = false := by
  rw [hd.eq_iff hf hd.valid_zero]
  simp

/-- Only truth is valid. -/
theorem WellFormed.eq_one_iff (hd : d.WellFormed) {f : Edge} (hf : d.Valid f) :
    f = .one ↔ ∀ env, d.value env f = true := by
  rw [hd.eq_iff hf hd.valid_one]
  simp

end Manager

/-- Two edges that a run has answered are equal if and only if they denote the same function.  In
    particular an edge is falsehood if and only if it is unsatisfiable, and truth if and only if it
    is valid. -/
theorem canonical_of_reached {d : Manager} {es : List Edge} (h : d.Reached es) :
    ∀ f ∈ es,
      (∀ g ∈ es, f = g ↔ ∀ env, d.value env f = d.value env g) ∧
      (f = .zero ↔ ¬ ∃ env, d.value env f = true) ∧
      (f = .one ↔ ∀ env, d.value env f = true) := by
  have hd := h.wellFormed
  intro f hf
  have hvalid := h.valid f hf
  refine ⟨fun g hg => hd.eq_iff hvalid (h.valid g hg), ?_, hd.eq_one_iff hvalid⟩
  rw [hd.eq_zero_iff hvalid]
  simp

/-- After a run that has made a conjunction, comparisons tell that it is satisfiable and that it is
    not the function of its first variable. -/
theorem canonical_after_conj : ∃ d : Manager, d.Reached [⟨4⟩, ⟨3⟩, ⟨2⟩, .one, .zero] ∧
    (∃ env, d.value env ⟨4⟩ = true) ∧ ¬ ∀ env, d.value env ⟨4⟩ = d.value env ⟨3⟩ := by
  obtain ⟨d, h⟩ := Manager.exists_reached
  obtain ⟨heq, hzero, -⟩ := canonical_of_reached h ⟨4⟩ (by simp)
  refine ⟨d, h, ?_, ?_⟩
  · exact Classical.not_not.mp fun hunsat => absurd (hzero.mpr hunsat) (by decide)
  · exact fun hsame => absurd ((heq ⟨3⟩ (by simp)).mpr hsame) (by decide)

end Stimulus
