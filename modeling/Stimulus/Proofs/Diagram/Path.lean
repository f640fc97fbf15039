import Stimulus.Proofs.Diagram.Support

/-!
# High edges first

The search for a path to truth goes along the high edge wherever that does not lead to falsehood.
So a negative literal stands on the path only where it has to: no assignment that makes its variable
true, and the literals before it as well, satisfies the function.  The enumeration of conflicts
relies on this when it takes all functions whose selectors a path leaves open for chosen.

Main definitions:
- `Manager.HighFirst`: the paths that prefer the high edge
- `Manager.FirstPath`: what the literals on such a path tell of the function

Main statements:
- `Manager.WellFormed.highFirst_of_pathFrom`
- `Manager.onePath_highFirst`
-/

namespace Stimulus

namespace Manager

variable {d : Manager} {e : Edge} {literals : List Int}

/-! ## §1 Paths that prefer the high edge -/

/-- The literals on the path from an edge to truth that goes along the high edge of every node,
    unless that is falsehood. -/
inductive HighFirst (d : Manager) : Edge → List Int → Prop where
  | truth : HighFirst d .one []
  | high {e : Edge} {n : Node} {literals : List Int} (hone : e.index ≠ 1)
      (hn : d.node e.index = .ok n)
      (hrest : HighFirst d (n.high.complementIf e.isComplement) literals) :
      HighFirst d e ((n.var : Int) :: literals)
  | low {e : Edge} {n : Node} {literals : List Int} (hone : e.index ≠ 1)
      (hn : d.node e.index = .ok n) (hzero : n.high.complementIf e.isComplement = .zero)
      (hrest : HighFirst d (n.low.complementIf e.isComplement) literals) :
      HighFirst d e (-(n.var : Int) :: literals)

/-- The path that is found is one of these, provided that the variables are 31-bit numbers. -/
theorem WellFormed.highFirst_of_pathFrom (hd : d.WellFormed) (he : d.Valid e) (hne : e ≠ .zero)
    (hvars : ∀ v, d.DependsOn e v → v < 2 ^ 31) (h : d.pathFrom e = .ok literals) :
    d.HighFirst e literals := by
  -- The relation follows the run, child by child.
  induction hw : e.index using Nat.strongRecOn generalizing e literals with
  | _ w ih =>
    rw [pathFrom] at h
    by_cases hone : e = .one
    · rw [if_pos hone] at h
      cases h
      exact hone ▸ .truth
    · have hterm : ¬ e.isTerminal = true := fun h => (eq_one_or_eq_zero h).elim hone hne
      obtain ⟨n, hn, hred⟩ := hd.exists_reduced he hterm
      have hindex : e.index ≠ 1 := fun h => hterm (isTerminal_iff.mpr h)
      have hchild := fun env => hd.value_child he hn hred env
      have hlit : literalOf n.var = n.var := literalOf_eq (hvars _ (hd.dependsOn_var he hn hred))
      rw [if_neg hone, hn] at h
      dsimp only at h
      rw [if_pos ⟨hred.low_lt, hred.high_lt⟩, hlit] at h
      split at h
      · -- The high edge does not lead to falsehood, so the path goes there.
        rename_i hhigh
        obtain ⟨rest, hrest, h⟩ := exists_ok_of_bind h
        cases h
        refine .high hindex hn (ih _ (by simpa [← hw] using hred.high_lt)
          (hred.high_valid.complementIf _) hhigh (fun v hv => hvars v ?_) hrest rfl)
        exact .of_fixed (fun env => (hchild env).2) hv
      · rename_i hhigh
        have hzero := not_not.mp hhigh
        split at h
        · cases h
        · obtain ⟨rest, hrest, h⟩ := exists_ok_of_bind h
          cases h
          -- The children differ, so falsehood is not below both edges.
          have hlow : n.low.complementIf e.isComplement ≠ .zero := fun hlow =>
            hred.low_ne_high (complementIf_injective _ (hlow.trans hzero.symm))
          refine .low hindex hn hzero (ih _ (by simpa [← hw] using hred.low_lt)
            (hred.low_valid.complementIf _) hlow (fun v hv => hvars v ?_) hrest rfl)
          exact .of_fixed (fun env => (hchild env).1) hv

/-! ## §2 What such a path tells -/

/-- Every literal is of a variable that the function depends on. -/
theorem HighFirst.dependsOn (h : d.HighFirst e literals) (hd : d.WellFormed) (he : d.Valid e) :
    ∀ l ∈ literals, d.DependsOn e l.natAbs := by
  induction h with
  | truth => simp
  | @high e n literals hone hn hrest ih =>
    have hred := hd.reduced_of_node hone hn
    have hchild := fun env => hd.value_child he hn hred env
    rw [List.forall_mem_cons, Int.natAbs_natCast]
    refine ⟨hd.dependsOn_var he hn hred, fun l hl => ?_⟩
    exact .of_fixed (fun env => (hchild env).2) (ih (hred.high_valid.complementIf _) l hl)
  | @low e n literals hone hn hzero hrest ih =>
    have hred := hd.reduced_of_node hone hn
    have hchild := fun env => hd.value_child he hn hred env
    rw [List.forall_mem_cons, Int.natAbs_neg, Int.natAbs_natCast]
    refine ⟨hd.dependsOn_var he hn hred, fun l hl => ?_⟩
    exact .of_fixed (fun env => (hchild env).1) (ih (hred.low_valid.complementIf _) l hl)

/-- A variable that the path makes false cannot be true beside the literals before it. -/
theorem HighFirst.forced (h : d.HighFirst e literals) (hd : d.WellFormed) (he : d.Valid e)
    {before after : List Int} {v : Nat} (hv : v ≠ 0)
    (hsplit : literals = before ++ -(v : Int) :: after) {env : Nat → Bool}
    (hbefore : ∀ l ∈ before, holds env l = true) (htrue : env v = true) :
    d.value env e = false := by
  -- The literals before the one in question fix the way to its node.
  induction h generalizing before with
  | truth => simp at hsplit
  | @high e n literals hone hn hrest ih =>
    have hred := hd.reduced_of_node hone hn
    have hdec := decides_of_reduced he hn hred
    cases before with
    | nil =>
      -- The literal in front is a positive one.
      have hhead := (List.cons.inj hsplit).1
      omega
    | cons l before =>
      obtain ⟨rfl, htail⟩ := List.cons.inj hsplit
      obtain ⟨hl, hbefore⟩ := List.forall_mem_cons.mp hbefore
      have henv : env n.var = true := by
        have hpos : 0 < n.var := Nat.pos_of_ne_zero hred.var_ne_zero
        simpa [holds, hpos] using hl
      rw [hdec.value_eq, henv]
      exact ih (hred.high_valid.complementIf _) htail hbefore
  | @low e n literals hone hn hzero hrest ih =>
    have hred := hd.reduced_of_node hone hn
    have hdec := decides_of_reduced he hn hred
    cases before with
    | nil =>
      -- It is the variable of this node, and its high edge leads to falsehood.
      obtain rfl : v = n.var := by
        have hhead := (List.cons.inj hsplit).1
        omega
      rw [hdec.value_eq, htrue, if_pos rfl, hzero, value_zero]
    | cons l before =>
      obtain ⟨rfl, htail⟩ := List.cons.inj hsplit
      obtain ⟨hl, hbefore⟩ := List.forall_mem_cons.mp hbefore
      have henv : env n.var = false := by
        have hneg : ¬ (n.var : Int) < 0 := by omega
        simpa [holds, hneg] using hl
      rw [hdec.value_eq, henv]
      exact ih (hred.low_valid.complementIf _) htail hbefore

/-- What the literals on the path that is found tell of a function: their variables ascend within
the support, whoever agrees with all of them satisfies the function, and a variable is made false
only where it cannot be true beside the literals before it. -/
structure FirstPath (d : Manager) (e : Edge) (literals : List Int) : Prop where
  ascending : literals.Pairwise fun l m => l.natAbs < m.natAbs
  ne_zero : ∀ l ∈ literals, l ≠ 0
  supported : ∃ vars, d.support e = .ok vars ∧ ∀ l ∈ literals, l.natAbs ∈ vars
  satisfies : ∀ env, (∀ l ∈ literals, holds env l = true) → d.value env e = true
  forced : ∀ before (v : Nat) after, literals = before ++ -(v : Int) :: after →
    ∀ env, (∀ l ∈ before, holds env l = true) → env v = true → d.value env e = false

end Manager

/-- The search for a path always has an answer.  It finds none exactly for falsehood, and otherwise
    one that prefers to make variables true, provided that the function is of 31-bit variables. -/
theorem Manager.onePath_highFirst {d : Manager} (hd : d.WellFormed) {e : Edge} (he : d.Valid e)
    (hvars : ∀ v, d.DependsOn e v → v < 2 ^ 31) :
    (d.onePath e = .ok none ↔ e = .zero) ∧
      (e ≠ .zero → ∃ literals, d.onePath e = .ok (some literals) ∧ d.FirstPath e literals) := by
  have hfound : e ≠ .zero →
      ∃ literals, d.onePath e = .ok (some literals) ∧ d.FirstPath e literals := by
    intro hne
    obtain ⟨literals, hok, hpath⟩ := hd.pathFrom_ok he hne hvars
    have hfirst := hd.highFirst_of_pathFrom he hne hvars hok
    obtain ⟨vars, hsupport, -, hmem⟩ := hd.support_ok he
    refine ⟨literals, ?_, hpath.ascending, hpath.ne_zero, ⟨vars, hsupport, fun l hl => ?_⟩, ?_, ?_⟩
    · rw [onePath, if_neg hne, hok]
      rfl
    · exact (hmem _).mpr (hfirst.dependsOn hd he l hl)
    · exact fun env hall => hpath.leads env (List.all_eq_true.mpr hall)
    · intro before v after hsplit env hbefore htrue
      have hv : -(v : Int) ≠ 0 := hpath.ne_zero _ (by simp [hsplit])
      exact hfirst.forced hd he (by omega) hsplit hbefore htrue
  refine ⟨⟨fun hnone => ?_, fun hzero => if_pos hzero⟩, hfound⟩
  -- A function other than falsehood has a path, so the answer is not empty.
  by_contra hne
  obtain ⟨literals, hok, -⟩ := hfound hne
  cases hnone.symm.trans hok

/-- The path to the difference of two variables makes the first one true and, as it has to, the
    second one false. -/
theorem Manager.onePath_highFirst_of_difference : ∃ (d : Manager) (e : Edge), d.WellFormed ∧
    d.Valid e ∧ (∀ v, d.DependsOn e v → v < 2 ^ 31) ∧ e ≠ .zero ∧
      d.onePath e = .ok (some [1, -2]) ∧ d.FirstPath e [1, -2] := by
  obtain ⟨⟨e, d, vars, path⟩, hrun, hok⟩ := exists_of_toOption_any (x := do
      let d ← Manager.empty 0
      let r ← mkVar 2 d
      let s ← mkVar 1 r.2
      let t ← conj s.1 (-r.1) s.2
      let vars ← t.2.support t.1
      let path ← t.2.onePath t.1
      pure (t.1, t.2, vars, path))
    (p := fun r => decide (r.2.2 = ([1, 2], some [1, -2]))) (by decide +kernel)
  obtain ⟨rfl, rfl⟩ := Prod.mk.inj (of_decide_eq_true hok)
  obtain ⟨d₀, hempty, hrun⟩ := exists_ok_of_bind hrun
  obtain ⟨⟨y, d₁⟩, hy, hrun⟩ := exists_ok_of_bind hrun
  obtain ⟨⟨x, d₂⟩, hx, hrun⟩ := exists_ok_of_bind hrun
  obtain ⟨⟨f, d₃⟩, hf, hrun⟩ := exists_ok_of_bind hrun
  obtain ⟨_, hsupport, hrun⟩ := exists_ok_of_bind hrun
  obtain ⟨_, hpath, hrun⟩ := exists_ok_of_bind hrun
  cases hrun
  have h₀ : d₀.Reached [.one, .zero] := ⟨0, d₀, hempty, .refl⟩
  have h₁ := h₀.operate (.var 2) (by simp [Operation.operands]) trivial hy
  have h₂ := h₁.operate (.var 1) (by simp [Operation.operands]) trivial hx
  have h₃ := h₂.operate (.not y) (by simp [Operation.operands]) trivial rfl
  have h₄ := h₃.operate (.conj x (-y)) (by simp [Operation.operands]) trivial hf
  have hvalid := h₄.valid f List.mem_cons_self
  have hvars : ∀ v, d₃.DependsOn f v → v < 2 ^ 31 := by
    obtain ⟨vars, hvars, -, hmem⟩ := h₄.wellFormed.support_ok hvalid
    obtain rfl : [1, 2] = vars := Except.ok.inj (hsupport.symm.trans hvars)
    intro v hv
    have hlisted := (hmem v).mpr hv
    simp at hlisted
    omega
  obtain ⟨hnone, hfirst⟩ := Manager.onePath_highFirst h₄.wellFormed hvalid hvars
  have hne : f ≠ .zero := by
    intro hzero
    cases (hnone.mpr hzero).symm.trans hpath
  obtain ⟨literals, hliterals, hpaths⟩ := hfirst hne
  cases hpath.symm.trans hliterals
  exact ⟨d₃, f, h₄.wellFormed, hvalid, hvars, hne, hpath, hpaths⟩

end Stimulus
