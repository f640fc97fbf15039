import Stimulus.Proofs.Diagram.Literal

/-!
# Computing what is stored already

A conditional whose function is stored already is answered by the stored edge, and the computation
stores nothing.  So it makes no difference to the nodes whether the computed table still remembers
the answer: what was forgotten is computed again from nodes that are there.

The recursion of the conditional passes through the cofactors of the stored edge.  These are stored
as well, because every node is stored after its children.

Main statements:
- `Manager.WellFormed.answers_of_value_eq`
- `mkNode_recalls`
- `iteTriple_recalls`
-/

namespace Stimulus

namespace Manager

variable {d : Manager} {t s low high : Triple} {e f : Edge} {v : Nat}

/-! ## §1 Functions determine their edges -/

/-- A conditional does not depend on a variable above those that it tests. -/
theorem WellFormed.choice_update (hd : d.WellFormed) (ht : t.All d.Valid)
    (hv : t.All (d.StartsFrom (v + 1))) (env : Nat → Bool) (b : Bool) :
    d.choice (Function.update env v b) t = d.choice env t := by
  simp only [choice, hd.value_update ht.cond hv.cond, hd.value_update ht.yes hv.yes,
    hd.value_update ht.no hv.no]

/-- An edge with the function of a conditional answers it: the variables that it tests matter to its
    function. -/
theorem WellFormed.answers_of_value_eq (hd : d.WellFormed) (ht : t.All d.Valid) (he : d.Valid e)
    (h : ∀ env, d.value env e = d.choice env t) : d.Answers t e := by
  refine ⟨he, h, fun v hv => ?_⟩
  by_cases hterm : e.isTerminal = true
  · exact .inl hterm
  obtain ⟨n, hn, hred⟩ := hd.exists_reduced he hterm
  refine .inr ⟨n, hn, ?_⟩
  by_contra hlt
  obtain ⟨env, b, hne⟩ := hd.dependsOn_var he hn hred
  have hbelow : t.All (d.StartsFrom (n.var + 1)) := hv.imp fun _ hs => hs.mono (by omega)
  apply hne
  rw [h, h, hd.choice_update ht hbelow]

/-- A conditional has one answer. -/
theorem WellFormed.eq_of_answers (hd : d.WellFormed) (he : d.Answers t e) (hf : d.Answers t f) :
    e = f := by
  apply hd.eq_of_value_eq he.valid hf.valid
  intro env
  rw [he.value_eq, hf.value_eq]

/-- What answers a conditional answers its standard form, up to the same complement. -/
theorem Standardizes.answers_back {c : Bool} (h : d.Standardizes t s c) (hd : d.WellFormed)
    (he : d.Answers t e) : d.Answers s (e.complementIf c) := by
  apply hd.answers_of_value_eq h.valid (he.valid.complementIf c)
  intro env
  rw [value_complementIf he.valid.index_ne_zero, he.value_eq, h.choice_eq]
  simp

/-- The cofactors of an answer answer the cofactors of the conditional. -/
theorem Splits.answers_cofactors {lo hi : Edge} (h : d.Splits v s low high) (hd : d.WellFormed)
    (he : d.Answers s e) (hcof : d.Cofactors v e lo hi) : d.Answers low lo ∧ d.Answers high hi := by
  constructor
  · apply hd.answers_of_value_eq h.low_valid hcof.low_valid
    intro env
    -- Where the variable is false, the conditional is its low cofactor, and so is its answer.
    have hsame := he.value_eq (Function.update env v false)
    rw [hcof.value_eq, h.choice_eq, Function.update_self] at hsame
    simpa [hd.value_update hcof.low_valid hcof.low_below,
      hd.choice_update h.low_valid h.low_below] using hsame
  · apply hd.answers_of_value_eq h.high_valid hcof.high_valid
    intro env
    -- And where it is true, its high cofactor.
    have hsame := he.value_eq (Function.update env v true)
    rw [hcof.value_eq, h.choice_eq, Function.update_self] at hsame
    simpa [hd.value_update hcof.high_valid hcof.high_below,
      hd.choice_update h.high_valid h.high_below] using hsame

end Manager

/-! ## §2 Nodes -/

section

variable {d : Manager} {v : Nat} {low high e : Edge}

namespace Manager

/-- A decision that is stored under an edge is stored as a node of that form. -/
theorem WellFormed.node_of_decides (hd : d.WellFormed) (hlow : d.Valid low) (hhigh : d.Valid high)
    (hlow' : d.StartsFrom (v + 1) low) (hhigh' : d.StartsFrom (v + 1) high)
    (hreg : high.isComplement = false) (hne : low ≠ high) (he : d.Decides v low high e) :
    d.node e.index = .ok ⟨v, low, high⟩ ∧ e.isComplement = false := by
  have hvalue : ∀ env b, d.value (Function.update env v b) e =
      if b then d.value env high else d.value env low := by
    intro env b
    rw [he.value_eq, Function.update_self, hd.value_update hlow hlow', hd.value_update hhigh hhigh']
  -- If the function did not depend on the variable, both branches would be the same.
  have hdep : ¬ d.StartsFrom (v + 1) e := by
    intro hs
    apply hne
    apply hd.eq_of_value_eq hlow hhigh
    intro env
    have hfalse := hvalue env false
    have htrue := hvalue env true
    rw [hd.value_update he.valid hs] at hfalse htrue
    exact hfalse.symm.trans htrue
  have hterm : ¬ e.isTerminal = true := fun h => hdep (.inl h)
  obtain ⟨n, hn, hred⟩ := hd.exists_reduced he.valid hterm
  -- A node that tests an earlier variable would make the function depend on it.
  have hvar : n.var = v := by
    have hle := he.startsFrom.le_var hterm hn
    by_contra hother
    exact hdep (.inr ⟨n, hn, by omega⟩)
  have hchild := fun env => hd.value_child he.valid hn hred env
  -- Its branches mean what the given edges mean, and edges of one meaning are equal.
  have hlowEq : n.low.complementIf e.isComplement = low := by
    apply hd.eq_of_value_eq (hred.low_valid.complementIf _) hlow
    intro env
    rw [(hchild env).1, hvar, hvalue]
    rfl
  have hhighEq : n.high.complementIf e.isComplement = high := by
    apply hd.eq_of_value_eq (hred.high_valid.complementIf _) hhigh
    intro env
    rw [(hchild env).2, hvar, hvalue]
    rfl
  -- The high edges of both carry no mark, hence the edge carries none.
  have hmark : e.isComplement = false := by
    have h := Edge.isComplement_complementIf hred.high_valid.index_ne_zero e.isComplement
    rw [hhighEq, hreg, hred.high_regular, Bool.false_xor] at h
    exact h.symm
  rw [hmark] at hlowEq hhighEq
  obtain ⟨nv, nlow, nhigh⟩ := n
  cases hvar
  cases hlowEq
  cases hhighEq
  exact ⟨hn, hmark⟩

end Manager

/-- A decision that is stored is found. -/
theorem shareNode_recalls (hd : d.WellFormed) (hv : v ≠ 0) (hlow : d.Valid low)
    (hhigh : d.Valid high) (hlow' : d.StartsFrom (v + 1) low) (hhigh' : d.StartsFrom (v + 1) high)
    (hreg : high.isComplement = false) (he : d.Decides v low high e) :
    shareNode v low high d = .ok (e, d) := by
  unfold shareNode
  by_cases heq : low = high
  · -- No node is made for equal branches, and the edge that decides them is one of them.
    have hsame : low = e := by
      apply hd.eq_of_value_eq hlow he.valid
      intro env
      rw [he.value_eq, heq, ite_self]
    rw [if_pos heq, hsame]
  · obtain ⟨hnode, hmark⟩ := hd.node_of_decides hlow hhigh hlow' hhigh' hreg heq he
    obtain ⟨hindex, hget⟩ := Manager.node_eq_ok.mp hnode
    -- The table holds the node already, so nothing is stored and the limit is not met.
    have hput := hd.shared.put_of_stored (v := ⟨v, low, high⟩) hv hget
    have hlimit : e.index < d.limit := Nat.lt_of_le_of_lt he.valid.index_le hd.nodeCount_lt
    have hedge : Edge.positive e.index = e := by
      apply Edge.ext_index
      · exact Edge.index_positive e.index
      · rw [Edge.isComplement_positive, hmark]
    rw [if_neg heq]
    dsimp only
    rw [hput, Nat.sub_add_cancel (Nat.pos_of_ne_zero hindex), if_pos hlimit, hedge]

/-- Making a node that is stored stores nothing. -/
theorem mkNode_recalls (hd : d.WellFormed) (hv : v ≠ 0) (hlow : d.Valid low) (hhigh : d.Valid high)
    (hlow' : d.StartsFrom (v + 1) low) (hhigh' : d.StartsFrom (v + 1) high)
    (he : d.Decides v low high e) : mkNode v low high d = .ok (e, d) := by
  unfold mkNode
  rw [if_neg hv]
  by_cases hc : high.isComplement = true
  · rw [if_pos hc]
    have hreg : (-high).isComplement = false := by
      simp [Edge.isComplement_neg hhigh.index_ne_zero, hc]
    -- The node is kept with the opposite branches, and found as the opposite edge.
    have hneg : d.Decides v (-low) (-high) (-e) := by
      apply Manager.Decides.neg _ hlow.neg hhigh.neg
      rwa [Edge.neg_neg, Edge.neg_neg]
    have hshare := shareNode_recalls hd hv hlow.neg hhigh.neg hlow'.neg hhigh'.neg hreg hneg
    dsimp only
    rw [bind_of_run hshare, Edge.neg_neg]
    rfl
  · rw [if_neg hc]
    exact shareNode_recalls hd hv hlow hhigh hlow' hhigh' (by simpa using hc) he

end

/-! ## §3 Conditionals -/

/-- The node of an answer that is stored is found again, and only the computed table changes. -/
theorem combine_recalls {d : Manager} {s : Triple} {v : Nat} {no yes e : Edge} (hd : d.WellFormed)
    (hv : v ≠ 0) (hno : d.Valid no) (hyes : d.Valid yes) (hno' : d.StartsFrom (v + 1) no)
    (hyes' : d.StartsFrom (v + 1) yes) (he : d.Decides v no yes e) (complemented : Bool) :
    (do
      let e ← mkNode v no yes
      remember s e
      return e.complementIf complemented : Build Edge) d =
        .ok (e.complementIf complemented, ⟨d.nodes, d.computed.remember s e, d.limit⟩) := by
  rw [bind_of_run (mkNode_recalls hd hv hno hyes hno' hyes' he)]
  rfl

/-- A conditional whose answer is stored gets this answer, and nothing is stored. -/
theorem iteTriple_recalls {d : Manager} {t : Triple} {e : Edge} (hd : d.WellFormed)
    (ht : t.All d.Valid) (he : d.Answers t e) :
    ∃ d', iteTriple t d = .ok (e, d') ∧ d'.nodes = d.nodes := by
  -- What is computed again differs from call to call, so the answer is generalized as well.
  induction hw : t.weight using Nat.strongRecOn generalizing t d e with
  | _ w ih =>
    have hspec := Manager.standardize_spec hd ht
    rw [iteTriple]
    cases hs : t.standardize with
    | settled f =>
      rw [hs] at hspec
      refine ⟨d, ?_, rfl⟩
      rw [hd.eq_of_answers hspec he]
      rfl
    | pending s c =>
      rw [hs] at hspec
      have hback : (e.complementIf c).complementIf c = e := by
        cases c <;> simp [Edge.complementIf]
      have hnofault : fetch s d ≠ .error .tooManyNodes := by
        intro h
        cases h
      obtain ⟨found, d₁, hfetch, hext₁, hwf₁, hnodes₁, hfound⟩ :=
        (fetch_delivers hd s).run.resolve_left hnofault
      have hs₁ := (hspec.answers_back hd he).mono hspec.valid hext₁
      dsimp only
      rw [bind_of_run hfetch]
      cases found with
      | some f =>
        -- The answer is remembered.
        have hsame := hwf₁.eq_of_answers (hfound f rfl) hs₁
        refine ⟨d₁, ?_, hnodes₁⟩
        dsimp only
        rw [hsame, hback]
        rfl
      | none =>
        -- It is computed again, from the cofactors of the edge that is stored.
        have hspec₁ := hspec.mono ht hext₁
        obtain ⟨v, low, high, hexpand, htop, hsplit⟩ :=
          Manager.expand_ok hwf₁ hspec₁.valid hspec₁.cond_not_terminal
        obtain ⟨hlow, hhigh⟩ := hspec₁.cofactors_lt hsplit
        dsimp only
        rw [bind_of_run hexpand]
        dsimp only
        rw [if_pos ⟨hlow, hhigh⟩]
        have hfirst := hs₁.startsFrom v htop.startsFrom
        obtain ⟨lo, hi, -, hcof⟩ := Manager.cofactors_ok hwf₁ hs₁.valid hfirst
        obtain ⟨hlo, hhi⟩ := hsplit.answers_cofactors hwf₁ hs₁ hcof
        obtain ⟨d₂, hno, hnodes₂⟩ := ih _ (hw ▸ hlow) hwf₁ hsplit.low_valid hlo rfl
        obtain ⟨hext₂, hwf₂, -⟩ := (iteTriple_delivers hwf₁ hsplit.low_valid).of_run hno
        have hsplit₂ := hsplit.mono hspec₁.valid hext₂
        obtain ⟨d₃, hyes, hnodes₃⟩ := ih _ (hw ▸ hhigh) hwf₂ hsplit₂.high_valid
          (hhi.mono hsplit.high_valid hext₂) rfl
        obtain ⟨hext₃, hwf₃, -⟩ := (iteTriple_delivers hwf₂ hsplit₂.high_valid).of_run hyes
        -- Nothing was stored on the way, so the node of the answer is still the one that is found.
        have hext := hext₂.trans hext₃
        have hdec : d₁.Decides v lo hi (e.complementIf c) := ⟨hs₁.valid, hcof.value_eq, hfirst⟩
        have hcombine := combine_recalls (s := s) hwf₃ (htop.ne_zero hwf₁ hspec₁.valid)
          (hext.valid hcof.low_valid) (hext.valid hcof.high_valid)
          (hext.startsFrom hcof.low_below) (hext.startsFrom hcof.high_below)
          (hdec.mono hcof.low_valid hcof.high_valid hext) c
        rw [bind_of_run hno, bind_of_run hyes, hcombine, hback]
        exact ⟨_, rfl, (hnodes₃.trans hnodes₂).trans hnodes₁⟩

end Stimulus
