import Stimulus.Proofs.Diagram.Invariant

/-!
# Laws of the conditional

The conditional answers if-then-else of its three functions.  Its recursion passes from a
conditional to its standard form, from there to the two cofactors on the top variable, and back
through the shared nodes; the answer is remembered under the standard form.  Each of these steps
has a law of its own, and one induction on the weight of the conditional puts them together.

Main definitions:
- `Manager.Standardizes`: a conditional and its standard form
- `Manager.Splits`: a conditional and its two cofactors

Main statements:
- `iteTriple_delivers`, `ite_delivers`
- `conj_delivers`, `disj_delivers`, `xor_delivers`, `iff_delivers`, `imply_delivers`
- `conjAll_delivers`, `disjAny_delivers`
-/

namespace Stimulus

namespace Manager

variable {d : Manager} {t s : Triple} {e : Edge} {v : Nat}

/-! ## §1 Standard forms -/

theorem choice_of_branches_eq (h : t.yes = t.no) (env : Nat → Bool) :
    d.choice env t = d.value env t.yes := by
  simp [choice, h]

/-- A conditional that needs no computation is answered by one of its parts. -/
theorem answers_of_obvious (ht : t.All d.Valid) (h : t.obvious? = some e) : d.Answers t e := by
  unfold Triple.obvious? at h
  split at h
  · -- Both branches agree.
    rename_i heq
    cases h
    exact ⟨ht.yes, fun env => (choice_of_branches_eq heq env).symm, fun v hv => hv.yes⟩
  · split at h
    · -- The branches are truth and falsehood.
      rename_i hconst
      cases h
      refine ⟨ht.cond, fun env => ?_, fun v hv => hv.cond⟩
      cases hc : d.value env t.cond <;> simp [choice, hconst.1, hconst.2, hc]
    · split at h
      · -- The branches are falsehood and truth.
        rename_i hconst
        cases h
        refine ⟨ht.cond.neg, fun env => ?_, fun v hv => hv.cond.neg⟩
        rw [value_neg ht.cond.index_ne_zero]
        cases hc : d.value env t.cond <;> simp [choice, hconst.1, hconst.2, hc]
      · cases h

/-- Replacing branches that the condition decides keeps the parts in a set of edges that has the
    constants. -/
theorem all_simplify {p : Edge → Prop} (h1 : p .one) (h0 : p .zero) (ht : t.All p) :
    t.simplify.All p := by
  refine ⟨ht.cond, ?_, ?_⟩
  · simp only [Triple.simplify]
    split
    · exact h1
    · split
      · exact h0
      · exact ht.yes
  · simp only [Triple.simplify]
    split
    · exact h0
    · split
      · exact h1
      · exact ht.no

/-- A branch matters only where the condition selects it. -/
theorem choice_simplify (hc : t.cond.index ≠ 0) (env : Nat → Bool) :
    d.choice env t.simplify = d.choice env t := by
  have hyes : d.value env t.cond = true →
      d.value env t.simplify.yes = d.value env t.yes := by
    intro htrue
    simp only [Triple.simplify]
    split
    · rename_i heq
      simp [heq, htrue]
    · split
      · rename_i heq
        simp [heq, value_neg hc, htrue]
      · rfl
  have hno : d.value env t.cond = false → d.value env t.simplify.no = d.value env t.no := by
    intro hfalse
    simp only [Triple.simplify]
    split
    · rename_i heq
      simp [heq, hfalse]
    · split
      · rename_i heq
        simp [heq, value_neg hc, hfalse]
      · rfl
  have hcond : t.simplify.cond = t.cond := rfl
  -- Whichever branch the condition selects is the one that was replaced truly.
  rw [choice, choice, hcond]
  cases hval : d.value env t.cond with
  | false => simpa using hno hval
  | true => simpa using hyes hval

theorem weight_simplify_le (ht : t.All d.Valid) : t.simplify.weight ≤ t.weight := by
  -- A branch stays or becomes a constant, and the constants have the least index.
  have hyes : t.simplify.yes.index ≤ t.yes.index := by
    have := ht.yes.index_pos
    simp only [Triple.simplify]
    split
    · exact this
    · split
      · exact this
      · exact Nat.le_refl _
  have hno : t.simplify.no.index ≤ t.no.index := by
    have := ht.no.index_pos
    simp only [Triple.simplify]
    split
    · exact this
    · split
      · exact this
      · exact Nat.le_refl _
  have hcond : t.simplify.cond = t.cond := rfl
  simp only [Triple.weight, hcond]
  omega

/-- The standard form `s` answers for `t`, up to a complement of the outcome: it tests no earlier
    variable, weighs no more, and its condition is not constant. -/
structure Standardizes (d : Manager) (t s : Triple) (complemented : Bool) : Prop where
  valid : s.All d.Valid
  choice_eq : ∀ env, d.choice env t = (d.choice env s ^^ complemented)
  startsFrom : ∀ v, t.All (d.StartsFrom v) → s.All (d.StartsFrom v)
  weight_le : s.weight ≤ t.weight
  cond_not_terminal : ¬ s.cond.isTerminal = true

/-- The answer of the standard form answers the conditional. -/
theorem Standardizes.answers {c : Bool} (h : d.Standardizes t s c) (he : d.Answers s e) :
    d.Answers t (e.complementIf c) where
  valid := he.valid.complementIf c
  value_eq env := by
    rw [value_complementIf he.valid.index_ne_zero, he.value_eq, h.choice_eq]
  startsFrom v hv := (he.startsFrom v (h.startsFrom v hv)).complementIf c

theorem Standardizes.mono {d' : Manager} {c : Bool} (h : d.Standardizes t s c)
    (ht : t.All d.Valid) (hd : d.Extends d') : d'.Standardizes t s c where
  valid := h.valid.imp fun _ => hd.valid
  choice_eq env := by rw [hd.choice_eq ht, hd.choice_eq h.valid, h.choice_eq]
  startsFrom v hv := (h.startsFrom v (hd.all_startsFrom ht hv)).imp fun _ => hd.startsFrom
  weight_le := h.weight_le
  cond_not_terminal := h.cond_not_terminal

/-- Swapping the branches of a complemented condition. -/
theorem choice_swap (hc : t.cond.index ≠ 0) (env : Nat → Bool) :
    d.choice env ⟨-t.cond, t.no, t.yes⟩ = d.choice env t := by
  simp only [choice, value_neg hc]
  cases d.value env t.cond <;> simp

/-- Complementing both branches complements the outcome. -/
theorem choice_complement (ht : t.All d.Valid) (env : Nat → Bool) :
    d.choice env ⟨t.cond, -t.yes, -t.no⟩ = !d.choice env t := by
  simp only [choice, value_neg ht.yes.index_ne_zero, value_neg ht.no.index_ne_zero]
  split <;> rfl

theorem standardizes_orient (ht : t.All d.Valid) (hc : ¬ t.cond.isTerminal = true) {c : Bool}
    (h : t.orient = .pending s c) : d.Standardizes t s c := by
  -- First make the condition regular ...
  let r : Triple := if t.cond.isComplement then ⟨-t.cond, t.no, t.yes⟩ else t
  have hr : d.Standardizes t r false := by
    by_cases hcomp : t.cond.isComplement = true
    · have hr : r = ⟨-t.cond, t.no, t.yes⟩ := if_pos hcomp
      rw [hr]
      refine ⟨⟨ht.cond.neg, ht.no, ht.yes⟩, ?_, ?_, ?_, ?_⟩
      · intro env
        rw [choice_swap ht.cond.index_ne_zero, Bool.xor_false]
      · intro v hv
        exact ⟨hv.cond.neg, hv.no, hv.yes⟩
      · simp only [Triple.weight, Edge.index_neg]
        omega
      · simpa [Edge.isTerminal] using hc
    · have hr : r = t := if_neg hcomp
      rw [hr]
      exact ⟨ht, fun env => (Bool.xor_false _).symm, fun v hv => hv, Nat.le_refl _, hc⟩
  -- ... then the first branch.
  have horient : t.orient = if r.yes.isComplement then .pending ⟨r.cond, -r.yes, -r.no⟩ true
      else .pending r false := rfl
  rw [horient] at h
  split at h
  · -- A complemented first branch: both branches and the outcome are turned round.
    obtain ⟨rfl, rfl⟩ := Standard.pending.inj h
    have hvalid := hr.valid
    refine ⟨⟨hvalid.cond, hvalid.yes.neg, hvalid.no.neg⟩, ?_, ?_, ?_, hr.cond_not_terminal⟩
    · intro env
      rw [choice_complement hvalid, hr.choice_eq]
      simp
    · intro v hv
      have hv' := hr.startsFrom v hv
      exact ⟨hv'.cond, hv'.yes.neg, hv'.no.neg⟩
    · have := hr.weight_le
      simpa only [Triple.weight, Edge.index_neg] using this
  · obtain ⟨rfl, rfl⟩ := Standard.pending.inj h
    exact hr

/-- Orienting never settles a conditional. -/
theorem exists_orient (t : Triple) : ∃ s c, t.orient = .pending s c := by
  unfold Triple.orient
  dsimp only
  generalize (if t.cond.isComplement then ⟨-t.cond, t.no, t.yes⟩ else t : Triple) = r
  by_cases hyes : r.yes.isComplement = true
  · exact ⟨_, _, if_pos hyes⟩
  · exact ⟨_, _, if_neg hyes⟩

theorem Answers.of_simplify (ht : t.All d.Valid) (h : d.Answers t.simplify e) : d.Answers t e where
  valid := h.valid
  value_eq env := by rw [h.value_eq, choice_simplify ht.cond.index_ne_zero]
  startsFrom v hv := h.startsFrom v (all_simplify startsFrom_one startsFrom_zero hv)

/-- A conditional is settled with its answer, or it is left in a standard form. -/
theorem standardize_spec (hd : d.WellFormed) (ht : t.All d.Valid) :
    match t.standardize with
    | .settled e => d.Answers t e
    | .pending s c => d.Standardizes t s c := by
  unfold Triple.standardize
  by_cases hone : t.cond = .one
  · rw [if_pos hone]
    exact ⟨ht.yes, fun env => by simp [choice, hone], fun v hv => hv.yes⟩
  rw [if_neg hone]
  by_cases hzero : t.cond = .zero
  · rw [if_pos hzero]
    exact ⟨ht.no, fun env => by simp [choice, hzero], fun v hv => hv.no⟩
  rw [if_neg hzero]
  -- From here on the condition is not constant.
  have hcond : ¬ t.cond.isTerminal = true := fun h => (eq_one_or_eq_zero h).elim hone hzero
  have hsimple : t.simplify.All d.Valid := all_simplify hd.valid_one hd.valid_zero ht
  cases hobv : t.obvious? with
  | some e => exact answers_of_obvious ht hobv
  | none =>
    cases hobv' : t.simplify.obvious? with
    | some e => exact (answers_of_obvious hsimple hobv').of_simplify ht
    | none =>
      -- Nothing is obvious, so the simplified conditional is oriented.
      obtain ⟨s, c, horient⟩ := exists_orient t.simplify
      have h := standardizes_orient hsimple hcond horient
      simp only [horient]
      refine ⟨h.valid, fun env => ?_, fun v hv => ?_, ?_, h.cond_not_terminal⟩
      · rw [← choice_simplify ht.cond.index_ne_zero, h.choice_eq]
      · exact h.startsFrom v (all_simplify startsFrom_one startsFrom_zero hv)
      · exact Nat.le_trans h.weight_le (weight_simplify_le ht)

/-! ## §2 Cofactors -/

/-- The edge tests variable `v` first. -/
def Tests (d : Manager) (v : Nat) (e : Edge) : Prop :=
  ¬ e.isTerminal = true ∧ ∃ n, d.node e.index = .ok n ∧ n.var = v

/-- The functions that remain of an edge when `v`, which lies above or at its first test, is false
    and when it is true.  They weigh less if the edge does test `v`. -/
structure Cofactors (d : Manager) (v : Nat) (e low high : Edge) : Prop where
  low_valid : d.Valid low
  high_valid : d.Valid high
  low_below : d.StartsFrom (v + 1) low
  high_below : d.StartsFrom (v + 1) high
  value_eq : ∀ env, d.value env e = if env v then d.value env high else d.value env low
  low_le : low.index ≤ e.index
  high_le : high.index ≤ e.index
  lt_of_tests : d.Tests v e → low.index < e.index ∧ high.index < e.index

/-- An edge that starts below `v` is its own cofactor. -/
theorem cofactors_self (he : d.Valid e) (hs : d.StartsFrom (v + 1) e) : d.Cofactors v e e e where
  low_valid := he
  high_valid := he
  low_below := hs
  high_below := hs
  value_eq env := by simp
  low_le := Nat.le_refl _
  high_le := Nat.le_refl _
  lt_of_tests h := by
    obtain ⟨hterm, n, hn, hvar⟩ := h
    have hle := hs.le_var hterm hn
    omega

theorem cofactors_ok (hd : d.WellFormed) (he : d.Valid e) (hs : d.StartsFrom v e) :
    ∃ low high, d.cofactors e v = .ok (low, high) ∧ d.Cofactors v e low high := by
  unfold cofactors
  by_cases hterm : e.isTerminal = true
  · -- A constant does not depend on `v`.
    rw [if_pos hterm]
    exact ⟨e, e, rfl, cofactors_self he (.inl hterm)⟩
  rw [if_neg hterm]
  obtain ⟨n, hn, hred⟩ := hd.exists_reduced he hterm
  have hle : v ≤ n.var := hs.le_var hterm hn
  simp only [hn, bind, Except.bind]
  by_cases hlt : v < n.var
  · -- Neither does a function whose first test lies below.
    rw [if_pos hlt]
    exact ⟨e, e, rfl, cofactors_self he (.inr ⟨n, hn, hlt⟩)⟩
  · -- The node tests `v`, so its children take over the mark of the edge.
    have heq : v = n.var := by omega
    rw [if_neg hlt, if_pos heq]
    refine ⟨_, _, rfl, ?_⟩
    have hdec := decides_of_reduced he hn hred
    subst heq
    exact {
      low_valid := hred.low_valid.complementIf _
      high_valid := hred.high_valid.complementIf _
      low_below := hred.low_below.complementIf _
      high_below := hred.high_below.complementIf _
      value_eq := hdec.value_eq
      low_le := by simpa using Nat.le_of_lt hred.low_lt
      high_le := by simpa using Nat.le_of_lt hred.high_lt
      lt_of_tests := fun _ => by simpa using And.intro hred.low_lt hred.high_lt }

/-- The first variable of an edge, if it has one, joins the least variable met before. -/
theorem topVar?_spec (hd : d.WellFormed) (he : d.Valid e) :
    ∃ top, d.topVar? e = .ok top ∧ ∀ v, top.elim id min v ≤ v ∧
      d.StartsFrom (top.elim id min v) e ∧
      (top.elim id min v = v ∨ d.Tests (top.elim id min v) e) := by
  unfold topVar?
  by_cases hterm : e.isTerminal = true
  · exact ⟨none, if_pos hterm, fun v => ⟨Nat.le_refl v, .inl hterm, .inl rfl⟩⟩
  · obtain ⟨n, hn, -⟩ := hd.exists_reduced he hterm
    refine ⟨some n.var, ?_, fun v => ⟨Nat.min_le_right _ _, ?_, ?_⟩⟩
    · rw [if_neg hterm]
      simp [hn, bind, Except.bind, pure, Except.pure]
    · exact .inr ⟨n, hn, Nat.min_le_left _ _⟩
    · show min n.var v = v ∨ d.Tests (min n.var v) e
      rcases Nat.le_total n.var v with hle | hle
      · rw [Nat.min_eq_left hle]
        exact .inr ⟨hterm, n, hn, rfl⟩
      · exact .inl (Nat.min_eq_right hle)

theorem Tests.ne_zero (hd : d.WellFormed) (he : d.Valid e) (h : d.Tests v e) : v ≠ 0 := by
  obtain ⟨hterm, n, hn, rfl⟩ := h
  obtain ⟨m, hm, hred⟩ := hd.exists_reduced he hterm
  have hmn : m = n := Except.ok.inj (hm.symm.trans hn)
  exact hmn ▸ hred.var_ne_zero

theorem Tests.le {w : Nat} (h : d.Tests v e) (hs : d.StartsFrom w e) : w ≤ v := by
  obtain ⟨hterm, n, hn, rfl⟩ := h
  exact hs.le_var hterm hn

/-- Variable `v` is the first that the conditional tests. -/
structure TopOf (d : Manager) (v : Nat) (t : Triple) : Prop where
  startsFrom : t.All (d.StartsFrom v)
  tests : d.Tests v t.cond ∨ d.Tests v t.yes ∨ d.Tests v t.no

theorem TopOf.ne_zero (h : d.TopOf v t) (hd : d.WellFormed) (ht : t.All d.Valid) : v ≠ 0 := by
  rcases h.tests with h | h | h
  · exact h.ne_zero hd ht.cond
  · exact h.ne_zero hd ht.yes
  · exact h.ne_zero hd ht.no

/-- No part of the conditional starts below the first variable that it tests. -/
theorem TopOf.le (h : d.TopOf v t) {w : Nat} (hw : t.All (d.StartsFrom w)) : w ≤ v := by
  rcases h.tests with h | h | h
  · exact h.le hw.cond
  · exact h.le hw.yes
  · exact h.le hw.no

/-- The condition of a standard form has a first variable, which each branch may lower. -/
theorem topVar_ok (hd : d.WellFormed) (ht : t.All d.Valid) (hc : ¬ t.cond.isTerminal = true) :
    ∃ v, d.topVar t = .ok v ∧ d.TopOf v t := by
  obtain ⟨n, hn, -⟩ := hd.exists_reduced ht.cond hc
  obtain ⟨topYes, hyes, hyesSpec⟩ := topVar?_spec hd ht.yes
  obtain ⟨topNo, hno, hnoSpec⟩ := topVar?_spec hd ht.no
  obtain ⟨hle, hfrom, htest⟩ := hyesSpec n.var
  obtain ⟨hle', hfrom', htest'⟩ := hnoSpec (topYes.elim id min n.var)
  refine ⟨topNo.elim id min (topYes.elim id min n.var), ?_, ⟨?_, ?_, hfrom'⟩, ?_⟩
  · simp [topVar, hn, hyes, hno, bind, Except.bind, pure, Except.pure]
  · exact .inr ⟨n, hn, Nat.le_trans hle' hle⟩
  · exact hfrom.mono hle'
  · -- The least of the three is one of the three.
    rcases htest' with heq' | htest'
    · rw [heq']
      rcases htest with heq | htest
      · rw [heq]
        exact .inl ⟨hc, n, hn, rfl⟩
      · exact .inr (.inl htest)
    · exact .inr (.inr htest')

/-- The two conditionals that remain of `t` when its first variable `v` is false and when it is
    true. -/
structure Splits (d : Manager) (v : Nat) (t low high : Triple) : Prop where
  low_valid : low.All d.Valid
  high_valid : high.All d.Valid
  low_below : low.All (d.StartsFrom (v + 1))
  high_below : high.All (d.StartsFrom (v + 1))
  choice_eq : ∀ env, d.choice env t = if env v then d.choice env high else d.choice env low
  low_lt : low.weight < t.weight
  high_lt : high.weight < t.weight

theorem split_ok (hd : d.WellFormed) (ht : t.All d.Valid) (hv : d.TopOf v t) :
    ∃ low high, d.split t v = .ok (low, high) ∧ d.Splits v t low high := by
  obtain ⟨c0, c1, hc, hcof⟩ := cofactors_ok hd ht.cond hv.startsFrom.cond
  obtain ⟨y0, y1, hy, hyof⟩ := cofactors_ok hd ht.yes hv.startsFrom.yes
  obtain ⟨n0, n1, hn, hnof⟩ := cofactors_ok hd ht.no hv.startsFrom.no
  refine ⟨⟨c0, y0, n0⟩, ⟨c1, y1, n1⟩, ?_, ?_⟩
  · simp [split, hc, hy, hn, bind, Except.bind, pure, Except.pure]
  · have hle : c0.index ≤ t.cond.index ∧ y0.index ≤ t.yes.index ∧ n0.index ≤ t.no.index ∧
        c1.index ≤ t.cond.index ∧ y1.index ≤ t.yes.index ∧ n1.index ≤ t.no.index :=
      ⟨hcof.low_le, hyof.low_le, hnof.low_le, hcof.high_le, hyof.high_le, hnof.high_le⟩
    -- One of the three tests the variable, and its cofactors weigh less.
    have hlt : (c0.index < t.cond.index ∧ c1.index < t.cond.index) ∨
        (y0.index < t.yes.index ∧ y1.index < t.yes.index) ∨
        (n0.index < t.no.index ∧ n1.index < t.no.index) := by
      rcases hv.tests with h | h | h
      · exact .inl (hcof.lt_of_tests h)
      · exact .inr (.inl (hyof.lt_of_tests h))
      · exact .inr (.inr (hnof.lt_of_tests h))
    exact {
      low_valid := ⟨hcof.low_valid, hyof.low_valid, hnof.low_valid⟩
      high_valid := ⟨hcof.high_valid, hyof.high_valid, hnof.high_valid⟩
      low_below := ⟨hcof.low_below, hyof.low_below, hnof.low_below⟩
      high_below := ⟨hcof.high_below, hyof.high_below, hnof.high_below⟩
      -- All three parts are decided by the same variable.
      choice_eq := fun env => by
        simp only [choice, hcof.value_eq, hyof.value_eq, hnof.value_eq]
        cases env v <;> simp
      low_lt := by simp only [Triple.weight]; omega
      high_lt := by simp only [Triple.weight]; omega }

/-- Splitting finds the first variable of a standard form and its cofactors, and stores nothing. -/
theorem expand_ok (hd : d.WellFormed) (ht : t.All d.Valid) (hc : ¬ t.cond.isTerminal = true) :
    ∃ v low high, expand t d = .ok ((v, low, high), d) ∧ d.TopOf v t ∧ d.Splits v t low high := by
  obtain ⟨v, htop, hv⟩ := topVar_ok hd ht hc
  obtain ⟨low, high, hsplit, hs⟩ := split_ok hd ht hv
  exact ⟨v, low, high, by simp [expand, htop, hsplit], hv, hs⟩

/-- Splitting reads nodes only. -/
theorem expand_congr {d' : Manager} (h : ∀ i, d'.node i = d.node i) (t : Triple) :
    expand t d' = (expand t d).map fun r => (r.1, d') := by
  have htop : d'.topVar t = d.topVar t := by simp only [topVar, topVar?, h]
  have hsplit (v : Nat) : d'.split t v = d.split t v := by simp only [split, cofactors, h]
  unfold expand
  rw [htop]
  cases d.topVar t with
  | error fault => rfl
  | ok v =>
    dsimp only
    rw [hsplit]
    cases d.split t v <;> rfl

theorem expand_delivers (hd : d.WellFormed) (ht : t.All d.Valid)
    (hc : ¬ t.cond.isTerminal = true) :
    Delivers (expand t) d fun r d' =>
      d' = d ∧ d.TopOf r.1 t ∧ d.Splits r.1 t r.2.1 r.2.2 := by
  obtain ⟨v, low, high, hrun, hv, hs⟩ := expand_ok hd ht hc
  -- How many edges there are does not matter.
  have hruns : ∀ limit, expand t (d.withLimit limit) =
      .ok ((v, low, high), d.withLimit limit) := by
    intro limit
    have hnode : ∀ i, (d.withLimit limit).node i = d.node i := fun _ => rfl
    rw [expand_congr hnode, hrun]
    rfl
  exact delivers_of_computed hd hruns hd.computed ⟨rfl, hv, hs⟩

/-- The decision between the answers of the cofactors answers the conditional. -/
theorem Splits.answers {low high : Triple} {no yes : Edge} (h : d.Splits v t low high)
    (hv : d.TopOf v t) (hno : d.Answers low no) (hyes : d.Answers high yes)
    (he : d.Decides v no yes e) : d.Answers t e where
  valid := he.valid
  value_eq env := by rw [he.value_eq, h.choice_eq, hno.value_eq, hyes.value_eq]
  startsFrom _ hw := he.startsFrom.mono (hv.le hw)

/-- The standard form weighs no more than the conditional, and its cofactors weigh less. -/
theorem Standardizes.cofactors_lt {s low high : Triple} {c : Bool} (h : d.Standardizes t s c)
    (hs : d.Splits v s low high) : low.weight < t.weight ∧ high.weight < t.weight :=
  ⟨Nat.lt_of_lt_of_le hs.low_lt h.weight_le, Nat.lt_of_lt_of_le hs.high_lt h.weight_le⟩

theorem Splits.mono {d' : Manager} {low high : Triple} (h : d.Splits v t low high)
    (ht : t.All d.Valid) (hd : d.Extends d') : d'.Splits v t low high where
  low_valid := h.low_valid.imp fun _ => hd.valid
  high_valid := h.high_valid.imp fun _ => hd.valid
  low_below := h.low_below.imp fun _ => hd.startsFrom
  high_below := h.high_below.imp fun _ => hd.startsFrom
  choice_eq env := by
    rw [hd.choice_eq ht, hd.choice_eq h.low_valid, hd.choice_eq h.high_valid, h.choice_eq]
  low_lt := h.low_lt
  high_lt := h.high_lt

theorem TopOf.mono {d' : Manager} (h : d.TopOf v t) (hd : d.Extends d') : d'.TopOf v t where
  startsFrom := h.startsFrom.imp fun _ => hd.startsFrom
  tests := by
    have hkeep : ∀ e, d.Tests v e → d'.Tests v e :=
      fun e ⟨hterm, n, hn, hvar⟩ => ⟨hterm, n, hd.node hn, hvar⟩
    exact h.tests.imp (hkeep _) (Or.imp (hkeep _) (hkeep _))

end Manager

/-! ## §3 The conditional -/

/-- The node between the answers of the cofactors answers the conditional, and so the computed table
    may keep it. -/
theorem combine_delivers {d : Manager} {t s low high : Triple} {v : Nat} {no yes : Edge} {c : Bool}
    (hd : d.WellFormed) (ht : t.All d.Valid) (hspec : d.Standardizes t s c) (htop : d.TopOf v s)
    (hsplit : d.Splits v s low high) (hno : d.Answers low no) (hyes : d.Answers high yes) :
    Delivers (do
      let e ← mkNode v no yes
      remember s e
      return e.complementIf c) d fun e d' => d'.Answers t e := by
  have hv := htop.ne_zero hd hspec.valid
  have hbelow : d.StartsFrom (v + 1) no := hno.startsFrom _ hsplit.low_below
  have hbelow' : d.StartsFrom (v + 1) yes := hyes.startsFrom _ hsplit.high_below
  refine (mkNode_delivers hd hv hno.valid hyes.valid hbelow hbelow').bind
    fun e d₁ hext₁ hwf₁ he => ?_
  have hspec₁ := hspec.mono ht hext₁
  have hsplit₁ := hsplit.mono hspec.valid hext₁
  have hanswer : d₁.Answers s e := hsplit₁.answers (htop.mono hext₁)
    (hno.mono hsplit.low_valid hext₁) (hyes.mono hsplit.high_valid hext₁) he
  refine (remember_delivers hwf₁ hspec₁.valid hanswer).bind fun _ d₂ hext₂ hwf₂ _ => ?_
  -- The complement that the standard form left out is put back.
  exact .pure hwf₂ ((hspec₁.answers hanswer).mono (ht.imp fun _ => hext₁.valid) hext₂)

/-- A conditional is answered: its recursion never meets an unordered node, and it ends because the
    cofactors weigh less. -/
theorem iteTriple_delivers {d : Manager} {t : Triple} (hd : d.WellFormed) (ht : t.All d.Valid) :
    Delivers (iteTriple t) d fun e d' => d'.Answers t e := by
  -- The manager changes from call to call, so it is generalized along with the conditional.
  induction hw : t.weight using Nat.strongRecOn generalizing t d with
  | _ w ih =>
    have hspec := Manager.standardize_spec hd ht
    rw [iteTriple]
    cases hs : t.standardize with
    | settled e =>
      rw [hs] at hspec
      exact .pure hd hspec
    | pending s c =>
      rw [hs] at hspec
      refine (fetch_delivers hd s).bind fun found d₁ hext₁ hwf₁ ⟨_, hfound⟩ => ?_
      have ht₁ : t.All d₁.Valid := ht.imp fun _ => hext₁.valid
      have hspec₁ := hspec.mono ht hext₁
      cases found with
      | some e =>
        -- What the computed table holds answers the standard form.
        exact .pure hwf₁ (hspec₁.answers (hfound e rfl))
      | none =>
        refine (Manager.expand_delivers hwf₁ hspec₁.valid hspec₁.cond_not_terminal).bind
          fun ⟨v, low, high⟩ d₂ _ hwf₂ ⟨hsame, htop, hsplit⟩ => ?_
        subst hsame
        obtain ⟨hlow, hhigh⟩ := hspec₁.cofactors_lt hsplit
        dsimp only
        rw [if_pos ⟨hlow, hhigh⟩]
        refine (ih _ (hw ▸ hlow) hwf₂ hsplit.low_valid rfl).bind fun no d₃ hext₃ hwf₃ hno => ?_
        have hspec₃ := hspec₁.mono ht₁ hext₃
        have hsplit₃ := hsplit.mono hspec₁.valid hext₃
        refine (ih _ (hw ▸ hhigh) hwf₃ hsplit₃.high_valid rfl).bind
          fun yes d₄ hext₄ hwf₄ hyes => ?_
        -- What was known before the recursive calls still holds after them.
        have ht₃ : t.All d₃.Valid := ht₁.imp fun _ => hext₃.valid
        exact combine_delivers hwf₄ (ht₃.imp fun _ => hext₄.valid) (hspec₃.mono ht₃ hext₄)
          ((htop.mono hext₃).mono hext₄) (hsplit₃.mono hspec₃.valid hext₄)
          (hno.mono hsplit₃.low_valid hext₄) hyes

/-! ## §4 Boolean operations -/

namespace Manager

/-- The edge is valid, and its outcome under every assignment is the given one. -/
structure Denotes (d : Manager) (e : Edge) (p : (Nat → Bool) → Bool) : Prop where
  valid : d.Valid e
  value_eq : ∀ env, d.value env e = p env

variable {d d' : Manager} {e : Edge} {p q : (Nat → Bool) → Bool}

theorem Denotes.mono (h : d.Denotes e p) (hd : d.Extends d') : d'.Denotes e p :=
  ⟨hd.valid h.valid, fun env => (hd.value_eq h.valid env).trans (h.value_eq env)⟩

theorem Denotes.congr (h : d.Denotes e p) (hpq : ∀ env, p env = q env) : d.Denotes e q :=
  ⟨h.valid, fun env => (h.value_eq env).trans (hpq env)⟩

theorem Denotes.neg (h : d.Denotes e p) : d.Denotes (-e) fun env => !p env :=
  ⟨h.valid.neg, fun env => by rw [value_neg h.valid.index_ne_zero, h.value_eq]⟩

theorem Valid.denotes (h : d.Valid e) : d.Denotes e fun env => d.value env e := ⟨h, fun _ => rfl⟩

theorem WellFormed.denotes_one (hd : d.WellFormed) : d.Denotes .one fun _ => true :=
  ⟨hd.valid_one, fun _ => value_one⟩

theorem WellFormed.denotes_zero (hd : d.WellFormed) : d.Denotes .zero fun _ => false :=
  ⟨hd.valid_zero, fun _ => value_zero⟩

end Manager

section

variable {d : Manager} {f g h : Edge} {p q r : (Nat → Bool) → Bool}

/-- An operation on functions delivers an edge with a given outcome under every assignment. -/
def Yields (act : Build Edge) (d : Manager) (outcome : (Nat → Bool) → Bool) : Prop :=
  Delivers act d fun e d' => d'.Denotes e outcome

theorem Yields.valid {act : Build Edge} (h : Yields act d p) :
    Delivers act d fun e d' => d'.Valid e :=
  h.imp fun _ _ _ _ he => he.valid

theorem Yields.congr {act : Build Edge} (h : Yields act d p) (hpq : ∀ env, p env = q env) :
    Yields act d q :=
  h.imp fun _ _ _ _ he => he.congr hpq

theorem ite_delivers (hd : d.WellFormed) (hf : d.Denotes f p) (hg : d.Denotes g q)
    (hh : d.Denotes h r) : Yields (ite f g h) d fun env => if p env then q env else r env := by
  have hvalid : (⟨f, g, h⟩ : Triple).All d.Valid := ⟨hf.valid, hg.valid, hh.valid⟩
  refine (iteTriple_delivers hd hvalid).imp fun e d' hext _ ha => ⟨ha.valid, fun env => ?_⟩
  rw [ha.value_eq, hext.choice_eq hvalid, Manager.choice, hf.value_eq, hg.value_eq, hh.value_eq]

theorem conj_delivers (hd : d.WellFormed) (hf : d.Denotes f p) (hg : d.Denotes g q) :
    Yields (conj f g) d fun env => p env && q env :=
  (ite_delivers hd hf hg hd.denotes_zero).congr fun env => by cases p env <;> simp

theorem disj_delivers (hd : d.WellFormed) (hf : d.Denotes f p) (hg : d.Denotes g q) :
    Yields (disj f g) d fun env => p env || q env :=
  (ite_delivers hd hf hd.denotes_one hg).congr fun env => by cases p env <;> simp

theorem xor_delivers (hd : d.WellFormed) (hf : d.Denotes f p) (hg : d.Denotes g q) :
    Yields (xor f g) d fun env => p env ^^ q env :=
  (ite_delivers hd hf hg.neg hg).congr fun env => by cases p env <;> simp

theorem iff_delivers (hd : d.WellFormed) (hf : d.Denotes f p) (hg : d.Denotes g q) :
    Yields (iff f g) d fun env => p env == q env :=
  (ite_delivers hd hf hg hg.neg).congr fun env => by cases p env <;> simp

theorem imply_delivers (hd : d.WellFormed) (hf : d.Denotes f p) (hg : d.Denotes g q) :
    Yields (imply f g) d fun env => !p env || q env :=
  (ite_delivers hd hf hg hd.denotes_one).congr fun env => by cases p env <;> simp

end

/-! ## §5 Conjunctions and disjunctions of lists -/

/-- A conjunction whose members are made one at a time.  Ending early is sound, because falsehood
    absorbs the rest. -/
theorem conjWith_delivers {α : Type} {make : α → Build Edge} {p : α → (Nat → Bool) → Bool}
    {q : (Nat → Bool) → Bool} {d : Manager} {acc : Edge} {xs : List α} (hd : d.WellFormed)
    (hacc : d.Denotes acc q)
    (hmake : ∀ x ∈ xs, ∀ d', d.Extends d' → d'.WellFormed → Yields (make x) d' (p x)) :
    Yields (conjWith make acc xs) d fun env => q env && xs.all (p · env) := by
  induction xs generalizing d acc q with
  | nil => exact .pure hd (hacc.congr fun env => by simp)
  | cons x xs ih =>
    refine (hmake x List.mem_cons_self d (.refl d) hd).bind fun f d₁ hext₁ hwf₁ hf => ?_
    refine (conj_delivers hwf₁ (hacc.mono hext₁) hf).bind fun acc' d₂ hext₂ hwf₂ hacc' => ?_
    by_cases hzero : acc' = .zero
    · -- The rest is skipped.
      rw [if_pos hzero]
      refine .pure hwf₂ (hacc'.congr fun env => ?_)
      have hfalse : (q env && p x env) = false := by
        rw [← hacc'.value_eq, hzero, Manager.value_zero]
      rw [List.all_cons, ← Bool.and_assoc, hfalse, Bool.false_and]
    · -- The rest is made in the manager that is left.
      rw [if_neg hzero]
      have hrest : ∀ y ∈ xs, ∀ d', d₂.Extends d' → d'.WellFormed → Yields (make y) d' (p y) :=
        fun y hy d' hext hwf =>
          hmake y (List.mem_cons_of_mem x hy) d' ((hext₁.trans hext₂).trans hext) hwf
      refine (ih hwf₂ hacc' hrest).congr fun env => ?_
      rw [List.all_cons, Bool.and_assoc]

/-- The conjunction of the functions of a list. -/
theorem conjAll_delivers {d : Manager} {fs : List Edge} (hd : d.WellFormed)
    (hfs : ∀ f ∈ fs, d.Valid f) : Yields (conjAll fs) d fun env => fs.all (d.value env) := by
  have h : Yields (conjAll fs) d fun env => true && fs.all (d.value env) :=
    conjWith_delivers (p := fun f env => d.value env f) hd hd.denotes_one
      fun f hf d' hext hwf => .pure hwf ((hfs f hf).denotes.mono hext)
  exact h.congr fun env => Bool.true_and _

/-- A disjunction of functions that are at hand.  Truth absorbs the rest. -/
theorem disjFrom_delivers {p : Edge → (Nat → Bool) → Bool} {q : (Nat → Bool) → Bool} {d : Manager}
    {acc : Edge} {fs : List Edge} (hd : d.WellFormed) (hacc : d.Denotes acc q)
    (hfs : ∀ f ∈ fs, d.Denotes f (p f)) :
    Yields (disjFrom acc fs) d fun env => q env || fs.any (p · env) := by
  induction fs generalizing d acc q with
  | nil => exact .pure hd (hacc.congr fun env => by simp)
  | cons f fs ih =>
    refine (disj_delivers hd hacc (hfs f List.mem_cons_self)).bind
      fun acc' d₁ hext₁ hwf₁ hacc' => ?_
    by_cases hone : acc' = .one
    · -- The rest is skipped.
      rw [if_pos hone]
      refine .pure hwf₁ (hacc'.congr fun env => ?_)
      have htrue : (q env || p f env) = true := by
        rw [← hacc'.value_eq, hone, Manager.value_one]
      rw [List.any_cons, ← Bool.or_assoc, htrue, Bool.true_or]
    · rw [if_neg hone]
      refine (ih hwf₁ hacc' fun g hg => (hfs g (List.mem_cons_of_mem f hg)).mono hext₁).congr
        fun env => ?_
      rw [List.any_cons, Bool.or_assoc]

/-- The disjunction of the functions of a list. -/
theorem disjAny_delivers {d : Manager} {fs : List Edge} (hd : d.WellFormed)
    (hfs : ∀ f ∈ fs, d.Valid f) : Yields (disjAny fs) d fun env => fs.any (d.value env) := by
  have h : Yields (disjAny fs) d fun env => false || fs.any (d.value env) :=
    disjFrom_delivers (p := fun f env => d.value env f) hd hd.denotes_zero
      fun f hf => (hfs f hf).denotes
  exact h.congr fun env => Bool.false_or _

end Stimulus
