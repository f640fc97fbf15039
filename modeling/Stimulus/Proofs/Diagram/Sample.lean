import Stimulus.Proofs.Diagram.Count
import Stimulus.Proofs.Random.Dice

/-!
# Sampled models

The sampler decides the variables of a domain one after the other.  A branch without models has
count zero and is never taken, so the values that are drawn make the function true.

Main definitions:
- `Manager.ModelOf`: values of a domain that make a function true

Main statements:
- `decideFrom_skip`, `decideFrom_node`: what one decision does, wherever the draws come from
- `sample_draws`
- `sample_models`: for this the domain need not contain what the function depends on
-/

namespace Stimulus

/-! ## §1 Models -/

namespace Manager

variable {d : Manager} {e : Edge}

/-- The values, one for each variable, make the function true. -/
structure ModelOf (d : Manager) (e : Edge) (vs : List Nat) (values : List Bool) : Prop where
  length_eq : values.length = vs.length
  holds : ∀ env : Nat → Bool, List.Forall₂ (fun v b => env v = b) vs values → d.value env e = true

theorem modelOf_one : d.ModelOf .one [] [] := ⟨rfl, fun _ _ => value_one⟩

/-- A model of a function that does not depend on the next variable. -/
theorem ModelOf.cons {vs : List Nat} {values : List Bool} (h : d.ModelOf e vs values) (v : Nat)
    (b : Bool) : d.ModelOf e (v :: vs) (b :: values) where
  length_eq := congrArg (· + 1) h.length_eq
  holds env henv := by
    obtain ⟨-, hrest⟩ := List.forall₂_cons.mp henv
    exact h.holds env hrest

/-- A model of the child that the variable of a node leads to. -/
theorem ModelOf.cons_child {n : Node} (he : d.Valid e) (hn : d.node e.index = .ok n)
    (hred : d.Reduced e.index n) {vs : List Nat} {values : List Bool} {b : Bool}
    (h : d.ModelOf ((if b then n.high else n.low).complementIf e.isComplement) vs values) :
    d.ModelOf e (n.var :: vs) (b :: values) where
  length_eq := congrArg (· + 1) h.length_eq
  holds env henv := by
    obtain ⟨hb, hrest⟩ := List.forall₂_cons.mp henv
    have hchild := h.holds env hrest
    rw [(decides_of_reduced he hn hred).value_eq, hb]
    cases b <;> exact hchild

/-- What is supported by no variable is a constant. -/
theorem SupportedBy.eq_one_of_nil (hd : d.WellFormed) (he : d.Valid e) (hs : d.SupportedBy e [])
    (hne : e ≠ .zero) : e = .one := by
  by_cases hterm : e.isTerminal = true
  · exact (eq_one_or_eq_zero hterm).resolve_right hne
  · obtain ⟨n, hn, hred⟩ := hd.exists_reduced he hterm
    exact absurd (hs _ (hd.dependsOn_var he hn hred)) List.not_mem_nil

theorem topVar?_of_node {n : Node} (hterm : ¬ e.isTerminal = true)
    (hn : d.node e.index = .ok n) : d.topVar? e = .ok (some n.var) := by
  unfold topVar?
  rw [if_neg hterm, hn]
  rfl

/-- The support of a function that does not test the next variable of an ascending list first. -/
theorem SupportedBy.tail (hd : d.WellFormed) (he : d.Valid e) {v : Nat} {vs : List Nat}
    (hvs : (v :: vs).Pairwise (· < ·)) (hs : d.SupportedBy e (v :: vs))
    (htop : d.topVar? e ≠ .ok (some v)) : d.SupportedBy e vs := by
  intro w hw
  refine (List.mem_cons.mp (hs w hw)).resolve_left ?_
  rintro rfl
  -- A terminal depends on nothing, so what tests the variable is a node.
  by_cases hterm : e.isTerminal = true
  · obtain ⟨env, b, hne⟩ := hw
    exact hne (by rw [value_of_isTerminal hterm, value_of_isTerminal hterm])
  · obtain ⟨n, hn, hred⟩ := hd.exists_reduced he hterm
    -- The first test is of another variable of the list, hence of a later one.
    have hmem := (List.mem_cons.mp (hs _ (hd.dependsOn_var he hn hred))).resolve_left fun h =>
      htop (h ▸ topVar?_of_node hterm hn)
    have hlt := List.rel_of_pairwise_cons hvs hmem
    have hle := hw.le_of_startsFrom hd he (.inr ⟨n, hn, Nat.le_refl _⟩)
    omega

end Manager

/-! ## §2 One decision -/

section

variable {m : Type → Type} [Monad m]

/-- Values with one more in front of them. -/
def prepend (b : Bool) (act : m (List Bool × Counter)) : m (List Bool × Counter) := do
  let (values, c) ← act
  return (b :: values, c)

variable [LawfulMonad m] [MonadExceptOf Fault m] [Dice m]
  {d : Manager} {vs rest : List Nat} {e : Edge} {c : Counter} {i v : Nat}

/-- A variable that the function does not test first is decided by a coin. -/
theorem decideFrom_skip (hd : d.WellFormed) (he : d.Valid e) (htop : d.topVar? e ≠ .ok (some v))
    (c : Counter) (i : Nat) (rest : List Nat) :
    (decideFrom d c e i (v :: rest) : m (List Bool × Counter)) =
      Dice.coin >>= fun b => prepend b (decideFrom d c e (i + 1) rest) := by
  obtain ⟨top, hok, -⟩ := Manager.topVar?_spec hd he
  rw [decideFrom, ofExcept_ok_bind hok, if_pos (by rwa [hok, ne_eq, Except.ok.injEq] at htop)]
  rfl

/-- A variable that the function tests is decided in the proportion of the models of both
    branches. -/
theorem decideFrom_node (hd : d.WellFormed) (hvs : vs.Pairwise (· < ·)) (he : d.Valid e)
    {n : Node} (hterm : ¬ e.isTerminal = true) (hn : d.node e.index = .ok n)
    (hred : d.Reduced e.index n) (hc : c.Lawful d vs) (hrest : vs.drop i = n.var :: rest)
    (hs : d.SupportedBy e (n.var :: rest)) :
    let low := n.low.complementIf e.isComplement
    let high := n.high.complementIf e.isComplement
    let lows := countModels (d.value · low) rest
    let highs := countModels (d.value · high) rest
    ∃ c' : Counter, c'.Lawful d vs ∧
      (decideFrom d c e i (n.var :: rest) : m (List Bool × Counter)) =
        Dice.below (lows + highs) >>= fun r => prepend (decide (lows ≤ r))
          (decideFrom d c' (if decide (lows ≤ r) then high else low) (i + 1) rest) := by
  intro low high lows highs
  have hlen : i < vs.length := by
    have := congrArg List.length hrest
    rw [List.length_drop, List.length_cons] at this
    omega
  have hrest' : vs.drop (i + 1) = rest := by
    rw [← List.drop_drop, hrest]
    rfl
  obtain ⟨hslow, hshigh⟩ := hs.children hd he hn hred
  have hlow : d.lowOf e = .ok low := by
    rw [Manager.lowOf, hn]
    rfl
  have hhigh : d.highOf e = .ok high := by
    rw [Manager.highOf, hn]
    rfl
  -- Both branches are counted, and the second count is made with what the first one kept.
  obtain ⟨⟨_, c₁⟩, hlows, rfl, hc₁⟩ := (countFrom_ensures hd hvs
    (hred.low_valid.complementIf e.isComplement) hlen (hrest'.symm ▸ hslow) hc).exists_ok
  obtain ⟨⟨_, c₂⟩, hhighs, rfl, hc₂⟩ := (countFrom_ensures hd hvs
    (hred.high_valid.complementIf e.isComplement) hlen (hrest'.symm ▸ hshigh) hc₁).exists_ok
  rw [hrest'] at hlows hhighs
  refine ⟨c₂, hc₂, ?_⟩
  rw [decideFrom, ofExcept_ok_bind (Manager.topVar?_of_node hterm hn), if_neg (not_not.mpr rfl),
    ofExcept_ok_bind hlow, ofExcept_ok_bind hhigh]
  refine (ofExcept_ok_bind hlows _).trans ?_
  exact ofExcept_ok_bind hhighs _

/-- The next variable is the one that the function tests first, or the function skips it. -/
theorem exists_node_or_skips (hd : d.WellFormed) (he : d.Valid e) (v : Nat) :
    (∃ n, ¬ e.isTerminal = true ∧ d.node e.index = .ok n ∧ d.Reduced e.index n ∧ n.var = v) ∨
      d.topVar? e ≠ .ok (some v) := by
  by_cases hterm : e.isTerminal = true
  · exact .inr fun htop => by simp [Manager.topVar?, hterm] at htop
  · obtain ⟨n, hn, hred⟩ := hd.exists_reduced he hterm
    by_cases hv : n.var = v
    · exact .inl ⟨n, hterm, hn, hred, hv⟩
    · refine .inr fun htop => hv ?_
      simpa using (Manager.topVar?_of_node hterm hn).symm.trans htop

end

/-! ## §3 What is drawn -/

section

variable {d : Manager} {vs : List Nat}

theorem coin_draws : Draws (Dice.coin : Draw Bool) fun _ => True :=
  Stream.word_draws.bind fun _ _ => .pure trivial

theorem prepend_draws {act : Draw (List Bool × Counter)} {P Q : List Bool × Counter → Prop}
    (b : Bool) (h : Draws act P) (hPQ : ∀ p, P p → Q (b :: p.1, p.2)) : Draws (prepend b act) Q :=
  h.bind fun p hp => .pure (hPQ p hp)

/-- The values that are drawn for the rest of the domain make the function true. -/
theorem decideFrom_draws (hd : d.WellFormed) (hvs : vs.Pairwise (· < ·)) {e : Edge}
    (he : d.Valid e) (hne : e ≠ .zero) {c : Counter} (hc : c.Lawful d vs) {i : Nat}
    {rest : List Nat} (hrest : vs.drop i = rest) (hs : d.SupportedBy e rest) :
    Draws (decideFrom d c e i rest) fun p => d.ModelOf e rest p.1 ∧ p.2.Lawful d vs := by
  -- The counter and the position move with the rest, so both are general in the induction.
  induction rest generalizing e c i with
  | nil =>
    -- Without variables left, a function that has a model is constantly true.
    have hone := hs.eq_one_of_nil hd he hne
    rw [decideFrom, if_pos hone, hone]
    exact .pure ⟨Manager.modelOf_one, hc⟩
  | cons v rest ih =>
    have hrest' : vs.drop (i + 1) = rest := by
      rw [← List.drop_drop, hrest]
      rfl
    have hpair : (v :: rest).Pairwise (· < ·) := hrest ▸ hvs.sublist (List.drop_sublist i vs)
    rcases exists_node_or_skips hd he v with ⟨n, hterm, hn, hred, rfl⟩ | htop
    · -- The function tests the variable, and a branch without models is not taken.
      obtain ⟨hslow, hshigh⟩ := hs.children hd he hn hred
      have hlow := hred.low_valid.complementIf e.isComplement
      have hhigh := hred.high_valid.complementIf e.isComplement
      have hpos := (Manager.countModels_pos_iff hd he hs).mpr hne
      rw [Manager.countModels_node hd he hn hred] at hpos
      obtain ⟨c', hc', hrun⟩ := decideFrom_node (m := Draw) hd hvs he hterm hn hred hc hrest hs
      rw [hrun]
      refine (Stream.below_draws (Nat.pos_iff_ne_zero.mp hpos)).bind fun r hr => ?_
      by_cases hle : countModels (d.value · (n.low.complementIf e.isComplement)) rest ≤ r
      · have hne' := (Manager.countModels_pos_iff hd hhigh hshigh).mp (by omega)
        rw [decide_eq_true hle]
        exact prepend_draws true (ih hhigh hne' hc' hrest' hshigh) fun p hp =>
          ⟨hp.1.cons_child (b := true) he hn hred, hp.2⟩
      · have hne' := (Manager.countModels_pos_iff hd hlow hslow).mp (by omega)
        rw [decide_eq_false hle]
        exact prepend_draws false (ih hlow hne' hc' hrest' hslow) fun p hp =>
          ⟨hp.1.cons_child (b := false) he hn hred, hp.2⟩
    · -- A variable that is not tested is settled by a coin.
      rw [decideFrom_skip hd he htop]
      refine coin_draws.bind fun b _ => ?_
      exact prepend_draws b (ih he hne hc hrest' (hs.tail hd he hpair htop)) fun p hp =>
        ⟨hp.1.cons v b, hp.2⟩

/-- Unless the function is falsehood, the answer is a model of it, and the counts made on the way
    are true. -/
theorem sample_draws (hd : d.WellFormed) (hvs : vs.Pairwise (· < ·)) {e : Edge} (he : d.Valid e)
    (hs : d.SupportedBy e vs) {c : Counter} (hc : c.Lawful d vs) :
    Draws (sample d e c) fun p =>
      ((p.1 = none ∧ e = .zero) ∨ ∃ values, p.1 = some values ∧ d.ModelOf e vs values) ∧
        p.2.Lawful d vs := by
  unfold sample
  by_cases hzero : e = .zero
  · rw [if_pos hzero]
    exact .pure ⟨.inl ⟨rfl, hzero⟩, hc⟩
  · rw [if_neg hzero, hc.domain]
    apply (decideFrom_draws hd hvs he hzero hc List.drop_zero hs).bind
    intro p hp
    exact .pure ⟨.inr ⟨p.1, rfl, hp.1⟩, hp.2⟩

variable {e : Edge} {rng : Stream}

/-- Whatever is counted and drawn, values that were decided for a whole domain lead to truth. -/
theorem decideFrom_models (hd : d.WellFormed) (he : d.Valid e) (c : Counter) (i : Nat)
    (rest : List Nat) :
    Ensures (decideFrom d c e i rest) rng (fun _ => True) fun p _ => d.ModelOf e rest p.1 := by
  induction rest generalizing e c i rng with
  | nil =>
    rw [decideFrom]
    split
    · rename_i hone
      rw [hone]
      exact .pure Manager.modelOf_one
    · trivial
  | cons v rest ih =>
    rcases exists_node_or_skips hd he v with ⟨n, hterm, hn, hred, rfl⟩ | htop
    · rw [decideFrom, ofExcept_ok_bind (Manager.topVar?_of_node hterm hn),
        if_neg (not_not.mpr rfl)]
      apply Ensures.ofExcept_bind (R := (n.low.complementIf e.isComplement = ·))
        (by rw [Manager.lowOf, hn]; rfl)
      rintro _ rfl
      apply Ensures.ofExcept_bind (R := (n.high.complementIf e.isComplement = ·))
        (by rw [Manager.highOf, hn]; rfl)
      rintro _ rfl
      -- What the counter says is left open, so this holds of any counter.
      apply Ensures.ofExcept_bind (ends_true _)
      rintro ⟨lows, c₁⟩ -
      apply Ensures.ofExcept_bind (ends_true _)
      rintro ⟨highs, c₂⟩ -
      -- The counts only decide which branch is taken.
      apply (ensures_true _ _).bind
      rintro r rng' -
      dsimp only
      generalize decide (lows ≤ r) = value
      cases value with
      | false =>
        apply (ih (hred.low_valid.complementIf e.isComplement) c₂ (i + 1)).bind
        rintro ⟨values, c'⟩ _ hmodel
        exact .pure (hmodel.cons_child (b := false) he hn hred)
      | true =>
        apply (ih (hred.high_valid.complementIf e.isComplement) c₂ (i + 1)).bind
        rintro ⟨values, c'⟩ _ hmodel
        exact .pure (hmodel.cons_child (b := true) he hn hred)
    · rw [decideFrom_skip hd he htop]
      apply (ensures_true _ _).bind
      rintro value rng' -
      apply (ih he c (i + 1)).bind
      rintro ⟨values, c'⟩ _ hmodel
      exact .pure (hmodel.cons v value)

/-- A sample that comes to an end is a model, unless the function is falsehood. -/
theorem sample_models (hd : d.WellFormed) (he : d.Valid e) (c : Counter) :
    Ensures (sample d e c) rng (fun _ => True) fun p _ =>
      (p.1 = none ∧ e = .zero) ∨
        ∃ values, p.1 = some values ∧ e ≠ .zero ∧ d.ModelOf e c.domain values := by
  unfold sample
  split
  · rename_i hzero
    exact .pure (.inl ⟨rfl, hzero⟩)
  · rename_i hzero
    apply (decideFrom_models hd he c 0 c.domain).bind
    rintro ⟨values, c'⟩ _ hmodel
    exact .pure (.inr ⟨values, rfl, hzero, hmodel⟩)

end

end Stimulus
