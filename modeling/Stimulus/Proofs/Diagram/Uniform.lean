import Mathlib.Probability.Distributions.Uniform
import Stimulus.Proofs.Diagram.Run
import Stimulus.Proofs.Diagram.Sample
import Stimulus.Proofs.Random.Law

/-!
# Sampling is uniform

With fair draws the sampler answers every model of a function with the same probability, which is
one over the number of models.  Decision by decision the chance of a branch is the share that its
models have of all, and these shares cancel along a path.

Main definitions:
- `Uniform`: the law of values that are models with equal chances

Main statements:
- `decideFrom_uniform`
- `sample_uniform`
-/

namespace Stimulus

open scoped ENNReal

namespace Manager

variable {d : Manager} {e : Edge} {v : Nat} {vs : List Nat} {values : List Bool}

/-! ## §1 Models of what is left -/

/-- Values of other variables are kept. -/
theorem forall₂_update {env : Nat → Bool} (hv : v ∉ vs) (b : Bool)
    (h : List.Forall₂ (fun w b => env w = b) vs values) :
    List.Forall₂ (fun w c => Function.update env v b w = c) vs values := by
  induction h with
  | nil => exact .nil
  | cons hw _ ih =>
    obtain ⟨hne, hrest⟩ := not_or.mp (List.mem_cons.not.mp hv)
    exact .cons ((Function.update_of_ne (Ne.symm hne) _ _).trans hw) (ih hrest)

/-- Values can be given to variables that differ. -/
theorem exists_forall₂ (hvs : vs.Nodup) (hlen : values.length = vs.length) :
    ∃ env : Nat → Bool, List.Forall₂ (fun w b => env w = b) vs values := by
  induction vs generalizing values with
  | nil => exact ⟨fun _ => false, List.length_eq_zero_iff.mp hlen ▸ .nil⟩
  | cons v vs ih =>
    obtain ⟨hv, hrest⟩ := List.nodup_cons.mp hvs
    cases values with
    | nil => cases hlen
    | cons b values =>
      obtain ⟨env, henv⟩ := ih hrest (Nat.succ.inj hlen)
      exact ⟨_, .cons (Function.update_self v b env) (forall₂_update hv b henv)⟩

/-- Falsehood has no model. -/
theorem ModelOf.ne_zero (hvs : vs.Nodup) (h : d.ModelOf e vs values) : e ≠ .zero := by
  rintro rfl
  obtain ⟨env, henv⟩ := exists_forall₂ hvs h.length_eq
  cases value_zero.symm.trans (h.holds env henv)

/-- A model says of every variable whether it holds. -/
theorem ModelOf.exists_cons (h : d.ModelOf e (v :: vs) values) :
    ∃ b rest, values = b :: rest ∧ rest.length = vs.length := by
  obtain ⟨b, rest, rfl⟩ := List.exists_cons_of_length_eq_add_one h.length_eq
  exact ⟨b, rest, rfl, Nat.succ.inj h.length_eq⟩

/-- A model of a function that does not depend on the next variable is one without it. -/
theorem ModelOf.tail {b : Bool} (hv : v ∉ vs) (hdep : ¬ d.DependsOn e v)
    (h : d.ModelOf e (v :: vs) (b :: values)) : d.ModelOf e vs values where
  length_eq := Nat.succ.inj h.length_eq
  holds env henv := by
    have hsame : d.value (Function.update env v b) e = d.value env e := by
      by_contra hne
      exact hdep ⟨env, b, hne⟩
    exact hsame ▸ h.holds _ (.cons (Function.update_self v b env) (forall₂_update hv b henv))

/-- A model of a function is one of the child that it leads to. -/
theorem ModelOf.child {n : Node} {b : Bool} (hd : d.WellFormed) (he : d.Valid e)
    (hn : d.node e.index = .ok n) (hred : d.Reduced e.index n) (hv : n.var ∉ vs)
    (h : d.ModelOf e (n.var :: vs) (b :: values)) :
    d.ModelOf ((if b then n.high else n.low).complementIf e.isComplement) vs values where
  length_eq := Nat.succ.inj h.length_eq
  holds env henv := by
    have hvalue := h.holds _ (.cons (Function.update_self n.var b env) (forall₂_update hv b henv))
    obtain ⟨hlow, hhigh⟩ := hd.value_child he hn hred env
    cases b with
    | false => exact hlow.trans hvalue
    | true => exact hhigh.trans hvalue

end Manager

/-! ## §2 Decisions -/

/-- Values for the variables of a list that are models of a function, each model with the same
    chance. -/
structure Uniform (d : Manager) (vs rest : List Nat) (e : Edge)
    (act : Law (List Bool × Counter)) : Prop where
  always : act.Always fun p => d.ModelOf e rest p.1 ∧ p.2.Lawful d vs
  chance_eq : ∀ values, d.ModelOf e rest values →
    act.chance (·.1 = values) = (countModels (d.value · e) rest : ℝ≥0∞)⁻¹

section

variable {d : Manager} {vs rest : List Nat} {e : Edge} {c : Counter}
  {act : Law (List Bool × Counter)} {values : List Bool}

theorem prepend_always {P Q : List Bool × Counter → Prop} (b : Bool) (h : act.Always P)
    (hPQ : ∀ p, P p → Q (b :: p.1, p.2)) : (prepend b act).Always Q :=
  h.bind fun p hp => .pure (hPQ p hp)

/-- Values after one more are as likely as alone. -/
theorem chance_prepend (b : Bool) (act : Law (List Bool × Counter)) (values : List Bool) :
    (prepend b act).chance (·.1 = b :: values) = act.chance (·.1 = values) := by
  refine (Law.chance_bind_pure _).trans ?_
  simp only [List.cons.injEq, true_and]

/-- Values do not start with another one than the one put in front. -/
theorem chance_prepend_ne {b b' : Bool} (h : b ≠ b') (act : Law (List Bool × Counter))
    (values : List Bool) : (prepend b act).chance (·.1 = b' :: values) = 0 := by
  refine (Law.chance_bind_pure _).trans ?_
  simp [Law.chance, h]

/-- The number of the models of a branch cancels with the chance of one of them within it. -/
theorem share_mul_chance {n : Nat} (b : Bool) (hn : n ≠ 0)
    (h : act.chance (·.1 = values) = (n : ℝ≥0∞)⁻¹) :
    (n : ℝ≥0∞) * (prepend b act).chance (·.1 = b :: values) = 1 := by
  rw [chance_prepend, h]
  exact ENNReal.mul_inv_cancel (Nat.cast_ne_zero.mpr hn) (ENNReal.natCast_ne_top n)

theorem uniform_one (hc : c.Lawful d vs) : Uniform d vs [] .one (pure ([], c)) where
  always := .pure ⟨Manager.modelOf_one, hc⟩
  chance_eq values hvalues := by
    have hnil : ([] : List Bool) = values := (List.length_eq_zero_iff.mp hvalues.length_eq).symm
    have hone : (pure ([], c) : Law _).chance (·.1 = values) = 1 :=
      (Law.Always.pure (a := (([] : List Bool), c)) hnil).chance_eq_one
    rw [hone, countModels_congr (q := fun _ => true) fun env => Manager.value_one,
      countModels_true, List.length_nil, pow_zero, Nat.cast_one, inv_one]

/-- A variable that a function does not depend on is decided by a coin, for twice as many models. -/
theorem Uniform.flip {v : Nat} (h : Uniform d vs rest e act) (hv : v ∉ rest)
    (hdep : ¬ d.DependsOn e v) :
    Uniform d vs (v :: rest) e (Dice.coin >>= fun b => prepend b act) where
  always := Law.coin_always.bind fun b _ =>
    prepend_always b h.always fun p hp => ⟨hp.1.cons v b, hp.2⟩
  chance_eq values hvalues := by
    obtain ⟨b, values, rfl, -⟩ := hvalues.exists_cons
    -- A variable that does not matter doubles the number of models.
    have hdouble :
        countModels (d.value · e) ([v] ++ rest) = 2 * countModels (d.value · e) rest := by
      refine countModels_append fun w hw env b => ?_
      by_contra hne
      exact hdep (List.mem_singleton.mp hw ▸ ⟨env, b, hne⟩)
    have hact := h.chance_eq values (hvalues.tail hv hdep)
    -- Only the side that the values start with contributes.
    have hsum : (prepend false act).chance (·.1 = b :: values) +
        (prepend true act).chance (·.1 = b :: values) = act.chance (·.1 = values) := by
      cases b <;> simp [chance_prepend, chance_prepend_ne]
    rw [Law.chance_coin_bind, hsum, hact, ← List.singleton_append, hdouble, Nat.cast_mul,
      Nat.cast_ofNat, ENNReal.mul_inv (.inl two_ne_zero) (.inl ENNReal.ofNat_ne_top)]

/-- A node is decided in the proportion of the models of its children, so that the chance of a model
    of either is one over the number of models of both. -/
theorem Uniform.branch {n : Node} {k : Bool → Law (List Bool × Counter)} (hd : d.WellFormed)
    (he : d.Valid e) (hne : e ≠ .zero) (hn : d.node e.index = .ok n)
    (hred : d.Reduced e.index n) (hs : d.SupportedBy e (n.var :: rest)) (hrest : rest.Nodup)
    (hv : n.var ∉ rest)
    (hk : ∀ b, (if b then n.high else n.low).complementIf e.isComplement ≠ .zero →
      Uniform d vs rest ((if b then n.high else n.low).complementIf e.isComplement) (k b)) :
    let lows := countModels (d.value · (n.low.complementIf e.isComplement)) rest
    let highs := countModels (d.value · (n.high.complementIf e.isComplement)) rest
    Uniform d vs (n.var :: rest) e (Dice.below (lows + highs) >>= fun r =>
      prepend (decide (lows ≤ r)) (k (decide (lows ≤ r)))) := by
  intro lows highs
  obtain ⟨hslow, hshigh⟩ := hs.children hd he hn hred
  have hlow := Manager.countModels_pos_iff hd (hred.low_valid.complementIf e.isComplement) hslow
  have hhigh := Manager.countModels_pos_iff hd (hred.high_valid.complementIf e.isComplement) hshigh
  -- The counts of the two sides add up to that of the node, which has a model.
  have htotal : countModels (d.value · e) (n.var :: rest) = lows + highs :=
    Manager.countModels_node hd he hn hred rest
  have hpos : 0 < lows + highs := htotal ▸ (Manager.countModels_pos_iff hd he hs).mpr hne
  refine ⟨(Law.below_always hpos.ne').bind fun r hr => ?_, fun values hvalues => ?_⟩
  · -- A side that is chosen has a model, since its share is not empty.
    by_cases hle : lows ≤ r
    · rw [decide_eq_true hle]
      exact prepend_always true (hk true (hhigh.mp (by omega))).always fun p hp =>
        ⟨hp.1.cons_child (b := true) he hn hred, hp.2⟩
    · rw [decide_eq_false hle]
      exact prepend_always false (hk false (hlow.mp (by omega))).always fun p hp =>
        ⟨hp.1.cons_child (b := false) he hn hred, hp.2⟩
  · obtain ⟨b, values, rfl, -⟩ := hvalues.exists_cons
    have hchild := hvalues.child hd he hn hred hv
    have hne' := hchild.ne_zero hrest
    have hact := (hk b hne').chance_eq values hchild
    rw [Law.chance_below_bind hpos fun b => prepend b (k b), htotal]
    -- Only the branch that the values begin with can give them, and its share times its chance is
    -- one.
    have hcancel : (lows : ℝ≥0∞) * (prepend false (k false)).chance (·.1 = b :: values) +
        highs * (prepend true (k true)).chance (·.1 = b :: values) = 1 := by
      cases b with
      | false =>
        rw [share_mul_chance _ (hlow.mpr hne').ne' hact, chance_prepend_ne (by decide), mul_zero,
          add_zero]
      | true =>
        rw [share_mul_chance _ (hhigh.mpr hne').ne' hact, chance_prepend_ne (by decide), mul_zero,
          zero_add]
    rw [hcancel, mul_one]

/-- The values that are drawn for the rest of the domain are a model, and every model is as likely
    as any other. -/
theorem decideFrom_uniform (hd : d.WellFormed) (hvs : vs.Pairwise (· < ·)) (he : d.Valid e)
    (hne : e ≠ .zero) (hc : c.Lawful d vs) {i : Nat} (hrest : vs.drop i = rest)
    (hs : d.SupportedBy e rest) : Uniform d vs rest e (decideFrom d c e i rest) := by
  -- Along the domain; a node that is decided may have put counts in the cache.
  induction rest generalizing e c i with
  | nil =>
    have hone := hs.eq_one_of_nil hd he hne
    rw [decideFrom, if_pos hone, hone]
    exact uniform_one hc
  | cons v rest ih =>
    have hrest' : vs.drop (i + 1) = rest := by
      rw [← List.drop_drop, hrest]
      rfl
    have hpair : (v :: rest).Pairwise (· < ·) := hrest ▸ hvs.sublist (List.drop_sublist i vs)
    have hv : v ∉ rest := fun hmem => Nat.lt_irrefl v (List.rel_of_pairwise_cons hpair hmem)
    rcases exists_node_or_skips hd he v with ⟨n, hterm, hn, hred, rfl⟩ | htop
    · obtain ⟨hslow, hshigh⟩ := hs.children hd he hn hred
      obtain ⟨c', hc', hrun⟩ := decideFrom_node (m := Law) hd hvs he hterm hn hred hc hrest hs
      rw [hrun]
      refine Uniform.branch (k := fun b => decideFrom d c' (if b then _ else _) (i + 1) rest)
        hd he hne hn hred hs hpair.tail.nodup hv fun b hne' => ?_
      cases b with
      | false => exact ih (hred.low_valid.complementIf _) hne' hc' hrest' hslow
      | true => exact ih (hred.high_valid.complementIf _) hne' hc' hrest' hshigh
    · have hs' := hs.tail hd he hpair htop
      rw [decideFrom_skip hd he htop]
      exact (ih he hne hc hrest' hs').flip hv fun hdep => hv (hs' v hdep)

/-! ## §3 Samples -/

theorem satCount_ok (hd : d.WellFormed) (hvs : vs.Pairwise (· < ·)) (he : d.Valid e)
    (hs : d.SupportedBy e vs) : d.satCount e vs = .ok (countModels (d.value · e) vs) := by
  obtain ⟨c, hc, hlawful⟩ := Counter.ofDomain_ok hvs d
  obtain ⟨⟨_, c'⟩, hcount, rfl, -⟩ :=
    (countFrom_ensures hd hvs he (Nat.zero_le _) hs hlawful).exists_ok
  unfold Manager.satCount
  rw [hc]
  exact congrArg (· >>= fun p : Nat × Counter => pure p.1) hcount

/-- A sample of a function that is not falsehood is a model, and all models are as likely. -/
theorem sample_always (hd : d.WellFormed) (hvs : vs.Pairwise (· < ·)) (he : d.Valid e)
    (hne : e ≠ .zero) (hs : d.SupportedBy e vs) (hc : c.Lawful d vs) :
    Law.Always (sample d e c) fun p =>
      (∃ values, p.1 = some values ∧ d.ModelOf e vs values) ∧ p.2.Lawful d vs := by
  rw [sample, if_neg hne, hc.domain]
  exact (decideFrom_uniform hd hvs he hne hc List.drop_zero hs).always.bind
    fun p hp => .pure ⟨⟨p.1, rfl, hp.1⟩, hp.2⟩

theorem chance_sample (hd : d.WellFormed) (hvs : vs.Pairwise (· < ·)) (he : d.Valid e)
    (hne : e ≠ .zero) (hs : d.SupportedBy e vs) (hc : c.Lawful d vs)
    (hvalues : d.ModelOf e vs values) :
    Law.chance (sample d e c) (·.1 = some values) = (countModels (d.value · e) vs : ℝ≥0∞)⁻¹ := by
  have huniform := decideFrom_uniform hd hvs he hne hc List.drop_zero hs
  rw [sample, if_neg hne, hc.domain, ← huniform.chance_eq values hvalues]
  refine (Law.chance_bind_pure _).trans ?_
  simp only [Option.some.injEq]

/-- A sampler over an ascending domain that holds all that a function depends on answers every
    model of the function with the same probability, one over the number of models, and nothing
    else.  It comes to no fault, and with the counts that it has made it may be asked again. -/
theorem sample_uniform (hd : d.WellFormed) (he : d.Valid e) (hne : e ≠ .zero)
    (hvs : vs.Pairwise (· < ·)) (hs : d.SupportedBy e vs) :
    (∃ c, Counter.ofDomain vs = .ok c ∧ c.Lawful d vs) ∧
      ∃ n, d.satCount e vs = .ok n ∧ n = countModels (d.value · e) vs ∧ 0 < n ∧
        ∀ c : Counter, c.Lawful d vs →
          (∀ values, d.ModelOf e vs values →
            Law.chance (sample d e c) (·.1 = some values) = (n : ℝ≥0∞)⁻¹) ∧
          (∀ values, ¬ d.ModelOf e vs values → Law.chance (sample d e c) (·.1 = some values) = 0) ∧
          Law.Always (sample d e c) fun p => p.1.isSome = true ∧ p.2.Lawful d vs := by
  refine ⟨Counter.ofDomain_ok hvs d, _, satCount_ok hd hvs he hs, rfl,
    (Manager.countModels_pos_iff hd he hs).mpr hne, fun c hc => ?_⟩
  have halways := sample_always hd hvs he hne hs hc
  refine ⟨fun values hvalues => chance_sample hd hvs he hne hs hc hvalues, fun values hvalues => ?_,
    fun o ho => ?_⟩
  · refine halways.chance_eq_zero ?_
    rintro p ⟨⟨values', hp, hmodel⟩, -⟩ hp'
    cases hp.symm.trans hp'
    exact hvalues hmodel
  · obtain ⟨p, rfl, ⟨values, hp, -⟩, hlawful⟩ := halways o ho
    exact ⟨p, rfl, hp ▸ rfl, hlawful⟩

end

/-- A manager that has made a disjunction of two variables. -/
theorem exists_disjunction : ∃ d e, Manager.WellFormed d ∧
    d.Denotes e fun env => env 1 || env 2 := by
  let act : Build Edge := do
    let x ← mkVar 1
    let y ← mkVar 2
    disj x y
  obtain ⟨d₀, hempty⟩ : ∃ d₀, Manager.empty 0 = .ok d₀ := ⟨_, rfl⟩
  have hok : (Manager.empty 0 >>= act).isOk = true := by decide +kernel
  have hwf := Manager.wellFormed_empty hempty
  have hdelivers : Delivers act d₀ fun e d' => d'.Denotes e fun env => env 1 || env 2 := by
    refine (mkVar_delivers hwf one_ne_zero).bind fun x d₁ _ hwf₁ hx => ?_
    refine (mkVar_delivers hwf₁ two_ne_zero).bind fun y d₂ hext hwf₂ hy => ?_
    have hx' : d₂.Denotes x fun env => env 1 := (⟨hx.1, hx.2.2⟩ : d₁.Denotes x _).mono hext
    exact disj_delivers hwf₂ hx' ⟨hy.1, hy.2.2⟩
  rcases hdelivers.run with herr | ⟨e, d, -, -, hd, he⟩
  · rw [hempty] at hok
    exact absurd hok (by rw [show (Except.ok d₀ >>= act) = act d₀ from rfl, herr]; decide)
  · exact ⟨d, e, hd, he⟩

/-- Of the six models that two alternatives have with a third variable beside them, each is drawn
    with a chance of one sixth. -/
theorem sample_uniform_of_disjunction : ∃ (d : Manager) (e : Edge) (c : Counter), d.WellFormed ∧
    d.Valid e ∧ e ≠ .zero ∧ [1, 2, 3].Pairwise (· < ·) ∧ d.SupportedBy e [1, 2, 3] ∧
      d.satCount e [1, 2, 3] = .ok 6 ∧
      Law.chance (sample d e c) (·.1 = some [true, false, true]) = (6 : ℝ≥0∞)⁻¹ ∧
      Law.chance (sample d e c) (·.1 = some [false, false, true]) = 0 := by
  obtain ⟨d, e, hd, he⟩ := exists_disjunction
  have hvs : [1, 2, 3].Pairwise (· < ·) := by decide
  have hs : d.SupportedBy e [1, 2, 3] := by
    rintro v ⟨env, b, hne⟩
    by_contra hv
    refine hne ?_
    simp only [List.mem_cons, List.not_mem_nil, or_false, not_or] at hv
    rw [he.value_eq, he.value_eq, Function.update_of_ne (Ne.symm hv.1),
      Function.update_of_ne (Ne.symm hv.2.1)]
  have hne : e ≠ .zero := by
    rintro rfl
    cases Manager.value_zero.symm.trans (he.value_eq fun _ => true)
  obtain ⟨⟨c, -, hc⟩, n, hcount, hn, -, hsample⟩ := sample_uniform hd he.valid hne hvs hs
  have hsix : n = 6 := hn.trans ((countModels_congr he.value_eq).trans (by decide))
  subst hsix
  obtain ⟨hmodel, hother, -⟩ := hsample c hc
  refine ⟨d, e, c, hd, he.valid, hne, hvs, hs, hcount, hmodel _ ⟨rfl, fun env henv => ?_⟩,
    hother _ fun h => ?_⟩
  · obtain ⟨hone, -⟩ := List.forall₂_cons.mp henv
    rw [he.value_eq, hone, Bool.true_or]
  · have hfalse := h.holds (fun v => v == 3) (by simp)
    rw [he.value_eq] at hfalse
    cases hfalse

end Stimulus
