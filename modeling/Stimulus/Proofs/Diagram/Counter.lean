import Mathlib.Data.Set.Card
import Stimulus.Proofs.Diagram.Uniform

/-!
# Counters in use

A counter answers how many assignments of its domain satisfy a function, and it goes on doing so
however it is used: its cache is keyed by nodes alone, yet a count is made from the position of the
node's variable on, so a count that was made on the way to one function serves every other function
that leads to the node.  The manager may store further nodes between two calls.

Main definitions:
- `solutions`: the assignments of a list of variables that satisfy a function
- `Manager.CountedFrom`: from where the models of a function may be counted
- `Counter.InUse`: the states that calls lead a counter to

Main statements:
- `card_modelOf`: counting by cases is counting the models
- `Counter.InUse.sound`
- `counts_of_inUse`
-/

namespace Stimulus

/-! ## §1 Counting models is counting assignments -/

/-- The values of the variables of a list that satisfy a function. -/
def solutions (p : (Nat → Bool) → Bool) (vs : List Nat) : Set (List Bool) :=
  {values | values.length = vs.length ∧
    ∀ env : Nat → Bool, List.Forall₂ (fun v b => env v = b) vs values → p env = true}

section

variable {p : (Nat → Bool) → Bool} {v : Nat} {vs : List Nat}

/-- Without variables there is one assignment, and it satisfies a function that is true. -/
theorem solutions_nil (hp : ∀ env env', p env = p env') :
    solutions p [] = if p (fun _ => false) then {[]} else ∅ := by
  -- Without variables there is one list of values, the empty one.
  have hnil (values : List Bool) : values ∈ solutions p [] ↔
      values = [] ∧ p (fun _ => false) = true := by
    constructor
    · rintro ⟨hlength, hsat⟩
      obtain rfl := List.length_eq_zero_iff.mp hlength
      exact ⟨rfl, hsat _ .nil⟩
    · rintro ⟨rfl, htrue⟩
      exact ⟨rfl, fun env _ => (hp env _).trans htrue⟩
  ext values
  rw [hnil]
  split <;> simp_all

/-- A solution says of the first variable whether it holds, and goes on with a solution of what is
    left of the function then. -/
theorem solutions_cons (hv : v ∉ vs) : solutions p (v :: vs) =
    List.cons false '' solutions (fun env => p (Function.update env v false)) vs ∪
      List.cons true '' solutions (fun env => p (Function.update env v true)) vs := by
  have hcons (b : Bool) (values : List Bool) : b :: values ∈ solutions p (v :: vs) ↔
      values ∈ solutions (fun env => p (Function.update env v b)) vs := by
    constructor
    · rintro ⟨hlength, hsat⟩
      refine ⟨Nat.succ.inj hlength, fun env henv => hsat _ ?_⟩
      exact .cons (Function.update_self v b env) (Manager.forall₂_update hv b henv)
    · rintro ⟨hlength, hsat⟩
      refine ⟨congrArg (· + 1) hlength, fun env henv => ?_⟩
      obtain ⟨hb, hrest⟩ := List.forall₂_cons.mp henv
      -- The first value is what the assignment has at the variable anyway.
      have hsame : Function.update env v b = env := hb ▸ Function.update_eq_self v env
      simpa only [hsame] using hsat env hrest
  ext values
  cases values with
  | nil => simp [solutions]
  | cons b values => cases b <;> simp [hcons]

/-- Counting by cases counts the solutions. -/
theorem ncard_solutions (hvs : vs.Nodup)
    (hp : ∀ env env', (∀ w ∈ vs, env w = env' w) → p env = p env') :
    (solutions p vs).Finite ∧ (solutions p vs).ncard = countModels p vs := by
  induction vs generalizing p with
  | nil =>
    rw [solutions_nil fun env env' => hp env env' (by simp), countModels]
    cases p fun _ => false <;> simp
  | cons v vs ih =>
    obtain ⟨hv, hvs⟩ := List.nodup_cons.mp hvs
    -- With the first variable fixed, the function depends on the others alone.
    have hfixed (b : Bool) (env env' : Nat → Bool) (hsame : ∀ w ∈ vs, env w = env' w) :
        p (Function.update env v b) = p (Function.update env' v b) := by
      apply hp
      intro w hw
      by_cases hwv : w = v
      · simp [hwv]
      · simpa [hwv] using hsame w ((List.mem_cons.mp hw).resolve_left hwv)
    obtain ⟨hfalse, hcardFalse⟩ := ih hvs (hfixed false)
    obtain ⟨htrue, hcardTrue⟩ := ih hvs (hfixed true)
    -- The two halves differ in the first value.
    have hdisjoint : Disjoint
        (List.cons false '' solutions (fun env => p (Function.update env v false)) vs)
        (List.cons true '' solutions (fun env => p (Function.update env v true)) vs) := by
      rw [Set.disjoint_left]
      rintro _ ⟨_, _, rfl⟩ ⟨_, _, heq⟩
      simp at heq
    rw [solutions_cons hv, countModels]
    refine ⟨(hfalse.image _).union (htrue.image _), ?_⟩
    rw [Set.ncard_union_eq hdisjoint (hfalse.image _) (htrue.image _),
      Set.ncard_image_of_injective _ (List.cons_injective),
      Set.ncard_image_of_injective _ (List.cons_injective), hcardFalse, hcardTrue]

end

/-- The models of a function over an ascending list that holds all it depends on are as many as are
    counted by cases. -/
theorem card_modelOf {d : Manager} (hd : d.WellFormed) {e : Edge} (he : d.Valid e) {vs : List Nat}
    (hvs : vs.Pairwise (· < ·)) (hs : d.SupportedBy e vs) :
    Nat.card {values // d.ModelOf e vs values} = countModels (d.value · e) vs := by
  have hmodels : {values | d.ModelOf e vs values} = solutions (d.value · e) vs :=
    Set.ext fun values => ⟨fun h => ⟨h.length_eq, h.holds⟩, fun h => ⟨h.1, h.2⟩⟩
  have hcount := (ncard_solutions (hvs.imp Nat.ne_of_lt)
    fun env env' hsame => hs.value_congr hd he hsame).2
  rw [← hcount, ← hmodels]
  rfl

/-! ## §2 What the cache holds -/

section

variable {d d' : Manager} {vs : List Nat} {c : Counter}

/-- Counts are kept of stored nodes only. -/
def Counter.OnStored (c : Counter) (d : Manager) : Prop :=
  ∀ i count : Nat, c.counts[i]? = some count → ∃ n, d.node i = .ok n

theorem Counter.OnStored.keep (h : c.OnStored d) {i : Nat} {n : Node} (hn : d.node i = .ok n)
    (count : Nat) : (c.keep i count).OnStored d := by
  intro j count' hget
  rw [Counter.keep, getElem?_treeMap_insert] at hget
  split at hget
  · rename_i hij
    exact ⟨n, hij ▸ hn⟩
  · exact h j count' hget

/-- True counts stay true when the manager stores more, because the nodes that were counted keep
    their variables and their functions. -/
theorem Counter.Lawful.extends (h : c.Lawful d vs) (hstored : c.OnStored d)
    (hext : d.Extends d') : c.Lawful d' vs where
  domain := h.domain
  length := h.length
  positions := h.positions
  counts i count hget n' hn' p hp := by
    obtain ⟨n, hn⟩ := hstored i count hget
    have hsame : n' = n := Except.ok.inj (hn'.symm.trans (hext.node hn))
    rw [h.counts i count hget n hn p (hsame ▸ hp)]
    exact countModels_congr fun env => (hext.truth_eq env (Manager.le_nodeCount_of_node hn).2).symm

/-- Whatever a count answers, it keeps counts of stored nodes only. -/
theorem countFrom_onStored (hstored : c.OnStored d) (e : Edge) (start : Nat) :
    Ensures (countFrom d e start) c (fun _ => True) fun _ c' => c'.OnStored d := by
  induction hw : e.index using Nat.strongRecOn generalizing e start c with
  | _ w ih =>
    rw [countFrom]
    apply Ensures.get_bind
    split
    · exact .pure hstored
    split
    · dsimp only
      split
      · trivial
      · exact .pure hstored
    apply Ensures.ofExcept_bind (R := fun n => d.node e.index = .ok n)
    · cases d.node e.index with
      | error fault => trivial
      | ok n => rfl
    intro n hn
    apply Ensures.get_bind
    apply Ensures.ofExcept_bind (ends_true _)
    intro p _
    dsimp only
    split
    · trivial
    -- What is done with the count of the node does not touch the cache.
    have hfinish (regular : Nat) {c' : Counter} (hc' : c'.OnStored d) : Ensures (do
        let count ← if e.isComplement then
          Fault.ofExcept (complementCount (c.length - p) regular) else pure regular
        return count <<< (p - start)) c' (fun _ => True) fun _ c'' => c''.OnStored d := by
      split
      · exact .ofExcept_bind (ends_true _) fun _ _ => .pure hc'
      · exact .pure hc'
    apply Ensures.get_bind
    cases c.count? e.index with
    | some count => exact hfinish count hstored
    | none =>
      dsimp only
      split
      · rename_i hlt
        apply (ih _ (hw ▸ hlt.1) hstored n.low (p + 1) rfl).bind
        intro low c₁ hc₁
        apply (ih _ (hw ▸ hlt.2) hc₁ n.high (p + 1) rfl).bind
        intro high c₂ hc₂
        exact .modify_bind (hfinish (low + high) (hc₂.keep hn _))
      · trivial

/-- Neither do the counts that a sampler asks for. -/
theorem decideFrom_onStored (hstored : c.OnStored d) (e : Edge) (i : Nat) (rest : List Nat)
    (rng : Stream) :
    Ensures (decideFrom d c e i rest) rng (fun _ => True) fun p _ => p.2.OnStored d := by
  induction rest generalizing c e i rng with
  | nil =>
    rw [decideFrom]
    split
    · exact .pure hstored
    · trivial
  | cons v rest ih =>
    rw [decideFrom]
    apply Ensures.ofExcept_bind (ends_true _)
    intro top _
    split
    · -- A coin decides, and nothing is counted.
      apply (ensures_true _ rng).bind
      intro value rng' _
      apply (ih hstored e (i + 1) rng').bind
      intro p _ hp
      exact .pure hp
    · apply Ensures.ofExcept_bind (ends_true _)
      intro low _
      apply Ensures.ofExcept_bind (ends_true _)
      intro high _
      apply Ensures.ofExcept_bind ((countFrom_onStored hstored low (i + 1)).imp
        (fun _ _ => trivial) fun _ _ hp => hp)
      intro lows hlows
      apply Ensures.ofExcept_bind ((countFrom_onStored hlows high (i + 1)).imp
        (fun _ _ => trivial) fun _ _ hp => hp)
      intro highs hhighs
      apply (ensures_true _ rng).bind
      intro r rng' _
      -- Both counts are kept on the way down, so the cache has grown twice.
      apply (ih hhighs _ (i + 1) rng').bind
      intro p _ hp
      exact .pure hp

theorem sample_onStored (hstored : c.OnStored d) (e : Edge) (rng : Stream) :
    Ensures (sample d e c) rng (fun _ => True) fun p _ => p.2.OnStored d := by
  unfold sample
  split
  · exact .pure hstored
  · apply (decideFrom_onStored hstored e 0 c.domain rng).bind
    intro p _ hp
    exact .pure hp

/-! ## §3 Calls of a counter -/

/-- The function is one that a counter over the domain can count from a position on: the position
    is not beyond that of the first test, and if nothing is tested it may be the end. -/
structure Manager.CountedFrom (d : Manager) (vs : List Nat) (e : Edge) (start : Nat) : Prop where
  valid : d.Valid e
  supported : d.SupportedBy e vs
  start_le : start ≤ vs.length
  before_top : ∀ v p : Nat, d.topVar? e = .ok (some v) → vs[p]? = some v → start ≤ p

/-- A function that may be counted from the start. -/
theorem Manager.countedFrom_zero {e : Edge} (he : d.Valid e) (hs : d.SupportedBy e vs) :
    d.CountedFrom vs e 0 :=
  ⟨he, hs, Nat.zero_le _, fun _ _ _ _ => Nat.zero_le _⟩

/-- What a function depends on stands at or after its first test. -/
theorem Manager.CountedFrom.drop {e : Edge} {start : Nat} (hd : d.WellFormed)
    (hvs : vs.Pairwise (· < ·)) (h : d.CountedFrom vs e start) :
    d.SupportedBy e (vs.drop start) := by
  intro w hw
  have hterm : ¬ e.isTerminal = true := by
    intro hterm
    obtain ⟨env, b, hne⟩ := hw
    exact hne (by rw [value_of_isTerminal hterm, value_of_isTerminal hterm])
  obtain ⟨n, hn, hred⟩ := hd.exists_reduced h.valid hterm
  obtain ⟨p, hp⟩ := List.mem_iff_getElem?.mp (h.supported _ (hd.dependsOn_var h.valid hn hred))
  obtain ⟨q, hq⟩ := List.mem_iff_getElem?.mp (h.supported w hw)
  -- The first test stands at the position or behind it, and any other variable comes later.
  have hstart : start ≤ p := h.before_top n.var p (topVar?_of_node hterm hn) hp
  have hle : n.var ≤ w := hw.le_of_startsFrom hd h.valid (.inr ⟨n, hn, Nat.le_refl _⟩)
  have hpq : p ≤ q := by
    -- In an ascending list a later variable is a larger one.
    by_contra hlt
    obtain ⟨hplt, hpv⟩ := List.getElem?_eq_some_iff.mp hp
    obtain ⟨hqlt, hqv⟩ := List.getElem?_eq_some_iff.mp hq
    have hless := List.pairwise_iff_getElem.mp hvs q p hqlt hplt (by omega)
    omega
  refine List.mem_iff_getElem?.mpr ⟨q - start, ?_⟩
  rw [List.getElem?_drop, Nat.add_sub_cancel' (hstart.trans hpq), hq]

/-- The states that a counter is led to: it is made over a domain, it counts, it samples, and the
    manager may store further nodes in between. -/
inductive Counter.InUse (vs : List Nat) : Manager → Counter → Prop where
  | made {d : Manager} {c : Counter} (hd : d.WellFormed) (h : ofDomain vs = .ok c) : InUse vs d c
  | stored {d d' : Manager} {c : Counter} (hc : InUse vs d c) (hext : d.Extends d')
      (hd' : d'.WellFormed) : InUse vs d' c
  | counted {d : Manager} {c c' : Counter} {e : Edge} {start n : Nat} (hc : InUse vs d c)
      (he : d.CountedFrom vs e start) (h : countFrom d e start c = .ok (n, c')) : InUse vs d c'
  | sampled {d : Manager} {c c' : Counter} {e : Edge} {rng rng' : Stream}
      {values : Option (List Bool)} (hc : InUse vs d c) (he : d.Valid e)
      (hs : d.SupportedBy e vs) (h : (sample d e c : Draw _) rng = .ok ((values, c'), rng')) :
      InUse vs d c'

/-- What holds of a counter at any time. -/
structure Counter.Sound (c : Counter) (d : Manager) (vs : List Nat) : Prop where
  wellFormed : d.WellFormed
  lawful : c.Lawful d vs
  onStored : c.OnStored d

/-- Every call keeps the cache true. -/
theorem Counter.InUse.sound (hvs : vs.Pairwise (· < ·)) (h : c.InUse vs d) : c.Sound d vs := by
  induction h with
  | @made d c hd hmade =>
    obtain ⟨c', hmade', hlawful⟩ := Counter.ofDomain_ok hvs d
    obtain rfl : c = c' := Except.ok.inj (hmade.symm.trans hmade')
    refine ⟨hd, hlawful, fun i count hget => ?_⟩
    -- A new counter has counted nothing.
    rw [ofDomain, if_pos (ascends_of_pairwise hvs)] at hmade
    cases hmade
    simp at hget
  | stored _ hext hd' ih =>
    refine ⟨hd', ih.lawful.extends ih.onStored hext, fun i count hget => ?_⟩
    -- What was counted are stored nodes, and these stay when others are added.
    obtain ⟨n, hn⟩ := ih.onStored i count hget
    exact ⟨n, hext.node hn⟩
  | counted _ he hrun ih =>
    have hcount := countFrom_ensures ih.wellFormed hvs he.valid he.start_le
      (he.drop ih.wellFormed hvs) ih.lawful
    exact ⟨ih.wellFormed, (hcount.of_run hrun).2,
      (countFrom_onStored ih.onStored _ _).of_run hrun⟩
  | sampled _ he hs hrun ih =>
    have hsample := sample_draws ih.wellFormed hvs he hs ih.lawful
    exact ⟨ih.wellFormed, ((hsample _).of_run hrun).2,
      (sample_onStored ih.onStored _ _).of_run hrun⟩

/-! ## §4 The counts -/

/-- A function and its complement share the domain between them. -/
theorem satCount_neg_add (hd : d.WellFormed) (hvs : vs.Pairwise (· < ·)) {e : Edge}
    (he : d.Valid e) (hs : d.SupportedBy e vs) :
    ∃ n m, d.satCount e vs = .ok n ∧ d.satCount (-e) vs = .ok m ∧ n + m = 2 ^ vs.length := by
  have hs' : d.SupportedBy (-e) vs := fun v hv =>
    hs v (Manager.dependsOn_of_index_eq (e.index_neg) hv)
  have hneg (env : Nat → Bool) : d.value env (-e) = !d.value env e :=
    Manager.value_neg he.index_ne_zero
  refine ⟨_, _, satCount_ok hd hvs he hs, satCount_ok hd hvs he.neg hs', ?_⟩
  rw [countModels_congr hneg, Nat.add_comm, countModels_not_add]

/-- Over an ascending domain that holds all that a function depends on, its count is the number of
    its models, and the counts of a function and of its complement are all assignments together.
    However a counter over the domain was used, it goes on to answer the number of models from any
    position that is not beyond the first test of a function, and to draw models; it comes to no
    fault, unless the draws do not end. -/
theorem counts_of_inUse (hd : d.WellFormed) (hvs : vs.Pairwise (· < ·)) :
    (∃ c, Counter.ofDomain vs = .ok c) ∧
    (∀ e, d.Valid e → d.SupportedBy e vs →
      d.satCount e vs = .ok (Nat.card {values // d.ModelOf e vs values}) ∧
        ∃ n m, d.satCount e vs = .ok n ∧ d.satCount (-e) vs = .ok m ∧ n + m = 2 ^ vs.length) ∧
    ∀ c : Counter, c.InUse vs d →
      (∀ e start, d.CountedFrom vs e start → ∃ c', countFrom d e start c =
        .ok (Nat.card {values // d.ModelOf e (vs.drop start) values}, c')) ∧
      ∀ e, d.Valid e → d.SupportedBy e vs → ∀ rng : Stream,
        Ensures (sample d e c) rng (· = .drawNeverEnds) fun p _ =>
          (p.1 = none ∧ e = .zero) ∨ ∃ values, p.1 = some values ∧ d.ModelOf e vs values := by
  obtain ⟨c, hmade, -⟩ := Counter.ofDomain_ok hvs d
  refine ⟨⟨c, hmade⟩, fun e he hs => ⟨?_, satCount_neg_add hd hvs he hs⟩, fun c hc => ?_⟩
  · rw [card_modelOf hd he hvs hs]
    exact satCount_ok hd hvs he hs
  · have hsound := hc.sound hvs
    constructor
    · intro e start he
      have hdrop := he.drop hd hvs
      obtain ⟨⟨n, c'⟩, hrun, hn, -⟩ :=
        (countFrom_ensures hd hvs he.valid he.start_le hdrop hsound.lawful).exists_ok
      rw [card_modelOf hd he.valid (hvs.sublist (List.drop_sublist start vs)) hdrop, ← hn]
      exact ⟨c', hrun⟩
    · intro e he hs rng
      apply (sample_draws hd hvs he hs hsound.lawful rng).mono
      exact fun _ _ hp => hp.1

end

/-- Six of the eight assignments of three variables satisfy the disjunction of the first two, also
    for a counter that has counted before, and it finds the other two for the complement, whose node
    it has counted. -/
theorem counts_of_disjunction : ∃ (d : Manager) (e : Edge) (c c' c'' : Counter), d.WellFormed ∧
    [1, 2, 3].Pairwise (· < ·) ∧ d.SupportedBy e [1, 2, 3] ∧ c.InUse [1, 2, 3] d ∧
      countFrom d e 0 c = .ok (6, c') ∧ c'.InUse [1, 2, 3] d ∧
        countFrom d (-e) 0 c' = .ok (2, c'') := by
  obtain ⟨d, e, hd, he⟩ := exists_disjunction
  have hvs : [1, 2, 3].Pairwise (· < ·) := by decide
  -- Only the first two variables matter; the third one is free.
  have hsupported {f : Edge} (hf : f.index = e.index) : d.SupportedBy f [1, 2, 3] := by
    intro v hv
    obtain ⟨env, b, hne⟩ := Manager.dependsOn_of_index_eq hf hv
    by_contra hmem
    simp only [List.mem_cons, List.not_mem_nil, or_false, not_or] at hmem
    refine hne ?_
    rw [he.value_eq, he.value_eq, Function.update_of_ne (Ne.symm hmem.1),
      Function.update_of_ne (Ne.symm hmem.2.1)]
  have hs := hsupported (f := e) rfl
  have hs' := hsupported (f := -e) e.index_neg
  have hneg (env : Nat → Bool) : d.value env (-e) = !(env 1 || env 2) := by
    rw [Manager.value_neg he.valid.index_ne_zero, he.value_eq]
  obtain ⟨⟨c, hmade⟩, -, hcounts⟩ := counts_of_inUse hd hvs
  have hc : c.InUse [1, 2, 3] d := .made hd hmade
  have hfirst := Manager.countedFrom_zero he.valid hs
  obtain ⟨c', hrun⟩ := (hcounts c hc).1 e 0 hfirst
  have hc' : c'.InUse [1, 2, 3] d := .counted hc hfirst hrun
  -- The second count is made with the cache of the first.
  obtain ⟨c'', hrun'⟩ := (hcounts c' hc').1 (-e) 0 (Manager.countedFrom_zero he.valid.neg hs')
  rw [List.drop_zero, card_modelOf hd he.valid hvs hs, countModels_congr he.value_eq] at hrun
  rw [List.drop_zero, card_modelOf hd he.valid.neg hvs hs', countModels_congr hneg] at hrun'
  exact ⟨d, e, c, c', c'', hd, hvs, hs, hc, hrun, hc', hrun'⟩

end Stimulus
