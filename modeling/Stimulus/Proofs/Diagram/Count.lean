import Mathlib.Tactic.Ring
import Stimulus.Diagram.Count
import Stimulus.Proofs.Diagram.Literal
import Stimulus.Proofs.Outcome
import Stimulus.Proofs.Table

/-!
# Counting models

The counter answers how many assignments of the domain make a function true.  A count is made over
the part of the domain from a position on, which has to hold every variable that the function
depends on.  Variables that the diagram skips double the count; a complement mark turns it round.

Main definitions:
- `countModels`: the number of models over a list of variables
- `Manager.SupportedBy`: a function depends on no variable outside a list
- `Counter.Lawful`: the counts already made are true

Main statements:
- `countFrom_ok`
- `Manager.countModels_pos_iff`: only falsehood has no model
-/

namespace Stimulus

/-! ## §1 Counting the models of a function -/

/-- How many assignments of the variables of a list make a function true. -/
def countModels : ((Nat → Bool) → Bool) → List Nat → Nat
  | p, [] => (p fun _ => false).toNat
  | p, v :: vs =>
      countModels (fun env => p (Function.update env v false)) vs +
        countModels (fun env => p (Function.update env v true)) vs

section

variable {p q : (Nat → Bool) → Bool} {vs us : List Nat}

theorem countModels_congr (h : ∀ env, p env = q env) : countModels p vs = countModels q vs := by
  rw [show p = q from funext h]

theorem countModels_true (vs : List Nat) : countModels (fun _ => true) vs = 2 ^ vs.length := by
  induction vs with
  | nil => rfl
  | cons v vs ih => rw [countModels, ih, List.length_cons, Nat.pow_succ]; ring

theorem countModels_false (vs : List Nat) : countModels (fun _ => false) vs = 0 := by
  induction vs with
  | nil => rfl
  | cons v vs ih => rw [countModels, ih]

/-- The models of a function and of its complement are all assignments. -/
theorem countModels_not_add (p : (Nat → Bool) → Bool) (vs : List Nat) :
    countModels (fun env => !p env) vs + countModels p vs = 2 ^ vs.length := by
  induction vs generalizing p with
  | nil => cases h : p fun _ => false <;> simp [countModels, h]
  | cons v vs ih =>
    have hlow := ih fun env => p (Function.update env v false)
    have hhigh := ih fun env => p (Function.update env v true)
    rw [countModels, countModels, List.length_cons, Nat.pow_succ]
    omega

theorem countModels_le (p : (Nat → Bool) → Bool) (vs : List Nat) :
    countModels p vs ≤ 2 ^ vs.length := by
  rw [← countModels_not_add p vs]
  exact Nat.le_add_left _ _

theorem countModels_not (p : (Nat → Bool) → Bool) (vs : List Nat) :
    countModels (fun env => !p env) vs = 2 ^ vs.length - countModels p vs := by
  rw [← countModels_not_add p vs, Nat.add_sub_cancel]

/-- Variables without influence double the count. -/
theorem countModels_append (h : ∀ v ∈ us, ∀ env b, p (Function.update env v b) = p env) :
    countModels p (us ++ vs) = 2 ^ us.length * countModels p vs := by
  induction us with
  | nil => simp
  | cons u us ih =>
    have hu (b : Bool) : countModels (fun env => p (Function.update env u b)) (us ++ vs) =
        countModels p (us ++ vs) := countModels_congr fun env => h u List.mem_cons_self env b
    rw [List.cons_append, countModels, hu, hu, ih fun v hv => h v (List.mem_cons_of_mem u hv),
      List.length_cons, Nat.pow_succ]
    ring

/-- A satisfiable function of the variables of a list has a model over them. -/
theorem countModels_pos (h : ∀ env env', (∀ v ∈ vs, env v = env' v) → p env = p env')
    {env : Nat → Bool} (henv : p env = true) : 0 < countModels p vs := by
  induction vs generalizing p with
  | nil =>
    rw [countModels, h _ env fun v hv => absurd hv List.not_mem_nil, henv]
    exact Nat.zero_lt_one
  | cons v vs ih =>
    -- Fixing a variable leaves a function of the other variables.
    have hfixed (b : Bool) : ∀ asg asg', (∀ w ∈ vs, asg w = asg' w) →
        p (Function.update asg v b) = p (Function.update asg' v b) := by
      refine fun asg asg' hsame => h _ _ fun w hw => ?_
      by_cases hwv : w = v
      · subst hwv
        simp
      · rw [Function.update_of_ne hwv, Function.update_of_ne hwv]
        exact hsame w ((List.mem_cons.mp hw).resolve_left hwv)
    -- The model tells which half of the count is positive.
    have hself : p (Function.update env v (env v)) = true := by
      rwa [Function.update_eq_self]
    rw [countModels]
    cases hv : env v with
    | false =>
      rw [hv] at hself
      exact Nat.add_pos_left (ih (hfixed false) hself) _
    | true =>
      rw [hv] at hself
      exact Nat.add_pos_right _ (ih (hfixed true) hself)

end

/-! ## §2 Functions of the variables of a list -/

namespace Manager

variable {d : Manager}

/-- The function depends on no variable outside a list. -/
def SupportedBy (d : Manager) (e : Edge) (vs : List Nat) : Prop := ∀ v, d.DependsOn e v → v ∈ vs

/-- Assignments that agree where it matters have the same outcome. -/
theorem WellFormed.value_congr (hd : d.WellFormed) {e : Edge} (he : d.Valid e)
    {env env' : Nat → Bool} (h : ∀ v, d.DependsOn e v → env v = env' v) :
    d.value env e = d.value env' e := by
  induction hw : e.index using Nat.strongRecOn generalizing e with
  | _ w ih =>
    by_cases hterm : e.isTerminal = true
    · rw [value_of_isTerminal hterm, value_of_isTerminal hterm]
    · obtain ⟨n, hn, hred⟩ := hd.exists_reduced he hterm
      have hdec := decides_of_reduced he hn hred
      have hchild := fun env => hd.value_child he hn hred env
      have hlow := ih _ (by simpa [← hw] using hred.low_lt)
        (hred.low_valid.complementIf e.isComplement)
        (fun v hv => h v (.of_fixed (fun env => (hchild env).1) hv)) rfl
      have hhigh := ih _ (by simpa [← hw] using hred.high_lt)
        (hred.high_valid.complementIf e.isComplement)
        (fun v hv => h v (.of_fixed (fun env => (hchild env).2) hv)) rfl
      -- The assignments agree on the variable of the node, and the children depend on less.
      rw [hdec.value_eq, hdec.value_eq, h _ (hd.dependsOn_var he hn hred), hlow, hhigh]

theorem SupportedBy.value_congr {e : Edge} {vs : List Nat} (h : d.SupportedBy e vs)
    (hd : d.WellFormed) (he : d.Valid e) {env env' : Nat → Bool}
    (hsame : ∀ v ∈ vs, env v = env' v) : d.value env e = d.value env' e :=
  hd.value_congr he fun v hv => hsame v (h v hv)

/-- Only falsehood has no model. -/
theorem countModels_pos_iff (hd : d.WellFormed) {e : Edge} (he : d.Valid e) {vs : List Nat}
    (hs : d.SupportedBy e vs) : 0 < countModels (d.value · e) vs ↔ e ≠ .zero := by
  constructor
  · rintro hpos rfl
    rw [countModels_congr (q := fun _ => false) fun env => value_zero, countModels_false] at hpos
    exact Nat.lt_irrefl 0 hpos
  · intro hne
    have hsat : ∃ env, d.value env e = true := by
      by_contra hunsat
      exact hne ((hd.eq_zero_iff he).mpr fun env => by
        simpa using fun henv => hunsat ⟨env, henv⟩)
    obtain ⟨env, henv⟩ := hsat
    exact countModels_pos (fun _ _ hsame => hs.value_congr hd he hsame) henv

/-- A function that starts from `v` depends on no variable before `v`. -/
theorem DependsOn.le_of_startsFrom (hd : d.WellFormed) {e : Edge} (he : d.Valid e) {v w : Nat}
    (h : d.DependsOn e w) (hs : d.StartsFrom v e) : v ≤ w := by
  by_contra hlt
  obtain ⟨env, b, hne⟩ := h
  exact hne (hd.value_update he (hs.mono (by omega)) env b)

/-- What the children of a node depend on comes after its variable in the list. -/
theorem SupportedBy.children (hd : d.WellFormed) {e : Edge} {n : Node} (he : d.Valid e)
    (hn : d.node e.index = .ok n) (hred : d.Reduced e.index n) {vs : List Nat}
    (hs : d.SupportedBy e (n.var :: vs)) :
    d.SupportedBy (n.low.complementIf e.isComplement) vs ∧
      d.SupportedBy (n.high.complementIf e.isComplement) vs := by
  have hchild := fun env => hd.value_child he hn hred env
  constructor
  · intro w hw
    -- The child starts below the variable of the node, so it depends on none of its own.
    have hlt := hw.le_of_startsFrom hd (hred.low_valid.complementIf _)
      (hred.low_below.complementIf e.isComplement)
    exact (List.mem_cons.mp (hs w (.of_fixed (fun env => (hchild env).1) hw))).resolve_left
      (by omega)
  · intro w hw
    have hlt := hw.le_of_startsFrom hd (hred.high_valid.complementIf _)
      (hred.high_below.complementIf e.isComplement)
    exact (List.mem_cons.mp (hs w (.of_fixed (fun env => (hchild env).2) hw))).resolve_left
      (by omega)

theorem dependsOn_of_index_eq {e f : Edge} {v : Nat} (hi : e.index = f.index)
    (h : d.DependsOn e v) : d.DependsOn f v := by
  obtain ⟨env, b, hne⟩ := h
  refine ⟨env, b, fun heq => hne ?_⟩
  -- Both edges read the same node, each with a mark of its own.
  simp only [value, hi] at heq ⊢
  rw [Bool.xor_left_inj] at heq ⊢
  exact heq

/-- The models of a node are those of its children. -/
theorem countModels_node (hd : d.WellFormed) {e : Edge} {n : Node} (he : d.Valid e)
    (hn : d.node e.index = .ok n) (hred : d.Reduced e.index n) (vs : List Nat) :
    countModels (d.value · e) (n.var :: vs) =
      countModels (d.value · (n.low.complementIf e.isComplement)) vs +
        countModels (d.value · (n.high.complementIf e.isComplement)) vs := by
  have hchild := fun env => hd.value_child he hn hred env
  rw [countModels, countModels_congr fun env => ((hchild env).1).symm,
    countModels_congr fun env => ((hchild env).2).symm]

end Manager

/-! ## §3 The counter -/

/-- A counter over a list of variables whose counts are true: under an index stands the number of
    models of its node over the variables from that of the node on. -/
structure Counter.Lawful (c : Counter) (d : Manager) (vs : List Nat) : Prop where
  domain : c.domain = vs
  length : c.length = vs.length
  positions : ∀ v p : Nat, c.positions[v]? = some p ↔ vs[p]? = some v
  counts : ∀ i count : Nat, c.counts[i]? = some count → ∀ n, d.node i = .ok n →
    ∀ p : Nat, vs[p]? = some n.var → count = countModels (d.truth · i) (vs.drop p)

section

variable {d : Manager} {vs : List Nat} {c : Counter}

theorem ascends_of_pairwise (h : vs.Pairwise (· < ·)) : Counter.ascends vs = true := by
  induction vs with
  | nil => rfl
  | cons a vs ih =>
    obtain ⟨hlt, hrest⟩ := List.pairwise_cons.mp h
    cases vs with
    | nil => rfl
    | cons b vs =>
      rw [Counter.ascends, ih hrest, decide_eq_true (hlt b List.mem_cons_self)]
      rfl

/-- A counter can be made over every list that ascends. -/
theorem Counter.ofDomain_ok (h : vs.Pairwise (· < ·)) (d : Manager) :
    ∃ c, ofDomain vs = .ok c ∧ c.Lawful d vs := by
  have hdistinct : (vs.zipIdx.map Prod.fst).Nodup := by
    rw [List.zipIdx_map_fst]
    exact h.imp Nat.ne_of_lt
  -- The table of positions is the inverse of the list.
  have hget {v p : Nat} : (Std.TreeMap.ofList vs.zipIdx)[v]? = some p ↔ vs[p]? = some v := by
    have hmem : (v, p) ∈ vs.zipIdx ↔ vs[p]? = some v := List.mem_zipIdx_iff_getElem?
    rw [← hmem]
    exact ⟨mem_of_getElem?_ofList hdistinct, Std.TreeMap.getElem?_ofList_of_mem
      Std.ReflCmp.compare_self (pairwise_compare_ne hdistinct)⟩
  refine ⟨_, if_pos (ascends_of_pairwise h), rfl, rfl, fun v p => hget, ?_⟩
  intro i count hcount
  simp at hcount

/-- A true count may be kept. -/
theorem Counter.Lawful.keep (hc : c.Lawful d vs) {i count : Nat}
    (h : ∀ n, d.node i = .ok n → ∀ p : Nat, vs[p]? = some n.var →
      count = countModels (d.truth · i) (vs.drop p)) : (c.keep i count).Lawful d vs where
  domain := hc.domain
  length := hc.length
  positions := hc.positions
  counts j count' hget := by
    rw [Counter.keep, getElem?_treeMap_insert] at hget
    split at hget
    · rename_i hij
      cases hget
      rw [← hij]
      exact h
    · exact hc.counts j count' hget

/-- The models of a stored node are those of its children. -/
theorem Manager.countModels_truth (hd : d.WellFormed) {i : Nat} {n : Node} (h2 : 2 ≤ i)
    (hn : d.node i = .ok n) (us : List Nat) :
    countModels (d.truth · i) (n.var :: us) =
      countModels (d.value · n.low) us + countModels (d.value · n.high) us := by
  have hred := hd.reduced i n h2 hn
  have hlow := hd.value_update hred.low_valid hred.low_below
  have hhigh := hd.value_update hred.high_valid hred.high_below
  rw [countModels]
  congr 1
  · exact countModels_congr fun env => by
      simp [truth_node h2 hn hred.low_lt hred.high_lt, hlow]
  · exact countModels_congr fun env => by
      simp [truth_node h2 hn hred.low_lt hred.high_lt, hhigh]

theorem Manager.countModels_value (d : Manager) (e : Edge) (us : List Nat) :
    countModels (d.value · e) us =
      if e.isComplement then 2 ^ us.length - countModels (d.truth · e.index) us
      else countModels (d.truth · e.index) us := by
  cases he : e.isComplement with
  | false => exact countModels_congr fun env => by simp [value, he]
  | true =>
    rw [if_pos rfl, ← countModels_not]
    exact countModels_congr fun env => by simp [value, he]

/-- Variables before the first test of a function double its count. -/
theorem Manager.countModels_skip (hd : d.WellFormed) {e : Edge} (he : d.Valid e) {v : Nat}
    (hs : d.StartsFrom v e) {us : List Nat} (hus : ∀ u ∈ us, u < v) (rest : List Nat) :
    countModels (d.value · e) (us ++ rest) = 2 ^ us.length * countModels (d.value · e) rest :=
  countModels_append fun u hu => hd.value_update he (hs.mono (hus u hu))

/-- Where the variable of a node stands in the list that supports the node from `start` on: after
    some variables before it, and before all that its children depend on. -/
structure Manager.Located (d : Manager) (vs : List Nat) (start : Nat) (n : Node)
    (us rest : List Nat) : Prop where
  drop_start : vs.drop start = us ++ n.var :: rest
  before : ∀ u ∈ us, u < n.var
  low : d.SupportedBy n.low rest
  high : d.SupportedBy n.high rest

theorem Manager.exists_located (hd : d.WellFormed) (hvs : vs.Pairwise (· < ·)) {e : Edge}
    (he : d.Valid e) {start : Nat} (hs : d.SupportedBy e (vs.drop start)) {n : Node}
    (hn : d.node e.index = .ok n) (hred : d.Reduced e.index n) :
    ∃ us rest, d.Located vs start n us rest := by
  obtain ⟨us, rest, hsplit⟩ := List.append_of_mem (hs _ (hd.dependsOn_var he hn hred))
  have hbefore : ∀ u ∈ us, u < n.var := by
    have hpair := hvs.sublist (List.drop_sublist start vs)
    rw [hsplit] at hpair
    exact fun u hu => (List.pairwise_append.mp hpair).2.2 u hu n.var List.mem_cons_self
  -- The function does not depend on what comes before its first test.
  have hfirst : d.StartsFrom n.var e := .inr ⟨n, hn, Nat.le_refl _⟩
  have hs' : d.SupportedBy e (n.var :: rest) := fun w hw => by
    have hle := hw.le_of_startsFrom hd he hfirst
    have hmem := hs w hw
    rw [hsplit] at hmem
    exact (List.mem_append.mp hmem).resolve_left fun hu => by
      have := hbefore w hu
      omega
  obtain ⟨hlow, hhigh⟩ := hs'.children hd he hn hred
  exact ⟨us, rest, hsplit, hbefore, fun w hw => hlow w (dependsOn_of_index_eq (by simp) hw),
    fun w hw => hhigh w (dependsOn_of_index_eq (by simp) hw)⟩

section

variable {start : Nat} {n : Node} {us rest : List Nat} (h : d.Located vs start n us rest)

include h

theorem Manager.Located.getElem? : vs[start + us.length]? = some n.var := by
  rw [← List.getElem?_drop, h.drop_start]
  simp

theorem Manager.Located.drop_var : vs.drop (start + us.length) = n.var :: rest := by
  rw [← List.drop_drop, h.drop_start, List.drop_left]

theorem Manager.Located.drop_rest : vs.drop (start + us.length + 1) = rest := by
  rw [← List.drop_drop, h.drop_var]
  rfl

theorem Manager.Located.lt_length : start + us.length < vs.length :=
  (List.getElem?_eq_some_iff.mp h.getElem?).1

theorem Manager.Located.length_rest : (n.var :: rest).length = vs.length - (start + us.length) := by
  rw [← h.drop_var, List.length_drop]

end

/-- What is left to do once the models of a node are counted: turn the count round for a mark, and
    double it for every variable before the node. -/
theorem finishCount_ensures (hd : d.WellFormed) {e : Edge} (he : d.Valid e) {start : Nat} {n : Node}
    (hn : d.node e.index = .ok n) {us rest : List Nat} (h : d.Located vs start n us rest)
    (hc : c.Lawful d vs) :
    Ensures (if e.isComplement = true then do
        let count ← Fault.ofExcept (complementCount (vs.length - (start + us.length))
          (countModels (d.truth · e.index) (n.var :: rest)))
        pure (count <<< (start + us.length - start))
      else do
        let count ← pure (countModels (d.truth · e.index) (n.var :: rest))
        pure (count <<< (start + us.length - start))) c (fun _ => False) fun count c' =>
      count = countModels (d.value · e) (vs.drop start) ∧ c'.Lawful d vs := by
  -- Every variable that is skipped doubles the count, whether the edge is marked or not.
  have hskip := Manager.countModels_skip hd he (v := n.var) (.inr ⟨n, hn, Nat.le_refl _⟩) h.before
    (n.var :: rest)
  rw [← h.drop_start, d.countModels_value e (n.var :: rest), h.length_rest] at hskip
  have hle := countModels_le (d.truth · e.index) (n.var :: rest)
  rw [h.length_rest] at hle
  split
  · rename_i hmark
    rw [if_pos hmark] at hskip
    refine .ofExcept_bind (R := (· = 2 ^ (vs.length - (start + us.length)) -
      countModels (d.truth · e.index) (n.var :: rest))) ?_ ?_
    · rw [complementCount, Nat.one_shiftLeft, if_neg (Nat.not_lt.mpr hle)]
      rfl
    · rintro _ rfl
      refine .pure ⟨?_, hc⟩
      rw [Nat.add_sub_cancel_left, Nat.shiftLeft_eq, Nat.mul_comm, hskip]
  · rename_i hmark
    rw [if_neg hmark] at hskip
    refine .pure ⟨?_, hc⟩
    rw [Nat.add_sub_cancel_left, Nat.shiftLeft_eq, Nat.mul_comm, hskip]

/-- From a position before which the function does not look, the counter answers the number of
    models over the rest of the domain. -/
theorem countFrom_ensures (hd : d.WellFormed) (hvs : vs.Pairwise (· < ·)) {e : Edge}
    (he : d.Valid e) {start : Nat} (hstart : start ≤ vs.length)
    (hs : d.SupportedBy e (vs.drop start)) (hc : c.Lawful d vs) :
    Ensures (countFrom d e start) c (fun _ => False) fun count c' =>
      count = countModels (d.value · e) (vs.drop start) ∧ c'.Lawful d vs := by
  -- On the index of the edge, with the counter general, since the counts kept so far grow.
  induction hw : e.index using Nat.strongRecOn generalizing e start c with
  | _ w ih =>
    rw [countFrom]
    refine .get_bind ?_
    by_cases hzero : e = .zero
    · rw [if_pos hzero, hzero]
      refine .pure ⟨?_, hc⟩
      rw [countModels_congr (q := fun _ => false) fun env => Manager.value_zero, countModels_false]
    by_cases hone : e = .one
    · rw [if_neg hzero, if_pos hone, hone, hc.length]
      dsimp only
      rw [if_neg (by omega)]
      refine .pure ⟨?_, hc⟩
      rw [countModels_congr (q := fun _ => true) fun env => Manager.value_one, countModels_true,
        List.length_drop, Nat.one_shiftLeft]
    rw [if_neg hzero, if_neg hone]
    have hterm : ¬ e.isTerminal = true := fun h =>
      (Manager.eq_one_or_eq_zero h).elim hone hzero
    obtain ⟨n, hn, hred⟩ := hd.exists_reduced he hterm
    have h2 : 2 ≤ e.index := by
      have := hred.low_valid.index_pos
      have := hred.low_lt
      omega
    -- The variable of the node stands somewhere behind the position, with some skipped before it.
    obtain ⟨us, rest, hloc⟩ := Manager.exists_located hd hvs he hs hn hred
    refine .ofExcept_bind (R := (· = n)) (by rw [hn]; rfl) ?_
    rintro m rfl
    refine .get_bind (.ofExcept_bind (R := (· = start + us.length)) ?_ ?_)
    · rw [Counter.position, (hc.positions m.var (start + us.length)).mpr hloc.getElem?]
      rfl
    rintro p rfl
    dsimp only
    rw [if_neg (by omega), hc.length]
    refine .get_bind ?_
    cases hcount : c.count? e.index with
    | some count =>
      -- The count was made before.
      have hold := hc.counts _ _ hcount m hn _ hloc.getElem?
      rw [hloc.drop_var] at hold
      subst hold
      exact finishCount_ensures hd he hn hloc hc
    | none =>
      -- The count is made of those of the children and kept.
      dsimp only
      rw [if_pos ⟨hred.low_lt, hred.high_lt⟩]
      have hlt := hloc.lt_length
      have hlow := hloc.low
      have hhigh := hloc.high
      rw [← hloc.drop_rest] at hlow hhigh
      refine (ih _ (hw ▸ hred.low_lt) hred.low_valid (by omega) hlow hc rfl).bind ?_
      rintro low c₁ ⟨rfl, hc₁⟩
      refine (ih _ (hw ▸ hred.high_lt) hred.high_valid (by omega) hhigh hc₁ rfl).bind ?_
      rintro high c₂ ⟨rfl, hc₂⟩
      rw [hloc.drop_rest, ← Manager.countModels_truth hd h2 hn rest]
      refine .modify_bind (finishCount_ensures hd he hn hloc (hc₂.keep fun k hk q hq => ?_))
      cases hn.symm.trans hk
      -- A variable has one position in the domain.
      have hq' : q = start + us.length :=
        Option.some.inj (((hc.positions m.var q).mpr hq).symm.trans
          ((hc.positions m.var _).mpr hloc.getElem?))
      rw [hq', hloc.drop_var]

end

end Stimulus
