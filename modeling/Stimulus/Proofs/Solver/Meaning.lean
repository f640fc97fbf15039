import Stimulus.Proofs.Circuit.Environment
import Stimulus.Proofs.Circuit.Usage
import Stimulus.Proofs.Solver

/-!
# What solvers demand

A solver demands properties of environments.  Whatever constraints it was given and whatever random
words it draws, a solve that comes to an end finds a model exactly if some environment meets what
is demanded: the hard part, what is assumed, and the soft parts unless they are to be ignored.
Suggestions decide which model is drawn, but not whether there is one.

Main definitions:
- `Solver.Means`: what a solver demands
- `Solver.Tells`: what is read of the last model

Main statements:
- `Solver.assert_means`, `Solver.assertSoft_means`, `Solver.suggest_means`
- `Solver.assumeEqual_means`
- `Solver.solve_finds`, `Solver.solve_means`
-/

namespace Stimulus

/-! ## §1 Functions and models -/

namespace Solver

section

variable {s : Solver} {f : Edge}

/-- The last model gives variables the low bits of their numbers, as far as it gives them a value,
    and it gives one to every variable that is in use. -/
structure Tells (s : Solver) (env : Nat → Nat) : Prop where
  low : ∀ id sort n, s.read (.var id sort) = .ok (some n) → n = env id % 2 ^ sort.width
  carried : ∀ id sort, s.encoding.Carries id sort →
    s.read (.var id sort) = .ok (some (env id % 2 ^ sort.width))

/-- A table of values tells what an assignment that has these values spells. -/
theorem tells_spelled (hwf : s.encoding.WellFormed) {asg : Nat → Bool}
    (h : ∀ v b, s.model[v]? = some b → b = asg v)
    (hdomain : ∀ v ∈ s.encoding.domain, ∃ b, s.model[v]? = some b) :
    s.Tells (s.encoding.spelled asg) := by
  -- What is read of a variable are the bits of its slot, as far as the model has them all.
  have hlow : ∀ id sort n, s.read (.var id sort) = .ok (some n) →
      n = s.encoding.spelled asg id % 2 ^ sort.width := by
    intro id sort n hn
    cases hslot : s.encoding.slots[id]? with
    | none =>
      rw [read_of_unplaced hslot] at hn
      cases hn
    | some slot =>
      simp only [read, Encoding.variableBits, hslot, bitVariables_eq (hwf.slots.slot_lt hslot)] at hn
      by_cases hwidth : sort.width ≤ 64
      · rw [if_pos hwidth] at hn
        obtain ⟨bits, hbits, rfl⟩ := Option.map_eq_some_iff.mp (Except.ok.inj hn)
        rw [numberOfBits_eq, Encoding.spelled_mod hslot hwidth]
        congr 1
        -- Every bit that is read is the value of its diagram variable.
        have hvalues := (forall₂_of_mapM_eq_some hbits).imp fun v b hv => h v b hv
        rw [← List.forall₂_eq_eq_eq, List.forall₂_map_right_iff]
        exact (List.forall₂_map_left_iff.mp hvalues).flip
      · rw [if_neg hwidth] at hn
        cases hn
  refine ⟨hlow, fun id sort hcarries => ?_⟩
  obtain ⟨hwidth, slot, hslot, hbits⟩ := hcarries
  have hvalues : ((List.range sort.width).map (bitIndex slot)).mapM (s.model[·]?) =
      some (((List.range sort.width).map (bitIndex slot)).map asg) := by
    refine mapM_eq_some fun v hv => ?_
    obtain ⟨bit, hbit, rfl⟩ := List.mem_map.mp hv
    obtain ⟨b, hb⟩ := hdomain _ (hbits bit (List.mem_range.mp hbit))
    rw [hb, h _ b hb]
  -- All bits of a carried variable are in the domain, hence the model has them.
  obtain ⟨n, hn⟩ : ∃ n, s.read (.var id sort) = .ok (some n) := by
    simp only [read, Encoding.variableBits, hslot, bitVariables_eq (hwf.slots.slot_lt hslot),
      if_pos hwidth]
    show ∃ n, Except.ok (numberOfBits <$> ((List.range sort.width).map (bitIndex slot)).mapM _) = _
    rw [hvalues]
    exact ⟨_, rfl⟩
  rw [hn, hlow id sort n hn]

/-- Suggestions are dropped until the rest fits, so only a base that is false leaves nothing.  The
    base itself is never dropped. -/
theorem relax_vanishes {d : Manager} {base : Edge} {fs : List Edge} (hd : d.WellFormed)
    (hbase : d.Valid base) (hfs : ∀ f ∈ fs, d.Valid f) :
    Delivers (relax base fs) d fun f d' => d'.Valid f ∧ (f = .zero ↔ base = .zero) ∧
      ∀ asg, d'.value asg f = true → d.value asg base = true := by
  -- By induction on the suggestions; the nodes grow with each attempt, so the manager is general.
  induction fs generalizing d with
  | nil =>
    have hone : ∀ f ∈ [base], d.Valid f := by simpa using hbase
    apply (conjAll_delivers hd hone).imp
    intro f d' hext hd' hf
    refine ⟨hf.valid, ?_, fun asg => by simp [hf.value_eq]⟩
    rw [hd'.eq_zero_iff hf.valid, hd.eq_zero_iff hbase]
    simp [hf.value_eq]
  | cons g fs ih =>
    obtain ⟨hg, hrest⟩ := List.forall_mem_cons.mp hfs
    have hall : ∀ f ∈ (g :: fs).reverse ++ [base], d.Valid f := by
      intro f hf
      simp only [List.mem_append, List.mem_reverse, List.mem_singleton] at hf
      rcases hf with hf | rfl
      · exact hfs f hf
      · exact hbase
    unfold relax
    apply (conjAll_delivers hd hall).bind
    intro f d' hext hd' hf
    by_cases hzero : f = .zero
    · -- Nothing is known of the base yet, and the last suggestion is dropped.
      rw [if_neg (by simpa using hzero)]
      apply (ih hd' (hext.valid hbase) fun g hg => hext.valid (hrest g hg)).imp
      rintro f' d'' - - ⟨hvalid, hvanishes, himplies⟩
      refine ⟨hvalid, hvanishes, fun asg hvalue => ?_⟩
      rw [← hext.value_eq hbase asg]
      exact himplies asg hvalue
    · rw [if_pos hzero]
      refine .pure hd' ⟨hf.valid, iff_of_false hzero fun hfalse => hzero ?_, fun asg => ?_⟩
      · rw [hd'.eq_zero_iff hf.valid]
        intro asg
        rw [hf.value_eq, hfalse]
        simp
      · rw [hf.value_eq]
        simp

/-- Falsehood alone has no model, and a model that is drawn is one. -/
theorem drawModel_finds (hwf : s.encoding.WellFormed) (hf : s.encoding.manager.Valid f) :
    Ensures (drawModel f) s (fun _ => True) fun found s' =>
      (∃ model rng, s' = { s with model := model, rng := rng }) ∧ (found = true ↔ f ≠ .zero) ∧
        (found = true → ∃ asg, s.encoding.manager.value asg f = true ∧
          s'.Tells (s.encoding.spelled asg)) := by
  unfold drawModel
  apply Ensures.get_bind
  -- The counter is made for the domain of the encoding.
  apply Ensures.ofExcept_bind (R := fun c : Counter => c.domain = s.encoding.domainList)
  · unfold Counter.ofDomain
    split
    · exact rfl
    · trivial
  intro counter hdomain
  apply Ensures.get_bind
  have hsample : Ensures (sample s.encoding.manager f counter) s.rng _ _ :=
    sample_models hwf.manager hf counter
  have hdraw : Ensures (draw (sample s.encoding.manager f counter)) s (fun _ => True)
      fun p s' => (∃ rng, s' = { s with rng := rng }) ∧ ((p.1 = none ∧ f = .zero) ∨
        ∃ values, p.1 = some values ∧ f ≠ .zero ∧
          s.encoding.manager.ModelOf f counter.domain values) := by
    unfold Ensures draw at *
    cases hact : (sample s.encoding.manager f counter : Draw _) s.rng with
    | error fault => trivial
    | ok r =>
      rw [hact] at hsample
      exact ⟨⟨r.2, rfl⟩, hsample⟩
  apply hdraw.bind
  rintro ⟨_, c'⟩ _ ⟨⟨rng, rfl⟩, ⟨rfl, hzero⟩ | ⟨values, rfl, hne, hmodel⟩⟩
  · exact .modify_bind (.pure ⟨⟨_, _, rfl⟩, by simp [hzero], nofun⟩)
  · refine .modify_bind (.pure ⟨⟨_, _, rfl⟩, by simp [hne], fun _ => ?_⟩)
    -- The values that were drawn are those of an assignment.
    rw [hdomain] at hmodel
    let table := Std.TreeMap.ofList (s.encoding.domainList.zip values)
    let asg (v : Nat) : Bool := table[v]?.getD false
    have htable := getElem?_ofList_zip s.encoding.domainList_ascends hmodel.length_eq
    have hasg : List.Forall₂ (fun v b => asg v = b) s.encoding.domainList values :=
      htable.imp fun v b hv => by simp [asg, table, hv]
    refine ⟨asg, hmodel.holds asg hasg, ?_⟩
    apply tells_spelled (s := { s with model := table, rng := rng }) hwf
    · intro v b hv
      show b = table[v]?.getD false
      rw [show table[v]? = some b from hv]
      rfl
    · intro v hv
      have hall : List.Forall₂ (fun v _ => ∃ b, table[v]? = some b) s.encoding.domainList values :=
        htable.imp fun _ b hb => ⟨b, hb⟩
      exact forall_of_forall₂ hall v (Encoding.mem_domainList.mpr hv)

end

/-! ## §2 What a solver demands -/

/-- The parts of a solver mean demands.  Suggestions are functions of some kind. -/
structure Means (s : Solver) (hard : Demand) (softs assumed : List Demand) : Prop where
  wellFormed : s.encoding.WellFormed
  hard : s.encoding.Means s.hard hard
  softs : s.encoding.MeansEach s.softs.toList softs
  assumptions : s.encoding.MeansEach s.assumptions.toList assumed
  suggestions : ∀ f ∈ s.suggestions.toList, s.encoding.manager.Valid f

section

variable {s : Solver} {hard : Demand} {softs assumed : List Demand}

theorem Means.withEncoding (h : s.Means hard softs assumed) {encoding : Encoding}
    (hext : s.encoding.Extends encoding) (hwf : encoding.WellFormed) :
    Means { s with encoding := encoding } hard softs assumed where
  wellFormed := hwf
  hard := h.hard.mono hext
  softs := h.softs.mono hext
  assumptions := h.assumptions.mono hext
  suggestions f hf := hext.manager.valid (h.suggestions f hf)

theorem Means.withManager (h : s.Means hard softs assumed) {d : Manager}
    (hext : s.encoding.manager.Extends d) (hwf : d.WellFormed) :
    Means { s with encoding := s.encoding.withManager d } hard softs assumed :=
  h.withEncoding (Encoding.extends_withManager hext) (h.wellFormed.withManager hwf)

/-- A solver without constraints demands nothing. -/
theorem empty_means (bits seed : Nat) :
    Ends (empty bits seed) (fun _ => True) fun s => s.Means (fun _ => True) [] [] := by
  unfold empty Encoding.empty
  cases hm : Manager.empty bits with
  | error fault => trivial
  | ok d =>
    have hwf : Encoding.WellFormed ⟨d, ∅, ∅⟩ := ⟨Manager.wellFormed_empty hm, allocated_empty⟩
    exact ⟨hwf, Encoding.means_one hwf, .nil, .nil, by simp⟩

/-- A solver that encodes something, which may be refused. -/
theorem encode_focus {α : Type} {act : Encode α} {R : Refusal → Encoding → Prop}
    {Q : α → Encoding → Prop} (h : Grants act s.encoding (fun _ => True) R Q) :
    Grants (encode act) s (fun _ => True)
      (fun refusal s' => ∃ encoding, s' = { s with encoding := encoding } ∧ R refusal encoding)
      fun a s' => ∃ encoding, s' = { s with encoding := encoding } ∧ Q a encoding := by
  refine grants_focus (fun encoding => { s with encoding := encoding }) ?_ h
  obtain ⟨encoding, hard, softs, assumptions, suggestions, model, rng⟩ := s
  unfold encode
  dsimp only
  cases act encoding <;> rfl

theorem build_means {α : Type} {act : Build α} {Q : α → Manager → Prop}
    (h : s.Means hard softs assumed) (hact : Delivers act s.encoding.manager Q) :
    Ensures (build act) s (fun _ => True) fun a s' =>
      ∃ d, s' = { s with encoding := s.encoding.withManager d } ∧
        s'.Means hard softs assumed ∧ s.encoding.manager.Extends d ∧ Q a d := by
  apply Ensures.imp (E := Stuck False) (build_ensures hact.run) (fun _ _ => trivial)
  rintro a _ ⟨d, rfl, hext, hwf, hq⟩
  exact ⟨d, rfl, h.withManager hext hwf, hext, hq⟩

/-! ## §3 Constraints -/

variable {e : Expr}

theorem encodeTruth_means (e : Expr) (h : s.Means hard softs assumed) :
    Grants (encode e.encodeTruth) s (fun _ => True) (fun _ _ => e.mentionsVector = true)
      fun f s' => s'.Means hard softs assumed ∧ ∃ P, s'.encoding.Means f P := by
  apply (encode_focus (e.encodeTruth_means h.wellFormed)).imp (fun _ hf => hf)
  · rintro _ _ ⟨_, -, hrefused⟩
    exact hrefused
  · rintro f _ ⟨encoding, rfl, hext, hwf, P, hf, -⟩
    exact ⟨h.withEncoding hext hwf, P, hf⟩

theorem assert_means (e : Expr) (h : s.Means hard softs assumed) :
    Grants (assert e) s (fun _ => True) (fun _ _ => e.mentionsVector = true) fun _ s' =>
      ∃ hard', s'.Means hard' softs assumed := by
  apply (encodeTruth_means e h).bind
  rintro f s₁ ⟨h₁, P, hf⟩
  apply Grants.get_bind
  apply (build_means h₁ (Encoding.conj_means h₁.wellFormed h₁.hard hf)).step.bind
  rintro g _ ⟨d, rfl, h₂, hext, hg⟩
  exact .modify ⟨_, h₂.wellFormed, hg, h₂.softs, h₂.assumptions, h₂.suggestions⟩

/-- Several constraints are asserted, unless one of them needs a vector. -/
theorem assertEach_means (es : List Expr) (h : s.Means hard softs assumed) :
    Grants (es.forM assert) s (fun _ => True) (fun _ _ => ∃ e ∈ es, e.mentionsVector = true)
      fun _ s' => ∃ hard', s'.Means hard' softs assumed := by
  apply grants_forM (I := fun s' : Solver => ∃ hard', s'.Means hard' softs assumed) ⟨hard, h⟩
  rintro e he s' ⟨hard', h'⟩
  exact (assert_means e h').imp_refusal fun _ _ hvector => ⟨e, he, hvector⟩

theorem assertSoft_means (e : Expr) (h : s.Means hard softs assumed) :
    Grants (assertSoft e) s (fun _ => True) (fun _ _ => e.mentionsVector = true) fun _ s' =>
      ∃ softs', s'.Means hard softs' assumed := by
  apply (encodeTruth_means e h).bind
  rintro f s₁ ⟨h₁, P, hf⟩
  refine .modify ⟨softs ++ [P], h₁.wellFormed, h₁.hard, ?_, h₁.assumptions, h₁.suggestions⟩
  rw [Array.toList_push]
  exact List.rel_append h₁.softs (.cons hf .nil)

/-- A suggestion demands nothing. -/
theorem suggest_means (e : Expr) (h : s.Means hard softs assumed) :
    Grants (suggest e) s (fun _ => True) (fun _ _ => e.mentionsVector = true) fun _ s' =>
      s'.Means hard softs assumed := by
  apply (encodeTruth_means e h).bind
  rintro f s₁ ⟨h₁, P, hf⟩
  refine .modify ⟨h₁.wellFormed, h₁.hard, h₁.softs, h₁.assumptions, ?_⟩
  rw [Array.toList_push]
  intro g hg
  rcases List.mem_append.mp hg with hg | hg
  · exact h₁.suggestions g hg
  · rw [List.mem_singleton.mp hg]
    exact hf.valid

/-- An equality that is assumed demands that it holds. -/
theorem assumeEqual_means (id : Nat) (sort : BitSort) (bits : Nat)
    (h : s.Means hard softs assumed) :
    Grants (assume ((Expr.var id sort).equalTo bits)) s (fun _ => True) (fun _ _ => False)
      fun _ s' => s'.Means hard softs
        (assumed ++ [fun env => ((Expr.var id sort).equalTo bits).Holds env]) := by
  have hequal : Grants ((Expr.var id sort).equalTo bits).encodeTruth s.encoding _ _ _ :=
    Expr.encodeTruth_equalTo_means bits h.wellFormed
  have hencode := encode_focus hequal
  apply (hencode.imp_refusal fun _ _ hr => hr.elim fun _ hr => hr.2).bind
  rintro f _ ⟨encoding, rfl, hext, hwf, hf⟩
  have h₁ := h.withEncoding hext hwf
  refine .modify ⟨h₁.wellFormed, h₁.hard, h₁.softs, ?_, h₁.suggestions⟩
  rw [Array.toList_push]
  exact List.rel_append h₁.assumptions (.cons hf .nil)

/-- No equality is assumed of a variable that is wider than a slot. -/
theorem width_le_of_assumeEqual (id : Nat) (sort : BitSort) (bits : Nat)
    (h : s.encoding.WellFormed) :
    Grants (assume ((Expr.var id sort).equalTo bits)) s (fun _ => True) (fun _ _ => True)
      fun _ _ => sort.width ≤ 64 := by
  have hencode := encode_focus (Expr.width_le_of_encodeTruth_equalTo id sort bits h)
  apply (hencode.imp_refusal fun _ _ _ => trivial).bind
  intro f s₁ ⟨_, _, hwidth⟩
  exact .modify hwidth

/-! ## §4 Solving -/

/-- Some environment meets what is demanded. -/
def Met (ignoreSofts : Bool) (hard : Demand) (softs assumed : List Demand) : Prop :=
  ∃ env, hard env ∧ (∀ P ∈ assumed, P env) ∧ (ignoreSofts = false → ∀ P ∈ softs, P env)

/-- The suggestions are put in a random order, dropped while they conflict, and a model is drawn. -/
theorem search_means {base : Edge} {P : Demand} {suggestions : Array Edge}
    (h : s.Means hard softs assumed) (hbase : s.encoding.Means base P)
    (hsuggestions : ∀ f ∈ suggestions.toList, s.encoding.manager.Valid f) :
    Ensures (do
      let shuffled ← draw (Stream.shuffle suggestions)
      let f ← build (relax base shuffled.toList.reverse)
      drawModel f) s (fun _ => True) fun found s' =>
        s'.Means hard softs assumed ∧ s'.suggestions = s.suggestions ∧
          s.encoding.Grows s'.encoding ∧ (found = true ↔ ∃ env, P env) ∧
            (found = true → ∃ env, P env ∧ s'.Tells env) := by
  have hshuffle : Ensures (draw (Stream.shuffle suggestions)) s (Stuck False) _ :=
    draw_ensures (Stream.shuffle_draws suggestions)
  apply (hshuffle.imp (fun _ _ => trivial) fun _ _ hq => hq).bind
  rintro shuffled _ ⟨hperm, rng, rfl⟩
  have h₁ : Means { s with rng := rng } hard softs assumed :=
    ⟨h.wellFormed, h.hard, h.softs, h.assumptions, h.suggestions⟩
  have hvalid : ∀ f ∈ shuffled.toList.reverse, s.encoding.manager.Valid f := fun f hf =>
    hsuggestions f (hperm.mem_iff.mp (List.mem_reverse.mp hf))
  apply (build_means h₁ (relax_vanishes h.wellFormed.manager hbase.valid hvalid)).bind
  rintro f _ ⟨d, rfl, h₂, hext, hf, hzero, himplies⟩
  apply (drawModel_finds h₂.wellFormed hf).mono
  rintro found _ ⟨⟨model, rng', rfl⟩, hfound, hmodel⟩
  refine ⟨⟨h₂.wellFormed, h₂.hard, h₂.softs, h₂.assumptions, h₂.suggestions⟩, rfl,
    s.encoding.grows_withManager d, ?_, fun hfound => ?_⟩
  · rw [hfound, ne_eq, hzero, hbase.eq_zero_iff h.wellFormed, not_not]
  · -- A model of what was not dropped is a model of the base.
    obtain ⟨asg, hasg, htells⟩ := hmodel hfound
    have hspelled := h.wellFormed.assigns_spelled asg
    exact ⟨_, (hbase.value_iff _ asg hspelled).mp (himplies asg hasg), htells⟩

/-- A solve that comes to an end finds a model exactly if what is demanded can be met, the model
    meets it, the assumptions are used up, and all variables stay in use. -/
theorem solve_finds (h : s.Means hard softs assumed) (ignoreSofts : Bool) :
    Ensures (solve ignoreSofts) s (fun _ => True) fun found s' =>
      s'.Means hard softs [] ∧ s'.suggestions = #[] ∧ s.encoding.Grows s'.encoding ∧
        (found = true ↔ Met ignoreSofts hard softs assumed) ∧
          (found = true → ∃ env, hard env ∧ (∀ P ∈ assumed, P env) ∧
            (ignoreSofts = false → ∀ P ∈ softs, P env) ∧ s'.Tells env) := by
  unfold solve
  apply Ensures.get_bind
  apply Ensures.modify_bind
  dsimp only
  have h₀ : Means { s with assumptions := #[], suggestions := #[] } hard softs [] :=
    ⟨h.wellFormed, h.hard, h.softs, .nil, by simp⟩
  have hassumed : s.encoding.MeansEach (s.assumptions.toList ++ [s.hard]) (assumed ++ [hard]) :=
    List.rel_append h.assumptions (.cons h.hard .nil)
  apply (build_means h₀ (Encoding.conjAll_means h.wellFormed hassumed)).bind
  rintro base _ ⟨d, rfl, h₁, hext, hbase⟩
  have hext' := Encoding.extends_withManager hext
  have hsuggestions : ∀ f ∈ s.suggestions.toList, d.Valid f := fun f hf =>
    hext.valid (h.suggestions f hf)
  -- The soft constraints join unless they are to be ignored.
  cases ignoreSofts with
  | true =>
    apply (search_means h₁ hbase hsuggestions).mono
    rintro found s' ⟨h', hempty, hgrows, hfound, hmodel⟩
    have hmeets (env : Nat → Nat) : (∀ P ∈ assumed ++ [hard], P env) ↔
        hard env ∧ ∀ P ∈ assumed, P env := by
      simp only [List.mem_append, List.mem_singleton, or_imp, forall_and, forall_eq, and_comm]
    simp only [hmeets] at hfound hmodel
    have hgrown := (s.encoding.grows_withManager d).trans hgrows
    refine ⟨h', hempty, hgrown, by rw [hfound]; simp [Met], fun hfound => ?_⟩
    obtain ⟨env, ⟨hhard, hall⟩, htells⟩ := hmodel hfound
    exact ⟨env, hhard, hall, nofun, htells⟩
  | false =>
    have hsofts := List.rel_append (h.softs.mono hext') (.cons hbase .nil)
    apply (build_means h₁ (Encoding.conjAll_means h₁.wellFormed hsofts)).bind
    rintro base' _ ⟨d', rfl, h₂, hext₂, hbase'⟩
    apply (search_means h₂ hbase' fun f hf => hext₂.valid (hsuggestions f hf)).mono
    rintro found s' ⟨h', hempty, hgrows, hfound, hmodel⟩
    have hmeets (env : Nat → Nat) :
        (∀ P ∈ softs ++ [fun env => ∀ P ∈ assumed ++ [hard], P env], P env) ↔
          hard env ∧ (∀ P ∈ assumed, P env) ∧ ∀ P ∈ softs, P env := by
      simp only [List.mem_append, List.mem_singleton, or_imp, forall_and, forall_eq]
      tauto
    simp only [hmeets] at hfound hmodel
    have hgrown := (s.encoding.grows_withManager d).trans
      (((s.encoding.withManager d).grows_withManager d').trans hgrows)
    refine ⟨h', hempty, hgrown, by rw [hfound]; simp [Met], fun hfound => ?_⟩
    obtain ⟨env, ⟨hhard, hall, hsoft⟩, htells⟩ := hmodel hfound
    exact ⟨env, hhard, hall, fun _ => hsoft, htells⟩

/-- Whether a model is found depends on the demands alone. -/
theorem solve_means (h : s.Means hard softs assumed) (ignoreSofts : Bool) :
    Ensures (solve ignoreSofts) s (fun _ => True) fun found s' =>
      s'.Means hard softs [] ∧ s'.suggestions = #[] ∧
        (found = true ↔ Met ignoreSofts hard softs assumed) :=
  (solve_finds h ignoreSofts).mono fun _ _ hs' => ⟨hs'.1, hs'.2.1, hs'.2.2.2.1⟩

/-! ## §5 Analysis -/

/-- Some soft constraints become hard, and none is left. -/
theorem keepSofts_means {fs : List Edge} (h : s.Means hard softs assumed) (position : Nat)
    (hfs : ∃ Ps, s.encoding.MeansEach fs Ps) :
    Ensures (keepSofts position fs) s (fun _ => True) fun _ s' =>
      ∃ hard', s'.Means hard' softs assumed ∧ ∀ env, hard' env → hard env := by
  obtain ⟨Ps, hfs⟩ := hfs
  induction fs generalizing s position hard Ps with
  | nil => exact .pure ⟨hard, h, fun _ henv => henv⟩
  | cons f fs ih =>
    obtain ⟨P, Ps, hf, hrest, rfl⟩ := List.forall₂_cons_left_iff.mp hfs
    unfold keepSofts
    apply Ensures.get_bind
    apply (build_means h (Encoding.conj_means h.wellFormed h.hard hf)).bind
    rintro g _ ⟨d, rfl, h₁, hext, hg⟩
    have hrest := Encoding.MeansEach.mono hrest (Encoding.extends_withManager hext)
    split
    · apply (ih h₁ (position + 1) Ps hrest).bind
      intro dropped s' hs'
      exact .pure hs'
    · have h₂ : Means { s with encoding := s.encoding.withManager d, hard := g }
          (fun env => hard env ∧ P env) softs assumed :=
        ⟨h₁.wellFormed, hg, h₁.softs, h₁.assumptions, h₁.suggestions⟩
      apply Ensures.modify_bind
      apply (ih h₂ (position + 1) Ps hrest).mono
      rintro dropped s' ⟨hard', hs', himplies⟩
      exact ⟨hard', hs', fun env henv => (himplies env henv).1⟩

theorem dropSofts_means (h : s.Means hard softs assumed) :
    Ensures dropSofts s (fun _ => True) fun _ s' =>
      ∃ hard', s'.Means hard' [] assumed ∧ ∀ env, hard' env → hard env := by
  unfold dropSofts
  apply Ensures.get_bind
  apply Ensures.modify_bind
  have h₀ : Means { s with softs := #[] } hard [] assumed :=
    ⟨h.wellFormed, h.hard, .nil, h.assumptions, h.suggestions⟩
  exact keepSofts_means h₀ 0 ⟨softs, h.softs⟩

/-- Looking for conflicts is refused only if a constraint needs a vector. -/
theorem conflicts_refuses {constraints : Std.TreeMap Nat Expr} {refused : Prop}
    (h : ∀ x ∈ constraints.toList, x.2.mentionsVector = true → refused) (s : Solver) :
    Grants (conflicts constraints) s (fun _ => True) (fun _ _ => refused) fun _ _ => True := by
  have hencode : ∀ x ∈ constraints.toList, ∀ s : Solver, Grants (encode x.2.encodeTruth) s
      (fun _ => True) (fun _ _ => refused) fun _ _ => True := by
    intro x hx s
    apply (encode_focus (encodeTruth_refuses x.2 s.encoding)).imp (fun _ hf => hf)
    · rintro _ _ ⟨_, -, -, hvector⟩
      exact h x hx hvector
    · exact fun _ _ _ => trivial
  unfold conflicts
  apply (grants_mapM (I := fun _ => True) trivial fun x hx s _ => hencode x hx s).bind
  intro fs s₁ _
  apply (ensures_true (build (minimalConflicts fs)) s₁).step.bind
  intro groups s₂ _
  exact .pure trivial

end

end Solver

end Stimulus
