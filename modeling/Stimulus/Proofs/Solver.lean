import Mathlib.Data.List.Perm.Basic
import Stimulus.Proofs.Circuit.Capture
import Stimulus.Proofs.Diagram.Conflicts
import Stimulus.Proofs.Diagram.Sample
import Stimulus.Proofs.Table
import Stimulus.Solver

/-!
# What solvers answer

A solver poses lists of constraints: those that are hard, soft, assumed and suggested.  Adding a
constraint extends one of the lists.  A solve finds a model exactly if the constraints that it
needs are satisfiable together, the model satisfies them, and it satisfies the suggestions as well
if all of them fit.

Main definitions:
- `Solver.Poses`: what a solver poses
- `Solver.Shows`: the environment that the last model stands for
- `Solver.Solved`: the answer of a solve
- `Solver.Sifts`: which constraints are kept when they are tried one after the other

Main statements:
- `Solver.assert_grants`, `Solver.assertSoft_grants`, `Solver.suggest_grants`,
  `Solver.assume_grants`
- `Solver.solve_ensures`
- `Solver.dropSofts_ensures`, `Solver.conflicts_grants`
-/

namespace Stimulus

namespace Solver

/-! ## §1 What a solver poses -/

/-- Each edge of a list captures one constraint. -/
abbrev CapturesEach (s : Encoding) (Γ : Signature) : List Edge → List Expr → Prop :=
  List.Forall₂ fun f e => s.Captures Γ f [e]

theorem CapturesEach.mono {s s' : Encoding} {Γ : Signature} {fs : List Edge} {es : List Expr}
    (h : CapturesEach s Γ fs es) (hext : s.Extends s') : CapturesEach s' Γ fs es :=
  h.imp fun _ _ hf => hf.mono hext

/-- Every constraint has its edge. -/
theorem CapturesEach.exists_of_mem {s : Encoding} {Γ : Signature} {fs : List Edge} {es : List Expr}
    (h : CapturesEach s Γ fs es) {e : Expr} (he : e ∈ es) : ∃ f ∈ fs, s.Captures Γ f [e] := by
  induction h with
  | nil => cases he
  | cons hf _ ih =>
    rcases List.mem_cons.mp he with rfl | he
    · exact ⟨_, List.mem_cons_self, hf⟩
    · obtain ⟨f, hmem, hf'⟩ := ih he
      exact ⟨f, List.mem_cons_of_mem _ hmem, hf'⟩

/-- The edges of a solver capture lists of constraints over declared variables. -/
structure Poses (s : Solver) (Γ : Signature) (hards softs assumed suggested : List Expr) :
    Prop where
  wellFormed : s.encoding.WellFormed
  within : s.encoding.Within Γ
  hard : s.encoding.Captures Γ s.hard hards
  softs : CapturesEach s.encoding Γ s.softs.toList softs
  assumptions : CapturesEach s.encoding Γ s.assumptions.toList assumed
  suggestions : CapturesEach s.encoding Γ s.suggestions.toList suggested

section

variable {s : Solver} {Γ Δ : Signature} {hards softs assumed suggested : List Expr} {safe : Prop}

theorem Poses.sub (h : s.Poses Γ hards softs assumed suggested) (hsub : Γ.Sub Δ) :
    s.Poses Δ hards softs assumed suggested where
  wellFormed := h.wellFormed
  within := h.within.mono hsub
  hard := h.hard.sub hsub
  softs := h.softs.imp fun _ _ hf => hf.sub hsub
  assumptions := h.assumptions.imp fun _ _ hf => hf.sub hsub
  suggestions := h.suggestions.imp fun _ _ hf => hf.sub hsub

/-- What is posed survives in an encoding that keeps what there was. -/
theorem Poses.withEncoding (h : s.Poses Γ hards softs assumed suggested) {encoding : Encoding}
    (hext : s.encoding.Extends encoding) (hwf : encoding.WellFormed) (hw : encoding.Within Γ) :
    Poses { s with encoding := encoding } Γ hards softs assumed suggested where
  wellFormed := hwf
  within := hw
  hard := h.hard.mono hext
  softs := h.softs.mono hext
  assumptions := h.assumptions.mono hext
  suggestions := h.suggestions.mono hext

/-- The solver with another encoding, which keeps what the old one captured. -/
structure Later (s : Solver) (Γ : Signature) (s' : Solver) : Prop where
  same : ∃ encoding, s' = { s with encoding := encoding }
  extends_ : s.encoding.Extends s'.encoding
  wellFormed : s'.encoding.WellFormed
  within : s'.encoding.Within Γ

theorem Later.refl (hwf : s.encoding.WellFormed) (hw : s.encoding.Within Γ) : s.Later Γ s :=
  ⟨⟨s.encoding, rfl⟩, .refl _, hwf, hw⟩

theorem Later.trans {s' s'' : Solver} (h : s.Later Γ s') (h' : s'.Later Γ s'') :
    s.Later Γ s'' := by
  obtain ⟨⟨encoding, rfl⟩, hext, -, -⟩ := h
  obtain ⟨⟨encoding', rfl⟩, hext', hwf, hw⟩ := h'
  exact ⟨⟨encoding', rfl⟩, hext.trans hext', hwf, hw⟩

theorem Later.withManager (hwf : s.encoding.WellFormed) (hw : s.encoding.Within Γ) {d : Manager}
    (hext : s.encoding.manager.Extends d) (hd : d.WellFormed) :
    s.Later Γ { s with encoding := s.encoding.withManager d } :=
  ⟨⟨_, rfl⟩, Encoding.extends_withManager hext, hwf.withManager hd, hw⟩

theorem Poses.later {s' : Solver} (h : s.Poses Γ hards softs assumed suggested)
    (hl : s.Later Γ s') : s'.Poses Γ hards softs assumed suggested := by
  obtain ⟨⟨encoding, rfl⟩, hext, hwf, hw⟩ := hl
  exact h.withEncoding hext hwf hw

/-- A solver without constraints poses none. -/
theorem empty_ends {bits seed : Nat} (hbits : safe → bits ≤ 31) :
    Ends (empty bits seed) (Stuck safe) fun s => s.Poses Γ [] [] [] [] := by
  unfold empty Encoding.empty
  cases hm : Manager.empty bits with
  | error fault =>
    -- The tables are too large.
    refine stuck_of_not fun hsafe => ?_
    have hle := hbits hsafe
    unfold Manager.empty UniqueTable.empty ComputedTable.empty at hm
    rw [if_pos hle, if_pos hle, if_pos (by omega)] at hm
    cases hm
  | ok d =>
    have hwf : Encoding.WellFormed ⟨d, ∅, ∅⟩ := ⟨Manager.wellFormed_empty hm, allocated_empty⟩
    refine ⟨hwf, fun id slot hid => ?_, Encoding.captures_one hwf, .nil, .nil, .nil⟩
    simp at hid

/-! ## §2 Parts of a solver -/

theorem encode_grants {α : Type} {act : Encode α} {E : Fault → Prop} {Q : α → Encoding → Prop}
    (h : Grants act s.encoding E (fun _ _ => False) Q) :
    Grants (encode act) s E (fun _ _ => False) fun a s' =>
      ∃ encoding, s' = { s with encoding := encoding } ∧ Q a encoding := by
  obtain ⟨encoding, hard, softs, assumptions, suggestions, model, rng⟩ := s
  unfold Grants encode at *
  dsimp only at *
  cases hact : act encoding with
  | error fault =>
    rw [hact] at h
    exact h
  | ok r =>
    rw [hact] at h
    obtain ⟨refusal | a, encoding'⟩ := r
    · exact h.elim
    · exact ⟨encoding', rfl, h⟩

theorem build_ensures {α : Type} {act : Build α} {Q : α → Manager → Prop}
    (h : act s.encoding.manager = .error .tooManyNodes ∨ ∃ a d,
      act s.encoding.manager = .ok (a, d) ∧ s.encoding.manager.Extends d ∧ d.WellFormed ∧ Q a d) :
    Ensures (build act) s (Stuck safe) fun a s' =>
      ∃ d, s' = { s with encoding := s.encoding.withManager d } ∧ s.encoding.manager.Extends d ∧
        d.WellFormed ∧ Q a d := by
  obtain ⟨⟨manager, slots, domain⟩, hard, softs, assumptions, suggestions, model, rng⟩ := s
  unfold Ensures build
  dsimp only
  rcases h with herr | ⟨a, d, hok, hext, hwf, hq⟩
  · dsimp only at herr
    rw [herr]
    exact stuck_tooManyNodes
  · dsimp only at hok
    rw [hok]
    exact ⟨d, rfl, hext, hwf, hq⟩

/-- Nodes that are stored by a computation of which only runs that end are known. -/
theorem build_of_run {α : Type} {act : Build α} (hsafe : ¬ safe)
    (h : ∀ a d, act s.encoding.manager = .ok (a, d) →
      s.encoding.manager.Extends d ∧ d.WellFormed) :
    Ensures (build act) s (Stuck safe) fun _ s' =>
      ∃ d, s' = { s with encoding := s.encoding.withManager d } ∧ s.encoding.manager.Extends d ∧
        d.WellFormed := by
  obtain ⟨⟨manager, slots, domain⟩, hard, softs, assumptions, suggestions, model, rng⟩ := s
  unfold Ensures build
  dsimp only at h ⊢
  cases hact : act manager with
  | error fault => exact stuck_of_not hsafe
  | ok r =>
    obtain ⟨a, d⟩ := r
    obtain ⟨hext, hwf⟩ := h a d hact
    exact ⟨d, rfl, hext, hwf⟩

theorem draw_ensures {α : Type} {act : Draw α} {P : α → Prop} (h : Draws act P) :
    Ensures (draw act) s (Stuck safe) fun a s' => P a ∧ ∃ rng, s' = { s with rng := rng } := by
  have hdraw := h s.rng
  unfold Ensures draw at *
  cases hact : act s.rng with
  | error fault =>
    rw [hact] at hdraw
    cases hdraw
    exact stuck_drawNeverEnds
  | ok r =>
    rw [hact] at hdraw
    exact ⟨hdraw, r.2, rfl⟩

/-! ## §3 Constraints -/

theorem encodeTruth_grants {e : Expr} (hwf : s.encoding.WellFormed) (hw : s.encoding.Within Γ)
    (he : Γ.Admits e) (hfew : safe → Γ.Few) :
    Grants (encode e.encodeTruth) s (Stuck safe) (fun _ _ => False) fun f s' =>
      s.Later Γ s' ∧ s'.encoding.Captures Γ f [e] := by
  refine (encode_grants (e.encodeTruth_grants hwf hw he hfew)).mono ?_
  rintro f _ ⟨encoding, rfl, hext, hwf, hwithin, hf⟩
  exact ⟨⟨⟨encoding, rfl⟩, hext, hwf, hwithin⟩, hf⟩

/-- An asserted constraint is hard. -/
theorem assert_grants {e : Expr} (h : s.Poses Γ hards softs assumed suggested)
    (he : Γ.Admits e) (hfew : safe → Γ.Few) :
    Grants (assert e) s (Stuck safe) (fun _ _ => False) fun _ s' =>
      s'.Poses Γ (hards ++ [e]) softs assumed suggested := by
  refine (encodeTruth_grants h.wellFormed h.within he hfew).bind ?_
  rintro f s₁ ⟨hl, hf⟩
  have h₁ := h.later hl
  refine .get_bind
    ((build_ensures (Encoding.conj_captures h₁.wellFormed h₁.hard hf).run).step.bind ?_)
  rintro g _ ⟨d, rfl, hext, hwf, hg⟩
  have h₂ := h₁.withEncoding (Encoding.extends_withManager hext) (h₁.wellFormed.withManager hwf)
    h₁.within
  exact .modify ⟨h₂.wellFormed, h₂.within, hg, h₂.softs, h₂.assumptions, h₂.suggestions⟩

theorem assertSoft_grants {e : Expr} (h : s.Poses Γ hards softs assumed suggested)
    (he : Γ.Admits e) (hfew : safe → Γ.Few) :
    Grants (assertSoft e) s (Stuck safe) (fun _ _ => False) fun _ s' =>
      s'.Poses Γ hards (softs ++ [e]) assumed suggested := by
  refine (encodeTruth_grants h.wellFormed h.within he hfew).bind ?_
  rintro f s₁ ⟨hl, hf⟩
  have h₁ := h.later hl
  refine .modify ⟨h₁.wellFormed, h₁.within, h₁.hard, ?_, h₁.assumptions, h₁.suggestions⟩
  rw [Array.toList_push]
  exact List.rel_append h₁.softs (.cons hf .nil)

theorem suggest_grants {e : Expr} (h : s.Poses Γ hards softs assumed suggested)
    (he : Γ.Admits e) (hfew : safe → Γ.Few) :
    Grants (suggest e) s (Stuck safe) (fun _ _ => False) fun _ s' =>
      s'.Poses Γ hards softs assumed (suggested ++ [e]) := by
  refine (encodeTruth_grants h.wellFormed h.within he hfew).bind ?_
  rintro f s₁ ⟨hl, hf⟩
  have h₁ := h.later hl
  refine .modify ⟨h₁.wellFormed, h₁.within, h₁.hard, h₁.softs, h₁.assumptions, ?_⟩
  rw [Array.toList_push]
  exact List.rel_append h₁.suggestions (.cons hf .nil)

theorem assume_grants {e : Expr} (h : s.Poses Γ hards softs assumed suggested)
    (he : Γ.Admits e) (hfew : safe → Γ.Few) :
    Grants (assume e) s (Stuck safe) (fun _ _ => False) fun _ s' =>
      s'.Poses Γ hards softs (assumed ++ [e]) suggested := by
  refine (encodeTruth_grants h.wellFormed h.within he hfew).bind ?_
  rintro f s₁ ⟨hl, hf⟩
  have h₁ := h.later hl
  refine .modify ⟨h₁.wellFormed, h₁.within, h₁.hard, h₁.softs, ?_, h₁.suggestions⟩
  rw [Array.toList_push]
  exact List.rel_append h₁.assumptions (.cons hf .nil)

/-! ## §4 Models -/

/-- The last model gives every variable that has a slot the low bits of its number. -/
def Shows (s : Solver) (Γ : Signature) (env : Nat → Nat) : Prop :=
  ∀ (id : Nat) (sort : BitSort) (slot : Nat), Γ.sort? id = some sort →
    s.encoding.slots[id]? = some slot → s.read (.var id sort) = .ok (some (env id % 2 ^ sort.width))

/-- A variable without a slot has no value. -/
theorem read_of_unplaced {id : Nat} {sort : BitSort} (h : s.encoding.slots[id]? = none) :
    s.read (.var id sort) = .ok none := by
  simp only [read, Encoding.variableBits, h]
  rfl

theorem numberOfBits_eq (bs : List Bool) : numberOfBits bs = number bs := by
  induction bs with
  | nil => rfl
  | cons b bs ih => rw [numberOfBits, ih, number_cons]

theorem mapM_eq_some {α β : Type} {f : α → Option β} {g : α → β} {as : List α}
    (h : ∀ a ∈ as, f a = some (g a)) : as.mapM f = some (as.map g) := by
  induction as with
  | nil => rfl
  | cons a as ih =>
    rw [List.mapM_cons, h a List.mem_cons_self, ih fun b hb => h b (List.mem_cons_of_mem a hb)]
    rfl

theorem forall₂_of_mapM_eq_some {α β : Type} {f : α → Option β} {as : List α} {bs : List β}
    (h : as.mapM f = some bs) : List.Forall₂ (fun a b => f a = some b) as bs := by
  induction as generalizing bs with
  | nil =>
    cases h
    exact .nil
  | cons a as ih =>
    rw [List.mapM_cons] at h
    obtain ⟨b, hb, h⟩ := Option.bind_eq_some_iff.mp h
    obtain ⟨cs, hcs, h⟩ := Option.bind_eq_some_iff.mp h
    cases h
    exact .cons hb (ih hcs)

/-- The model that a table of values stands for. -/
theorem shows_spelled (hwf : s.encoding.WellFormed) (hw : s.encoding.Within Γ) {asg : Nat → Bool}
    (h : ∀ v ∈ s.encoding.domain, s.model[v]? = some (asg v)) :
    s.Shows Γ (s.encoding.spelled asg) := by
  intro id sort slot hsort hslot
  obtain ⟨sort', hsort', hbits⟩ := hw id slot hslot
  cases hsort.symm.trans hsort'
  have hwidth := Γ.width_le id sort hsort
  have hvalues : ((List.range sort.width).map (bitIndex slot)).mapM (s.model[·]?) =
      some (((List.range sort.width).map (bitIndex slot)).map asg) := by
    refine mapM_eq_some fun v hv => h v ?_
    obtain ⟨bit, hbit, rfl⟩ := List.mem_map.mp hv
    exact hbits bit (List.mem_range.mp hbit)
  simp only [read, Encoding.variableBits, hslot, bitVariables_eq (hwf.slots.slot_lt hslot),
    if_pos hwidth]
  show Except.ok (numberOfBits <$> ((List.range sort.width).map (bitIndex slot)).mapM _) = _
  rw [hvalues, Encoding.spelled_mod hslot hwidth, Option.map_eq_map, Option.map_some,
    numberOfBits_eq, List.map_map]
  rfl

/-! ## §5 Solving -/

/-- The answer of a search for a model of a goal and, if they fit, of suggestions. -/
structure Solved (s : Solver) (Γ : Signature) (found : Bool) (goal suggested : List Expr) :
    Prop where
  placed : ∀ e ∈ suggested ++ goal, s.encoding.Placed e
  model : found = true → ∃ env, Expr.AllHold env goal ∧
    (Satisfiable (suggested ++ goal) → Expr.AllHold env suggested) ∧ s.Shows Γ env
  noModel : found = false → ¬ Satisfiable goal
  cleared : found = false → s.model = ∅

/-- Drawing a model of a function that captures the goal settles whether the goal is satisfiable. -/
theorem drawModel_ensures {f : Edge} {goal : List Expr} (hwf : s.encoding.WellFormed)
    (hw : s.encoding.Within Γ) (hf : s.encoding.Captures Γ f goal) :
    Ensures (drawModel f) s (Stuck safe) fun found s' =>
      (∃ model rng, s' = { s with model := model, rng := rng }) ∧
        (found = true → ∃ env, Expr.AllHold env goal ∧ s'.Shows Γ env) ∧
        (found = false → s'.model = ∅ ∧ ¬ Satisfiable goal) := by
  obtain ⟨c, hc, hlawful⟩ := Counter.ofDomain_ok s.encoding.domainList_ascends s.encoding.manager
  unfold drawModel
  refine .get_bind (.ofExcept_bind (R := (· = c)) (by rw [hc]; rfl) ?_)
  rintro _ rfl
  refine .get_bind ((draw_ensures (sample_draws hwf.manager s.encoding.domainList_ascends hf.valid
    (hf.supportedBy hwf hw) hlawful)).bind ?_)
  -- Nothing is drawn of the constant zero alone, which means that the goal has no solution.
  rintro ⟨_, c'⟩ _ ⟨⟨⟨rfl, hzero⟩ | ⟨values, rfl, hmodel⟩, -⟩, rng, rfl⟩
  · refine .modify_bind (.pure ⟨⟨_, _, rfl⟩, fun hfound => (nomatch hfound), fun _ => ?_⟩)
    exact ⟨rfl, (hf.eq_zero_iff hwf).mp hzero⟩
  · refine .modify_bind (.pure ⟨⟨_, _, rfl⟩, fun _ => ?_, fun hfound => (nomatch hfound)⟩)
    -- The values are those of an assignment, which spells an environment.
    let table := Std.TreeMap.ofList (s.encoding.domainList.zip values)
    let asg (v : Nat) : Bool := table[v]?.getD false
    have htable := getElem?_ofList_zip s.encoding.domainList_ascends hmodel.length_eq
    have hasg : List.Forall₂ (fun v b => asg v = b) s.encoding.domainList values :=
      htable.imp fun v b hv => by simp [asg, table, hv]
    have hread : ∀ v ∈ s.encoding.domain, table[v]? = some (asg v) := by
      intro v hv
      obtain ⟨i, hi, rfl⟩ := List.mem_iff_getElem.mp (Encoding.mem_domainList.mpr hv)
      have hi' := htable.get hi (hmodel.length_eq ▸ hi)
      simp only [List.get_eq_getElem] at hi'
      simp only [asg, table, hi', Option.getD_some]
    have hshows : Shows { s with model := table, rng := rng } Γ (s.encoding.spelled asg) :=
      @shows_spelled { s with model := table, rng := rng } Γ hwf hw asg hread
    exact ⟨s.encoding.spelled asg,
      (hf.value_iff _ asg (hwf.assigns_spelled asg)).mp (hmodel.holds asg hasg), hshows⟩

/-- The constraints that are left when suggestions are dropped while they conflict. -/
structure Kept (base suggested kept : List Expr) : Prop where
  subset : kept ⊆ suggested
  satisfiable : Satisfiable base → Satisfiable (kept ++ base)
  all : Satisfiable (suggested ++ base) → suggested ⊆ kept

theorem relax_delivers {e : Encoding} {base : Edge} {bases : List Expr} {fs : List Edge}
    {suggested : List Expr} (hwf : e.WellFormed) (hbase : e.Captures Γ base bases)
    (hfs : CapturesEach e Γ fs suggested) :
    Delivers (relax base fs) e.manager fun f d => ∃ kept, Kept bases suggested kept ∧
      (e.withManager d).Captures Γ f (kept ++ bases) := by
  -- The last suggestion is the first to go, so the induction follows the list.
  induction fs generalizing e suggested with
  | nil =>
    cases hfs
    refine (Encoding.conjAll_captures hwf (.cons hbase .nil)).imp fun f d _ _ hf => ?_
    exact ⟨[], ⟨List.Subset.refl _, id, fun _ => List.Subset.refl _⟩, by simpa using hf⟩
  | cons f fs ih =>
    obtain ⟨g, suggested, hf, hrest, rfl⟩ := List.forall₂_cons_left_iff.mp hfs
    -- All suggestions that are left are joined with the base, in the order of the solver.
    have hall : List.Forall₂ (e.Captures Γ) ((f :: fs).reverse ++ [base])
        (((g :: suggested).map ([·])).reverse ++ [bases]) := by
      refine List.rel_append (List.rel_reverse ?_) (.cons hbase .nil)
      exact List.forall₂_map_right_iff.mpr (.cons hf hrest)
    refine (Encoding.conjAll_captures hwf hall).bind fun h d hext hd hh => ?_
    have hh : (e.withManager d).Captures Γ h ((g :: suggested) ++ bases) := hh.congr fun x => by
      simp [or_comm, or_assoc]
    have hwf' := hwf.withManager hd
    by_cases hzero : h = .zero
    · -- The suggestions conflict, and the last of them is dropped.
      rw [if_neg (by simpa using hzero)]
      have hunsat := (hh.eq_zero_iff hwf').mp hzero
      have hextends := Encoding.extends_withManager hext
      refine (ih hwf' (hbase.mono hextends) (CapturesEach.mono hrest hextends)).imp
        fun r d' _ _ => ?_
      rintro ⟨kept, hkept, hr⟩
      exact ⟨kept, ⟨fun x hx => List.mem_cons_of_mem g (hkept.subset hx), hkept.satisfiable,
        fun hsat => absurd hsat hunsat⟩, hr⟩
    · rw [if_pos hzero]
      have hsat := (not_congr (hh.eq_zero_iff hwf')).mp hzero
      exact .pure hd ⟨_, ⟨List.Subset.refl _, fun _ => not_not.mp hsat,
        fun _ => List.Subset.refl _⟩, hh⟩

/-- Conjoining functions that capture constraints. -/
theorem conjAll_ensures {fs : List Edge} {ess : List (List Expr)} (hwf : s.encoding.WellFormed)
    (hw : s.encoding.Within Γ) (hfs : List.Forall₂ (s.encoding.Captures Γ) fs ess) :
    Ensures (build (conjAll fs)) s (Stuck safe) fun f s' =>
      s.Later Γ s' ∧ s'.encoding.Captures Γ f ess.flatten := by
  refine (build_ensures (Encoding.conjAll_captures hwf hfs).run).mono ?_
  rintro f _ ⟨d, rfl, hext, hd, hf⟩
  exact ⟨.withManager hwf hw hext hd, hf⟩

theorem relax_ensures {base : Edge} {bases : List Expr} {fs : List Edge} {suggested : List Expr}
    (hwf : s.encoding.WellFormed) (hw : s.encoding.Within Γ)
    (hbase : s.encoding.Captures Γ base bases) (hfs : CapturesEach s.encoding Γ fs suggested) :
    Ensures (build (relax base fs)) s (Stuck safe) fun f s' => s.Later Γ s' ∧
      ∃ kept, Kept bases suggested kept ∧ s'.encoding.Captures Γ f (kept ++ bases) := by
  refine (build_ensures (relax_delivers hwf hbase hfs).run).mono ?_
  rintro f _ ⟨d, rfl, hext, hd, hf⟩
  exact ⟨.withManager hwf hw hext hd, hf⟩

/-- A search for a model of a goal, with suggestions that are dropped in random order while they
    conflict with it. -/
theorem search_ensures {base : Edge} {goal : List Expr} {suggestions : Array Edge}
    (h : s.Poses Γ hards softs [] []) (hbase : s.encoding.Captures Γ base goal)
    (hsuggestions : CapturesEach s.encoding Γ suggestions.toList suggested) :
    Ensures (do
      let shuffled ← draw (Stream.shuffle suggestions)
      let f ← build (relax base shuffled.toList.reverse)
      drawModel f) s (Stuck safe) fun found s' =>
        s'.Poses Γ hards softs [] [] ∧ s'.Solved Γ found goal suggested := by
  refine (draw_ensures (Stream.shuffle_draws suggestions)).bind ?_
  rintro shuffled _ ⟨hperm, rng, rfl⟩
  -- In whatever order they come, the shuffled edges capture the suggestions.
  obtain ⟨suggested', hsuggested, hperm'⟩ : ∃ suggested', CapturesEach s.encoding Γ
      shuffled.toList.reverse suggested' ∧ suggested'.Perm suggested := by
    obtain ⟨es, hes, hback⟩ := List.perm_comp_forall₂ hperm hsuggestions
    exact ⟨es.reverse, List.forall₂_reverse_iff.mpr hes, (List.reverse_perm es).trans hback⟩
  have hrng : Poses { s with rng := rng } Γ hards softs [] [] :=
    ⟨h.wellFormed, h.within, h.hard, h.softs, h.assumptions, h.suggestions⟩
  refine (relax_ensures hrng.wellFormed hrng.within hbase hsuggested).bind ?_
  rintro g s' ⟨hl, kept, hkept, hg⟩
  have h' := hrng.later hl
  refine (drawModel_ensures hl.wellFormed hl.within hg).mono ?_
  rintro found _ ⟨⟨model, rng', rfl⟩, hmodel, hno⟩
  -- Suggestions and goal were encoded before, so all their variables have slots.
  have hplaced : ∀ e ∈ suggested ++ goal, s'.encoding.Placed e := by
    intro e he
    rcases List.mem_append.mp he with he | he
    · obtain ⟨f, -, hf⟩ := CapturesEach.exists_of_mem hsuggestions he
      exact (hf.mono hl.extends_).placed e (List.mem_singleton.mpr rfl)
    · exact (hbase.mono hl.extends_).placed e he
  refine ⟨⟨h'.wellFormed, h'.within, h'.hard, h'.softs, h'.assumptions, h'.suggestions⟩,
    hplaced, ?_, ?_, fun hfound => (hno hfound).1⟩
  · intro hfound
    obtain ⟨env, henv, hshows⟩ := hmodel hfound
    rw [Expr.allHold_append] at henv
    refine ⟨env, henv.2, fun hsat e he => ?_, hshows⟩
    have hsat' : Satisfiable (suggested' ++ goal) := hsat.mono (List.append_subset.mpr
      ⟨fun x hx => List.mem_append_left _ (hperm'.subset hx), List.subset_append_right _ _⟩)
    exact henv.1 e (hkept.all hsat' (hperm'.symm.subset he))
  · exact fun hfound hsat => (hno hfound).2 (hkept.satisfiable hsat)

/-- A solve searches for a model of the hard constraints, the assumptions and, unless they are to be
    ignored, the soft constraints.  Assumptions and suggestions are used up. -/
theorem solve_ensures (safe : Prop) (h : s.Poses Γ hards softs assumed suggested)
    (ignoreSofts : Bool) :
    Ensures (solve ignoreSofts) s (Stuck safe) fun found s' =>
      s'.Poses Γ hards softs [] [] ∧
        s'.Solved Γ found ((if ignoreSofts then [] else softs) ++ (assumed ++ hards))
          suggested := by
  unfold solve
  refine .get_bind (.modify_bind ?_)
  dsimp only
  -- Assumptions and suggestions are for this solve only, and are taken out of the solver first.
  have h₀ : Poses { s with assumptions := #[], suggestions := #[] } Γ hards softs [] [] :=
    ⟨h.wellFormed, h.within, h.hard, h.softs, .nil, .nil⟩
  have hassumed : List.Forall₂ (s.encoding.Captures Γ) (s.assumptions.toList ++ [s.hard])
      (assumed.map ([·]) ++ [hards]) :=
    List.rel_append (List.forall₂_map_right_iff.mpr h.assumptions) (.cons h.hard .nil)
  refine Ensures.bind (conjAll_ensures (s := { s with assumptions := #[], suggestions := #[] })
    h.wellFormed h.within hassumed) fun base s₁ hs₁ => ?_
  obtain ⟨hl₁, hbase⟩ := hs₁
  have h₁ := h₀.later hl₁
  have hsuggested := CapturesEach.mono h.suggestions hl₁.extends_
  have hbase : s₁.encoding.Captures Γ base (assumed ++ hards) := by
    simpa [← List.flatMap_def] using hbase
  -- The soft constraints join unless they are to be ignored.
  cases ignoreSofts with
  | true => exact search_ensures h₁ hbase hsuggested
  | false =>
    have hsofts : List.Forall₂ (s₁.encoding.Captures Γ) (s.softs.toList ++ [base])
        (softs.map ([·]) ++ [assumed ++ hards]) :=
      List.rel_append (List.forall₂_map_right_iff.mpr (CapturesEach.mono h.softs hl₁.extends_))
        (.cons hbase .nil)
    refine (conjAll_ensures hl₁.wellFormed hl₁.within hsofts).bind fun f s₂ hs₂ => ?_
    obtain ⟨hl₂, hf⟩ := hs₂
    exact search_ensures (h₁.later hl₂) (by simpa [← List.flatMap_def] using hf)
      (CapturesEach.mono hsuggested hl₂.extends_)

/-! ## §6 Analysis -/

/-- The constraints of a list that are left without those at some positions, which are counted from
    a first one. -/
def without (dropped : List Nat) (es : List Expr) (position : Nat := 0) : List Expr :=
  ((es.zipIdx position).filter fun p => !dropped.contains p.2).map Prod.fst

theorem without_subset (dropped : List Nat) (es : List Expr) (position : Nat) :
    without dropped es position ⊆ es := by
  intro e he
  obtain ⟨p, hp, rfl⟩ := List.mem_map.mp he
  exact List.fst_mem_of_mem_zipIdx (List.mem_filter.mp hp).1

theorem without_cons_of_mem {dropped : List Nat} {e : Expr} {es : List Expr} {position : Nat}
    (h : position ∈ dropped) :
    without dropped (e :: es) position = without dropped es (position + 1) := by
  simp [without, List.zipIdx_cons, h]

theorem without_cons_of_not_mem {dropped : List Nat} {e : Expr} {es : List Expr} {position : Nat}
    (h : position ∉ dropped) :
    without dropped (e :: es) position = e :: without dropped es (position + 1) := by
  simp [without, List.zipIdx_cons, h]

/-- Positions before the first one do not matter. -/
theorem without_cons_position {dropped : List Nat} {es : List Expr} {i position : Nat}
    (h : i < position) : without (i :: dropped) es position = without dropped es position := by
  unfold without
  congr 1
  apply List.filter_congr
  intro p hp
  have hle := List.le_snd_of_mem_zipIdx hp
  have hne : p.2 ≠ i := by omega
  simp [hne]

theorem without_sublist_take (dropped : List Nat) (es : List Expr) (position i : Nat) :
    (without dropped (es.take i) position).Sublist (without dropped es position) := by
  have hsplit : es.zipIdx position =
      (es.take i).zipIdx position ++ (es.drop i).zipIdx (position + (es.take i).length) := by
    rw [← List.zipIdx_append, List.take_append_drop]
  unfold without
  rw [hsplit]
  exact ((List.sublist_append_left _ _).filter _).map _

/-- Constraints are tried one after the other, counted from a position.  One is kept as long as it
    fits with `hards` and with those that were kept before it, and else it is dropped. -/
inductive Sifts : List Expr → Nat → List Expr → List Nat → Prop where
  | nil (hards : List Expr) (position : Nat) : Sifts hards position [] []
  | keep {hards es : List Expr} {e : Expr} {position : Nat} {dropped : List Nat}
      (hfits : Satisfiable (hards ++ [e]))
      (hrest : Sifts (hards ++ [e]) (position + 1) es dropped) :
      Sifts hards position (e :: es) dropped
  | drop {hards es : List Expr} {e : Expr} {position : Nat} {dropped : List Nat}
      (hconflict : ¬ Satisfiable (hards ++ [e])) (hrest : Sifts hards (position + 1) es dropped) :
      Sifts hards position (e :: es) (position :: dropped)

namespace Sifts

variable {es : List Expr} {dropped : List Nat} {position : Nat}

theorem le (h : Sifts hards position es dropped) : ∀ i ∈ dropped, position ≤ i := by
  induction h with
  | nil => simp
  | keep _ _ ih => exact fun i hi => Nat.le_of_succ_le (ih i hi)
  | drop _ _ ih =>
    exact List.forall_mem_cons.mpr ⟨Nat.le_refl _, fun i hi => Nat.le_of_succ_le (ih i hi)⟩

theorem lt (h : Sifts hards position es dropped) : ∀ i ∈ dropped, i < position + es.length := by
  induction h with
  | nil => simp
  | keep _ _ ih => exact fun i hi => (ih i hi).trans_eq (Nat.succ_add_eq_add_succ _ _)
  | drop _ _ ih =>
    refine List.forall_mem_cons.mpr ⟨Nat.lt_add_of_pos_right (Nat.succ_pos _), fun i hi => ?_⟩
    exact (ih i hi).trans_eq (Nat.succ_add_eq_add_succ _ _)

/-- The positions that are dropped ascend. -/
theorem ascending (h : Sifts hards position es dropped) : dropped.Pairwise (· < ·) := by
  induction h with
  | nil => exact .nil
  | keep _ _ ih => exact ih
  | drop _ hrest ih => exact .cons hrest.le ih

/-- What a first constraint that is kept leaves to the others. -/
theorem without_keep {e : Expr} (h : Sifts (hards ++ [e]) (position + 1) es dropped)
    (fs : List Expr) :
    without dropped (e :: fs) position = e :: without dropped fs (position + 1) :=
  without_cons_of_not_mem fun hmem => Nat.not_succ_le_self position (h.le position hmem)

/-- What a first constraint that is dropped leaves to the others. -/
theorem without_drop (e : Expr) (fs : List Expr) :
    without (position :: dropped) (e :: fs) position = without dropped fs (position + 1) := by
  rw [without_cons_of_mem List.mem_cons_self, without_cons_position (Nat.lt_succ_self position)]

/-- Everything that is kept fits together. -/
theorem satisfiable (h : Sifts hards position es dropped) (hsat : Satisfiable hards) :
    Satisfiable (hards ++ without dropped es position) := by
  induction h with
  | nil => simpa [without] using hsat
  | keep hfits hrest ih =>
    rw [hrest.without_keep]
    simpa using ih hfits
  | drop _ _ ih =>
    rw [without_drop]
    exact ih hsat

/-- A constraint is dropped exactly if it contradicts `hards` with what is kept before it. -/
theorem mem_iff (h : Sifts hards position es dropped) {i : Nat} (hi : i < es.length) :
    position + i ∈ dropped ↔
      ¬ Satisfiable (hards ++ without dropped (es.take i) position ++ [es[i]]) := by
  induction h generalizing i with
  | nil => simp at hi
  | @keep hards es e position dropped hfits hrest ih =>
    cases i with
    | zero =>
      have hnot : position ∉ dropped := fun hmem =>
        Nat.not_succ_le_self position (hrest.le position hmem)
      simp [without, hnot, hfits]
    | succ i =>
      have hrest' := ih (Nat.lt_of_succ_lt_succ hi)
      rw [List.take_succ_cons, hrest.without_keep]
      simpa [Nat.add_right_comm, Nat.add_assoc] using hrest'
  | @drop hards es e position dropped hconflict hrest ih =>
    cases i with
    | zero => simp [without, hconflict]
    | succ i =>
      have hrest' := ih (Nat.lt_of_succ_lt_succ hi)
      have hne : position + (i + 1) ≠ position := by omega
      rw [List.take_succ_cons, without_drop, List.mem_cons, or_iff_right hne]
      simpa [Nat.add_right_comm, Nat.add_assoc] using hrest'

/-- With everything that is kept, what was dropped does not fit. -/
theorem conflicts (h : Sifts hards position es dropped) {i : Nat} (hi : i < es.length)
    (hdropped : position + i ∈ dropped) :
    ¬ Satisfiable (hards ++ without dropped es position ++ [es[i]]) := by
  refine fun hsat => (h.mem_iff hi).mp hdropped (hsat.mono ?_)
  have hkept := (without_sublist_take dropped es position i).subset
  exact List.append_subset.mpr ⟨List.append_subset.mpr ⟨by simp,
    fun e he => by simp [hkept he]⟩, by simp⟩

end Sifts

/-- Soft constraints become hard as far as they fit, and the answer tells which of them did not. -/
theorem keepSofts_ensures {fs : List Edge} {others : List Expr}
    (h : s.Poses Γ hards others assumed suggested) (hfs : CapturesEach s.encoding Γ fs softs)
    (position : Nat) :
    Ensures (keepSofts position fs) s (Stuck safe) fun dropped s' =>
      Sifts hards position softs dropped ∧
      s'.Poses Γ (hards ++ without dropped softs position) others assumed suggested := by
  -- What is kept becomes hard, so the hard constraints grow along the list.
  induction fs generalizing s position hards softs with
  | nil =>
    cases hfs
    exact .pure ⟨.nil hards position, by simpa [without]⟩
  | cons f fs ih =>
    obtain ⟨e, softs, hf, hrest, rfl⟩ := List.forall₂_cons_left_iff.mp hfs
    unfold keepSofts
    refine .get_bind ((build_ensures (Encoding.conj_captures h.wellFormed h.hard hf).run).bind ?_)
    rintro g _ ⟨d, rfl, hext, hd, hg⟩
    have hl : s.Later Γ _ := .withManager h.wellFormed h.within hext hd
    have h' := h.later hl
    have hrest' := CapturesEach.mono hrest hl.extends_
    split
    · rename_i hzero
      -- Joining gave zero, so the soft constraint contradicts what is kept so far.
      have hconflict := (hg.eq_zero_iff h'.wellFormed).mp hzero
      refine (ih h' hrest' (position + 1)).bind ?_
      rintro dropped s' ⟨hsifts, hs'⟩
      refine .pure ⟨.drop hconflict hsifts, ?_⟩
      rwa [Sifts.without_drop]
    · rename_i hne
      have hfits := not_not.mp ((not_congr (hg.eq_zero_iff h'.wellFormed)).mp hne)
      have h'' : Poses { s with encoding := s.encoding.withManager d, hard := g } Γ (hards ++ [e])
          others assumed suggested :=
        ⟨h'.wellFormed, h'.within, hg, h'.softs, h'.assumptions, h'.suggestions⟩
      refine .modify_bind ((ih h'' hrest' (position + 1)).mono ?_)
      rintro dropped s' ⟨hsifts, hs'⟩
      refine ⟨.keep hfits hsifts, ?_⟩
      rwa [hsifts.without_keep, ← List.singleton_append, ← List.append_assoc]

theorem dropSofts_ensures (h : s.Poses Γ hards softs assumed suggested) :
    Ensures dropSofts s (Stuck safe) fun dropped s' =>
      Sifts hards 0 softs dropped ∧
      s'.Poses Γ (hards ++ without dropped softs) [] assumed suggested := by
  have h₀ : Poses { s with softs := #[] } Γ hards [] assumed suggested :=
    ⟨h.wellFormed, h.within, h.hard, .nil, h.assumptions, h.suggestions⟩
  exact .get_bind (.modify_bind (keepSofts_ensures h₀ h.softs 0))

/-- Constraints are encoded one after the other. -/
theorem encodeEach_grants {es : List (Nat × Expr)} (hwf : s.encoding.WellFormed)
    (hw : s.encoding.Within Γ) (hes : ∀ p ∈ es, Γ.Admits p.2) (hfew : safe → Γ.Few) :
    Grants (es.mapM fun p => encode p.2.encodeTruth) s (Stuck safe) (fun _ _ => False) fun fs s' =>
      s.Later Γ s' ∧ CapturesEach s'.encoding Γ fs (es.map Prod.snd) := by
  induction es generalizing s with
  | nil => exact .pure ⟨.refl hwf hw, .nil⟩
  | cons p es ih =>
    rw [List.mapM_cons]
    refine (encodeTruth_grants hwf hw (hes p List.mem_cons_self) hfew).bind fun f s₁ hs₁ => ?_
    obtain ⟨hl₁, hf⟩ := hs₁
    refine (ih hl₁.wellFormed hl₁.within fun q hq => hes q (List.mem_cons_of_mem p hq)).bind ?_
    intro fs s₂ hs₂
    obtain ⟨hl₂, hfs⟩ := hs₂
    exact .pure ⟨hl₁.trans hl₂, .cons (hf.mono hl₂.extends_) hfs⟩

theorem CapturesEach.valid {e : Encoding} {fs : List Edge} {es : List Expr}
    (h : CapturesEach e Γ fs es) : ∀ f ∈ fs, e.manager.Valid f := by
  induction h with
  | nil => simp
  | cons hf _ ih => exact List.forall_mem_cons.mpr ⟨hf.valid, ih⟩

/-- The edges are true together under some assignment exactly if the constraints fit together. -/
theorem CapturesEach.satisfiable_iff {e : Encoding} {fs : List Edge} {es : List Expr}
    (h : CapturesEach e Γ fs es) (hwf : e.WellFormed) :
    (∃ asg, ∀ f ∈ fs, e.manager.value asg f = true) ↔ Satisfiable es := by
  have hiff : ∀ env asg, e.Assigns env asg →
      ((∀ f ∈ fs, e.manager.value asg f = true) ↔ Expr.AllHold env es) := by
    intro env asg hasg
    induction h with
    | nil => simp [Expr.AllHold]
    | cons hf _ ih =>
      rw [List.forall_mem_cons, hf.value_iff env asg hasg, ih]
      simp [Expr.AllHold]
  constructor
  · rintro ⟨asg, hasg⟩
    exact ⟨_, (hiff _ asg (hwf.assigns_spelled asg)).mp hasg⟩
  · rintro ⟨env, henv⟩
    obtain ⟨asg, hasg⟩ := hwf.exists_assigns env
    exact ⟨asg, (hiff env asg hasg).mpr henv⟩

/-- The search for conflicts is never refused, and it leaves what is posed as it is.  It finds none
    exactly if the constraints fit together. -/
theorem conflicts_grants {constraints : Std.TreeMap Nat Expr}
    (h : s.Poses Γ hards softs assumed suggested)
    (hes : ∀ (k : Nat) (e : Expr), constraints[k]? = some e → Γ.Admits e) (hfew : safe → Γ.Few)
    (hsize : safe → constraints.size < 2 ^ 31) :
    Grants (conflicts constraints) s (Stuck safe) (fun _ _ => False) fun groups s' =>
      s'.Poses Γ hards softs assumed suggested ∧
        (constraints.size < 2 ^ 31 → (groups = [] ↔ Satisfiable constraints.values)) := by
  unfold conflicts
  have hadmits : ∀ p ∈ constraints.toList, Γ.Admits p.2 := by
    intro p hp
    exact hes p.1 p.2 (Std.TreeMap.mem_toList_iff_getElem?_eq_some.mp hp)
  refine (encodeEach_grants h.wellFormed h.within hadmits hfew).bind ?_
  intro fs s₁ hs₁
  obtain ⟨hl₁, hfs⟩ := hs₁
  have hlength : fs.length = constraints.size := by
    rw [hfs.length_eq, List.length_map, Std.TreeMap.length_toList]
  by_cases hfits : constraints.size < 2 ^ 31
  · -- Few enough for the selectors, the list is the one of the minimal conflicts.
    have hlisted := minimalConflicts_run hl₁.wellFormed.manager (CapturesEach.valid hfs)
      (hlength ▸ hfits)
    refine (build_ensures hlisted).step.bind ?_
    rintro found _ ⟨d, rfl, hext, hd, hfound⟩
    refine .pure ⟨h.later (hl₁.trans (.withManager hl₁.wellFormed hl₁.within hext hd)),
      fun _ => ?_⟩
    rw [List.map_eq_nil_iff, hfound.eq_nil_iff, CapturesEach.satisfiable_iff hfs hl₁.wellFormed]
    refine exists_congr fun env => forall_congr' fun e => imp_congr_left ?_
    rw [mem_values_treeMap, List.mem_map]
    simp [Std.TreeMap.mem_toList_iff_getElem?_eq_some]
  · -- With more constraints than there are selectors only runs that end are known.
    refine (build_of_run (fun hs => hfits (hsize hs)) fun r d =>
      minimalConflicts_keeps hl₁.wellFormed.manager (CapturesEach.valid hfs)).step.bind ?_
    rintro found _ ⟨d, rfl, hext, hd⟩
    exact .pure ⟨h.later (hl₁.trans (.withManager hl₁.wellFormed hl₁.within hext hd)),
      fun hsmall => absurd hsmall hfits⟩

end

end Solver

/-! ## §7 Where solvers come from -/

namespace SolverSource

/-- The sources make solvers alike, from different seeds. -/
structure Alike (s s' : SolverSource) : Prop where
  settings_eq : s'.settings = s.settings
  storageBits_eq : s'.storageBits = s.storageBits

theorem Alike.refl (s : SolverSource) : s.Alike s := ⟨rfl, rfl⟩

theorem Alike.trans {s s' s'' : SolverSource} (h : s.Alike s') (h' : s'.Alike s'') : s.Alike s'' :=
  ⟨h'.settings_eq.trans h.settings_eq, h'.storageBits_eq.trans h.storageBits_eq⟩

variable {s : SolverSource} {safe : Prop}

theorem nextSeed_ensures : Ensures nextSeed s (· = .drawNeverEnds) fun _ s' => s.Alike s' := by
  have hword := Stream.words_draws 2 s.rng
  unfold Ensures nextSeed Stream.word64 at *
  cases hact : Stream.words 2 s.rng with
  | error fault =>
    rw [hact] at hword
    exact hword
  | ok r => exact ⟨rfl, rfl⟩

theorem fork_ensures : Ensures fork s (· = .drawNeverEnds) fun forked s' =>
    s.Alike forked ∧ s.Alike s' :=
  nextSeed_ensures.bind fun _ _ hs' =>
    .get_bind (.pure ⟨⟨hs'.settings_eq, hs'.storageBits_eq⟩, hs'⟩)

/-- A new solver poses nothing. -/
theorem create_ensures {Γ : Signature} (hbits : safe → s.storageBits ≤ 31) :
    Ensures create s (Stuck safe) fun solver s' => solver.Poses Γ [] [] [] [] ∧ s.Alike s' := by
  unfold create
  refine (nextSeed_ensures.imp (fun _ hf => hf ▸ stuck_drawNeverEnds) fun _ _ h => h).bind ?_
  intro seed s' hs'
  refine .get_bind ?_
  rw [← bind_pure (Fault.ofExcept _)]
  exact .ofExcept_bind (Solver.empty_ends (Γ := Γ) (hs'.storageBits_eq ▸ hbits))
    fun solver hsolver => .pure ⟨hsolver, hs'⟩

end SolverSource

end Stimulus
