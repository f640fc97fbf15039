import Mathlib.Data.Finset.Powerset
import Mathlib.Data.List.Lex
import Mathlib.Data.List.Sort
import Stimulus.Diagram.Core
import Stimulus.Proofs.Diagram.Literal

/-!
# Minimal conflicts

A set of functions conflicts when no assignment makes all of them true, and the conflict is minimal
when every proper subset is compatible.  The enumeration keeps a map of the sets that are still
undecided.  A set leaves the map as part of a compatible set or as a superset of a conflict that was
found, so at the end every minimal conflict has been found, and never twice.

Every round decides the set that it starts from, so the undecided sets get fewer and the rounds
suffice.

Main definitions:
- `Manager.Compatible`, `Manager.MinimalConflict`
- `ConflictMap.admits`: whether a set is undecided
- `Explored`: the invariant of the enumeration

Main statement:
- `minimalConflicts_of_reached`
-/

namespace Stimulus

/-! ## §1 Compatible sets and minimal conflicts -/

namespace Manager

/-- The functions at some positions of a list hold together under some assignment. -/
def Compatible (d : Manager) (fs : List Edge) (S : Finset Nat) : Prop :=
  ∃ env, ∀ i ∈ S, ∀ f ∈ fs[i]?, d.value env f = true

/-- The functions at these positions do not hold together, but without any of them the others do. -/
structure MinimalConflict (d : Manager) (fs : List Edge) (S : Finset Nat) : Prop where
  positions : ∀ i ∈ S, i < fs.length
  conflict : ¬ d.Compatible fs S
  minimal : ∀ T, T ⊂ S → d.Compatible fs T

variable {d : Manager} {fs : List Edge} {S T : Finset Nat}

theorem Compatible.mono (h : d.Compatible fs S) (hTS : T ⊆ S) : d.Compatible fs T := by
  obtain ⟨env, henv⟩ := h
  exact ⟨env, fun i hi => henv i (hTS hi)⟩

/-- A conflict is minimal as soon as each of its members is needed. -/
theorem minimalConflict_of_needed (hpos : ∀ i ∈ S, i < fs.length) (hS : ¬ d.Compatible fs S)
    (hneeded : ∀ i ∈ S, d.Compatible fs (S.erase i)) : d.MinimalConflict fs S where
  positions := hpos
  conflict := hS
  minimal := by
    intro T hT
    obtain ⟨i, hi, hiT⟩ := Finset.exists_of_ssubset hT
    exact (hneeded i hi).mono (Finset.subset_erase.mpr ⟨hT.1, hiT⟩)

/-- Every conflict contains a minimal one. -/
theorem exists_minimalConflict (hpos : ∀ i ∈ S, i < fs.length) (hS : ¬ d.Compatible fs S) :
    ∃ T ⊆ S, d.MinimalConflict fs T := by
  induction S using Finset.strongInduction with
  | H S ih =>
    by_cases hmin : ∀ T, T ⊂ S → d.Compatible fs T
    · exact ⟨S, Finset.Subset.refl S, hpos, hS, hmin⟩
    · push Not at hmin
      obtain ⟨T, hTS, hT⟩ := hmin
      obtain ⟨U, hUT, hU⟩ := ih T hTS (fun i hi => hpos i (hTS.1 hi)) hT
      exact ⟨U, hUT.trans hTS.1, hU⟩

/-- A conflict inside a minimal one is all of it. -/
theorem MinimalConflict.eq_of_subset (h : d.MinimalConflict fs S) (hT : ¬ d.Compatible fs T)
    (hTS : T ⊆ S) : T = S := by
  by_contra hne
  exact hT (h.minimal T (Finset.ssubset_iff_subset_ne.mpr ⟨hTS, hne⟩))

end Manager

/-! ## §2 Growing and shrinking -/

section

variable {d₀ d : Manager} {fs : List Edge}

/-- Compatibility is decided by comparing a conjunction with falsehood. -/
theorem compatible_delivers (hfs : ∀ f ∈ fs, d₀.Valid f) (hext : d₀.Extends d)
    (hd : d.WellFormed) (chosen : List Nat) :
    Delivers (compatible fs.toArray chosen) d fun answer _ =>
      answer = true ↔ d₀.Compatible fs chosen.toFinset := by
  have hget : ∀ i, fs.toArray.getD i .one = fs[i]?.getD .one := fun i => by simp
  have hvalid : ∀ f ∈ chosen.map (fs.toArray.getD · .one), d.Valid f := by
    intro f hf
    obtain ⟨i, -, rfl⟩ := List.mem_map.mp hf
    rw [hget]
    cases hi : fs[i]? with
    | none => exact hd.valid_one
    | some f => exact hext.valid (hfs f (List.mem_of_getElem? hi))
  unfold compatible
  refine (conjAll_delivers hd hvalid).bind fun e d' _ hwf ⟨he, hval⟩ => .pure hwf ?_
  rw [decide_eq_true_iff, ne_eq, hwf.eq_zero_iff he]
  simp only [hval, List.all_map, not_forall, Bool.not_eq_false, List.all_eq_true,
    Function.comp_apply, hget]
  -- Positions outside the list stand for truth, and the old functions kept their meaning.
  refine exists_congr fun env => forall_congr' fun i => ?_
  rw [List.mem_toFinset]
  refine imp_congr_right fun _ => ?_
  cases hi : fs[i]? with
  | none => simp
  | some f => simp [hext.value_eq (hfs f (List.mem_of_getElem? hi))]

/-- A compatible set grows into a compatible set. -/
theorem growSet_delivers (hfs : ∀ f ∈ fs, d₀.Valid f) {chosen candidates : List Nat}
    (hext : d₀.Extends d) (hd : d.WellFormed) (hc : d₀.Compatible fs chosen.toFinset) :
    Delivers (growSet fs.toArray chosen candidates) d fun grown _ =>
      d₀.Compatible fs grown.toFinset ∧ ∀ i ∈ chosen, i ∈ grown := by
  induction candidates generalizing d chosen with
  | nil => exact .pure hd ⟨hc, fun _ hi => hi⟩
  | cons i rest ih =>
    unfold growSet
    refine (compatible_delivers hfs hext hd _).bind fun answer d₁ hext₁ hwf₁ hanswer => ?_
    cases answer with
    | true =>
      -- The member joins, and the set stays compatible.
      refine (ih (hext.trans hext₁) hwf₁ (hanswer.mp rfl)).imp fun grown _ _ _ ⟨hg, hsub⟩ =>
        ⟨hg, fun j hj => hsub j ?_⟩
      exact List.mem_append_left _ hj
    | false => exact ih (hext.trans hext₁) hwf₁ hc

/-- What shrinking a conflict leaves: a part of it that conflicts and needs all its members. -/
structure Shrunk (d : Manager) (fs : List Edge) (conflict core : List Nat) : Prop where
  sublist : core.Sublist conflict
  conflicts : ¬ d.Compatible fs core.toFinset
  needed : ∀ i ∈ core, d.Compatible fs (core.toFinset.erase i)

/-- The members in front are needed already, and they stay needed while others are dropped. -/
theorem shrinkSet_delivers (hfs : ∀ f ∈ fs, d₀.Valid f) {needed rest : List Nat}
    (hext : d₀.Extends d) (hd : d.WellFormed) (hc : ¬ d₀.Compatible fs (needed ++ rest).toFinset)
    (hneeded : ∀ i ∈ needed, d₀.Compatible fs ((needed ++ rest).toFinset.erase i)) :
    Delivers (shrinkSet fs.toArray needed rest) d fun core _ =>
      Shrunk d₀ fs (needed ++ rest) core := by
  induction rest generalizing d needed with
  | nil =>
    rw [List.append_nil] at hc hneeded ⊢
    exact .pure hd ⟨List.Sublist.refl _, hc, hneeded⟩
  | cons i rest ih =>
    unfold shrinkSet
    refine (compatible_delivers hfs hext hd _).bind fun answer d₁ hext₁ hwf₁ hanswer => ?_
    cases answer with
    | true =>
      -- The member is needed, so it moves to the front part and the whole list stays the same.
      have hsplit : needed ++ i :: rest = (needed ++ [i]) ++ rest := by simp
      rw [hsplit] at hc hneeded ⊢
      refine ih (hext.trans hext₁) hwf₁ hc fun j hj => ?_
      rcases List.mem_append.mp hj with hj | hj
      · exact hneeded j hj
      · -- Without this member the others are compatible.
        refine (hanswer.mp rfl).mono fun k hk => ?_
        rw [List.mem_singleton.mp hj, Finset.mem_erase] at hk
        simp only [List.mem_toFinset, List.mem_append, List.mem_singleton] at hk ⊢
        tauto
    | false =>
      -- The member is dropped, and the needed ones stay needed among fewer.
      have hdrop : (needed ++ rest).toFinset ⊆ (needed ++ i :: rest).toFinset := by
        intro k hk
        simp only [List.mem_toFinset, List.mem_append, List.mem_cons] at hk ⊢
        tauto
      have hconflict : ¬ d₀.Compatible fs (needed ++ rest).toFinset := fun h =>
        Bool.false_ne_true (hanswer.mpr h)
      refine (ih (hext.trans hext₁) hwf₁ hconflict fun j hj => ?_).imp fun core _ _ _ hcore => ?_
      · exact (hneeded j hj).mono (Finset.erase_subset_erase j hdrop)
      · exact ⟨hcore.sublist.trans ((List.sublist_cons_self i rest).append_left needed),
          hcore.conflicts, hcore.needed⟩

end

/-! ## §3 The map -/

/-- The assignment of the selectors that stands for a set of positions. -/
def selects (S : Finset Nat) (v : Nat) : Bool := decide (v - 1 ∈ S)

theorem selects_selector (S : Finset Nat) (i : Nat) :
    selects S (selector i) = decide (i ∈ S) := rfl

/-- A selector, or its complement, as a literal. -/
theorem holds_selector (S : Finset Nat) (i : Nat) :
    holds (selects S) (selector i : Int) = decide (i ∈ S) ∧
      holds (selects S) (-(selector i : Int)) = !decide (i ∈ S) := by
  have hpos : 0 < selector i := Nat.succ_pos i
  have hholds : holds (selects S) (selector i : Int) = decide (i ∈ S) := by
    rw [holds, Int.natAbs_natCast, selects_selector]
    simp [hpos]
  exact ⟨hholds, by rw [holds_neg _ (by omega), hholds]⟩

namespace ConflictMap

/-- Whether a set is undecided. -/
def admits (map : ConflictMap) (S : Finset Nat) : Bool :=
  map.manager.value (selects S) map.undecided

/-- The map is a function of the selectors of the first `n` functions. -/
structure WellFormed (map : ConflictMap) (n : Nat) : Prop where
  manager : map.manager.WellFormed
  valid : map.manager.Valid map.undecided
  selectors : ∀ env env' : Nat → Bool, (∀ i < n, env (selector i) = env' (selector i)) →
    map.manager.value env map.undecided = map.manager.value env' map.undecided

variable {map : ConflictMap} {n : Nat}

theorem WellFormed.selector_of_dependsOn (h : map.WellFormed n) {v : Nat}
    (hv : map.manager.DependsOn map.undecided v) : ∃ i < n, v = selector i := by
  obtain ⟨env, b, hne⟩ := hv
  by_contra hother
  refine hne (h.selectors _ _ fun i hi => Function.update_of_ne (fun heq => hother ?_) _ _)
  exact ⟨i, hi, heq.symm⟩

/-- The first map stores the terminal alone and admits every set. -/
theorem empty_ok (n : Nat) :
    ∃ map : ConflictMap, (∀ limit, empty limit = .ok (map.withLimit limit)) ∧ map.WellFormed n ∧
      map.manager.nodeCount = 1 ∧ ∀ S, map.admits S = true := by
  -- The first manager is made with tables of a fixed size, so it can be had by evaluation.
  obtain ⟨d, hd⟩ : ∃ d, Manager.empty 10 = .ok d := ⟨_, rfl⟩
  have hwf := Manager.wellFormed_empty hd
  have hcount : d.nodeCount = 1 := by
    simp [Manager.nodeCount, UniqueTable.size, Manager.values_empty hd]
  refine ⟨⟨d, .one⟩, fun limit => ?_, ⟨hwf, hwf.valid_one, fun env env' _ => ?_⟩, hcount,
    fun S => ?_⟩
  · simp [empty, hd, withLimit, bind, Except.bind, pure, Except.pure]
  · simp
  · simp [admits]

/-- A seed is read off the nodes of the map. -/
theorem seed?_withLimit (map : ConflictMap) (n limit : Nat) :
    (map.withLimit limit).seed? n = map.seed? n := by
  have hnode : ∀ i, (map.withLimit limit).manager.node i = map.manager.node i := fun _ => rfl
  unfold seed?
  rw [Manager.onePath_congr hnode]
  rfl

/-- A seed is an undecided set, and there is one unless all sets are decided. -/
theorem WellFormed.seed_ok (h : map.WellFormed n) (hn : n < 2 ^ 31) :
    ∃ seed?, map.seed? n = .ok seed? ∧
      match seed? with
      | none => ∀ S, map.admits S = false
      | some seed => seed.Sublist (List.range n) ∧ map.admits seed.toFinset = true := by
  -- The path is over selectors, which fit into signed 32-bit literals.
  have hvars : ∀ v, map.manager.DependsOn map.undecided v → v < 2 ^ 31 := by
    intro v hv
    obtain ⟨i, hi, rfl⟩ := h.selector_of_dependsOn hv
    simp only [selector]
    omega
  unfold seed?
  rcases h.manager.onePath_ok h.valid hvars with ⟨hzero, hnone⟩ | ⟨model, hsome, hpath⟩
  · refine ⟨none, by rw [hnone]; rfl, fun S => ?_⟩
    rw [admits, hzero, Manager.value_zero]
  · refine ⟨some _, by rw [hsome]; rfl, List.filter_sublist, ?_⟩
    -- The seed and the assignment of the path agree on the selectors.
    rw [← hpath.value_eq_true]
    refine h.selectors _ _ fun i hi => ?_
    rw [selects_selector]
    simp [hi]

/-- The map becomes `map'` when one of the literals has to hold.  This holds for every number of
    edges that is enough for the map: either all nodes of `map'` have edges, or they run out. -/
def Becomes (map : ConflictMap) (literals : List Int) (map' : ConflictMap) : Prop :=
  ∀ limit, map.manager.nodeCount < limit → (map.withLimit limit).require literals =
    if map'.manager.nodeCount < limit then .ok (map'.withLimit limit) else .error .tooManyNodes

/-- A clause over selectors takes the sets that violate it off the map. -/
theorem WellFormed.require_ok (h : map.WellFormed n) (hn : n < 2 ^ 31) {positions : List Nat}
    (hsub : positions.Sublist (List.range n)) {l : Nat → Int}
    (hlit : ∀ i, (l i).natAbs = selector i) :
    ∃ map', map.Becomes (positions.map l) map' ∧ map.manager.Extends map'.manager ∧
      map'.WellFormed n ∧
        ∀ S, map'.admits S = (map.admits S && (positions.map l).any (holds (selects S))) := by
  have hsel : ∀ m ∈ positions.map l, ∃ i < n, m.natAbs = selector i := by
    intro m hm
    obtain ⟨i, hi, rfl⟩ := List.mem_map.mp hm
    exact ⟨i, List.mem_range.mp (hsub.subset hi), hlit i⟩
  have h0 : ∀ m ∈ positions.map l, m ≠ 0 ∧ m.natAbs < 2 ^ 31 := by
    intro m hm
    obtain ⟨i, hi, heq⟩ := hsel m hm
    simp only [selector] at heq
    omega
  have hdiff : (positions.map l).Pairwise fun a b => a.natAbs ≠ b.natAbs := by
    rw [List.pairwise_map]
    refine (List.pairwise_lt_range.sublist hsub).imp fun hlt => ?_
    simp only [hlit, selector]
    omega
  -- Only the variables of the literals matter from here on.
  generalize positions.map l = literals at hsel h0 hdiff ⊢
  have hdeliver : Yields (do conj map.undecided (← mkClause literals)) map.manager fun env =>
      map.manager.value env map.undecided && literals.any (holds env) := by
    exact (mkClause_delivers h.manager hdiff h0).bind fun clause d₁ hext hwf hc =>
      conj_delivers hwf (h.valid.denotes.mono hext) hc
  -- The map is a manager with an edge, so a clause is built as on any manager.
  have hrequire : ∀ limit, (map.withLimit limit).require literals =
      ((do conj map.undecided (← mkClause literals)) (map.manager.withLimit limit)).map
        fun (e, d) => ⟨d, e⟩ := by
    intro limit
    unfold require withLimit
    simp only [bind, StateT.bind, StateT.run, Except.bind, Except.map, pure, Except.pure]
    cases mkClause literals (map.manager.withLimit limit) with
    | error fault => rfl
    | ok r => cases conj map.undecided r.1 r.2 <;> rfl
  obtain ⟨-, e, d', hreturns, hext, hwf, ⟨he, hval⟩, -⟩ := hdeliver
  refine ⟨⟨d', e⟩, fun limit hlimit => ?_, hext, ⟨hwf, he, fun env env' heq => ?_⟩,
    fun S => hval _⟩
  · rw [hrequire, hreturns limit hlimit]
    by_cases hroom : d'.nodeCount < limit
    · rw [if_pos hroom, if_pos hroom]
      rfl
    · rw [if_neg hroom, if_neg hroom]
      rfl
  · have hclause : literals.any (holds env) = literals.any (holds env') := by
      apply any_holds_congr
      intro l hl
      obtain ⟨i, hi, hli⟩ := hsel l hl
      rw [hli, heq i hi]
    rw [hval, hval, h.selectors env env' heq, hclause]

/-- The number of undecided sets of the first `n` functions. -/
def pending (map : ConflictMap) (n : Nat) : Nat :=
  ((Finset.range n).powerset.filter fun S => map.admits S = true).card

theorem pending_le (map : ConflictMap) (n : Nat) : map.pending n ≤ 2 ^ n := by
  refine Nat.le_trans (Finset.card_filter_le _ _) ?_
  rw [Finset.card_powerset, Finset.card_range]

/-- A condition that an undecided set violates leaves fewer sets undecided. -/
theorem pending_lt {map' : ConflictMap} {c : Finset Nat → Bool} {S : Finset Nat}
    (hc : ∀ T, map'.admits T = (map.admits T && c T)) (hrange : S ⊆ Finset.range n)
    (hS : map.admits S = true) (hviol : c S = false) : map'.pending n < map.pending n := by
  apply Finset.card_lt_card
  -- The set that is ruled out was pending before.
  rw [Finset.ssubset_iff_of_subset]
  · refine ⟨S, ?_, ?_⟩
    · simp [hrange, hS]
    · simp [hc, hviol]
  · intro T hT
    simp only [Finset.mem_filter, hc, Bool.and_eq_true] at hT ⊢
    exact ⟨hT.1, hT.2.1⟩

end ConflictMap

/-! ## §4 The enumeration -/

section

variable {d₀ d : Manager} {fs : List Edge} {map map' : ConflictMap} {found : List (List Nat)}

/-- The positions ascend, and the functions there are a minimal conflict. -/
def IsCore (d : Manager) (fs : List Edge) (core : List Nat) : Prop :=
  core.Sublist (List.range fs.length) ∧ d.MinimalConflict fs core.toFinset

/-- The invariant of the enumeration: what has left the map is compatible or contains a core that
    was found, and every superset of such a core has left the map. -/
structure Explored (d : Manager) (fs : List Edge) (map : ConflictMap) (found : List (List Nat)) :
    Prop where
  map_wellFormed : map.WellFormed fs.length
  decided : ∀ S, S ⊆ Finset.range fs.length → map.admits S = false →
    d.Compatible fs S ∨ ∃ core ∈ found, core.toFinset ⊆ S
  blocked : ∀ core ∈ found, ∀ S, core.toFinset ⊆ S → map.admits S = false
  cores : ∀ core ∈ found, IsCore d fs core
  nodup : found.Nodup

/-- Exactly the minimal conflicts are found, each of them once. -/
structure Exact (d : Manager) (fs : List Edge) (found : List (List Nat)) : Prop where
  cores : ∀ core ∈ found, IsCore d fs core
  complete : ∀ S, d.MinimalConflict fs S → ∃ core ∈ found, core.toFinset = S
  nodup : found.Nodup

theorem subset_range_of_sublist {core : List Nat} {n : Nat} (h : core.Sublist (List.range n)) :
    core.toFinset ⊆ Finset.range n := by
  intro i hi
  exact Finset.mem_range.mpr (List.mem_range.mp (h.subset (List.mem_toFinset.mp hi)))

/-- At the start everything is undecided and nothing is found. -/
theorem explored_of_admits (hmap : map.WellFormed fs.length) (h : ∀ S, map.admits S = true) :
    Explored d fs map [] where
  map_wellFormed := hmap
  decided S _ hS := absurd ((h S).symm.trans hS) (by decide)
  blocked _ hcore := absurd hcore List.not_mem_nil
  cores _ hcore := absurd hcore List.not_mem_nil
  nodup := List.nodup_nil

/-- Once all sets are decided, every minimal conflict has been found. -/
theorem Explored.exact (h : Explored d fs map found) (hall : ∀ S, map.admits S = false) :
    Exact d fs found where
  cores := h.cores
  complete := by
    intro S hS
    have hrange : S ⊆ Finset.range fs.length := fun i hi => Finset.mem_range.mpr (hS.positions i hi)
    rcases h.decided S hrange (hall S) with hcomp | ⟨core, hcore, hsub⟩
    · exact absurd hcomp hS.conflict
    · exact ⟨core, hcore, hS.eq_of_subset (h.cores core hcore).2.conflict hsub⟩
  nodup := h.nodup

/-- If all functions together are compatible, there is no conflict to be found. -/
theorem Explored.exact_of_compatible (h : Explored d fs map found)
    (hall : d.Compatible fs (Finset.range fs.length)) : Exact d fs found where
  cores := h.cores
  complete := by
    intro S hS
    have hrange : S ⊆ Finset.range fs.length := fun i hi => Finset.mem_range.mpr (hS.positions i hi)
    exact absurd (hall.mono hrange) hS.conflict
  nodup := h.nodup

/-- Sets may leave the map when they are compatible. -/
theorem Explored.keep (h : Explored d fs map found) {c : Finset Nat → Bool}
    (hmap : map'.WellFormed fs.length) (hc : ∀ S, map'.admits S = (map.admits S && c S))
    (hcomp : ∀ S, S ⊆ Finset.range fs.length → c S = false → d.Compatible fs S) :
    Explored d fs map' found where
  map_wellFormed := hmap
  decided := by
    intro S hS hout
    rw [hc, Bool.and_eq_false_iff] at hout
    rcases hout with hold | hnew
    · exact h.decided S hS hold
    · exact .inl (hcomp S hS hnew)
  blocked := by
    intro core hcore S hsub
    rw [hc, h.blocked core hcore S hsub, Bool.false_and]
  cores := h.cores
  nodup := h.nodup

/-- Sets may leave the map when they contain a core that is now found. -/
theorem Explored.add (h : Explored d fs map found) {c : Finset Nat → Bool} {core : List Nat}
    (hmap : map'.WellFormed fs.length) (hc : ∀ S, map'.admits S = (map.admits S && c S))
    (hcore : IsCore d fs core) (hsup : ∀ S, c S = false ↔ core.toFinset ⊆ S)
    (hnew : core ∉ found) : Explored d fs map' (found ++ [core]) where
  map_wellFormed := hmap
  decided := by
    intro S hS hout
    rw [hc, Bool.and_eq_false_iff] at hout
    -- A set is ruled out by the new core or was ruled out before.
    rcases hout with hold | hviol
    · refine (h.decided S hS hold).imp_right fun ⟨other, hother, hsub⟩ => ?_
      exact ⟨other, List.mem_append_left _ hother, hsub⟩
    · exact .inr ⟨core, by simp, (hsup S).mp hviol⟩
  blocked := by
    intro other hother S hsub
    rw [hc, Bool.and_eq_false_iff]
    rcases List.mem_append.mp hother with hold | hlast
    · exact .inl (h.blocked other hold S hsub)
    · rw [List.mem_singleton.mp hlast] at hsub
      exact .inr ((hsup S).mpr hsub)
  cores := by
    intro other hother
    rcases List.mem_append.mp hother with hold | hlast
    · exact h.cores other hold
    · exact List.mem_singleton.mp hlast ▸ hcore
  nodup := by
    rw [List.nodup_append]
    refine ⟨h.nodup, List.nodup_singleton core, fun a ha b hb heq => hnew ?_⟩
    rw [← List.mem_singleton.mp hb, ← heq]
    exact ha

/-- The clause over the members that a grown set lacks. -/
theorem any_holds_missing (missing : List Nat) (S : Finset Nat) :
    (missing.map fun i => (selector i : Int)).any (holds (selects S)) =
      missing.any fun i => decide (i ∈ S) := by
  rw [List.any_map]
  exact congrArg missing.any (funext fun i => (holds_selector S i).1)

/-- The clause over the members of a core is violated by its supersets. -/
theorem any_holds_core (core : List Nat) (S : Finset Nat) :
    (core.map fun i => -(selector i : Int)).any (holds (selects S)) = false ↔
      core.toFinset ⊆ S := by
  rw [List.any_map, List.any_eq_false]
  have hlit : ∀ i, (holds (selects S) ∘ fun i => -(selector i : Int)) i = !decide (i ∈ S) :=
    fun i => (holds_selector S i).2
  simp only [hlit, Finset.subset_iff, List.mem_toFinset]
  simp

/-- An undecided seed contains no core that was found. -/
theorem Explored.not_mem_of_admits (h : Explored d fs map found) {core seed : List Nat}
    (hsub : core.Sublist seed) (hseed : map.admits seed.toFinset = true) : core ∉ found := by
  intro hmem
  have hsub' : core.toFinset ⊆ seed.toFinset := fun i hi =>
    List.mem_toFinset.mpr (hsub.subset (List.mem_toFinset.mp hi))
  rw [h.blocked core hmem _ hsub'] at hseed
  cases hseed

theorem Shrunk.isCore {seed core : List Nat} (h : Shrunk d fs seed core)
    (hseed : seed.Sublist (List.range fs.length)) : IsCore d fs core := by
  have hsub := h.sublist.trans hseed
  refine ⟨hsub, Manager.minimalConflict_of_needed (fun i hi => ?_) h.conflicts fun i hi => ?_⟩
  · exact Finset.mem_range.mp (subset_range_of_sublist hsub hi)
  · exact h.needed i (List.mem_toFinset.mp hi)

/-- A round that grows its seed: the subsets of the grown set leave the map, the seed among them. -/
theorem Explored.require_missing (h : Explored d fs map found) (hlen : fs.length < 2 ^ 31)
    {seed grown : List Nat} (hseed : seed.Sublist (List.range fs.length))
    (hadm : map.admits seed.toFinset = true) (hgrown : d.Compatible fs grown.toFinset)
    (hincl : ∀ i ∈ seed, i ∈ grown) :
    let missing := (List.range fs.length).filter (!grown.contains ·)
    ∃ map', map.Becomes (missing.map fun i => (selector i : Int)) map' ∧
      map.manager.Extends map'.manager ∧ Explored d fs map' found ∧
        map'.pending fs.length < map.pending fs.length := by
  intro missing
  -- The clause takes exactly those sets off the map that have none of the missing positions.
  have hviol : ∀ S : Finset Nat, (∀ i ∈ missing, i ∉ S) →
      (missing.map fun i => (selector i : Int)).any (holds (selects S)) = false := by
    intro S hS
    rw [any_holds_missing, List.any_eq_false]
    exact fun i hi => by simpa using hS i hi
  have hlacks : ∀ i ∈ missing, i ∉ grown := by
    intro i hi
    have := (List.mem_filter.mp hi).2
    simpa using this
  obtain ⟨map', hbecomes, hext, hmap', hadm'⟩ := h.map_wellFormed.require_ok hlen
    List.filter_sublist (l := fun i => (selector i : Int)) fun i => Int.natAbs_natCast _
  refine ⟨map', hbecomes, hext, h.keep hmap' hadm' fun S hS hout => ?_, ?_⟩
  · -- A set without the missing positions is a subset of the grown set.
    refine hgrown.mono fun i hi => List.mem_toFinset.mpr ?_
    by_contra hnot
    have hmiss : i ∈ missing := List.mem_filter.mpr
      ⟨List.mem_range.mpr (Finset.mem_range.mp (hS hi)), by simpa using hnot⟩
    rw [any_holds_missing, List.any_eq_false] at hout
    exact hout i hmiss (by simpa using hi)
  · -- The seed itself is decided by this clause, which makes the measure smaller.
    refine ConflictMap.pending_lt hadm' (subset_range_of_sublist hseed) hadm
      (hviol _ fun i hi hmem => ?_)
    exact hlacks i hi (hincl i (List.mem_toFinset.mp hmem))

/-- A round that shrinks its seed: the supersets of the core leave the map, the seed among them. -/
theorem Explored.require_core (h : Explored d fs map found) (hlen : fs.length < 2 ^ 31)
    {seed core : List Nat} (hseed : seed.Sublist (List.range fs.length))
    (hadm : map.admits seed.toFinset = true) (hcore : Shrunk d fs seed core) :
    ∃ map', map.Becomes (core.map fun i => -(selector i : Int)) map' ∧
      map.manager.Extends map'.manager ∧ Explored d fs map' (found ++ [core]) ∧
        map'.pending fs.length < map.pending fs.length := by
  have hiscore := hcore.isCore hseed
  have hsup : core.toFinset ⊆ seed.toFinset := fun i hi =>
    List.mem_toFinset.mpr (hcore.sublist.subset (List.mem_toFinset.mp hi))
  obtain ⟨map', hbecomes, hext, hmap', hadm'⟩ := h.map_wellFormed.require_ok hlen hiscore.1
    (l := fun i => -(selector i : Int)) fun i => by simp
  refine ⟨map', hbecomes, hext, ?_, ?_⟩
  · exact h.add hmap' hadm' hiscore (any_holds_core core)
      (h.not_mem_of_admits hcore.sublist hadm)
  · -- The seed contains the core, so it is decided and the measure gets smaller.
    exact ConflictMap.pending_lt hadm' (subset_range_of_sublist hseed) hadm
      ((any_holds_core core _).mpr hsup)

/-- What an enumeration delivers from a map and a manager, for every number of edges that is enough
for both: a list that satisfies `Q`, and a map and a manager that keep all old nodes.  As long as
all nodes of both have edges the enumeration ends in this way, and otherwise it runs out. -/
def Enumerates (act : Nat → Build (List (List Nat) × ConflictMap)) (map : ConflictMap)
    (d : Manager) (Q : List (List Nat) → Prop) : Prop :=
  ∃ (found : List (List Nat)) (map' : ConflictMap) (d' : Manager),
    map.manager.Extends map'.manager ∧ d.Extends d' ∧ d'.WellFormed ∧ Q found ∧ ∀ limit,
      map.manager.nodeCount < limit → d.nodeCount < limit → act limit (d.withLimit limit) =
        if map'.manager.nodeCount < limit ∧ d'.nodeCount < limit then
          .ok ((found, map'.withLimit limit), d'.withLimit limit)
        else .error .tooManyNodes

theorem Enumerates.pure {Q : List (List Nat) → Prop} (hd : d.WellFormed) (h : Q found) :
    Enumerates (fun limit => return (found, map.withLimit limit)) map d Q := by
  refine ⟨found, map, d, .refl _, .refl d, hd, h, fun limit hmap hlimit => ?_⟩
  rw [if_pos ⟨hmap, hlimit⟩]
  rfl

/-- A step on the functions.  If the edges run out there, the enumeration is over. -/
theorem Enumerates.bind {α : Type} {act : Build α} {P : α → Manager → Prop}
    {k : Nat → α → Build (List (List Nat) × ConflictMap)} {Q : List (List Nat) → Prop}
    (h : Delivers act d P)
    (hk : ∀ a d', d.Extends d' → d'.WellFormed → P a d' → Enumerates (k · a) map d' Q) :
    Enumerates (fun limit => act >>= k limit) map d Q := by
  obtain ⟨-, a, d₁, hreturns, hext, hwf, hp, -⟩ := h
  obtain ⟨result, map', d₂, hmap, hext', hwf', hq, hrun⟩ := hk a d₁ hext hwf hp
  have hle := hext'.nodeCount_le
  refine ⟨result, map', d₂, hmap, hext.trans hext', hwf', hq, fun limit hroom hlimit => ?_⟩
  dsimp only
  -- Without room for the first computation there is none for the rest, which only adds nodes.
  by_cases hlt : d₁.nodeCount < limit
  · have hact := hreturns limit hlimit
    rw [if_pos hlt] at hact
    rw [bind_of_run hact, ← hrun limit hroom hlt]
  · have hact := hreturns limit hlimit
    rw [if_neg hlt] at hact
    rw [bind_of_fault hact, if_neg (by omega)]

/-- A step on the map.  If the edges run out there, the enumeration is over. -/
theorem Enumerates.require {literals : List Int}
    {k : Nat → ConflictMap → Build (List (List Nat) × ConflictMap)} {Q : List (List Nat) → Prop}
    (h : map.Becomes literals map') (hext : map.manager.Extends map'.manager)
    (hk : Enumerates (fun limit => k limit (map'.withLimit limit)) map' d Q) :
    Enumerates (fun limit => Fault.ofExcept ((map.withLimit limit).require literals) >>= k limit)
      map d Q := by
  obtain ⟨result, map₂, d₂, hmap, hext', hwf', hq, hrun⟩ := hk
  have hle := hmap.nodeCount_le
  refine ⟨result, map₂, d₂, hext.trans hmap, hext', hwf', hq, fun limit hroom hlimit => ?_⟩
  dsimp only
  rw [h limit hroom]
  -- Here it is the map that may be out of edges, though its bound is the same.
  by_cases hlt : map'.manager.nodeCount < limit
  · rw [if_pos hlt, ← hrun limit hlt hlimit]
    rfl
  · rw [if_neg hlt, if_neg (by omega)]
    rfl

theorem ofExcept_ok {m : Type → Type} [Monad m] [MonadExceptOf Fault m] {α : Type} (a : α) :
    (Fault.ofExcept (.ok a) : m α) = pure a := rfl

/-- The enumeration ends with exactly the minimal conflicts.  The induction is on the rounds that
    are left, of which there are always more than undecided sets. -/
theorem conflictsFrom_enumerates (hfs : ∀ f ∈ fs, d₀.Valid f) (hlen : fs.length < 2 ^ 31)
    {rounds : Nat} (hext : d₀.Extends d) (hd : d.WellFormed) (h : Explored d₀ fs map found)
    (hrounds : map.pending fs.length < rounds) :
    Enumerates (fun limit => conflictsFrom fs.toArray (map.withLimit limit) found rounds) map d
      (Exact d₀ fs) := by
  -- On the rounds: every clause rules out a pending set, so the rounds last.
  induction rounds generalizing d map found with
  | zero => exact absurd hrounds (Nat.not_lt_zero _)
  | succ rounds ih =>
    obtain ⟨seed?, hok, hseed⟩ := h.map_wellFormed.seed_ok hlen
    simp only [conflictsFrom, List.size_toArray, ConflictMap.seed?_withLimit, hok, ofExcept_ok,
      pure_bind]
    obtain - | seed := seed?
    · exact .pure hd (h.exact hseed)
    · obtain ⟨hsub, hadm⟩ := hseed
      refine .bind (compatible_delivers hfs hext hd seed) fun answer d₁ hext₁ hwf₁ hanswer => ?_
      have hext₁ := hext.trans hext₁
      cases answer with
      | true =>
        simp only [if_pos]
        refine .bind (growSet_delivers hfs hext₁ hwf₁ (hanswer.mp rfl))
          fun grown d₂ hext₂ hwf₂ ⟨hgrown, hincl⟩ => ?_
        split
        · -- Nothing is missing, so the functions are compatible all together.
          rename_i hnone
          refine .pure hwf₂ (h.exact_of_compatible (hgrown.mono fun i hi => ?_))
          have hin := List.filter_eq_nil_iff.mp (List.isEmpty_iff.mp hnone) i
            (List.mem_range.mpr (Finset.mem_range.mp hi))
          simpa using hin
        · -- Unless all sets were taken, the grown set is ruled out with its subsets.
          obtain ⟨map', hbecomes, hmap, h', hless⟩ :=
            h.require_missing hlen hsub hadm hgrown hincl
          exact .require hbecomes hmap (ih (hext₁.trans hext₂) hwf₂ h' (by omega))
      | false =>
        simp only [Bool.false_eq_true, if_false]
        -- The seed conflicts, so what it shrinks to is a core that was not found before.
        have hconflict : ¬ d₀.Compatible fs ([] ++ seed).toFinset := fun hcomp =>
          Bool.false_ne_true (hanswer.mpr hcomp)
        refine .bind (shrinkSet_delivers hfs hext₁ hwf₁ hconflict
          fun i hi => absurd hi List.not_mem_nil) fun core d₂ hext₂ hwf₂ hcore => ?_
        obtain ⟨map', hbecomes, hmap, h', hless⟩ := h.require_core hlen hsub hadm hcore
        exact .require hbecomes hmap (ih (hext₁.trans hext₂) hwf₂ h' (by omega))

end

theorem state_of_ofExcept {σ α : Type} {x : Except Fault α} {s s' : σ} {a : α}
    (h : (Fault.ofExcept x : Step σ α) s = .ok (a, s')) : s = s' := by
  cases x with
  | error fault => cases h
  | ok b =>
    cases h
    rfl

/-- However many functions there are, an enumeration that ends has only added nodes. -/
theorem conflictsFrom_keeps {d₀ d d' : Manager} {fs : List Edge} (hfs : ∀ f ∈ fs, d₀.Valid f)
    {map : ConflictMap} {found : List (List Nat)} {result : List (List Nat) × ConflictMap}
    {rounds : Nat} (hext : d₀.Extends d) (hd : d.WellFormed)
    (hrun : conflictsFrom fs.toArray map found rounds d = .ok (result, d')) :
    d.Extends d' ∧ d'.WellFormed := by
  -- The measure of the enumeration is not needed: one that is cut off keeps the nodes as well.
  induction rounds generalizing d map found with
  | zero =>
    cases hrun
    exact ⟨.refl _, hd⟩
  | succ rounds ih =>
    unfold conflictsFrom at hrun
    obtain ⟨⟨seed?, d₁⟩, hseed, hrun⟩ := exists_ok_of_bind hrun
    obtain rfl := state_of_ofExcept hseed
    cases seed? with
    | none =>
      cases hrun
      exact ⟨.refl _, hd⟩
    | some seed =>
      obtain ⟨⟨answer, d₁⟩, hanswer, hrun⟩ := exists_ok_of_bind hrun
      obtain ⟨hext₁, hwf₁, hanswer⟩ := (compatible_delivers hfs hext hd seed).of_run hanswer
      have hext₁' := hext.trans hext₁
      cases answer with
      | true =>
        obtain ⟨⟨grown, d₂⟩, hgrown, hrun⟩ := exists_ok_of_bind hrun
        obtain ⟨hext₂, hwf₂, -⟩ :=
          (growSet_delivers hfs hext₁' hwf₁ (hanswer.mp rfl)).of_run hgrown
        dsimp only at hrun
        split at hrun
        · cases hrun
          exact ⟨hext₁.trans hext₂, hwf₂⟩
        · obtain ⟨⟨map', d₃⟩, hmap, hrun⟩ := exists_ok_of_bind hrun
          obtain rfl := state_of_ofExcept hmap
          obtain ⟨hext₃, hwf₃⟩ := ih (hext₁'.trans hext₂) hwf₂ hrun
          exact ⟨(hext₁.trans hext₂).trans hext₃, hwf₃⟩
      | false =>
        have hconflict : ¬ d₀.Compatible fs ([] ++ seed).toFinset := fun hcomp =>
          Bool.false_ne_true (hanswer.mpr hcomp)
        obtain ⟨⟨core, d₂⟩, hcore, hrun⟩ := exists_ok_of_bind hrun
        obtain ⟨hext₂, hwf₂, -⟩ := (shrinkSet_delivers hfs hext₁' hwf₁ hconflict
          fun i hi => absurd hi List.not_mem_nil).of_run hcore
        obtain ⟨⟨map', d₃⟩, hmap, hrun⟩ := exists_ok_of_bind hrun
        obtain rfl := state_of_ofExcept hmap
        obtain ⟨hext₃, hwf₃⟩ := ih (hext₁'.trans hext₂) hwf₂ hrun
        exact ⟨(hext₁.trans hext₂).trans hext₃, hwf₃⟩

/-! ## §5 The answer -/

/-- The order of the answer is the lexicographic one. -/
theorem isLE_compareLex_iff (a b : List Nat) :
    (a.compareLex compare b).isLE = true ↔ ¬ b < a := by
  induction a generalizing b with
  | nil => simp [List.isLE_compareLex_nil_left]
  | cons x xs ih =>
    cases b with
    | nil => simp [List.compareLex_cons_nil]
    | cons y ys =>
      rw [List.compareLex_cons_cons, List.cons_lt_cons_iff]
      rcases Nat.lt_trichotomy x y with hlt | heq | hgt
      · have hne : y ≠ x := by omega
        have hle : ¬ y < x := by omega
        simp [Nat.compare_eq_lt.mpr hlt, hne, hle]
      · simp [heq, ih]
      · simp [Nat.compare_eq_gt.mpr hgt, hgt]

/-- Different lists ascend strictly once they are sorted. -/
theorem pairwise_lt_mergeSort {found : List (List Nat)} (h : found.Nodup) :
    (found.mergeSort fun a b => (a.compareLex compare b).isLE).Pairwise (· < ·) := by
  have hsorted := @List.pairwise_mergeSort _ (fun a b : List Nat => (a.compareLex compare b).isLE)
    (fun a b c => by
      simp only [isLE_compareLex_iff, not_lt]
      exact le_trans)
    (fun a b => by
      rw [Bool.or_eq_true, isLE_compareLex_iff, isLE_compareLex_iff, not_lt, not_lt]
      exact le_total a b) found
  have hperm := List.mergeSort_perm found fun a b => (a.compareLex compare b).isLE
  have hnodup := hperm.nodup_iff.mpr h
  refine (hsorted.and hnodup).imp fun ⟨hle, hne⟩ => ?_
  -- In a list without duplicates, sorted means strictly sorted.
  rw [isLE_compareLex_iff, not_lt] at hle
  exact lt_of_le_of_ne hle hne

/-- A strictly ascending list is determined by its members. -/
theorem eq_of_toFinset_eq {a b : List Nat} (ha : a.Pairwise (· < ·)) (hb : b.Pairwise (· < ·))
    (h : a.toFinset = b.toFinset) : a = b := by
  have hperm : a.Perm b :=
    List.perm_of_nodup_nodup_toFinset_eq (ha.imp Nat.ne_of_lt) (hb.imp Nat.ne_of_lt) h
  exact hperm.eq_of_pairwise (fun x y _ _ hxy hyx => absurd hyx (Nat.lt_asymm hxy)) ha hb

/-- A list of lists of positions that consists of the minimal conflicts. -/
structure ListsConflicts (d : Manager) (fs : List Edge) (result : List (List Nat)) : Prop where
  /-- The lists ascend strictly in lexicographic order. -/
  sorted : result.Pairwise (· < ·)
  /-- The positions in each of them ascend strictly. -/
  ascending : ∀ core ∈ result, core.Pairwise (· < ·)
  /-- A set of positions is listed, and listed once, exactly if it is a minimal conflict. -/
  exact : ∀ S, d.MinimalConflict fs S ↔ ∃! core, core ∈ result ∧ core.toFinset = S

theorem Exact.listsConflicts {d : Manager} {fs : List Edge} {found : List (List Nat)}
    (h : Exact d fs found) :
    ListsConflicts d fs (found.mergeSort fun a b => (a.compareLex compare b).isLE) where
  sorted := pairwise_lt_mergeSort h.nodup
  ascending core hcore :=
    List.pairwise_lt_range.sublist (h.cores core (List.mem_mergeSort.mp hcore)).1
  exact := by
    intro S
    simp only [List.mem_mergeSort]
    constructor
    · intro hS
      obtain ⟨core, hcore, heq⟩ := h.complete S hS
      refine ⟨core, ⟨hcore, heq⟩, fun other ⟨hother, heq'⟩ => ?_⟩
      -- Ascending lists with the same members are equal.
      exact eq_of_toFinset_eq (List.pairwise_lt_range.sublist (h.cores other hother).1)
        (List.pairwise_lt_range.sublist (h.cores core hcore).1) (heq'.trans heq.symm)
    · rintro ⟨core, ⟨hcore, rfl⟩, -⟩
      exact (h.cores core hcore).2

/-- Nothing is listed exactly if all functions hold together. -/
theorem ListsConflicts.eq_nil_iff {d : Manager} {fs : List Edge} {result : List (List Nat)}
    (h : ListsConflicts d fs result) : result = [] ↔ ∃ env, ∀ f ∈ fs, d.value env f = true := by
  constructor
  · rintro rfl
    by_contra hno
    have hconflict : ¬ d.Compatible fs (Finset.range fs.length) := by
      rintro ⟨env, henv⟩
      refine hno ⟨env, fun f hf => ?_⟩
      obtain ⟨i, hi, rfl⟩ := List.mem_iff_getElem.mp hf
      exact henv i (Finset.mem_range.mpr hi) _ (by simp [hi])
    -- If all functions conflict together, then some of them conflict minimally.
    obtain ⟨T, -, hT⟩ :=
      Manager.exists_minimalConflict (fun i hi => Finset.mem_range.mp hi) hconflict
    obtain ⟨core, ⟨hcore, -⟩, -⟩ := (h.exact T).mp hT
    cases hcore
  · rintro ⟨env, henv⟩
    by_contra hsome
    obtain ⟨core, hcore⟩ := List.exists_mem_of_ne_nil result hsome
    have hminimal : d.MinimalConflict fs core.toFinset := by
      refine (h.exact _).mpr ⟨core, ⟨hcore, rfl⟩, fun other ⟨hother, heq⟩ => ?_⟩
      exact eq_of_toFinset_eq (h.ascending other hother) (h.ascending core hcore) heq
    exact hminimal.conflict ⟨env, fun i _ f hf => henv f (List.mem_of_getElem? hf)⟩

/-- The conflicts are listed as `result`, and `map` and `d'` are what the enumeration leaves.  This
    holds for every number of edges that is enough for the functions: as long as all nodes of both
    have edges the enumeration ends in this way, and otherwise it runs out of edges. -/
structure Lists (fs : List Edge) (d : Manager) (result : List (List Nat)) (map : ConflictMap)
    (d' : Manager) : Prop where
  enumerated : ∀ limit, map.manager.nodeCount < limit → d'.nodeCount < limit →
    ∃ found, enumerateConflicts fs (d.withLimit limit) =
      .ok ((found, map.withLimit limit), d'.withLimit limit)
  returned : ∀ limit, map.manager.nodeCount < limit → d'.nodeCount < limit →
    minimalConflicts fs (d.withLimit limit) = .ok (result, d'.withLimit limit)
  exhausted : ∀ limit, d.nodeCount < limit →
    limit ≤ map.manager.nodeCount ∨ limit ≤ d'.nodeCount →
      minimalConflicts fs (d.withLimit limit) = .error .tooManyNodes

/-- A run that has ended is the one of the law. -/
theorem Lists.of_run {fs : List Edge} {d d' : Manager} {map : ConflictMap}
    {result found : List (List Nat)} (h : Lists fs d result map d') (hd : d.nodeCount < d.limit)
    (hrun : (minimalConflicts fs d).map Prod.fst = .ok found) :
    found = result ∧ minimalConflicts fs d = .ok (result, d'.withLimit d.limit) := by
  by_cases hroom : map.manager.nodeCount < d.limit ∧ d'.nodeCount < d.limit
  · have hok : minimalConflicts fs d = _ := h.returned d.limit hroom.1 hroom.2
    rw [hok] at hrun
    cases hrun
    exact ⟨rfl, hok⟩
  · have herr : minimalConflicts fs d = _ := h.exhausted d.limit hd (by omega)
    rw [herr] at hrun
    cases hrun

/-- The minimal conflicts of functions of a well-formed manager are listed. -/
theorem minimalConflicts_lists {d : Manager} {fs : List Edge} (hd : d.WellFormed)
    (hfs : ∀ f ∈ fs, d.Valid f) (hlen : fs.length < 2 ^ 31) :
    ∃ result map d', Lists fs d result map d' ∧ d.Extends d' ∧ d'.WellFormed ∧
      ListsConflicts d fs result := by
  obtain ⟨map, hempty, hmap, hone, hall⟩ := ConflictMap.empty_ok fs.length
  have hrounds : map.pending fs.length < 1 <<< fs.length + 1 := by
    rw [Nat.one_shiftLeft]
    exact Nat.lt_succ_of_le (map.pending_le fs.length)
  obtain ⟨found, map', d', hextMap, hext, hwf, hexact, hrun⟩ :=
    conflictsFrom_enumerates hfs hlen (.refl d) hd (explored_of_admits hmap hall) hrounds
  -- The first map fits wherever the manager fits.
  have hsmall : ∀ limit, d.nodeCount < limit → map.manager.nodeCount < limit := by
    intro limit hlimit
    have := hd.nodeCount_pos
    omega
  -- The map starts with the limit of the manager, so both run out at the same index.
  have henum : ∀ limit, d.nodeCount < limit → enumerateConflicts fs (d.withLimit limit) =
      if map'.manager.nodeCount < limit ∧ d'.nodeCount < limit then
        .ok ((found, map'.withLimit limit), d'.withLimit limit)
      else .error .tooManyNodes := by
    intro limit hlimit
    rw [← hrun limit (hsmall limit hlimit) hlimit]
    unfold enumerateConflicts
    rw [bind_of_run (show (get : Build Manager) (d.withLimit limit) = _ from rfl)]
    show (Fault.ofExcept (ConflictMap.empty limit) >>= fun map =>
      conflictsFrom fs.toArray map [] _ : Build _) (d.withLimit limit) = _
    rw [hempty]
    rfl
  have hle := hext.nodeCount_le
  refine ⟨_, map', d', ⟨fun limit hroom hlimit => ⟨found, ?_⟩, fun limit hroom hlimit => ?_,
    fun limit hlimit hfull => ?_⟩, hext, hwf, hexact.listsConflicts⟩
  · rw [henum limit (by omega), if_pos ⟨hroom, hlimit⟩]
  · have hact := henum limit (by omega)
    rw [if_pos ⟨hroom, hlimit⟩] at hact
    unfold minimalConflicts
    rw [bind_of_run hact]
    rfl
  · have hact := henum limit hlimit
    rw [if_neg (by omega)] at hact
    unfold minimalConflicts
    rw [bind_of_fault hact]

/-- Either the edges suffice, and then the minimal conflicts are listed, or they run out. -/
theorem minimalConflicts_run {d : Manager} {fs : List Edge} (hd : d.WellFormed)
    (hfs : ∀ f ∈ fs, d.Valid f) (hlen : fs.length < 2 ^ 31) :
    minimalConflicts fs d = .error .tooManyNodes ∨ ∃ result d',
      minimalConflicts fs d = .ok (result, d') ∧ d.Extends d' ∧ d'.WellFormed ∧
        ListsConflicts d fs result := by
  obtain ⟨result, map, d', hlists, hext, hwf, hresult⟩ := minimalConflicts_lists hd hfs hlen
  by_cases hroom : map.manager.nodeCount < d.limit ∧ d'.nodeCount < d.limit
  · exact .inr ⟨result, d'.withLimit d.limit, hlists.returned d.limit hroom.1 hroom.2, hext,
      hwf.withLimit hroom.2, hresult⟩
  · exact .inl (hlists.exhausted d.limit hd.nodeCount_lt (by omega))

theorem minimalConflicts_keeps {d d' : Manager} {fs : List Edge} (hd : d.WellFormed)
    (hfs : ∀ f ∈ fs, d.Valid f) {result : List (List Nat)}
    (hrun : minimalConflicts fs d = .ok (result, d')) : d.Extends d' ∧ d'.WellFormed := by
  unfold minimalConflicts enumerateConflicts at hrun
  -- Whatever the first map is, the enumeration starts from it.
  generalize ConflictMap.empty = first at hrun
  obtain ⟨⟨⟨found, map⟩, d₂⟩, hfound, hrun⟩ := exists_ok_of_bind hrun
  cases hrun
  obtain ⟨⟨start, d₁⟩, hstart, hfound⟩ := exists_ok_of_bind hfound
  obtain rfl := state_of_ofExcept hstart
  exact conflictsFrom_keeps hfs (.refl _) hd hfound

/-- Of functions that a run has answered the minimal conflicts are listed: each of them once, with
    its positions in ascending order, and all in lexicographic order.  The bound of the manager is
    the one of signed 32-bit edges, so with this bound the list is returned unless the nodes that
    are stored need more edges. -/
theorem minimalConflicts_of_reached {d : Manager} {es fs : List Edge} (h : d.Reached es)
    (hfs : ∀ f ∈ fs, f ∈ es) (hlen : fs.length < 2 ^ 31) :
    d.withLimit Edge.indexLimit = d ∧ ∃ result map d', Lists fs d result map d' ∧
      ListsConflicts d fs result := by
  obtain ⟨result, map, d', hlists, -, -, hresult⟩ :=
    minimalConflicts_lists h.wellFormed (fun f hf => h.valid f (hfs f hf)) hlen
  exact ⟨h.limit_eq ▸ rfl, result, map, d', hlists, hresult⟩

/-- A conjunction, one of its members and falsehood, of a run that has made them: falsehood alone is
    the only minimal conflict, and it is listed. -/
theorem minimalConflicts_after_conj : ∃ d d' : Manager,
    d.Reached [⟨4⟩, ⟨3⟩, ⟨2⟩, .one, .zero] ∧
      minimalConflicts [⟨4⟩, ⟨3⟩, .zero] d = .ok ([[2]], d') ∧
        ListsConflicts d [⟨4⟩, ⟨3⟩, .zero] [[2]] := by
  obtain ⟨d, h, hrun⟩ := Manager.exists_reached_of_run
    (fun d => (minimalConflicts [⟨4⟩, ⟨3⟩, .zero] d).map Prod.fst) (a := [[2]])
    (by decide +kernel)
  have hanswered : ∀ f ∈ [⟨4⟩, ⟨3⟩, .zero], f ∈ [(⟨4⟩ : Edge), ⟨3⟩, ⟨2⟩, .one, .zero] := by simp
  obtain ⟨-, result, map, d', hlists, hresult⟩ :=
    minimalConflicts_of_reached h hanswered (by decide)
  -- The run has ended, so all nodes have had edges, and its list is the one of the theorem.
  obtain ⟨rfl, hok⟩ := hlists.of_run h.wellFormed.nodeCount_lt hrun
  exact ⟨d, _, h, hok, hresult⟩

end Stimulus
