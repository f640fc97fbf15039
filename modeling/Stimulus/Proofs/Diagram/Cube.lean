import Stimulus.Proofs.Diagram.Canonicity
import Stimulus.Proofs.Diagram.Literal

/-!
# Which cubes are conjunctions

A cube is made without conditionals: every literal becomes a node on top of the cube so far.  For
literals of different variables that is their conjunction, and canonicity makes it the edge that
`conjAll` answers for the edges of the literals.

A variable that occurs twice gets two nodes, one above the other.  The manager that is left is not
well formed any more, and equal functions may have different edges in it: not even a literal and
its opposite make the edge of falsehood.  So callers have to keep the variables apart.

Main definitions:
- `mkLiteral`, `conjLiterals`, `disjLiterals`: literals, conjunctions and clauses from conditionals
- `Manager.Stocked`: the part of the invariant that does not read the nodes
- `CubesOf`: what cubes and clauses of some literals are

Main statements:
- `mkCube_beside_conjLiterals`, `mkClause_beside_disjLiterals`
- `wellFormed_mkCube_iff`, `mkCube_ne_zero`
- `cubesOf_of_reached`
-/

namespace Stimulus

/-! ## §1 Different variables -/

/-- The function of a literal. -/
def mkLiteral (literal : Int) : Build Edge := do
  let e ← mkVar literal.natAbs
  return e.complementIf (literal < 0)

/-- The conjunction of literals, made from their edges. -/
def conjLiterals (literals : List Int) : Build Edge := do conjAll (← literals.mapM mkLiteral)

/-- The disjunction of literals, made from their edges. -/
def disjLiterals (literals : List Int) : Build Edge := do disjAny (← literals.mapM mkLiteral)

section

variable {d : Manager} {literals : List Int} {p : (Nat → Bool) → Bool}

/-- Two computations of one function answer the same edge. -/
theorem Yields.beside {act act' : Build Edge} (h : Yields act d p)
    (h' : ∀ d', d'.WellFormed → Yields act' d' p) :
    Delivers (do return (← act, ← act')) d fun answers d' =>
      answers.1 = answers.2 ∧ d'.Denotes answers.1 p := by
  refine h.bind fun e d₁ _ hwf₁ he => (h' d₁ hwf₁).bind fun f d₂ hext₂ hwf₂ hf => ?_
  have he' := he.mono hext₂
  refine .pure hwf₂ ⟨hwf₂.eq_of_value_eq he'.valid hf.valid fun env => ?_, he'⟩
  rw [he'.value_eq, hf.value_eq]

theorem mkLiteral_delivers (hd : d.WellFormed) {literal : Int} (h0 : literal ≠ 0) :
    Yields (mkLiteral literal) d fun env => holds env literal := by
  have hvar : literal.natAbs ≠ 0 := by omega
  refine (mkVar_delivers hd hvar).bind fun e d' _ hwf ⟨hvalid, _, hval⟩ =>
    .pure hwf ⟨hvalid.complementIf _, fun env => ?_⟩
  have hsign : decide (0 < literal) = !decide (literal < 0) := by
    rw [← decide_not, decide_eq_decide]
    omega
  rw [Manager.value_complementIf hvalid.index_ne_zero, hval, holds, hsign]
  cases env literal.natAbs <;> cases decide (literal < 0) <;> rfl

/-- The edges of some literals, with the outcome of each. -/
theorem mkLiterals_delivers (hd : d.WellFormed) (h0 : ∀ l ∈ literals, l ≠ 0) :
    Delivers (literals.mapM mkLiteral) d fun es d' =>
      (∀ e ∈ es, d'.Valid e) ∧ ∀ env, es.map (d'.value env) = literals.map (holds env) := by
  induction literals generalizing d with
  | nil => exact .pure hd ⟨by simp, fun _ => rfl⟩
  | cons l ls ih =>
    rw [List.mapM_cons]
    refine (mkLiteral_delivers hd (h0 l List.mem_cons_self)).bind fun e d₁ _ hwf₁ he => ?_
    have hrest := ih hwf₁ fun m hm => h0 m (List.mem_cons_of_mem l hm)
    refine hrest.bind fun es d₂ hext₂ hwf₂ ⟨hvalid, hvalues⟩ => .pure hwf₂ ⟨?_, fun env => ?_⟩
    · intro f hf
      rcases List.mem_cons.mp hf with rfl | hf
      · exact hext₂.valid he.valid
      · exact hvalid f hf
    · rw [List.map_cons, List.map_cons, hvalues, (he.mono hext₂).value_eq]

theorem conjLiterals_delivers (hd : d.WellFormed) (h0 : ∀ l ∈ literals, l ≠ 0) :
    Yields (conjLiterals literals) d fun env => literals.all (holds env) := by
  refine (mkLiterals_delivers hd h0).bind fun es d' _ hwf ⟨hvalid, hvalues⟩ => ?_
  refine (conjAll_delivers hwf hvalid).congr fun env => ?_
  have hall := congrArg (List.all · id) (hvalues env)
  rwa [List.all_map, List.all_map] at hall

theorem disjLiterals_delivers (hd : d.WellFormed) (h0 : ∀ l ∈ literals, l ≠ 0) :
    Yields (disjLiterals literals) d fun env => literals.any (holds env) := by
  refine (mkLiterals_delivers hd h0).bind fun es d' _ hwf ⟨hvalid, hvalues⟩ => ?_
  refine (disjAny_delivers hwf hvalid).congr fun env => ?_
  have hany := congrArg (List.any · id) (hvalues env)
  rwa [List.any_map, List.any_map] at hany

/-- The cube of literals of different variables is the edge of their conjunction. -/
theorem mkCube_beside_conjLiterals (hd : d.WellFormed)
    (hdiff : literals.Pairwise fun a b => a.natAbs ≠ b.natAbs) (h0 : ∀ l ∈ literals, l ≠ 0) :
    Delivers (do return (← mkCube literals, ← conjLiterals literals)) d
      fun answers d' => answers.1 = answers.2 ∧
        d'.Denotes answers.1 fun env => literals.all (holds env) :=
  (mkCube_delivers hd hdiff h0).beside fun _ hwf => conjLiterals_delivers hwf h0

/-- The clause of literals of different 32-bit variables is the edge of their disjunction. -/
theorem mkClause_beside_disjLiterals (hd : d.WellFormed)
    (hdiff : literals.Pairwise fun a b => a.natAbs ≠ b.natAbs)
    (h0 : ∀ l ∈ literals, l ≠ 0 ∧ l.natAbs < 2 ^ 31) :
    Delivers (do return (← mkClause literals, ← disjLiterals literals)) d
      fun answers d' => answers.1 = answers.2 ∧
        d'.Denotes answers.1 fun env => literals.any (holds env) :=
  (mkClause_delivers hd hdiff h0).beside fun _ hwf =>
    disjLiterals_delivers hwf fun l hl => (h0 l hl).1

end

/-! ## §2 Repeated variables -/

namespace Manager

/-- The nodes are kept in order by those who ask for them.  What a manager looks after by itself:
    the terminal comes first, every node has an edge, and equal nodes are found. -/
structure Stocked (d : Manager) : Prop where
  terminal : d.nodes.values[0]? = some Node.terminal
  nodeCount_lt : d.nodeCount < d.limit
  shared : d.nodes.Sound (fun n => n.var ≠ 0)

theorem WellFormed.stocked {d : Manager} (hd : d.WellFormed) : d.Stocked :=
  ⟨hd.terminal, hd.nodeCount_lt, hd.shared⟩

/-- A node that tests a variable is not the terminal. -/
theorem Stocked.two_le {d : Manager} (hd : d.Stocked) {i : Nat} {n : Node} (hn : d.node i = .ok n)
    (hvar : n.var ≠ 0) : 2 ≤ i := by
  by_contra hlt
  have hi : i = 1 := by
    have := (le_nodeCount_of_node hn).1
    omega
  have hget := (node_eq_ok.mp hn).2
  rw [hi, hd.terminal] at hget
  cases hget
  exact hvar rfl

/-- The edge leads to a node on `v`, and one of its children leads where `f` leads. -/
def OnTop (d : Manager) (v : Nat) (f e : Edge) : Prop :=
  ∃ n, d.node e.index = .ok n ∧ n.var = v ∧ (n.low.index = f.index ∨ n.high.index = f.index)

section

variable {d : Manager} {v : Nat} {f e : Edge}

theorem OnTop.mono {d' : Manager} (h : d.OnTop v f e) (hd : d.Extends d') : d'.OnTop v f e := by
  obtain ⟨n, hn, hrest⟩ := h
  exact ⟨n, hd.node hn, hrest⟩

theorem OnTop.neg (h : d.OnTop v (-f) e) : d.OnTop v f (-e) := by
  obtain ⟨n, hn, hvar, hchild⟩ := h
  rw [Edge.index_neg] at hchild
  exact ⟨n, by rwa [Edge.index_neg], hvar, hchild⟩

theorem OnTop.not_isTerminal (h : d.OnTop v f e) (hd : d.Stocked) (hv : v ≠ 0) :
    ¬ e.isTerminal = true := by
  obtain ⟨n, hn, rfl, -⟩ := h
  have := hd.two_le hn hv
  rw [isTerminal_iff]
  omega

/-- Where the nodes are in order, an edge starts below the variable that is on top of it. -/
theorem OnTop.startsFrom (h : d.OnTop v f e) (hd : d.WellFormed) (hv : v ≠ 0) :
    d.StartsFrom (v + 1) f := by
  obtain ⟨n, hn, rfl, hchild⟩ := h
  have hred := hd.reduced _ n (hd.stocked.two_le hn hv) hn
  rcases hchild with hlow | hhigh
  · exact startsFrom_of_index_eq hlow hred.low_below
  · exact startsFrom_of_index_eq hhigh hred.high_below

end

end Manager

section

variable {d d' : Manager} {v : Nat} {low high cube e : Edge} {literal : Int} {literals : List Int}

/-- A node whose edges differ is stored, whatever they test. -/
theorem shareNode_onTop (hd : d.Stocked) (hv : v ≠ 0) (hne : low ≠ high)
    (hrun : shareNode v low high d = .ok (e, d')) :
    d'.Stocked ∧ d.Extends d' ∧ d'.OnTop v low e ∧ d'.OnTop v high e := by
  obtain ⟨i, nodes, hput, hsound, hget, hcase⟩ :=
    hd.shared.put (v := ⟨v, low, high⟩) hv
  by_cases hlimit : i + 1 < d.limit
  · simp only [shareNode, if_neg hne, hput, if_pos hlimit] at hrun
    cases hrun
    have hext : d.Extends ⟨nodes, d.computed, d.limit⟩ := by
      rcases hcase with rfl | ⟨-, hvalues⟩
      · exact .refl d
      · exact .of_push hvalues
    have hcount : nodes.size < d.limit := by
      rcases hcase with rfl | ⟨hi, hvalues⟩
      · exact hd.nodeCount_lt
      · -- The node is the last one, and its index has an edge.
        rw [UniqueTable.size, hvalues, Array.size_push]
        rwa [hi] at hlimit
    have hnode : Manager.node ⟨nodes, d.computed, d.limit⟩ (Edge.positive (i + 1)).index =
        .ok ⟨v, low, high⟩ := by
      rw [Edge.index_positive]
      exact Manager.node_eq_ok.mpr ⟨Nat.succ_ne_zero i, hget⟩
    exact ⟨⟨hext _ _ hd.terminal, hcount, hsound⟩, hext, ⟨_, hnode, rfl, .inl rfl⟩,
      ⟨_, hnode, rfl, .inr rfl⟩⟩
  · simp only [shareNode, if_neg hne, hput, if_neg hlimit] at hrun
    cases hrun

theorem mkNode_onTop (hd : d.Stocked) (hv : v ≠ 0) (hne : low ≠ high)
    (hrun : mkNode v low high d = .ok (e, d')) :
    d'.Stocked ∧ d.Extends d' ∧ d'.OnTop v low e ∧ d'.OnTop v high e := by
  unfold mkNode at hrun
  rw [if_neg hv] at hrun
  by_cases hc : high.isComplement = true
  · -- Moving the mark changes no index.
    rw [if_pos hc] at hrun
    obtain ⟨⟨f, d₁⟩, hshare, hrun⟩ := exists_ok_of_bind hrun
    cases hrun
    have hne' : -low ≠ -high := fun h => hne (Manager.complementIf_injective true h)
    obtain ⟨hstocked, hext, hlow, hhigh⟩ := shareNode_onTop hd hv hne' hshare
    exact ⟨hstocked, hext, hlow.neg, hhigh.neg⟩
  · rw [if_neg hc] at hrun
    exact shareNode_onTop hd hv hne hrun

/-- A literal becomes a node on top of the cube, even if the cube tests its variable. -/
theorem addLiteral_onTop (hd : d.Stocked) (h0 : literal ≠ 0) (hcube : cube ≠ .zero)
    (hrun : addLiteral cube literal d = .ok (e, d')) :
    d'.Stocked ∧ d.Extends d' ∧ d'.OnTop literal.natAbs cube e := by
  have hvar : literal.natAbs ≠ 0 := by omega
  unfold addLiteral at hrun
  rw [if_neg h0] at hrun
  by_cases hneg : literal < 0
  · -- A negative literal has the cube below its low edge, a positive one below its high edge.
    rw [if_pos hneg] at hrun
    obtain ⟨hstocked, hext, htop, -⟩ := mkNode_onTop hd hvar hcube hrun
    exact ⟨hstocked, hext, htop⟩
  · rw [if_neg hneg] at hrun
    obtain ⟨hstocked, hext, -, htop⟩ := mkNode_onTop hd hvar hcube.symm hrun
    exact ⟨hstocked, hext, htop⟩

/-- Adding literals to a cube leaves every node, and never ends with falsehood.  If the nodes are in
    order in the end, then each literal lies above those that were there before it. -/
theorem addLiterals_descend (hd : d.Stocked) (h0 : ∀ l ∈ literals, l ≠ 0) (hcube : cube ≠ .zero)
    (hrun : literals.foldlM addLiteral cube d = .ok (e, d')) :
    d.Extends d' ∧ e ≠ .zero ∧ (d'.WellFormed →
      (∀ l ∈ literals, d'.StartsFrom (l.natAbs + 1) cube) ∧
        literals.Pairwise fun a b => b.natAbs < a.natAbs) := by
  induction literals generalizing d cube with
  | nil =>
    cases hrun
    exact ⟨.refl _, hcube, fun _ => ⟨by simp, .nil⟩⟩
  | cons l ls ih =>
    rw [List.foldlM_cons] at hrun
    obtain ⟨⟨f, d₁⟩, hadd, hrun⟩ := exists_ok_of_bind hrun
    have hl : l ≠ 0 := h0 l List.mem_cons_self
    have hvar : l.natAbs ≠ 0 := by omega
    obtain ⟨hstocked, hext, htop⟩ := addLiteral_onTop hd hl hcube hadd
    have hterm := htop.not_isTerminal hstocked hvar
    have hf : f ≠ .zero := by
      rintro rfl
      exact hterm rfl
    obtain ⟨hext', he, hrest⟩ := ih hstocked (fun m hm => h0 m (List.mem_cons_of_mem l hm)) hf hrun
    refine ⟨hext.trans hext', he, fun hwf => ?_⟩
    obtain ⟨hbelow, hdesc⟩ := hrest hwf
    have hstart := (htop.mono hext').startsFrom hwf hvar
    -- What comes later is put on top of the node of this literal.
    have hlt : ∀ m ∈ ls, m.natAbs < l.natAbs := by
      intro m hm
      obtain ⟨n, hn, hnvar, -⟩ := htop.mono hext'
      have := (hbelow m hm).le_var hterm hn
      omega
    refine ⟨fun m hm => ?_, List.pairwise_cons.mpr ⟨hlt, hdesc⟩⟩
    rcases List.mem_cons.mp hm with rfl | hm
    · exact hstart
    · exact hstart.mono (by have := hlt m hm; omega)

/-- A cube leaves its manager well formed if and only if its literals have different variables. -/
theorem wellFormed_mkCube_iff (hd : d.WellFormed) (h0 : ∀ l ∈ literals, l ≠ 0)
    (hrun : mkCube literals d = .ok (e, d')) :
    d'.WellFormed ↔ literals.Pairwise fun a b => a.natAbs ≠ b.natAbs := by
  have hperm := bottomUp_perm literals
  constructor
  · intro hwf
    obtain ⟨-, -, hdesc⟩ := addLiterals_descend hd.stocked
      (fun l hl => h0 l (hperm.mem_iff.mp hl)) (by decide) hrun
    have hdiff := (hdesc hwf).2.imp fun h => (Nat.ne_of_lt h).symm
    exact (hperm.pairwise_iff fun {_ _} h => Ne.symm h).mp hdiff
  · intro hdiff
    exact ((mkCube_delivers hd hdiff h0).of_run hrun).2.1

/-- No cube is the edge of falsehood, not even that of a literal and its opposite. -/
theorem mkCube_ne_zero (hd : d.WellFormed) (h0 : ∀ l ∈ literals, l ≠ 0)
    (hrun : mkCube literals d = .ok (e, d')) : e ≠ .zero :=
  (addLiterals_descend hd.stocked (fun l hl => h0 l ((bottomUp_perm literals).mem_iff.mp hl))
    (by decide) hrun).2.1

/-- A clause is the opposite of the cube of the opposite literals. -/
theorem exists_mkCube_of_mkClause (hrun : mkClause literals d = .ok (e, d')) :
    mkCube (literals.map (- ·)) d = .ok (-e, d') := by
  unfold mkClause at hrun
  split at hrun
  · cases hrun
  · obtain ⟨⟨f, d₁⟩, hcube, hrun⟩ := exists_ok_of_bind hrun
    cases hrun
    rw [hcube, Edge.neg_neg]

end

/-! ## §3 In any run -/

/-- What literals make.  If their variables differ, then the cube and the clause are the edges of
    the conjunction and of the disjunction.  In any case the cube is not falsehood and the clause is
    not truth, and either of them leaves the manager well formed only if the variables differ. -/
structure CubesOf (d : Manager) (literals : List Int) : Prop where
  cube : (literals.Pairwise fun a b => a.natAbs ≠ b.natAbs) →
    Delivers (do return (← mkCube literals, ← conjLiterals literals)) d fun answers d' =>
      answers.1 = answers.2 ∧ d'.Denotes answers.1 fun env => literals.all (holds env)
  clause : (literals.Pairwise fun a b => a.natAbs ≠ b.natAbs) →
    Delivers (do return (← mkClause literals, ← disjLiterals literals)) d fun answers d' =>
      answers.1 = answers.2 ∧ d'.Denotes answers.1 fun env => literals.any (holds env)
  after_cube : ∀ e d', mkCube literals d = .ok (e, d') →
    e ≠ .zero ∧ (d'.WellFormed ↔ literals.Pairwise fun a b => a.natAbs ≠ b.natAbs)
  after_clause : ∀ e d', mkClause literals d = .ok (e, d') →
    e ≠ .one ∧ (d'.WellFormed ↔ literals.Pairwise fun a b => a.natAbs ≠ b.natAbs)

theorem cubesOf_of_reached {d : Manager} {es : List Edge} (h : d.Reached es) {literals : List Int}
    (h0 : ∀ l ∈ literals, l ≠ 0 ∧ l.natAbs < 2 ^ 31) : CubesOf d literals where
  cube hdiff := mkCube_beside_conjLiterals h.wellFormed hdiff fun l hl => (h0 l hl).1
  clause hdiff := mkClause_beside_disjLiterals h.wellFormed hdiff h0
  after_cube e d' hrun :=
    ⟨mkCube_ne_zero h.wellFormed (fun l hl => (h0 l hl).1) hrun,
      wellFormed_mkCube_iff h.wellFormed (fun l hl => (h0 l hl).1) hrun⟩
  after_clause e d' hrun := by
    have hcube := exists_mkCube_of_mkClause hrun
    have hopposite : ∀ l ∈ literals.map (- ·), l ≠ 0 := by
      intro l hl
      obtain ⟨m, hm, rfl⟩ := List.mem_map.mp hl
      exact Int.neg_ne_zero.mpr (h0 m hm).1
    constructor
    · rintro rfl
      exact mkCube_ne_zero h.wellFormed hopposite hcube rfl
    · -- Opposite literals have the same variables.
      rw [wellFormed_mkCube_iff h.wellFormed hopposite hcube, List.pairwise_map]
      simp only [Int.natAbs_neg]

theorem cubesOf_after_conj : ∃ d : Manager, d.Reached [⟨4⟩, ⟨3⟩, ⟨2⟩, .one, .zero] ∧
    (∀ l ∈ [-2, 1], l ≠ 0 ∧ l.natAbs < 2 ^ 31) ∧ CubesOf d [-2, 1] ∧
    ∃ d', (do return (← mkCube [-2, 1], ← conjLiterals [-2, 1]) : Build _) d =
      .ok ((⟨-5⟩, ⟨-5⟩), d') := by
  have hsort : bottomUp [-2, 1] = [-2, 1] := bottomUp_of_pairwise (by decide)
  obtain ⟨d, h, hrun⟩ := Manager.exists_reached_of_run (fun d => do
    let r ← (do return (← mkCube [-2, 1], ← conjLiterals [-2, 1]) : Build _) d
    return r.1) (a := (⟨-5⟩, ⟨-5⟩)) (by simp only [mkCube, hsort]; decide +kernel)
  obtain ⟨⟨answers, d'⟩, hrun, hanswers⟩ := exists_ok_of_bind hrun
  cases hanswers
  have h0 : ∀ l ∈ [-2, 1], l ≠ 0 ∧ l.natAbs < 2 ^ 31 := by decide
  exact ⟨d, h, h0, cubesOf_of_reached h h0, d', hrun⟩

/-- A literal and its opposite make an edge that is not the one of their conjunction, falsehood. -/
theorem mkCube_of_opposites : ∃ d : Manager, d.Reached [⟨4⟩, ⟨3⟩, ⟨2⟩, .one, .zero] ∧
    ∃ d', (do return (← mkCube [1, -1], ← conjLiterals [1, -1]) : Build _) d =
      .ok ((⟨-5⟩, .zero), d') := by
  have hsort : bottomUp [1, -1] = [1, -1] := bottomUp_of_pairwise (by decide)
  obtain ⟨d, h, hrun⟩ := Manager.exists_reached_of_run (fun d => do
    let r ← (do return (← mkCube [1, -1], ← conjLiterals [1, -1]) : Build _) d
    return r.1) (a := (⟨-5⟩, .zero)) (by simp only [mkCube, hsort]; decide +kernel)
  obtain ⟨⟨answers, d'⟩, hrun, hanswers⟩ := exists_ok_of_bind hrun
  cases hanswers
  exact ⟨d, h, d', hrun⟩

end Stimulus
