import Stimulus.Proofs.Diagram.Recall

/-!
# The sizes of the tables do not show

Managers are made with tables of different sizes.  Nodes are then chained in different buckets, the
unique tables grow at different times, and the computed tables forget different answers.  None of
this shows: two managers that are asked for the same answer the same edges, step by step, and store
the same nodes under the same indices.

Two runs are compared through the nodes that they store.  Making a node compares the two unique
tables value by value.  In the recursion of the conditional the two runs part only where one
computed table has an answer and the other has not; there the answer is an edge that is stored, and
computing it again stores nothing.

Main definitions:
- `Manager.Twins`: managers that store the same nodes
- `Matches`: two runs of one computation that end alike
- `Command`, `Manager.transcript`: what a client asks for, and what it sees

Main statements:
- `iteTriple_matches`, `mkCube_matches`
- `transcript_eq_of_empty`
-/

namespace Stimulus

/-! ## §1 Managers that store the same nodes -/

namespace Manager

/-- Two well-formed managers store the same nodes under the same indices and have as many edges. -/
structure Twins (d d' : Manager) : Prop where
  wellFormed : d.WellFormed
  wellFormed' : d'.WellFormed
  values_eq : d'.nodes.values = d.nodes.values
  limit_eq : d'.limit = d.limit

section

variable {d d' : Manager}

theorem Twins.symm (h : d.Twins d') : d'.Twins d :=
  ⟨h.wellFormed', h.wellFormed, h.values_eq.symm, h.limit_eq.symm⟩

theorem Twins.extends (h : d.Twins d') : d.Extends d' := by
  intro i n hi
  rw [h.values_eq]
  exact hi

theorem Twins.node_eq (h : d.Twins d') (i : Nat) : d'.node i = d.node i := by
  unfold node UniqueTable.value
  rw [h.values_eq]

theorem Twins.nodeCount_eq (h : d.Twins d') : d'.nodeCount = d.nodeCount :=
  congrArg Array.size h.values_eq

theorem twins_empty {bits bits' : Nat} (h : Manager.empty bits = .ok d)
    (h' : Manager.empty bits' = .ok d') : d.Twins d' := by
  refine ⟨wellFormed_empty h, wellFormed_empty h', ?_, ?_⟩
  · rw [values_empty h, values_empty h']
  · rw [limit_empty h, limit_empty h']

end

end Manager

/-! ## §2 Runs that end alike -/

/-- From two managers the computation stops with the same fault, or it has the same result and
    leaves twins. -/
inductive Matches {α : Type} (act : Build α) (d d' : Manager) : Prop where
  | fault {fault : Fault} (h : act d = .error fault) (h' : act d' = .error fault)
  | result {a : α} {c c' : Manager} (h : act d = .ok (a, c)) (h' : act d' = .ok (a, c'))
      (htwins : c.Twins c')

section

variable {α β : Type} {d d' : Manager}

theorem Matches.pure (h : d.Twins d') (a : α) : Matches (pure a) d d' := .result rfl rfl h

theorem Matches.bind {act : Build α} {k : α → Build β} (h : Matches act d d')
    (hk : ∀ a c c', act d = .ok (a, c) → act d' = .ok (a, c') → c.Twins c' → Matches (k a) c c') :
    Matches (act >>= k) d d' := by
  cases h with
  | fault h h' => exact .fault (bind_of_fault h) (bind_of_fault h')
  | @result a c c' h h' htwins =>
    have hrun := bind_of_run (k := k) h
    have hrun' := bind_of_run (k := k) h'
    -- The rest of the computation runs on twins, so its two outcomes match as well.
    cases hk a c c' h h' htwins with
    | fault hf hf' => exact .fault (hrun.trans hf) (hrun'.trans hf')
    | result hr hr' htwins' => exact .result (hrun.trans hr) (hrun'.trans hr') htwins'

/-- Two results with the same nodes, of a computation that has a law. -/
theorem Matches.of_delivers {act : Build α} {P Q : α → Manager → Prop} {a : α} {c c' : Manager}
    (hlimit : d'.limit = d.limit) (hd : Delivers act d P) (hd' : Delivers act d' Q)
    (h : act d = .ok (a, c)) (h' : act d' = .ok (a, c'))
    (hvalues : c'.nodes.values = c.nodes.values) : Matches act d d' :=
  .result h h' ⟨(hd.of_run h).2.1, (hd'.of_run h').2.1, hvalues, by
    rw [hd.limit_eq h, hd'.limit_eq h', hlimit]⟩

end

/-! ## §3 Making nodes -/

section

variable {d d' : Manager} {v : Nat} {low high e : Edge} {t : Triple}

/-- The unique tables of twins answer the same index. -/
theorem shareNode_matches (h : d.Twins d') (hv : v ≠ 0) (hlow : d.Valid low) (hhigh : d.Valid high)
    (hreg : high.isComplement = false) (hlow' : d.StartsFrom (v + 1) low)
    (hhigh' : d.StartsFrom (v + 1) high) : Matches (shareNode v low high) d d' := by
  have hdel := shareNode_delivers h.wellFormed hv hlow hhigh hreg hlow' hhigh'
  have hdel' := shareNode_delivers h.wellFormed' hv (h.extends.valid hlow) (h.extends.valid hhigh)
    hreg (h.extends.startsFrom hlow') (h.extends.startsFrom hhigh')
  obtain ⟨hindex, hvalues⟩ := h.wellFormed.shared.put_eq_of_values_eq h.wellFormed'.shared
    h.values_eq (v := ⟨v, low, high⟩) hv
  by_cases heq : low = high
  · -- Where both edges agree, no run touches its tables.
    have hrun (d : Manager) : shareNode v low high d = .ok (low, d) := by
      simp [shareNode, heq]
    exact .result (hrun d) (hrun d') h
  by_cases hlimit : (d.nodes.put ⟨v, low, high⟩).1 < d.limit
  · have hrun (d : Manager) (hlimit : (d.nodes.put ⟨v, low, high⟩).1 < d.limit) :
        shareNode v low high d = .ok (.positive (d.nodes.put ⟨v, low, high⟩).1,
          ⟨(d.nodes.put ⟨v, low, high⟩).2, d.computed, d.limit⟩) := by
      simp [shareNode, heq, hlimit]
    have hrun' := hrun d' (by rwa [hindex, h.limit_eq])
    rw [hindex] at hrun'
    exact .of_delivers h.limit_eq hdel hdel' (hrun d hlimit) hrun' hvalues
  · -- The indices are the same, so both runs are out of edges at once.
    have hrun (d : Manager) (hlimit : ¬ (d.nodes.put ⟨v, low, high⟩).1 < d.limit) :
        shareNode v low high d = .error .tooManyNodes := by
      simp [shareNode, heq, hlimit]
    exact .fault (hrun d hlimit) (hrun d' (by rwa [hindex, h.limit_eq]))

/-- Making a node, also if it is asked for with the variable that no node tests. -/
theorem mkNode_matches (h : d.Twins d') (hlow : d.Valid low) (hhigh : d.Valid high)
    (hlow' : d.StartsFrom (v + 1) low) (hhigh' : d.StartsFrom (v + 1) high) :
    Matches (mkNode v low high) d d' := by
  unfold mkNode
  by_cases hv : v = 0
  · rw [if_pos hv]
    exact .fault rfl rfl
  rw [if_neg hv]
  dsimp only
  -- Both runs see the same edges, so they take the same branch.
  by_cases hc : high.isComplement = true
  · rw [if_pos hc]
    have hreg : (-high).isComplement = false := by
      simp [Edge.isComplement_neg hhigh.index_ne_zero, hc]
    have hshare := shareNode_matches h hv hlow.neg hhigh.neg hreg hlow'.neg hhigh'.neg
    exact hshare.bind fun e c c' _ _ htwins => .pure htwins (-e)
  · rw [if_neg hc]
    exact shareNode_matches h hv hlow hhigh (by simpa using hc) hlow' hhigh'

end

/-! ## §4 The conditional -/

section

variable {d d' : Manager} {t : Triple} {e : Edge}

/-- A computed table has no answer that is not stored. -/
theorem Manager.WellFormed.find?_eq_none (hd : d.WellFormed) (h : ∀ e, ¬ d.Answers t e) :
    d.computed.find? t = none := by
  cases hfind : d.computed.find? t with
  | none => rfl
  | some e => exact absurd (hd.computed t e (ComputedTable.stores_of_find? hfind)).2 (h e)

/-- A conditional that is answered by a stored edge, whether it is remembered or not. -/
theorem iteTriple_matches_of_answers (h : d.Twins d') (ht : t.All d.Valid) (he : d.Answers t e) :
    Matches (iteTriple t) d d' := by
  have ht' : t.All d'.Valid := ht.imp fun _ => h.extends.valid
  obtain ⟨c, hrun, hnodes⟩ := iteTriple_recalls h.wellFormed ht he
  obtain ⟨c', hrun', hnodes'⟩ := iteTriple_recalls h.wellFormed' ht' (he.mono ht h.extends)
  refine .of_delivers h.limit_eq (iteTriple_delivers h.wellFormed ht)
    (iteTriple_delivers h.wellFormed' ht') hrun hrun' ?_
  rw [hnodes, hnodes', h.values_eq]

theorem eq_find?_of_fetch {found : Option Edge} (h : fetch t d = .ok (found, d')) :
    found = d.computed.find? t := by
  cases h
  exact ComputedTable.fetch_fst d.computed t

/-- A look-up that fails in both computed tables. -/
theorem fetch_matches (h : d.Twins d') (hmiss : d.computed.find? t = none)
    (hmiss' : d'.computed.find? t = none) : Matches (fetch t) d d' := by
  have hrun (d : Manager) (hmiss : d.computed.find? t = none) :
      fetch t d = .ok (none, ⟨d.nodes, (d.computed.fetch t).2, d.limit⟩) := by
    simp [fetch, ComputedTable.fetch_fst, hmiss]
  exact .of_delivers h.limit_eq (fetch_delivers h.wellFormed t) (fetch_delivers h.wellFormed' t)
    (hrun d hmiss) (hrun d' hmiss') h.values_eq

theorem remember_matches (h : d.Twins d') (ht : t.All d.Valid) (he : d.Answers t e) :
    Matches (remember t e) d d' := by
  have ht' : t.All d'.Valid := ht.imp fun _ => h.extends.valid
  exact .of_delivers h.limit_eq (remember_delivers h.wellFormed ht he)
    (remember_delivers h.wellFormed' ht' (he.mono ht h.extends)) rfl rfl h.values_eq

/-- Both runs split a conditional alike, because splitting reads nodes alone. -/
theorem expand_matches (h : d.Twins d') (ht : t.All d.Valid) (hc : ¬ t.cond.isTerminal = true) :
    ∃ v low high, expand t d = .ok ((v, low, high), d) ∧ Matches (expand t) d d' ∧
      d.TopOf v t ∧ d.Splits v t low high := by
  obtain ⟨v, low, high, hrun, htop, hsplit⟩ := Manager.expand_ok h.wellFormed ht hc
  have hrun' : expand t d' = .ok ((v, low, high), d') := by
    rw [Manager.expand_congr h.node_eq, hrun]
    rfl
  exact ⟨v, low, high, hrun, .result hrun hrun' h, htop, hsplit⟩

/-- The node between the answers of the cofactors is made and remembered. -/
theorem combine_matches {s low high : Triple} {v : Nat} {no yes : Edge} {complemented : Bool}
    (h : d.Twins d') (hs : s.All d.Valid) (htop : d.TopOf v s) (hsplit : d.Splits v s low high)
    (hno : d.Answers low no) (hyes : d.Answers high yes) :
    Matches (do
      let e ← mkNode v no yes
      remember s e
      return e.complementIf complemented) d d' := by
  have hbelow : d.StartsFrom (v + 1) no := hno.startsFrom _ hsplit.low_below
  have hbelow' : d.StartsFrom (v + 1) yes := hyes.startsFrom _ hsplit.high_below
  refine (mkNode_matches h hno.valid hyes.valid hbelow hbelow').bind fun e c c' hrun _ h₁ => ?_
  obtain ⟨hext₁, -, hdec⟩ := (mkNode_delivers h.wellFormed (htop.ne_zero h.wellFormed hs)
    hno.valid hyes.valid hbelow hbelow').of_run hrun
  have hanswer : c.Answers s e := (hsplit.mono hs hext₁).answers (htop.mono hext₁)
    (hno.mono hsplit.low_valid hext₁) (hyes.mono hsplit.high_valid hext₁) hdec
  have hremember := remember_matches h₁ (hs.imp fun _ => hext₁.valid) hanswer
  exact hremember.bind fun _ _ _ _ _ h₂ => .pure h₂ _

/-- The two runs part where one computed table has the answer and the other has not; there the
    answer is stored, and they meet again. -/
theorem iteTriple_matches (h : d.Twins d') (ht : t.All d.Valid) : Matches (iteTriple t) d d' := by
  -- On the weight; the managers change from call to call and stay twins.
  induction hw : t.weight using Nat.strongRecOn generalizing t d d' with
  | _ w ih =>
    by_cases hstored : ∃ e, d.Answers t e
    · -- Answers that are stored are given at once, whichever table has forgotten them.
      obtain ⟨e, he⟩ := hstored
      exact iteTriple_matches_of_answers h ht he
    have hspec := Manager.standardize_spec h.wellFormed ht
    cases hs : t.standardize with
    | settled e =>
      rw [hs] at hspec
      exact absurd ⟨e, hspec⟩ hstored
    | pending s c =>
      rw [hs] at hspec
      -- An answer that is not stored is in neither computed table.
      have hmiss : ∀ e, ¬ d.Answers s e := fun e he => hstored ⟨_, hspec.answers he⟩
      have hmiss' : ∀ e, ¬ d'.Answers s e := by
        intro e he
        have hs' : s.All d'.Valid := hspec.valid.imp fun _ => h.extends.valid
        exact hmiss e (he.mono hs' h.symm.extends)
      have hfind := h.wellFormed.find?_eq_none hmiss
      have hfind' := h.wellFormed'.find?_eq_none hmiss'
      rw [iteTriple, hs]
      dsimp only
      refine (fetch_matches h hfind hfind').bind fun found d₁ d₁' hfetch _ h₁ => ?_
      obtain ⟨hext₁, -, -⟩ := (fetch_delivers h.wellFormed s).of_run hfetch
      rw [eq_find?_of_fetch hfetch, hfind]
      have hs₁ : s.All d₁.Valid := hspec.valid.imp fun _ => hext₁.valid
      obtain ⟨v, low, high, hexpand, hmatches, htop, hsplit⟩ :=
        expand_matches h₁ hs₁ hspec.cond_not_terminal
      refine hmatches.bind fun r d₂ d₂' hrun _ h₂ => ?_
      cases hexpand.symm.trans hrun
      obtain ⟨hlow, hhigh⟩ := (hspec.mono ht hext₁).cofactors_lt hsplit
      dsimp only
      rw [if_pos ⟨hlow, hhigh⟩]
      refine (ih _ (hw ▸ hlow) h₂ hsplit.low_valid rfl).bind fun no d₃ d₃' hno _ h₃ => ?_
      obtain ⟨hext₃, -, hno⟩ := (iteTriple_delivers h₂.wellFormed hsplit.low_valid).of_run hno
      have hsplit₃ := hsplit.mono hs₁ hext₃
      refine (ih _ (hw ▸ hhigh) h₃ hsplit₃.high_valid rfl).bind fun yes d₄ d₄' hyes _ h₄ => ?_
      obtain ⟨hext₄, -, hyes⟩ := (iteTriple_delivers h₃.wellFormed hsplit₃.high_valid).of_run hyes
      have hs₃ : s.All d₃.Valid := hs₁.imp fun _ => hext₃.valid
      exact combine_matches h₄ (hs₃.imp fun _ => hext₄.valid) ((htop.mono hext₃).mono hext₄)
        (hsplit₃.mono hs₃ hext₄) (hno.mono hsplit₃.low_valid hext₄) hyes

end

/-! ## §5 Lists of functions, and cubes -/

section

variable {d d' : Manager}

theorem conj_matches {f g : Edge} (h : d.Twins d') (hf : d.Valid f) (hg : d.Valid g) :
    Matches (conj f g) d d' :=
  iteTriple_matches h ⟨hf, hg, h.wellFormed.valid_zero⟩

theorem disj_matches {f g : Edge} (h : d.Twins d') (hf : d.Valid f) (hg : d.Valid g) :
    Matches (disj f g) d d' :=
  iteTriple_matches h ⟨hf, h.wellFormed.valid_one, hg⟩

/-- Both runs skip the rest of a conjunction at the same place. -/
theorem conjWith_matches {acc : Edge} {fs : List Edge} (h : d.Twins d') (hacc : d.Valid acc)
    (hfs : ∀ f ∈ fs, d.Valid f) : Matches (conjWith pure acc fs) d d' := by
  induction fs generalizing d d' acc with
  | nil => exact .pure h acc
  | cons f fs ih =>
    have hf := hfs f List.mem_cons_self
    show Matches (conj acc f >>= fun acc =>
      if acc = .zero then pure acc else conjWith pure acc fs) d d'
    refine (conj_matches h hacc hf).bind fun acc' c c' hrun _ h₁ => ?_
    obtain ⟨hext, -, hacc'⟩ := (conj_delivers h.wellFormed hacc.denotes hf.denotes).of_run hrun
    -- Equal edges end both runs at the same place.
    by_cases hzero : acc' = .zero
    · rw [if_pos hzero]
      exact .pure h₁ acc'
    · rw [if_neg hzero]
      exact ih h₁ hacc'.valid fun g hg => hext.valid (hfs g (List.mem_cons_of_mem f hg))

theorem disjFrom_matches {acc : Edge} {fs : List Edge} (h : d.Twins d') (hacc : d.Valid acc)
    (hfs : ∀ f ∈ fs, d.Valid f) : Matches (disjFrom acc fs) d d' := by
  induction fs generalizing d d' acc with
  | nil => exact .pure h acc
  | cons f fs ih =>
    have hf := hfs f List.mem_cons_self
    refine (disj_matches h hacc hf).bind fun acc' c c' hrun _ h₁ => ?_
    obtain ⟨hext, -, hacc'⟩ := (disj_delivers h.wellFormed hacc.denotes hf.denotes).of_run hrun
    by_cases hone : acc' = .one
    · rw [if_pos hone]
      exact .pure h₁ acc'
    · rw [if_neg hone]
      exact ih h₁ hacc'.valid fun g hg => hext.valid (hfs g (List.mem_cons_of_mem f hg))

theorem addLiteral_matches {cube : Edge} {literal : Int} (h : d.Twins d') (hcube : d.Valid cube)
    (hs : d.StartsFrom (literal.natAbs + 1) cube) : Matches (addLiteral cube literal) d d' := by
  unfold addLiteral
  by_cases h0 : literal = 0
  · rw [if_pos h0]
    exact .fault rfl rfl
  rw [if_neg h0]
  dsimp only
  by_cases hneg : literal < 0
  · rw [if_pos hneg]
    exact mkNode_matches h hcube h.wellFormed.valid_zero hs Manager.startsFrom_zero
  · rw [if_neg hneg]
    exact mkNode_matches h h.wellFormed.valid_zero hcube Manager.startsFrom_zero hs

/-- Literals that ascend towards the root extend a cube. -/
theorem addLiterals_matches {cube : Edge} {literals : List Int} (h : d.Twins d')
    (hcube : d.Valid cube) (hdesc : literals.Pairwise fun a b => b.natAbs < a.natAbs)
    (habove : ∀ l ∈ literals, d.StartsFrom (l.natAbs + 1) cube) :
    Matches (literals.foldlM addLiteral cube) d d' := by
  induction literals generalizing d d' cube with
  | nil => exact .pure h cube
  | cons l ls ih =>
    obtain ⟨hlt, hrest⟩ := List.pairwise_cons.mp hdesc
    have hs := habove l List.mem_cons_self
    rw [List.foldlM_cons]
    refine (addLiteral_matches h hcube hs).bind fun e c c' hrun _ h₁ => ?_
    -- A run that ended has not met the literal zero.
    have h0 : l ≠ 0 := by
      rintro rfl
      cases hrun
    obtain ⟨-, -, he, hstart⟩ :=
      (addLiteral_delivers h.wellFormed h0 hcube.denotes hs).of_run hrun
    exact ih h₁ he.valid hrest fun m hm => hstart.mono (hlt m hm)

/-- The cube of literals of different variables. -/
theorem mkCube_matches {literals : List Int} (h : d.Twins d')
    (hdiff : literals.Pairwise fun a b => a.natAbs ≠ b.natAbs) :
    Matches (mkCube literals) d d' := by
  have hdiff' : (bottomUp literals).Pairwise fun a b => a.natAbs ≠ b.natAbs :=
    ((bottomUp_perm literals).pairwise_iff fun {_ _} h => Ne.symm h).mpr hdiff
  have hdesc : (bottomUp literals).Pairwise fun a b => b.natAbs < a.natAbs :=
    ((bottomUp_pairwise literals).and hdiff').imp fun ⟨hle, hne⟩ =>
      Nat.lt_of_le_of_ne hle (Ne.symm hne)
  exact addLiterals_matches h h.wellFormed.valid_one hdesc fun _ _ => Manager.startsFrom_one

/-- An operation on valid edges. -/
theorem Operation.run_matches {op : Operation} (h : d.Twins d')
    (hops : ∀ f ∈ op.operands, d.Valid f) (hord : op.Ordered d) : Matches op.run d d' := by
  have h1 := h.wellFormed.valid_one
  have h0 := h.wellFormed.valid_zero
  -- Most operations are one conditional.
  cases op with
  | var v => exact mkNode_matches h h0 h1 Manager.startsFrom_zero Manager.startsFrom_one
  | node v low high =>
    exact mkNode_matches h (hops low (by simp [operands])) (hops high (by simp [operands]))
      hord.1 hord.2
  | not f => exact .pure h (-f)
  | ite f g k =>
    exact iteTriple_matches h ⟨hops f (by simp [operands]), hops g (by simp [operands]),
      hops k (by simp [operands])⟩
  | conj f g => exact conj_matches h (hops f (by simp [operands])) (hops g (by simp [operands]))
  | disj f g => exact disj_matches h (hops f (by simp [operands])) (hops g (by simp [operands]))
  | xor f g =>
    have hg := hops g (by simp [operands])
    exact iteTriple_matches h ⟨hops f (by simp [operands]), hg.neg, hg⟩
  | iff f g =>
    have hg := hops g (by simp [operands])
    exact iteTriple_matches h ⟨hops f (by simp [operands]), hg, hg.neg⟩
  | imply f g =>
    exact iteTriple_matches h ⟨hops f (by simp [operands]), hops g (by simp [operands]), h1⟩
  | conjAll fs => exact conjWith_matches h h1 hops
  | disjAny fs => exact disjFrom_matches h h0 hops

end

/-! ## §6 What a client sees -/

/-- What a client asks for: an operation that answers an edge, or the cube of some literals. -/
inductive Command where
  | apply (op : Operation)
  | cube (literals : List Int)

namespace Command

def run : Command → Build Edge
  | .apply op => op.run
  | .cube literals => mkCube literals

/-- The edges that a command is applied to. -/
def operands : Command → List Edge
  | .apply op => op.operands
  | .cube _ => []

/-- Nodes are asked for in the order of the variables, and cubes for literals of different
    variables. -/
def Ordered (d : Manager) : Command → Prop
  | .apply op => op.Ordered d
  | .cube literals => literals.Pairwise fun a b => a.natAbs ≠ b.natAbs

end Command

namespace Manager

/-- The edges that a run answers, each with the number of nodes after it, and the fault that ends
    the run, if there is one. -/
def transcript (d : Manager) : List Command → List (Edge × Nat) × Option Fault
  | [] => ([], none)
  | command :: rest =>
    match command.run d with
    | .error fault => ([], some fault)
    | .ok (e, d) =>
      let (answers, last) := d.transcript rest
      ((e, d.nodeCount) :: answers, last)

/-- Every command is applied to edges that lead to stored nodes, and it is ordered. -/
def Orderly (d : Manager) : List Command → Prop
  | [] => True
  | command :: rest =>
    (∀ f ∈ command.operands, d.Valid f) ∧ command.Ordered d ∧
      ∀ e d', command.run d = .ok (e, d') → d'.Orderly rest

end Manager

theorem Command.run_matches {command : Command} {d d' : Manager} (h : d.Twins d')
    (hops : ∀ f ∈ command.operands, d.Valid f) (hord : command.Ordered d) :
    Matches command.run d d' := by
  cases command with
  | apply op => exact op.run_matches h hops hord
  | cube literals => exact mkCube_matches h hord

/-- Twins show the same from now on. -/
theorem Manager.Twins.transcript_eq {d d' : Manager} {commands : List Command} (h : d.Twins d')
    (hcommands : d.Orderly commands) : d'.transcript commands = d.transcript commands := by
  induction commands generalizing d d' with
  | nil => rfl
  | cons command rest ih =>
    obtain ⟨hops, hord, hrest⟩ := hcommands
    unfold transcript
    cases command.run_matches h hops hord with
    | fault hrun hrun' => rw [hrun, hrun']
    | @result e c c' hrun hrun' htwins =>
      -- The rest of the commands runs on twins again.
      have hsame := ih htwins (hrest e c hrun)
      rw [hrun, hrun']
      dsimp only
      rw [hsame, htwins.nodeCount_eq]

/-- Whatever sizes two managers are made with, a client sees the same: every command answers the
    same edge and leaves the same number of nodes, and if one run ends with a fault, so does the
    other. -/
theorem transcript_eq_of_empty {bits bits' : Nat} {d d' : Manager} {commands : List Command}
    (h : Manager.empty bits = .ok d) (h' : Manager.empty bits' = .ok d')
    (hcommands : d.Orderly commands) : d'.transcript commands = d.transcript commands :=
  (Manager.twins_empty h h').transcript_eq hcommands

theorem Manager.Orderly.cons {d d' : Manager} {command : Command} {rest : List Command} {e : Edge}
    (hops : ∀ f ∈ command.operands, d.Valid f) (hord : command.Ordered d)
    (hrun : command.run d = .ok (e, d')) (hrest : d'.Orderly rest) :
    d.Orderly (command :: rest) := by
  refine ⟨hops, hord, fun f c hrun' => ?_⟩
  cases hrun.symm.trans hrun'
  exact hrest

/-- With one bucket and with eight, two variables, their conjunction and a cube get the same
    edges. -/
theorem transcript_eq_with_buckets : ∃ d d' : Manager, Manager.empty 0 = .ok d ∧
    Manager.empty 3 = .ok d' ∧ ∃ commands, d.Orderly commands ∧
      d'.transcript commands = d.transcript commands ∧
        d.transcript commands = ([(⟨2⟩, 2), (⟨3⟩, 3), (⟨4⟩, 4), (⟨-5⟩, 5)], none) := by
  -- The literals stand in order already; sorting is not evaluated by the kernel.
  have hcube : mkCube [-2, 1] = ([-2, 1] : List Int).foldlM addLiteral .one := by
    rw [mkCube, bottomUp_of_pairwise (by decide)]
  have hrun : (do
      let d ← Manager.empty 0
      let d' ← Manager.empty 3
      let r₁ ← mkVar 2 d
      let r₂ ← mkVar 1 r₁.2
      let r₃ ← conj ⟨2⟩ ⟨3⟩ r₂.2
      let r₄ ← ([-2, 1] : List Int).foldlM addLiteral .one r₃.2
      pure ([r₁, r₂, r₃, r₄].map fun r => (r.1, r.2.nodeCount))) =
        (.ok [(⟨2⟩, 2), (⟨3⟩, 3), (⟨4⟩, 4), (⟨-5⟩, 5)] : Except Fault (List (Edge × Nat))) := by
    decide +kernel
  obtain ⟨d, hd, hrun⟩ := exists_ok_of_bind hrun
  obtain ⟨d', hd', hrun⟩ := exists_ok_of_bind hrun
  obtain ⟨⟨e₁, d₁⟩, h₁, hrun⟩ := exists_ok_of_bind hrun
  obtain ⟨⟨e₂, d₂⟩, h₂, hrun⟩ := exists_ok_of_bind hrun
  obtain ⟨⟨e₃, d₃⟩, h₃, hrun⟩ := exists_ok_of_bind hrun
  obtain ⟨⟨e₄, d₄⟩, h₄, hrun⟩ := exists_ok_of_bind hrun
  simp only [pure, Except.pure, List.map_cons, List.map_nil, Except.ok.injEq, List.cons.injEq,
    Prod.mk.injEq, and_true] at hrun
  obtain ⟨⟨rfl, hcount₁⟩, ⟨rfl, hcount₂⟩, ⟨rfl, hcount₃⟩, rfl, hcount₄⟩ := hrun
  rw [← hcube] at h₄
  let commands : List Command :=
    [.apply (.var 2), .apply (.var 1), .apply (.conj ⟨2⟩ ⟨3⟩), .cube [-2, 1]]
  have horderly : d.Orderly commands := by
    refine .cons (by simp [Command.operands, Operation.operands]) trivial h₁ ?_
    refine .cons (by simp [Command.operands, Operation.operands]) trivial h₂ ?_
    refine .cons (fun f hf => ?_) trivial h₃ ?_
    · simp only [Command.operands, Operation.operands, List.mem_cons, List.not_mem_nil,
        or_false] at hf
      rcases hf with rfl | rfl <;> exact ⟨by decide, by rw [hcount₂]; decide⟩
    · exact .cons (by simp [Command.operands]) (by simp [Command.Ordered]) h₄ trivial
  refine ⟨d, d', hd, hd', commands, horderly, transcript_eq_of_empty hd hd' horderly, ?_⟩
  simp [commands, Manager.transcript, Command.run, Operation.run, h₁, h₂, h₃, h₄, hcount₁, hcount₂,
    hcount₃, hcount₄]

end Stimulus
