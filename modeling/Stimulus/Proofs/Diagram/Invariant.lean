import Stimulus.Diagram.Conditional
import Stimulus.Proofs.Diagram.Meaning
import Stimulus.Proofs.Hashing.ComputedTable

/-!
# The invariant of managers

A manager is well formed when its stored nodes are reduced, ordered and shared, and its computed
table holds true answers only.  One invariant spans both tables, because a remembered answer is an
edge into the node table and is handed out instead of a computation.

Every computation that stores nodes is described by what it delivers.  It has one result, and it
leaves one well-formed manager that extends the one it was given.  How many edges there are does not
change either of them: with edges for all nodes of the manager that is left the computation ends
with this result, and with fewer edges it runs out of them.

Main definitions:
- `Manager.Reduced`, `Manager.Answers`, `Manager.WellFormed`
- `Returns`: the result of a computation, for every number of edges
- `Delivers`: what a computation delivers from a given manager
- `Manager.Decides`: the edge of a decision

Main statement:
- `mkNode_delivers`
-/

namespace Stimulus

/-- All three parts of a conditional have a property. -/
structure Triple.All (p : Edge → Prop) (t : Triple) : Prop where
  cond : p t.cond
  yes : p t.yes
  no : p t.no

theorem Triple.All.imp {p q : Edge → Prop} {t : Triple} (h : t.All p) (hpq : ∀ e, p e → q e) :
    t.All q :=
  ⟨hpq _ h.cond, hpq _ h.yes, hpq _ h.no⟩

namespace Manager

/-! ## §1 Well-formed managers -/

/-- Node `i` is a decision in reduced form: it tests a variable above those of its children, which
    are stored before it and differ, and its high edge carries no complement mark. -/
structure Reduced (d : Manager) (i : Nat) (n : Node) : Prop where
  var_ne_zero : n.var ≠ 0
  low_valid : d.Valid n.low
  high_valid : d.Valid n.high
  low_lt : n.low.index < i
  high_lt : n.high.index < i
  low_ne_high : n.low ≠ n.high
  high_regular : n.high.isComplement = false
  low_below : d.StartsFrom (n.var + 1) n.low
  high_below : d.StartsFrom (n.var + 1) n.high

/-- The edge answers the conditional: it has its function, and it tests no variable above those
    that the conditional tests. -/
structure Answers (d : Manager) (t : Triple) (e : Edge) : Prop where
  valid : d.Valid e
  value_eq : ∀ env, d.value env e = d.choice env t
  startsFrom : ∀ v, t.All (d.StartsFrom v) → d.StartsFrom v e

/-- The invariant of managers: the terminal comes first, every other node is reduced and stored
    once, every node has an edge, and every computed result answers its conditional. -/
structure WellFormed (d : Manager) : Prop where
  terminal : d.nodes.values[0]? = some Node.terminal
  nodeCount_lt : d.nodeCount < d.limit
  reduced : ∀ i n, 2 ≤ i → d.node i = .ok n → d.Reduced i n
  shared : d.nodes.Sound (fun n => n.var ≠ 0)
  computed : ∀ t e, d.computed.Stores t e → t.All d.Valid ∧ d.Answers t e

section

variable {d d' : Manager}

theorem WellFormed.nodeCount_pos (h : d.WellFormed) : 1 ≤ d.nodeCount := by
  obtain ⟨hlt, -⟩ := Array.getElem?_eq_some_iff.mp h.terminal
  exact hlt

theorem WellFormed.valid_of_isTerminal (h : d.WellFormed) {e : Edge} (he : e.isTerminal = true) :
    d.Valid e := by
  have hi := isTerminal_iff.mp he
  exact ⟨by omega, hi ▸ h.nodeCount_pos⟩

theorem WellFormed.valid_one (h : d.WellFormed) : d.Valid .one := h.valid_of_isTerminal rfl

theorem WellFormed.valid_zero (h : d.WellFormed) : d.Valid .zero := h.valid_of_isTerminal rfl

/-- What is not terminal leads to a reduced node. -/
theorem WellFormed.exists_reduced (h : d.WellFormed) {e : Edge} (he : d.Valid e)
    (ht : ¬ e.isTerminal = true) : ∃ n, d.node e.index = .ok n ∧ d.Reduced e.index n := by
  obtain ⟨n, hn⟩ := he.exists_node
  have h2 : 2 ≤ e.index := by
    rw [isTerminal_iff] at ht
    have := he.index_pos
    omega
  exact ⟨n, hn, h.reduced _ _ h2 hn⟩

theorem Reduced.mono {i : Nat} {n : Node} (h : d.Reduced i n) (hd : d.Extends d') :
    d'.Reduced i n where
  var_ne_zero := h.var_ne_zero
  low_valid := hd.valid h.low_valid
  high_valid := hd.valid h.high_valid
  low_lt := h.low_lt
  high_lt := h.high_lt
  low_ne_high := h.low_ne_high
  high_regular := h.high_regular
  low_below := hd.startsFrom h.low_below
  high_below := hd.startsFrom h.high_below

theorem Extends.choice_eq (hd : d.Extends d') {t : Triple} (ht : t.All d.Valid)
    (env : Nat → Bool) : d'.choice env t = d.choice env t := by
  simp only [choice, hd.value_eq ht.cond, hd.value_eq ht.yes, hd.value_eq ht.no]

/-- An edge that starts from `v` in a larger manager did so before. -/
theorem Extends.startsFrom_iff (hd : d.Extends d') {v : Nat} {e : Edge} (he : d.Valid e) :
    d'.StartsFrom v e ↔ d.StartsFrom v e := by
  refine ⟨fun h => ?_, hd.startsFrom⟩
  rcases h with h | ⟨n, hn, hv⟩
  · exact .inl h
  · -- The node was stored before under the same index.
    obtain ⟨m, hm⟩ := he.exists_node
    have hmn : m = n := Except.ok.inj ((hd.node hm).symm.trans hn)
    exact .inr ⟨m, hm, hmn ▸ hv⟩

theorem Extends.all_startsFrom (hd : d.Extends d') {t : Triple} (ht : t.All d.Valid) {v : Nat}
    (h : t.All (d'.StartsFrom v)) : t.All (d.StartsFrom v) :=
  ⟨(hd.startsFrom_iff ht.cond).mp h.cond, (hd.startsFrom_iff ht.yes).mp h.yes,
    (hd.startsFrom_iff ht.no).mp h.no⟩

theorem Answers.mono {t : Triple} {e : Edge} (h : d.Answers t e) (ht : t.All d.Valid)
    (hd : d.Extends d') : d'.Answers t e where
  valid := hd.valid h.valid
  value_eq env := by rw [hd.value_eq h.valid, hd.choice_eq ht, h.value_eq]
  startsFrom v hv := hd.startsFrom (h.startsFrom v (hd.all_startsFrom ht hv))

/-- An empty manager consists of two empty tables, and the terminal is added to the first. -/
theorem exists_tables_of_empty {bits : Nat} (h : Manager.empty bits = .ok d) :
    ∃ nodes computed, UniqueTable.empty (α := Node) bits = .ok nodes ∧
      ComputedTable.empty (κ := Triple) (ν := Edge) (max bits 10) = .ok computed ∧
        d = ⟨(nodes.add Node.terminal).2, computed, Edge.indexLimit⟩ := by
  unfold Manager.empty at h
  split at h
  · -- Either table may refuse its size.
    cases hn : UniqueTable.empty (α := Node) bits with
    | error fault => simp [hn, bind, Except.bind] at h
    | ok nodes =>
      cases hc : ComputedTable.empty (κ := Triple) (ν := Edge) (max bits 10) with
      | error fault => simp [hn, hc, bind, Except.bind] at h
      | ok computed =>
        simp only [hn, hc, bind, Except.bind, pure, Except.pure, Except.ok.injEq] at h
        exact ⟨nodes, computed, rfl, rfl, h.symm⟩
  · cases h

/-- Whatever the size of its tables, an empty manager stores the terminal alone. -/
theorem values_empty {bits : Nat} (h : Manager.empty bits = .ok d) :
    d.nodes.values = #[Node.terminal] := by
  obtain ⟨nodes, computed, hn, -, rfl⟩ := exists_tables_of_empty h
  have hvalues : nodes.values = #[] := by
    unfold UniqueTable.empty at hn
    split at hn
    · cases hn
      rfl
    · cases hn
  simp [UniqueTable.add, hvalues]

/-- An empty manager has edges for the indices that a signed 32-bit number can hold. -/
theorem limit_empty {bits : Nat} (h : Manager.empty bits = .ok d) : d.limit = Edge.indexLimit := by
  obtain ⟨nodes, computed, -, -, rfl⟩ := exists_tables_of_empty h
  rfl

/-- A manager that stores the terminal alone is well formed. -/
theorem wellFormed_empty {bits : Nat} (h : Manager.empty bits = .ok d) : d.WellFormed := by
  have hstored := values_empty h
  obtain ⟨nodes, computed, hn, hc, rfl⟩ := exists_tables_of_empty h
  dsimp only at hstored
  refine ⟨by simp [hstored], ?_, ?_, ?_, ?_⟩
  · simp [nodeCount, UniqueTable.size, hstored, Edge.indexLimit]
  · -- There is no node from index 2 on.
    intro i n h2 hnode
    have hle := (le_nodeCount_of_node hnode).2
    simp [nodeCount, UniqueTable.size, hstored] at hle
    omega
  · exact (UniqueTable.sound_empty hn).add (by simp [Node.terminal])
  · intro t e hs
    exact absurd hs (ComputedTable.not_stores_empty hc t e)

end

end Manager

/-! ## §2 What a computation delivers -/

theorem exists_ok_of_bind {ε α β : Type} {x : Except ε α} {k : α → Except ε β} {b : β}
    (h : (x >>= k) = .ok b) : ∃ a, x = .ok a ∧ k a = .ok b := by
  cases x with
  | error err => cases h
  | ok a => exact ⟨a, rfl, h⟩

theorem bind_of_run {σ α β : Type} {act : Step σ α} {k : α → Step σ β} {s s' : σ} {a : α}
    (h : act s = .ok (a, s')) : (act >>= k) s = k a s' := by
  simp [Bind.bind, StateT.bind, h, Except.bind]

theorem bind_of_fault {σ α β : Type} {act : Step σ α} {k : α → Step σ β} {s : σ} {fault : Fault}
    (h : act s = .error fault) : (act >>= k) s = .error fault := by
  simp [Bind.bind, StateT.bind, h, Except.bind]

/-- From manager `d` the computation has the result `a` and leaves `d'`.  This holds for every
number of edges that is enough for `d`: as long as all nodes of `d'` have edges the computation ends
in this way, and otherwise it runs out of edges. -/
def Returns {α : Type} (act : Build α) (d : Manager) (a : α) (d' : Manager) : Prop :=
  ∀ limit, d.nodeCount < limit → act (d.withLimit limit) =
    if d'.nodeCount < limit then .ok (a, d'.withLimit limit) else .error .tooManyNodes

/-- What a computation delivers from manager `d`: a result and a well-formed manager that keeps all
    old nodes, and the two satisfy `Q`.  That manager has the bound of `d`, raised where its nodes
    need more edges than the bound allows. -/
def Delivers {α : Type} (act : Build α) (d : Manager) (Q : α → Manager → Prop) : Prop :=
  d.nodeCount < d.limit ∧ ∃ a d', Returns act d a d' ∧ d.Extends d' ∧ d'.WellFormed ∧ Q a d' ∧
    d'.limit = max d.limit (d'.nodeCount + 1)

section

variable {α β : Type} {act : Build α} {d d' d'' : Manager} {Q : α → Manager → Prop} {a : α}

theorem Returns.pure (a : α) (d : Manager) : Returns (pure a) d a d := by
  intro limit hlimit
  rw [if_pos hlimit]
  rfl

/-- Of two computations the first may run out of edges, and then the second would do so as well. -/
theorem Returns.bind {k : α → Build β} {b : β} (h : Returns act d a d')
    (hk : Returns (k a) d' b d'') (hext : d'.Extends d'') : Returns (act >>= k) d b d'' := by
  intro limit hlimit
  have hle := hext.nodeCount_le
  -- With too few edges for the first part there are too few for both, as nodes are only added.
  by_cases hroom : d'.nodeCount < limit
  · have hrun := h limit hlimit
    rw [if_pos hroom] at hrun
    rw [bind_of_run hrun, hk limit hroom]
  · have hrun := h limit hlimit
    rw [if_neg hroom] at hrun
    rw [bind_of_fault hrun, if_neg (by omega)]

/-- With the edges that there are, a computation returns or runs out of them. -/
theorem Returns.run (h : Returns act d a d') (hd : d.nodeCount < d.limit) :
    act d = if d'.nodeCount < d.limit then .ok (a, d'.withLimit d.limit)
      else .error .tooManyNodes :=
  h d.limit hd

theorem Delivers.of_returns (hd : d.WellFormed) (hrun : Returns act d a d') (hext : d.Extends d')
    (hwf : d'.WellFormed) (hlimit : d'.limit = max d.limit (d'.nodeCount + 1)) (hq : Q a d') :
    Delivers act d Q :=
  ⟨hd.nodeCount_lt, a, d', hrun, hext, hwf, hq, hlimit⟩

theorem Delivers.pure (hd : d.WellFormed) (h : Q a d) : Delivers (pure a) d Q :=
  .of_returns hd (.pure a d) (.refl d) hd (max_eq_left hd.nodeCount_lt).symm h

theorem Delivers.bind {k : α → Build β} {R : β → Manager → Prop} (h : Delivers act d Q)
    (hk : ∀ a d', d.Extends d' → d'.WellFormed → Q a d' → Delivers (k a) d' R) :
    Delivers (act >>= k) d R := by
  obtain ⟨hroom, a, d', hrun, hext, hwf, hq, hlimit⟩ := h
  obtain ⟨-, b, d'', hrun', hext', hwf', hr, hlimit'⟩ := hk a d' hext hwf hq
  have hle := hext'.nodeCount_le
  exact ⟨hroom, b, d'', hrun.bind hrun' hext', hext.trans hext', hwf', hr, by omega⟩

theorem Delivers.imp {R : α → Manager → Prop} (h : Delivers act d Q)
    (hqr : ∀ a d', d.Extends d' → d'.WellFormed → Q a d' → R a d') : Delivers act d R := by
  obtain ⟨hroom, a, d', hrun, hext, hwf, hq, hlimit⟩ := h
  exact ⟨hroom, a, d', hrun, hext, hwf, hqr a d' hext hwf hq, hlimit⟩

theorem Delivers.map {f : α → β} {R : β → Manager → Prop} (h : Delivers act d Q)
    (hqr : ∀ a d', d.Extends d' → d'.WellFormed → Q a d' → R (f a) d') :
    Delivers (f <$> act) d R := by
  rw [map_eq_pure_bind]
  exact h.bind fun a d' hext hwf hq => .pure hwf (hqr a d' hext hwf hq)

/-- A step that uses no manager. -/
theorem Delivers.ofExcept_bind {x : Except Fault α} {p : α → Prop} {k : α → Build β}
    {R : β → Manager → Prop} (h : ∃ a, x = .ok a ∧ p a) (hk : ∀ a, p a → Delivers (k a) d R) :
    Delivers (Fault.ofExcept x >>= k) d R := by
  obtain ⟨a, rfl, ha⟩ := h
  exact hk a ha

/-- Either the edges suffice, and then what is delivered holds of the run, or they run out. -/
theorem Delivers.run (h : Delivers act d Q) : act d = .error .tooManyNodes ∨
    ∃ a d', act d = .ok (a, d') ∧ d.Extends d' ∧ d'.WellFormed ∧ Q a d' := by
  obtain ⟨hroom, a, d', hrun, hext, hwf, hq, hlimit⟩ := h
  have hrun := hrun.run hroom
  split at hrun
  · -- The bound was not raised, so the manager of the law is the one of the run.
    rename_i hlt
    have hsame : d'.limit = d.limit := by omega
    rw [← hsame] at hrun
    exact .inr ⟨a, d', hrun, hext, hwf, hq⟩
  · exact .inl hrun

/-- A computation leaves the number of edges as it is. -/
theorem Delivers.limit_eq (h : Delivers act d Q) (hrun : act d = .ok (a, d')) :
    d'.limit = d.limit := by
  obtain ⟨hroom, b, e, hreturns, -⟩ := h
  have hend := hreturns.run hroom
  rw [hrun] at hend
  split at hend
  · cases hend
    rfl
  · cases hend

/-- What is delivered holds of every run that ends. -/
theorem Delivers.of_run (h : Delivers act d Q) (hrun : act d = .ok (a, d')) :
    d.Extends d' ∧ d'.WellFormed ∧ Q a d' := by
  rcases h.run with herr | ⟨b, e, hok, hrest⟩
  · rw [hrun] at herr
    cases herr
  · rw [hrun] at hok
    cases hok
    exact hrest

end

/-! ## §3 Making nodes -/

namespace Manager

/-- The edge of a decision on `v`: the high edge where `v` is true, the low edge elsewhere. -/
structure Decides (d : Manager) (v : Nat) (low high e : Edge) : Prop where
  valid : d.Valid e
  value_eq : ∀ env, d.value env e = if env v then d.value env high else d.value env low
  startsFrom : d.StartsFrom v e

theorem Decides.neg {d : Manager} {v : Nat} {low high e : Edge} (h : d.Decides v (-low) (-high) e)
    (hlow : d.Valid low) (hhigh : d.Valid high) : d.Decides v low high (-e) where
  valid := h.valid.neg
  value_eq env := by
    rw [value_neg h.valid.index_ne_zero, h.value_eq, value_neg hlow.index_ne_zero,
      value_neg hhigh.index_ne_zero]
    split <;> simp
  startsFrom := h.startsFrom.neg

theorem Decides.mono {d d' : Manager} {v : Nat} {low high e : Edge} (h : d.Decides v low high e)
    (hlow : d.Valid low) (hhigh : d.Valid high) (hd : d.Extends d') : d'.Decides v low high e where
  valid := hd.valid h.valid
  value_eq env := by rw [hd.value_eq h.valid, hd.value_eq hlow, hd.value_eq hhigh, h.value_eq]
  startsFrom := hd.startsFrom h.startsFrom

/-- A reduced node decides on its variable. -/
theorem decides_of_reduced {d : Manager} {e : Edge} {n : Node} (he : d.Valid e)
    (hn : d.node e.index = .ok n) (h : d.Reduced e.index n) :
    d.Decides n.var (n.low.complementIf e.isComplement) (n.high.complementIf e.isComplement) e where
  valid := he
  value_eq env := by
    have h2 : 2 ≤ e.index := by
      have := h.low_valid.index_pos
      have := h.low_lt
      omega
    -- The mark of the edge is carried over to both children.
    rw [value, truth_node h2 hn h.low_lt h.high_lt, value_complementIf h.high_valid.index_ne_zero,
      value_complementIf h.low_valid.index_ne_zero]
    split <;> rfl
  startsFrom := .inr ⟨n, hn, Nat.le_refl _⟩

/-- Only the nodes matter for the node part of the invariant, as long as all of them have edges. -/
theorem WellFormed.with_computed {d : Manager} (h : d.WellFormed)
    {computed : ComputedTable Triple Edge} {limit : Nat} (hlimit : d.nodeCount < limit)
    (hc : ∀ t e, computed.Stores t e → t.All d.Valid ∧ d.Answers t e) :
    WellFormed ⟨d.nodes, computed, limit⟩ := by
  have hext : d.Extends ⟨d.nodes, computed, limit⟩ := .of_nodes_eq rfl
  refine ⟨h.terminal, hlimit, ?_, h.shared, ?_⟩
  · intro i n h2 hn
    exact (h.reduced i n h2 hn).mono hext
  · -- Only the computed table is another one, and it is what the hypothesis is about.
    intro t e hs
    obtain ⟨ht, ha⟩ := hc t e hs
    exact ⟨ht.imp fun _ => hext.valid, ha.mono ht hext⟩

/-- How many edges there are is no part of the invariant beyond the nodes that are stored. -/
theorem WellFormed.withLimit {d : Manager} (h : d.WellFormed) {limit : Nat}
    (hlimit : d.nodeCount < limit) : (d.withLimit limit).WellFormed :=
  h.with_computed hlimit h.computed

/-- A table that stores one more reduced node makes a well-formed manager. -/
theorem WellFormed.with_nodes {d : Manager} (h : d.WellFormed) {nodes : UniqueTable Node} {n : Node}
    {limit : Nat} (hs : nodes.Sound (fun n => n.var ≠ 0))
    (hvalues : nodes.values = d.nodes.values.push n) (hlimit : nodes.size < limit)
    (hn : d.Reduced (d.nodeCount + 1) n) : WellFormed ⟨nodes, d.computed, limit⟩ := by
  have hext : d.Extends ⟨nodes, d.computed, limit⟩ := .of_push hvalues
  refine ⟨hext _ _ h.terminal, hlimit, ?_, hs, ?_⟩
  · intro i m h2 hm
    obtain ⟨hi, hget⟩ := node_eq_ok.mp hm
    change nodes.values[i - 1]? = some m at hget
    rw [hvalues, Array.getElem?_push] at hget
    split at hget
    · -- The new node.
      rename_i hnew
      cases hget
      have hi' : i = d.nodeCount + 1 := by
        simp only [nodeCount, UniqueTable.size]
        omega
      rw [hi']
      exact hn.mono hext
    · -- An old node, which the larger manager leaves reduced.
      exact (h.reduced i m h2 (node_eq_ok.mpr ⟨hi, hget⟩)).mono hext
  · intro t e hst
    obtain ⟨ht, ha⟩ := h.computed t e hst
    exact ⟨ht.imp fun _ => hext.valid, ha.mono ht hext⟩

end Manager

section

variable {d : Manager} {v : Nat} {low high : Edge}

/-- Sharing a node whose edges differ: the index that `put` answers has an edge as soon as all nodes
    have one, because it is an old index or the last one. -/
theorem shareNode_returns (hne : low ≠ high) {i : Nat} {nodes : UniqueTable Node} {limit : Nat}
    (hput : d.nodes.put ⟨v, low, high⟩ = (i + 1, nodes))
    (hget : nodes.values[i]? = some ⟨v, low, high⟩)
    (hcase : nodes = d.nodes ∨ i = d.nodes.values.size ∧
      nodes.values = d.nodes.values.push ⟨v, low, high⟩) :
    Returns (shareNode v low high) d (.positive (i + 1)) ⟨nodes, d.computed, limit⟩ := by
  intro room hroom
  -- The index of the node has an edge exactly if all nodes have one: it is the last node, or no
  -- node is added.
  have hiff : i + 1 < room ↔ nodes.size < room := by
    rcases hcase with rfl | ⟨hi, hvalues⟩
    · obtain ⟨hlt, -⟩ := Array.getElem?_eq_some_iff.mp hget
      simp only [Manager.nodeCount, UniqueTable.size] at hroom ⊢
      omega
    · rw [UniqueTable.size, hvalues, Array.size_push, hi]
  by_cases hlt : i + 1 < room
  · have hlt' : Manager.nodeCount ⟨nodes, d.computed, limit⟩ < room := hiff.mp hlt
    rw [if_pos hlt']
    simp [shareNode, Manager.withLimit, hne, hput, hlt]
  · have hlt' : ¬ Manager.nodeCount ⟨nodes, d.computed, limit⟩ < room := fun h => hlt (hiff.mpr h)
    rw [if_neg hlt']
    simp [shareNode, Manager.withLimit, hne, hput, hlt]

/-- Sharing a node whose high edge carries no complement mark. -/
theorem shareNode_delivers (hd : d.WellFormed) (hv : v ≠ 0) (hlow : d.Valid low)
    (hhigh : d.Valid high) (hreg : high.isComplement = false) (hlow' : d.StartsFrom (v + 1) low)
    (hhigh' : d.StartsFrom (v + 1) high) :
    Delivers (shareNode v low high) d fun e d' => d'.Decides v low high e := by
  by_cases heq : low = high
  · -- Both branches agree, and no node is needed.
    have hpure : shareNode v low high = pure low := by
      funext d
      simp [shareNode, heq]
      rfl
    rw [hpure]
    refine .pure hd ⟨hlow, fun env => ?_, hlow'.mono (Nat.le_succ v)⟩
    simp [heq]
  · obtain ⟨i, nodes, hput, hsound, hget, hcase⟩ :=
      hd.shared.put (v := ⟨v, low, high⟩) hv
    have hn : d.Reduced (d.nodeCount + 1) ⟨v, low, high⟩ :=
      ⟨hv, hlow, hhigh, Nat.lt_succ_of_le hlow.index_le, Nat.lt_succ_of_le hhigh.index_le, heq,
        hreg, hlow', hhigh'⟩
    -- The bound is raised if the new node needs an edge beyond it.
    let d' : Manager := ⟨nodes, d.computed, max d.limit (nodes.size + 1)⟩
    have hlimit : nodes.size < max d.limit (nodes.size + 1) := by omega
    have hstep : d.Extends d' ∧ d'.WellFormed := by
      rcases hcase with rfl | ⟨hi, hvalues⟩
      · exact ⟨.of_nodes_eq rfl, hd.withLimit hlimit⟩
      · exact ⟨.of_push hvalues, hd.with_nodes hsound hvalues hlimit hn⟩
    obtain ⟨hext, hwf⟩ := hstep
    -- Old or new, the node is stored under the index that `put` answers.
    have hnode : d'.node (Edge.positive (i + 1)).index = .ok ⟨v, low, high⟩ := by
      rw [Edge.index_positive]
      exact Manager.node_eq_ok.mpr ⟨Nat.succ_ne_zero i, hget⟩
    have hvalid := Manager.valid_of_node hnode
    have h2 : 2 ≤ (Edge.positive (i + 1)).index := by
      by_contra hone
      -- The terminal tests no variable.
      have hzero : i = 0 := by
        rw [Edge.index_positive] at hone
        omega
      have := hwf.terminal
      rw [hzero] at hget
      rw [hget] at this
      cases this
      exact hv rfl
    have hdec := Manager.decides_of_reduced hvalid hnode (hwf.reduced _ _ h2 hnode)
    refine .of_returns hd (shareNode_returns heq hput hget hcase) hext hwf rfl ?_
    simpa [Edge.complementIf] using hdec

/-- Making a node answers the edge of the decision. -/
theorem mkNode_delivers (hd : d.WellFormed) (hv : v ≠ 0) (hlow : d.Valid low) (hhigh : d.Valid high)
    (hlow' : d.StartsFrom (v + 1) low) (hhigh' : d.StartsFrom (v + 1) high) :
    Delivers (mkNode v low high) d fun e d' => d'.Decides v low high e := by
  unfold mkNode
  rw [if_neg hv]
  by_cases hc : high.isComplement = true
  · -- The mark is moved from the high edge to the answer.
    rw [if_pos hc]
    have hreg : (-high).isComplement = false := by
      simp [Edge.isComplement_neg hhigh.index_ne_zero, hc]
    have hshare := shareNode_delivers hd hv hlow.neg hhigh.neg hreg hlow'.neg hhigh'.neg
    exact hshare.bind fun e d' hext hwf hdec =>
      .pure hwf (hdec.neg (hext.valid hlow) (hext.valid hhigh))
  · rw [if_neg hc]
    exact shareNode_delivers hd hv hlow hhigh (by simpa using hc) hlow' hhigh'

/-- The function of a single variable. -/
theorem mkVar_delivers (hd : d.WellFormed) (hv : v ≠ 0) :
    Delivers (mkVar v) d fun e d' =>
      d'.Valid e ∧ d'.StartsFrom v e ∧ ∀ env, d'.value env e = env v := by
  refine (mkNode_delivers hd hv hd.valid_zero hd.valid_one ?_ ?_).imp fun e d' _ _ h =>
    ⟨h.valid, h.startsFrom, fun env => ?_⟩
  · exact Manager.startsFrom_zero
  · exact Manager.startsFrom_one
  · rw [h.value_eq]
    cases env v <;> simp

/-! ## §4 The computed table -/

/-- What changes the computed table alone needs no edges. -/
theorem delivers_of_computed {α : Type} {act : Build α} {Q : α → Manager → Prop} {a : α}
    {computed : ComputedTable Triple Edge} (hd : d.WellFormed)
    (hrun : ∀ limit, act (d.withLimit limit) = .ok (a, ⟨d.nodes, computed, limit⟩))
    (hc : ∀ t e, computed.Stores t e → t.All d.Valid ∧ d.Answers t e)
    (hq : Q a ⟨d.nodes, computed, d.limit⟩) : Delivers act d Q := by
  have hext : d.Extends ⟨d.nodes, computed, d.limit⟩ := .of_nodes_eq rfl
  -- The number of nodes stays, so there is room whenever there was.
  refine .of_returns hd (fun limit hlimit => ?_) hext (hd.with_computed hd.nodeCount_lt hc)
    (max_eq_left hd.nodeCount_lt).symm hq
  have hlimit : Manager.nodeCount ⟨d.nodes, computed, d.limit⟩ < limit := hlimit
  rw [if_pos hlimit, hrun]
  rfl

/-- What is fetched answers the conditional. -/
theorem fetch_delivers (hd : d.WellFormed) (t : Triple) :
    Delivers (fetch t) d fun found d' =>
      d'.nodes = d.nodes ∧ ∀ e, found = some e → d'.Answers t e := by
  have hrun : ∀ limit, fetch t (d.withLimit limit) =
      .ok ((d.computed.fetch t).1, ⟨d.nodes, (d.computed.fetch t).2, limit⟩) := fun _ => rfl
  -- A lookup moves the counters of the table and none of its slots.
  have hstores : ∀ s e, (d.computed.fetch t).2.Stores s e → d.computed.Stores s e := by
    rintro s e ⟨slot, hslot⟩
    exact ⟨slot, by rwa [ComputedTable.slots_fetch] at hslot⟩
  refine delivers_of_computed hd hrun (fun s e hs => hd.computed s e (hstores s e hs))
    ⟨rfl, fun e he => ?_⟩
  rw [ComputedTable.fetch_fst] at he
  obtain ⟨ht, ha⟩ := hd.computed t e (ComputedTable.stores_of_find? he)
  exact ha.mono ht (.of_nodes_eq rfl)

/-- A true answer may be kept. -/
theorem remember_delivers (hd : d.WellFormed) {t : Triple} {e : Edge} (ht : t.All d.Valid)
    (ha : d.Answers t e) : Delivers (remember t e) d fun _ _ => True := by
  refine delivers_of_computed hd (fun _ => rfl) (fun s r hs => ?_) trivial
  -- The pair that is stored is the new one or an old one.
  rcases hs.of_remember with ⟨rfl, rfl⟩ | hold
  · exact ⟨ht, ha⟩
  · exact hd.computed s r hold

end

end Stimulus
