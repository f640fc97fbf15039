import Mathlib.Logic.Relation
import Stimulus.Proofs.Diagram.Conditional

/-!
# Runs of a manager

A run starts with an empty manager and applies operations to edges that were answered before.  A
node may only be asked for if its variable lies above those of the two edges.  The invariant of
managers holds after every run, and with it everything that a client relies on.

Main definitions:
- `Operation`, `Operation.run`
- `Manager.Advances`, `Manager.Reached`: one operation, and the states that runs lead to
- `Manager.Lawful`: what a client relies on

Main statement:
- `lawful_of_reached`
-/

namespace Stimulus

open Relation

/-! ## §1 Operations -/

/-- The operations that answer an edge. -/
inductive Operation where
  | var (v : Nat)
  | node (v : Nat) (low high : Edge)
  | not (f : Edge)
  | ite (f g h : Edge)
  | conj (f g : Edge)
  | disj (f g : Edge)
  | xor (f g : Edge)
  | iff (f g : Edge)
  | imply (f g : Edge)
  | conjAll (fs : List Edge)
  | disjAny (fs : List Edge)

namespace Operation

/-- What an operation computes. -/
def run : Operation → Build Edge
  | .var v => mkVar v
  | .node v low high => mkNode v low high
  | .not f => pure (-f)
  | .ite f g h => Stimulus.ite f g h
  | .conj f g => Stimulus.conj f g
  | .disj f g => Stimulus.disj f g
  | .xor f g => Stimulus.xor f g
  | .iff f g => Stimulus.iff f g
  | .imply f g => Stimulus.imply f g
  | .conjAll fs => Stimulus.conjAll fs
  | .disjAny fs => Stimulus.disjAny fs

/-- The edges that an operation is applied to. -/
def operands : Operation → List Edge
  | .var _ => []
  | .node _ low high => [low, high]
  | .not f => [f]
  | .ite f g h => [f, g, h]
  | .conj f g | .disj f g | .xor f g | .iff f g | .imply f g => [f, g]
  | .conjAll fs | .disjAny fs => fs

/-- A node is asked for in the order of the variables. -/
def Ordered (d : Manager) : Operation → Prop
  | .node v low high => d.StartsFrom (v + 1) low ∧ d.StartsFrom (v + 1) high
  | _ => True

/-- The variable zero, which no node tests, is not asked for. -/
def Positive : Operation → Prop
  | .var v | .node v _ _ => v ≠ 0
  | _ => True

/-- Asking for variable zero has no result. -/
theorem positive_of_run {op : Operation} {d d' : Manager} {e : Edge}
    (h : op.run d = .ok (e, d')) : op.Positive := by
  cases op with
  | var v =>
    rintro rfl
    cases h
  | node v low high =>
    rintro rfl
    cases h
  | _ => trivial

/-- Every operation on valid edges answers a valid edge. -/
theorem run_delivers {op : Operation} {d : Manager} (hd : d.WellFormed)
    (hops : ∀ f ∈ op.operands, d.Valid f) (hord : op.Ordered d) (hpos : op.Positive) :
    Delivers op.run d fun e d' => d'.Valid e := by
  -- Every operation has its own description; what is kept of it here is that the answer is valid.
  cases op with
  | var v => exact (mkVar_delivers hd hpos).imp fun e d' _ _ h => h.1
  | node v low high =>
    have hlow := hops low (by simp [operands])
    have hhigh := hops high (by simp [operands])
    exact (mkNode_delivers hd hpos hlow hhigh hord.1 hord.2).imp fun e d' _ _ h => h.valid
  | not f => exact .pure hd (hops f (by simp [operands])).neg
  | ite f g h =>
    have hf := (hops f (by simp [operands])).denotes
    have hg := (hops g (by simp [operands])).denotes
    exact (ite_delivers hd hf hg (hops h (by simp [operands])).denotes).valid
  | conj f g =>
    have hf := (hops f (by simp [operands])).denotes
    exact (conj_delivers hd hf (hops g (by simp [operands])).denotes).valid
  | disj f g =>
    have hf := (hops f (by simp [operands])).denotes
    exact (disj_delivers hd hf (hops g (by simp [operands])).denotes).valid
  | xor f g =>
    have hf := (hops f (by simp [operands])).denotes
    exact (xor_delivers hd hf (hops g (by simp [operands])).denotes).valid
  | iff f g =>
    have hf := (hops f (by simp [operands])).denotes
    exact (iff_delivers hd hf (hops g (by simp [operands])).denotes).valid
  | imply f g =>
    have hf := (hops f (by simp [operands])).denotes
    exact (imply_delivers hd hf (hops g (by simp [operands])).denotes).valid
  | conjAll fs => exact (conjAll_delivers hd hops).valid
  | disjAny fs => exact (disjAny_delivers hd hops).valid

end Operation

/-! ## §2 Runs -/

namespace Manager

/-- One operation of a run: a manager and the edges answered so far become a manager that has
    answered one more. -/
inductive Advances : Manager × List Edge → Manager × List Edge → Prop where
  | operate {d d' : Manager} {es : List Edge} {e : Edge} (op : Operation)
      (hops : ∀ f ∈ op.operands, f ∈ es) (hord : op.Ordered d) (hrun : op.run d = .ok (e, d')) :
      Advances (d, es) (d', e :: es)

/-- A run leads to manager `d`, and `es` are the edges it has answered, the constants included. -/
def Reached (d : Manager) (es : List Edge) : Prop :=
  ∃ bits d₀, Manager.empty bits = .ok d₀ ∧ ReflTransGen Advances (d₀, [.one, .zero]) (d, es)

/-- The manager is well formed and all answered edges are valid. -/
structure Sound (s : Manager × List Edge) : Prop where
  wellFormed : s.1.WellFormed
  valid : ∀ e ∈ s.2, s.1.Valid e

theorem Advances.sound {s s' : Manager × List Edge} (h : Advances s s') (hs : Sound s) :
    Sound s' ∧ s.1.Extends s'.1 := by
  obtain ⟨op, hops, hord, hrun⟩ := h
  have hvalid := fun f hf => hs.valid f (hops f hf)
  obtain ⟨hext, hwf, he⟩ :=
    (op.run_delivers hs.wellFormed hvalid hord (Operation.positive_of_run hrun)).of_run hrun
  refine ⟨⟨hwf, fun f hf => ?_⟩, hext⟩
  rcases List.mem_cons.mp hf with rfl | hold
  · exact he
  · exact hext.valid (hs.valid f hold)

theorem sound_of_advances {s s' : Manager × List Edge} (h : ReflTransGen Advances s s')
    (hs : Sound s) : Sound s' ∧ s.1.Extends s'.1 := by
  induction h with
  | refl => exact ⟨hs, .refl _⟩
  | tail _ hstep ih =>
    obtain ⟨hsound, hext⟩ := ih
    obtain ⟨hsound', hext'⟩ := hstep.sound hsound
    exact ⟨hsound', hext.trans hext'⟩

theorem Reached.sound {d : Manager} {es : List Edge} (h : Reached d es) : Sound (d, es) := by
  obtain ⟨bits, d₀, hempty, hrun⟩ := h
  have hwf := wellFormed_empty hempty
  refine (sound_of_advances hrun ⟨hwf, fun e he => ?_⟩).1
  rcases List.mem_cons.mp he with rfl | he
  · exact hwf.valid_one
  · rw [List.mem_singleton.mp he]
    exact hwf.valid_zero

theorem Reached.wellFormed {d : Manager} {es : List Edge} (h : Reached d es) : d.WellFormed :=
  h.sound.wellFormed

theorem Reached.valid {d : Manager} {es : List Edge} (h : Reached d es) :
    ∀ e ∈ es, d.Valid e :=
  h.sound.valid

/-- No operation changes how many edges there are. -/
theorem limit_of_advances {s s' : Manager × List Edge} (h : ReflTransGen Advances s s')
    (hs : Sound s) : s'.1.limit = s.1.limit := by
  induction h with
  | refl => rfl
  | tail hfirst hstep ih =>
    -- The operation has a law only from a well-formed manager.
    obtain ⟨hsound, -⟩ := sound_of_advances hfirst hs
    obtain ⟨op, hops, hord, hrun⟩ := hstep
    have hdelivers := op.run_delivers hsound.wellFormed
      (fun f hf => hsound.valid f (hops f hf)) hord (Operation.positive_of_run hrun)
    exact (hdelivers.limit_eq hrun).trans ih

/-- Every manager of a run has edges for the indices that a signed 32-bit number can hold. -/
theorem Reached.limit_eq {d : Manager} {es : List Edge} (h : Reached d es) :
    d.limit = Edge.indexLimit := by
  obtain ⟨bits, d₀, hempty, hrun⟩ := h
  have h₀ : Reached d₀ [.one, .zero] := ⟨bits, d₀, hempty, .refl⟩
  exact (limit_of_advances hrun h₀.sound).trans (limit_empty hempty)

theorem Reached.operate {d d' : Manager} {es : List Edge} {e : Edge} (h : Reached d es)
    (op : Operation) (hops : ∀ f ∈ op.operands, f ∈ es) (hord : op.Ordered d)
    (hrun : op.run d = .ok (e, d')) : Reached d' (e :: es) := by
  obtain ⟨bits, d₀, hempty, hsteps⟩ := h
  exact ⟨bits, d₀, hempty, hsteps.tail (.operate op hops hord hrun)⟩

/-- A run that asks for two variables and for their conjunction, and then for `act`. -/
theorem exists_reached_of_run {α : Type} (act : Manager → Except Fault α) {a : α}
    (hrun : (do
      let d ← Manager.empty 0
      let r ← mkVar 2 d
      let s ← mkVar 1 r.2
      let t ← conj ⟨2⟩ ⟨3⟩ s.2
      let a ← act t.2
      pure ([r.1, s.1, t.1], a)) = .ok ([⟨2⟩, ⟨3⟩, ⟨4⟩], a)) :
    ∃ d, Reached d [⟨4⟩, ⟨3⟩, ⟨2⟩, .one, .zero] ∧ act d = .ok a := by
  -- Every step of the computation ended, and the three edges are those it answered.
  obtain ⟨d₀, hempty, hrun⟩ := exists_ok_of_bind hrun
  obtain ⟨⟨f, d₁⟩, hf, hrun⟩ := exists_ok_of_bind hrun
  obtain ⟨⟨g, d₂⟩, hg, hrun⟩ := exists_ok_of_bind hrun
  obtain ⟨⟨h, d₃⟩, hh, hrun⟩ := exists_ok_of_bind hrun
  obtain ⟨b, hb, hrun⟩ := exists_ok_of_bind hrun
  cases hrun
  have h₀ : Reached d₀ [.one, .zero] := ⟨0, d₀, hempty, .refl⟩
  have h₁ := h₀.operate (.var 2) (by simp [Operation.operands]) trivial hf
  have h₂ := h₁.operate (.var 1) (by simp [Operation.operands]) trivial hg
  exact ⟨d₃, h₂.operate (.conj ⟨2⟩ ⟨3⟩) (by simp [Operation.operands]) trivial hh, hb⟩

/-- A run that asks for two variables and for their conjunction. -/
theorem exists_reached : ∃ d, Reached d [⟨4⟩, ⟨3⟩, ⟨2⟩, .one, .zero] := by
  obtain ⟨d, h, -⟩ := exists_reached_of_run (fun _ => .ok ()) (a := ()) (by decide +kernel)
  exact ⟨d, h⟩

/-! ## §3 What a client relies on -/

/-- A well-formed manager stores a node under one index only. -/
theorem WellFormed.eq_of_node_eq {d : Manager} (hd : d.WellFormed) {i j : Nat} {n : Node}
    (hi : d.node i = .ok n) (hj : d.node j = .ok n) (hvar : n.var ≠ 0) : i = j := by
  obtain ⟨hi0, hgeti⟩ := node_eq_ok.mp hi
  obtain ⟨hj0, hgetj⟩ := node_eq_ok.mp hj
  have := hd.shared.distinct (i - 1) (j - 1) n hvar hgeti hgetj
  omega

/-- The laws of a manager and of the edges it has answered. -/
structure Lawful (d : Manager) (es : List Edge) : Prop where
  /-- An internal node tests a variable above those that its children test. -/
  ordered : ∀ i n, 2 ≤ i → d.node i = .ok n →
    d.StartsFrom (n.var + 1) n.low ∧ d.StartsFrom (n.var + 1) n.high
  /-- The children of an internal node differ, and its high edge carries no complement mark. -/
  reduced : ∀ i n, 2 ≤ i → d.node i = .ok n → n.low ≠ n.high ∧ n.high.isComplement = false
  /-- An internal node is stored once. -/
  shared : ∀ i j n, 2 ≤ i → d.node i = .ok n → d.node j = .ok n → i = j
  /-- Every entry of the computed table is if-then-else of its key. -/
  computed : ∀ t e, d.computed.Stores t e → ∀ env, d.value env e = d.choice env t
  /-- Edges are signed 32-bit numbers, and every node has one. -/
  limit_eq : d.limit = Edge.indexLimit
  nodeCount_lt : d.nodeCount < Edge.indexLimit
  /-- A conditional on answered edges has an answer, and returns it as long as all nodes that it
      leaves have edges.  Beyond that it runs out of edges, and it has no other fault. -/
  answers : ∀ f ∈ es, ∀ g ∈ es, ∀ h ∈ es, ∃ r d', Returns (ite f g h) d r d' ∧
    ∀ limit env, (d'.withLimit limit).value env r =
      (d.value env f && d.value env g || !d.value env f && d.value env h)
  /-- Whatever a run does next, the edges answered so far keep their functions. -/
  keeps : ∀ d' es', ReflTransGen Advances (d, es) (d', es') →
    ∀ e ∈ es, ∀ env, d'.value env e = d.value env e

end Manager

/-- Every manager that a run leads to is lawful. -/
theorem lawful_of_reached {d : Manager} {es : List Edge} (h : d.Reached es) : d.Lawful es := by
  have hd := h.wellFormed
  refine ⟨?_, ?_, ?_, ?_, h.limit_eq, ?_, ?_, ?_⟩
  · intro i n h2 hn
    have hred := hd.reduced i n h2 hn
    exact ⟨hred.low_below, hred.high_below⟩
  · intro i n h2 hn
    have hred := hd.reduced i n h2 hn
    exact ⟨hred.low_ne_high, hred.high_regular⟩
  · intro i j n h2 hi hj
    exact hd.eq_of_node_eq hi hj (hd.reduced i n h2 hi).var_ne_zero
  · intro t e hs
    exact (hd.computed t e hs).2.value_eq
  · exact h.limit_eq ▸ hd.nodeCount_lt
  · intro f hf g hg k hk
    -- A larger limit leaves the nodes, so the answer still means the conditional.
    obtain ⟨-, r, d', hreturns, -, -, hr, -⟩ :=
      ite_delivers hd (h.valid f hf).denotes (h.valid g hg).denotes (h.valid k hk).denotes
    refine ⟨r, d', hreturns, fun limit env => ?_⟩
    have hext : d'.Extends (d'.withLimit limit) := .of_nodes_eq rfl
    rw [(hr.mono hext).value_eq]
    cases d.value env f <;> simp
  · intro d' es' hrun e he env
    exact (Manager.sound_of_advances hrun h.sound).2.value_eq (h.valid e he) env

/-- The laws hold after a run that has made a conjunction. -/
theorem lawful_after_conj : ∃ d : Manager, d.Reached [⟨4⟩, ⟨3⟩, ⟨2⟩, .one, .zero] ∧
    d.Lawful [⟨4⟩, ⟨3⟩, ⟨2⟩, .one, .zero] := by
  obtain ⟨d, h⟩ := Manager.exists_reached
  exact ⟨d, h, lawful_of_reached h⟩

end Stimulus
