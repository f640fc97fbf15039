import Mathlib.Data.Nat.Basic
import Stimulus.Diagram.Manager
import Stimulus.Proofs.Hashing.UniqueTable

/-!
# What diagrams mean

An edge denotes a Boolean function of the diagram variables: follow the low or the high edge of
every node as the assignment says, and complement the outcome once for each complement mark on the
way.  A manager that stores further nodes leaves the meaning of every edge as it is.

Main definitions:
- `Manager.truth`, `Manager.value`: the function of a node and of an edge
- `Manager.Valid`: an edge that leads to a stored node
- `Manager.StartsFrom`: an edge whose first test is not above a given variable
- `Manager.Extends`: a manager that stores at least the nodes of another
-/

namespace Stimulus

/-! ## §1 Edges -/

namespace Edge

theorem isComplement_neg {e : Edge} (h : e.index ≠ 0) : (-e).isComplement = !e.isComplement := by
  -- Index 0 is the number that is its own negation.
  have hraw : e.raw ≠ 0 := fun h0 => h (by simp [index, h0])
  simp only [isComplement, raw_neg]
  by_cases hneg : e.raw < 0
  · simp [hneg, Int.le_of_lt hneg]
  · simp [hneg]
    omega

/-- An edge is its index together with its complement mark. -/
theorem ext_index {e f : Edge} (hi : e.index = f.index) (hc : e.isComplement = f.isComplement) :
    e = f := by
  obtain ⟨x⟩ := e
  obtain ⟨y⟩ := f
  simp only [index, isComplement, decide_eq_decide] at hi hc
  congr
  -- A number is its absolute value together with its sign.
  omega

theorem isComplement_complementIf {e : Edge} (h : e.index ≠ 0) (flag : Bool) :
    (e.complementIf flag).isComplement = (e.isComplement ^^ flag) := by
  cases flag
  · simp [complementIf]
  · simp [complementIf, isComplement_neg h]

@[simp] theorem index_positive (i : Nat) : (Edge.positive i).index = i := Int.natAbs_natCast i

@[simp] theorem isComplement_positive (i : Nat) : (Edge.positive i).isComplement = false :=
  decide_eq_false (Int.not_lt.mpr (Int.natCast_nonneg i))

end Edge

namespace Manager

/-! ## §2 Looking nodes up -/

theorem node_eq_ok {d : Manager} {i : Nat} {n : Node} :
    d.node i = .ok n ↔ i ≠ 0 ∧ d.nodes.values[i - 1]? = some n :=
  UniqueTable.value_eq_ok

theorem le_nodeCount_of_node {d : Manager} {i : Nat} {n : Node} (h : d.node i = .ok n) :
    1 ≤ i ∧ i ≤ d.nodeCount := by
  obtain ⟨hi, hget⟩ := node_eq_ok.mp h
  obtain ⟨hlt, -⟩ := Array.getElem?_eq_some_iff.mp hget
  simp only [nodeCount, UniqueTable.size]
  omega

theorem exists_node {d : Manager} {i : Nat} (hpos : 1 ≤ i) (hle : i ≤ d.nodeCount) :
    ∃ n, d.node i = .ok n := by
  have hlt : i - 1 < d.nodes.values.size := by
    simp only [nodeCount, UniqueTable.size] at hle
    omega
  exact ⟨d.nodes.values[i - 1], node_eq_ok.mpr ⟨by omega, Array.getElem?_eq_getElem hlt⟩⟩

/-- The edge leads to a stored node. -/
structure Valid (d : Manager) (e : Edge) : Prop where
  index_pos : 1 ≤ e.index
  index_le : e.index ≤ d.nodeCount

theorem Valid.exists_node {d : Manager} {e : Edge} (h : d.Valid e) :
    ∃ n, d.node e.index = .ok n :=
  Manager.exists_node h.index_pos h.index_le

theorem Valid.index_ne_zero {d : Manager} {e : Edge} (h : d.Valid e) : e.index ≠ 0 :=
  Nat.pos_iff_ne_zero.mp h.index_pos

theorem Valid.neg {d : Manager} {e : Edge} (h : d.Valid e) : d.Valid (-e) :=
  ⟨by simpa using h.index_pos, by simpa using h.index_le⟩

theorem Valid.complementIf {d : Manager} {e : Edge} (h : d.Valid e) (flag : Bool) :
    d.Valid (e.complementIf flag) :=
  ⟨by simpa using h.index_pos, by simpa using h.index_le⟩

theorem valid_of_node {d : Manager} {e : Edge} {n : Node} (h : d.node e.index = .ok n) :
    d.Valid e :=
  ⟨(le_nodeCount_of_node h).1, (le_nodeCount_of_node h).2⟩

theorem isTerminal_iff {e : Edge} : e.isTerminal = true ↔ e.index = 1 := by
  simp [Edge.isTerminal]

/-! ## §3 The function of an edge -/

/-- The outcome of node `i` under an assignment.  The terminal is true; every other node hands over
    to its low or its high edge.  Nodes lead to smaller indices only. -/
def truth (d : Manager) (env : Nat → Bool) (i : Nat) : Bool :=
  if i ≤ 1 then true
  else match d.node i with
    | .error _ => true
    | .ok n =>
      -- The assignment chooses the child, and a mark on the way to it turns the outcome round.
      let child := if env n.var then n.high else n.low
      if child.index < i then d.truth env child.index ^^ child.isComplement else true
termination_by i

/-- The outcome of an edge under an assignment. -/
def value (d : Manager) (env : Nat → Bool) (e : Edge) : Bool :=
  d.truth env e.index ^^ e.isComplement

/-- What a conditional answers under an assignment. -/
def choice (d : Manager) (env : Nat → Bool) (t : Triple) : Bool :=
  if d.value env t.cond then d.value env t.yes else d.value env t.no

section

variable {d : Manager} {env : Nat → Bool}

@[simp] theorem truth_one : d.truth env 1 = true := by
  rw [truth, if_pos (Nat.le_refl 1)]

@[simp] theorem value_one : d.value env .one = true := by
  simp [value, Edge.one, Edge.index, Edge.isComplement]

@[simp] theorem value_zero : d.value env .zero = false := by
  simp [value, Edge.zero, Edge.index, Edge.isComplement]

theorem value_neg {e : Edge} (h : e.index ≠ 0) : d.value env (-e) = !d.value env e := by
  simp [value, Edge.isComplement_neg h]

theorem value_complementIf {e : Edge} (h : e.index ≠ 0) (flag : Bool) :
    d.value env (e.complementIf flag) = (d.value env e ^^ flag) := by
  simp [value, Edge.isComplement_complementIf h]

theorem value_of_isTerminal {e : Edge} (h : e.isTerminal = true) :
    d.value env e = !e.isComplement := by
  simp [value, isTerminal_iff.mp h]

/-- A terminal edge is one of the two constants. -/
theorem eq_one_or_eq_zero {e : Edge} (h : e.isTerminal = true) : e = .one ∨ e = .zero := by
  have hi := isTerminal_iff.mp h
  cases hc : e.isComplement with
  | false => exact .inl (Edge.ext_index hi hc)
  | true => exact .inr (Edge.ext_index hi hc)

/-- A stored node hands over to the child that the assignment chooses. -/
theorem truth_node {i : Nat} {n : Node} (h2 : 2 ≤ i) (hn : d.node i = .ok n)
    (hlow : n.low.index < i) (hhigh : n.high.index < i) :
    d.truth env i = if env n.var then d.value env n.high else d.value env n.low := by
  -- Nodes from index 2 on are not the terminal.
  rw [truth, if_neg (by omega), hn]
  cases henv : env n.var with
  | false => simp [henv, value, hlow]
  | true => simp [henv, value, hhigh]

end

/-! ## §4 The first test of an edge -/

/-- The edge is terminal, or its first test is of variable `v` or of one further down. -/
def StartsFrom (d : Manager) (v : Nat) (e : Edge) : Prop :=
  e.isTerminal = true ∨ ∃ n, d.node e.index = .ok n ∧ v ≤ n.var

section

variable {d : Manager} {v w : Nat} {e : Edge}

@[simp] theorem startsFrom_one : d.StartsFrom v .one := .inl rfl

@[simp] theorem startsFrom_zero : d.StartsFrom v .zero := .inl rfl

theorem startsFrom_of_index_eq {f : Edge} (hi : e.index = f.index) (h : d.StartsFrom v e) :
    d.StartsFrom v f := by
  unfold StartsFrom at h ⊢
  rwa [isTerminal_iff, ← hi, ← isTerminal_iff]

theorem StartsFrom.neg (h : d.StartsFrom v e) : d.StartsFrom v (-e) :=
  startsFrom_of_index_eq (by simp) h

theorem StartsFrom.complementIf (h : d.StartsFrom v e) (flag : Bool) :
    d.StartsFrom v (e.complementIf flag) :=
  startsFrom_of_index_eq (by simp) h

theorem StartsFrom.mono (h : d.StartsFrom w e) (hv : v ≤ w) : d.StartsFrom v e := by
  rcases h with h | ⟨n, hn, hw⟩
  · exact .inl h
  · exact .inr ⟨n, hn, Nat.le_trans hv hw⟩

/-- A stored node tests the variable that its edge starts from, or one further down. -/
theorem StartsFrom.le_var {n : Node} (h : d.StartsFrom v e) (ht : ¬ e.isTerminal = true)
    (hn : d.node e.index = .ok n) : v ≤ n.var := by
  rcases h with h | ⟨m, hm, hle⟩
  · exact absurd h ht
  · have hmn : m = n := Except.ok.inj (hm.symm.trans hn)
    exact hmn ▸ hle

end

/-! ## §5 Managers that store more -/

/-- Every node of the first manager is stored in the second under the same index. -/
def Extends (d d' : Manager) : Prop :=
  ∀ (i : Nat) (n : Node), d.nodes.values[i]? = some n → d'.nodes.values[i]? = some n

namespace Extends

theorem refl (d : Manager) : d.Extends d := fun _ _ h => h

theorem trans {d₁ d₂ d₃ : Manager} (h₁ : d₁.Extends d₂) (h₂ : d₂.Extends d₃) : d₁.Extends d₃ :=
  fun i n h => h₂ i n (h₁ i n h)

theorem of_nodes_eq {d d' : Manager} (h : d'.nodes = d.nodes) : d.Extends d' := by
  intro i n hi
  rwa [h]

theorem of_push {d d' : Manager} {n : Node} (h : d'.nodes.values = d.nodes.values.push n) :
    d.Extends d' := by
  intro i m hi
  obtain ⟨hlt, -⟩ := Array.getElem?_eq_some_iff.mp hi
  rw [h, Array.getElem?_push_lt hlt, ← Array.getElem?_eq_getElem hlt, hi]

variable {d d' : Manager} (h : d.Extends d')

include h

theorem node {i : Nat} {n : Node} (hn : d.node i = .ok n) : d'.node i = .ok n := by
  obtain ⟨hi, hget⟩ := node_eq_ok.mp hn
  exact node_eq_ok.mpr ⟨hi, h _ _ hget⟩

theorem nodeCount_le : d.nodeCount ≤ d'.nodeCount := by
  by_cases hzero : d.nodeCount = 0
  · omega
  · obtain ⟨n, hn⟩ := d.exists_node (Nat.one_le_iff_ne_zero.mpr hzero) (Nat.le_refl _)
    exact (le_nodeCount_of_node (h.node hn)).2

theorem valid {e : Edge} (he : d.Valid e) : d'.Valid e :=
  ⟨he.index_pos, Nat.le_trans he.index_le h.nodeCount_le⟩

theorem startsFrom {v : Nat} {e : Edge} (he : d.StartsFrom v e) : d'.StartsFrom v e := by
  rcases he with he | ⟨n, hn, hv⟩
  · exact .inl he
  · exact .inr ⟨n, h.node hn, hv⟩

/-- The outcome of an old node is computed from old nodes. -/
theorem truth_eq (env : Nat → Bool) {i : Nat} (hi : i ≤ d.nodeCount) :
    d'.truth env i = d.truth env i := by
  induction i using Nat.strongRecOn with
  -- The induction is on the index: the chosen child is stored further down.
  | _ i ih =>
    by_cases hone : i ≤ 1
    · rw [truth, truth, if_pos hone, if_pos hone]
    · obtain ⟨n, hn⟩ := d.exists_node (by omega) hi
      rw [truth, truth, if_neg hone, if_neg hone, hn, h.node hn]
      -- Both managers read the same node, and so choose the same child.
      dsimp only
      generalize (if env n.var = true then n.high else n.low) = child
      by_cases hlt : child.index < i
      · rw [if_pos hlt, if_pos hlt, ih _ hlt (by omega)]
      · rw [if_neg hlt, if_neg hlt]

/-- An old edge keeps its meaning. -/
theorem value_eq {e : Edge} (he : d.Valid e) (env : Nat → Bool) :
    d'.value env e = d.value env e := by
  rw [value, value, h.truth_eq env he.index_le]

end Extends

end Manager

end Stimulus
