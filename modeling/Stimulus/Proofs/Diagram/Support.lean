import Mathlib.Logic.Relation
import Stimulus.Diagram.Reach
import Stimulus.Proofs.Diagram.Count

/-!
# Reachable nodes and the support

A walk over a diagram visits a node, then the nodes below its low edge, then those below its high
edge, and it turns back at a node that was visited before.  So it visits every node that the edges
lead to, and no other.

The variables of these nodes are the support of a function.  No node of a reduced diagram is
redundant, because its children are different functions.  Hence the support is exactly the list of
variables that the function depends on, and it is the same for the complement.

Main definitions:
- `Manager.Child`, `Manager.LeadsTo`: which nodes the edges of a node lead to
- `Manager.Visits`: what a walk from a node adds to the nodes seen before
- `Manager.TestedBelow`: a variable is tested at a node that the edge leads to

Main statements:
- `Manager.WellFormed.descendants_ok`
- `Manager.WellFormed.dependsOn_iff_testedBelow`
- `support_of_reached`
-/

namespace Stimulus

open Relation

namespace Manager

variable {d : Manager} {i j k v : Nat} {seen seen₁ seen₂ : Std.TreeSet Nat}

/-! ## §1 Reachable nodes -/

/-- Every stored node but the terminal is reduced. -/
theorem WellFormed.reduced_of_node (hd : d.WellFormed) {n : Node} (hi : i ≠ 1)
    (hn : d.node i = .ok n) : d.Reduced i n := by
  have hpos := (le_nodeCount_of_node hn).1
  exact hd.reduced i n (by omega) hn

/-- Node `i` is a decision, and one of its edges leads to node `j`. -/
def Child (d : Manager) (i j : Nat) : Prop :=
  i ≠ 1 ∧ ∃ n, d.node i = .ok n ∧ (j = n.low.index ∨ j = n.high.index)

/-- Edges lead from node `i` to node `j`, possibly through other nodes. -/
abbrev LeadsTo (d : Manager) : Nat → Nat → Prop := ReflTransGen d.Child

/-- With every decision the nodes contain both of its children. -/
def ClosedUnder (d : Manager) (seen : Std.TreeSet Nat) : Prop :=
  ∀ j ∈ seen, ∀ k, d.Child j k → k ∈ seen

/-- A closed set contains whatever one of its nodes leads to. -/
theorem ClosedUnder.mem_of_leadsTo (h : d.ClosedUnder seen) (hi : i ∈ seen) (hij : d.LeadsTo i j) :
    j ∈ seen := by
  induction hij with
  | refl => exact hi
  | tail _ hstep ih => exact h _ ih _ hstep

/-- What a walk from node `i` makes of the nodes seen before.  A node that it adds is one that `i`
    leads to, and the walk does not end before both children of that node are seen as well. -/
structure Visits (d : Manager) (i : Nat) (seen seen' : Std.TreeSet Nat) : Prop where
  keeps : ∀ j ∈ seen, j ∈ seen'
  start : i ∈ seen'
  reachable : ∀ j ∈ seen', j ∈ seen ∨ d.LeadsTo i j
  closed : ∀ j ∈ seen', j ∈ seen ∨ ∀ k, d.Child j k → k ∈ seen'

theorem mem_treeSet_insert : j ∈ seen.insert i ↔ j = i ∨ j ∈ seen := by
  rw [Std.TreeSet.mem_insert, Std.LawfulEqCmp.compare_eq_iff_eq, eq_comm]

/-- At a node that was seen before the walk turns back. -/
theorem visits_seen (hi : i ∈ seen) : d.Visits i seen seen where
  keeps _ hj := hj
  start := hi
  reachable _ hj := .inl hj
  closed _ hj := .inl hj

/-- The terminal leads to no other node. -/
theorem visits_terminal : d.Visits 1 seen (seen.insert 1) where
  keeps _ hj := mem_treeSet_insert.mpr (.inr hj)
  start := mem_treeSet_insert.mpr (.inl rfl)
  reachable j hj := by
    rcases mem_treeSet_insert.mp hj with rfl | hj
    · exact .inr .refl
    · exact .inl hj
  closed j hj := by
    rcases mem_treeSet_insert.mp hj with rfl | hj
    · exact .inr fun k hk => absurd rfl hk.1
    · exact .inl hj

/-- A node is visited before its children, the low one first. -/
theorem Visits.node {n : Node} (hi : i ≠ 1) (hn : d.node i = .ok n)
    (hlow : d.Visits n.low.index (seen.insert i) seen₁)
    (hhigh : d.Visits n.high.index seen₁ seen₂) : d.Visits i seen seen₂ := by
  have hmarked : i ∈ seen.insert i := mem_treeSet_insert.mpr (.inl rfl)
  have hlowStep : d.Child i n.low.index := ⟨hi, n, hn, .inl rfl⟩
  have hhighStep : d.Child i n.high.index := ⟨hi, n, hn, .inr rfl⟩
  constructor
  · intro j hj
    exact hhigh.keeps j (hlow.keeps j (mem_treeSet_insert.mpr (.inr hj)))
  · exact hhigh.keeps i (hlow.keeps i hmarked)
  · intro j hj
    -- A node that is new was reached by one of the two walks, or it is this one.
    rcases hhigh.reachable j hj with hj | hj
    · rcases hlow.reachable j hj with hj | hj
      · rcases mem_treeSet_insert.mp hj with rfl | hj
        · exact .inr .refl
        · exact .inl hj
      · exact .inr (.head hlowStep hj)
    · exact .inr (.head hhighStep hj)
  · intro j hj
    rcases hhigh.closed j hj with hj | hj
    · rcases hlow.closed j hj with hj | hj
      · rcases mem_treeSet_insert.mp hj with rfl | hj
        · -- The node itself: by now both children are seen.
          right
          rintro k ⟨-, m, hm, hk⟩
          obtain rfl : n = m := Except.ok.inj (hn.symm.trans hm)
          rcases hk with rfl | rfl
          · exact hhigh.keeps _ hlow.start
          · exact hhigh.start
        · exact .inl hj
      · exact .inr fun k hk => hhigh.keeps k (hj k hk)
    · exact .inr hj

/-- The walk comes to an end, because nodes lead to smaller indices only. -/
theorem WellFormed.reach_ok (hd : d.WellFormed) (hpos : 1 ≤ i) (hle : i ≤ d.nodeCount)
    (seen : Std.TreeSet Nat) : ∃ seen', d.reach i seen = .ok seen' ∧ d.Visits i seen seen' := by
  induction i using Nat.strongRecOn generalizing seen with
  | _ i ih =>
    rw [reach]
    by_cases hseen : seen.contains i = true
    · rw [if_pos hseen]
      exact ⟨seen, rfl, visits_seen hseen⟩
    · rw [if_neg hseen]
      by_cases hone : i = 1
      · subst hone
        rw [if_pos rfl]
        exact ⟨seen.insert 1, rfl, visits_terminal⟩
      · obtain ⟨n, hn⟩ := d.exists_node hpos hle
        have hred := hd.reduced_of_node hone hn
        rw [if_neg hone, hn]
        dsimp only
        rw [if_pos ⟨hred.low_lt, hred.high_lt⟩]
        -- The low edge is followed with the node marked, the high edge with all that this adds.
        obtain ⟨seen₁, hlow, hvisits₁⟩ := ih n.low.index hred.low_lt hred.low_valid.index_pos
          hred.low_valid.index_le (seen.insert i)
        obtain ⟨seen₂, hhigh, hvisits₂⟩ := ih n.high.index hred.high_lt hred.high_valid.index_pos
          hred.high_valid.index_le seen₁
        refine ⟨seen₂, ?_, .node hone hn hvisits₁ hvisits₂⟩
        rw [hlow]
        exact hhigh

/-- A walk that starts with a closed set ends with one, which has become larger by all that the node
    leads to. -/
theorem Visits.closedUnder (h : d.Visits i seen seen₁) (hseen : d.ClosedUnder seen) :
    d.ClosedUnder seen₁ ∧ ∀ j, j ∈ seen₁ ↔ j ∈ seen ∨ d.LeadsTo i j := by
  have hclosed : d.ClosedUnder seen₁ := by
    intro j hj k hk
    rcases h.closed j hj with hold | hnew
    · exact h.keeps k (hseen j hold k hk)
    · exact hnew k hk
  refine ⟨hclosed, fun j => ⟨h.reachable j, ?_⟩⟩
  rintro (hold | hleads)
  · exact h.keeps j hold
  · exact hclosed.mem_of_leadsTo h.start hleads

/-- Walks that start one after the other, each with the nodes that those before it have seen. -/
theorem WellFormed.walks_ok (hd : d.WellFormed) {edges : List Edge}
    (hedges : ∀ e ∈ edges, d.Valid e) (hseen : d.ClosedUnder seen) :
    ∃ nodes, edges.foldlM (fun seen e => d.reach e.index seen) seen = .ok nodes ∧
      ∀ j, j ∈ nodes ↔ j ∈ seen ∨ ∃ e ∈ edges, d.LeadsTo e.index j := by
  induction edges generalizing seen with
  | nil => exact ⟨seen, rfl, by simp⟩
  | cons e edges ih =>
    obtain ⟨he, hrest⟩ := List.forall_mem_cons.mp hedges
    obtain ⟨seen₁, hreach, hvisits⟩ := hd.reach_ok he.index_pos he.index_le seen
    -- After each walk the seen nodes are closed again, so the next one may start from them.
    obtain ⟨hclosed, hmem⟩ := hvisits.closedUnder hseen
    obtain ⟨nodes, hwalks, hnodes⟩ := ih hrest hclosed
    refine ⟨nodes, ?_, fun j => ?_⟩
    · rw [List.foldlM_cons, hreach]
      exact hwalks
    · rw [hnodes, hmem]
      simp only [List.mem_cons, exists_eq_or_imp, or_assoc]

/-- The descendants of edges are the nodes that they lead to. -/
theorem WellFormed.descendants_ok (hd : d.WellFormed) {edges : List Edge}
    (hedges : ∀ e ∈ edges, d.Valid e) :
    ∃ nodes, d.descendants edges = .ok nodes ∧
      ∀ j, j ∈ nodes ↔ ∃ e ∈ edges, d.LeadsTo e.index j := by
  have hempty : d.ClosedUnder ∅ := fun j hj => absurd hj Std.TreeSet.not_mem_emptyc
  obtain ⟨nodes, hok, hmem⟩ := hd.walks_ok hedges hempty
  refine ⟨nodes, hok, fun j => ?_⟩
  rw [hmem, or_iff_right Std.TreeSet.not_mem_emptyc]

/-- Whatever a stored node leads to is stored. -/
theorem WellFormed.exists_node_of_leadsTo (hd : d.WellFormed) {e : Edge} (he : d.Valid e)
    (h : d.LeadsTo e.index j) : ∃ n, d.node j = .ok n := by
  induction h with
  | refl => exact he.exists_node
  | tail _ hstep _ =>
    obtain ⟨hne, n, hn, hchild⟩ := hstep
    have hred := hd.reduced_of_node hne hn
    rcases hchild with rfl | rfl
    · exact hred.low_valid.exists_node
    · exact hred.high_valid.exists_node

/-! ## §2 The variables of nodes -/

theorem varsOf_ok {nodes : List Nat} (h : ∀ j ∈ nodes, ∃ n, d.node j = .ok n) :
    ∃ vars, d.varsOf nodes = .ok vars ∧
      ∀ v, v ∈ vars ↔ ∃ j ∈ nodes, j ≠ 1 ∧ ∃ n, d.node j = .ok n ∧ n.var = v := by
  induction nodes with
  | nil => exact ⟨∅, rfl, fun v => by simp⟩
  | cons i nodes ih =>
    obtain ⟨⟨n, hn⟩, hrest⟩ := List.forall_mem_cons.mp h
    obtain ⟨vars, hvars, hmem⟩ := ih hrest
    rw [varsOf, hvars]
    by_cases hone : i = 1
    · -- The terminal tests nothing.
      refine ⟨vars, by rw [hone]; rfl, fun v => ?_⟩
      simp [hmem, hone]
    · refine ⟨vars.insert n.var, ?_, fun v => ?_⟩
      · show (if i = 1 then pure vars else d.node i >>= fun n => pure (vars.insert n.var)) = _
        rw [if_neg hone, hn]
        rfl
      · rw [mem_treeSet_insert, hmem]
        simp [hone, hn, eq_comm]

/-! ## §3 Tested variables matter -/

/-- The variable is tested at a node that the edge leads to. -/
def TestedBelow (d : Manager) (e : Edge) (v : Nat) : Prop :=
  ∃ j, d.LeadsTo e.index j ∧ j ≠ 1 ∧ ∃ n, d.node j = .ok n ∧ n.var = v

theorem TestedBelow.head {e f : Edge} (hstep : d.Child e.index f.index)
    (h : d.TestedBelow f v) : d.TestedBelow e v := by
  obtain ⟨j, hleads, hj⟩ := h
  exact ⟨j, .head hstep hleads, hj⟩

/-- A variable that matters is tested: where it makes a difference, it does so at the node itself or
    below the child that the assignment chooses. -/
theorem WellFormed.testedBelow_of_dependsOn (hd : d.WellFormed) {e : Edge} (he : d.Valid e)
    (h : d.DependsOn e v) : d.TestedBelow e v := by
  induction hw : e.index using Nat.strongRecOn generalizing e with
  | _ w ih =>
    obtain ⟨env, b, hne⟩ := h
    have hterm : ¬ e.isTerminal = true := by
      intro hterm
      exact hne (by rw [value_of_isTerminal hterm, value_of_isTerminal hterm])
    obtain ⟨n, hn, hred⟩ := hd.exists_reduced he hterm
    have hone : e.index ≠ 1 := fun hone => hterm (isTerminal_iff.mpr hone)
    by_cases hv : n.var = v
    · exact ⟨e.index, .refl, hone, n, hn, hv⟩
    · -- The assignment chooses the same child before and after the change.
      have hdec := decides_of_reduced he hn hred
      rw [hdec.value_eq, hdec.value_eq, Function.update_of_ne hv] at hne
      cases hchoice : env n.var with
      | false =>
        rw [hchoice] at hne
        have hlow : d.TestedBelow (n.low.complementIf e.isComplement) v :=
          ih _ (by simpa [← hw] using hred.low_lt) (hred.low_valid.complementIf _)
            ⟨env, b, hne⟩ rfl
        exact hlow.head ⟨hone, n, hn, .inl (by simp)⟩
      | true =>
        rw [hchoice] at hne
        have hhigh : d.TestedBelow (n.high.complementIf e.isComplement) v :=
          ih _ (by simpa [← hw] using hred.high_lt) (hred.high_valid.complementIf _)
            ⟨env, b, hne⟩ rfl
        exact hhigh.head ⟨hone, n, hn, .inr (by simp)⟩

/-- A tested variable matters: it matters to the node that tests it, because the children of that
    node differ, and a node depends on whatever its children depend on. -/
theorem WellFormed.dependsOn_of_testedBelow (hd : d.WellFormed) {e : Edge} (he : d.Valid e)
    (h : d.TestedBelow e v) : d.DependsOn e v := by
  obtain ⟨j, hleads, hone, n, hn, rfl⟩ := h
  induction hi : e.index using Nat.strongRecOn generalizing e with
  | _ i ih =>
    -- The test is at this node or below one of its children.
    rcases hleads.cases_head with heq | ⟨k, ⟨hne, m, hm, hk⟩, hrest⟩
    · rw [← heq] at hone hn
      exact hd.dependsOn_var he hn (hd.reduced_of_node hone hn)
    · have hred := hd.reduced_of_node hne hm
      have hchild := fun env => hd.value_child he hm hred env
      rcases hk with rfl | rfl
      · have hlow := ih _ (by simpa [← hi] using hred.low_lt)
          (hred.low_valid.complementIf e.isComplement) (by simpa using hrest) rfl
        exact .of_fixed (fun env => (hchild env).1) hlow
      · have hhigh := ih _ (by simpa [← hi] using hred.high_lt)
          (hred.high_valid.complementIf e.isComplement) (by simpa using hrest) rfl
        exact .of_fixed (fun env => (hchild env).2) hhigh

theorem WellFormed.dependsOn_iff_testedBelow (hd : d.WellFormed) {e : Edge} (he : d.Valid e) :
    d.DependsOn e v ↔ d.TestedBelow e v :=
  ⟨hd.testedBelow_of_dependsOn he, hd.dependsOn_of_testedBelow he⟩

/-- A variable matters if turning it round makes a difference somewhere. -/
theorem dependsOn_iff_flip {e : Edge} :
    d.DependsOn e v ↔ ∃ env, d.value (Function.update env v (!env v)) e ≠ d.value env e := by
  constructor
  · rintro ⟨env, b, hne⟩
    refine ⟨env, ?_⟩
    -- The change is no change unless it turns the variable round.
    rcases Bool.eq_or_eq_not b (env v) with rfl | rfl
    · exact absurd (by rw [Function.update_eq_self]) hne
    · exact hne
  · rintro ⟨env, hne⟩
    exact ⟨env, _, hne⟩

/-! ## §4 The support -/

/-- Complements have the same support, because a walk does not look at marks. -/
theorem support_neg (d : Manager) (e : Edge) : d.support (-e) = d.support e := by
  simp only [support, descendants, List.foldlM_cons, Edge.index_neg]

/-- The support lists the variables that a function depends on in ascending order. -/
theorem WellFormed.support_ok (hd : d.WellFormed) {e : Edge} (he : d.Valid e) :
    ∃ vars, d.support e = .ok vars ∧ vars.Pairwise (· < ·) ∧ ∀ v, v ∈ vars ↔ d.DependsOn e v := by
  have hedges : ∀ f ∈ [e], d.Valid f := by simpa using he
  obtain ⟨nodes, hnodes, hleads⟩ := hd.descendants_ok hedges
  have hleads : ∀ j, j ∈ nodes.toList ↔ d.LeadsTo e.index j := by
    intro j
    rw [Std.TreeSet.mem_toList, hleads]
    simp
  -- All nodes that the edge leads to are stored, so every one of them has a variable.
  have hstored : ∀ j ∈ nodes.toList, ∃ n, d.node j = .ok n := fun j hj =>
    hd.exists_node_of_leadsTo he ((hleads j).mp hj)
  obtain ⟨vars, hvars, hmem⟩ := varsOf_ok hstored
  refine ⟨vars.toList, ?_, ?_, fun v => ?_⟩
  · rw [support, hnodes]
    show (d.varsOf nodes.toList >>= fun vars => pure vars.toList) = _
    rw [hvars]
    rfl
  · exact Std.TreeSet.ordered_toList.imp fun h => Nat.compare_eq_lt.mp h
  · rw [Std.TreeSet.mem_toList, hmem, hd.dependsOn_iff_testedBelow he]
    exact exists_congr fun j => and_congr_left fun _ => hleads j

end Manager

/-- In a manager that a run leads to, the support of every function ascends strictly, it contains a
    variable exactly if turning that variable round changes the function somewhere, and the
    complement has the same support. -/
theorem support_of_reached {d : Manager} {es : List Edge} (h : d.Reached es) {f : Edge}
    (hf : d.Valid f) :
    ∃ vars, d.support f = .ok vars ∧ vars.Pairwise (· < ·) ∧
      (∀ v, v ∈ vars ↔ ∃ env, d.value (Function.update env v (!env v)) f ≠ d.value env f) ∧
      d.support (-f) = .ok vars := by
  obtain ⟨vars, hvars, hascending, hmem⟩ := h.wellFormed.support_ok hf
  refine ⟨vars, hvars, hascending, fun v => ?_, ?_⟩
  · rw [hmem, Manager.dependsOn_iff_flip]
  · rw [Manager.support_neg, hvars]

/-- Of two variables that are compared, both matter, and one between them does not. -/
theorem support_after_xor : ∃ (d : Manager) (f : Edge) (es : List Edge), d.Reached (f :: es) ∧
    d.Valid f ∧ d.support (-f) = .ok [2, 4] ∧
      (∃ env, d.value (Function.update env 2 (!env 2)) f ≠ d.value env f) ∧
      (∃ env, d.value (Function.update env 4 (!env 4)) f ≠ d.value env f) ∧
      ∀ env, d.value (Function.update env 3 (!env 3)) f = d.value env f := by
  obtain ⟨⟨f, d₃, vars⟩, hrun, hvars⟩ := exists_of_toOption_any (x := do
      let d ← Manager.empty 0
      let r ← mkVar 4 d
      let s ← mkVar 2 r.2
      let t ← xor r.1 s.1 s.2
      let vars ← t.2.support t.1
      pure (t.1, t.2, vars)) (p := fun r => decide (r.2.2 = [2, 4])) (by decide +kernel)
  obtain rfl := of_decide_eq_true hvars
  obtain ⟨d₀, hempty, hrun⟩ := exists_ok_of_bind hrun
  obtain ⟨⟨x, d₁⟩, hx, hrun⟩ := exists_ok_of_bind hrun
  obtain ⟨⟨y, d₂⟩, hy, hrun⟩ := exists_ok_of_bind hrun
  obtain ⟨⟨g, d₃⟩, hg, hrun⟩ := exists_ok_of_bind hrun
  obtain ⟨_, hsupport, hrun⟩ := exists_ok_of_bind hrun
  cases hrun
  have h₀ : d₀.Reached [.one, .zero] := ⟨0, d₀, hempty, .refl⟩
  have h₁ := h₀.operate (.var 4) (by simp [Operation.operands]) trivial hx
  have h₂ := h₁.operate (.var 2) (by simp [Operation.operands]) trivial hy
  have h₃ := h₂.operate (.xor x y) (by simp [Operation.operands]) trivial hg
  have hvalid := h₃.valid g List.mem_cons_self
  obtain ⟨vars, hvars, -, hmem, hneg⟩ := support_of_reached h₃ hvalid
  obtain rfl : [2, 4] = vars := Except.ok.inj (hsupport.symm.trans hvars)
  refine ⟨d₃, g, _, h₃, hvalid, hneg, (hmem 2).mp (by simp), (hmem 4).mp (by simp), ?_⟩
  have hfree := mt (hmem 3).mpr (by simp)
  simpa using hfree

end Stimulus
