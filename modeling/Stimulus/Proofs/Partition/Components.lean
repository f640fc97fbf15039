import Mathlib.Logic.Relation
import Mathlib.Data.List.Forall2
import Mathlib.Order.Monotone.Basic
import Mathlib.Tactic.Tauto
import Stimulus.Partition

/-!
# Partitions are connected components

Two constraints are adjacent when they share a variable.  A partition gathers everything that its
oldest constraint is linked to, and it stops only when no constraint that is left has one of its
variables.  So the partitions of a pool are the connected components of this graph, and a constraint
without variables is a component of its own.

Main definitions:
- `Constraint.Adjacent`, `Linked`: the graph of a pool
- `Gathering.Grown`: the invariant of a partition under construction
- `Components`: the partitions of a pool

Main statements:
- `components_partitionPool`
- `components_of_merged`
-/

namespace Stimulus

open Relation

/-! ## §1 Constraints that share variables -/

/-- Two constraints share a variable. -/
def Constraint.Adjacent (c d : Constraint) : Prop := ∃ v, v ∈ c.support ∧ v ∈ d.support

/-- Two constraints are joined by a chain of constraints of the pool in which neighbours share a
    variable. -/
def Linked (pool : List Constraint) : Constraint → Constraint → Prop :=
  ReflTransGen fun c d => c ∈ pool ∧ d ∈ pool ∧ c.Adjacent d

theorem Constraint.Adjacent.symm {c d : Constraint} (h : c.Adjacent d) : d.Adjacent c := by
  obtain ⟨v, hc, hd⟩ := h
  exact ⟨v, hd, hc⟩

namespace Linked

variable {pool pool' : List Constraint} {c d e : Constraint}

theorem refl (pool : List Constraint) (c : Constraint) : Linked pool c c := ReflTransGen.refl

theorem trans (h : Linked pool c d) (h' : Linked pool d e) : Linked pool c e :=
  ReflTransGen.trans h h'

theorem symm (h : Linked pool c d) : Linked pool d c := by
  induction h with
  | refl => exact refl pool c
  | tail _ hstep ih => exact .head ⟨hstep.2.1, hstep.1, hstep.2.2.symm⟩ ih

theorem of_adjacent (hc : c ∈ pool) (hd : d ∈ pool) (h : c.Adjacent d) : Linked pool c d :=
  .single ⟨hc, hd, h⟩

theorem mono (hsub : ∀ c ∈ pool, c ∈ pool') (h : Linked pool c d) : Linked pool' c d := by
  induction h with
  | refl => exact refl pool' c
  | tail _ hstep ih => exact ih.tail ⟨hsub _ hstep.1, hsub _ hstep.2.1, hstep.2.2⟩

end Linked

theorem Constraint.touches_iff {c : Constraint} {support : Std.TreeSet Nat} :
    c.touches support = true ↔ ∃ v, v ∈ c.support ∧ v ∈ support := by
  simp only [touches, List.any_eq_true, Std.TreeSet.mem_toList, Std.TreeSet.contains_iff_mem]

theorem mem_joinSupport {support : Std.TreeSet Nat} {c : Constraint} {v : Nat} :
    v ∈ joinSupport support c ↔ v ∈ support ∨ v ∈ c.support := by
  have hfold : ∀ (ids : List Nat) (s : Std.TreeSet Nat),
      v ∈ ids.foldl (·.insert ·) s ↔ v ∈ s ∨ v ∈ ids := by
    intro ids
    induction ids with
    | nil => simp
    | cons id ids ih =>
      intro s
      rw [List.foldl_cons, ih, Std.TreeSet.mem_insert, Std.LawfulEqCmp.compare_eq_iff_eq,
        List.mem_cons]
      tauto
  rw [joinSupport, hfold, Std.TreeSet.mem_toList]

theorem mem_foldl_joinSupport {cs : List Constraint} {support : Std.TreeSet Nat} {v : Nat} :
    v ∈ cs.foldl joinSupport support ↔ v ∈ support ∨ ∃ c ∈ cs, v ∈ c.support := by
  induction cs generalizing support with
  | nil => simp
  | cons c cs ih =>
    rw [List.foldl_cons, ih, mem_joinSupport]
    simp only [List.mem_cons, exists_eq_or_imp, or_assoc]

/-! ## §2 Gathering one partition -/

namespace Gathering

/-- A partition under construction: what it has and what is left make up the pool, its support is
    that of its members, and they are all linked to the constraint that it grows from. -/
structure Grown (seed : Constraint) (pool : List Constraint) (g : Gathering) : Prop where
  perm : (g.members ++ g.left).Perm (seed :: pool)
  support : ∀ v, v ∈ g.support ↔ ∃ c ∈ g.members, v ∈ c.support
  seed_mem : seed ∈ g.members
  linked : ∀ c ∈ g.members, Linked (seed :: pool) seed c
  left : ∃ stays : Constraint → Bool, g.left = pool.filter stays
  alone : seed.support.isEmpty = true → g.members = [seed]

variable {seed : Constraint} {pool : List Constraint} {g : Gathering}

theorem grown_start (seed : Constraint) (pool : List Constraint) :
    Grown seed pool ⟨[seed], joinSupport ∅ seed, pool⟩ where
  perm := .refl _
  support v := by simp [mem_joinSupport]
  seed_mem := List.mem_singleton_self seed
  linked c hc := by
    rw [List.mem_singleton.mp hc]
    exact .refl _ _
  left := ⟨fun _ => true, by rw [List.filter_eq_self.mpr fun _ _ => rfl]⟩
  alone _ := rfl

/-- A constraint that touches the support shares a variable with a member. -/
theorem Grown.linked_of_touches (h : Grown seed pool g) {c : Constraint} (hc : c ∈ g.left)
    (ht : c.touches g.support = true) : Linked (seed :: pool) seed c := by
  obtain ⟨v, hv, hsupport⟩ := Constraint.touches_iff.mp ht
  obtain ⟨d, hd, hvd⟩ := (h.support v).mp hsupport
  have hmem : ∀ x ∈ g.members ++ g.left, x ∈ seed :: pool := fun x hx => h.perm.subset hx
  exact (h.linked d hd).trans
    (.of_adjacent (hmem d (by simp [hd])) (hmem c (by simp [hc])) ⟨v, hvd, hv⟩)

theorem Grown.round (h : Grown seed pool g) : Grown seed pool g.round where
  perm := by
    -- Those who join and those who stay are what was left.
    have hsplit := List.filter_append_perm (·.touches g.support) g.left
    rw [Gathering.round, List.append_assoc]
    exact (hsplit.append_left g.members).trans h.perm
  support v := by
    simp only [Gathering.round, mem_foldl_joinSupport, h.support, List.mem_append, or_and_right,
      exists_or]
  seed_mem := List.mem_append_left _ h.seed_mem
  linked c hc := by
    rcases List.mem_append.mp hc with hold | hnew
    · exact h.linked c hold
    · obtain ⟨hleft, ht⟩ := List.mem_filter.mp hnew
      exact h.linked_of_touches hleft ht
  left := by
    obtain ⟨stays, hleft⟩ := h.left
    refine ⟨fun c => !c.touches g.support && stays c, ?_⟩
    show g.left.filter _ = _
    rw [hleft, List.filter_filter]
  alone hempty := by
    -- Without a variable nothing is touched.
    have hmembers := h.alone hempty
    have hnone : ∀ c ∈ g.left, ¬ c.touches g.support = true := by
      intro c _ ht
      obtain ⟨v, -, hv⟩ := Constraint.touches_iff.mp ht
      obtain ⟨d, hd, hvd⟩ := (h.support v).mp hv
      rw [hmembers, List.mem_singleton] at hd
      subst hd
      exact Std.TreeSet.not_mem_of_isEmpty hempty hvd
    show g.members ++ g.left.filter _ = [seed]
    rw [List.filter_eq_nil_iff.mpr hnone, List.append_nil, hmembers]

theorem Grown.close (h : Grown seed pool g) : Grown seed pool g.close := by
  fun_induction Gathering.close g with
  | case1 g _ ih => exact ih h.round
  | case2 g _ => exact h

/-- In the end no constraint that is left has a variable of the partition. -/
theorem not_touches_of_mem_left_close (g : Gathering) :
    ∀ c ∈ g.close.left, ¬ c.touches g.close.support = true := by
  fun_induction Gathering.close g with
  | case1 g _ ih => exact ih
  | case2 g hsame =>
    -- The last round has moved nothing.
    have hle : g.left.length ≤ (g.left.filter (!·.touches g.support)).length :=
      Nat.le_of_not_lt hsame
    intro c hc
    have hall := List.length_filter_eq_length_iff.mp
      (Nat.le_antisymm (List.length_filter_le _ _) hle) c hc
    simpa using hall

end Gathering

open Gathering in
/-- What is gathered around a constraint, and what is left. -/
theorem grown_gather (c : Constraint) (pool : List Constraint) : Grown c pool (gather c pool) :=
  (grown_start c pool).close

theorem disjoint_gather (c : Constraint) (pool : List Constraint) :
    ∀ d ∈ (gather c pool).left, ∀ v ∈ d.support, v ∉ (gather c pool).support :=
  fun d hd v hv hsupport => Gathering.not_touches_of_mem_left_close _ d hd
    (Constraint.touches_iff.mpr ⟨v, hv, hsupport⟩)

/-! ## §3 All partitions -/

namespace Partition

/-- A partition in finished form: its support is that of its constraints, which stand in descending
    order of their ids, and a constraint without variables has no company. -/
structure Finished (p : Partition) : Prop where
  support : ∀ v, v ∈ p.support ↔ ∃ c ∈ p.constraints, v ∈ c.support
  descending : p.constraints.Pairwise fun c d => d.id ≤ c.id
  alone : ∀ c ∈ p.constraints, c.support.isEmpty = true → p.constraints = [c]

open Classical in
/-- The constraints on one variable alone are the hard constraints whose support it is, in the order
    of the partition. -/
theorem singleOn_eq (p : Partition) (v : Nat) :
    p.singleOn v = p.constraints.filter fun c =>
      c.isHard && decide (∀ w, w ∈ c.support ↔ w = v) := by
  refine List.filter_congr fun c _ => ?_
  congr 1
  rw [Bool.eq_iff_iff, beq_iff_eq, decide_eq_true_iff]
  constructor
  · intro hlist w
    rw [← Std.TreeSet.mem_toList, hlist, List.mem_singleton]
  · -- Both lists ascend strictly and have the same members.
    intro hsupport
    have hordered : c.support.toList.Pairwise (· < ·) :=
      Std.TreeSet.ordered_toList.imp fun h => Nat.compare_eq_lt.mp h
    have hperm : c.support.toList.Perm [v] := by
      have hnodup := hordered.imp Nat.ne_of_lt
      refine (List.perm_ext_iff_of_nodup hnodup (List.pairwise_singleton _ v)).mpr fun w => ?_
      rw [Std.TreeSet.mem_toList, hsupport, List.mem_singleton]
    exact List.perm_singleton.mp hperm

end Partition

namespace Gathering

variable {seed : Constraint} {pool : List Constraint} {g : Gathering}

theorem finish_perm (g : Gathering) : g.finish.constraints.Perm g.members :=
  List.mergeSort_perm _ _

theorem Grown.finished (h : Grown seed pool g) : g.finish.Finished where
  support v := by
    simp only [finish_perm g |>.mem_iff]
    exact h.support v
  -- Finishing sorts the members, latest first.
  descending := by
    have hsorted : g.finish.constraints.Pairwise fun a b => decide (b.id ≤ a.id) = true :=
      List.pairwise_mergeSort (fun a b c hab hbc => by
        simp only [decide_eq_true_eq] at *
        omega)
      (fun a b => by
        simp only [Bool.or_eq_true, decide_eq_true_eq]
        omega) g.members
    exact hsorted.imp fun hle => of_decide_eq_true hle
  alone c hc hempty := by
    -- A member other than the seed would be linked to it by one of its variables.
    have hc := (finish_perm g).mem_iff.mp hc
    have hseed : c = seed := by
      rcases ReflTransGen.cases_tail (h.linked c hc) with heq | ⟨d, -, -, -, v, -, hv⟩
      · exact heq
      · exact absurd hv (Std.TreeSet.not_mem_of_isEmpty hempty)
    subst hseed
    have hperm := finish_perm g
    rw [h.alone hempty] at hperm
    exact List.perm_singleton.mp hperm

end Gathering

/-! ## §4 The order of partitions -/

/-- The place in the pool of the oldest constraint of a partition.  Only a constraint without
    variables, which is a partition of its own, can have an equal one at an earlier place. -/
def Partition.OldestAt (pool : List Constraint) (p : Partition) (i : Nat) : Prop :=
  ∃ c, pool[i]? = some c ∧ c ∈ p.constraints ∧
    ∀ j < i, ∀ d, pool[j]? = some d → d ∈ p.constraints → d.support.isEmpty = true

/-- The places that the members of a filtered list had before: they keep their order, and every
    place of something that stays is among them. -/
theorem exists_places_of_filter {α : Type} (stays : α → Bool) (l : List α) :
    ∃ place : Nat → Nat, StrictMono place ∧ (∀ i, (l.filter stays)[i]? = l[place i]?) ∧
      ∀ (j : Nat) (a : α), l[j]? = some a → stays a = true → ∃ i, place i = j := by
  -- The place of a member is its position plus what was filtered out before it.
  induction l with
  | nil => exact ⟨id, strictMono_id, by simp, by simp⟩
  | cons b l ih =>
    obtain ⟨place, hmono, hget, hall⟩ := ih
    cases hb : stays b with
    | true =>
      -- The first member stays where it is.
      refine ⟨fun i => i.casesOn 0 fun i => place i + 1, ?_, ?_, ?_⟩
      · intro i j hij
        cases i with
        | zero =>
          cases j with
          | zero => omega
          | succ j => exact Nat.succ_pos _
        | succ i =>
          cases j with
          | zero => omega
          | succ j => exact Nat.succ_lt_succ (hmono (Nat.lt_of_succ_lt_succ hij))
      · intro i
        rw [List.filter_cons_of_pos hb]
        cases i with
        | zero => rfl
        | succ i => exact hget i
      · intro j a hj ha
        cases j with
        | zero => exact ⟨0, rfl⟩
        | succ j =>
          obtain ⟨i, rfl⟩ := hall j a hj ha
          exact ⟨i + 1, rfl⟩
    | false =>
      refine ⟨fun i => place i + 1, fun i j hij => Nat.succ_lt_succ (hmono hij), ?_, ?_⟩
      · intro i
        rw [List.filter_cons_of_neg (by simp [hb])]
        exact hget i
      · intro j a hj ha
        cases j with
        | zero =>
          cases hj
          rw [hb] at ha
          cases ha
        | succ j =>
          obtain ⟨i, rfl⟩ := hall j a hj ha
          exact ⟨i, rfl⟩

/-- The oldest constraint of a partition of what stays is its oldest one in the whole pool. -/
theorem Partition.OldestAt.of_filter {pool : List Constraint} {stays : Constraint → Bool}
    {place : Nat → Nat} (hmono : StrictMono place)
    (hget : ∀ i, (pool.filter stays)[i]? = pool[place i]?)
    (hall : ∀ (j : Nat) (c : Constraint), pool[j]? = some c → stays c = true → ∃ i, place i = j)
    {p : Partition} (hp : ∀ c ∈ p.constraints, stays c = true) {seed : Constraint}
    (hseed : seed ∈ p.constraints → seed.support.isEmpty = true) {i : Nat}
    (h : p.OldestAt (pool.filter stays) i) : p.OldestAt (seed :: pool) (place i + 1) := by
  obtain ⟨c, hc, hmem, hfirst⟩ := h
  refine ⟨c, (hget i).symm.trans hc, hmem, fun j hj d hd hdmem => ?_⟩
  cases j with
  | zero =>
    cases hd
    exact hseed hdmem
  | succ j =>
    obtain ⟨k, rfl⟩ := hall j d hd (hp d hdmem)
    have hk : k < i := hmono.lt_iff_lt.mp (Nat.lt_of_succ_lt_succ hj)
    exact hfirst k hk d ((hget k).trans hd) hdmem

/-! ## §5 Splitting a pool -/

/-- A pool split into partitions whose constraints are linked and that share no variable. -/
structure Split (pool : List Constraint) (ps : List Partition) : Prop where
  perm : (ps.flatMap Partition.constraints).Perm pool
  finished : ∀ p ∈ ps, p.Finished
  linked : ∀ p ∈ ps, ∀ c ∈ p.constraints, ∀ d ∈ p.constraints, Linked pool c d
  disjoint : ps.Pairwise fun p q => ∀ v ∈ p.support, v ∉ q.support
  ordered : ∃ places : List Nat, places.Pairwise (· < ·) ∧
    List.Forall₂ (Partition.OldestAt pool) ps places

theorem split_nil : Split [] [] where
  perm := .refl _
  finished := by simp
  linked := by simp
  disjoint := .nil
  ordered := ⟨[], .nil, .nil⟩

section

variable {seed : Constraint} {pool : List Constraint} {g : Gathering} {ps : List Partition}

theorem Split.mem_pool (h : Split pool ps) {p : Partition} (hp : p ∈ ps) {c : Constraint}
    (hc : c ∈ p.constraints) : c ∈ pool :=
  h.perm.subset (List.mem_flatMap.mpr ⟨p, hp, hc⟩)

/-- A gathered partition comes first, and the others keep their order. -/
theorem Split.ordered_cons (hg : g.Grown seed pool)
    (hleft : ∀ d ∈ g.left, ∀ v ∈ d.support, v ∉ g.support) (h : Split g.left ps) :
    ∃ places : List Nat, places.Pairwise (· < ·) ∧
      List.Forall₂ (Partition.OldestAt (seed :: pool)) (g.finish :: ps) places := by
  obtain ⟨places, hplaces, holdest⟩ := h.ordered
  obtain ⟨stays, hstays⟩ := hg.left
  obtain ⟨place, hmono, hget, hall⟩ := exists_places_of_filter stays pool
  have hstay : ∀ p ∈ ps, ∀ c ∈ p.constraints, stays c = true := by
    intro p hp c hc
    have hc := h.mem_pool hp hc
    rw [hstays] at hc
    exact (List.mem_filter.mp hc).2
  -- The seed has a variable only if no other partition has an equal constraint.
  have hseed : ∀ p ∈ ps, seed ∈ p.constraints → seed.support.isEmpty = true := by
    intro p hp hc
    by_contra hne
    obtain ⟨v, hv⟩ := Std.TreeSet.isEmpty_eq_false_iff_exists_mem.mp (by simpa using hne)
    exact hleft seed (h.mem_pool hp hc) v hv ((hg.support v).mpr ⟨seed, hg.seed_mem, hv⟩)
  refine ⟨0 :: places.map (place · + 1), ?_, .cons ?_ ?_⟩
  · refine List.pairwise_cons.mpr ⟨by simp, ?_⟩
    exact List.pairwise_map.mpr (hplaces.imp fun hlt => Nat.succ_lt_succ (hmono hlt))
  · exact ⟨seed, rfl, g.finish_perm.mem_iff.mpr hg.seed_mem, fun j hj => by omega⟩
  · rw [List.forall₂_map_right_iff]
    rw [hstays] at holdest
    have hwith : List.Forall₂ (fun p i => p ∈ ps ∧ p.OldestAt (pool.filter stays) i) ps places :=
      (List.forall₂_and_left _ _).mpr ⟨fun p hp => hp, holdest⟩
    exact hwith.imp fun p i ⟨hp, hi⟩ => hi.of_filter hmono hget hall (hstay p hp) (hseed p hp)

theorem Split.cons (hg : g.Grown seed pool)
    (hleft : ∀ d ∈ g.left, ∀ v ∈ d.support, v ∉ g.support) (h : Split g.left ps) :
    Split (seed :: pool) (g.finish :: ps) where
  perm := by
    rw [List.flatMap_cons]
    exact (g.finish_perm.append h.perm).trans hg.perm
  finished p hp := by
    rcases List.mem_cons.mp hp with rfl | hp
    · exact hg.finished
    · exact h.finished p hp
  linked p hp c hc d hd := by
    rcases List.mem_cons.mp hp with rfl | hp
    · have hc := hg.linked c (g.finish_perm.mem_iff.mp hc)
      exact hc.symm.trans (hg.linked d (g.finish_perm.mem_iff.mp hd))
    · exact (h.linked p hp c hc d hd).mono fun c hc => hg.perm.subset (List.mem_append_right _ hc)
  disjoint := by
    refine List.pairwise_cons.mpr ⟨fun p hp v hv hv' => ?_, h.disjoint⟩
    -- What is left over touches none of the variables that were gathered.
    obtain ⟨c, hc, hvc⟩ := ((h.finished p hp).support v).mp hv'
    exact hleft c (h.mem_pool hp hc) v hvc hv
  ordered := h.ordered_cons hg hleft

end

/-- The partitions of a pool split it. -/
theorem split_partitionPool (pool : List Constraint) : Split pool (partitionPool pool) := by
  fun_induction partitionPool pool with
  | case1 => exact split_nil
  | case2 c pool ih => exact ih.cons (grown_gather c pool) (disjoint_gather c pool)

section

variable {pool : List Constraint} {ps : List Partition}

/-- Partitions that share a variable are the same. -/
theorem Split.index_eq (h : Split pool ps) {i j : Nat} (hi : i < ps.length) (hj : j < ps.length)
    {v : Nat} (hvi : v ∈ ps[i].support) (hvj : v ∈ ps[j].support) : i = j := by
  have hdisjoint := List.pairwise_iff_getElem.mp h.disjoint
  rcases Nat.lt_trichotomy i j with hlt | heq | hgt
  · exact absurd hvj (hdisjoint i j hi hj hlt v hvi)
  · exact heq
  · exact absurd hvi (hdisjoint j i hj hi hgt v hvj)

theorem Split.mem_support (h : Split pool ps) {p : Partition} (hp : p ∈ ps) {c : Constraint}
    (hc : c ∈ p.constraints) {v : Nat} (hv : v ∈ c.support) : v ∈ p.support :=
  ((h.finished p hp).support v).mpr ⟨c, hc, hv⟩

/-- A chain of constraints that share variables does not leave a partition. -/
theorem Split.mem_of_linked (h : Split pool ps) {i : Nat} (hi : i < ps.length) {c d : Constraint}
    (hc : c ∈ ps[i].constraints) (hlinked : Linked pool c d) : d ∈ ps[i].constraints := by
  induction hlinked with
  | refl => exact hc
  | @tail d e _ hstep ih =>
    obtain ⟨-, he, v, hvd, hve⟩ := hstep
    obtain ⟨q, hq, heq⟩ := List.mem_flatMap.mp (h.perm.mem_iff.mpr he)
    obtain ⟨j, hj, rfl⟩ := List.mem_iff_getElem.mp hq
    have hij := h.index_eq hi hj (h.mem_support (List.getElem_mem hi) ih hvd)
      (h.mem_support hq heq hve)
    subst hij
    exact heq

end

/-! ## §6 Components -/

open Classical in
/-- The partitions of a pool are its connected components. -/
structure Components (pool : List Constraint) (ps : List Partition) : Prop where
  /-- The partitions have every constraint of the pool, as often as the pool has it, and no
      other. -/
  exactly : (ps.flatMap Partition.constraints).Perm pool
  /-- Constraints with variables are in the same partition exactly if they are linked. -/
  connected : ∀ (i j : Nat) (hi : i < ps.length) (hj : j < ps.length),
    ∀ c ∈ ps[i].constraints, ∀ d ∈ ps[j].constraints, c.support.isEmpty = false →
      d.support.isEmpty = false → (i = j ↔ Linked pool c d)
  /-- A constraint without variables is alone. -/
  alone : ∀ p ∈ ps, ∀ c ∈ p.constraints, c.support.isEmpty = true → p.constraints = [c]
  /-- Different partitions share no variable. -/
  disjoint : ps.Pairwise fun p q => ∀ v ∈ p.support, v ∉ q.support
  /-- The support of a partition is that of its constraints. -/
  support : ∀ p ∈ ps, ∀ v, v ∈ p.support ↔ ∃ c ∈ p.constraints, v ∈ c.support
  /-- The constraints of a partition stand in descending order of their ids. -/
  descending : ∀ p ∈ ps, p.constraints.Pairwise fun c d => d.id ≤ c.id
  /-- The partitions stand in the order of their oldest constraints. -/
  ordered : ∃ places : List Nat, places.Pairwise (· < ·) ∧
    List.Forall₂ (Partition.OldestAt pool) ps places
  /-- The constraints on one variable alone are the hard constraints whose support it is, in the
      order of the partition. -/
  single : ∀ p ∈ ps, ∀ v, p.singleOn v = p.constraints.filter fun c =>
    c.isHard && decide (∀ w, w ∈ c.support ↔ w = v)

theorem Split.components {pool : List Constraint} {ps : List Partition} (h : Split pool ps) :
    Components pool ps where
  exactly := h.perm
  connected i j hi hj c hc d hd _ hne := by
    constructor
    · rintro rfl
      exact h.linked _ (List.getElem_mem hi) c hc d hd
    · intro hlinked
      -- The second constraint is in both partitions, and one of its variables as well.
      obtain ⟨v, hv⟩ := Std.TreeSet.isEmpty_eq_false_iff_exists_mem.mp hne
      have hdi := h.mem_of_linked hi hc hlinked
      exact h.index_eq hi hj (h.mem_support (List.getElem_mem hi) hdi hv)
        (h.mem_support (List.getElem_mem hj) hd hv)
  alone p hp := (h.finished p hp).alone
  disjoint := h.disjoint
  support p hp := (h.finished p hp).support
  descending p hp := (h.finished p hp).descending
  ordered := h.ordered
  single p _ := p.singleOn_eq

/-! ## §7 Merging registries -/

namespace Partitioner

/-- What merging registries with different ids leaves in a partitioner. -/
theorem foldl_merge {rs : List Registry} {p : Partitioner} (hnew : ∀ r ∈ rs, r.id ∉ p.merged)
    (hids : (rs.map Registry.id).Nodup) :
    (rs.foldl merge p).pool = p.pool ++ (rs.flatMap Registry.active).filter (!·.isVector) ∧
      (rs.foldl merge p).vectorConstraints =
        p.vectorConstraints ++ (rs.flatMap Registry.active).filter (·.isVector) ∧
      (rs.foldl merge p).partitions = p.partitions := by
  induction rs generalizing p with
  | nil => simp
  | cons r rs ih =>
    -- The registry was not merged before, so its constraints are taken.
    have hmerge : p.merge r = { p with
        pool := p.pool ++ r.active.filter (!·.isVector)
        vectorConstraints := p.vectorConstraints ++ r.active.filter (·.isVector)
        merged := p.merged.insert r.id } := by
      have hnot := hnew r List.mem_cons_self
      rw [Std.TreeSet.mem_iff_contains] at hnot
      rw [merge, if_neg hnot]
    obtain ⟨hfirst, hrest⟩ := List.nodup_cons.mp hids
    have hnew' : ∀ q ∈ rs, q.id ∉ (p.merge r).merged := by
      intro q hq hmem
      rw [hmerge, Std.TreeSet.mem_insert, Std.LawfulEqCmp.compare_eq_iff_eq] at hmem
      -- Ids differ within the list and from those that were merged earlier.
      rcases hmem with heq | hmem
      · exact hfirst (heq ▸ List.mem_map_of_mem hq)
      · exact hnew q (List.mem_cons_of_mem r hq) hmem
    obtain ⟨hpool, hvector, hpartitions⟩ := ih hnew' hrest
    rw [List.foldl_cons, hpool, hvector, hpartitions, hmerge]
    simp [List.append_assoc]

end Partitioner

/-- Registries with different ids that are merged and then split give the components of their
    active scalar constraints. -/
theorem components_of_merged {rs : List Registry} (hids : (rs.map Registry.id).Nodup) :
    Components ((rs.flatMap Registry.active).filter (!·.isVector))
      (rs.foldl Partitioner.merge .empty).partition.partitions := by
  obtain ⟨hpool, -, hpartitions⟩ := Partitioner.foldl_merge (p := .empty)
    (fun r _ => Std.TreeSet.not_mem_emptyc) hids
  have hsplit : (rs.foldl Partitioner.merge .empty).partition.partitions =
      partitionPool ((rs.flatMap Registry.active).filter (!·.isVector)) := by
    rw [Partitioner.partition, hpool, hpartitions]
    rfl
  rw [hsplit]
  exact (split_partitionPool _).components

/-- Two registries of which the second one links the two constraints of the first. -/
theorem components_of_bridge :
    let hard (id : Nat) (e : Expr) : Constraint :=
      ⟨id, s!"constraint_{id}", e, e.support, false, false, true⟩
    let byte (id : Nat) : Expr := .var id (.unsigned 8)
    let rs : List Registry := [
      ⟨1, 0, [hard 2 (.binary .less (byte 1) (.const 9 (.unsigned 8))),
        hard 3 (.binary .less (byte 2) (.const 9 (.unsigned 8)))], true⟩,
      ⟨4, 0, [hard 5 (.binary .less (byte 1) (byte 2))], true⟩]
    (rs.map Registry.id).Nodup ∧ Components ((rs.flatMap Registry.active).filter (!·.isVector))
      (rs.foldl Partitioner.merge .empty).partition.partitions := by
  intro hard byte rs
  have hids : (rs.map Registry.id).Nodup := by simp [rs]
  exact ⟨hids, components_of_merged hids⟩

end Stimulus
