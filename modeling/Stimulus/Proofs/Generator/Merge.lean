import Stimulus.Proofs.Generator.Frame
import Stimulus.Proofs.Generator.Soundness

/-!
# Constraints merged from other registries

A generator among the registries of its context: registries are made and edited by their owners, and
merged into the generator.  Merged constraints stay in the partitions until a solve finds that the
own constraints of the generator have changed: it resets the generator, which forgets what was
merged, and rebuilds it from its own constraints.

Main definitions:
- `Registries.Step`: what the owners of registries do
- `Generator.Merging`: a generator, the other registries, and those merged since the last reset
- `Generator.Merging.Reached`: the runs of a generator into which registries are merged

Main statements:
- `Generator.Merging.Reached.sound`
- `Generator.contains_merged_of_reached`
-/

namespace Stimulus

open Relation

/-! ## §1 What a partitioner holds -/

namespace Partitioner

variable {p : Partitioner} {r : Registry} {x : Constraint}

/-- The constraint waits for the next split, or it is in a partition. -/
def Holds (p : Partitioner) (x : Constraint) : Prop :=
  x ∈ p.pool ∨ ∃ q ∈ p.partitions, x ∈ q.constraints

theorem Holds.merge (h : p.Holds x) (r : Registry) : (p.merge r).Holds x := by
  unfold Partitioner.merge
  split
  · exact h
  · exact h.imp (List.mem_append_left _) id

theorem holds_merge (hnew : r.id ∉ p.merged) (hx : x ∈ r.scalars) : (p.merge r).Holds x := by
  unfold Partitioner.merge
  rw [if_neg (by simpa using hnew)]
  exact .inl (List.mem_append_right _ hx)

theorem mem_merged_merge {id : Nat} :
    id ∈ (p.merge r).merged ↔ id = r.id ∨ id ∈ p.merged := by
  unfold Partitioner.merge
  split
  · rename_i hmem
    refine ⟨.inr, fun h => h.elim (fun hid => ?_) fun h => h⟩
    exact hid ▸ Std.TreeSet.mem_iff_contains.mpr hmem
  · rw [Std.TreeSet.mem_insert, compare_eq_iff_eq, eq_comm]

/-- A split puts everything into partitions, and keeps those that there are. -/
theorem Holds.mem_partition (h : p.Holds x) : ∃ q ∈ p.partition.partitions, x ∈ q.constraints := by
  rcases h with hx | ⟨q, hq, hx⟩
  · obtain ⟨q, hq, hmem⟩ := Generator.exists_partition hx
    exact ⟨q, List.mem_append_right _ hq, hmem⟩
  · exact ⟨q, List.mem_append_left _ hq, hx⟩

end Partitioner

/-! ## §2 The registries of a context -/

/-- A change of a registry by its owner. -/
inductive Registry.Edits : InContext Registry → InContext Registry → Prop where
  | make {s s' : InContext Registry} {name : Option String} {e : Expr} {soft cover : Bool}
      {a : Except Refusal Constraint} (h : make name e soft cover s = .ok (a, s')) : Edits s s'
  | setEnabled (c : Context) (r : Registry) (name : String) (enabled : Bool) :
      Edits ⟨c, r⟩ ⟨c, (r.setEnabled name enabled).2⟩
  | acknowledge (c : Context) (r : Registry) : Edits ⟨c, r⟩ ⟨c, r.acknowledge⟩

theorem Registry.id_setEnabled (r : Registry) (name : String) (enabled : Bool) :
    (r.setEnabled name enabled).2.id = r.id := by
  unfold Registry.setEnabled
  cases r.find? name with
  | none => rfl
  | some x =>
    dsimp only
    split <;> rfl

/-- An owner keeps the id of a registry, and the ids that were taken. -/
theorem Registry.Edits.id_eq {s s' : InContext Registry} (h : Edits s s') :
    s'.item.id = s.item.id ∧ s.context.nextConstraintId ≤ s'.context.nextConstraintId := by
  cases h with
  | @make _ _ name e soft cover a hrun =>
    refine ⟨?_, ((make_since name e soft cover _ _ .refl).of_run hrun).nextConstraintId_le⟩
    have hmake := make_grants (c := s.context) (r := s.item) (E := fun _ => True) name e soft cover
    cases a with
    | error refusal => rw [(hmake.of_refusal hrun).2]
    | ok x => rw [(hmake.of_run hrun).item_eq]
  | setEnabled c r name enabled => exact ⟨r.id_setEnabled name enabled, Nat.le_refl _⟩
  | acknowledge c r => exact ⟨rfl, Nat.le_refl _⟩

/-- A context and registries that were made in it. -/
structure Registries where
  context : Context
  members : List Registry

namespace Registries

/-- What others do: they change the context, make registries and edit them.  The registries with
    one of the given ids keep their constraints. -/
inductive Step (fixed : List Nat) : Registries → Registries → Prop where
  | change {c c' : Context} (rs : List Registry) (h : c.Changes c') : Step fixed ⟨c, rs⟩ ⟨c', rs⟩
  | create (c : Context) (rs : List Registry) :
      Step fixed ⟨c, rs⟩ ⟨(Registry.create c).2, (Registry.create c).1 :: rs⟩
  | edit {c : Context} (before after : List Registry) {r : Registry} {s : InContext Registry}
      (h : Registry.Edits ⟨c, r⟩ s) (hfixed : r.id ∈ fixed → s.item.constraints = r.constraints) :
      Step fixed ⟨c, before ++ r :: after⟩ ⟨s.context, before ++ s.item :: after⟩

/-- Different registries have different ids, all of which were taken from the context. -/
structure Taken (c : Context) (ids : List Nat) : Prop where
  nodup : ids.Nodup
  lt : ∀ id ∈ ids, id < c.nextConstraintId

theorem Taken.mono {c c' : Context} {ids : List Nat} (h : Taken c ids)
    (hle : c.nextConstraintId ≤ c'.nextConstraintId) : Taken c' ids :=
  ⟨h.nodup, fun id hid => (h.lt id hid).trans_le hle⟩

/-- The next id is a new one. -/
theorem Taken.cons {c : Context} {ids : List Nat} (h : Taken c ids) :
    Taken (Context.takeConstraintId c).2 (c.nextConstraintId :: ids) := by
  refine ⟨List.nodup_cons.mpr ⟨fun hmem => ?_, h.nodup⟩, fun id hid => ?_⟩
  · exact Nat.lt_irrefl _ (h.lt _ hmem)
  · rcases List.mem_cons.mp hid with rfl | hid
    · exact Nat.lt_succ_self _
    · exact Nat.lt_succ_of_lt (h.lt id hid)

theorem Taken.perm {c : Context} {ids ids' : List Nat} (h : Taken c ids) (hperm : ids.Perm ids') :
    Taken c ids' :=
  ⟨hperm.nodup_iff.mp h.nodup, fun id hid => h.lt id (hperm.mem_iff.mpr hid)⟩

variable {fixed : List Nat} {w w' : Registries}

/-- What others do keeps the ids apart, also from the ids of registries that are not listed. -/
theorem Step.taken (h : Step fixed w w') (others : List Nat)
    (htaken : Taken w.context (others ++ w.members.map Registry.id)) :
    Taken w'.context (others ++ w'.members.map Registry.id) := by
  cases h with
  | change rs hchange => exact htaken.mono hchange.nextConstraintId_le
  | create c rs => exact htaken.cons.perm List.perm_middle.symm
  | edit before after hedit _ =>
    obtain ⟨hid, hle⟩ := hedit.id_eq
    simpa [hid] using htaken.mono hle

/-- The registries that were made in a context have different ids. -/
theorem taken_of_steps {c₀ : Context} (h : ReflTransGen (Step []) ⟨c₀, []⟩ w) :
    Taken w.context (w.members.map Registry.id) := by
  induction h with
  | refl => exact ⟨List.nodup_nil, fun id hid => absurd hid List.not_mem_nil⟩
  | tail _ hstep ih => exact hstep.taken [] ih

/-- The registries that are fixed stay, with their constraints. -/
theorem Step.exists_fixed (h : Step fixed w w') {r : Registry} (hr : r ∈ w.members)
    (hfixed : r.id ∈ fixed) : ∃ r' ∈ w'.members, r'.id = r.id ∧ r'.constraints = r.constraints := by
  cases h with
  | change rs _ => exact ⟨r, hr, rfl, rfl⟩
  | create c rs => exact ⟨r, List.mem_cons_of_mem _ hr, rfl, rfl⟩
  | @edit c before after r₀ s hedit hsame =>
    -- The registry is the one that was edited, or it stands before or after it.
    by_cases heq : r = r₀
    · subst heq
      exact ⟨s.item, by simp, hedit.id_eq.1, hsame hfixed⟩
    · refine ⟨r, ?_, rfl, rfl⟩
      simp only [List.mem_append, List.mem_cons] at hr ⊢
      tauto

end Registries

namespace Generator

/-! ## §3 Runs in which registries are merged -/

/-- A generator, the other registries of its context, and those that were merged into it since it
    was last reset, as they were then. -/
structure Merging where
  context : Context
  generator : Generator
  others : List Registry
  merged : List Registry

namespace Merging

/-- The generator in its context. -/
def state (m : Merging) : InContext Generator := ⟨m.context, m.generator⟩

/-- The generator has done something. -/
def after (m : Merging) (s : InContext Generator) : Merging :=
  { m with context := s.context, generator := s.item }

/-- The generator has solved.  If its own constraints had changed, it was reset before. -/
def solved (m : Merging) (s : InContext Generator) : Merging :=
  { m.after s with merged := if m.generator.registry.changed then [] else m.merged }

/-- One call of the generator, or something that others do.  The owners of registries that were
    merged leave the constraints of these alone. -/
inductive Step : Merging → Merging → Prop where
  | others {m : Merging} {w : Registries}
      (h : Registries.Step (m.merged.map Registry.id) ⟨m.context, m.others⟩ w) :
      Step m { m with context := w.context, others := w.members }
  | add {m : Merging} {kind : Kind} {name : Option String} {e : Expr} {a : Except Refusal Unit}
      {s : InContext Generator} (h : add kind name e m.state = .ok (a, s)) : Step m (m.after s)
  | setEnabled (m : Merging) (name : String) (enabled : Bool) :
      Step m (m.after ⟨m.context, (m.generator.setEnabled name enabled).2⟩)
  | merge {m : Merging} {r : Registry} (hr : r ∈ m.others) {a : Except Refusal Unit}
      {s : InContext Generator} (h : Generator.merge r m.state = .ok (a, s)) :
      Step m { m.after s with merged := r :: m.merged }
  | rebuild {m : Merging} {includeOwn : Bool} {a : Except Refusal Unit} {s : InContext Generator}
      (h : rebuild includeOwn m.state = .ok (a, s)) : Step m (m.after s)
  | next {m : Merging} {a : Except Refusal Bool} {s : InContext Generator}
      (h : next m.state = .ok (a, s)) : Step m (m.solved s)
  | tryNext {m : Merging} {a : Except Refusal Unit} {s : InContext Generator}
      (h : tryNext m.state = .ok (a, s)) : Step m (m.solved s)
  | nextCover {m : Merging} {a : Except Refusal Bool} {s : InContext Generator}
      (h : nextCover m.state = .ok (a, s)) : Step m (m.solved s)
  | resetCoverage {m : Merging} {a : Except Refusal Unit} {s : InContext Generator}
      (h : resetCoverage m.state = .ok (a, s)) : Step m (m.after s)
  | reset (m : Merging) :
      Step m { m.after ⟨m.context, m.generator.reset⟩ with merged := [] }

/-- The runs of a generator: it is made in a context in which there may be registries already, and
    then it is called. -/
inductive Reached (settings : Settings) (storageBits : Nat) : Merging → Prop where
  | create {c₀ : Context} {w : Registries} {c : Context} {g : Generator}
      (hw : ReflTransGen (Registries.Step []) ⟨c₀, []⟩ w)
      (h : create settings storageBits w.context = .ok (g, c)) :
      Reached settings storageBits ⟨c, g, w.members, []⟩
  | step {m m' : Merging} (hm : Reached settings storageBits m) (h : Step m m') :
      Reached settings storageBits m'

/-- What was merged since the last reset is in the generator. -/
structure Sound (m : Merging) : Prop where
  taken : Registries.Taken m.context (m.generator.registry.id :: m.others.map Registry.id)
  /-- The registries that were merged are still there, with the same constraints. -/
  kept : ∀ r ∈ m.merged, ∃ r' ∈ m.others, r'.id = r.id ∧ r'.constraints = r.constraints
  /-- No other registries count as merged. -/
  known : ∀ id ∈ m.generator.partitioner.merged,
    id = m.generator.registry.id ∨ ∃ r ∈ m.merged, r.id = id
  holds : ∀ r ∈ m.merged, ∀ x ∈ r.scalars, m.generator.partitioner.Holds x

variable {settings : Settings} {storageBits : Nat} {m m' : Merging}

/-- The generator has done something that does not touch what was merged. -/
theorem Sound.after (h : m.Sound) {s : InContext Generator}
    (hid : s.item.registry.id = m.generator.registry.id)
    (hpartitioner : s.item.partitioner = m.generator.partitioner)
    (hle : m.context.nextConstraintId ≤ s.context.nextConstraintId) : (m.after s).Sound where
  taken := by
    have htaken := h.taken.mono hle
    rw [← hid] at htaken
    exact htaken
  kept := h.kept
  known id hmem := by
    have hknown := h.known id (hpartitioner ▸ hmem)
    rw [← hid] at hknown
    exact hknown
  holds r hr x hx := hpartitioner.symm ▸ h.holds r hr x hx

/-- The generator has done something that leaves its constraints and its partitions alone. -/
theorem Sound.after_sameSources (h : m.Sound) {s : InContext Generator}
    (hsame : SameSources m.state s) : (m.after s).Sound :=
  h.after (congrArg Registry.id hsame.registry_eq) hsame.partitioner_eq
    hsame.becomes.nextConstraintId_le

/-- The other registries were edited, and the merged ones have kept their constraints. -/
theorem Sound.others (h : m.Sound) {w : Registries}
    (hstep : Registries.Step (m.merged.map Registry.id) ⟨m.context, m.others⟩ w) :
    Sound { m with context := w.context, others := w.members } where
  taken := hstep.taken [m.generator.registry.id] h.taken
  kept r hr := by
    obtain ⟨r₁, hr₁, hid₁, hconstraints₁⟩ := h.kept r hr
    have hfixed : r₁.id ∈ m.merged.map Registry.id := hid₁ ▸ List.mem_map_of_mem hr
    obtain ⟨r₂, hr₂, hid₂, hconstraints₂⟩ := hstep.exists_fixed hr₁ hfixed
    exact ⟨r₂, hr₂, hid₂.trans hid₁, hconstraints₂.trans hconstraints₁⟩
  known := h.known
  holds := h.holds

/-- A registry that counts as merged was merged with the constraints that it has now. -/
theorem Sound.holds_of_known (h : m.Sound) {r : Registry} (hr : r ∈ m.others)
    (hmem : r.id ∈ m.generator.partitioner.merged) {x : Constraint} (hx : x ∈ r.scalars) :
    m.generator.partitioner.Holds x := by
  rcases h.known r.id hmem with hown | ⟨r₀, hr₀, hid₀⟩
  · -- The generator's own registry is none of the others.
    have hnodup := List.nodup_cons.mp h.taken.nodup
    exact absurd (hown ▸ List.mem_map_of_mem hr) hnodup.1
  · obtain ⟨r₁, hr₁, hid₁, hconstraints⟩ := h.kept r₀ hr₀
    have hnodup := (List.nodup_cons.mp h.taken.nodup).2
    obtain rfl : r₁ = r := List.inj_on_of_nodup_map hnodup hr₁ hr (hid₁.trans hid₀)
    refine h.holds r₀ hr₀ x ?_
    unfold Registry.scalars Registry.active at hx ⊢
    rwa [← hconstraints]

/-- A registry is merged, for the first time or again. -/
theorem Sound.merge (h : m.Sound) {r : Registry} (hr : r ∈ m.others) :
    Sound { m with
      generator := { m.generator with partitioner := m.generator.partitioner.merge r }
      merged := r :: m.merged } where
  taken := h.taken
  kept r' hr' := by
    rcases List.mem_cons.mp hr' with rfl | hr'
    · exact ⟨r', hr, rfl, rfl⟩
    · exact h.kept r' hr'
  known id hmem := by
    -- The registry itself is the one that is new among the merged ones.
    rcases Partitioner.mem_merged_merge.mp hmem with rfl | hmem
    · exact .inr ⟨r, List.mem_cons_self, rfl⟩
    · refine (h.known id hmem).imp_right fun ⟨r', hr', hid⟩ => ?_
      exact ⟨r', List.mem_cons_of_mem _ hr', hid⟩
  holds r' hr' x hx := by
    rcases List.mem_cons.mp hr' with rfl | hr'
    · -- A registry that counts as merged is passed over, but its constraints are there already.
      by_cases hmem : r'.id ∈ m.generator.partitioner.merged
      · exact (h.holds_of_known hr hmem hx).merge r'
      · exact Partitioner.holds_merge hmem hx
    · exact (h.holds r' hr' x hx).merge r

/-- What was merged is split, with the own constraints or without them. -/
theorem Sound.regroup (h : m.Sound) (includeOwn : Bool) :
    Sound { m with generator := m.generator.regroup includeOwn } where
  taken := h.taken
  kept := h.kept
  known id hmem := by
    cases includeOwn with
    | false => exact h.known id hmem
    | true =>
      -- The own registry is the only one that is merged on the way.
      exact (Partitioner.mem_merged_merge.mp hmem).elim .inl (h.known id)
  holds r hr x hx := by
    have hx := h.holds r hr x hx
    cases includeOwn with
    | false => exact .inr hx.mem_partition
    | true => exact .inr (hx.merge m.generator.registry).mem_partition

/-- The generator has been reset. -/
theorem Sound.reset (h : m.Sound) :
    Sound { m with generator := m.generator.reset, merged := [] } where
  taken := h.taken
  kept _ hr := absurd hr List.not_mem_nil
  known _ hmem := absurd hmem Std.TreeSet.not_mem_emptyc
  holds _ hr := absurd hr List.not_mem_nil

/-- The generator has solved, after a reset and a rebuild if its own constraints had changed. -/
theorem Sound.solved (h : m.Sound) {s : InContext Generator}
    (hsame : SameSources ⟨m.context, m.generator.renew⟩ s) : (m.solved s).Sound := by
  unfold Merging.solved
  cases hchanged : m.generator.registry.changed with
  | true =>
    rw [renew_of_changed hchanged] at hsame
    exact (h.reset.regroup true).after_sameSources hsame
  | false =>
    rw [renew_of_unchanged hchanged] at hsame
    exact h.after_sameSources hsame

/-- A merge changes the partitioner alone. -/
theorem merge_leaves (r : Registry) (s : InContext Generator) :
    Leaves (Generator.merge r) s fun s' => s' =
      ⟨s.context, { s.item with partitioner := s.item.partitioner.merge r }⟩ := by
  unfold Generator.merge
  refine .get_bind ?_
  split
  · exact .bind (.fault trivial) fun _ _ h => h
  · exact change_grants rfl

/-- A new constraint is added to the own registry. -/
theorem Sound.add (h : m.Sound) {kind : Kind} {name : Option String} {e : Expr}
    {a : Except Refusal Unit} {s : InContext Generator}
    (hrun : Generator.add kind name e m.state = .ok (a, s)) : (m.after s).Sound := by
  have hadd : Leaves (Generator.add kind name e) m.state fun s' =>
      ∃ t : InContext Registry, s' = ⟨t.context, { m.generator with registry := t.item }⟩ ∧
        Registry.Edits ⟨m.context, m.generator.registry⟩ t := by
    unfold Generator.add
    refine Leaves.bind ?_ fun _ => .pure _
    unfold Leaves Grants useRegistry
    dsimp only [state]
    cases hmake : Registry.make name e (kind = .soft) (kind = .cover)
        ⟨m.context, m.generator.registry⟩ with
    | error fault => trivial
    | ok r => obtain ⟨refusal | x, t⟩ := r <;> exact ⟨t, rfl, .make hmake⟩
  obtain ⟨t, rfl, hedit⟩ := hadd.of_run hrun
  exact h.after hedit.id_eq.1 rfl hedit.id_eq.2

/-- Every step keeps what was merged in the generator. -/
theorem Sound.step (h : m.Sound) (hstep : Step m m') : m'.Sound := by
  -- Merging adds to what is kept, a reset empties it, and the other steps leave it as it is.
  cases hstep with
  | others hothers => exact h.others hothers
  | add hrun => exact h.add hrun
  | setEnabled name enabled =>
    exact h.after (m.generator.registry.id_setEnabled name enabled) rfl (Nat.le_refl _)
  | @merge r hr a s hrun =>
    obtain rfl := (merge_leaves r m.state).of_run hrun
    exact h.merge hr
  | @rebuild includeOwn a s hrun =>
    have hsame := (rebuild_regroups includeOwn m.state).of_run hrun
    exact (h.regroup includeOwn).after_sameSources hsame
  | next hrun => exact h.solved ((next_renews m.state).of_run hrun)
  | tryNext hrun => exact h.solved ((tryNext_renews m.state).of_run hrun)
  | nextCover hrun => exact h.solved ((nextCover_renews m.state).of_run hrun)
  | resetCoverage hrun =>
    exact h.after_sameSources ((resetCoverage_sameSources _ (.refl m.state)).of_run hrun)
  | reset => exact h.reset

/-- The registry of a new generator gets a new id, and nothing is merged into the generator. -/
theorem sound_create {w : Registries} {g : Generator} {c : Context}
    (hw : Registries.Taken w.context (w.members.map Registry.id))
    (hrun : create settings storageBits w.context = .ok (g, c)) :
    Sound ⟨c, g, w.members, []⟩ := by
  have hcreate : Ensures (create settings storageBits) w.context (fun _ => True) fun g c =>
      g.registry = (Registry.create w.context).1 ∧ g.partitioner = .empty ∧
        c = (Registry.create (Context.takeEntropy w.context).2).2 := by
    unfold Ensures create
    refine Ends.bind (ends_true _) fun (plain, source₁) _ => ?_
    refine Ends.bind (ends_true _) fun (vectors, source₂) _ => ?_
    refine Ends.bind (ends_true _) fun (coverage, source₃) _ => ?_
    refine Ends.bind (ends_true _) fun (coverageVectors, source₄) _ => ?_
    refine Ends.bind (ends_true _) fun stage _ => ?_
    exact Ends.bind (ends_true _) fun coverageStage _ => ⟨rfl, rfl, rfl⟩
  obtain ⟨hregistry, hpartitioner, rfl⟩ := hcreate.of_run hrun
  refine {
    taken := ?_
    kept := fun _ hr => absurd hr List.not_mem_nil
    known := fun _ hmem => ?_
    holds := fun _ hr => absurd hr List.not_mem_nil }
  · dsimp only
    rw [hregistry]
    exact hw.cons.mono (Nat.le_refl _)
  · dsimp only at hmem
    rw [hpartitioner] at hmem
    exact absurd hmem Std.TreeSet.not_mem_emptyc

/-- In every run, what was merged since the last reset is in the generator. -/
theorem Reached.sound (h : Reached settings storageBits m) : m.Sound := by
  induction h with
  | create hw hrun => exact sound_create (Registries.taken_of_steps hw) hrun
  | step _ hstep ih => exact ih.step hstep

end Merging

/-! ## §4 The partitions of a rebuild -/

section

variable {settings : Settings} {storageBits : Nat} {m : Merging}

/-- A rebuild that is asked for has every active constraint on scalars of every registry that was
    merged since the last reset in its partitions.  A solve that finds the own constraints changed
    resets the generator: its partitions have the own constraints, and no others. -/
theorem contains_merged_of_reached (h : Merging.Reached settings storageBits m) :
    (∀ (includeOwn : Bool) (a : Except Refusal Unit) (s : InContext Generator),
      rebuild includeOwn m.state = .ok (a, s) →
        ∀ r ∈ m.merged, ∀ x ∈ r.active, x.isVector = false →
          ∃ p ∈ s.item.partitioner.partitions, x ∈ p.constraints) ∧
    (m.generator.registry.changed = true → ∀ (a : Except Refusal Bool) (s : InContext Generator),
      next m.state = .ok (a, s) ∨ nextCover m.state = .ok (a, s) →
        s.item.partitioner.partitions = partitionPool m.generator.registry.scalars) := by
  refine ⟨fun includeOwn a s hrun r hr x hactive hscalar => ?_, fun hchanged a s hrun => ?_⟩
  · have hsame := (rebuild_regroups includeOwn m.state).of_run hrun
    have hx : x ∈ r.scalars := List.mem_filter.mpr ⟨hactive, by simpa using hscalar⟩
    have hholds := h.sound.holds r hr x hx
    rw [hsame.partitioner_eq]
    cases includeOwn with
    | false => exact hholds.mem_partition
    | true => exact (hholds.merge m.generator.registry).mem_partition
  · have hsame : SameSources ⟨m.context, m.generator.renew⟩ s := by
      rcases hrun with hrun | hrun
      · exact (next_renews m.state).of_run hrun
      · exact (nextCover_renews m.state).of_run hrun
    rw [hsame.partitioner_eq]
    exact partitions_renew hchanged

end

/-- A registry is merged into a generator, which then gets a constraint of its own. -/
def combined (own theirs : Expr) : Except Fault Merging := do
  let (g, c) ← create { seed := some 1 } 4 (.empty 0)
  let (r, c) := Registry.create c
  let (_, t) ← Registry.make none theirs false false ⟨c, r⟩
  let (_, s) ← merge t.item ⟨t.context, g⟩
  let (_, s) ← add .hard none own s
  return ⟨s.context, s.item, [t.item], [t.item]⟩

theorem reached_combined {own theirs : Expr} {m : Merging} (hm : combined own theirs = .ok m) :
    Merging.Reached { seed := some 1 } 4 m := by
  unfold combined at hm
  obtain ⟨⟨g, c⟩, hcreate, hm⟩ := exists_ok_of_bind hm
  obtain ⟨⟨_, t⟩, hmake, hm⟩ := exists_ok_of_bind hm
  obtain ⟨⟨_, s⟩, hmerge, hm⟩ := exists_ok_of_bind hm
  obtain ⟨⟨_, s'⟩, hadd, hm⟩ := exists_ok_of_bind hm
  cases hm
  have h₀ : Merging.Reached { seed := some 1 } 4 ⟨c, g, [], []⟩ := .create .refl hcreate
  have h₁ := h₀.step (.others (.create c []))
  have hedit : Registries.Step [] ⟨(Registry.create c).2, [(Registry.create c).1]⟩
      ⟨t.context, [t.item]⟩ := .edit [] [] (.make hmake) fun h => absurd h List.not_mem_nil
  have h₂ := h₁.step (.others hedit)
  have h₃ := h₂.step (.merge List.mem_cons_self hmerge)
  exact h₃.step (.add hadd)

/-- A constraint that is merged is in a partition after a rebuild, and then a solve forgets it. -/
theorem contains_merged_after_merge : ∃ m s s', Merging.Reached { seed := some 1 } 4 m ∧
    rebuild true m.state = .ok (.ok (), s) ∧ (∃ r ∈ m.merged, ∃ x ∈ r.active,
      x.isVector = false ∧ ∃ p ∈ s.item.partitioner.partitions, x ∈ p.constraints) ∧
    next m.state = .ok (.ok true, s') ∧
      s'.item.partitioner.partitions = partitionPool m.generator.registry.scalars := by
  obtain ⟨m, hrun, htest⟩ := exists_of_toOption_any (x := combined oneLessTwo oneLessTwo)
    (p := fun m => m.generator.registry.changed &&
      (m.merged.any fun r => r.active.any fun x => !x.isVector) &&
      (granted? (rebuild true m.state)).isSome && decide (answer? (next m.state) = some true))
    (by decide +kernel)
  simp only [Bool.and_eq_true, List.any_eq_true, decide_eq_true_eq, Bool.not_eq_true'] at htest
  obtain ⟨⟨⟨hchanged, r, hr, x, hx, hscalar⟩, hrebuild⟩, hanswer⟩ := htest
  obtain ⟨s', hnext⟩ := exists_of_answer? hanswer
  obtain ⟨⟨⟩, s, hs, -⟩ := exists_of_granted?_any (p := fun _ => true) (by simpa using hrebuild)
  have hreached := reached_combined hrun
  have hmerged := contains_merged_of_reached hreached
  exact ⟨m, s, s', hreached, hs, ⟨r, hr, x, hx, hscalar, hmerged.1 _ _ _ hs r hr x hx hscalar⟩,
    hnext, hmerged.2 hchanged _ _ (.inl hnext)⟩

/-- After a registry was merged, a constraint is added to the generator, and the next solve rebuilds
    the partitions without the constraint that was merged. -/
theorem contains_merged_fails : ∃ m s, Merging.Reached { seed := some 1 } 4 m ∧
    m.generator.registry.changed = true ∧ next m.state = .ok (.ok true, s) ∧
      ∃ r ∈ m.merged, ∃ x ∈ r.active, x.isVector = false ∧
        ∀ p ∈ s.item.partitioner.partitions, x ∉ p.constraints := by
  obtain ⟨m, hrun, htest⟩ := exists_of_toOption_any (x := combined oneLessTwo oneLessTwo)
    (p := fun m => m.generator.registry.changed && decide (answer? (next m.state) = some true) &&
      m.merged.any fun r => r.active.any fun x => !x.isVector &&
        m.generator.registry.scalars.all fun y => y.id != x.id) (by decide +kernel)
  simp only [Bool.and_eq_true, List.any_eq_true, List.all_eq_true, decide_eq_true_eq,
    Bool.not_eq_true', bne_iff_ne] at htest
  obtain ⟨⟨hchanged, hanswer⟩, r, hr, x, hx, hscalar, hother⟩ := htest
  obtain ⟨s, hnext⟩ := exists_of_answer? hanswer
  refine ⟨m, s, reached_combined hrun, hchanged, hnext, r, hr, x, hx, hscalar, ?_⟩
  intro p hp hmem
  -- The partitions are those of the own constraints, whose ids are others.
  have hsame := (next_renews m.state).of_run hnext
  rw [hsame.partitioner_eq] at hp
  have hpool := partitions_renew hchanged ▸ hp
  exact hother x ((split_partitionPool _).mem_pool hpool hmem) rfl

end Generator

end Stimulus
