import Stimulus.Group.Ensemble
import Stimulus.Proofs.Group.CoverageSolver
import Stimulus.Proofs.Group.PartitionSolver

/-!
# What ensembles answer and write

The partitions of an ensemble have no variable in common, so the results of one solver do not
disturb what another one wrote.  After a solve the context has exactly the values that the ensemble
answers, and all other variables have kept theirs.

Main definitions:
- `Partition.Settled`: the answers of an ensemble include a solution of a partition
- `Wrote`: a context took over all answers and nothing else
- `Served`: how a solve leaves a context

Main statements:
- `PlainEnsemble.rebuildPlain_grants`, `CoverageEnsemble.rebuildCoverage_grants`
- `PlainEnsemble.solvePlain_grants`, `CoverageEnsemble.solveCoverage_grants`
-/

namespace Stimulus

/-! ## §1 Answers of several solvers -/

/-- The value that somebody has for each variable. -/
abbrev Reading : Type := Nat → Except Fault (Option Nat)

/-- The first answer where there is one, else the second. -/
def Reading.orElse (read read' : Reading) : Reading := fun id => do
  match ← read id with
  | some bits => return some bits
  | none => read' id

section

variable {read read' : Reading} {id n : Nat}

theorem Reading.orElse_of_some (h : read id = .ok (some n)) :
    read.orElse read' id = .ok (some n) := by
  unfold orElse
  rw [h]
  rfl

theorem Reading.orElse_of_none (h : read id = .ok none) : read.orElse read' id = read' id := by
  unfold orElse
  rw [h]
  rfl

end

namespace Partition

/-- The partitions have no variable in common. -/
def Apart (p q : Partition) : Prop := ∀ id s s', p.Mentions id s → ¬ q.Mentions id s'

/-- There is no answer for the variables of the partition. -/
def Silent (p : Partition) (read : Reading) : Prop := ∀ id s, p.Mentions id s → read id = .ok none

/-- The answers include those of a solver that found a solution of the partition. -/
def Settled (p : Partition) (c : Context) (max : Nat) (read : Reading) : Prop :=
  ∃ env own, Answered c p max env own ∧ ∀ id n, own id = .ok (some n) → read id = .ok (some n)

section

variable {p : Partition} {c c' : Context} {max : Nat} {read read' : Reading}

theorem Settled.keeps (h : p.Settled c max read) (hkeeps : c.Keeps c') :
    p.Settled c' max read := by
  obtain ⟨env, own, hown, hincl⟩ := h
  exact ⟨env, own, hown.keeps hkeeps, hincl⟩

theorem Settled.orElse_left (h : p.Settled c max read) :
    p.Settled c max (read.orElse read') := by
  obtain ⟨env, own, hown, hincl⟩ := h
  exact ⟨env, own, hown, fun id n hn => Reading.orElse_of_some (hincl id n hn)⟩

theorem Settled.orElse_right (h : p.Settled c max read') (hsilent : p.Silent read) :
    p.Settled c max (read.orElse read') := by
  obtain ⟨env, own, hown, hincl⟩ := h
  refine ⟨env, own, hown, fun id n hn => ?_⟩
  obtain ⟨s, hmem, -⟩ := hown.value id n hn
  rw [Reading.orElse_of_none (hsilent id s hmem)]
  exact hincl id n hn

theorem Silent.orElse (h : p.Silent read) (h' : p.Silent read') : p.Silent (read.orElse read') :=
  fun id s hmem => (Reading.orElse_of_none (h id s hmem)).trans (h' id s hmem)

end

end Partition

/-- All constraints of the partitions can be encoded, and no two of them have a variable in
    common. -/
structure Separate (Γ : Signature) (ps : List Partition) : Prop where
  posed : ∀ p ∈ ps, p.Posed Γ
  apart : ps.Pairwise Partition.Apart

theorem Separate.tail {Γ : Signature} {p : Partition} {ps : List Partition}
    (h : Separate Γ (p :: ps)) : Separate Γ ps :=
  ⟨fun q hq => h.posed q (List.mem_cons_of_mem p hq), (List.pairwise_cons.mp h.apart).2⟩

theorem Separate.mono {Γ Δ : Signature} {ps : List Partition} (h : Separate Γ ps)
    (hsub : Γ.Sub Δ) : Separate Δ ps :=
  ⟨fun p hp => (h.posed p hp).mono hsub, h.apart⟩

/-- What solvers are for their partitions changes solver by solver. -/
theorem Separate.imp {σ : Type} {Γ : Signature} {R R' : σ → Partition → Prop} {solvers : List σ}
    {ps : List Partition} (hps : Separate Γ ps) (h : List.Forall₂ R solvers ps)
    (himp : ∀ s p, p.Posed Γ → R s p → R' s p) : List.Forall₂ R' solvers ps := by
  induction h with
  | nil => exact .nil
  | cons hs _ ih => exact .cons (himp _ _ (hps.posed _ List.mem_cons_self) hs) (ih hps.tail)

/-! ## §2 Answers that are written -/

/-- The second context has every value that is answered, and otherwise the values of the first. -/
def Wrote (c c' : Context) (read : Reading) : Prop :=
  ∀ id, ∃ value, read id = .ok value ∧ c'.bits id = value.getD (c.bits id)

section

variable {c c' c'' : Context} {read read' : Reading}

theorem Wrote.bits (h : Wrote c c' read) {id n : Nat} (hn : read id = .ok (some n)) :
    c'.bits id = n := by
  obtain ⟨value, hvalue, hbits⟩ := h id
  cases hn.symm.trans hvalue
  exact hbits

/-- What is written later goes on top. -/
theorem Wrote.overlay (h : Wrote c c' read') (h' : Wrote c' c'' read) :
    Wrote c c'' (read.orElse read') := by
  intro id
  obtain ⟨value, hvalue, hbits⟩ := h' id
  cases value with
  | some n => exact ⟨some n, Reading.orElse_of_some hvalue, hbits⟩
  | none =>
    obtain ⟨value', hvalue', hbits'⟩ := h id
    exact ⟨value', (Reading.orElse_of_none hvalue).trans hvalue', hbits.trans hbits'⟩

/-- The order does not matter for answers that never concern the same variable. -/
theorem Wrote.append (h : Wrote c c' read) (h' : Wrote c' c'' read')
    (hapart : ∀ id n, read id = .ok (some n) → read' id = .ok none) :
    Wrote c c'' (read.orElse read') := by
  intro id
  obtain ⟨value, hvalue, hbits⟩ := h id
  obtain ⟨value', hvalue', hbits'⟩ := h' id
  cases value with
  | some n =>
    cases (hapart id n hvalue).symm.trans hvalue'
    exact ⟨some n, Reading.orElse_of_some hvalue, hbits'.trans hbits⟩
  | none =>
    refine ⟨value', (Reading.orElse_of_none hvalue).trans hvalue', ?_⟩
    rw [hbits', hbits]
    rfl

/-- The results of a solver are what it answers. -/
theorem wrote_writeAll {c₀ : Context} {p : Partition} {max : Nat} {env : Nat → Nat}
    {results : List (Nat × Nat)} (h : Answered c p max env read) (hp : p.Posed c.signature)
    (hresults : ∀ id n, (id, n) ∈ results ↔ read id = .ok (some n)) (hkeeps : c.Keeps c₀) :
    Wrote c₀ (c₀.writeAll results) read := by
  intro id
  obtain ⟨value, hvalue⟩ := h.ends id
  refine ⟨value, hvalue, ?_⟩
  -- A variable that the solver does not know is not among the results.
  cases value with
  | none =>
    refine Context.bits_writeAll_of_not_mem fun n hn => ?_
    cases hvalue.symm.trans ((hresults id n).mp hn)
  | some n =>
    obtain ⟨s, hmem, -⟩ := h.value id n hvalue
    obtain ⟨cell, hcell, -⟩ := Option.map_eq_some_iff.mp (hp.sort? hmem)
    cases hrole : cell.role with
    | random =>
      refine Context.bits_writeAll ?_ ((hresults id n).mpr hvalue) fun m hm => ?_
      · rw [hkeeps.isRandom]
        exact Context.isRandom_iff.mpr ⟨cell, hcell, hrole⟩
      · cases ((hresults id m).mp hm).symm.trans hvalue
        rfl
    | reference =>
      -- A reference is not written, but the answer is its value anyway.
      have hkept := hkeeps.references id cell hcell hrole
      rw [Context.bits_writeAll_of_not_mem fun _ _ => ?_, Context.bits, hkept]
      · exact (h.reference hp hcell hrole hvalue).symm
      · rw [Bool.eq_false_iff, ne_eq, Context.isRandom_iff]
        rintro ⟨cell', hcell', hrole'⟩
        cases hkept.symm.trans hcell'
        rw [hrole] at hrole'
        cases hrole'

end

/-- How a solve leaves a context: it took over all answers, these concern variables of the
    partitions only, and include a solution of every partition, unless partitions may be left
    out. -/
structure Served (quiet : Prop) (c c' : Context) (ps : List Partition) (max : Nat)
    (read : Reading) : Prop where
  wrote : Wrote c c' read
  within : ∀ id n, read id = .ok (some n) → ∃ p ∈ ps, ∃ s, p.Mentions id s
  each : ∀ p ∈ ps, p.Settled c' max read ∨ quiet ∧ p.Silent read

section

variable {quiet : Prop} {c c' c'' : Context} {p : Partition} {ps : List Partition} {max : Nat}
  {read read' : Reading}

theorem served_nil : Served quiet c c [] max fun _ => .ok none where
  wrote _ := ⟨none, rfl, rfl⟩
  within _ _ hn := by cases hn
  each _ hp := absurd hp List.not_mem_nil

/-- There is no answer for the variables of other partitions. -/
theorem Served.silent (h : Served quiet c c' ps max read) (hapart : ∀ q ∈ ps, p.Apart q) :
    p.Silent read := by
  intro id s hmem
  obtain ⟨value, hvalue, -⟩ := h.wrote id
  cases value with
  | none => exact hvalue
  | some n =>
    obtain ⟨q, hq, s', hmem'⟩ := h.within id n hvalue
    exact absurd hmem' (hapart q hq id s s' hmem)

/-- One more partition that is served before the others. -/
theorem Served.cons (h : Served quiet c c' [p] max read) (hrest : Served quiet c' c'' ps max read')
    (hkeeps : c'.Keeps c'') (hapart : ∀ q ∈ ps, p.Apart q) :
    Served quiet c c'' (p :: ps) max (read.orElse read') where
  wrote := by
    refine h.wrote.append hrest.wrote fun id n hn => ?_
    obtain ⟨q, hq, s, hmem⟩ := h.within id n hn
    cases List.mem_singleton.mp hq
    exact hrest.silent hapart id s hmem
  within id n hn := by
    obtain ⟨value, hvalue, -⟩ := h.wrote id
    cases value with
    | some m =>
      obtain ⟨q, hq, hmem⟩ := h.within id m hvalue
      cases List.mem_singleton.mp hq
      exact ⟨p, List.mem_cons_self, hmem⟩
    | none =>
      rw [Reading.orElse_of_none hvalue] at hn
      obtain ⟨q, hq, hmem⟩ := hrest.within id n hn
      exact ⟨q, List.mem_cons_of_mem p hq, hmem⟩
  each q hq := by
    -- The first solver answers for its own partition, and is silent on all the others.
    rcases List.mem_cons.mp hq with rfl | hq
    · rcases h.each q List.mem_cons_self with hsettled | ⟨hquiet, hsilent⟩
      · exact .inl (hsettled.keeps hkeeps).orElse_left
      · exact .inr ⟨hquiet, hsilent.orElse (hrest.silent hapart)⟩
    · have hsilent : q.Silent read := h.silent fun p' hp' id s s' hmem hmem' => by
        cases List.mem_singleton.mp hp'
        exact hapart q hq id s' s hmem' hmem
      rcases hrest.each q hq with hsettled | ⟨hquiet, hsilent'⟩
      · exact .inl (hsettled.orElse_right hsilent)
      · exact .inr ⟨hquiet, hsilent.orElse hsilent'⟩

/-- Partitions that are left out keep what was written before. -/
theorem Served.overlay (h : Served False c c' ps max read)
    (h' : Served quiet c' c'' ps max read') (hkeeps : c'.Keeps c'') :
    Served False c c'' ps max (read'.orElse read) where
  wrote := h.wrote.overlay h'.wrote
  within id n hn := by
    obtain ⟨value, hvalue, -⟩ := h'.wrote id
    cases value with
    | some m => exact h'.within id m hvalue
    | none => exact h.within id n ((Reading.orElse_of_none hvalue).symm.trans hn)
  each p hp := by
    rcases h'.each p hp with hsettled | ⟨-, hsilent⟩
    · exact .inl hsettled.orElse_left
    · have hplain := (h.each p hp).resolve_right fun hquiet => hquiet.1
      exact .inl ((hplain.keeps hkeeps).orElse_right hsilent)

theorem Served.settled (h : Served False c c' ps max read) (hp : p ∈ ps) :
    p.Settled c' max read :=
  (h.each p hp).resolve_right fun hquiet => hquiet.1

/-- What occurs in a hard constraint has an answer, which is its value. -/
theorem Served.answered (h : Served False c c' ps max read) (hp : p ∈ ps) {e : Expr}
    (he : e ∈ p.hards) {id : Nat} {s : BitSort} (hmem : e.Mentions id s) :
    read id = .ok (some (c'.bits id)) := by
  obtain ⟨env, own, hown, hincl⟩ := h.settled hp
  have hread := hincl id _ (hown.hard e he id s hmem)
  rw [h.wrote.bits hread, hread]

/-- The values that were written satisfy the hard constraints of all partitions. -/
theorem Served.holds (h : Served False c c' ps max read) (hp : p ∈ ps) {e : Expr}
    (he : e ∈ p.hards) : e.Holds c'.bits := by
  obtain ⟨env, own, hown, hincl⟩ := h.settled hp
  refine (Expr.holds_congr fun id s hmem => ?_).mp (hown.solves.hards e he)
  rw [h.wrote.bits (hincl id _ (hown.hard e he id s hmem)), Nat.mod_mod]

/-- A size that occurs in a constraint has an answer, which is at most the maximal size. -/
theorem Served.size (h : Served False c c' ps max read) (hp : p ∈ ps) {id : Nat}
    {entry : VectorEntry} (hid : c'.vectors[id]? = some entry) {s : BitSort}
    (hmem : p.Mentions entry.size.id s) :
    ∃ n ≤ min max (2 ^ 32 - 1), read entry.size.id = .ok (some n) := by
  obtain ⟨env, own, hown, hincl⟩ := h.settled hp
  exact ⟨_, hown.solves.sizes id entry hid ⟨s, hmem⟩, hincl _ _ (hown.size id entry hid ⟨s, hmem⟩)⟩

/-- A solver for one partition that found a solution. -/
theorem Answered.served {c₀ : Context} {env : Nat → Nat} {results : List (Nat × Nat)}
    (h : Answered c p max env read) (hp : p.Posed c.signature)
    (hresults : ∀ id n, (id, n) ∈ results ↔ read id = .ok (some n)) (hkeeps : c.Keeps c₀) :
    Served quiet c₀ (c₀.writeAll results) [p] max read where
  wrote := wrote_writeAll h hp hresults hkeeps
  within id n hn := by
    obtain ⟨s, hmem, -⟩ := h.value id n hn
    exact ⟨p, List.mem_cons_self, s, hmem⟩
  each q hq := by
    cases List.mem_singleton.mp hq
    exact .inl ⟨env, read, h.keeps (hkeeps.trans (Context.keeps_writeAll _ _)), fun _ _ hn => hn⟩

end

/-! ## §3 Building -/

namespace Ensemble

section

variable {σ : Type} {s : Ensemble σ} {ps : List Partition} {E : Fault → Prop}
  {make : Settings → Partition → Nat → Attempt σ} {ready : σ → Partition → Prop} {safe : Prop}

theorem nextSeed_grants {R : Refusal → Ensemble σ → Prop} (hE : E .drawNeverEnds) :
    Grants (useSource SolverSource.nextSeed) s E R fun _ s' => s.source.Alike s'.source := by
  have hseed := SolverSource.nextSeed_ensures (s := s.source)
  unfold Grants useSource
  unfold Ensures at hseed
  cases hact : SolverSource.nextSeed s.source with
  | error fault =>
    rw [hact] at hseed
    cases hseed
    exact hE
  | ok r =>
    rw [hact] at hseed
    exact hseed

/-- Each partition gets a solver that is ready for it. -/
theorem buildEach_grants (hE : E .drawNeverEnds)
    (hmake : ∀ p ∈ ps, ∀ seed, Attempts (make s.source.settings p seed) E (fun _ => False)
      fun t => ready t p) :
    Grants (buildEach make ps) s E (fun _ _ => False) fun solvers s' =>
      List.Forall₂ ready solvers ps ∧ s.source.Alike s'.source := by
  induction ps generalizing s with
  | nil => exact .pure ⟨.nil, .refl _⟩
  | cons p ps ih =>
    unfold buildEach
    refine (nextSeed_grants hE).bind fun seed s₁ h₁ => ?_
    have hfirst := hmake p List.mem_cons_self seed
    rw [← h₁.settings_eq] at hfirst hmake
    refine .get_bind (Grants.bind (Attempts.ofAttempt hfirst) ?_)
    rintro solver _ ⟨hsolver, rfl⟩
    refine (ih fun q hq => hmake q (List.mem_cons_of_mem p hq)).bind ?_
    rintro rest s₂ ⟨hrest, h₂⟩
    exact .pure ⟨.cons hsolver hrest, h₁.trans h₂⟩

theorem rebuild_grants (hE : E .drawNeverEnds)
    (hmake : ∀ p ∈ ps, ∀ seed, Attempts (make s.source.settings p seed) E (fun _ => False)
      fun t => ready t p) :
    Grants (rebuild make ps) s E (fun _ _ => False) fun _ s' =>
      List.Forall₂ ready s'.solvers ps ∧ s.source.Alike s'.source := by
  refine (buildEach_grants hE hmake).bind ?_
  rintro solvers s' ⟨hsolvers, hs'⟩
  exact .modify ⟨hsolvers, hs'⟩

theorem seedsFor_grants (hE : E .drawNeverEnds) :
    Grants (seedsFor ps) s E (fun _ _ => False) fun seeds s' =>
      seeds.length = ps.length ∧ s.source.Alike s'.source := by
  induction ps generalizing s with
  | nil => exact .pure ⟨rfl, .refl _⟩
  | cons p ps ih =>
    unfold seedsFor
    refine (nextSeed_grants hE).bind fun seed s₁ h₁ => ih.bind ?_
    rintro seeds s₂ ⟨hlength, h₂⟩
    exact .pure ⟨congrArg (· + 1) hlength, h₁.trans h₂⟩

/-- Whatever the order in which results arrive, they are put back in the order of positions. -/
theorem inOrder_of_perm {α : Type} {arrived : List (Nat × α)} {results : List α}
    (h : arrived.Perm (results.zipIdx.map fun (r, i) => (i, r))) : inOrder arrived = results := by
  have hsorted : (results.zipIdx.map fun (r, i) => (i, r)).Pairwise fun a b => a.1 < b.1 := by
    rw [List.pairwise_map]
    apply List.pairwise_iff_getElem.mpr
    intro i j hi hj hij
    simpa using hij
  have hmerged : (arrived.mergeSort fun a b => a.1 ≤ b.1) =
      results.zipIdx.map fun (r, i) => (i, r) := by
    have hmerge : (arrived.mergeSort fun a b => a.1 ≤ b.1).Pairwise fun a b => a.1 ≤ b.1 := by
      apply (List.pairwise_mergeSort (fun a b c hab hbc => ?_) (fun a b => ?_) arrived).imp
      · intro a b hle
        simpa using hle
      · simp at *
        omega
      · simp
        omega
    -- Two sorted arrangements of the same results agree, as no position occurs twice.
    refine List.Perm.eq_of_pairwise ?_ hmerge (hsorted.imp fun hlt => Nat.le_of_lt hlt)
      ((List.mergeSort_perm arrived _).trans h)
    -- Equal positions belong to equal results.
    intro a b ha hb hle hle'
    have ha := ((List.mergeSort_perm arrived _).trans h).mem_iff.mp ha
    obtain ⟨⟨r, i⟩, hr, rfl⟩ := List.mem_map.mp ha
    obtain ⟨⟨r', i'⟩, hr', rfl⟩ := List.mem_map.mp hb
    cases Nat.le_antisymm hle hle'
    have hget := List.mem_zipIdx_iff_getElem?.mp hr
    have hget' := List.mem_zipIdx_iff_getElem?.mp hr'
    cases hget.symm.trans hget'
    rfl
  unfold inOrder
  rw [hmerged, List.map_map]
  exact List.zipIdx_map_fst 0 results

/-- What workers built, if none of them broke down. -/
theorem collect_attempts {built : List (Attempt σ)}
    (h : List.Forall₂ (fun x p => Attempts x E (fun _ => False) fun t => ready t p) built ps) :
    Attempts (collect built)
      (fun fault => fault = .workerFailed ∧ ∃ fault', .error fault' ∈ built ∧ E fault')
      (fun _ => False) fun solvers => List.Forall₂ ready solvers ps := by
  -- The fault is the same wherever the worker that broke down stands; one of them is behind it.
  induction h with
  | nil => exact .nil
  | @cons x p built ps hx hbuilt ih =>
    cases x with
    | error fault => exact ⟨rfl, fault, List.mem_cons_self, hx⟩
    | ok r =>
      cases r with
      | error refusal => exact hx.elim
      | ok solver =>
        unfold collect
        unfold Attempts at ih
        cases hrest : collect built with
        | error fault =>
          rw [hrest] at ih
          obtain ⟨rfl, fault', hmem, hfault'⟩ := ih
          exact ⟨rfl, fault', List.mem_cons_of_mem _ hmem, hfault'⟩
        | ok others =>
          rw [hrest] at ih
          cases others with
          | error refusal => exact ih.elim
          | ok solvers => exact .cons hx ih

/-- Building is stuck, or a worker is stuck that builds the solver of a partition from the seed that
    the ensemble draws for it. -/
def Stalled (safe : Prop) (make : Partition → Nat → Attempt σ) (e : Ensemble σ)
    (ps : List Partition) (fault : Fault) : Prop :=
  safe → fault.Exhausts ∨ fault = .workerFailed ∧
    ∃ seeds e', seedsFor ps e = .ok (.ok seeds, e') ∧
      ∃ x ∈ ps.zip seeds, ∃ fault', make x.1 x.2 = .error fault' ∧ fault'.Exhausts

theorem Stuck.stalled {make : Partition → Nat → Attempt σ} {e : Ensemble σ} {fault : Fault}
    (h : Stuck safe fault) : Stalled safe make e ps fault :=
  fun hsafe => .inl (h hsafe)

/-- Workers build the same solvers. -/
theorem rebuildSideBySide_grants
    (hmake : ∀ p ∈ ps, ∀ seed, Attempts (make s.source.settings p seed) (Stuck safe)
      (fun _ => False) fun t => ready t p) :
    Grants (rebuildSideBySide id make ps) s (Stalled safe (make s.source.settings) s ps)
      (fun _ _ => False) fun _ s' =>
        List.Forall₂ ready s'.solvers ps ∧ s.source.Alike s'.source := by
  unfold rebuildSideBySide
  refine (seedsFor_grants (fun _ => .inl (.inr rfl))).ran.bind ?_
  rintro seeds s₁ ⟨hdrawn, hlength, h₁⟩
  refine .get_bind ?_
  dsimp only
  rw [h₁.settings_eq, id, inOrder_of_perm (.refl _)]
  -- Each worker gets its partition and its seed, and works on its own.
  have hbuilt : List.Forall₂ (fun x p => Attempts x (Stuck safe) (fun _ => False)
      fun t => ready t p) ((ps.zip seeds).map fun x => make s.source.settings x.1 x.2) ps := by
    rw [List.forall₂_map_left_iff]
    refine List.forall₂_iff_get.mpr ⟨by simp [hlength], fun i hi hi' => ?_⟩
    simpa using hmake _ (List.getElem_mem hi') _
  refine Grants.bind (Attempts.ofAttempt ((collect_attempts hbuilt).imp ?_ (fun _ h => h)
    fun _ h => h)) ?_
  · -- A fault is traced back to the seed that was drawn for it.
    rintro fault ⟨rfl, fault', hmem, hfault'⟩ hsafe
    obtain ⟨⟨p, seed⟩, hzip, hfault⟩ := List.mem_map.mp hmem
    exact .inr ⟨rfl, seeds, s₁, hdrawn, (p, seed), hzip, fault', hfault, hfault' hsafe⟩
  · rintro solvers _ ⟨hsolvers, rfl⟩
    exact .modify ⟨hsolvers, h₁⟩

end

end Ensemble

/-! ## §4 Plain ensembles -/

/-- Every solver is ready for its partition. -/
abbrev PartitionSolver.ReadyEach (c : Context) (max : Nat) :
    List PartitionSolver → List Partition → Prop :=
  List.Forall₂ fun s p => s.Ready c p max

theorem PartitionSolver.ReadyEach.grows {c c' : Context} {max : Nat}
    {solvers : List PartitionSolver} {ps : List Partition} (h : ReadyEach c max solvers ps)
    (hps : Separate c.signature ps) (hc : c.WellFormed) (hc' : c'.WellFormed)
    (hgrows : c.Grows c') : ReadyEach c' max solvers ps :=
  hps.imp h fun _ _ hposed hs => hs.grows hposed hc hc' hgrows

namespace PlainEnsemble

open Ensemble

section

variable {c c₀ : Context} {e : PlainEnsemble} {solvers : List PartitionSolver}
  {ps : List Partition} {max : Nat} {safe : Prop}

/-- What building gives for one partition, a rebuild gives for each of them, side by side or not. -/
theorem rebuildPlain_of_build {ready : PartitionSolver → Partition → Prop}
    (hmake : ∀ p ∈ ps, ∀ seed, Attempts
      (PartitionSolver.build c e.source.storageBits e.source.settings p seed) (Stuck safe)
      (fun _ => False) fun s => ready s p) :
    Grants (rebuildPlain c ps) e
      (Stalled safe (PartitionSolver.build c e.source.storageBits e.source.settings) e ps)
      (fun _ _ => False) fun _ e' =>
        List.Forall₂ ready e'.solvers ps ∧ e.source.Alike e'.source := by
  unfold rebuildPlain
  refine .get_bind ?_
  dsimp only
  split
  · exact rebuildSideBySide_grants hmake
  · exact (rebuild_grants stuck_drawNeverEnds hmake).imp (fun _ hf => Stuck.stalled hf)
      (fun _ _ hr => hr) fun _ _ hq => hq

/-- Every partition gets a solver that is ready for it. -/
theorem rebuildPlain_grants (hc : c.WellFormed) (hps : Separate c.signature ps)
    (hfew : safe → c.signature.Few) (hbits : safe → e.source.storageBits ≤ 31)
    (hsat : safe → ∀ p ∈ ps, ∃ env, p.SolvedBy c e.source.settings.maxVectorSize env) :
    Grants (rebuildPlain c ps) e
      (Stalled safe (PartitionSolver.build c e.source.storageBits e.source.settings) e ps)
      (fun _ _ => False) fun _ e' =>
        PartitionSolver.ReadyEach c e.source.settings.maxVectorSize e'.solvers ps ∧
          e.source.Alike e'.source :=
  rebuildPlain_of_build fun p hp seed =>
    PartitionSolver.build_attempts hc (hps.posed p hp) hfew hbits (fun hs => hsat hs p hp) seed

/-- What the solvers of an ensemble answer. -/
abbrev readEach (solvers : List PartitionSolver) : Reading := fun id =>
  firstRead (PartitionSolver.read · id) solvers

/-- The partitions are solved one after the other, up to the first without a solution. -/
theorem solveEach_ends (h : PartitionSolver.ReadyEach c max solvers ps) (hc : c.WellFormed)
    (hps : Separate c.signature ps) (hfew : safe → c.signature.Few) :
    Ends (solveEach c solvers) (Stuck safe) fun r => c.Keeps r.2.2 ∧
      PartitionSolver.ReadyEach r.2.2 max r.2.1 ps ∧
        (r.1 = true → Served False c r.2.2 ps max (readEach r.2.1)) ∧
        (r.1 = false → ∃ p ∈ ps, p.Unsolvable c max) := by
  -- The context that a solver finds is the one its predecessors left.
  induction solvers generalizing c ps with
  | nil =>
    cases h
    exact ⟨.refl c, .nil, fun _ => served_nil, nofun⟩
  | cons s solvers ih =>
    obtain ⟨p, ps, hs, hsolvers, rfl⟩ := List.forall₂_cons_left_iff.mp h
    have hp := hps.posed p List.mem_cons_self
    unfold solveEach
    refine Ends.bind (PartitionSolver.solve_ensures hs hc hp hfew) ?_
    rintro ⟨answer, s'⟩ ⟨hs', hsolves⟩
    cases answer with
    | none => exact ⟨.refl c, .cons hs' hsolvers, nofun, fun _ => ⟨p, List.mem_cons_self, hsolves⟩⟩
    | some results =>
      obtain ⟨⟨env, hanswered⟩, hresults⟩ := hsolves
      have hkeeps := c.keeps_writeAll results
      have hc' := hkeeps.wellFormed hc
      refine Ends.bind (ih (.grows hsolvers hps.tail hc hc' hkeeps.grows) hc' ?_ ?_) ?_
      · exact hkeeps.signature ▸ hps.tail
      · exact hkeeps.signature ▸ hfew
      rintro ⟨solved, rest, c''⟩ ⟨hkeeps', hready, hserved, hunsolvable⟩
      -- The answers of the first partition stand, since the others write to other variables.
      have hall := hkeeps.trans hkeeps'
      refine ⟨hall, .cons ?_ hready, fun hsolved => ?_, fun hsolved => ?_⟩
      · exact hs'.grows hp hc (hall.wellFormed hc) hall.grows
      · exact (hanswered.served hp hresults (.refl c)).cons (hserved hsolved) hkeeps'
          (List.pairwise_cons.mp hps.apart).1
      · obtain ⟨q, hq, hno⟩ := hunsolvable hsolved
        exact ⟨q, List.mem_cons_of_mem p hq, hno.keeps_back hkeeps⟩

/-- All partitions are solved in the same context.  If each of them has a solution, the results can
    be written to any context with the same declarations. -/
theorem solveAll_ends (h : PartitionSolver.ReadyEach c max solvers ps) (hc : c.WellFormed)
    (hps : Separate c.signature ps) (hfew : safe → c.signature.Few) :
    Ends (solveAll c solvers) (Stuck safe) fun r => PartitionSolver.ReadyEach c max r.2 ps ∧
      (r.1.all (·.isSome) = true → ∀ c₀, c.Keeps c₀ → Served False c₀
        (c₀.writeAll (r.1.map (·.getD [])).flatten) ps max (readEach r.2)) ∧
      (r.1.all (·.isSome) = false → ∃ p ∈ ps, p.Unsolvable c max) := by
  -- All start from the same context, and what they found is written afterwards.
  induction solvers generalizing ps with
  | nil =>
    cases h
    exact ⟨.nil, fun _ c₀ _ => served_nil, nofun⟩
  | cons s solvers ih =>
    obtain ⟨p, ps, hs, hsolvers, rfl⟩ := List.forall₂_cons_left_iff.mp h
    have hp := hps.posed p List.mem_cons_self
    unfold solveAll
    refine Ends.bind (PartitionSolver.solve_ensures hs hc hp hfew) ?_
    rintro ⟨answer, s'⟩ ⟨hs', hsolves⟩
    refine Ends.bind (ih hsolvers hps.tail) ?_
    rintro ⟨answers, rest⟩ ⟨hready, hserved, hunsolvable⟩
    cases answer with
    | none => exact ⟨.cons hs' hready, nofun, fun _ => ⟨p, List.mem_cons_self, hsolves⟩⟩
    | some results =>
      obtain ⟨⟨env, hanswered⟩, hresults⟩ := hsolves
      refine ⟨.cons hs' hready, fun hsolved c₀ hkeeps => ?_, fun hsolved => ?_⟩
      · have hfirst : Served False c₀ (c₀.writeAll results) [p] max s'.read :=
          hanswered.served hp hresults hkeeps
        have hwritten := c₀.keeps_writeAll results
        have hlater := hserved hsolved _ (hkeeps.trans hwritten)
        -- The results of the first are written before those of the rest.
        have hsplit : c₀.writeAll ((some results :: answers).map (·.getD [])).flatten =
            (c₀.writeAll results).writeAll (answers.map (·.getD [])).flatten := by
          simp [Context.writeAll, List.foldl_append]
        rw [hsplit]
        exact hfirst.cons hlater (Context.keeps_writeAll _ _) (List.pairwise_cons.mp hps.apart).1
      · obtain ⟨q, hq, hno⟩ := hunsolvable hsolved
        exact ⟨q, List.mem_cons_of_mem p hq, hno⟩

/-- Workers write the same answers. -/
theorem solveSideBySide_ends (h : PartitionSolver.ReadyEach c max solvers ps) (hc : c.WellFormed)
    (hps : Separate c.signature ps) (hfew : safe → c.signature.Few) :
    Ends (solveSideBySide List.flatten c solvers) (Stuck safe) fun r => c.Keeps r.2.2 ∧
      PartitionSolver.ReadyEach r.2.2 max r.2.1 ps ∧
        (r.1 = true → Served False c r.2.2 ps max (readEach r.2.1)) ∧
        (r.1 = false → ∃ p ∈ ps, p.Unsolvable c max) := by
  unfold solveSideBySide
  refine Ends.bind (solveAll_ends h hc hps hfew) ?_
  rintro ⟨answers, solvers'⟩ ⟨hready, hserved, hunsolvable⟩
  have hkeeps := c.keeps_writeAll (answers.map (·.getD [])).flatten
  exact ⟨hkeeps, hready.grows hps hc (hkeeps.wellFormed hc) hkeeps.grows,
    fun hsolved => hserved hsolved c (.refl c), hunsolvable⟩

/-- How a plain ensemble and its context are after a solve. -/
structure Solves (s s' : InContext PlainEnsemble) (ps : List Partition) (max : Nat)
    (solved : Bool) : Prop where
  keeps : s.context.Keeps s'.context
  source : s'.item.source = s.item.source
  ready : PartitionSolver.ReadyEach s'.context max s'.item.solvers ps
  served : solved = true → Served False s.context s'.context ps max s'.item.read
  unsolvable : solved = false → ∃ p ∈ ps, p.Unsolvable s.context max

/-- A plain solve writes what the ensemble answers, unless a partition has no solution. -/
theorem solvePlain_grants (h : PartitionSolver.ReadyEach c max e.solvers ps) (hc : c.WellFormed)
    (hps : Separate c.signature ps) (hfew : safe → c.signature.Few) :
    Grants solvePlain ⟨c, e⟩ (Stuck safe) (fun _ _ => False) fun solved s' =>
      Solves ⟨c, e⟩ s' ps max solved := by
  -- Side by side or one after the other, the outcome is described alike.
  have hends : Ends (if e.source.settings.sideBySide then
        solveSideBySide List.flatten c e.solvers else solveEach c e.solvers) (Stuck safe)
      fun r => c.Keeps r.2.2 ∧ PartitionSolver.ReadyEach r.2.2 max r.2.1 ps ∧
        (r.1 = true → Served False c r.2.2 ps max (readEach r.2.1)) ∧
        (r.1 = false → ∃ p ∈ ps, p.Unsolvable c max) := by
    split
    · exact solveSideBySide_ends h hc hps hfew
    · exact solveEach_ends h hc hps hfew
  unfold Grants solvePlain
  dsimp only
  revert hends
  generalize (if e.source.settings.sideBySide then
    solveSideBySide List.flatten c e.solvers else solveEach c e.solvers) = outcome
  intro hends
  cases outcome with
  | error fault => exact hends
  | ok r =>
    obtain ⟨hkeeps, hready, hserved, hunsolvable⟩ := hends
    exact ⟨hkeeps, rfl, hready, hserved, hunsolvable⟩

end

end PlainEnsemble

/-! ## §5 Coverage ensembles -/

/-- Every solver is ready for its partition. -/
abbrev CoverageSolver.ReadyEach (c : Context) (max : Nat) :
    List CoverageSolver → List Partition → Prop :=
  List.Forall₂ fun s p => s.Ready c p max

theorem CoverageSolver.ReadyEach.grows {c c' : Context} {max : Nat}
    {solvers : List CoverageSolver} {ps : List Partition} (h : ReadyEach c max solvers ps)
    (hps : Separate c.signature ps) (hc : c.WellFormed) (hc' : c'.WellFormed)
    (hgrows : c.Grows c') : ReadyEach c' max solvers ps :=
  hps.imp h fun _ _ hposed hs => hs.grows hposed hc hc' hgrows

namespace CoverageEnsemble

open Ensemble

section

variable {c : Context} {e : CoverageEnsemble} {solvers : List CoverageSolver}
  {ps : List Partition} {max : Nat} {safe : Prop}

/-- Every partition gets a coverage solver that is ready for it. -/
theorem rebuildCoverage_grants (hc : c.WellFormed) (hps : Separate c.signature ps)
    (hfew : safe → c.signature.Few) (hbits : safe → e.source.storageBits ≤ 31) :
    Grants (rebuildCoverage c ps) e (Stuck safe) (fun _ _ => False) fun _ e' =>
      CoverageSolver.ReadyEach c e.source.settings.maxVectorSize e'.solvers ps ∧
        e.source.Alike e'.source :=
  .get_bind (rebuild_grants stuck_drawNeverEnds fun p hp seed =>
    (CoverageSolver.build_attempts hc (hps.posed p hp) hfew hbits seed).imp (fun _ hf => hf)
      (fun _ hr => hr) fun _ hs => hs.1)

/-- What the solvers of an ensemble answer. -/
abbrev readEach (solvers : List CoverageSolver) : Reading := fun id =>
  firstRead (CoverageSolver.read · id) solvers

/-- A solver that hit no cover constraint has no answers. -/
theorem served_of_missed {s : CoverageSolver} {p : Partition} (h : s.hit = false) :
    Served True c c [p] max s.read := by
  have hsilent : s.read = fun _ => .ok none := by
    funext id
    unfold CoverageSolver.read
    rw [h]
    rfl
  rw [hsilent]
  exact ⟨fun _ => ⟨none, rfl, rfl⟩, nofun, fun _ _ => .inr ⟨trivial, fun _ _ _ => rfl⟩⟩

/-- The partitions are tried one after the other. -/
theorem hitEach_ends (h : CoverageSolver.ReadyEach c max solvers ps) (hc : c.WellFormed)
    (hps : Separate c.signature ps) (hfew : safe → c.signature.Few) :
    Ends (hitEach c solvers) (Stuck safe) fun r => c.Keeps r.2.2 ∧
      CoverageSolver.ReadyEach r.2.2 max r.2.1 ps ∧
        Served True c r.2.2 ps max (readEach r.2.1) := by
  induction solvers generalizing c ps with
  | nil =>
    cases h
    exact ⟨.refl c, .nil, served_nil⟩
  | cons s solvers ih =>
    obtain ⟨p, ps, hs, hsolvers, rfl⟩ := List.forall₂_cons_left_iff.mp h
    have hp := hps.posed p List.mem_cons_self
    unfold hitEach
    refine Ends.bind (CoverageSolver.solve_ensures hs hc hp hfew) ?_
    rintro ⟨answer, s'⟩ ⟨hs', hsolves⟩
    have hkeeps := c.keeps_writeAll (answer.getD [])
    have hc' := hkeeps.wellFormed hc
    -- A partition without a hit is served as well: it keeps the values that it has.
    have hfirst : Served True c (c.writeAll (answer.getD [])) [p] max s'.read := by
      cases answer with
      | none => exact served_of_missed hsolves.1
      | some results =>
        obtain ⟨-, ⟨env, -, hanswered⟩, hresults⟩ := hsolves
        exact hanswered.served hp hresults (.refl c)
    refine Ends.bind (ih (.grows hsolvers hps.tail hc hc' hkeeps.grows) hc' ?_ ?_) ?_
    · exact hkeeps.signature ▸ hps.tail
    · exact hkeeps.signature ▸ hfew
    rintro ⟨hit, rest, c''⟩ ⟨hkeeps', hready, hserved⟩
    have hall := hkeeps.trans hkeeps'
    exact ⟨hall, .cons (hs'.grows hp hc (hall.wellFormed hc) hall.grows) hready,
      hfirst.cons hserved hkeeps' (List.pairwise_cons.mp hps.apart).1⟩

/-- How a coverage ensemble and its context are after a solve. -/
structure Solves (s s' : InContext CoverageEnsemble) (ps : List Partition) (max : Nat) :
    Prop where
  keeps : s.context.Keeps s'.context
  source : s'.item.source = s.item.source
  ready : CoverageSolver.ReadyEach s'.context max s'.item.solvers ps
  served : Served True s.context s'.context ps max s'.item.read

/-- A coverage solve writes what the ensemble answers. -/
theorem solveCoverage_grants (h : CoverageSolver.ReadyEach c max e.solvers ps)
    (hc : c.WellFormed) (hps : Separate c.signature ps) (hfew : safe → c.signature.Few) :
    Grants solveCoverage ⟨c, e⟩ (Stuck safe) (fun _ _ => False) fun _ s' =>
      Solves ⟨c, e⟩ s' ps max := by
  have hends := hitEach_ends h hc hps hfew
  unfold Grants solveCoverage
  dsimp only
  cases hact : hitEach c e.solvers with
  | error fault =>
    rw [hact] at hends
    exact hends
  | ok r =>
    rw [hact] at hends
    obtain ⟨hkeeps, hready, hserved⟩ := hends
    exact ⟨hkeeps, rfl, hready, hserved⟩

end

end CoverageEnsemble

end Stimulus
