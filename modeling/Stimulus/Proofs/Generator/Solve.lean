import Stimulus.Proofs.Generator.Rebuild

/-!
# What a generator solves

A solve goes through all partitions and then through all vectors.  If it succeeds, the values in the
context satisfy every hard constraint that the solvers were built from, and every vector has its
length as its size.  Without soft constraints and constraints on vectors it succeeds whenever the
partitions have solutions.

Main definitions:
- `Generator.Satisfied`: what the values in the context satisfy after a solve
- `Generator.Solvable`: what a solve needs to succeed

Main statements:
- `Generator.Ready.next_grants`, `Generator.next_grants`
- `Generator.Ready.nextCover_grants`, `Generator.nextCover_grants`
-/

namespace Stimulus

namespace Generator

/-! ## §1 Values that satisfy everything -/

/-- The values in a context satisfy the hard ones among some constraints on scalars.  Sizes that
    occur in one of the constraints are at most the maximal size, and every vector has its length as
    its size. -/
structure Satisfied (max : Nat) (scalars : List Constraint) (c : Context) : Prop where
  hards : ∀ x ∈ scalars, x.isHard = true → x.expr.Holds c.bits
  sizes : ∀ (id : Nat) (entry : VectorEntry), c.vectors[id]? = some entry →
    ∀ x ∈ scalars, ∀ sort, x.expr.Mentions entry.size.id sort →
      c.bits entry.size.id ≤ min max (2 ^ 32 - 1)
  sized : ∀ id, c.Sized id

/-- Every constraint is in a partition. -/
theorem exists_partition {pool : List Constraint} {x : Constraint} (hx : x ∈ pool) :
    ∃ p ∈ partitionPool pool, x ∈ p.constraints :=
  List.mem_flatMap.mp ((split_partitionPool pool).perm.mem_iff.mpr hx)

section

variable {settings : Settings} {storageBits max : Nat} {s : InContext Generator} {safe : Prop}
  {c c₁ c' : Context} {read : Reading} {scalars onVectors : List Constraint}

/-- The values of scalars that were served, after vectors were stored. -/
theorem satisfied_of_served (hserved : Served False c c₁ (partitionPool scalars) max read)
    (hstores : c₁.Stores read c') (hsized : ∀ id, c'.Sized id) : Satisfied max scalars c' where
  hards x hx hhard := by
    obtain ⟨p, hp, hmem⟩ := exists_partition hx
    have he : x.expr ∈ p.hards := Partition.mem_hards.mpr ⟨x, hmem, hhard, rfl⟩
    refine (Expr.holds_congr fun id sort hid => ?_).mp (hserved.holds hp he)
    -- What was served is confirmed by the context, so storing vectors kept it.
    have hkept := hstores.confirms fun id n hn => hserved.wrote.bits hn
    rw [hkept id _ (hserved.answered hp he hid)]
  sizes id entry hid x hx sort hmention := by
    obtain ⟨p, hp, hmem⟩ := exists_partition hx
    obtain ⟨contents, hcontents⟩ := hstores.keeps.vector_back hid
    obtain ⟨n, hle, hn⟩ := hserved.size hp hcontents ⟨x, hmem, hmention⟩
    rw [hstores.confirms (fun id n hn => hserved.wrote.bits hn) _ n hn]
    exact hle
  sized := hsized

/-! ## §2 Parts of a solve -/

theorem Ready.withVectors {stage : VectorStage} (h : Ready settings storageBits s)
    (hfollows : VectorStage.Follows read ⟨c, s.item.vectors⟩ ⟨c₁, stage⟩) :
    Ready settings storageBits ⟨s.context, { s.item with vectors := stage }⟩ :=
  { h with
    vectorSource := h.vectorSource.trans hfollows.source
    vectors := hfollows.filed h.vectors }

/-- The plain solvers are used for a solve. -/
theorem solvePlain_grants (safe : Prop) (h : Ready settings storageBits s)
    (hfew : safe → s.context.signature.Few) :
    Grants (usePlain PlainEnsemble.solvePlain) s (Stuck safe) (fun _ _ => False) fun solved s' =>
      Ready settings storageBits s' ∧ SameProblem s.item s'.item ∧
        PlainEnsemble.Solves ⟨s.context, s.item.plain⟩ ⟨s'.context, s'.item.plain⟩
          s.item.partitioner.partitions settings.maxVectorSize solved := by
  refine (usePlain_grants (PlainEnsemble.solvePlain_grants h.plain h.wellFormed h.separate
    hfew)).imp (fun _ hf => hf) (fun _ _ ⟨_, _, hr⟩ => hr) ?_
  rintro solved _ ⟨t, rfl, ht⟩
  have hready : Ready settings storageBits ⟨t.context, { s.item with plain := t.item }⟩ :=
    { h.keeps ht.keeps with
      plainSource := ht.source ▸ h.plainSource
      plain := ht.ready }
  exact ⟨hready, ⟨rfl, rfl, fun _ => Iff.rfl⟩, ht⟩

/-- The coverage solvers are used for a solve. -/
theorem solveCoverage_grants (safe : Prop) (h : Ready settings storageBits s)
    (hfew : safe → s.context.signature.Few) :
    Grants (useCoverage CoverageEnsemble.solveCoverage) s (Stuck safe) (fun _ _ => False)
      fun _ s' => Ready settings storageBits s' ∧ SameProblem s.item s'.item ∧
        s'.item.plain = s.item.plain ∧
          CoverageEnsemble.Solves ⟨s.context, s.item.coverage⟩ ⟨s'.context, s'.item.coverage⟩
            s.item.partitioner.partitions settings.maxVectorSize := by
  refine (useCoverage_grants (CoverageEnsemble.solveCoverage_grants h.coverage h.wellFormed
    h.separate hfew)).imp (fun _ hf => hf) (fun _ _ ⟨_, _, hr⟩ => hr) ?_
  rintro _ _ ⟨t, rfl, ht⟩
  have hready : Ready settings storageBits ⟨t.context, { s.item with coverage := t.item }⟩ :=
    { h.keeps ht.keeps with
      coverageSource := ht.source ▸ h.coverageSource
      coverage := ht.ready }
  exact ⟨hready, ⟨rfl, rfl, fun _ => Iff.rfl⟩, rfl, ht⟩

/-- The vectors are solved. -/
theorem solveVectors_grants (safe : Prop) (read : Reading) (h : Ready settings storageBits s)
    (hnone : safe → ∀ id, id ∉ s.item.vectors.solvers)
    (hread : safe → ∀ (id : Nat) (entry : VectorEntry), s.context.vectors[id]? = some entry →
      ∃ value, read entry.size.id = .ok value ∧
        value.getD settings.defaultVectorSize < VectorStage.elementLimit) :
    Grants (useVectors (VectorStage.solve read)) s (Stuck safe)
      (fun _ s' => ¬ safe ∧ Ready settings storageBits s' ∧ SameProblem s.item s'.item ∧
        s.context.Stores read s'.context)
      fun solved s' => Ready settings storageBits s' ∧ SameProblem s.item s'.item ∧
        s.context.Stores read s'.context ∧ (safe → solved = true) ∧
          (solved = true → ∀ id, s'.context.Sized id) := by
  have hready {t : InContext VectorStage}
      (ht : VectorStage.Follows read ⟨s.context, s.item.vectors⟩ t) :
      Ready settings storageBits ⟨t.context, { s.item with vectors := t.item }⟩ :=
    (h.keeps ht.stores.keeps).withVectors ht
  have hsame {t : InContext VectorStage}
      (ht : VectorStage.Follows read ⟨s.context, s.item.vectors⟩ t) :
      SameProblem s.item { s.item with vectors := t.item } :=
    ⟨rfl, rfl, fun _ => ht.mem_iff⟩
  refine (useVectors_grants (VectorStage.solve_grants safe h.wellFormed h.vectors hnone ?_)).imp
    (fun _ hf => hf) ?_ ?_
  · rw [h.vectorSource.settings_eq]
    exact hread
  · rintro _ _ ⟨t, rfl, hno, ht⟩
    exact ⟨hno, hready ht, hsame ht, ht.stores⟩
  · rintro solved _ ⟨t, rfl, ht, hsolved, hsized⟩
    exact ⟨hready ht, hsame ht, ht.stores, hsolved, hsized⟩

/-- The vectors of a coverage solve are solved. -/
theorem solveCoverageVectors_grants (h : Ready settings storageBits s) (read : Reading) :
    Grants (useCoverageVectors (VectorStage.solve read)) s (fun _ => True)
      (fun _ s' => Ready settings storageBits s' ∧ SameProblem s.item s'.item ∧
        s.context.Stores read s'.context)
      fun solved s' => Ready settings storageBits s' ∧ SameProblem s.item s'.item ∧
        s.context.Stores read s'.context ∧ (solved = true → ∀ id, s'.context.Sized id) := by
  have hready {t : InContext VectorStage}
      (ht : VectorStage.Follows read ⟨s.context, s.item.coverageVectors⟩ t) :
      Ready settings storageBits ⟨t.context, { s.item with coverageVectors := t.item }⟩ :=
    { h.keeps ht.stores.keeps with coverageVectors := ht.filed h.coverageVectors }
  refine (useCoverageVectors_grants (VectorStage.solve_grants False h.wellFormed
    h.coverageVectors nofun nofun)).imp (fun _ _ => trivial) ?_ ?_
  · rintro _ _ ⟨t, rfl, -, ht⟩
    exact ⟨hready ht, ⟨rfl, rfl, fun _ => Iff.rfl⟩, ht.stores⟩
  · rintro solved _ ⟨t, rfl, ht, -, hsized⟩
    exact ⟨hready ht, ⟨rfl, rfl, fun _ => Iff.rfl⟩, ht.stores, hsized⟩

/-! ## §3 A plain solve -/

/-- What a solve of some constraints on scalars needs to succeed. -/
structure Solvable (settings : Settings) (scalars : List Constraint) (c : Context) : Prop where
  softs : ∀ x ∈ scalars, x.soft = false
  solved : ∀ p ∈ partitionPool scalars, ∃ env, p.SolvedBy c settings.maxVectorSize env
  defaultSize : ∀ (id : Nat) (entry : VectorEntry), c.vectors[id]? = some entry →
    (∀ x ∈ scalars, ∀ sort, ¬ x.expr.Mentions entry.size.id sort) →
      settings.defaultVectorSize < VectorStage.elementLimit

/-- A solve of the partitions succeeds if they have solutions. -/
theorem Solvable.not_unsolvable (h : Solvable settings scalars c) {p : Partition}
    (hp : p ∈ partitionPool scalars) : ¬ p.Unsolvable c settings.maxVectorSize := by
  rintro ⟨extra, hextra, hno⟩
  obtain ⟨env, henv⟩ := h.solved p hp
  have hnone : p.softs = [] := by
    unfold Partition.softs
    rw [List.map_eq_nil_iff, List.filter_eq_nil_iff]
    intro x hx
    rw [h.softs x ((split_partitionPool _).mem_pool hp hx)]
    simp
  rw [hnone, List.subset_nil] at hextra
  exact hno ⟨env, henv, fun e he => by simp [hextra] at he⟩

/-- Every vector gets a size that memory has room for. -/
theorem Solvable.size (h : Solvable settings scalars c)
    (hserved : Served False c c₁ (partitionPool scalars) settings.maxVectorSize read)
    (hkeeps : c.Keeps c₁) {id : Nat} {entry : VectorEntry} (hid : c₁.vectors[id]? = some entry) :
    ∃ value, read entry.size.id = .ok value ∧
      value.getD settings.defaultVectorSize < VectorStage.elementLimit := by
  by_cases hmentioned : ∃ x ∈ scalars, ∃ sort, x.expr.Mentions entry.size.id sort
  · -- A size that occurs in a constraint was bounded when its partition was solved.
    obtain ⟨x, hx, sort, hmention⟩ := hmentioned
    obtain ⟨p, hp, hmem⟩ := exists_partition hx
    obtain ⟨n, hle, hn⟩ := hserved.size hp hid ⟨x, hmem, hmention⟩
    refine ⟨some n, hn, ?_⟩
    have hlt : n < 2 ^ 32 := by omega
    exact hlt.trans (by decide)
  · obtain ⟨value, hvalue, -⟩ := hserved.wrote entry.size.id
    refine ⟨value, hvalue, ?_⟩
    -- Otherwise no solver knows the size, and the vector has its default one.
    cases value with
    | none =>
      obtain ⟨contents, hcontents⟩ := hkeeps.vector_back hid
      exact h.defaultSize id _ hcontents fun x hx sort hmention =>
        hmentioned ⟨x, hx, sort, hmention⟩
    | some n =>
      obtain ⟨p, hp, sort, x, hmem, hmention⟩ := hserved.within _ n hvalue
      exact absurd ⟨x, (split_partitionPool _).mem_pool hp hmem, sort, hmention⟩ hmentioned

/-- A solve with the solvers that are there. -/
theorem Ready.next_grants (safe : Prop) (h : Ready settings storageBits s)
    (hunchanged : s.item.registry.changed = false) (hcurrent : s.item.Current scalars onVectors)
    (hfew : safe → s.context.signature.Few) (hnone : safe → onVectors = [])
    (hsolvable : safe → Solvable settings scalars s.context) :
    Grants next s (Stuck safe)
      (fun _ s' => ¬ safe ∧ Ready settings storageBits s' ∧ SameProblem s.item s'.item ∧
        s.context.Keeps s'.context)
      fun solved s' => Ready settings storageBits s' ∧ SameProblem s.item s'.item ∧
        s.context.Keeps s'.context ∧ (safe → solved = true) ∧
          (solved = true → Satisfied settings.maxVectorSize scalars s'.context) := by
  unfold next
  refine (refresh_bind hunchanged).mpr ?_
  refine Grants.bind (solvePlain_grants safe h hfew).unrefused ?_
  rintro solved s₁ ⟨h₁, hsame, ht⟩
  rw [hcurrent.partitions_eq] at ht
  cases solved with
  | false =>
    refine .pure ⟨h₁, hsame, ht.keeps, fun hs => ?_, nofun⟩
    -- A partition without a solution leaves none for the whole.
    obtain ⟨p, hp, hno⟩ := ht.unsolvable rfl
    exact absurd hno ((hsolvable hs).not_unsolvable hp)
  | true =>
    -- Every partition has its solution, and now the vectors take the sizes that were found.
    have hserved := ht.served rfl
    refine .get_bind ?_
    refine (solveVectors_grants safe s₁.item.plain.read h₁ ?_ ?_).imp (fun _ hf => hf) ?_ ?_
    · exact fun hs => (hcurrent.same hsame).vectors (hnone hs)
    · exact fun hs id entry hid => (hsolvable hs).size hserved ht.keeps hid
    · rintro _ s₂ ⟨hno, h₂, hsame₂, hstores⟩
      exact ⟨hno, h₂, hsame.trans hsame₂, ht.keeps.trans hstores.keeps⟩
    · rintro solved s₂ ⟨h₂, hsame₂, hstores, hsolved, hsized⟩
      exact ⟨h₂, hsame.trans hsame₂, ht.keeps.trans hstores.keeps, hsolved,
        fun hs => satisfied_of_served hserved hstores (hsized hs)⟩

/-- The constraints are the same, and none of them counts as changed. -/
def Unchanged (s s' : InContext Generator) : Prop :=
  s'.item.registry = s.item.registry.acknowledge

/-- A solve of a generator, which first rebuilds what is not up to date. -/
theorem next_grants (safe : Prop) (h : Founded settings storageBits s)
    (hfew : safe → s.context.signature.Few) (hbits : safe → storageBits ≤ 31)
    (hnone : safe → s.item.registry.onVectors = [])
    (hsolvable : safe → Solvable settings s.item.registry.scalars s.context) :
    Grants next s (Ensemble.Stalled safe (PartitionSolver.build s.context storageBits settings)
        s.item.plain (partitionPool s.item.registry.scalars))
      (fun _ s' => ¬ safe ∧ Founded settings storageBits s' ∧ Unchanged s s')
      fun solved s' => Founded settings storageBits s' ∧ Unchanged s s' ∧
        s.context.Keeps s'.context ∧ (safe → solved = true) ∧
          (solved = true →
            Satisfied settings.maxVectorSize s.item.registry.scalars s'.context) := by
  unfold next
  refine Grants.bind (refresh_grants safe h hfew hbits fun hs => (hsolvable hs).solved).unrefused ?_
  rintro _ s₁ ⟨h₁, hcontext, hregistry⟩
  have hunchanged : s₁.item.registry.changed = false := by rw [hregistry]; rfl
  have hcurrent := h₁.current hunchanged
  rw [hregistry] at hcurrent
  -- Nothing is out of date any more, so the rest is the solve of a generator that is ready.
  have hnext := h₁.toReady.next_grants safe hunchanged hcurrent (hcontext ▸ hfew) hnone
    (hcontext ▸ hsolvable)
  unfold next at hnext
  have hdone {s' : InContext Generator} (hready : Ready settings storageBits s')
      (hsame : SameProblem s₁.item s'.item) (hkeeps : s₁.context.Keeps s'.context) :
      Founded settings storageBits s' ∧ Unchanged s s' :=
    ⟨h₁.same hready hsame hkeeps, hsame.registry_eq.trans hregistry⟩
  refine ((refresh_bind hunchanged).mp hnext).imp (fun _ hf => Ensemble.Stuck.stalled hf) ?_ ?_
  · rintro _ s' ⟨hno, hready, hsame, hkeeps⟩
    exact ⟨hno, hdone hready hsame hkeeps⟩
  · rintro solved s' ⟨hready, hsame, hkeeps, hsolved, hsatisfied⟩
    obtain ⟨hfounded, hacknowledged⟩ := hdone hready hsame hkeeps
    exact ⟨hfounded, hacknowledged, hcontext ▸ hkeeps, hsolved, hsatisfied⟩

/-! ## §4 A solve for coverage -/

/-- An attempt to hit a cover constraint.  Partitions without a hit keep the values of a plain
    solve. -/
theorem Ready.hitNext_grants (h : Ready settings storageBits s)
    (hcurrent : s.item.Current scalars onVectors) :
    Grants hitNext s (fun _ => True)
      (fun _ s' => Ready settings storageBits s' ∧ SameProblem s.item s'.item ∧
        s.context.Keeps s'.context)
      fun answer s' => Ready settings storageBits s' ∧ SameProblem s.item s'.item ∧
        s.context.Keeps s'.context ∧
          (answer = some true → Satisfied settings.maxVectorSize scalars s'.context) := by
  have hmissed {s' : InContext Generator} (h' : Ready settings storageBits s')
      (hsame : SameProblem s.item s'.item) (hkeeps : s.context.Keeps s'.context) :
      Grants (change ({ · with covered := true }) >>= fun _ => pure none) s' (fun _ => True)
        (fun _ s' => Ready settings storageBits s' ∧ SameProblem s.item s'.item ∧
          s.context.Keeps s'.context)
        fun answer s' => Ready settings storageBits s' ∧ SameProblem s.item s'.item ∧
          s.context.Keeps s'.context ∧
            (answer = some true → Satisfied settings.maxVectorSize scalars s'.context) :=
    change_bind (.pure ⟨{ h' with }, ⟨hsame.registry_eq, hsame.partitioner_eq, hsame.vectors⟩,
      hkeeps, nofun⟩)
  unfold hitNext
  refine Grants.bind ((solvePlain_grants False h nofun).imp (fun _ _ => trivial)
    (fun _ _ hr => hr.elim) fun _ _ hq => hq) ?_
  rintro solved s₁ ⟨h₁, hsame₁, ht₁⟩
  rw [hcurrent.partitions_eq] at ht₁
  cases solved with
  | false => exact .pure ⟨h₁, hsame₁, ht₁.keeps, nofun⟩
  | true =>
    refine Grants.bind ((solveCoverage_grants False h₁ nofun).imp (fun _ _ => trivial)
      (fun _ _ hr => hr.elim) fun _ _ hq => hq) ?_
    rintro hit s₂ ⟨h₂, hsame₂, hplain, ht₂⟩
    rw [(hcurrent.same hsame₁).partitions_eq] at ht₂
    have hsame₂ := hsame₁.trans hsame₂
    have hkeeps₂ := ht₁.keeps.trans ht₂.keeps
    cases hit with
    | false => exact hmissed h₂ hsame₂ hkeeps₂
    | true =>
      refine .get_bind (((solveCoverageVectors_grants h₂ s₂.item.readCovered).imp_refusal
        fun _ _ hr => ⟨hr.1, hsame₂.trans hr.2.1, hkeeps₂.trans hr.2.2.keeps⟩).bind ?_)
      rintro solved s₃ ⟨h₃, hsame₃, hstores, hsized⟩
      have hsame₃ := hsame₂.trans hsame₃
      have hkeeps₃ := hkeeps₂.trans hstores.keeps
      cases solved with
      | false => exact hmissed h₃ hsame₃ hkeeps₃
      | true =>
        -- The answers of coverage solvers stand on top of those of plain solvers.
        have hread : s₂.item.readCovered =
            Reading.orElse s₂.item.coverage.read s₁.item.plain.read := by
          rw [← hplain]
          rfl
        have hserved := (ht₁.served rfl).overlay ht₂.served ht₂.keeps
        rw [← hread] at hserved
        exact .pure ⟨h₃, hsame₃, hkeeps₃,
          fun _ => satisfied_of_served hserved hstores (hsized rfl)⟩

/-- A solve for coverage with the solvers that are there, or a plain one when nothing is left to
    hit. -/
theorem Ready.nextCover_grants (h : Ready settings storageBits s)
    (hunchanged : s.item.registry.changed = false)
    (hcurrent : s.item.Current scalars onVectors) :
    Grants nextCover s (fun _ => True)
      (fun _ s' => Ready settings storageBits s' ∧ SameProblem s.item s'.item ∧
        s.context.Keeps s'.context)
      fun solved s' => Ready settings storageBits s' ∧ SameProblem s.item s'.item ∧
        s.context.Keeps s'.context ∧
          (solved = true → Satisfied settings.maxVectorSize scalars s'.context) := by
  -- A plain solve is what is left when there is nothing to hit, before or after a try.
  have hnext {s' : InContext Generator} (h' : Ready settings storageBits s')
      (hsame : SameProblem s.item s'.item) (hkeeps : s.context.Keeps s'.context) :
      Grants next s' (fun _ => True)
        (fun _ s' => Ready settings storageBits s' ∧ SameProblem s.item s'.item ∧
          s.context.Keeps s'.context)
        fun solved s' => Ready settings storageBits s' ∧ SameProblem s.item s'.item ∧
          s.context.Keeps s'.context ∧
            (solved = true → Satisfied settings.maxVectorSize scalars s'.context) :=
    (h'.next_grants False (hsame.registry_eq ▸ hunchanged) (hcurrent.same hsame) nofun nofun
      nofun).imp (fun _ _ => trivial)
      (fun _ _ hr => ⟨hr.2.1, hsame.trans hr.2.2.1, hkeeps.trans hr.2.2.2⟩)
      fun _ _ hq => ⟨hq.1, hsame.trans hq.2.1, hkeeps.trans hq.2.2.1, hq.2.2.2.2⟩
  unfold nextCover
  refine (refresh_bind hunchanged).mpr (.get_bind ?_)
  cases s.item.covered with
  | true => exact hnext h ⟨rfl, rfl, fun _ => Iff.rfl⟩ (.refl _)
  | false =>
    refine (h.hitNext_grants hcurrent).bind ?_
    rintro answer s₁ ⟨h₁, hsame, hkeeps, hsatisfied⟩
    cases answer with
    | none => exact hnext h₁ hsame hkeeps
    | some answer => exact .pure ⟨h₁, hsame, hkeeps, fun hs => hsatisfied (by rw [hs])⟩

/-- A solve for coverage, which first rebuilds what is not up to date. -/
theorem nextCover_grants (h : Founded settings storageBits s) :
    Grants nextCover s (fun _ => True)
      (fun _ s' => Founded settings storageBits s' ∧ Unchanged s s')
      fun solved s' => Founded settings storageBits s' ∧ Unchanged s s' ∧
        (solved = true → Satisfied settings.maxVectorSize s.item.registry.scalars s'.context) := by
  unfold nextCover
  refine Grants.bind ((refresh_grants False h nofun nofun nofun).imp (fun _ _ => trivial)
    (fun _ _ hr => hr.elim) fun _ _ hq => hq) ?_
  rintro _ s₁ ⟨h₁, -, hregistry⟩
  have hunchanged : s₁.item.registry.changed = false := by rw [hregistry]; rfl
  have hcurrent := h₁.current hunchanged
  rw [hregistry] at hcurrent
  have hnext := h₁.toReady.nextCover_grants hunchanged hcurrent
  unfold nextCover at hnext
  have hdone {s' : InContext Generator} (hready : Ready settings storageBits s')
      (hsame : SameProblem s₁.item s'.item) (hkeeps : s₁.context.Keeps s'.context) :
      Founded settings storageBits s' ∧ Unchanged s s' :=
    ⟨h₁.same hready hsame hkeeps, hsame.registry_eq.trans hregistry⟩
  refine ((refresh_bind hunchanged).mp hnext).imp (fun _ hf => hf) ?_ ?_
  · rintro _ s' ⟨hready, hsame, hkeeps⟩
    exact hdone hready hsame hkeeps
  · rintro solved s' ⟨hready, hsame, hkeeps, hsatisfied⟩
    obtain ⟨hfounded, hacknowledged⟩ := hdone hready hsame hkeeps
    exact ⟨hfounded, hacknowledged, hsatisfied⟩

end

end Generator

end Stimulus
