import Stimulus.Proofs.Group.Ensemble
import Stimulus.Vector.Solver

/-!
# What solving vectors keeps

The vectors are solved after the scalars.  Only the contents of vectors and their size variables are
written, and a size variable that the scalar solve gave a value keeps it, because the vector gets as
many elements.  When all vectors are solved, each of them has its length as its size.

Main definitions:
- `Context.Stores`: what storing vectors keeps
- `VectorStage.Follows`: what a stage keeps

Main statements:
- `VectorSolver.solve_grants`
- `VectorStage.solve_grants`
-/

namespace Stimulus

/-! ## §1 Storing -/

namespace Context

/-- The context has all values that are answered. -/
def Confirms (c : Context) (read : Reading) : Prop :=
  ∀ id n, read id = .ok (some n) → c.bits id = n

/-- If the variable is the size of a vector, it has the value that is answered. -/
def Settled (read : Reading) (c : Context) (id : Nat) : Prop :=
  ∀ (vector : Nat) (entry : VectorEntry), c.vectors[vector]? = some entry → entry.size.id = id →
    read id = .ok (some (c.bits id))

/-- The second context has the declarations of the first.  Variables keep their values, sizes that
    are not answered apart, and vectors that have their length as their size have stayed so. -/
structure Stores (read : Reading) (c c' : Context) : Prop where
  keeps : c.Keeps c'
  bits_eq : ∀ id, c.Settled read id → c'.bits id = c.bits id
  sized : ∀ id, c.Sized id → c'.Sized id

section

variable {c c' c'' : Context} {read : Reading}

theorem Stores.refl (read : Reading) (c : Context) : c.Stores read c :=
  ⟨.refl c, fun _ _ => rfl, fun _ h => h⟩

theorem Stores.settled {id : Nat} (h : Stores read c c') (hid : c.Settled read id) :
    c'.Settled read id := by
  intro vector entry hvector hsize
  obtain ⟨contents, hcontents⟩ := h.keeps.vector_back hvector
  rw [h.bits_eq id hid]
  exact hid vector _ hcontents hsize

theorem Stores.trans (h : Stores read c c') (h' : Stores read c' c'') : Stores read c c'' :=
  ⟨h.keeps.trans h'.keeps, fun id hid => (h'.bits_eq id (h.settled hid)).trans (h.bits_eq id hid),
    fun id hid => h'.sized id (h.sized id hid)⟩

/-- What is answered stays the value of its variable. -/
theorem Stores.confirms (h : Stores read c c') (hc : c.Confirms read) : c'.Confirms read := by
  intro id n hn
  have hsame := hc id n hn
  rw [h.bits_eq id fun _ _ _ _ => hsame.symm ▸ hn]
  exact hsame

theorem stores_takeId (read : Reading) (c : Context) : Stores read c (takeId c).2 :=
  ⟨keeps_takeId c, fun _ _ => rfl, fun _ h => h⟩

/-- A vector is stored with as many elements as its size variable has as an answer, if any. -/
theorem stores_store (hc : c.WellFormed) {id : Nat} {values : List Nat}
    (hlength : ∀ entry : VectorEntry, c.vectors[id]? = some entry →
      ∀ n, read entry.size.id = .ok (some n) → values.length = n) :
    Stores read c (c.store id values) where
  keeps := keeps_store hc id values
  bits_eq id' h := by
    cases hentry : c.vectors[id]? with
    | none => rw [store_of_none hentry]
    | some entry =>
      rw [bits_store hc hentry]
      split
      · rename_i heq
        exact hlength entry hentry _ (heq ▸ h id entry hentry heq)
      · rfl
  sized _ hid := hid.store hc values

end

end Context

/-! ## §2 One vector -/

/-- A vector gets the size that is answered, or else the default size. -/
theorem sizeOf?_ends {entry : VectorEntry} {read : Reading} {default : Nat} {safe : Prop}
    (hread : safe → ∃ value, read entry.size.id = .ok value) :
    Ends (sizeOf? entry read default) (Stuck safe) fun size =>
      ∃ value, read entry.size.id = .ok value ∧ size = value.getD default := by
  unfold sizeOf?
  cases hvalue : read entry.size.id with
  | error fault =>
    refine stuck_of_not fun hsafe => ?_
    obtain ⟨value, hok⟩ := hread hsafe
    cases hvalue.symm.trans hok
  | ok value => exact ⟨value, rfl, rfl⟩

namespace VectorSolver

/-- The working state is about the same vector, and its source makes the same solvers. -/
structure Follows (read : Reading) (s s' : InContext VectorWork) : Prop where
  stores : s.context.Stores read s'.context
  source : s.item.source.Alike s'.item.source
  vectorId_eq : s'.item.solver.vectorId = s.item.solver.vectorId

section

variable {s s' s'' : InContext VectorWork} {read : Reading} {E : Fault → Prop}
  {R : Refusal → InContext VectorWork → Prop} {safe : Prop}

theorem Follows.refl (read : Reading) (s : InContext VectorWork) : Follows read s s :=
  ⟨.refl read _, .refl _, rfl⟩

theorem Follows.trans (h : Follows read s s') (h' : Follows read s' s'') : Follows read s s'' :=
  ⟨h.stores.trans h'.stores, h.source.trans h'.source, h'.vectorId_eq.trans h.vectorId_eq⟩

/-- New symbols are added to the known ones. -/
theorem addElements_spec (read : Reading) (elem : BitSort) (known : Array Expr) (n : Nat)
    (c : Context) : (addElements elem known n c).1.size = known.size + n ∧
      c.Stores read (addElements elem known n c).2 := by
  induction n generalizing known c with
  | zero => exact ⟨rfl, .refl read c⟩
  | succ n ih =>
    have hrun : addElements elem known (n + 1) c =
        addElements elem (known.push (.var (Context.takeId c).1 elem)) n (Context.takeId c).2 := rfl
    rw [hrun]
    obtain ⟨hsize, hstores⟩ := ih (known.push _) (Context.takeId c).2
    exact ⟨by rw [hsize, Array.size_push]; omega, (Context.stores_takeId read c).trans hstores⟩

theorem grow_grants (read : Reading) (size : Nat) (elem : BitSort) :
    Grants (grow size elem) s E R fun elements s' => elements.size = size ∧ Follows read s s' := by
  obtain ⟨hsize, hstores⟩ := addElements_spec read elem s.item.solver.elements
    (size - s.item.solver.elements.size) s.context
  refine .get_bind ?_
  dsimp only
  refine Grants.bind (P := fun elements s' => size ≤ elements.size ∧ Follows read s s') ?_ ?_
  · exact ⟨by show size ≤ (addElements _ _ _ _).1.size; omega, hstores, .refl _, rfl⟩
  · rintro elements s' ⟨hle, hs'⟩
    refine .modify_bind (.pure ⟨?_, hs'.stores, hs'.source, hs'.vectorId_eq⟩)
    rw [Array.take_eq_extract, Array.size_extract]
    omega

/-- The search for a model uses the source of solvers only. -/
theorem findModel_grants (read : Reading) (hsafe : ¬ safe) (elements : Array Expr) :
    Grants (findModel elements) s (Stuck safe) (fun _ s' => Follows read s s') fun _ s' =>
      Follows read s s' := by
  unfold findModel
  refine .get_bind ?_
  dsimp only
  refine .ofExcept_bind (SolverSource.create_ensures (Γ := s.context.signature)
    fun hs => absurd hs hsafe) ?_
  rintro ⟨model, source⟩ ⟨-, hsource⟩
  refine .modify_bind ?_
  have hs' : Follows read s ⟨s.context, { s.item with source := source }⟩ :=
    ⟨.refl read _, hsource, rfl⟩
  refine Grants.bind (P := fun _ s' => Follows read s s') ?_ fun _ s' hs' => .pure hs'
  exact (Attempts.ofAttempt ((attempts_trivial _ hsafe).imp (fun _ hf => hf) (fun _ _ => hs')
    fun _ h => h)).mono fun _ s' h => h.2 ▸ hs'

/-- A vector that is solved has its length as its size. -/
theorem solve_grants (read : Reading) (hc : s.context.WellFormed) (hsafe : ¬ safe) :
    Grants (solve read) s (Stuck safe) (fun _ s' => Follows read s s') fun solved s' =>
      Follows read s s' ∧ (solved = true → s'.context.Sized s.item.solver.vectorId) := by
  obtain ⟨c, work⟩ := s
  unfold solve
  refine .get_bind ?_
  dsimp only
  cases hentry : c.vectors[work.solver.vectorId]? with
  | none => exact .pure ⟨.refl read _, nofun⟩
  | some entry =>
    dsimp only
    refine .ofExcept_bind (sizeOf?_ends fun hs => absurd hs hsafe) ?_
    rintro size ⟨value, hvalue, rfl⟩
    split
    · exact .bind (.throw (.refl read _)) fun _ _ h => h
    refine (grow_grants read _ _).bind ?_
    rintro elements s₁ ⟨hsize, h₁⟩
    refine ((findModel_grants read hsafe elements).imp_refusal fun _ _ hr => h₁.trans hr).bind
      fun model s₂ h₂ => ?_
    have h₂ := h₁.trans h₂
    cases model with
    | none => exact .pure ⟨h₂, nofun⟩
    | some model =>
      dsimp only
      have hvalues : Ensures (elements.toList.mapM (elementValue model entry.elem)) work.rng
          (Stuck safe) fun values _ =>
            (values.length = elements.toList.length ∧ ∀ n ∈ values, True) ∧ True :=
        ensures_mapM trivial fun e _ rng _ =>
          (ends_trivial _ hsafe).imp (fun _ hf => hf) fun _ _ => ⟨trivial, trivial⟩
      refine .ofExcept_bind hvalues ?_
      rintro ⟨values, rng⟩ ⟨⟨hlength, -⟩, -⟩
      have hc₂ := h₂.stores.keeps.wellFormed hc
      refine .modify_bind (.pure ⟨⟨h₂.stores.trans (Context.stores_store hc₂ ?_), h₂.source,
        h₂.vectorId_eq⟩, fun _ => Context.sized_store hc₂ _ _⟩)
      -- The vector gets as many elements as its size variable has as an answer.
      intro entry' hentry' n hn
      obtain ⟨contents, hcontents⟩ := h₂.stores.keeps.vector hentry
      cases hcontents.symm.trans hentry'
      cases hvalue.symm.trans hn
      rw [hlength, Array.length_toList, hsize]
      rfl

end

end VectorSolver

/-! ## §3 All vectors -/

namespace VectorStage

/-- Every solver is filed under the vector that it is about. -/
def Filed (solvers : Std.TreeMap Nat VectorSolver) : Prop :=
  ∀ (id : Nat) (solver : VectorSolver), solvers[id]? = some solver → solver.vectorId = id

/-- Constraints are grouped by the vector that they are about. -/
theorem filed_reset (stage : VectorStage) (constraints : List Constraint) :
    Filed (stage.reset constraints).solvers := by
  have hfiled : Filed ∅ := fun id solver hid => by simp at hid
  unfold reset
  dsimp only
  generalize (∅ : Std.TreeMap Nat VectorSolver) = solvers at hfiled ⊢
  induction constraints generalizing solvers with
  | nil => exact hfiled
  | cons c constraints ih =>
    refine ih _ ?_
    dsimp only
    cases c.vectorId? with
    | none => exact hfiled
    | some id =>
      intro id' solver' hid'
      rw [getElem?_treeMap_insert] at hid'
      split at hid'
      · rename_i heq
        cases hid'
        cases hid : solvers[id]? with
        | none => exact heq
        | some solver => exact (hfiled id solver hid).trans heq
      · exact hfiled id' solver' hid'

/-- The stage has solvers for the same vectors, and its source makes the same solvers. -/
structure Follows (read : Reading) (s s' : InContext VectorStage) : Prop where
  stores : s.context.Stores read s'.context
  source : s.item.source.Alike s'.item.source
  vectorIds : ∀ id : Nat, s'.item.solvers[id]?.map VectorSolver.vectorId =
    s.item.solvers[id]?.map VectorSolver.vectorId

section

variable {s s' s'' : InContext VectorStage} {read : Reading} {safe : Prop} {id : Nat}

theorem Follows.refl (read : Reading) (s : InContext VectorStage) : Follows read s s :=
  ⟨.refl read _, .refl _, fun _ => rfl⟩

theorem Follows.trans (h : Follows read s s') (h' : Follows read s' s'') : Follows read s s'' :=
  ⟨h.stores.trans h'.stores, h.source.trans h'.source,
    fun id => (h'.vectorIds id).trans (h.vectorIds id)⟩

theorem Follows.filed (h : Follows read s s') (hs : Filed s.item.solvers) :
    Filed s'.item.solvers := by
  intro id solver hid
  have hsame := h.vectorIds id
  rw [hid] at hsame
  obtain ⟨solver', hid', heq⟩ := Option.map_eq_some_iff.mp hsame.symm
  exact heq.symm.trans (hs id solver' hid')

theorem Follows.mem_iff (h : Follows read s s') : id ∈ s'.item.solvers ↔ id ∈ s.item.solvers := by
  have hsame := congrArg Option.isSome (h.vectorIds id)
  rw [Option.isSome_map, Option.isSome_map] at hsame
  rw [Std.TreeMap.mem_iff_isSome_getElem?, Std.TreeMap.mem_iff_isSome_getElem?, hsame]

theorem solveOne_grants (hc : s.context.WellFormed) (hs : Filed s.item.solvers) (hsafe : ¬ safe)
    (id : Nat) : Grants (solveOne read id) s (Stuck safe) (fun _ s' => Follows read s s')
      fun solved s' => Follows read s s' ∧
        (solved = true → id ∈ s.item.solvers → s'.context.Sized id) := by
  obtain ⟨c, stage⟩ := s
  unfold Grants solveOne
  dsimp only
  cases hid : stage.solvers[id]? with
  | none =>
    refine ⟨.refl read _, fun _ hmem => ?_⟩
    rw [Std.TreeMap.mem_iff_isSome_getElem?, hid] at hmem
    cases hmem
  | some solver =>
    have hsolve :=
      VectorSolver.solve_grants read (s := ⟨c, solver, stage.source, stage.rng⟩) hc hsafe
    -- What the one solver keeps, the stage keeps, in which it is put back.
    have hfollows {c' : Context} {solver' : VectorSolver} {source : SolverSource} {rng : Stream}
        (h : VectorSolver.Follows read ⟨c, solver, stage.source, stage.rng⟩
          ⟨c', solver', source, rng⟩) :
        Follows read ⟨c, stage⟩ ⟨c', source, rng, stage.solvers.insert id solver'⟩ := by
      refine ⟨h.stores, h.source, fun id' => ?_⟩
      dsimp only
      rw [getElem?_treeMap_insert]
      split
      · rename_i heq
        rw [← heq, hid]
        exact congrArg some h.vectorId_eq
      · rfl
    unfold Grants at hsolve
    dsimp only
    cases hact : VectorSolver.solve read ⟨c, solver, stage.source, stage.rng⟩ with
    | error fault =>
      rw [hact] at hsolve
      exact hsolve
    | ok r =>
      rw [hact] at hsolve
      obtain ⟨refusal | solved, c', solver', source, rng⟩ := r
      · exact hfollows hsolve
      · have hvector : solver.vectorId = id := hs id solver hid
        exact ⟨hfollows hsolve.1, fun hsolved _ => hvector ▸ hsolve.2 hsolved⟩

/-- Constrained vectors are solved in turn; those that were solved keep their size. -/
theorem solveEach_grants {ids : List Nat} (hc : s.context.WellFormed) (hs : Filed s.item.solvers)
    (hsafe : ∀ id ∈ ids, ¬ safe) :
    Grants (solveEach read ids) s (Stuck safe) (fun _ s' => ¬ safe ∧ Follows read s s')
      fun solved s' => Follows read s s' ∧ (safe → solved = true) ∧
        (solved = true → ∀ id ∈ ids, id ∈ s.item.solvers → s'.context.Sized id) := by
  induction ids generalizing s with
  | nil => exact .pure ⟨.refl read s, fun _ => rfl, fun _ id hid => absurd hid List.not_mem_nil⟩
  | cons id ids ih =>
    have hno := hsafe id List.mem_cons_self
    unfold solveEach
    refine ((solveOne_grants hc hs hno id).imp_refusal fun _ _ hr => ⟨hno, hr⟩).bind ?_
    rintro solved s₁ ⟨h₁, hsized⟩
    cases solved with
    | false => exact .pure ⟨h₁, fun hs => absurd hs hno, nofun⟩
    | true =>
      refine (ih (h₁.stores.keeps.wellFormed hc) (h₁.filed hs)
        fun id' hid' => hsafe id' (List.mem_cons_of_mem id hid')).imp (fun _ hf => hf)
          (fun _ _ hr => ⟨hr.1, h₁.trans hr.2⟩) ?_
      rintro solved s₂ ⟨h₂, hsolved, hrest⟩
      refine ⟨h₁.trans h₂, hsolved, fun hall id' hid' hmem => ?_⟩
      rcases List.mem_cons.mp hid' with rfl | hid'
      · exact h₂.stores.sized id' (hsized rfl hmem)
      · exact hrest hall id' hid' (h₁.mem_iff.mpr hmem)

theorem randomBits_draws (s : BitSort) : Draws (Context.randomBits s) fun _ => True :=
  (Stream.words_draws 2).bind fun _ _ => .pure trivial

/-- A vector that is filled has its length as its size. -/
theorem fill_grants {entry : VectorEntry} (hc : s.context.WellFormed)
    (hentry : ∃ contents, s.context.vectors[id]? = some { entry with contents := contents })
    (hread : safe → ∃ value, read entry.size.id = .ok value ∧
      value.getD s.item.source.settings.defaultVectorSize < elementLimit) :
    Grants (fill read id entry) s (Stuck safe) (fun _ _ => False) fun _ s' =>
      Follows read s s' ∧ s'.context.Sized id := by
  unfold fill
  refine .get_bind ?_
  dsimp only
  refine .ofExcept_bind (sizeOf?_ends fun hs => (hread hs).imp fun _ h => h.1) ?_
  rintro size ⟨value, hvalue, rfl⟩
  generalize hsize : value.getD s.item.source.settings.defaultVectorSize = size
  split
  · rename_i hlarge
    refine .bind (.fault (stuck_of_not fun hs => ?_)) fun _ _ h => h
    obtain ⟨value', hvalue', hlt⟩ := hread hs
    cases hvalue.symm.trans hvalue'
    omega
  · have hvalues := draws_mapM (List.replicate size ()) (f := fun _ =>
      Context.randomBits entry.elem) (fun _ _ => randomBits_draws _) s.item.rng
    refine .ofExcept_bind (hvalues.imp (fun _ hf => hf ▸ stuck_drawNeverEnds) fun _ _ h => h) ?_
    rintro ⟨values, rng⟩ ⟨hlength, -⟩
    refine .modify ⟨⟨Context.stores_store hc ?_, .refl _, fun _ => rfl⟩,
      Context.sized_store hc _ _⟩
    intro entry' hentry' n hn
    obtain ⟨contents, hcontents⟩ := hentry
    cases hcontents.symm.trans hentry'
    cases hvalue.symm.trans hn
    rw [hlength, List.length_replicate, ← hsize]
    rfl

/-- When all vectors are solved or filled, each of them has its length as its size.  Without
    constraints on vectors there is always a solution, unless a vector is too large for memory. -/
theorem solve_grants (safe : Prop) (hc : s.context.WellFormed) (hs : Filed s.item.solvers)
    (hnone : safe → ∀ id, id ∉ s.item.solvers)
    (hread : safe → ∀ (id : Nat) (entry : VectorEntry), s.context.vectors[id]? = some entry →
      ∃ value, read entry.size.id = .ok value ∧
        value.getD s.item.source.settings.defaultVectorSize < elementLimit) :
    Grants (solve read) s (Stuck safe) (fun _ s' => ¬ safe ∧ Follows read s s') fun solved s' =>
      Follows read s s' ∧ (safe → solved = true) ∧
        (solved = true → ∀ id, s'.context.Sized id) := by
  unfold solve
  refine .get_bind ((solveEach_grants hc hs fun id hid hsafe =>
    hnone hsafe id (Std.TreeMap.mem_keys.mp hid)).bind ?_)
  rintro solved s₁ ⟨h₁, hsolved, hsized⟩
  cases solved with
  | false => exact .pure ⟨h₁, hsolved, nofun⟩
  | true =>
    have hc₁ := h₁.stores.keeps.wellFormed hc
    refine .get_bind ?_
    dsimp only
    refine Grants.bind (P := fun _ s' => Follows read s₁ s' ∧
      ∀ x ∈ s₁.context.vectors.toList, s'.context.Sized x.1) ?_ ?_
    · refine grants_forM_each (.refl read) (fun _ _ _ => .trans)
        (fun x _ _ h => h.stores.sized x.1) ?_
      rintro ⟨id, entry⟩ hmem s₂ h₂
      have hentry := Std.TreeMap.mem_toList_iff_getElem?_eq_some.mp hmem
      dsimp only
      split
      · -- A vector with a solver was solved before.
        rename_i hcontains
        have hsolver := h₁.mem_iff.mp (Std.TreeMap.mem_iff_contains.mpr hcontains)
        have hkey := hsized rfl id (Std.TreeMap.mem_keys.mpr hsolver) hsolver
        exact .pure ⟨.refl read s₂, h₂.stores.sized id hkey⟩
      · refine (fill_grants (h₂.stores.keeps.wellFormed hc₁) (h₂.stores.keeps.vector hentry)
          fun hsafe => ?_).unrefused
        obtain ⟨contents, hcontents⟩ := h₁.stores.keeps.vector_back hentry
        have hlimit := hread hsafe id _ hcontents
        rw [(h₁.trans h₂).source.settings_eq]
        exact hlimit
    · rintro _ s₂ ⟨h₂, hall⟩
      refine .pure ⟨h₁.trans h₂, fun _ => rfl, fun _ id entry hentry => ?_⟩
      obtain ⟨contents, hcontents⟩ := h₂.stores.keeps.vector_back hentry
      exact hall (id, _) (Std.TreeMap.mem_toList_iff_getElem?_eq_some.mpr hcontents) entry hentry

end

/-! ## §4 Stages without constraints -/

section

variable {s : InContext VectorStage} {read : Reading}

/-- A stage that reads no sizes and whose words do not run out fills a vector to the default
    size. -/
theorem fill_default {id : Nat} {entry : VectorEntry} (hread : read entry.size.id = .ok none)
    (hrng : s.item.rng.Endless)
    (hdefault : s.item.source.settings.defaultVectorSize < elementLimit) :
    Grants (fill read id entry) s (fun _ => False) (fun _ _ => False) fun _ s' =>
      ∃ values rng, values.length = s.item.source.settings.defaultVectorSize ∧ rng.Endless ∧
        s' = ⟨s.context.store id values, { s.item with rng := rng }⟩ := by
  unfold fill
  refine .get_bind ?_
  dsimp only
  refine .ofExcept_bind (T := (· = s.item.source.settings.defaultVectorSize)) ?_ ?_
  · unfold Ends sizeOf?
    rw [hread]
    rfl
  rintro size rfl
  rw [if_neg (by omega)]
  have hvalues : Ensures ((List.replicate s.item.source.settings.defaultVectorSize ()).mapM
      fun _ => Context.randomBits entry.elem) s.item.rng (fun _ => False) fun values rng =>
        (values.length = (List.replicate s.item.source.settings.defaultVectorSize ()).length ∧
          ∀ n ∈ values, True) ∧ rng.Endless :=
    ensures_mapM hrng fun _ _ rng h =>
      (h.words_ensures 2).bind fun _ _ h' => .pure ⟨trivial, h'⟩
  refine .ofExcept_bind hvalues ?_
  rintro ⟨values, rng⟩ ⟨⟨hlength, -⟩, hrng'⟩
  rw [List.length_replicate] at hlength
  exact .modify ⟨values, rng, hlength, hrng', rfl⟩

/-- Vectors have the default size as far as they were filled. -/
structure FilledUpTo (s : InContext VectorStage) (done : List (Nat × VectorEntry))
    (s' : InContext VectorStage) : Prop where
  endless : s'.item.rng.Endless
  source_eq : s'.item.source = s.item.source
  solvers_eq : s'.item.solvers = ∅
  declared : ∀ id : Nat, s'.context.vectors[id]?.isSome → s.context.vectors[id]?.isSome
  length : ∀ x ∈ done, ∀ entry, s'.context.vectors[x.1]? = some entry →
    entry.contents.length = s.item.source.settings.defaultVectorSize

/-- One more vector is filled. -/
theorem FilledUpTo.store {s' : InContext VectorStage} {done : List (Nat × VectorEntry)}
    (h : FilledUpTo s done s') (x : Nat × VectorEntry) {values : List Nat} {rng : Stream}
    (hlength : values.length = s'.item.source.settings.defaultVectorSize) (hrng : rng.Endless) :
    FilledUpTo s (done ++ [x])
      ⟨s'.context.store x.1 values, { s'.item with rng := rng }⟩ := by
  rw [h.source_eq] at hlength
  -- What is not declared is not stored, and nothing is said of its length.
  cases hx : s'.context.vectors[x.1]? with
  | none =>
    rw [Context.store_of_none hx]
    refine ⟨hrng, h.source_eq, h.solvers_eq, h.declared, fun y hy entry hentry => ?_⟩
    rcases List.mem_append.mp hy with hy | hy
    · exact h.length y hy entry hentry
    · cases List.mem_singleton.mp hy
      cases hx.symm.trans hentry
  | some stored =>
    refine ⟨hrng, h.source_eq, h.solvers_eq, fun id hid => ?_, fun y hy entry hentry => ?_⟩
    · rw [Context.vectors_store hx] at hid
      split at hid
      · rename_i heq
        exact h.declared id (by rw [← heq, hx]; rfl)
      · exact h.declared id hid
    · rw [Context.vectors_store hx] at hentry
      split at hentry
      · cases hentry
        exact hlength
      · rename_i hne
        rcases List.mem_append.mp hy with hy | hy
        · exact h.length y hy entry hentry
        · exact absurd (congrArg Prod.fst (List.mem_singleton.mp hy)).symm hne

/-- It fills all vectors. -/
theorem solve_default (hsolvers : s.item.solvers = ∅) (hread : ∀ id, read id = .ok none)
    (hrng : s.item.rng.Endless)
    (hdefault : s.item.source.settings.defaultVectorSize < elementLimit) :
    Grants (solve read) s (fun _ => False) (fun _ _ => False) fun solved s' => solved = true ∧
      ∀ (id : Nat) (entry : VectorEntry), s'.context.vectors[id]? = some entry →
        entry.contents.length = s.item.source.settings.defaultVectorSize := by
  have hkeys : s.item.solvers.keys = [] := by
    rw [hsolvers]
    rfl
  unfold solve
  refine .get_bind ?_
  rw [hkeys]
  refine Grants.bind (P := fun solved s' => solved = true ∧ s = s') (.pure ⟨rfl, rfl⟩) ?_
  rintro _ _ ⟨rfl, rfl⟩
  refine .get_bind ?_
  dsimp only
  refine Grants.bind (P := fun _ s' => FilledUpTo s s.context.vectors.toList s') ?_ ?_
  · refine grants_forM_from (I := FilledUpTo s)
      ⟨hrng, rfl, hsolvers, fun _ h => h, by simp⟩ ?_
    rintro done ⟨id, entry⟩ s' h' -
    dsimp only
    rw [hsolvers, if_neg (by simp)]
    refine (fill_default (hread _) h'.endless (h'.source_eq ▸ hdefault)).imp (fun _ hf => hf)
      (fun _ _ hr => hr) ?_
    rintro _ _ ⟨values, rng, hlength, hrng', rfl⟩
    exact h'.store (id, entry) hlength hrng'
  · rintro _ s' h'
    refine .pure ⟨rfl, fun id entry hentry => ?_⟩
    obtain ⟨entry', hentry'⟩ := Option.isSome_iff_exists.mp (h'.declared id (by rw [hentry]; rfl))
    have hmem := Std.TreeMap.mem_toList_iff_getElem?_eq_some.mpr hentry'
    exact h'.length (id, entry') hmem entry hentry

end

end VectorStage

end Stimulus
