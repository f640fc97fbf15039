import Stimulus.Proofs.Group.Sizes
import Stimulus.Proofs.Vector.Solver

/-!
# How many elements vectors get

A vector gets as many elements as its size variable has as an answer, or else as the default size
says, whether a constraint is about it or not.  If the answers and the default size are within the
maximum, then so are all vectors, and no vector is refused for its size.

Main definitions:
- `Context.Advances`: only ids are taken
- `Context.Filled`: a vector has the size that is read for it

Main statements:
- `VectorSolver.solve_fills`
- `VectorStage.solve_fills`, `VectorStage.solve_within`
-/

namespace Stimulus

/-! ## §1 Lengths -/

namespace Context

/-- The second context differs from the first at most by ids that were taken. -/
def Advances (c c' : Context) : Prop := ∃ n, c.nextId ≤ n ∧ c' = { c with nextId := n }

/-- The vector has as many elements as its size variable has as an answer, or else as the default
    size says. -/
def Filled (read : Reading) (default : Nat) (c : Context) (id : Nat) : Prop :=
  ∀ entry, c.vectors[id]? = some entry → sizeOf? entry read default = .ok entry.contents.length

section

variable {c c' c'' : Context} {read : Reading} {default id : Nat}

theorem Advances.refl (c : Context) : c.Advances c := ⟨c.nextId, Nat.le_refl _, rfl⟩

theorem Advances.vectors_eq (h : c.Advances c') : c'.vectors = c.vectors := by
  obtain ⟨n, -, rfl⟩ := h
  rfl

theorem Filled.advances (h : c.Filled read default id) (hadv : c.Advances c') :
    c'.Filled read default id := by
  unfold Filled
  rwa [hadv.vectors_eq]

/-- A vector that is stored with the size that is read for it is filled, and the other vectors stay
as they are. -/
theorem filled_store {entry : VectorEntry} {values : List Nat} (hentry : c.vectors[id]? = some entry)
    (hsize : sizeOf? entry read default = .ok values.length) :
    (c.store id values).Filled read default id ∧
      ∀ id', c.Filled read default id' → (c.store id values).Filled read default id' := by
  refine ⟨fun stored hstored => ?_, fun id' h stored hstored => ?_⟩
  · rw [vectors_store hentry, if_pos rfl] at hstored
    cases hstored
    exact hsize
  · rw [vectors_store hentry] at hstored
    split at hstored
    · cases hstored
      exact hsize
    · exact h stored hstored

/-- Sizes that are read are within a maximum if the answers and the default size are. -/
theorem Limits.sizeOf?_le {max n : Nat} (h : c.Limits max read) (hdefault : default ≤ max)
    {entry : VectorEntry} (hentry : c.vectors[id]? = some entry)
    (hsize : sizeOf? entry read default = .ok n) : n ≤ max := by
  unfold sizeOf? at hsize
  cases hvalue : read entry.size.id with
  | error fault =>
    rw [hvalue] at hsize
    cases hsize
  | ok value =>
    rw [hvalue] at hsize
    cases hsize
    cases value with
    | none => exact hdefault
    | some n => exact h id entry hentry n hvalue

/-- Sizes within a maximum make vectors within it. -/
theorem Filled.length_le {max : Nat} (h : c.Filled read default id) (hlimits : c.Limits max read)
    (hdefault : default ≤ max) {entry : VectorEntry} (hentry : c.vectors[id]? = some entry) :
    entry.contents.length ≤ max :=
  hlimits.sizeOf?_le hdefault hentry (h entry hentry)

/-- The refusal of a vector that is declared and would get more elements than the maximum. -/
def Oversized (read : Reading) (default max : Nat) (c : Context) (refusal : Refusal) : Prop :=
  ∃ id entry n, c.vectors[id]? = some entry ∧ sizeOf? entry read default = .ok n ∧ max < n ∧
    refusal = .vectorTooLarge id n max

theorem Oversized.keeps_back {max : Nat} {refusal : Refusal}
    (h : c'.Oversized read default max refusal) (hkeeps : c.Keeps c') :
    c.Oversized read default max refusal := by
  obtain ⟨id, entry, n, hentry, hsize, hlt, rfl⟩ := h
  obtain ⟨contents, hcontents⟩ := hkeeps.vector_back hentry
  exact ⟨id, _, n, hcontents, hsize, hlt, rfl⟩

theorem Limits.not_oversized {max : Nat} {refusal : Refusal} (h : c.Limits max read)
    (hdefault : default ≤ max) : ¬ c.Oversized read default max refusal := by
  rintro ⟨id, entry, n, hentry, hsize, hlt, -⟩
  have hle := h.sizeOf?_le hdefault hentry hsize
  omega

end

end Context

/-! ## §2 One vector -/

namespace Solver

theorem encode_refuses (e : Expr) (s : Solver) :
    Grants (encode e.encodeTruth) s (fun _ => True)
      (fun refusal _ => refusal.Unsupported ∧ e.mentionsVector = true) fun _ _ => True := by
  apply (encode_focus (encodeTruth_refuses e s.encoding)).imp (fun _ hf => hf)
  · rintro refusal _ ⟨_, -, hr⟩
    exact hr
  · exact fun _ _ _ => trivial

/-- Constraints are refused only for want of a circuit. -/
theorem assert_refuses (e : Expr) (s : Solver) :
    Grants (assert e) s (fun _ => True)
      (fun refusal _ => refusal.Unsupported ∧ e.mentionsVector = true) fun _ _ => True := by
  apply (encode_refuses e s).bind
  intro f s₁ _
  apply Grants.get_bind
  apply (ensures_true _ s₁).step.bind
  intro g s₂ _
  exact .modify trivial

theorem assertSoft_refuses (e : Expr) (s : Solver) :
    Grants (assertSoft e) s (fun _ => True)
      (fun refusal _ => refusal.Unsupported ∧ e.mentionsVector = true) fun _ _ => True := by
  apply (encode_refuses e s).bind
  exact fun f s₁ _ => .modify trivial

end Solver

namespace VectorSolver

/-- New symbols have the next ids. -/
def newElements (next n : Nat) (elem : BitSort) : Array Expr :=
  ((List.range' next n).map (Expr.var · elem)).toArray

theorem addElements_eq (elem : BitSort) (known : Array Expr) (n : Nat) (c : Context) :
    addElements elem known n c =
      (known ++ newElements c.nextId n elem, { c with nextId := c.nextId + n }) := by
  induction n generalizing known c with
  | zero =>
    have hnone : known ++ newElements c.nextId 0 elem = known := Array.append_empty
    rw [hnone]
    rfl
  | succ n ih =>
    have hrun : addElements elem known (n + 1) c =
        addElements elem (known.push (.var c.nextId elem)) n
          { c with nextId := c.nextId + 1 } := rfl
    have hmore : known.push (.var c.nextId elem) ++ newElements (c.nextId + 1) n elem =
        known ++ newElements c.nextId (n + 1) elem := by
      apply Array.toList_inj.mp
      simp [newElements, List.range'_succ]
    have hnext : c.nextId + 1 + n = c.nextId + (n + 1) := by omega
    rw [hrun, ih]
    dsimp only
    rw [hmore, hnext]

/-- The solver with symbols for at least so many elements. -/
def grown (s : VectorSolver) (size next : Nat) (elem : BitSort) : VectorSolver :=
  { s with elements := s.elements ++ newElements next (size - s.elements.size) elem }

theorem grow_eq (size : Nat) (elem : BitSort) (c : Context) (work : VectorWork) :
    grow size elem ⟨c, work⟩ = .ok
      (.ok ((work.solver.grown size c.nextId elem).elements.take size),
        ⟨{ c with nextId := c.nextId + (size - work.solver.elements.size) },
          { work with solver := work.solver.grown size c.nextId elem }⟩) := by
  have hrun : grow size elem ⟨c, work⟩ =
      let (elements, context) :=
        addElements elem work.solver.elements (size - work.solver.elements.size) c
      .ok (.ok (elements.take size),
        ⟨context, { work with solver := { work.solver with elements := elements } }⟩) := rfl
  rw [hrun, addElements_eq]
  rfl

section

variable {s : InContext VectorWork} {read : Reading}

/-- Some instance for the given symbols needs a vector, so that it has no circuit. -/
def Unclear (cs : List Constraint) (elements : Array Expr) : Prop :=
  ∃ c ∈ cs, ∃ e, .ok (some e) ∈ instances c elements ∧ e.mentionsVector = true

theorem assertInstances_refuses (elements : Array Expr) (cs : List Constraint) (t : Solver) :
    Grants (assertInstances elements cs) t (fun _ => True)
      (fun refusal _ => refusal.Unsupported ∧ Unclear cs elements) fun _ _ => True := by
  induction cs generalizing t with
  | nil => exact .pure trivial
  | cons c cs ih =>
    unfold assertInstances
    apply Grants.bind (P := fun _ _ => True)
    · -- Whatever is refused is an instance of the first constraint.
      apply grants_forM (I := fun _ => True) trivial
      intro attempt hattempt t _
      apply Grants.ofExcept_bind (T := fun instance? => attempt = .ok instance?)
      · cases attempt with
        | error fault => trivial
        | ok instance? => rfl
      rintro instance? rfl
      cases instance? with
      | none => exact .pure trivial
      | some e =>
        have hunclear (h : e.mentionsVector = true) : Unclear (c :: cs) elements :=
          ⟨c, List.mem_cons_self, e, hattempt, h⟩
        dsimp only
        split
        · exact (Solver.assertSoft_refuses e t).imp_refusal fun _ _ hr => ⟨hr.1, hunclear hr.2⟩
        · exact (Solver.assert_refuses e t).imp_refusal fun _ _ hr => ⟨hr.1, hunclear hr.2⟩
    · rintro _ t' -
      apply (ih t').imp_refusal ?_
      rintro refusal _ ⟨hunsupported, d, hd, hunclear⟩
      exact ⟨hunsupported, d, List.mem_cons_of_mem c hd, hunclear⟩

/-- The search for a model leaves the context and the constraints alone. -/
theorem findModel_leaves (elements : Array Expr) :
    Grants (findModel elements) s (fun _ => True)
      (fun refusal s' => (refusal.Unsupported ∧ Unclear s.item.solver.constraints elements) ∧
        s'.context = s.context)
      fun _ s' => s'.context = s.context := by
  unfold findModel
  apply Grants.get_bind
  apply Grants.ofExcept_bind (ends_true _)
  rintro ⟨model, source⟩ -
  apply Grants.modify_bind
  -- The search runs on a solver of its own, and only its refusal comes back.
  have hsolving : Grants (do
      assertInstances elements s.item.solver.constraints
      if ← Request.step (Solver.solve false) then return true
      Request.step (Solver.solve true)) model (fun _ => True)
      (fun refusal _ => refusal.Unsupported ∧ Unclear s.item.solver.constraints elements)
      fun _ _ => True := by
    apply (assertInstances_refuses elements _ model).bind
    intro _ t _
    apply (ensures_true (Solver.solve false) t).step.bind
    intro found t _
    cases found with
    | true => exact .pure trivial
    | false => exact (ensures_true (Solver.solve true) t).step
  have hrun : Attempts (Request.runOn _ model) _ (fun refusal =>
      (refusal.Unsupported ∧ Unclear s.item.solver.constraints elements) ∧
        s.context = s.context) _ :=
    hsolving.runOn.imp (fun _ hf => hf) (fun _ hr => ⟨hr, rfl⟩) fun _ hp => hp
  apply (Attempts.ofAttempt (s := ⟨s.context, { s.item with source := source }⟩) hrun
    (R := fun refusal (s' : InContext VectorWork) =>
      (refusal.Unsupported ∧ Unclear s.item.solver.constraints elements) ∧
        s'.context = s.context)).bind
  rintro found _ ⟨-, rfl⟩
  exact .pure rfl

/-- The symbols are known ones or new variables. -/
def Extends (s : VectorSolver) (elements : Array Expr) : Prop :=
  ∀ e ∈ elements, e ∈ s.elements ∨ ∃ id elem, e = .var id elem

theorem extends_grown (s : VectorSolver) (size next : Nat) (elem : BitSort) :
    s.Extends ((s.grown size next elem).elements.take size) := by
  intro e he
  have hmem : e ∈ (s.grown size next elem).elements := by
    rw [Array.take_eq_extract] at he
    obtain ⟨k, hk, rfl⟩ := Array.mem_iff_getElem.mp he
    simp
  rcases Array.mem_append.mp hmem with hmem | hmem
  · exact .inl hmem
  · obtain ⟨id, -, rfl⟩ := List.mem_map.mp (List.mem_toArray.mp hmem)
    exact .inr ⟨id, elem, rfl⟩

/-- A vector that is solved has the size that is read for it.  It is refused only if that size is
too large or a constraint has no circuit, and then nothing but ids is taken. -/
theorem solve_fills (read : Reading) :
    Grants (solve read) s (fun _ => True)
      (fun refusal s' => s.context.Advances s'.context ∧
        ((refusal.Unsupported ∧ ∃ elements, s.item.solver.Extends elements ∧
          Unclear s.item.solver.constraints elements) ∨
        s.context.Oversized read s.item.source.settings.defaultVectorSize
          s.item.source.settings.maxVectorSize refusal))
      fun solved s' => ∃ c, s.context.Advances c ∧ if solved then ∃ entry values,
        s.context.vectors[s.item.solver.vectorId]? = some entry ∧
          sizeOf? entry read s.item.source.settings.defaultVectorSize =
            .ok (List.length values) ∧ s'.context = c.store s.item.solver.vectorId values
        else s'.context = c := by
  obtain ⟨c, work⟩ := s
  unfold solve
  apply Grants.get_bind
  dsimp only
  cases hentry : c.vectors[work.solver.vectorId]? with
  | none => exact .pure ⟨c, .refl c, rfl⟩
  | some entry =>
    dsimp only
    apply Grants.ofExcept_bind (T := fun n =>
      sizeOf? entry read work.source.settings.defaultVectorSize = .ok n)
    · unfold Ends
      split
      · trivial
      · assumption
    intro n hn
    split
    · rename_i hlt
      exact .bind (.throw ⟨.refl c, .inr ⟨_, entry, n, hentry, hn, hlt, rfl⟩⟩) fun _ _ h => h
    have hgrow : Grants (grow n entry.elem) ⟨c, work⟩ (fun _ => True) (fun _ _ => False)
        fun elements s' => elements.size = n ∧ c.Advances s'.context ∧
          work.solver.Extends elements ∧
            s'.item.solver.constraints = work.solver.constraints := by
      unfold Grants
      rw [grow_eq]
      refine ⟨?_, ⟨_, Nat.le_add_right _ _, rfl⟩, work.solver.extends_grown _ _ _, rfl⟩
      simp [grown, newElements]
      omega
    apply hgrow.unrefused.bind
    rintro elements s₁ ⟨hlength, hadv, hextends, hconstraints⟩
    apply ((findModel_leaves elements).imp_refusal fun _ _ hr =>
      ⟨hr.2 ▸ hadv, .inl ⟨hr.1.1, elements, hextends, hconstraints ▸ hr.1.2⟩⟩).bind
    intro model s₂ hsame
    cases model with
    | none => exact .pure ⟨s₂.context, hsame ▸ hadv, rfl⟩
    | some model =>
      dsimp only
      have hvalues : Ensures (elements.toList.mapM (elementValue model entry.elem)) work.rng
          (fun _ => True) fun values _ =>
            (values.length = elements.toList.length ∧ ∀ n ∈ values, True) ∧ True :=
        ensures_mapM trivial fun _ _ _ _ => (ends_true _).imp (fun _ hf => hf)
          fun _ _ => ⟨trivial, trivial⟩
      apply Grants.ofExcept_bind hvalues
      rintro ⟨values, rng⟩ ⟨⟨hsize, -⟩, -⟩
      have hvalues := hsize.trans (Array.length_toList.trans hlength)
      exact .modify_bind (.pure ⟨s₂.context, hsame ▸ hadv, entry, values, rfl, hvalues ▸ hn, rfl⟩)

end

end VectorSolver

/-! ## §3 All vectors -/

namespace VectorStage

section

variable {s : InContext VectorStage} {read : Reading}

/-- The stage goes on as before, and the vectors that were filled are filled. -/
structure Fills (read : Reading) (s s' : InContext VectorStage) : Prop where
  follows : Follows read s s'
  filled : ∀ id, s.context.Filled read s.item.source.settings.defaultVectorSize id →
    s'.context.Filled read s'.item.source.settings.defaultVectorSize id

theorem Fills.refl (read : Reading) (s : InContext VectorStage) : Fills read s s :=
  ⟨.refl read s, fun _ h => h⟩

theorem Fills.trans {s' s'' : InContext VectorStage} (h : Fills read s s')
    (h' : Fills read s' s'') : Fills read s s'' :=
  ⟨h.follows.trans h'.follows, fun id hid => h'.filled id (h.filled id hid)⟩

/-- Why a stage refuses. -/
def Refuses (read : Reading) (s : InContext VectorStage) (refusal : Refusal) : Prop :=
  refusal.Unsupported ∨ s.context.Oversized read s.item.source.settings.defaultVectorSize
    s.item.source.settings.maxVectorSize refusal

theorem Refuses.fills_back {s' : InContext VectorStage} {refusal : Refusal}
    (h : Refuses read s' refusal) (hfills : Fills read s s') : Refuses read s refusal := by
  apply h.imp_right
  rw [hfills.follows.source.settings_eq]
  exact fun hlarge => hlarge.keeps_back hfills.follows.stores.keeps

theorem solveOne_fills (hc : s.context.WellFormed) (hs : Filed s.item.solvers) (id : Nat) :
    Grants (solveOne read id) s (fun _ => True)
      (fun refusal s' => Refuses read s refusal ∧ Follows read s s') fun solved s' =>
      Fills read s s' ∧ (solved = true → id ∈ s.item.solvers →
        s'.context.Filled read s'.item.source.settings.defaultVectorSize id) := by
  have hone : Grants (solveOne read id) s (fun _ => True) (fun refusal _ => Refuses read s refusal)
      fun solved s' => (∀ id', s.context.Filled read s.item.source.settings.defaultVectorSize id' →
          s'.context.Filled read s.item.source.settings.defaultVectorSize id') ∧
        (solved = true → id ∈ s.item.solvers →
          s'.context.Filled read s.item.source.settings.defaultVectorSize id) := by
    obtain ⟨c, stage⟩ := s
    unfold Grants solveOne
    dsimp only
    cases hid : stage.solvers[id]? with
    | none =>
      refine ⟨fun _ h => h, fun _ hmem => ?_⟩
      rw [Std.TreeMap.mem_iff_isSome_getElem?, hid] at hmem
      cases hmem
    | some solver =>
      have hsolve := VectorSolver.solve_fills read (s := ⟨c, solver, stage.source, stage.rng⟩)
      unfold Grants at hsolve
      dsimp only
      cases hact : VectorSolver.solve read ⟨c, solver, stage.source, stage.rng⟩ with
      | error fault => trivial
      | ok r =>
        rw [hact] at hsolve
        obtain ⟨refusal | solved, c', solver', source, rng⟩ := r
        · exact hsolve.2.imp_left And.left
        · obtain ⟨c₁, hadv, hstored⟩ := hsolve
          cases solved with
          | false =>
            cases hstored
            exact ⟨fun id' h => h.advances hadv, nofun⟩
          | true =>
            obtain ⟨entry, values, hentry, hsize, rfl⟩ := hstored
            have hvector : solver.vectorId = id := hs id solver hid
            rw [hvector] at hentry ⊢
            have hentry₁ : c₁.vectors[id]? = some entry := hadv.vectors_eq ▸ hentry
            obtain ⟨hfilled, hothers⟩ := Context.filled_store hentry₁ hsize
            exact ⟨fun id' h => hothers id' (h.advances hadv), fun _ _ => hfilled⟩
  -- The lengths were followed step by step; that the stage goes on is known already.
  have hold : Grants (solveOne read id) s (Stuck False) _ _ := solveOne_grants hc hs not_false id
  apply (hone.and hold).imp
  · exact fun _ _ => trivial
  · exact fun _ _ hr => hr
  · rintro solved s' ⟨⟨hfilled, hid⟩, hfollows, -⟩
    have hsettings := hfollows.source.settings_eq
    exact ⟨⟨hfollows, hsettings.symm ▸ hfilled⟩, hsettings.symm ▸ hid⟩

theorem solveEach_fills {ids : List Nat} (hc : s.context.WellFormed) (hs : Filed s.item.solvers) :
    Grants (solveEach read ids) s (fun _ => True)
      (fun refusal s' => Refuses read s refusal ∧ Follows read s s') fun solved s' =>
      Fills read s s' ∧ (solved = true → ∀ id ∈ ids, id ∈ s.item.solvers →
        s'.context.Filled read s'.item.source.settings.defaultVectorSize id) := by
  induction ids generalizing s with
  | nil => exact .pure ⟨.refl read s, fun _ id hid => absurd hid List.not_mem_nil⟩
  | cons id ids ih =>
    unfold solveEach
    apply (solveOne_fills hc hs id).bind
    rintro solved s₁ ⟨h₁, hone⟩
    cases solved with
    | false => exact .pure ⟨h₁, fun h => absurd h Bool.false_ne_true⟩
    | true =>
      apply (ih (h₁.follows.stores.keeps.wellFormed hc) (h₁.follows.filed hs)).imp (fun _ hf => hf)
      · exact fun refusal _ hr => ⟨hr.1.fills_back h₁, h₁.follows.trans hr.2⟩
      · rintro solved s₂ ⟨h₂, hrest⟩
        refine ⟨h₁.trans h₂, fun hall id' hid' hmem => ?_⟩
        rcases List.mem_cons.mp hid' with rfl | hid'
        · exact h₂.filled id' (hone rfl hmem)
        · exact hrest hall id' hid' (h₁.follows.mem_iff.mpr hmem)

/-- A vector without constraints is filled. -/
theorem fill_fills {id : Nat} {entry : VectorEntry} (hc : s.context.WellFormed)
    (hentry : ∃ contents, s.context.vectors[id]? = some { entry with contents := contents }) :
    Grants (fill read id entry) s (fun _ => True) (fun _ _ => False) fun _ s' =>
      Fills read s s' ∧ s'.context.Filled read s'.item.source.settings.defaultVectorSize id := by
  -- The lengths are followed here; that the stage goes on is known already.
  have hfill : Grants (fill read id entry) s (fun _ => True) (fun _ _ => False) fun _ s' =>
      s'.item.source = s.item.source ∧ ∃ values, sizeOf? entry read
        s.item.source.settings.defaultVectorSize = .ok (List.length values) ∧
          s'.context = s.context.store id values := by
    unfold fill
    apply Grants.get_bind
    apply Grants.ofExcept_bind (T := fun n =>
      sizeOf? entry read s.item.source.settings.defaultVectorSize = .ok n)
    · unfold Ends
      split
      · trivial
      · assumption
    intro n hn
    split
    · trivial
    have hvalues := draws_mapM (List.replicate n ()) (f := fun _ =>
      Context.randomBits entry.elem) (fun _ _ => randomBits_draws _) s.item.rng
    apply Grants.ofExcept_bind (hvalues.imp (fun _ _ => trivial) fun _ _ h => h)
    rintro ⟨values, rng⟩ ⟨hlength, -⟩
    rw [List.length_replicate] at hlength
    exact .modify ⟨rfl, values, hlength ▸ hn, rfl⟩
  obtain ⟨contents, hentry⟩ := hentry
  have hold : Grants (fill read id entry) s (Stuck False) _ _ :=
    fill_grants hc ⟨contents, hentry⟩ nofun
  apply (hfill.and hold).imp
  · exact fun _ _ => trivial
  · exact fun _ _ hr => hr.1
  · rintro _ s' ⟨⟨hsource, values, hsize, hstore⟩, hfollows, -⟩
    obtain ⟨hfilled, hothers⟩ := Context.filled_store hentry hsize
    rw [← hstore] at hfilled hothers
    exact ⟨⟨hfollows, hsource.symm ▸ hothers⟩, hsource.symm ▸ hfilled⟩

/-- After all vectors are solved or filled, each has the size that is read for it. -/
theorem solve_fills (hc : s.context.WellFormed) (hs : Filed s.item.solvers) :
    Grants (solve read) s (fun _ => True)
      (fun refusal s' => Refuses read s refusal ∧ Follows read s s') fun solved s' =>
      Fills read s s' ∧ (solved = true → ∀ id,
        s'.context.Filled read s'.item.source.settings.defaultVectorSize id) := by
  unfold solve
  apply Grants.get_bind
  apply (solveEach_fills hc hs).bind
  rintro solved s₁ ⟨h₁, hsolved⟩
  cases solved with
  | false => exact .pure ⟨h₁, nofun⟩
  | true =>
    have hc₁ := h₁.follows.stores.keeps.wellFormed hc
    apply Grants.get_bind
    dsimp only
    apply Grants.bind (P := fun _ s' => Fills read s₁ s' ∧ ∀ x ∈ s₁.context.vectors.toList,
      s'.context.Filled read s'.item.source.settings.defaultVectorSize x.1)
    · apply grants_forM_each (.refl read) (fun _ _ _ => .trans) fun x _ _ h => h.filled x.1
      rintro ⟨id, entry⟩ hmem s₂ h₂
      have hentry := Std.TreeMap.mem_toList_iff_getElem?_eq_some.mp hmem
      dsimp only
      split
      · -- A vector with a solver was solved before.
        rename_i hcontains
        have hsolver := h₁.follows.mem_iff.mp (Std.TreeMap.mem_iff_contains.mpr hcontains)
        have hkey := hsolved rfl id (Std.TreeMap.mem_keys.mpr hsolver) hsolver
        exact .pure ⟨.refl read s₂, h₂.filled id hkey⟩
      · have hfill : Grants (fill read id entry) s₂ _ _ _ :=
          fill_fills (h₂.follows.stores.keeps.wellFormed hc₁) (h₂.follows.stores.keeps.vector hentry)
        exact hfill.unrefused
    · rintro _ s₂ ⟨h₂, hall⟩
      refine .pure ⟨h₁.trans h₂, fun _ id entry hentry => ?_⟩
      obtain ⟨contents, hcontents⟩ := h₂.follows.stores.keeps.vector_back hentry
      exact hall (id, _) (Std.TreeMap.mem_toList_iff_getElem?_eq_some.mpr hcontents) entry hentry

/-- If the sizes that are read are within the maximum, no vector is refused for its size, and in the
    end all vectors are within it. -/
theorem solve_within (hc : s.context.WellFormed) (hs : Filed s.item.solvers)
    {settings : Settings} (hsettings : s.item.source.settings = settings)
    (hlimits : s.context.Limits settings.maxVectorSize read)
    (hdefault : settings.defaultVectorSize ≤ settings.maxVectorSize) :
    Grants (solve read) s (fun _ => True)
      (fun refusal s' => refusal.Unsupported ∧ Follows read s s') fun solved s' =>
      Follows read s s' ∧ (solved = true → ∀ (id : Nat) (entry : VectorEntry),
        s'.context.vectors[id]? = some entry →
          entry.contents.length ≤ settings.maxVectorSize) := by
  subst hsettings
  apply (solve_fills hc hs).imp (fun _ hf => hf)
  · rintro refusal s' ⟨hrefuses, hfollows⟩
    exact ⟨hrefuses.resolve_right (hlimits.not_oversized hdefault), hfollows⟩
  · rintro solved s' ⟨hfills, hsolved⟩
    refine ⟨hfills.follows, fun hall id entry hentry => ?_⟩
    have hfilled := hsolved hall id
    rw [hfills.follows.source.settings_eq] at hfilled
    exact hfilled.length_le (hlimits.keeps hfills.follows.stores.keeps) hdefault hentry

end

end VectorStage

end Stimulus
