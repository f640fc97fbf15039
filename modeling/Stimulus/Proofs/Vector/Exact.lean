import Stimulus.Proofs.Generator.Soundness
import Stimulus.Proofs.Vector.Contents
import Stimulus.Proofs.Vector.Length

/-!
# Solving a vector is exact

A vector is solved exactly if there are elements, as many as its size asks for, of which its hard
constraints are true.  The elements that it gets are of that kind, whatever random bits stand in for
elements that no constraint is about, and soft constraints are true of them if they can be.  A solve
that fails takes nothing but ids, and symbols of elements are made once for each index.

Main definitions:
- `VectorSolver.Fills`: contents of a given size
- `VectorSolver.Models`: a model that settles the elements
- `VectorSolver.Sound`: what holds of a solver for a vector between two calls
- `VectorSolver.Call`, `VectorSolver.Reached`: how a solver for a vector is used

Main statements:
- `VectorSolver.findModel_decides`
- `VectorSolver.solve_decides`
- `VectorSolver.solve_exact_of_reached`
-/

namespace Stimulus

open Relation (ReflTransGen)

namespace VectorSolver

/-! ## §1 Elements -/

/-- Contents for a vector with so many elements. -/
structure Fills (v : VectorHandle) (n : Nat) (values : List Nat) : Prop where
  length_eq : values.length = n
  bits_lt : ∀ b ∈ values, b < 2 ^ v.elem.sort.width

section

variable {v : VectorHandle} {ids values : List Nat} {Γ : Signature} {es : List Expr}

theorem fills_elementsOf (v : VectorHandle) (ids : List Nat) (env : Nat → Nat) :
    Fills v ids.length (elementsOf v ids env) where
  length_eq := List.length_map _
  bits_lt b hb := by
    obtain ⟨j, -, rfl⟩ := List.mem_map.mp hb
    exact Nat.mod_lt _ (Nat.two_pow_pos _)

/-- Symbols that differ can stand for any elements. -/
theorem exists_elementsOf (hids : ids.Nodup) (h : Fills v ids.length values) :
    ∃ env, elementsOf v ids env = values := by
  refine ⟨fun j => values[ids.idxOf j]?.getD 0, List.ext_getElem ?_ fun k hk hk' => ?_⟩
  · rw [elementsOf, List.length_map, h.length_eq]
  · have hindex : k < ids.length := h.length_eq ▸ hk'
    have hlt := h.bits_lt _ (List.getElem_mem hk')
    simp only [elementsOf, List.getElem_map, hids.idxOf_getElem, List.getElem?_eq_getElem hk',
      Option.getD_some, Nat.mod_eq_of_lt hlt]

/-- Expressions for constraints are satisfiable if there are elements of which these are true. -/
theorem satisfiable_iff {P : List Nat → Prop} (h : Renders Γ es fun env => P (elementsOf v ids env))
    (hids : ids.Nodup) : Satisfiable es ↔ ∃ values, Fills v ids.length values ∧ P values := by
  constructor
  · rintro ⟨env, henv⟩
    exact ⟨_, fills_elementsOf v ids env, (h.allHold_iff env).mp henv⟩
  · rintro ⟨values, hvalues, hP⟩
    obtain ⟨env, rfl⟩ := exists_elementsOf hids hvalues
    exact ⟨env, (h.allHold_iff env).mpr hP⟩

end

/-! ## §2 Models -/

/-- A value for an element is the one that the model has, if it has one. -/
structure Chosen (model : Solver) (v : VectorHandle) (id bits : Nat) : Prop where
  bits_lt : bits < 2 ^ v.elem.sort.width
  eq_of_read : ∀ n, model.read (.var id v.elem.sort) = .ok (some n) → bits = n

/-- The hard constraints can be true together. -/
def Solvable (v : VectorHandle) (cs : List Constraint) (n : Nat) : Prop :=
  ∃ values, Fills v n values ∧ HardHold cs values

/-- All constraints can be true together. -/
def Harmonious (v : VectorHandle) (cs : List Constraint) (n : Nat) : Prop :=
  ∃ values, Fills v n values ∧ HardHold cs values ∧ SoftHold cs values

/-- The model leaves open only elements of which nothing is demanded. -/
structure Models (model : Solver) (v : VectorHandle) (ids : List Nat) (cs : List Constraint) :
    Prop where
  reads : ∀ id ∈ ids, ∃ value?, model.read (.var id v.elem.sort) = .ok value? ∧
    ∀ n, value? = some n → n < 2 ^ v.elem.sort.width
  hard : ∀ values, List.Forall₂ (Chosen model v) ids values → HardHold cs values
  soft : Harmonious v cs ids.length →
    ∀ values, List.Forall₂ (Chosen model v) ids values → SoftHold cs values

section

variable {v : VectorHandle} {ids : List Nat} {cs : List Constraint} {model : Solver}
  {es fs goal : List Expr} {safe : Prop}

theorem fills_of_chosen {values : List Nat} (h : List.Forall₂ (Chosen model v) ids values) :
    Fills v ids.length values := by
  refine ⟨h.length_eq.symm, ?_⟩
  induction h with
  | nil => exact fun b hb => absurd hb List.not_mem_nil
  | cons hb _ ih => exact List.forall_mem_cons.mpr ⟨hb.bits_lt, ih⟩

/-- Elements that are chosen by a model satisfy what the model satisfies. -/
theorem holds_of_shows {P : List Nat → Prop} {env : Nat → Nat} {values : List Nat}
    (hes : Renders (symbols v ids) es fun env => P (elementsOf v ids env)) (hids : ids.Nodup)
    (hplaced : ∀ e ∈ es, model.encoding.Placed e) (hshows : model.Shows (symbols v ids) env)
    (henv : Expr.AllHold env es) (hvalues : List.Forall₂ (Chosen model v) ids values) :
    P values := by
  obtain ⟨env', rfl⟩ := exists_elementsOf hids (fills_of_chosen hvalues)
  have hchosen := List.forall₂_same.mp (List.forall₂_map_right_iff.mp hvalues)
  refine (hes.allHold_iff env').mp ((Expr.allHold_congr fun e he id s hmem => ?_).mp henv)
  -- What an expression mentions has a slot, so the model has a value for it.
  have hsort := (hes.admits e he).declared id s hmem
  obtain ⟨slot, hslot⟩ := hplaced e he id s hmem
  have hread := hshows id s slot hsort hslot
  have hid : id ∈ ids := by
    by_contra hno
    cases (if_neg hno).symm.trans hsort
  cases (sort?_symbols hid).symm.trans hsort
  exact ((hchosen id hid).eq_of_read _ hread).symm

/-- A search that succeeds makes a model. -/
theorem models_of_solved {found : Bool} (hids : ids.Nodup)
    (hes : Renders (symbols v ids) es fun env => HardHold cs (elementsOf v ids env))
    (hsolved : model.Solved (symbols v ids) found goal []) (hfound : found = true)
    (hhard : es ⊆ goal)
    (hsoft : Harmonious v cs ids.length → ∃ fs, fs ⊆ goal ∧
      Renders (symbols v ids) fs fun env => SoftHold cs (elementsOf v ids env)) :
    Models model v ids cs := by
  obtain ⟨env, henv, -, hshows⟩ := hsolved.model hfound
  have hplaced : ∀ e ∈ goal, model.encoding.Placed e := hsolved.placed
  refine ⟨fun id hid => ?_, fun values hvalues => ?_, fun hall values hvalues => ?_⟩
  · -- An element that no instance mentions has no slot, and any value will do.
    cases hslot : model.encoding.slots[id]? with
    | none => exact ⟨none, Solver.read_of_unplaced hslot, fun n hn => by cases hn⟩
    | some slot =>
      refine ⟨_, hshows id _ slot (sort?_symbols hid) hslot, fun n hn => ?_⟩
      cases hn
      exact Nat.mod_lt _ (Nat.two_pow_pos _)
  · exact holds_of_shows hes hids (fun e he => hplaced e (hhard he)) hshows
      (fun e he => henv e (hhard he)) hvalues
  · obtain ⟨fs, hsub, hfs⟩ := hsoft hall
    exact holds_of_shows hfs hids (fun e he => hplaced e (hsub he)) hshows
      (fun e he => henv e (hsub he)) hvalues

variable {elements : Array Expr}

/-- The instances are posed, and a model is searched for with the soft ones and then without. -/
theorem searching_decides (hmodel : model.Poses (symbols v ids) [] [] [] []) (hids : ids.Nodup)
    (hcs : ∀ x ∈ cs, x.Ranges v)
    (helements : elements.toList = ids.map (Expr.var · v.elem.sort))
    (hfew : safe → ids.length < slotLimit) :
    Grants (do
      assertInstances elements cs
      if ← Request.step (Solver.solve false) then return true
      Request.step (Solver.solve true)) model (Stuck safe) (fun _ _ => False) fun found model' =>
        if found then Models model' v ids cs else ¬ Solvable v cs ids.length := by
  refine (assertInstances_grants hmodel hcs helements fun hs =>
    elementSymbols_few (hfew hs)).bind fun _ t₁ ⟨es, fs, h₁, hes, hfs⟩ => ?_
  -- The first attempt takes the soft ones along, and the second one is made without them.
  refine (Solver.solve_ensures safe h₁ false).step.bind fun found t₂ ⟨h₂, hfound⟩ => ?_
  have hboth : Renders (symbols v ids) (es ++ fs) fun env =>
      HardHold cs (elementsOf v ids env) ∧ SoftHold cs (elementsOf v ids env) := hes.append hfs
  cases found with
  | true =>
    refine .pure (models_of_solved hids hes hfound rfl ?_ fun _ => ⟨fs, ?_, hfs⟩)
    · exact fun e he => by simp [he]
    · exact fun e he => by simp [he]
  | false =>
    refine (Solver.solve_ensures safe h₂ true).step.mono fun found t₃ ⟨_, hfound'⟩ => ?_
    -- Hard and soft ones have no model together, so nothing is lost by dropping the soft ones.
    have hharmless : ¬ Harmonious v cs ids.length := by
      intro hall
      refine hfound.noModel rfl (((satisfiable_iff (P := fun values => HardHold cs values ∧
        SoftHold cs values) hboth hids).mpr hall).mono fun e he => ?_)
      have hmem : e ∈ fs ∨ e ∈ es := by simpa using he
      exact List.mem_append.mpr hmem.symm
    cases found with
    | true =>
      refine models_of_solved hids hes hfound' rfl ?_ fun hall => absurd hall hharmless
      exact fun e he => by simp [he]
    | false =>
      intro hsolvable
      refine hfound'.noModel rfl (((satisfiable_iff hes hids).mpr hsolvable).mono fun e he => ?_)
      simpa using he

/-- The search finds a model exactly if the hard constraints can be true, and changes the source of
    solvers alone. -/
theorem findModel_decides {s : InContext VectorWork} (hids : ids.Nodup)
    (hcs : ∀ x ∈ s.item.solver.constraints, x.Ranges v)
    (helements : elements.toList = ids.map (Expr.var · v.elem.sort))
    (hfew : safe → ids.length < slotLimit) (hbits : safe → s.item.source.storageBits ≤ 31) :
    Grants (findModel elements) s (Stuck safe) (fun _ _ => False) fun model? s' =>
      (∃ source, s.item.source.Alike source ∧ s' = ⟨s.context, { s.item with source := source }⟩) ∧
        match model? with
        | some model => Models model v ids s.item.solver.constraints
        | none => ¬ Solvable v s.item.solver.constraints ids.length := by
  unfold findModel
  refine .get_bind ?_
  dsimp only
  refine .ofExcept_bind (SolverSource.create_ensures (Γ := symbols v ids) hbits) ?_
  rintro ⟨model, source⟩ ⟨hmodel, hsource⟩
  refine .modify_bind ?_
  have hsearch := (searching_decides hmodel hids hcs helements hfew).runOn
  have hrun : Grants (Request.ofAttempt _) (⟨s.context, { s.item with source := source }⟩ :
      InContext VectorWork) (Stuck safe) (fun _ _ => False) _ :=
    Attempts.ofAttempt hsearch
  refine hrun.bind fun p s' ⟨hp, hs'⟩ => .pure ⟨⟨source, hsource, hs'⟩, ?_⟩
  obtain ⟨found, model'⟩ := p
  cases found with
  | true => exact hp
  | false => exact hp

/-- An element gets the value of the model, or else bits that fit. -/
theorem elementValue_chooses (h : Models model v ids cs) {id : Nat} (hid : id ∈ ids)
    (rng : Stream) :
    Ensures (elementValue model v.elem.sort (.var id v.elem.sort)) rng (Stuck safe)
      fun bits _ => Chosen model v id bits := by
  obtain ⟨value?, hread, hlt⟩ := h.reads id hid
  unfold elementValue
  rw [hread]
  cases value? with
  | some n =>
    refine .pure ⟨hlt n rfl, fun n' hn' => ?_⟩
    cases hread.symm.trans hn'
    rfl
  | none =>
    have hbits : Draws (Context.randomBits v.elem.sort) (· < 2 ^ v.elem.sort.width) := by
      refine (Stream.words_draws 2).bind fun n _ => .pure ?_
      rw [BitSort.truncate, Nat.min_eq_left (Context.width_sort_le v.elem)]
      exact BitVec.isLt _
    refine (hbits rng).imp (fun _ hf => hf ▸ stuck_drawNeverEnds) fun bits _ hbits => ?_
    refine ⟨hbits, fun n' hn' => ?_⟩
    cases hread.symm.trans hn'

end

/-! ## §3 Solving -/

/-- What holds of a solver for a declared vector between two calls.  The symbols of its elements are
    variables with ids of their own. -/
structure Sound (v : VectorHandle) (s : InContext VectorWork) : Prop where
  context : s.context.WellFormed
  vectorId_eq : s.item.solver.vectorId = v.id
  declared : ∃ contents, s.context.vectors[v.id]? = some ⟨v.elem.sort, v.size, contents⟩
  ranges : ∀ x ∈ s.item.solver.constraints, x.Ranges v
  symbols : ∃ ids : List Nat, s.item.solver.elements.toList = ids.map (Expr.var · v.elem.sort) ∧
    ids.Nodup ∧ ∀ id ∈ ids, id < s.context.nextId

/-- The size that the vector gets. -/
def sizeFor (v : VectorHandle) (size : Nat → Option Nat) (s : InContext VectorWork) : Nat :=
  (size v.size.id).getD s.item.source.settings.defaultVectorSize

/-- The context after symbols were made for so many elements. -/
def taken (s : InContext VectorWork) (n : Nat) : Context :=
  { s.context with nextId := s.context.nextId + (n - s.item.solver.elements.size) }

/-- How a solve ends for a vector that gets so many elements. -/
structure Decided (v : VectorHandle) (n : Nat) (s : InContext VectorWork) (found : Bool)
    (s' : InContext VectorWork) : Prop where
  solver_eq : s'.item.solver = s.item.solver.grown n s.context.nextId v.elem.sort
  source : s.item.source.Alike s'.item.source
  solved : found = true → ∃ values, s'.context = (taken s n).store v.id values ∧
    Fills v n values ∧ HardHold s.item.solver.constraints values ∧
      (Harmonious v s.item.solver.constraints n → SoftHold s.item.solver.constraints values)
  failed : found = false → s'.context = taken s n ∧ ¬ Solvable v s.item.solver.constraints n

section

variable {v : VectorHandle} {s s' : InContext VectorWork} {n : Nat} {safe : Prop}
  {size : Nat → Option Nat}

/-- New symbols get ids that no symbol has. -/
theorem Sound.grown_symbols (h : Sound v s) (n : Nat) :
    ∃ ids : List Nat, (s.item.solver.grown n s.context.nextId v.elem.sort).elements.toList =
      ids.map (Expr.var · v.elem.sort) ∧ ids.Nodup ∧ n ≤ ids.length ∧
        ∀ id ∈ ids, id < (taken s n).nextId := by
  obtain ⟨ids, hids, hnodup, hlt⟩ := h.symbols
  have hsize : s.item.solver.elements.size = ids.length := by
    rw [← Array.length_toList, hids, List.length_map]
  refine ⟨ids ++ List.range' s.context.nextId (n - s.item.solver.elements.size), ?_, ?_, ?_, ?_⟩
  · simp [grown, newElements, hids]
  · refine hnodup.append List.nodup_range' fun id hold hnew => ?_
    have hbefore := hlt id hold
    have hafter := (List.mem_range'_1.mp hnew).1
    omega
  · rw [List.length_append, List.length_range']
    omega
  · intro id hid
    rcases List.mem_append.mp hid with hold | hnew
    · exact (hlt id hold).trans_le (Nat.le_add_right _ _)
    · exact (List.mem_range'_1.mp hnew).2

theorem grow_decides (n : Nat) (elem : BitSort) {E : Fault → Prop}
    {R : Refusal → InContext VectorWork → Prop} : Grants (grow n elem) s E R fun elements s' =>
      elements = (s.item.solver.grown n s.context.nextId elem).elements.take n ∧
        s' = ⟨taken s n,
          { s.item with solver := s.item.solver.grown n s.context.nextId elem }⟩ := by
  obtain ⟨c, work⟩ := s
  unfold Grants
  rw [grow_eq]
  exact ⟨rfl, rfl⟩

/-- A vector that would get more elements than the maximum is refused, and nothing changes. -/
theorem solve_oversized (h : Sound v s)
    (hlt : s.item.source.settings.maxVectorSize < sizeFor v size s) :
    solve (fun id => .ok (size id)) s = .ok (.error (.vectorTooLarge v.id (sizeFor v size s)
      s.item.source.settings.maxVectorSize), s) := by
  obtain ⟨contents, hentry⟩ := h.declared
  have hid := h.vectorId_eq
  have hrefused : Grants (solve fun id => .ok (size id)) s (fun _ => False) (fun refusal s' =>
      refusal = .vectorTooLarge v.id (sizeFor v size s) s.item.source.settings.maxVectorSize ∧
        s' = s) fun _ _ => False := by
    generalize hn : sizeFor v size s = n at *
    obtain ⟨c, work⟩ := s
    dsimp only at *
    unfold solve
    refine .get_bind ?_
    dsimp only
    rw [hid, hentry]
    dsimp only
    refine .ofExcept_bind (T := (· = n)) hn ?_
    rintro _ rfl
    rw [if_pos hlt]
    exact .bind (.throw ⟨rfl, rfl⟩) fun _ _ h => h
  obtain ⟨_, _, hrun, rfl, rfl⟩ := hrefused.exists_refusal
  exact hrun

/-- A solve decides whether there are elements of which the hard constraints are true. -/
theorem solve_decides (h : Sound v s)
    (hle : sizeFor v size s ≤ s.item.source.settings.maxVectorSize)
    (hbits : safe → s.item.source.storageBits ≤ 31)
    (hmax : safe → s.item.source.settings.maxVectorSize < slotLimit) :
    Grants (solve fun id => .ok (size id)) s (Stuck safe) (fun _ _ => False)
      (Decided v (sizeFor v size s) s) := by
  obtain ⟨ids, hids, hnodup, hlength, -⟩ := h.grown_symbols (sizeFor v size s)
  obtain ⟨contents, hentry⟩ := h.declared
  have hid := h.vectorId_eq
  have hranges := h.ranges
  obtain ⟨c, work⟩ := s
  dsimp only at hids hentry hid hranges hle hbits hmax
  unfold solve
  refine .get_bind ?_
  dsimp only
  rw [hid, hentry]
  dsimp only
  refine .ofExcept_bind (T := (· = sizeFor v size ⟨c, work⟩)) rfl ?_
  rintro _ rfl
  generalize sizeFor v size ⟨c, work⟩ = n at hids hlength hle ⊢
  rw [if_neg (by omega)]
  refine Grants.bind (grow_decides n v.elem.sort) ?_
  rintro elements s₁ ⟨rfl, rfl⟩
  -- The vector has grown to the size that is asked for, so enough elements are there.
  have hsize : (ids.take n).length = n := List.length_take_of_le hlength
  have helements : ((work.solver.grown n c.nextId v.elem.sort).elements.take n).toList =
      (ids.take n).map (Expr.var · v.elem.sort) := by
    rw [Array.take_eq_extract, Array.toList_extract, hids]
    simp
  -- Of the elements that were ever made, only the first ones are constrained and read.
  refine (findModel_decides (hnodup.sublist (List.take_sublist n ids)) hranges helements
    (fun hs => by have := hmax hs; omega) hbits).bind ?_
  rintro model? _ ⟨⟨source, hsource, rfl⟩, hmodel⟩
  rw [hsize] at hmodel
  cases model? with
  | none => exact .pure ⟨rfl, hsource, fun h => (nomatch h), fun _ => ⟨rfl, hmodel⟩⟩
  | some model =>
    dsimp only
    have hvalues : Ensures (((work.solver.grown n c.nextId v.elem.sort).elements.take n).toList.mapM
        (elementValue model v.elem.sort)) work.rng (Stuck safe) fun values _ =>
          List.Forall₂ (Chosen model v) (ids.take n) values := by
      rw [helements]
      apply (ensures_mapM_each (I := fun _ => True) (P := fun e bits => ∃ id,
        e = .var id v.elem.sort ∧ Chosen model v id bits) trivial ?_).mono
      · rintro values _ ⟨hvalues, -⟩
        refine (List.forall₂_map_left_iff.mp hvalues).imp ?_
        rintro id bits ⟨_, heq, hbits⟩
        cases heq
        exact hbits
      · intro e he rng _
        obtain ⟨id, hid, rfl⟩ := List.mem_map.mp he
        exact (elementValue_chooses hmodel hid rng).mono fun bits _ h => ⟨⟨id, rfl, h⟩, trivial⟩
    refine .ofExcept_bind hvalues ?_
    rintro ⟨values, rng⟩ hchosen
    have hfills : Fills v n values := hsize ▸ fills_of_chosen hchosen
    refine .modify_bind (.pure ⟨rfl, hsource, fun _ => ⟨values, rfl, hfills,
      hmodel.hard values hchosen, fun hall => ?_⟩, fun h => (nomatch h)⟩)
    exact hmodel.soft (hsize.symm ▸ hall) values hchosen

/-! ## §4 Runs -/

/-- One call of a solver for a vector, or a change of its context between two calls.  The source of
    solvers and the words may be used elsewhere. -/
inductive Call (v : VectorHandle) : InContext VectorWork → InContext VectorWork → Prop where
  | change {c c' : Context} (work : VectorWork) (h : c.Changes c') : Call v ⟨c, work⟩ ⟨c', work⟩
  | supply (c : Context) (work : VectorWork) (source : SolverSource) (rng : Stream) :
      Call v ⟨c, work⟩ ⟨c, { work with source := source, rng := rng }⟩
  | add (c : Context) (work : VectorWork) {x : Constraint} (hx : x.Ranges v) :
      Call v ⟨c, work⟩ ⟨c, { work with solver := work.solver.add x }⟩
  | solve {s s' : InContext VectorWork} {r : Except Refusal Bool} (size : Nat → Option Nat)
      (h : solve (fun id => .ok (size id)) s = .ok (r, s')) : Call v s s'

/-- The runs of a solver for a vector: the vector is declared, and then the solver is called. -/
inductive Reached (v : VectorHandle) : InContext VectorWork → Prop where
  | declare {c : Context} {type : ScalarType} (hc : c.Reached)
      (h : (Context.declareVector type c).1 = v) (source : SolverSource) (rng : Stream) :
      Reached v ⟨(Context.declareVector type c).2, .empty v.id, source, rng⟩
  | call {s s' : InContext VectorWork} (hs : Reached v s) (h : Call v s s') : Reached v s'

/-- The solver goes on with the symbols that it has. -/
def Continues (v : VectorHandle) (s s' : InContext VectorWork) : Prop :=
  Sound v s' ∧ s.item.solver.elements.toList <+: s'.item.solver.elements.toList

theorem keeps_taken (s : InContext VectorWork) (n : Nat) : s.context.Keeps (taken s n) :=
  ⟨Nat.le_add_right _ _, fun _ => rfl, fun _ _ h _ => h, fun _ => rfl, rfl⟩

theorem grown_prefix (t : VectorSolver) (n next : Nat) (elem : BitSort) :
    t.elements.toList <+: (t.grown n next elem).elements.toList := by
  rw [grown, Array.toList_append]
  exact List.prefix_append _ _

theorem Decided.keeps {found : Bool} (h : Decided v n s found s') (hs : Sound v s) :
    (taken s n).Keeps s'.context := by
  cases found with
  | true =>
    obtain ⟨values, hstored, -⟩ := h.solved rfl
    rw [hstored]
    exact Context.keeps_store ((keeps_taken s n).wellFormed hs.context) v.id values
  | false =>
    rw [(h.failed rfl).1]
    exact .refl _

theorem Decided.continues {found : Bool} (h : Decided v n s found s') (hs : Sound v s) :
    Continues v s s' := by
  have hkeeps := (keeps_taken s n).trans (h.keeps hs)
  obtain ⟨ids, hids, hnodup, -, hlt⟩ := hs.grown_symbols n
  obtain ⟨contents, hentry⟩ := hs.declared
  refine ⟨⟨hkeeps.wellFormed hs.context, ?_, hkeeps.vector hentry, ?_, ids, ?_, hnodup, ?_⟩, ?_⟩
  · rw [h.solver_eq]
    exact hs.vectorId_eq
  · rw [h.solver_eq]
    exact hs.ranges
  · rw [h.solver_eq]
    exact hids
  · exact fun id hid => (hlt id hid).trans_le (h.keeps hs).nextId_le
  · rw [h.solver_eq]
    exact grown_prefix _ _ _ _

/-- Every call goes on with the symbols that there are. -/
theorem Call.continues (h : Call v s s') (hs : Sound v s) : Continues v s s' := by
  -- The elements that were made stay, and more may follow them.
  cases h with
  | change work h =>
    have hgrows := h.grows hs.context
    obtain ⟨contents, hentry⟩ := hs.declared
    obtain ⟨ids, hids, hnodup, hlt⟩ := hs.symbols
    refine ⟨⟨h.wellFormed hs.context, hs.vectorId_eq, hgrows.vectors _ _ hentry, hs.ranges, ids,
      hids, hnodup, ?_⟩, List.prefix_rfl⟩
    exact fun id hid => (hlt id hid).trans_le hgrows.nextId_le
  | supply c work source rng =>
    exact ⟨⟨hs.context, hs.vectorId_eq, hs.declared, hs.ranges, hs.symbols⟩, List.prefix_rfl⟩
  | add c work hx =>
    refine ⟨⟨hs.context, hs.vectorId_eq, hs.declared, ?_, hs.symbols⟩, List.prefix_rfl⟩
    exact List.forall_mem_append.mpr ⟨hs.ranges, List.forall_mem_singleton.mpr hx⟩
  | @solve _ _ r size h =>
    by_cases hlt : s.item.source.settings.maxVectorSize < sizeFor v size s
    · cases (solve_oversized hs hlt).symm.trans h
      exact ⟨hs, List.prefix_rfl⟩
    · have hdecides : Grants (VectorSolver.solve fun id => .ok (size id)) s (Stuck False) _ _ :=
        solve_decides hs (Nat.le_of_not_lt hlt) False.elim False.elim
      cases r with
      | error refusal => exact (hdecides.of_refusal h).elim
      | ok found => exact (hdecides.of_run h).continues hs

theorem Reached.sound (h : Reached v s) : Sound v s := by
  induction h with
  | @declare c type hc h source rng =>
    subst h
    refine ⟨(Context.Changes.declareVector c type).wellFormed hc.wellFormed, rfl, ⟨[], ?_⟩,
      fun x hx => absurd hx List.not_mem_nil, [], rfl, .nil, fun id hid =>
        absurd hid List.not_mem_nil⟩
    exact Std.TreeMap.getElem?_insert_self
  | call _ h ih => exact (h.continues ih).1

/-- The symbols of a solver are kept through all calls. -/
theorem continues_of_calls (h : ReflTransGen (Call v) s s') (hs : Sound v s) :
    Continues v s s' := by
  induction h with
  | refl => exact ⟨hs, List.prefix_rfl⟩
  | tail _ h ih =>
    obtain ⟨hsound, hextends⟩ := h.continues ih.1
    exact ⟨hsound, ih.2.trans hextends⟩

theorem Decided.solved_iff {found : Bool} (h : Decided v n s found s') :
    found = true ↔ Solvable v s.item.solver.constraints n := by
  cases found with
  | true =>
    obtain ⟨values, -, hfills, hhard, -⟩ := h.solved rfl
    exact iff_of_true rfl ⟨values, hfills, hhard⟩
  | false => exact iff_of_false Bool.false_ne_true (h.failed rfl).2

/-- The vector has the elements that were found, and their number as its size. -/
theorem Decided.stored {found : Bool} (h : Decided v n s found s') (hs : Sound v s)
    (hfound : found = true) : Fills v n (s'.context.contents v.id) ∧
      s'.context.bits v.size.id = n ∧
      HardHold s.item.solver.constraints (s'.context.contents v.id) ∧
      (Harmonious v s.item.solver.constraints n →
        SoftHold s.item.solver.constraints (s'.context.contents v.id)) := by
  obtain ⟨values, hstore, hfills, hhard, hsoft⟩ := h.solved hfound
  obtain ⟨contents, hentry⟩ := hs.declared
  have hentry' : (taken s n).vectors[v.id]? = some ⟨v.elem.sort, v.size, contents⟩ := hentry
  have hcontents : s'.context.contents v.id = values := by
    rw [hstore, Context.contents, Context.vectors_store hentry', if_pos rfl]
    rfl
  have hbits : s'.context.bits v.size.id = n := by
    rw [hstore, Context.bits_store ((keeps_taken s n).wellFormed hs.context) hentry', if_pos rfl,
      hfills.length_eq]
  rw [hcontents]
  exact ⟨hfills, hbits, hhard, hsoft⟩

theorem Decided.size_elements {found : Bool} (h : Decided v n s found s') :
    s'.item.solver.elements.size = max s.item.solver.elements.size n := by
  rw [h.solver_eq, grown, Array.size_append]
  simp only [newElements, List.size_toArray, List.length_map, List.length_range']
  omega

/-- A vector is refused for its size, before anything changes, or it is decided exactly whether
    there are elements, as many as its size asks for, of which its hard constraints are true.  It
    gets such elements, and its soft constraints are true of them if they can be together with the
    hard ones.  Otherwise its contents and its size stay as they are.  Only a diagram that grows too
    large or a draw that does not end stops a solve.  The symbols of elements are distinct, and they
    are kept through all calls. -/
theorem solve_exact_of_reached (hs : Reached v s) (size : Nat → Option Nat) :
    (s.item.source.settings.maxVectorSize < sizeFor v size s →
      solve (fun id => .ok (size id)) s = .ok (.error (.vectorTooLarge v.id (sizeFor v size s)
        s.item.source.settings.maxVectorSize), s)) ∧
    (sizeFor v size s ≤ s.item.source.settings.maxVectorSize →
      (∃ fault, solve (fun id => .ok (size id)) s = .error fault ∧
        (s.item.source.storageBits ≤ 31 → s.item.source.settings.maxVectorSize < slotLimit →
          fault.Exhausts)) ∨
      ∃ solved s', solve (fun id => .ok (size id)) s = .ok (.ok solved, s') ∧
        (solved = true ↔ Solvable v s.item.solver.constraints (sizeFor v size s)) ∧
        (solved = true → Fills v (sizeFor v size s) (s'.context.contents v.id) ∧
          s'.context.bits v.size.id = sizeFor v size s ∧
          HardHold s.item.solver.constraints (s'.context.contents v.id) ∧
          (Harmonious v s.item.solver.constraints (sizeFor v size s) →
            SoftHold s.item.solver.constraints (s'.context.contents v.id))) ∧
        (solved = false → s'.context.vectors = s.context.vectors ∧
          s'.context.cells = s.context.cells) ∧
        s'.item.solver.elements.size = max s.item.solver.elements.size (sizeFor v size s)) ∧
    ∀ s', ReflTransGen (Call v) s s' →
      s.item.solver.elements.toList <+: s'.item.solver.elements.toList ∧
        s'.item.solver.elementIds.Nodup := by
  have hsound := hs.sound
  refine ⟨solve_oversized hsound, fun hle => ?_, fun s' hcalls => ?_⟩
  · have hdecides : Grants (solve fun id => .ok (size id)) s
        (Stuck (s.item.source.storageBits ≤ 31 ∧
          s.item.source.settings.maxVectorSize < slotLimit)) _ _ :=
      solve_decides hsound hle And.left And.right
    unfold Grants at hdecides
    cases hrun : solve (fun id => .ok (size id)) s with
    | error fault =>
      rw [hrun] at hdecides
      exact .inl ⟨fault, rfl, fun hbits hmax => hdecides ⟨hbits, hmax⟩⟩
    | ok p =>
      rw [hrun] at hdecides
      obtain ⟨refusal | solved, s'⟩ := p
      · exact hdecides.elim
      · have hdecided : Decided v (sizeFor v size s) s solved s' := hdecides
        refine .inr ⟨solved, s', rfl, hdecided.solved_iff, hdecided.stored hsound, ?_,
          hdecided.size_elements⟩
        intro hfailed
        rw [(hdecided.failed hfailed).1]
        exact ⟨rfl, rfl⟩
  · obtain ⟨hsound', hextends⟩ := continues_of_calls hcalls hsound
    obtain ⟨ids, hids, hnodup, -⟩ := hsound'.symbols
    refine ⟨hextends, ?_⟩
    rw [elementIds, hids, List.filterMap_map]
    simpa [Function.comp_def, Expr.id?] using hnodup

end

/-! ## §5 A vector of truth values -/

/-- The first vector of a context. -/
def flags : VectorHandle := ⟨1, .bool, ⟨2, .size⟩⟩

/-- A constraint as registries keep it. -/
def constraintOn (e : Expr) (soft : Bool) : Constraint := ⟨1, "", e, e.support, soft, false, true⟩

/-- A solver with some constraints, for a vector that gets two elements by default. -/
def asked (cs : List Constraint) (storageBits : Nat := 4) : InContext VectorWork :=
  ⟨(Context.declareVector .bool (.empty 0)).2, cs.foldl add (.empty 1),
    ⟨storageBits, { seed := some 1, defaultVectorSize := 2 }, .ofSeed 1⟩, .ofSeed 2⟩

theorem reached_asked {cs : List Constraint} (hcs : ∀ x ∈ cs, x.Ranges flags) (storageBits : Nat) :
    Reached flags (asked cs storageBits) := by
  have hall {c : Context} {work : VectorWork} (h : Reached flags ⟨c, work⟩) :
      Reached flags ⟨c, { work with solver := cs.foldl add work.solver }⟩ := by
    induction cs generalizing work with
    | nil => exact h
    | cons x cs ih =>
      obtain ⟨hx, hrest⟩ := List.forall_mem_cons.mp hcs
      exact ih hrest (h.call (.add c work hx))
  exact hall (.declare ⟨0, _, .refl⟩ rfl _ _)

/-- The elements are distinct. -/
def distinct : Constraint := constraintOn (.unique flags.expr) false

/-- All elements are true, if possible. -/
def allTrue : Constraint :=
  constraintOn (.forEach flags.expr 3 (.element flags.expr (.placeholder 3))) true

theorem ranges_distinct : distinct.Ranges flags where
  shape := .inl rfl
  single := rfl
  apart s hmem := by simp [Expr.Mentions, Expr.preorder, distinct, constraintOn, flags,
    VectorHandle.expr] at hmem

theorem ranges_allTrue : allTrue.Ranges flags where
  shape := .inr ⟨3, _, rfl, ⟨⟨1, rfl⟩, trivial⟩, rfl⟩
  single := rfl
  apart s hmem := by simp [Expr.Mentions, Expr.preorder, allTrue, constraintOn, flags,
    VectorHandle.expr] at hmem

/-- Two truth values that are distinct are not both true, so the soft constraint gives way. -/
theorem solve_exact_of_distinct :
    ∃ s', Reached flags (asked [distinct, allTrue]) ∧
      solve (fun _ => .ok none) (asked [distinct, allTrue]) = .ok (.ok true, s') ∧
        (s'.context.contents 1).length = 2 ∧ s'.context.bits 2 = 2 ∧
          (s'.context.contents 1).Nodup := by
  obtain ⟨solved, s', hrun, htest⟩ := exists_of_granted?_any
    (x := solve (fun _ => .ok none) (asked [distinct, allTrue])) (p := Prod.fst) (by decide +kernel)
  have hreached : Reached flags (asked [distinct, allTrue]) := reached_asked (by
    simp [ranges_distinct, ranges_allTrue]) 4
  cases (show solved = true from htest)
  have hexact := (solve_exact_of_reached hreached fun _ => none).2.1 (by decide)
  rcases hexact with ⟨fault, hfault, -⟩ | ⟨_, _, hrun', -, hstored, -⟩
  · cases hfault.symm.trans hrun
  · cases hrun'.symm.trans hrun
    obtain ⟨hfills, hbits, hhard, -⟩ := hstored rfl
    exact ⟨s', hreached, hrun, hfills.length_eq, hbits, hhard distinct List.mem_cons_self rfl⟩

/-- The two truth values can be distinct. -/
theorem solvable_distinct : Solvable flags [distinct] 2 := by
  refine ⟨[0, 1], ⟨rfl, by decide⟩, fun x hx _ => ?_⟩
  obtain rfl := List.mem_singleton.mp hx
  show [0, 1].Nodup
  decide

/-- A body without a value, for a solver a word without bits: the vector is solved, and the
    constraint is not true of its elements.  And a vector that can be solved, but not by a solver
    with more buckets than a manager may have. -/
theorem solved_without_truth :
    (∃ x s', x.expr = .forEach flags.expr 3 Generator.shiftedNothing ∧ x.expr.support.size = 1 ∧
      x.soft = false ∧ solve (fun _ => .ok none) (asked [x]) = .ok (.ok true, s') ∧
        (s'.context.contents 1).length = 2 ∧ ¬ x.HoldsOn (s'.context.contents 1)) ∧
    Reached flags (asked [distinct] 32) ∧ Solvable flags [distinct] 2 ∧
      solve (fun _ => .ok none) (asked [distinct] 32) = .error .managerBits := by
  refine ⟨?_, reached_asked (by simp [ranges_distinct]) 32, solvable_distinct,
    eq_error_of_fault? (by decide +kernel)⟩
  let x := constraintOn (.forEach flags.expr 3 Generator.shiftedNothing) false
  obtain ⟨solved, s', hrun, htest⟩ := exists_of_granted?_any
    (x := solve (fun _ => .ok none) (asked [x])) (p := fun q =>
      q.1 && decide ((q.2.context.contents 1).length = 2)) (by decide +kernel)
  obtain ⟨hsolved, htwo⟩ := (Bool.and_eq_true _ _).mp htest
  have hlength : (s'.context.contents 1).length = 2 := of_decide_eq_true htwo
  cases (show solved = true from hsolved)
  refine ⟨x, s', rfl, rfl, rfl, hrun, hlength, fun hholds => ?_⟩
  have hindex : 0 < (s'.context.contents 1).length := by omega
  obtain ⟨u, hu, -⟩ := hholds 0 hindex ⟨⟨trivial, trivial⟩, trivial⟩
  cases hu

end VectorSolver

end Stimulus
