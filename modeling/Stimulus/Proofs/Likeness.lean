import Mathlib.Data.List.Perm.Basic
import Stimulus.Proofs.Context
import Stimulus.Proofs.Group.Problem

/-!
# Contexts that look alike

Two tables look alike to somebody who sees only a part of every cell.  A client who does the same to
both keeps them alike.  Seen as a whole, cells agree if the same results were written in any order,
as long as no variable was written twice.  Seen as what a solve reads, that is without the bits of
random variables, cells agree whatever was written.

Main definitions:
- `Context.Alike`: tables that agree on a part of every cell
- `Cell.premise`: the part that a solve reads
- `Context.Edit`: what a client does to a table between two solves

Main statements:
- `Context.Alike.edit`
- `Context.alike_writeAll`, `Context.alike_writeAll_perm`
- `Context.Alike.references`
-/

namespace Stimulus

/-! ## §1 Tables that agree on a part of every cell -/

/-- A part of cells that shows what the cell is for, and that new bits change in the same way. -/
structure Lawful {α : Type} (view : Cell → α) : Prop where
  role : ∀ cell cell', view cell = view cell' → cell.role = cell'.role
  bits : ∀ (cell cell' : Cell) (bits : Nat), view cell = view cell' →
    view { cell with bits := bits } = view { cell' with bits := bits }

/-- The part of a cell that a solve reads: the bits of a random variable do not matter. -/
def Cell.premise (cell : Cell) : Cell :=
  match cell.role with
  | .random => { cell with bits := 0 }
  | .reference => cell

theorem lawful_id : Lawful (id : Cell → Cell) where
  role _ _ h := congrArg Cell.role h
  bits _ _ _ h := by
    cases h
    rfl

theorem Cell.role_premise (cell : Cell) : cell.premise.role = cell.role := by
  unfold premise
  split <;> rfl

theorem lawful_premise : Lawful Cell.premise where
  role cell cell' h := by rw [← cell.role_premise, h, cell'.role_premise]
  bits cell cell' bits h := by
    obtain ⟨type, role, old⟩ := cell
    obtain ⟨type', role', old'⟩ := cell'
    cases role <;> cases role' <;> simp_all [Cell.premise]

namespace Context

/-- The tables have the same declarations and distributions, and nobody who sees the given part of
    every cell tells them apart. -/
structure Alike {α : Type} (view : Cell → α) (c c' : Context) : Prop where
  identity : c'.identity = c.identity
  nextId : c'.nextId = c.nextId
  nextConstraintId : c'.nextConstraintId = c.nextConstraintId
  vectors : c'.vectors = c.vectors
  distributions : c'.distributions = c.distributions
  entropy : c'.entropy = c.entropy
  cells : ∀ id : Nat, c'.cells[id]?.map view = c.cells[id]?.map view

section

variable {α : Type} {view : Cell → α} {c c' c'' : Context}

theorem Alike.refl (view : Cell → α) (c : Context) : c.Alike view c :=
  ⟨rfl, rfl, rfl, rfl, rfl, rfl, fun _ => rfl⟩

theorem Alike.trans (h : c.Alike view c') (h' : c'.Alike view c'') : c.Alike view c'' where
  identity := h'.identity.trans h.identity
  nextId := h'.nextId.trans h.nextId
  nextConstraintId := h'.nextConstraintId.trans h.nextConstraintId
  vectors := h'.vectors.trans h.vectors
  distributions := h'.distributions.trans h.distributions
  entropy := h'.entropy.trans h.entropy
  cells id := (h'.cells id).trans (h.cells id)

theorem Alike.symm (h : c.Alike view c') : c'.Alike view c :=
  ⟨h.identity.symm, h.nextId.symm, h.nextConstraintId.symm, h.vectors.symm, h.distributions.symm,
    h.entropy.symm, fun id => (h.cells id).symm⟩

theorem Alike.getElem? (h : c.Alike id c') (i : Nat) : c'.cells[i]? = c.cells[i]? := by
  have hcell := h.cells i
  rwa [Option.map_id_fun, id, id] at hcell

/-- Cells of the same id are declared in both tables, or in none. -/
theorem Alike.cell (h : c.Alike view c') {i : Nat} {cell : Cell} (hi : c.cells[i]? = some cell) :
    ∃ cell', c'.cells[i]? = some cell' ∧ view cell' = view cell := by
  have hcell := h.cells i
  rw [hi] at hcell
  exact Option.map_eq_some_iff.mp hcell

theorem Alike.isRandom (h : c.Alike view c') (hview : Lawful view) (i : Nat) :
    c'.isRandom i = c.isRandom i := by
  rw [Bool.eq_iff_iff, isRandom_iff, isRandom_iff]
  constructor
  · rintro ⟨cell, hi, hrole⟩
    obtain ⟨cell', hi', hsame⟩ := h.symm.cell hi
    exact ⟨cell', hi', (hview.role _ _ hsame).trans hrole⟩
  · rintro ⟨cell, hi, hrole⟩
    obtain ⟨cell', hi', hsame⟩ := h.cell hi
    exact ⟨cell', hi', (hview.role _ _ hsame).trans hrole⟩

/-! ## §2 The same done to both tables -/

theorem Alike.setBits (h : c.Alike view c') (hview : Lawful view) (i bits : Nat) :
    (c.setBits i bits).Alike view (c'.setBits i bits) where
  identity := h.identity
  nextId := h.nextId
  nextConstraintId := h.nextConstraintId
  vectors := h.vectors
  distributions := h.distributions
  entropy := h.entropy
  cells j := by
    rw [cells_setBits, cells_setBits]
    split
    · cases hj : c.cells[j]? with
      | none =>
        have hnone := h.cells j
        rw [hj] at hnone
        rw [Option.map_eq_none_iff.mp hnone]
      | some cell =>
        obtain ⟨cell', hj', hsame⟩ := h.cell hj
        rw [hj']
        -- The cell itself changes, and a lawful view cannot tell what was there before.
        exact congrArg some (hview.bits cell' cell bits hsame)
    · exact h.cells j

theorem Alike.write (h : c.Alike view c') (hview : Lawful view) (i bits : Nat) :
    (c.write i bits).Alike view (c'.write i bits) := by
  unfold Context.write
  rw [h.isRandom hview i]
  split
  · exact h.setBits hview i bits
  · exact h

theorem Alike.writeAll (h : c.Alike view c') (hview : Lawful view) (results : List (Nat × Nat)) :
    (c.writeAll results).Alike view (c'.writeAll results) := by
  unfold Context.writeAll
  induction results generalizing c c' with
  | nil => exact h
  | cons r rest ih => exact ih (h.write hview r.1 r.2)

theorem Alike.withCell (h : c.Alike view c') (cell : Cell) :
    (c.withCell cell).Alike view (c'.withCell cell) where
  identity := h.identity
  nextId := congrArg (· + 1) h.nextId
  nextConstraintId := h.nextConstraintId
  vectors := h.vectors
  distributions := h.distributions
  entropy := h.entropy
  cells j := by
    rw [cells_withCell, cells_withCell, h.nextId]
    split
    · rfl
    · exact h.cells j

theorem Alike.store (h : c.Alike view c') (hview : Lawful view) (i : Nat) (values : List Nat) :
    (c.store i values).Alike view (c'.store i values) := by
  unfold Context.store
  rw [h.vectors]
  split
  · exact h
  · rename_i entry hentry
    have hstored : Alike view
        { c with vectors := c.vectors.insert i { entry with contents := values } }
        { c' with vectors := c.vectors.insert i { entry with contents := values } } :=
      ⟨h.identity, h.nextId, h.nextConstraintId, rfl, h.distributions, h.entropy, h.cells⟩
    exact hstored.setBits hview entry.size.id values.length

/-- What a client does to a table between two solves: a declaration, a distribution, a value given
    by hand, or what another owner of the table solves. -/
inductive Edit where
  | declare (type : ScalarType)
  | refer (type : ScalarType) (value : Int)
  | declareVector (type : ScalarType)
  | takeId
  | takeConstraintId
  | takeEntropy
  | distribute (v : Variable) (d : Distribution)
  | setValue (v : Variable) (value : Int)
  | write (id bits : Nat)
  | store (id : Nat) (values : List Nat)

/-- The table after an edit. -/
def Edit.apply : Edit → Context → Context
  | .declare type, c => (Context.declare type c).2
  | .refer type value, c => (Context.refer type value c).2
  | .declareVector type, c => (Context.declareVector type c).2
  | .takeId, c => (Context.takeId c).2
  | .takeConstraintId, c => (Context.takeConstraintId c).2
  | .takeEntropy, c => (Context.takeEntropy c).2
  | .distribute v d, c => c.distribute v d
  | .setValue v value, c => c.setValue v value
  | .write id bits, c => c.write id bits
  | .store id values, c => c.store id values

/-- The same edit of two tables that look alike. -/
theorem Alike.edit (h : c.Alike view c') (hview : Lawful view) (edit : Edit) :
    (edit.apply c).Alike view (edit.apply c') := by
  cases edit with
  | declare type => exact h.withCell ⟨type, .random, 0⟩
  | refer type value => exact h.withCell ⟨type, .reference, type.toBits value⟩
  -- A vector takes two ids, the second one for its size.
  | declareVector type =>
    have htaken : (Context.takeId c).2.Alike view (Context.takeId c').2 :=
      ⟨h.identity, congrArg (· + 1) h.nextId, h.nextConstraintId, h.vectors, h.distributions,
        h.entropy, h.cells⟩
    have hsized := htaken.withCell ⟨.size, .random, 0⟩
    refine ⟨hsized.identity, hsized.nextId, hsized.nextConstraintId, ?_, hsized.distributions,
      hsized.entropy, hsized.cells⟩
    show ((Context.takeId c').2.withCell _).vectors.insert c'.nextId
      ⟨type.sort, ⟨c'.nextId + 1, .size⟩, []⟩ = _
    rw [hsized.vectors, h.nextId]
    rfl
  | takeId =>
    exact ⟨h.identity, congrArg (· + 1) h.nextId, h.nextConstraintId, h.vectors, h.distributions,
      h.entropy, h.cells⟩
  | takeConstraintId =>
    exact ⟨h.identity, h.nextId, congrArg (· + 1) h.nextConstraintId, h.vectors, h.distributions,
      h.entropy, h.cells⟩
  | takeEntropy =>
    exact ⟨h.identity, h.nextId, h.nextConstraintId, h.vectors, h.distributions,
      congrArg (fun keys n => keys (n + 1)) h.entropy, h.cells⟩
  | distribute v d =>
    exact ⟨h.identity, h.nextId, h.nextConstraintId, h.vectors,
      congrArg (·.insert v.id d) h.distributions, h.entropy, h.cells⟩
  | setValue v value => exact h.setBits hview v.id (v.type.toBits value)
  | write id bits => exact h.write hview id bits
  | store id values => exact h.store hview id values

/-! ## §3 Results that are written -/

theorem alike_write (c : Context) (i bits : Nat) : c.Alike Cell.premise (c.write i bits) := by
  unfold Context.write
  split
  · rename_i hrandom
    refine ⟨rfl, rfl, rfl, rfl, rfl, rfl, fun j => ?_⟩
    rw [cells_setBits]
    split
    · rename_i heq
      obtain ⟨cell, hi, hrole⟩ := isRandom_iff.mp hrandom
      rw [← heq, hi]
      simp [Cell.premise, hrole]
    · rfl
  · exact .refl _ c

/-- A solve reads nothing of what results change. -/
theorem alike_writeAll (c : Context) (results : List (Nat × Nat)) :
    c.Alike Cell.premise (c.writeAll results) := by
  unfold Context.writeAll
  induction results generalizing c with
  | nil => exact .refl _ c
  | cons r rest ih => exact (alike_write c r.1 r.2).trans (ih _)

/-- Results for different variables can be written in either order. -/
theorem alike_write_comm (c : Context) {i j : Nat} (hne : i ≠ j) (m n : Nat) :
    ((c.write i m).write j n).Alike id ((c.write j n).write i m) := by
  have hcells (c : Context) (i n k : Nat) : (c.write i n).cells[k]? =
      if i = k ∧ c.isRandom i = true then c.cells[k]?.map fun cell => { cell with bits := n }
      else c.cells[k]? := by
    unfold Context.write
    by_cases hrandom : c.isRandom i = true
    · rw [if_pos hrandom, cells_setBits]
      simp [hrandom]
    · rw [if_neg hrandom, if_neg fun h => hrandom h.2]
  have hrandom (c : Context) (i n k : Nat) : (c.write i n).isRandom k = c.isRandom k :=
    (alike_write c i n).isRandom lawful_premise k
  have hfields (c : Context) (i n : Nat) : (c.write i n).Alike (fun _ : Cell => ()) c := by
    unfold Context.write
    split
    · refine ⟨rfl, rfl, rfl, rfl, rfl, rfl, fun k => ?_⟩
      rw [cells_setBits]
      split
      · rw [Option.map_map]
      · rfl
    · exact .refl _ c
  -- Away from the cells nothing is written, so the order does not show there.
  have hsame := ((hfields _ j n).trans (hfields c i m)).trans
    ((hfields _ i m).trans (hfields c j n)).symm
  refine ⟨hsame.identity, hsame.nextId, hsame.nextConstraintId, hsame.vectors, hsame.distributions,
    hsame.entropy, fun k => ?_⟩
  rw [hcells, hcells, hcells, hcells, hrandom, hrandom]
  by_cases hi : i = k <;> by_cases hj : j = k <;> simp_all

/-- Results are written in any order, as long as no variable is written twice. -/
theorem alike_writeAll_perm {results results' : List (Nat × Nat)} (h : results.Perm results')
    (hnodup : (results.map Prod.fst).Nodup) (c : Context) :
    (c.writeAll results).Alike id (c.writeAll results') := by
  induction h generalizing c with
  | nil => exact .refl _ c
  | cons r _ ih =>
    rw [List.map_cons, List.nodup_cons] at hnodup
    exact ih hnodup.2 (c.write r.1 r.2)
  | swap r r' rest =>
    have hne : r'.1 ≠ r.1 := by
      rintro heq
      simp [heq] at hnodup
    exact (alike_write_comm c hne r'.2 r.2).writeAll lawful_id rest
  | trans hfirst _ ih ih' =>
    have hnodup' := (hfirst.map Prod.fst).nodup_iff.mp hnodup
    exact (ih hnodup c).trans (ih' hnodup' c)

/-! ## §4 What a solve reads -/

theorem references_ascend (c : Context) :
    c.references.Pairwise fun r r' => r.1 < r'.1 := by
  unfold references
  apply Std.TreeMap.ordered_keys_toList.filterMap
  rintro ⟨i, cell⟩ ⟨i', cell'⟩ hlt r hr r' hr'
  have hless : i < i' := Nat.compare_eq_lt.mp hlt
  dsimp only at hr hr'
  split at hr
  · split at hr'
    · cases hr
      cases hr'
      exact hless
    · cases hr'
  · cases hr

/-- Tables that agree on what a solve reads have the same references. -/
theorem Alike.references (h : c.Alike Cell.premise c') : c'.references = c.references := by
  have hsub {c c' : Context} (h : c.Alike Cell.premise c') : c.references ⊆ c'.references := by
    rintro ⟨i, bits⟩ hmem
    obtain ⟨cell, hi, hrole, rfl⟩ := mem_references.mp hmem
    obtain ⟨cell', hi', hsame⟩ := h.cell hi
    have hrole' : cell'.role = .reference := (lawful_premise.role _ _ hsame).trans hrole
    refine mem_references.mpr ⟨cell', hi', hrole', ?_⟩
    have hbits := congrArg Cell.bits hsame
    simpa only [Cell.premise, hrole, hrole'] using hbits
  have hnodup (c : Context) : c.references.Nodup :=
    c.references_ascend.imp fun hlt heq => absurd (congrArg Prod.fst heq) (Nat.ne_of_lt hlt)
  have hperm : c'.references.Perm c.references :=
    (List.perm_ext_iff_of_nodup (hnodup c') (hnodup c)).mpr fun r =>
      ⟨fun hr => hsub h.symm hr, fun hr => hsub h hr⟩
  refine hperm.eq_of_pairwise (fun r r' _ _ hlt hlt' => ?_) c'.references_ascend c.references_ascend
  exact absurd hlt' (Nat.lt_asymm hlt)

end

end Context

end Stimulus
