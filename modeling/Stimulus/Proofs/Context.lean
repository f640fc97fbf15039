import Stimulus.Context
import Stimulus.Proofs.Distribution
import Stimulus.Proofs.Expr.Locality
import Stimulus.Proofs.Table

/-!
# What contexts keep

Declarations are never withdrawn.  A context only grows: ids are taken once, a variable keeps its
type and its role, and a vector keeps its size variable.  Solving changes nothing but the bits of
random variables and the contents of vectors.

Main definitions:
- `Context.WellFormed`: what holds in every context
- `Context.signature`: the sorts of the declared variables
- `Context.Grows`, `Context.Keeps`: what later contexts have in common with earlier ones
- `Context.Changes`: what anybody who holds a context can do to it

Main statements:
- `Context.Changes.wellFormed`, `Context.Changes.grows`
- `Context.bits_writeAll`, `Context.bits_store`
-/

namespace Stimulus

namespace Context

/-! ## §1 Well-formed contexts -/

/-- Ids are taken once, every vector has a size variable of its own, which is declared right after
    it, references have bits within their width, and distributions can be drawn from. -/
structure WellFormed (c : Context) : Prop where
  cell_lt : ∀ (id : Nat) (cell : Cell), c.cells[id]? = some cell → id < c.nextId
  size_next : ∀ (id : Nat) (entry : VectorEntry), c.vectors[id]? = some entry →
    entry.size = ⟨id + 1, .size⟩
  size_cell : ∀ (id : Nat) (entry : VectorEntry), c.vectors[id]? = some entry →
    ∃ bits, c.cells[id + 1]? = some ⟨.size, .random, bits⟩
  reference_lt : ∀ (id : Nat) (cell : Cell), c.cells[id]? = some cell → cell.role = .reference →
    cell.bits < 2 ^ cell.type.sort.width
  lawful : ∀ (id : Nat) (d : Distribution), c.distributions[id]? = some d → d.Lawful

theorem width_sort_le (t : ScalarType) : t.sort.width ≤ 64 := by
  cases t with
  | bool => decide
  | int size signed => cases size <;> simp [ScalarType.sort, BitSort.width, IntSize.width]

/-- The sorts of the declared variables. -/
def signature (c : Context) : Signature where
  sort? id := c.cells[id]?.map fun cell => cell.type.sort
  width_le id s h := by
    obtain ⟨cell, -, rfl⟩ := Option.map_eq_some_iff.mp h
    exact width_sort_le cell.type

variable {c c' c'' : Context}

theorem sort?_signature {id : Nat} {cell : Cell} (h : c.cells[id]? = some cell) :
    c.signature.sort? id = some cell.type.sort := by
  simp only [signature, h, Option.map_some]

/-! ## §2 Growth -/

/-- All declarations are kept, and new ones have new ids. -/
structure Grows (c c' : Context) : Prop where
  nextId_le : c.nextId ≤ c'.nextId
  cells : ∀ (id : Nat) (cell : Cell), c.cells[id]? = some cell →
    ∃ bits, c'.cells[id]? = some { cell with bits := bits }
  vectors : ∀ (id : Nat) (entry : VectorEntry), c.vectors[id]? = some entry →
    ∃ contents, c'.vectors[id]? = some { entry with contents := contents }
  vectors_back : ∀ (id : Nat) (entry : VectorEntry), c'.vectors[id]? = some entry →
    id < c.nextId → ∃ contents, c.vectors[id]? = some { entry with contents := contents }

theorem grows_of_vectors_eq (hnext : c.nextId ≤ c'.nextId)
    (hcells : ∀ (id : Nat) (cell : Cell), c.cells[id]? = some cell →
      ∃ bits, c'.cells[id]? = some { cell with bits := bits })
    (hvectors : c'.vectors = c.vectors) : c.Grows c' :=
  ⟨hnext, hcells, fun _ entry h => ⟨entry.contents, hvectors ▸ h⟩,
    fun _ entry h _ => ⟨entry.contents, hvectors ▸ h⟩⟩

theorem Grows.refl (c : Context) : c.Grows c :=
  grows_of_vectors_eq (Nat.le_refl _) (fun _ cell h => ⟨cell.bits, h⟩) rfl

theorem Grows.trans (h : c.Grows c') (h' : c'.Grows c'') : c.Grows c'' where
  nextId_le := h.nextId_le.trans h'.nextId_le
  cells id cell hid := by
    obtain ⟨bits, hbits⟩ := h.cells id cell hid
    have hlast := h'.cells id _ hbits
    exact hlast
  vectors id entry hid := by
    obtain ⟨contents, hcontents⟩ := h.vectors id entry hid
    have hlast := h'.vectors id _ hcontents
    exact hlast
  vectors_back id entry hid hlt := by
    obtain ⟨contents, hcontents⟩ := h'.vectors_back id entry hid (hlt.trans_le h.nextId_le)
    -- An entry of the last context was there in the middle, and so at the start.
    have hfirst := h.vectors_back id _ hcontents hlt
    exact hfirst

theorem Grows.signature (h : c.Grows c') : c.signature.Sub c'.signature := by
  intro id s hid
  obtain ⟨cell, hcell, rfl⟩ := Option.map_eq_some_iff.mp hid
  obtain ⟨bits, hbits⟩ := h.cells id cell hcell
  have hsort := sort?_signature hbits
  exact hsort

/-- The declarations are the same.  Bits of random variables and contents of vectors may differ. -/
structure Keeps (c c' : Context) : Prop where
  nextId_le : c.nextId ≤ c'.nextId
  cells : ∀ id : Nat, c'.cells[id]?.map (fun cell => (cell.type, cell.role)) =
    c.cells[id]?.map fun cell => (cell.type, cell.role)
  references : ∀ (id : Nat) (cell : Cell), c.cells[id]? = some cell → cell.role = .reference →
    c'.cells[id]? = some cell
  vectors : ∀ id : Nat, c'.vectors[id]?.map (fun entry => (entry.elem, entry.size)) =
    c.vectors[id]?.map fun entry => (entry.elem, entry.size)
  distributions : c'.distributions = c.distributions

theorem Keeps.refl (c : Context) : c.Keeps c :=
  ⟨Nat.le_refl _, fun _ => rfl, fun _ _ h _ => h, fun _ => rfl, rfl⟩

theorem Keeps.trans (h : c.Keeps c') (h' : c'.Keeps c'') : c.Keeps c'' where
  nextId_le := h.nextId_le.trans h'.nextId_le
  cells id := (h'.cells id).trans (h.cells id)
  references id cell hid hrole := h'.references id cell (h.references id cell hid hrole) hrole
  vectors id := (h'.vectors id).trans (h.vectors id)
  distributions := h'.distributions.trans h.distributions

theorem Keeps.cell (h : c.Keeps c') {id : Nat} {cell : Cell} (hid : c.cells[id]? = some cell) :
    ∃ bits, c'.cells[id]? = some { cell with bits := bits } := by
  have hsame := h.cells id
  rw [hid] at hsame
  obtain ⟨cell', hcell', heq⟩ := Option.map_eq_some_iff.mp hsame
  obtain ⟨type, role, bits⟩ := cell'
  obtain ⟨rfl, rfl⟩ := Prod.mk.inj heq
  exact ⟨bits, hcell'⟩

theorem Keeps.cell_back (h : c.Keeps c') {id : Nat} {cell : Cell}
    (hid : c'.cells[id]? = some cell) : ∃ bits, c.cells[id]? = some { cell with bits := bits } := by
  have hsame := h.cells id
  rw [hid] at hsame
  obtain ⟨cell', hcell', heq⟩ := Option.map_eq_some_iff.mp hsame.symm
  obtain ⟨type, role, bits⟩ := cell'
  obtain ⟨rfl, rfl⟩ := Prod.mk.inj heq
  exact ⟨bits, hcell'⟩

theorem Keeps.vector (h : c.Keeps c') {id : Nat} {entry : VectorEntry}
    (hid : c.vectors[id]? = some entry) :
    ∃ contents, c'.vectors[id]? = some { entry with contents := contents } := by
  have hsame := h.vectors id
  rw [hid] at hsame
  obtain ⟨entry', hentry', heq⟩ := Option.map_eq_some_iff.mp hsame
  obtain ⟨elem, size, contents⟩ := entry'
  obtain ⟨rfl, rfl⟩ := Prod.mk.inj heq
  exact ⟨contents, hentry'⟩

theorem Keeps.vector_back (h : c.Keeps c') {id : Nat} {entry : VectorEntry}
    (hid : c'.vectors[id]? = some entry) :
    ∃ contents, c.vectors[id]? = some { entry with contents := contents } := by
  have hsame := h.vectors id
  rw [hid] at hsame
  obtain ⟨entry', hentry', heq⟩ := Option.map_eq_some_iff.mp hsame.symm
  obtain ⟨elem, size, contents⟩ := entry'
  obtain ⟨rfl, rfl⟩ := Prod.mk.inj heq
  exact ⟨contents, hentry'⟩

theorem Keeps.grows (h : c.Keeps c') : c.Grows c' :=
  ⟨h.nextId_le, fun _ _ hid => h.cell hid, fun _ _ hid => h.vector hid,
    fun _ _ hid _ => h.vector_back hid⟩

theorem Keeps.signature (h : c.Keeps c') : c'.signature = c.signature := by
  have hsort : c'.signature.sort? = c.signature.sort? := by
    -- The sort of a cell is part of what is kept of it.
    funext id
    have hsame := congrArg (Option.map fun p : ScalarType × Role => p.1.sort) (h.cells id)
    rw [Option.map_map, Option.map_map] at hsame
    exact hsame
  unfold Context.signature at hsort ⊢
  simp only [Signature.mk.injEq]
  exact hsort

theorem Keeps.wellFormed (h : c.Keeps c') (hc : c.WellFormed) : c'.WellFormed where
  cell_lt id cell hid := by
    -- A cell of the new context is an old one with other bits.
    obtain ⟨bits, hbits⟩ := h.cell_back hid
    exact (hc.cell_lt id _ hbits).trans_le h.nextId_le
  size_next id entry hid := by
    obtain ⟨contents, hcontents⟩ := h.vector_back hid
    have hnext := hc.size_next id _ hcontents
    exact hnext
  size_cell id entry hid := by
    obtain ⟨contents, hcontents⟩ := h.vector_back hid
    obtain ⟨bits, hbits⟩ := hc.size_cell id _ hcontents
    exact h.cell hbits
  reference_lt id cell hid hrole := by
    obtain ⟨bits, hbits⟩ := h.cell_back hid
    -- References keep their bits as well.
    have hsame := Option.some.inj (hid.symm.trans (h.references id _ hbits hrole))
    have hlt := hc.reference_lt id _ hbits hrole
    rw [hsame]
    exact hlt
  lawful := by
    rw [h.distributions]
    exact hc.lawful

/-! ## §3 Writing -/

theorem cells_setBits {id id' bits : Nat} : (c.setBits id bits).cells[id']? =
    if id = id' then c.cells[id']?.map fun cell => { cell with bits := bits }
    else c.cells[id']? :=
  getElem?_treeMap_modify

/-- New bits for a variable that is no reference. -/
theorem keeps_setBits {id : Nat} (h : ∀ cell : Cell, c.cells[id]? = some cell → cell.role = .random)
    (bits : Nat) : c.Keeps (c.setBits id bits) where
  nextId_le := Nat.le_refl _
  cells id' := by
    rw [cells_setBits]
    split
    · rw [Option.map_map]
      rfl
    · rfl
  references id' cell hid hrole := by
    rw [cells_setBits]
    split
    · rename_i heq
      subst heq
      -- Only a random cell is written, so this is no reference.
      rw [h cell hid] at hrole
      cases hrole
    · exact hid
  vectors _ := rfl
  distributions := rfl

theorem isRandom_iff {id : Nat} :
    c.isRandom id = true ↔ ∃ cell : Cell, c.cells[id]? = some cell ∧ cell.role = .random := by
  unfold isRandom
  cases c.cells[id]? <;> simp

theorem Keeps.isRandom (h : c.Keeps c') (id : Nat) : c'.isRandom id = c.isRandom id := by
  rw [Bool.eq_iff_iff, isRandom_iff, isRandom_iff]
  constructor
  · rintro ⟨cell, hid, hrole⟩
    obtain ⟨bits, hbits⟩ := h.cell_back hid
    exact ⟨_, hbits, hrole⟩
  · rintro ⟨cell, hid, hrole⟩
    obtain ⟨bits, hbits⟩ := h.cell hid
    exact ⟨_, hbits, hrole⟩

theorem keeps_write (c : Context) (id bits : Nat) : c.Keeps (c.write id bits) := by
  unfold write
  split
  · rename_i hrandom
    refine keeps_setBits (fun cell hid => ?_) bits
    obtain ⟨cell', hid', hrole⟩ := isRandom_iff.mp hrandom
    cases hid.symm.trans hid'
    exact hrole
  · exact .refl c

theorem keeps_writeAll (c : Context) (results : List (Nat × Nat)) :
    c.Keeps (c.writeAll results) := by
  unfold writeAll
  induction results generalizing c with
  | nil => exact .refl c
  | cons r rest ih => exact (keeps_write c r.1 r.2).trans (ih _)

theorem bits_setBits {id id' : Nat} {cell : Cell} (hid : c.cells[id]? = some cell) (bits : Nat) :
    (c.setBits id bits).bits id' = if id = id' then bits else c.bits id' := by
  unfold Context.bits
  rw [cells_setBits]
  split
  · rename_i heq
    rw [← heq, hid]
    rfl
  · rfl

theorem bits_write (c : Context) (id bits id' : Nat) : (c.write id bits).bits id' =
    if id = id' ∧ c.isRandom id = true then bits else c.bits id' := by
  unfold write
  by_cases hrandom : c.isRandom id = true
  · obtain ⟨cell, hid, -⟩ := isRandom_iff.mp hrandom
    rw [if_pos hrandom, bits_setBits hid]
    simp [hrandom]
  · rw [if_neg hrandom, if_neg fun h => hrandom h.2]

/-- A variable that is not written keeps its bits. -/
theorem bits_writeAll_of_not_mem {results : List (Nat × Nat)} {id : Nat}
    (h : ∀ n, (id, n) ∈ results → c.isRandom id = false) :
    (c.writeAll results).bits id = c.bits id := by
  unfold writeAll
  induction results generalizing c with
  | nil => rfl
  | cons r rest ih =>
    -- Writing does not change which variables are random, so the hypothesis is kept.
    rw [List.foldl_cons, ih fun n hn => by
      rw [(keeps_write c r.1 r.2).isRandom]
      exact h n (List.mem_cons_of_mem r hn), bits_write, if_neg]
    rintro ⟨rfl, hrandom⟩
    rw [h r.2 List.mem_cons_self] at hrandom
    cases hrandom

/-- A random variable has the bits that were written last. -/
theorem bits_writeAll {results : List (Nat × Nat)} {id n : Nat} (hrandom : c.isRandom id = true)
    (hmem : (id, n) ∈ results) (hsame : ∀ m, (id, m) ∈ results → m = n) :
    (c.writeAll results).bits id = n := by
  unfold writeAll
  induction results generalizing c with
  | nil => cases hmem
  | cons r rest ih =>
    rw [List.foldl_cons]
    have hrandom' : (c.write r.1 r.2).isRandom id = true := by
      rw [(keeps_write c r.1 r.2).isRandom, hrandom]
    have hsame' := fun m hm => hsame m (List.mem_cons_of_mem r hm)
    -- The last write of the variable decides.
    by_cases hrest : (id, n) ∈ rest
    · exact ih hrandom' hrest hsame'
    · -- Nothing writes the variable again.
      have hr := (List.mem_cons.mp hmem).resolve_right hrest
      subst hr
      have hkept : ((c.write id n).writeAll rest).bits id = (c.write id n).bits id :=
        bits_writeAll_of_not_mem fun m hm => absurd (hsame' m hm ▸ hm) hrest
      unfold writeAll at hkept
      rw [hkept, bits_write, if_pos ⟨rfl, hrandom⟩]

/-! ## §4 Storing -/

/-- The size variable of a vector agrees with its length. -/
def Sized (c : Context) (id : Nat) : Prop :=
  ∀ entry, c.vectors[id]? = some entry → c.bits entry.size.id = entry.contents.length

theorem store_eq {id : Nat} {entry : VectorEntry} (h : c.vectors[id]? = some entry)
    (values : List Nat) : c.store id values = { c with
      vectors := c.vectors.insert id { entry with contents := values } }.setBits entry.size.id
        values.length := by
  unfold store
  rw [h]

theorem store_of_none {id : Nat} (h : c.vectors[id]? = none) (values : List Nat) :
    c.store id values = c := by
  unfold store
  rw [h]

theorem vectors_store {id : Nat} {entry : VectorEntry} (h : c.vectors[id]? = some entry)
    (values : List Nat) (id' : Nat) : (c.store id values).vectors[id']? =
      if id = id' then some { entry with contents := values } else c.vectors[id']? := by
  rw [store_eq h]
  exact getElem?_treeMap_insert

theorem bits_store (hc : c.WellFormed) {id : Nat} {entry : VectorEntry}
    (h : c.vectors[id]? = some entry) (values : List Nat) (id' : Nat) :
    (c.store id values).bits id' = if entry.size.id = id' then values.length else c.bits id' := by
  obtain ⟨bits, hbits⟩ := hc.size_cell id entry h
  have hsize : c.cells[entry.size.id]? = some ⟨.size, .random, bits⟩ := by
    rw [hc.size_next id entry h]
    exact hbits
  rw [store_eq h]
  exact bits_setBits (c := { c with vectors := c.vectors.insert id _ }) hsize values.length

theorem keeps_store (hc : c.WellFormed) (id : Nat) (values : List Nat) :
    c.Keeps (c.store id values) := by
  cases h : c.vectors[id]? with
  | none =>
    rw [store_of_none h]
    exact .refl c
  | some entry =>
    -- The contents are not part of what is kept; then the size is written like a random cell.
    have hsame : c.Keeps
        { c with vectors := c.vectors.insert id { entry with contents := values } } := by
      refine ⟨Nat.le_refl _, fun _ => rfl, fun _ _ hid _ => hid, fun id' => ?_, rfl⟩
      rw [getElem?_treeMap_insert]
      split
      · rename_i heq
        rw [← heq, h]
        rfl
      · rfl
    rw [store_eq h]
    refine hsame.trans (keeps_setBits (fun cell hid => ?_) _)
    obtain ⟨bits, hbits⟩ := hc.size_cell id entry h
    rw [hc.size_next id entry h] at hid
    cases hid.symm.trans hbits
    rfl

/-- The stored vector has its length as its size. -/
theorem sized_store (hc : c.WellFormed) (id : Nat) (values : List Nat) :
    (c.store id values).Sized id := by
  intro entry' hentry'
  cases h : c.vectors[id]? with
  | none =>
    rw [store_of_none h, h] at hentry'
    cases hentry'
  | some entry =>
    rw [vectors_store h, if_pos rfl] at hentry'
    cases hentry'
    rw [bits_store hc h, if_pos rfl]

/-- Vectors have size variables of their own, so the other vectors stay as they are. -/
theorem Sized.store {id id' : Nat} (h : c.Sized id') (hc : c.WellFormed) (values : List Nat) :
    (c.store id values).Sized id' := by
  by_cases hsame : id = id'
  · subst hsame
    exact sized_store hc id values
  intro entry' hentry'
  cases hentry : c.vectors[id]? with
  | none =>
    rw [store_of_none hentry] at hentry' ⊢
    exact h entry' hentry'
  | some entry =>
    rw [vectors_store hentry, if_neg hsame] at hentry'
    -- The sizes of different vectors are different cells.
    rw [bits_store hc hentry, if_neg, h entry' hentry']
    rw [hc.size_next id entry hentry, hc.size_next id' entry' hentry']
    simpa using hsame

/-! ## §5 What anybody can do to a context -/

/-- One change of a context: a declaration, a distribution, a value given by hand, or what another
    owner of the context solves. -/
inductive Changes : Context → Context → Prop where
  | declare (c : Context) (type : ScalarType) : Changes c (declare type c).2
  | refer (c : Context) (type : ScalarType) (value : Int) : Changes c (refer type value c).2
  | declareVector (c : Context) (type : ScalarType) : Changes c (declareVector type c).2
  | takeId (c : Context) : Changes c (takeId c).2
  | takeConstraintId (c : Context) : Changes c (takeConstraintId c).2
  | takeEntropy (c : Context) : Changes c (takeEntropy c).2
  | distribute (c : Context) (v : Variable) {d : Distribution} (hd : d.Reached) :
      Changes c (c.distribute v d)
  | setValue {c : Context} {v : Variable} {cell : Cell} (hv : c.cells[v.id]? = some cell)
      (htype : cell.type = v.type) (value : Int) : Changes c (c.setValue v value)
  | write (c : Context) (id bits : Nat) : Changes c (c.write id bits)
  | store (c : Context) (id : Nat) (values : List Nat) : Changes c (c.store id values)

/-- The context after a scalar is declared. -/
def withCell (c : Context) (cell : Cell) : Context :=
  { c with nextId := c.nextId + 1, cells := c.cells.insert c.nextId cell }

theorem cells_withCell (c : Context) (cell : Cell) (id : Nat) :
    (c.withCell cell).cells[id]? = if c.nextId = id then some cell else c.cells[id]? :=
  getElem?_treeMap_insert

/-- A new scalar that is a random variable or has bits within its width. -/
theorem WellFormed.withCell (hc : c.WellFormed) (cell : Cell)
    (hbits : cell.role = .reference → cell.bits < 2 ^ cell.type.sort.width) :
    (c.withCell cell).WellFormed where
  cell_lt id cell' hid := by
    rw [cells_withCell] at hid
    split at hid
    · rename_i heq
      exact heq ▸ Nat.lt_succ_self _
    · exact Nat.lt_succ_of_lt (hc.cell_lt id cell' hid)
  size_next := hc.size_next
  size_cell id entry hid := by
    obtain ⟨bits, hcell⟩ := hc.size_cell id entry hid
    -- The new cell is not one of the old ones, whose ids are smaller.
    have hne : ¬ c.nextId = id + 1 := Nat.ne_of_gt (hc.cell_lt _ _ hcell)
    exact ⟨bits, by rw [cells_withCell, if_neg hne, hcell]⟩
  reference_lt id cell' hid hrole := by
    rw [cells_withCell] at hid
    split at hid
    · cases hid
      exact hbits hrole
    · exact hc.reference_lt id cell' hid hrole
  lawful := hc.lawful

theorem WellFormed.grows_withCell (hc : c.WellFormed) (cell : Cell) :
    c.Grows (c.withCell cell) := by
  refine grows_of_vectors_eq (Nat.le_succ _) (fun id cell' hid => ?_) rfl
  have hne : ¬ c.nextId = id := Nat.ne_of_gt (hc.cell_lt id cell' hid)
  exact ⟨cell'.bits, by rw [cells_withCell, if_neg hne, hid]⟩

/-- The context after a vector is declared whose size variable is declared already. -/
def withVector (c : Context) (id : Nat) (elem : BitSort) : Context :=
  { c with vectors := c.vectors.insert id ⟨elem, ⟨id + 1, .size⟩, []⟩ }

theorem vectors_withVector (c : Context) (id : Nat) (elem : BitSort) (id' : Nat) :
    (c.withVector id elem).vectors[id']? =
      if id = id' then some ⟨elem, ⟨id + 1, .size⟩, []⟩ else c.vectors[id']? :=
  getElem?_treeMap_insert

theorem WellFormed.withVector (hc : c.WellFormed) {id bits : Nat}
    (hsize : c.cells[id + 1]? = some ⟨.size, .random, bits⟩) (elem : BitSort) :
    (c.withVector id elem).WellFormed where
  cell_lt := hc.cell_lt
  size_next id' entry hid := by
    rw [vectors_withVector] at hid
    split at hid
    · rename_i heq
      cases hid
      rw [heq]
    · exact hc.size_next id' entry hid
  size_cell id' entry hid := by
    rw [vectors_withVector] at hid
    split at hid
    · rename_i heq
      exact ⟨bits, heq ▸ hsize⟩
    · exact hc.size_cell id' entry hid
  reference_lt := hc.reference_lt
  lawful := hc.lawful

/-- Taking an id for something that the context does not keep. -/
theorem keeps_takeId (c : Context) : c.Keeps (takeId c).2 :=
  ⟨Nat.le_succ _, fun _ => rfl, fun _ _ hid _ => hid, fun _ => rfl, rfl⟩

theorem keeps_takeConstraintId (c : Context) : c.Keeps (takeConstraintId c).2 :=
  ⟨Nat.le_refl _, fun _ => rfl, fun _ _ hid _ => hid, fun _ => rfl, rfl⟩

theorem keeps_takeEntropy (c : Context) : c.Keeps (takeEntropy c).2 :=
  ⟨Nat.le_refl _, fun _ => rfl, fun _ _ hid _ => hid, fun _ => rfl, rfl⟩

/-- New bits for a variable, which lie within its width if it is a reference. -/
theorem WellFormed.setBits (hc : c.WellFormed) {id bits : Nat} {cell : Cell}
    (hid : c.cells[id]? = some cell) (hbits : bits < 2 ^ cell.type.sort.width) :
    (c.setBits id bits).WellFormed := by
  -- Whatever a cell is now, it was before, but for its bits.
  have hback : ∀ (id' : Nat) (cell' : Cell), (c.setBits id bits).cells[id']? = some cell' →
      ∃ old, c.cells[id']? = some { cell' with bits := old } := by
    intro id' cell' hid'
    rw [cells_setBits] at hid'
    split at hid'
    · obtain ⟨old, hold, rfl⟩ := Option.map_eq_some_iff.mp hid'
      exact ⟨old.bits, hold⟩
    · exact ⟨cell'.bits, hid'⟩
  refine ⟨fun id' cell' hid' => ?_, hc.size_next, fun id' entry hentry => ?_,
    fun id' cell' hid' hrole => ?_, hc.lawful⟩
  · obtain ⟨old, hold⟩ := hback id' cell' hid'
    have hlt := hc.cell_lt id' _ hold
    exact hlt
  · obtain ⟨old, hold⟩ := hc.size_cell id' entry hentry
    rw [cells_setBits, hold]
    split
    · exact ⟨bits, rfl⟩
    · exact ⟨old, rfl⟩
  · rw [cells_setBits] at hid'
    split at hid'
    · rename_i heq
      rw [← heq, hid] at hid'
      cases hid'
      exact hbits
    · exact hc.reference_lt id' cell' hid' hrole

theorem grows_setBits (c : Context) (id bits : Nat) : c.Grows (c.setBits id bits) := by
  refine grows_of_vectors_eq (Nat.le_refl _) (fun id' cell hid => ?_) rfl
  rw [cells_setBits, hid]
  split
  · exact ⟨bits, rfl⟩
  · exact ⟨cell.bits, rfl⟩

theorem toBits_lt (t : ScalarType) (n : Int) : t.toBits n < 2 ^ t.sort.width := BitVec.isLt _

theorem wellFormed_empty (identity : Nat) (entropy : Nat → ChaCha.Key) :
    (empty identity entropy).WellFormed where
  cell_lt id cell hid := by simp [empty] at hid
  size_next id entry hid := by simp [empty] at hid
  size_cell id entry hid := by simp [empty] at hid
  reference_lt id cell hid := by simp [empty] at hid
  lawful id d hid := by simp [empty] at hid

/-- The two steps of declaring a vector. -/
theorem declareVector_eq (c : Context) (type : ScalarType) : (declareVector type c).2 =
    ((takeId c).2.withCell ⟨.size, .random, 0⟩).withVector c.nextId type.sort := rfl

theorem WellFormed.takeId (hc : c.WellFormed) : (takeId c).2.WellFormed :=
  (keeps_takeId c).wellFormed hc

/-- Every change keeps a context well-formed. -/
theorem Changes.wellFormed (h : c.Changes c') (hc : c.WellFormed) : c'.WellFormed := by
  cases h with
  | declare type => exact hc.withCell ⟨type, .random, 0⟩ (nomatch ·)
  | refer type value =>
    exact hc.withCell ⟨type, .reference, type.toBits value⟩ fun _ => toBits_lt type value
  | declareVector type =>
    rw [declareVector_eq]
    have hsize : ((Context.takeId c).2.withCell ⟨.size, .random, 0⟩).cells[c.nextId + 1]? =
        some ⟨.size, .random, 0⟩ := by
      rw [cells_withCell]
      exact if_pos rfl
    exact (hc.takeId.withCell ⟨.size, .random, 0⟩ (nomatch ·)).withVector hsize _
  | takeId => exact hc.takeId
  | takeConstraintId => exact (keeps_takeConstraintId c).wellFormed hc
  | takeEntropy => exact (keeps_takeEntropy c).wellFormed hc
  | distribute v hd =>
    refine ⟨hc.cell_lt, hc.size_next, hc.size_cell, hc.reference_lt, fun id d hid => ?_⟩
    -- Only the distribution of this one variable is new.
    rw [show (c.distribute v _).distributions = c.distributions.insert v.id _ from rfl,
      getElem?_treeMap_insert] at hid
    split at hid
    · cases hid
      exact hd.lawful
    · exact hc.lawful id d hid
  | setValue hv htype value => exact hc.setBits hv (htype ▸ toBits_lt _ value)
  | write id bits => exact (keeps_write c id bits).wellFormed hc
  | store id values => exact (keeps_store hc id values).wellFormed hc

/-- Every change keeps what was declared. -/
theorem Changes.grows (h : c.Changes c') (hc : c.WellFormed) : c.Grows c' := by
  cases h with
  | declare type => exact hc.grows_withCell ⟨type, .random, 0⟩
  | refer type value => exact hc.grows_withCell ⟨type, .reference, type.toBits value⟩
  | declareVector type =>
    have htaken := (keeps_takeId c).grows
    have hcell := htaken.trans (hc.takeId.grows_withCell ⟨.size, .random, 0⟩)
    rw [declareVector_eq]
    refine ⟨hcell.nextId_le, hcell.cells, fun id entry hid => ?_,
      fun id entry hid hlt => hcell.vectors_back id entry ?_ hlt⟩
    · -- The size of an old vector is an old cell, so the new vector has another id.
      have hlt : id + 1 < c.nextId := by
        obtain ⟨bits, hbits⟩ := hc.size_cell id entry hid
        exact hc.cell_lt _ _ hbits
      rw [vectors_withVector, if_neg (by omega)]
      exact hcell.vectors id entry hid
    · rwa [vectors_withVector, if_neg (Nat.ne_of_gt hlt)] at hid
  | takeId => exact (keeps_takeId c).grows
  | takeConstraintId => exact (keeps_takeConstraintId c).grows
  | takeEntropy => exact (keeps_takeEntropy c).grows
  | distribute v hd =>
    exact grows_of_vectors_eq (Nat.le_refl _) (fun _ cell hid => ⟨cell.bits, hid⟩) rfl
  | setValue hv htype value => exact grows_setBits c _ _
  | write id bits => exact (keeps_write c id bits).grows
  | store id values => exact (keeps_store hc id values).grows

end Context

end Stimulus
