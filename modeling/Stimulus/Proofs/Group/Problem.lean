import Stimulus.Group.PartitionSolver
import Stimulus.Proofs.Context
import Stimulus.Proofs.Solver

/-!
# The problem of a partition

A partition poses a problem to its solvers: its hard and soft constraints, and bounds on those of
its variables that are sizes of vectors.

Main definitions:
- `Partition.Declared`: all variables of a partition are declared
- `Partition.Posed`: all constraints of a partition can be encoded
- `Partition.hards`, `Partition.softs`
- `Bounds`: what bounds on sizes say

Main statements:
- `Partition.Declared.getElem?_scalars`
- `bounds_boundsOnSizes`
- `few_signature`
-/

namespace Stimulus

/-! ## §1 Partitions -/

namespace Partition

/-- The hard constraints. -/
def hards (p : Partition) : List Expr := (p.constraints.filter (·.isHard)).map Constraint.expr

/-- The soft constraints. -/
def softs (p : Partition) : List Expr :=
  (p.constraints.filter fun c => c.soft && !c.cover).map Constraint.expr

/-- The names of the soft constraints. -/
def softNames (p : Partition) : List String :=
  (p.constraints.filter (·.soft)).map Constraint.name

/-- The variable occurs in a constraint of the partition. -/
def Mentions (p : Partition) (id : Nat) (s : BitSort) : Prop :=
  ∃ c ∈ p.constraints, c.expr.Mentions id s

/-- The variables of the partition are declared with their sorts. -/
def Declared (p : Partition) (Γ : Signature) : Prop :=
  ∀ id s, p.Mentions id s → Γ.sort? id = some s

/-- All constraints of the partition can be encoded. -/
def Posed (p : Partition) (Γ : Signature) : Prop := ∀ c ∈ p.constraints, Γ.Admits c.expr

section

variable {p : Partition} {Γ Δ : Signature} {id : Nat} {s : BitSort} {e : Expr}

theorem Posed.mono (h : p.Posed Γ) (hsub : Γ.Sub Δ) : p.Posed Δ :=
  fun c hc => (h c hc).mono hsub

theorem Posed.sort? (h : p.Posed Γ) (hid : p.Mentions id s) : Γ.sort? id = some s := by
  obtain ⟨c, hc, hmem⟩ := hid
  exact (h c hc).declared id s hmem

theorem Posed.declared (h : p.Posed Γ) : p.Declared Γ := fun _ _ => h.sort?

theorem mem_hards : e ∈ p.hards ↔ ∃ c ∈ p.constraints, c.isHard = true ∧ c.expr = e := by
  simp [hards, and_assoc]

theorem length_hards_le (p : Partition) : p.hards.length ≤ p.constraints.length := by
  unfold hards
  rw [List.length_map]
  exact List.length_filter_le _ _

theorem mentions_of_softs (p : Partition) (he : e ∈ p.softs) (hid : e.Mentions id s) :
    p.Mentions id s := by
  obtain ⟨c, hc, rfl⟩ := List.mem_map.mp he
  exact ⟨c, (List.mem_filter.mp hc).1, hid⟩

/-- The hard constraints by their positions, as they are handed to the search for conflicts. -/
def numberedHards (p : Partition) : Std.TreeMap Nat Expr :=
  .ofList ((p.constraints.filter (·.isHard)).zipIdx.map fun x => (x.2, x.1.expr))

theorem nodup_numberedHards (p : Partition) :
    (((p.constraints.filter (·.isHard)).zipIdx.map fun x =>
      (x.2, x.1.expr)).map Prod.fst).Nodup := by
  rw [List.map_map]
  show (List.map Prod.snd _).Nodup
  rw [List.zipIdx_map_snd]
  exact List.nodup_range'

theorem mem_values_numberedHards : e ∈ p.numberedHards.values ↔ e ∈ p.hards := by
  rw [mem_values_treeMap, numberedHards]
  constructor
  · rintro ⟨k, hk⟩
    obtain ⟨x, hx, heq⟩ := List.mem_map.mp (mem_of_getElem?_ofList p.nodup_numberedHards hk)
    cases heq
    exact List.mem_map.mpr ⟨x.1, List.fst_mem_of_mem_zipIdx hx, rfl⟩
  · intro he
    obtain ⟨x, hx, rfl⟩ := List.mem_map.mp he
    obtain ⟨i, hi⟩ := List.mem_iff_getElem?.mp hx
    refine ⟨i, Std.TreeMap.getElem?_ofList_of_mem Std.ReflCmp.compare_self
      (pairwise_compare_ne p.nodup_numberedHards) (List.mem_map.mpr ⟨(x, i), ?_, rfl⟩)⟩
    exact List.mem_zipIdx_iff_getElem?.mpr hi

theorem size_numberedHards (p : Partition) : p.numberedHards.size = p.hards.length := by
  rw [numberedHards, Std.TreeMap.size_ofList (pairwise_compare_ne p.nodup_numberedHards)]
  simp [hards]

theorem Posed.admits_hards (h : p.Posed Γ) (he : e ∈ p.hards) : Γ.Admits e := by
  obtain ⟨c, hc, -, rfl⟩ := mem_hards.mp he
  exact h c hc

theorem scalars_eq_tableOf (p : Partition) : p.scalars =
    tableOf (fun e => e.id?.map (·, e)) ∅ (p.constraints.flatMap (·.expr.scalars)) := by
  refine foldl_eq_tableOf fun m e => ?_
  cases e.id? <;> rfl

/-- The variables of a partition are those that occur in its constraints. -/
theorem Declared.getElem?_scalars (h : p.Declared Γ) :
    p.scalars[id]? = some e ↔ ∃ s, e = .var id s ∧ p.Mentions id s := by
  rw [scalars_eq_tableOf]
  have hentry : ∀ x ∈ p.constraints.flatMap (·.expr.scalars), ∀ v, x.id?.map (·, x) = some (id, v) →
      ∃ s, v = .var id s ∧ p.Mentions id s := by
    intro x hx v hv
    obtain ⟨c, hc, hmem⟩ := List.mem_flatMap.mp hx
    obtain ⟨id', s, rfl, hs⟩ := Expr.mentions_of_mem_scalars hmem
    cases hv
    exact ⟨s, rfl, c, hc, hs⟩
  constructor
  · intro hget
    rcases mem_of_getElem?_tableOf hget with hempty | ⟨x, hx, hv⟩
    · simp at hempty
    · exact hentry x hx e hv
  · rintro ⟨s, rfl, hid⟩
    obtain ⟨c, hc, hmem⟩ := hid
    obtain ⟨s', hs'⟩ := Expr.exists_mem_scalars hmem
    -- A variable is declared with one sort, so all its occurrences are equal.
    have hsame : ∀ x ∈ p.constraints.flatMap (·.expr.scalars), ∀ v,
        x.id?.map (·, x) = some (id, v) → v = .var id s := by
      intro x hx v hv
      obtain ⟨s'', rfl, hid''⟩ := hentry x hx v hv
      cases (h _ _ hid'').symm.trans (h _ _ ⟨c, hc, hmem⟩)
      rfl
    have hx : Expr.var id s' ∈ p.constraints.flatMap (·.expr.scalars) :=
      List.mem_flatMap.mpr ⟨c, hc, hs'⟩
    have hs : Expr.var id s' = .var id s := hsame _ hx _ rfl
    exact getElem?_tableOf_of_mem hx (by rw [hs]; rfl) hsame

theorem Posed.getElem?_scalars (h : p.Posed Γ) :
    p.scalars[id]? = some e ↔ ∃ s, e = .var id s ∧ p.Mentions id s :=
  h.declared.getElem?_scalars

end

end Partition

/-! ## §2 Bounds on sizes -/

/-- Every variable of a table is declared, with its sort. -/
def Context.Declares (c : Context) (vars : Std.TreeMap Nat Expr) : Prop :=
  ∀ (id : Nat) (e : Expr), vars[id]? = some e →
    ∃ s, e = .var id s ∧ c.signature.sort? id = some s

theorem Context.Declares.grows {c c' : Context} {vars : Std.TreeMap Nat Expr}
    (h : c.Declares vars) (hgrows : c.Grows c') : c'.Declares vars := by
  intro id e he
  obtain ⟨s, rfl, hs⟩ := h id e he
  exact ⟨s, rfl, hgrows.signature id s hs⟩

theorem Partition.Declared.declares {p : Partition} {c : Context} (hp : p.Declared c.signature) :
    c.Declares p.scalars := by
  intro id e he
  obtain ⟨s, rfl, hmem⟩ := hp.getElem?_scalars.mp he
  exact ⟨s, rfl, hp id s hmem⟩

theorem Partition.Posed.declares {p : Partition} {c : Context} (hp : p.Posed c.signature) :
    c.Declares p.scalars :=
  hp.declared.declares

/-- The bound on a size variable, which is a 32-bit number. -/
def sizeBound (id max : Nat) : Expr :=
  .binary .lessEqual (.var id (.unsigned 32)) (.constant (min max (1 <<< 32 - 1)) (.unsigned 32))

theorem holds_sizeBound {id max : Nat} {env : Nat → Nat} :
    (sizeBound id max).Holds env ↔ env id % 2 ^ 32 ≤ min max (2 ^ 32 - 1) :=
  Expr.holds_atMost (by decide) (by omega)

theorem mentions_sizeBound {id max id' : Nat} {s : BitSort}
    (h : (sizeBound id max).Mentions id' s) : id' = id ∧ s = .unsigned 32 := by
  simpa [sizeBound, Expr.constant] using h

/-- The bounds on the sizes of all vectors whose sizes are among some variables. -/
def Bounds (c : Context) (vars : Std.TreeMap Nat Expr) (max : Nat) (bounds : List Expr) : Prop :=
  ∀ b, b ∈ bounds ↔ ∃ (id : Nat) (entry : VectorEntry), c.vectors[id]? = some entry ∧
    (∃ e, vars[entry.size.id]? = some e) ∧ b = sizeBound entry.size.id max

section

variable {c c' : Context} {p : Partition} {vars : Std.TreeMap Nat Expr} {max : Nat}
  {bounds : List Expr}

/-- Sizes are 32-bit numbers wherever they occur. -/
theorem Context.Declares.size (h : c.Declares vars) (hc : c.WellFormed) {id : Nat}
    {entry : VectorEntry} (hid : c.vectors[id]? = some entry) {e : Expr}
    (he : vars[entry.size.id]? = some e) : e = .var entry.size.id (.unsigned 32) := by
  obtain ⟨s, rfl, hs⟩ := h _ _ he
  obtain ⟨bits, hbits⟩ := hc.size_cell id entry hid
  rw [hc.size_next id entry hid] at hs ⊢
  cases hs.symm.trans (Context.sort?_signature hbits)
  rfl

theorem Context.sort?_size (hc : c.WellFormed) {id : Nat} {entry : VectorEntry}
    (hid : c.vectors[id]? = some entry) :
    c.signature.sort? entry.size.id = some (.unsigned 32) := by
  obtain ⟨bits, hbits⟩ := hc.size_cell id entry hid
  rw [hc.size_next id entry hid]
  exact Context.sort?_signature hbits

theorem boundsOnSizes_eq_tableOf (c : Context) (vars : Std.TreeMap Nat Expr) (max : Nat) :
    boundsOnSizes c vars max = tableOf (fun x => vars[x.2.size.id]?.map fun size =>
      (x.2.size.id, .binary .lessEqual size (.constant (min max (1 <<< 32 - 1)) size.sort))) ∅
        c.vectors.toList := by
  refine foldl_eq_tableOf fun m x => ?_
  obtain ⟨id, entry⟩ := x
  dsimp only
  cases vars[entry.size.id]? <;> rfl

/-- The bounds that are put on sizes when a solver is built. -/
theorem bounds_boundsOnSizes (hc : c.WellFormed) (hvars : c.Declares vars) (max : Nat) :
    Bounds c vars max (boundsOnSizes c vars max).values := by
  intro b
  rw [mem_values_treeMap, boundsOnSizes_eq_tableOf]
  constructor
  · rintro ⟨k, hk⟩
    rcases mem_of_getElem?_tableOf hk with hempty | ⟨⟨id, entry⟩, hmem, hentry⟩
    · simp at hempty
    · obtain ⟨size, hsize, heq⟩ := Option.map_eq_some_iff.mp hentry
      have hid := Std.TreeMap.mem_toList_iff_getElem?_eq_some.mp hmem
      cases heq
      exact ⟨id, entry, hid, ⟨size, hsize⟩, by rw [hvars.size hc hid hsize]; rfl⟩
  · rintro ⟨id, entry, hid, ⟨size, hsize⟩, rfl⟩
    have hmem := Std.TreeMap.mem_toList_iff_getElem?_eq_some.mpr hid
    refine ⟨entry.size.id, getElem?_tableOf_of_mem hmem (v := sizeBound entry.size.id max) ?_ ?_⟩
    · rw [hsize, hvars.size hc hid hsize]
      rfl
    · rintro ⟨id', entry'⟩ hmem' w hw
      obtain ⟨size', hsize', heq⟩ := Option.map_eq_some_iff.mp hw
      -- Two vectors with the same size variable have the same bound.
      obtain ⟨hkey, rfl⟩ := Prod.mk.inj heq
      dsimp only at hkey hsize'
      rw [hkey, hsize] at hsize'
      cases hsize'
      rw [hvars.size hc hid hsize]
      rfl

/-- Later declarations add no size that declared variables could be. -/
theorem Bounds.grows (h : Bounds c vars max bounds) (hvars : c.Declares vars)
    (hc : c.WellFormed) (hc' : c'.WellFormed) (hgrows : c.Grows c') :
    Bounds c' vars max bounds := by
  intro b
  rw [h b]
  constructor
  · rintro ⟨id, entry, hid, hsize, rfl⟩
    obtain ⟨contents, hcontents⟩ := hgrows.vectors id entry hid
    exact ⟨id, _, hcontents, hsize, rfl⟩
  · rintro ⟨id, entry, hid, ⟨e, he⟩, rfl⟩
    obtain ⟨s, rfl, hs⟩ := hvars _ e he
    obtain ⟨cell, hcell, -⟩ := Option.map_eq_some_iff.mp hs
    have hlt := hc.cell_lt _ _ hcell
    rw [hc'.size_next id entry hid] at hlt
    obtain ⟨contents, hcontents⟩ := hgrows.vectors_back id entry hid (by simp at hlt; omega)
    exact ⟨id, _, hcontents, ⟨_, he⟩, rfl⟩

theorem Bounds.admits (h : Bounds c vars max bounds) (hc : c.WellFormed) {b : Expr}
    (hb : b ∈ bounds) : c.signature.Admits b := by
  obtain ⟨id, entry, hid, -, rfl⟩ := (h b).mp hb
  exact Signature.admits_compare (Context.sort?_size hc hid) (by decide)

/-- The bounds speak of variables of the partition. -/
theorem Bounds.mentions (h : Bounds c p.scalars max bounds) (hc : c.WellFormed)
    (hp : p.Posed c.signature) {b : Expr} (hb : b ∈ bounds) {id : Nat} {s : BitSort}
    (hid : b.Mentions id s) : p.Mentions id s := by
  obtain ⟨v, entry, hv, ⟨e, he⟩, rfl⟩ := (h b).mp hb
  obtain ⟨rfl, rfl⟩ := mentions_sizeBound hid
  obtain ⟨s, heq, hmem⟩ := hp.getElem?_scalars.mp he
  cases (hp.declares.size hc hv he).symm.trans heq
  exact hmem

/-- So do the hard constraints and the bounds together. -/
theorem Bounds.mentions_of_mem (h : Bounds c p.scalars max bounds) (hc : c.WellFormed)
    (hp : p.Posed c.signature) {e : Expr} (he : e ∈ p.hards ++ bounds) {id : Nat} {s : BitSort}
    (hid : e.Mentions id s) : p.Mentions id s := by
  rcases List.mem_append.mp he with he | he
  · obtain ⟨x, hx, -, rfl⟩ := Partition.mem_hards.mp he
    exact ⟨x, hx, hid⟩
  · exact h.mentions hc hp he hid

theorem Bounds.allHold_iff (h : Bounds c vars max bounds) {env : Nat → Nat} :
    Expr.AllHold env bounds ↔ ∀ (id : Nat) (entry : VectorEntry), c.vectors[id]? = some entry →
      (∃ e, vars[entry.size.id]? = some e) →
        env entry.size.id % 2 ^ 32 ≤ min max (2 ^ 32 - 1) := by
  constructor
  · intro hall id entry hid hsize
    exact holds_sizeBound.mp (hall _ ((h _).mpr ⟨id, entry, hid, hsize, rfl⟩))
  · intro hle b hb
    obtain ⟨id, entry, hid, hsize, rfl⟩ := (h b).mp hb
    exact holds_sizeBound.mpr (hle id entry hid hsize)

end

/-! ## §3 References and slots -/

theorem mem_references {c : Context} {id bits : Nat} : (id, bits) ∈ c.references ↔
    ∃ cell, c.cells[id]? = some cell ∧ cell.role = .reference ∧ cell.bits = bits := by
  unfold Context.references
  rw [List.mem_filterMap]
  constructor
  · rintro ⟨⟨id', cell⟩, hmem, heq⟩
    dsimp only at heq
    split at heq
    · rename_i hrole
      cases heq
      exact ⟨cell, Std.TreeMap.mem_toList_iff_getElem?_eq_some.mp hmem, hrole, rfl⟩
    · cases heq
  · rintro ⟨cell, hid, hrole, rfl⟩
    exact ⟨(id, cell), Std.TreeMap.mem_toList_iff_getElem?_eq_some.mpr hid, if_pos hrole⟩

/-- The equation that a reference gives rise to if it is among some variables. -/
def given? (vars : Std.TreeMap Nat Expr) (reference : Nat × Nat) : Option Expr :=
  vars[reference.1]?.map (·.equalTo reference.2)

/-- The equations for all references among some variables. -/
def givens (c : Context) (vars : Std.TreeMap Nat Expr) : List Expr :=
  c.references.filterMap (given? vars)

section

variable {c : Context} {p : Partition} {env : Nat → Nat}

theorem given?_eq_some (hp : p.Declared c.signature) {id bits : Nat} {e : Expr}
    (h : given? p.scalars (id, bits) = some e) :
    ∃ s, p.Mentions id s ∧ e = (Expr.var id s).equalTo bits := by
  obtain ⟨v, hv, rfl⟩ := Option.map_eq_some_iff.mp h
  obtain ⟨s, rfl, hid⟩ := hp.getElem?_scalars.mp hv
  exact ⟨s, hid, rfl⟩

theorem admits_given? (hp : p.Posed c.signature) {r : Nat × Nat} {e : Expr}
    (h : given? p.scalars r = some e) : c.signature.Admits e := by
  obtain ⟨s, hid, rfl⟩ := given?_eq_some hp.declared h
  exact Signature.admits_equalTo (hp.sort? hid)

/-- The equations say that the references of the partition have their values. -/
theorem allHold_givens (hc : c.WellFormed) (hp : p.Declared c.signature) :
    Expr.AllHold env (givens c p.scalars) ↔ ∀ (id : Nat) (cell : Cell), c.cells[id]? = some cell →
      cell.role = .reference → (∃ s, p.Mentions id s) →
        env id % 2 ^ cell.type.sort.width = cell.bits := by
  -- The value of a reference fits its sort, so comparing with it is comparing the bits.
  have hequal {id : Nat} {cell : Cell} {s : BitSort} (hid : c.cells[id]? = some cell)
      (hrole : cell.role = .reference) (hmem : p.Mentions id s) :
      ((Expr.var id s).equalTo cell.bits).Holds env ↔
        env id % 2 ^ cell.type.sort.width = cell.bits := by
    cases (hp id s hmem).symm.trans (Context.sort?_signature hid)
    rw [Expr.holds_equalTo (Context.width_sort_le cell.type),
      Nat.mod_eq_of_lt (hc.reference_lt id cell hid hrole)]
  constructor
  · rintro hall id cell hid hrole ⟨s, hmem⟩
    refine (hequal hid hrole hmem).mp (hall _ (List.mem_filterMap.mpr ⟨(id, cell.bits), ?_, ?_⟩))
    · exact mem_references.mpr ⟨cell, hid, hrole, rfl⟩
    · rw [given?, hp.getElem?_scalars.mpr ⟨s, rfl, hmem⟩]
      rfl
  · intro h e he
    obtain ⟨⟨id, bits⟩, hmem, hgiven⟩ := List.mem_filterMap.mp he
    obtain ⟨cell, hid, hrole, rfl⟩ := mem_references.mp hmem
    obtain ⟨s, hmem, rfl⟩ := given?_eq_some hp hgiven
    exact (hequal hid hrole hmem).mpr (h id cell hid hrole ⟨s, hmem⟩)

end

/-- A context with fewer variables than one encoding has slots. -/
theorem few_signature {c : Context} (h : c.cells.size < slotLimit) : c.signature.Few := by
  intro slots hslots
  rw [← Std.TreeMap.length_keys] at h
  refine lt_of_le_of_lt (size_treeMap_le fun id slot hslot => ?_) h
  obtain ⟨s, hs⟩ := hslots id slot hslot
  obtain ⟨cell, hcell, -⟩ := Option.map_eq_some_iff.mp hs
  exact Std.TreeMap.mem_keys.mpr (mem_treeMap_iff.mpr ⟨cell, hcell⟩)

/-! ## §4 Solutions and answers -/

/-- The environment satisfies the hard constraints of a partition, keeps its vectors within the
    maximal size and gives its references their values. -/
structure Partition.SolvedBy (p : Partition) (c : Context) (max : Nat) (env : Nat → Nat) :
    Prop where
  hards : Expr.AllHold env p.hards
  sizes : ∀ (id : Nat) (entry : VectorEntry), c.vectors[id]? = some entry →
    (∃ s, p.Mentions entry.size.id s) → env entry.size.id % 2 ^ 32 ≤ min max (2 ^ 32 - 1)
  references : ∀ (id : Nat) (cell : Cell), c.cells[id]? = some cell → cell.role = .reference →
    (∃ s, p.Mentions id s) → env id % 2 ^ cell.type.sort.width = cell.bits

/-- Together with some of its soft constraints, a partition has no solution. -/
def Partition.Unsolvable (p : Partition) (c : Context) (max : Nat) : Prop :=
  ∃ extra ⊆ p.softs, ¬ ∃ env, p.SolvedBy c max env ∧ Expr.AllHold env extra

/-- What a solver for a partition answers after it found a solution: the values that the solution
    has for variables of the partition, at least for those of hard constraints and for sizes. -/
structure Answered (c : Context) (p : Partition) (max : Nat) (env : Nat → Nat)
    (read : Nat → Except Fault (Option Nat)) : Prop where
  solves : p.SolvedBy c max env
  ends : ∀ id, ∃ value, read id = .ok value
  value : ∀ id n, read id = .ok (some n) → ∃ s, p.Mentions id s ∧ n = env id % 2 ^ s.width
  hard : ∀ e ∈ p.hards, ∀ id s, e.Mentions id s → read id = .ok (some (env id % 2 ^ s.width))
  size : ∀ (id : Nat) (entry : VectorEntry), c.vectors[id]? = some entry →
    (∃ s, p.Mentions entry.size.id s) →
      read entry.size.id = .ok (some (env entry.size.id % 2 ^ 32))

section

variable {c c' : Context} {p : Partition} {max : Nat} {bounds : List Expr} {env : Nat → Nat}
  {read : Nat → Except Fault (Option Nat)}

/-- The solutions of a partition are the models of what its solvers pose and assume. -/
theorem Bounds.solvedBy_iff (h : Bounds c p.scalars max bounds) (hc : c.WellFormed)
    (hp : p.Posed c.signature) :
    p.SolvedBy c max env ↔ Expr.AllHold env (givens c p.scalars ++ (p.hards ++ bounds)) := by
  have hscalars (id : Nat) : (∃ e, p.scalars[id]? = some e) ↔ ∃ s, p.Mentions id s := by
    simp [hp.getElem?_scalars]
  rw [Expr.allHold_append, Expr.allHold_append, allHold_givens hc hp.declared, h.allHold_iff]
  simp only [hscalars]
  exact ⟨fun hs => ⟨hs.references, hs.hards, hs.sizes⟩, fun hs => ⟨hs.2.1, hs.2.2, hs.1⟩⟩

theorem Partition.SolvedBy.keeps (h : p.SolvedBy c max env) (hkeeps : c.Keeps c') :
    p.SolvedBy c' max env where
  hards := h.hards
  sizes id entry hid := by
    obtain ⟨contents, hcontents⟩ := hkeeps.vector_back hid
    have hsize := h.sizes id _ hcontents
    exact hsize
  references id cell hid hrole := by
    obtain ⟨bits, hbits⟩ := hkeeps.cell_back hid
    have hsame := Option.some.inj (hid.symm.trans (hkeeps.references id _ hbits hrole))
    have hreference := h.references id _ hbits hrole
    rw [hsame]
    exact hreference

theorem Partition.SolvedBy.keeps_back (h : p.SolvedBy c' max env) (hkeeps : c.Keeps c') :
    p.SolvedBy c max env where
  hards := h.hards
  sizes id entry hid := by
    obtain ⟨contents, hcontents⟩ := hkeeps.vector hid
    have hsize := h.sizes id _ hcontents
    exact hsize
  references id cell hid hrole := h.references id cell (hkeeps.references id cell hid hrole) hrole

/-- What the solutions are does not depend on the values of random variables. -/
theorem Partition.Unsolvable.keeps_back (h : p.Unsolvable c' max) (hkeeps : c.Keeps c') :
    p.Unsolvable c max := by
  obtain ⟨extra, hextra, hno⟩ := h
  exact ⟨extra, hextra, fun ⟨env, henv, hall⟩ => hno ⟨env, henv.keeps hkeeps, hall⟩⟩

theorem Answered.keeps (h : Answered c p max env read) (hkeeps : c.Keeps c') :
    Answered c' p max env read where
  solves := h.solves.keeps hkeeps
  ends := h.ends
  value := h.value
  hard := h.hard
  size id entry hid := by
    obtain ⟨contents, hcontents⟩ := hkeeps.vector_back hid
    have hsize := h.size id _ hcontents
    exact hsize

/-- The answers for references are their values. -/
theorem Answered.reference (h : Answered c p max env read) (hp : p.Posed c.signature) {id n : Nat}
    {cell : Cell} (hid : c.cells[id]? = some cell) (hrole : cell.role = .reference)
    (hread : read id = .ok (some n)) : n = cell.bits := by
  obtain ⟨s, hmem, rfl⟩ := h.value id n hread
  rw [← h.solves.references id cell hid hrole ⟨s, hmem⟩]
  cases (hp.sort? hmem).symm.trans (Context.sort?_signature hid)
  rfl

end

namespace Solver

section

variable {s : Solver} {c : Context} {p : Partition} {hards softs assumed suggested : List Expr}
  {safe : Prop}

/-- The references of a partition are assumed to have their values. -/
theorem assumeReferences_grants (h : s.Poses c.signature hards softs [] suggested)
    (hp : p.Posed c.signature) (hfew : safe → c.signature.Few) :
    Grants (assumeReferences c p.scalars) s (Stuck safe) (fun _ _ => False) fun _ s' =>
      s'.Poses c.signature hards softs (givens c p.scalars) suggested := by
  unfold assumeReferences
  -- The invariant is that the references so far are assumed, as far as the partition knows them.
  refine grants_forM_from (I := fun done (s : Solver) => s.Poses c.signature hards softs
    (done.filterMap (given? p.scalars)) suggested) h ?_
  rintro done ⟨id, bits⟩ s hs -
  rw [List.filterMap_append, List.filterMap_cons, List.filterMap_nil]
  dsimp only
  cases hid : p.scalars[id]? with
  | none =>
    rw [given?, hid]
    exact .pure (by simpa using hs)
  | some e =>
    have hgiven : given? p.scalars (id, bits) = some (e.equalTo bits) := by
      rw [given?, hid]
      rfl
    rw [hgiven]
    exact assume_grants hs (admits_given? hp hgiven) hfew

/-- The value of a variable of a partition, by its id. -/
def readVariable (s : Solver) (vars : Std.TreeMap Nat Expr) (id : Nat) :
    Except Fault (Option Nat) :=
  match vars[id]? with
  | none => .ok none
  | some e => s.read e

theorem readVariable_ends {env : Nat → Nat} (hshows : s.Shows c.signature env)
    (hp : p.Posed c.signature) (id : Nat) : ∃ value, s.readVariable p.scalars id = .ok value ∧
      ∀ n, value = some n → ∃ sort, p.Mentions id sort ∧ n = env id % 2 ^ sort.width := by
  unfold readVariable
  cases hid : p.scalars[id]? with
  | none => exact ⟨none, rfl, fun n hn => nomatch hn⟩
  | some e =>
    obtain ⟨sort, rfl, hmem⟩ := hp.getElem?_scalars.mp hid
    cases hslot : s.encoding.slots[id]? with
    | none => exact ⟨none, read_of_unplaced hslot, fun n hn => nomatch hn⟩
    | some slot =>
      refine ⟨_, hshows id sort slot (hp.sort? hmem) hslot, fun n hn => ⟨sort, hmem, ?_⟩⟩
      cases hn
      rfl

/-- A solver that found a model of all that is posed and assumed answers what the model says. -/
theorem answered_of_shows {env : Nat → Nat} {max : Nat} {bounds : List Expr} (hc : c.WellFormed)
    (hp : p.Posed c.signature) (hbounds : Bounds c p.scalars max bounds)
    (h : s.Poses c.signature hards softs assumed suggested) (hposed : p.hards ++ bounds ⊆ hards)
    (henv : Expr.AllHold env (givens c p.scalars ++ (p.hards ++ bounds)))
    (hshows : s.Shows c.signature env) :
    Answered c p max env (s.readVariable p.scalars) := by
  -- Every variable of a posed constraint has a slot, so the model shows its value.
  have hread : ∀ e ∈ p.hards ++ bounds, ∀ id sort, e.Mentions id sort →
      s.readVariable p.scalars id = .ok (some (env id % 2 ^ sort.width)) := by
    intro e he id sort hmem
    obtain ⟨slot, hslot⟩ := h.hard.placed e (hposed he) id sort hmem
    have hid := hbounds.mentions_of_mem hc hp he hmem
    rw [readVariable, hp.getElem?_scalars.mpr ⟨sort, rfl, hid⟩]
    exact hshows id sort slot (hp.sort? hid) hslot
  refine ⟨(hbounds.solvedBy_iff hc hp).mpr henv, fun id => ?_, fun id n hn => ?_,
    fun e he => hread e (List.mem_append_left _ he), fun id entry hid hsize => ?_⟩
  · exact (readVariable_ends hshows hp id).imp fun _ hv => hv.1
  · obtain ⟨value, hvalue, hval⟩ := readVariable_ends hshows hp id
    cases hn.symm.trans hvalue
    exact hval n rfl
  · obtain ⟨sort, hmem⟩ := hsize
    have hbound : sizeBound entry.size.id max ∈ bounds :=
      (hbounds _).mpr ⟨id, entry, hid, ⟨_, hp.getElem?_scalars.mpr ⟨sort, rfl, hmem⟩⟩, rfl⟩
    exact hread _ (List.mem_append_right _ hbound) _ (.unsigned 32) (by
      simp [sizeBound, Expr.constant])

/-- The results of a solver are the values that it has for variables of the partition. -/
theorem results_ends {vars : Std.TreeMap Nat Expr} {E : Fault → Prop}
    (h : ∀ id, ∃ value, s.readVariable vars id = .ok value) :
    Ends (s.results vars) E fun results =>
      ∀ id n, (id, n) ∈ results ↔ s.readVariable vars id = .ok (some n) := by
  -- No variable fails to be read, so all are read at once, each as it is read alone.
  choose value hvalue using h
  have hread : ∀ x ∈ vars.toList, (do return (x.1, ← s.read x.2) : Except Fault _) =
      .ok (x.1, value x.1) := by
    rintro ⟨id, e⟩ hmem
    have hid := hvalue id
    rw [readVariable, Std.TreeMap.mem_toList_iff_getElem?_eq_some.mp hmem] at hid
    dsimp only at hid ⊢
    rw [hid]
    rfl
  unfold results
  rw [mapM_eq_ok hread]
  intro id n
  rw [List.mem_filterMap, hvalue id, Except.ok.injEq]
  constructor
  · rintro ⟨y, hy, heq⟩
    obtain ⟨⟨id', e⟩, -, rfl⟩ := List.mem_map.mp hy
    obtain ⟨n', hn', heq⟩ := Option.map_eq_some_iff.mp heq
    cases heq
    exact hn'
  · intro hn
    obtain ⟨e, he⟩ : ∃ e, vars[id]? = some e := by
      have hid := hvalue id
      rw [readVariable, hn] at hid
      split at hid
      · cases hid
      · exact ⟨_, ‹_›⟩
    exact ⟨(id, value id), List.mem_map.mpr ⟨(id, e),
      Std.TreeMap.mem_toList_iff_getElem?_eq_some.mpr he, rfl⟩, by rw [hn]; rfl⟩

end

end Solver

namespace PartitionSolver

/-- What a partition solver has its solver do changes nothing but that solver. -/
theorem useSolver_focus {s : PartitionSolver} {α : Type} {act : Request Solver α} {E : Fault → Prop}
    {R : Refusal → Solver → Prop} {Q : α → Solver → Prop} (h : Grants act s.solver E R Q) :
    Grants (useSolver act) s E
      (fun refusal s' => ∃ solver, s' = { s with solver := solver } ∧ R refusal solver)
      fun a s' => ∃ solver, s' = { s with solver := solver } ∧ Q a solver := by
  refine grants_focus (fun solver => { s with solver := solver }) ?_ h
  obtain ⟨partition, solver, scalars, bounds, presolvers, contradictions, inactive, rng⟩ := s
  unfold useSolver
  dsimp only
  cases act solver <;> rfl

end PartitionSolver

end Stimulus
