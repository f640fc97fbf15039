import Stimulus.Proofs.Expr.Locality

/-!
# What the body of a constraint on all elements says

At an index of the vector the placeholder is that index, and an access is the element that its own
index names.  Which element this is may not depend on the elements, so the accesses of a body
resolve or do not resolve before any value is known.

Main definitions:
- `Expr.valueAt`: the value of a body at an index
- `Expr.Resolves`: every access names one of the elements
- `Expr.Built`: the bodies that constructors make
- `Expr.Bounded`, `Expr.Closed`: the bodies that have values and circuits

Main statements:
- `Expr.valueAt_lands`
- `Expr.valueAt_congr`
-/

namespace Stimulus

namespace Expr

/-! ## §1 Reading a body -/

/-- The value of a body at an index, under numbers for the variables and for the elements.  The
    index of an access is read without any of these numbers. -/
def valueAt (p i : Nat) (env element : Nat → Option Nat) : Expr → Evaluation Value
  | .var id s => do
      let some bits := env id | failure
      return .wrap bits s
  | .const bits s => return .wrap bits s
  | .placeholder q => if q = p then return .wrap i indexSort else failure
  | .vector _ _ => failure
  | .element v index => do
      let k ← valueAt p i (fun _ => none) (fun _ => none) index
      let some bits := k.number.toNat?.bind element | failure
      return .wrap bits v.sort
  | .forEach _ _ _ => failure
  | .unique _ => failure
  | .unary op arg => return op.apply (← valueAt p i env element arg)
  | .inside arg set => do
      let a ← valueAt p i env element arg
      return .truth (← a.isAmong set)
  | .extend arg extra => do
      let a ← valueAt p i env element arg
      return a.resize (Expr.extend arg extra).sort
  | .slice arg hi lo => do
      let a ← valueAt p i env element arg
      return .wrap (a.bits >>> (← shiftable lo) : Nat) (Expr.slice arg hi lo).sort
  | .ite cond yes no => do
      let c ← valueAt p i env element cond
      let v ← if c.isTrue then valueAt p i env element yes else valueAt p i env element no
      return v.resize (Expr.ite cond yes no).sort
  | .binary op lhs rhs => do
      let a ← valueAt p i env element lhs
      let b ← valueAt p i env element rhs
      op.apply a b (Expr.binary op lhs rhs).sort

/-- Every access of the body, the inner ones first, names one of so many elements. -/
def Resolves (p i n : Nat) : Expr → Prop
  | .var _ _ => True
  | .const _ _ => True
  | .placeholder _ => True
  | .vector _ _ => True
  | .element _ index => index.Resolves p i n ∧
      ∃ k, index.valueAt p i (fun _ => none) (fun _ => none) = pure k ∧ ∃ j < n, k.number = j
  | .forEach v _ body => v.Resolves p i n ∧ body.Resolves p i n
  | .unique v => v.Resolves p i n
  | .unary _ arg => arg.Resolves p i n
  | .inside arg _ => arg.Resolves p i n
  | .extend arg _ => arg.Resolves p i n
  | .slice arg _ _ => arg.Resolves p i n
  | .ite cond yes no => cond.Resolves p i n ∧ yes.Resolves p i n ∧ no.Resolves p i n
  | .binary _ lhs rhs => lhs.Resolves p i n ∧ rhs.Resolves p i n

/-! ## §2 Bodies -/

/-- A constructor takes the expression as it is. -/
def Admissible (e : Expr) : Prop := checked e = .ok e

/-- The body is made by the constructors, so that every operator has an admissible width.  Elements
    are of the given sort, and no part is a constraint on a whole vector. -/
def Built (elem : BitSort) : Expr → Prop
  | .var _ _ => True
  | .const _ _ => True
  | .placeholder _ => True
  | .vector _ _ => True
  | .element v index => (∃ id, v = .vector id elem) ∧ index.Built elem
  | .forEach _ _ _ => False
  | .unique _ => False
  | .unary _ arg => arg.Built elem
  | .inside arg _ => arg.Built elem
  | .extend arg extra => arg.Built elem ∧ Admissible (.extend arg extra)
  | .slice arg _ _ => arg.Built elem
  | .ite cond yes no => cond.Built elem ∧ yes.Built elem ∧ no.Built elem ∧
      Admissible (.ite cond yes no)
  | .binary op lhs rhs => lhs.Built elem ∧ rhs.Built elem ∧ Admissible (.binary op lhs rhs)

/-- Nothing is wider than variables and values can be, slices lie inside their operands, elements
    are of the given sort, and no part is a constraint on a whole vector. -/
def Bounded (elem : BitSort) : Expr → Prop
  | .var _ s => s.width ≤ 64
  | .const _ s => s.width ≤ 128
  | .placeholder _ => True
  | .vector _ s => s.width ≤ 128
  | .element v index => (∃ id, v = .vector id elem) ∧ index.Bounded elem
  | .forEach _ _ _ => False
  | .unique _ => False
  | .unary _ arg => arg.Bounded elem
  | .inside arg set =>
      arg.Bounded elem ∧ ∀ c ∈ set, (arg.sort.common (.ofLiteral c)).width ≤ 128
  | .extend arg extra => arg.Bounded elem ∧ arg.sort.width + extra ≤ 128
  | .slice arg hi lo => arg.Bounded elem ∧ lo ≤ hi ∧ hi < arg.sort.width
  | .ite cond yes no => cond.Bounded elem ∧ yes.Bounded elem ∧ no.Bounded elem ∧
      (yes.sort.common no.sort).width ≤ 128
  | .binary op lhs rhs => lhs.Bounded elem ∧ rhs.Bounded elem ∧ op.Narrow lhs.sort rhs.sort

/-- The only placeholder is the given one, and vectors occur in accesses alone. -/
def Closed (p : Nat) : Expr → Prop
  | .var _ _ => True
  | .const _ _ => True
  | .placeholder q => q = p
  | .vector _ _ => False
  | .element _ index => index.Closed p
  | .forEach _ _ _ => False
  | .unique _ => False
  | .unary _ arg => arg.Closed p
  | .inside arg _ => arg.Closed p
  | .extend arg _ => arg.Closed p
  | .slice arg _ _ => arg.Closed p
  | .ite cond yes no => cond.Closed p ∧ yes.Closed p ∧ no.Closed p
  | .binary _ lhs rhs => lhs.Closed p ∧ rhs.Closed p

section

variable {p i : Nat} {env env' element element' : Nat → Option Nat} {elem : BitSort} {e : Expr}

theorem Bounded.narrow {op : BinaryOp} {lhs rhs : Expr} (h : (binary op lhs rhs).Bounded elem) :
    op.Narrow lhs.sort rhs.sort :=
  h.2.2

theorem Bounded.width_le (h : e.Bounded elem) (helem : elem.width ≤ 64) : e.sort.width ≤ 128 := by
  -- Each constructor that widens is bounded on its own; the others take over the width of an
  -- operand.
  induction e with
  | var id s => exact le_trans h (by omega)
  | const bits s => exact h
  | placeholder q => exact Nat.le_add_left 32 96
  | vector id s => exact h
  | element v index _ _ =>
    obtain ⟨⟨id, rfl⟩, -⟩ := id h
    exact le_trans helem (by omega)
  | unary op arg ih =>
    cases op with
    | not => simp [sort, BitSort.width]
    | neg => exact ih h
    | complement => exact ih h
  | inside arg set ih => simp [sort, BitSort.width]
  | extend arg extra ih => exact h.2
  | slice arg hi lo ih =>
    have hwidth := ih h.1
    have hhi := h.2.2
    simp only [sort, BitSort.width]
    omega
  | ite cond yes no _ _ _ => exact h.2.2.2
  | binary op lhs rhs _ _ => exact h.narrow.result_le
  | _ => exact absurd h id

/-! ## §3 Values of bodies -/

/-- There is no value, or one of the given sort. -/
def Lands (x : Evaluation Value) (s : BitSort) : Prop := x = failure ∨ ∃ v, x = pure v ∧ v.Fits s

theorem Lands.bind {x : Evaluation Value} {s t : BitSort} {k : Value → Evaluation Value}
    (hx : Lands x s) (hk : ∀ v, v.Fits s → Lands (k v) t) : Lands (x >>= k) t := by
  rcases hx with rfl | ⟨v, rfl, hv⟩
  · exact .inl rfl
  · rw [pure_bind]
    exact hk v hv

/-- Reading a body never stops with a fault. -/
theorem valueAt_lands (h : e.Bounded elem) (helem : elem.width ≤ 64) (p i : Nat)
    (env element : Nat → Option Nat) : Lands (e.valueAt p i env element) e.sort := by
  induction e generalizing env element with
  | var id s =>
    rw [valueAt]
    cases env id with
    | none => exact .inl rfl
    | some bits => exact .inr ⟨_, rfl, Value.fits_wrap _ s⟩
  | const bits s => exact .inr ⟨_, rfl, Value.fits_wrap _ s⟩
  | placeholder q =>
    rw [valueAt]
    split
    · exact .inr ⟨_, rfl, Value.fits_wrap _ indexSort⟩
    · exact .inl rfl
  | vector id s => exact .inl rfl
  | element v index _ ih =>
    -- An element may be missing, but one that is there has the sort of the vector.
    obtain ⟨⟨id, rfl⟩, hindex⟩ := id h
    rw [valueAt]
    apply (ih hindex _ _).bind
    intro k _
    cases k.number.toNat?.bind element with
    | none => exact .inl rfl
    | some bits => exact .inr ⟨_, rfl, Value.fits_wrap _ elem⟩
  | unary op arg ih =>
    have hsort : (unary op arg).sort = op.resultSort arg.sort := by cases op <;> rfl
    rw [valueAt, hsort]
    apply (ih h env element).bind
    exact fun v hv => .inr ⟨_, rfl, UnaryOp.apply_fits hv⟩
  | inside arg set ih =>
    rw [valueAt]
    apply (ih h.1 env element).bind
    rintro ⟨x, s⟩ ⟨rfl, -⟩
    rw [Value.isAmong_eq h.2]
    exact .inr ⟨_, rfl, Value.fits_truth _⟩
  | extend arg extra ih =>
    rw [valueAt]
    apply (ih h.1 env element).bind
    exact fun v _ => .inr ⟨_, rfl, Value.fits_resize v _⟩
  | slice arg hi lo ih =>
    have hwidth := h.1.width_le helem
    obtain ⟨-, hlo, hhi⟩ := id h
    rw [valueAt]
    apply (ih h.1 env element).bind
    intro v _
    rw [shiftable, if_pos (by omega)]
    exact .inr ⟨_, rfl, Value.fits_wrap _ _⟩
  | ite cond yes no ihc iht ihe =>
    rw [valueAt]
    apply (ihc h.1 env element).bind
    intro c _
    have hend (v : Value) : Lands (pure (v.resize (ite cond yes no).sort)) (ite cond yes no).sort :=
      .inr ⟨_, rfl, Value.fits_resize v _⟩
    cases c.isTrue with
    | true => exact (iht h.2.1 env element).bind fun v _ => hend v
    | false => exact (ihe h.2.2.1 env element).bind fun v _ => hend v
  | binary op lhs rhs ihl ihr =>
    rw [valueAt]
    apply (ihl h.1 env element).bind
    rintro ⟨x, s⟩ ⟨rfl, hx⟩
    apply (ihr h.2.1 env element).bind
    rintro ⟨y, t⟩ ⟨rfl, -⟩
    -- Narrow operands leave room for the result, so the operator does not fail.
    obtain ⟨v, hv, hfits⟩ := BinaryOp.exists_apply h.narrow hx y
    have hv : op.apply ⟨x, lhs.sort⟩ ⟨y, rhs.sort⟩ (binary op lhs rhs).sort = .ok v := hv
    rw [hv]
    exact .inr ⟨v, rfl, hfits⟩
  | _ => exact absurd h id

/-- The value depends on the variables that occur in the body and on the elements, as far as their
    sorts reach. -/
theorem valueAt_congr (h : e.Bounded elem)
    (henv : ∀ j s, e.Mentions j s → (env j).map (fun bits : Nat => Value.wrap bits s) =
      (env' j).map fun bits : Nat => Value.wrap bits s)
    (helement : ∀ k, (element k).map (fun bits : Nat => Value.wrap bits elem) =
      (element' k).map fun bits : Nat => Value.wrap bits elem) :
    e.valueAt p i env element = e.valueAt p i env' element' := by
  -- One case for each place where a value is looked up; all else is passed on to the operands.
  induction e with
  | var id s =>
    rw [valueAt, valueAt]
    exact bind_wrap_congr (henv id s (mentions_var.mpr ⟨rfl, rfl⟩))
  | element v index _ _ =>
    obtain ⟨⟨id, rfl⟩, -⟩ := id h
    rw [valueAt, valueAt]
    refine bind_congr fun k => ?_
    cases k.number.toNat? with
    | none => rfl
    | some j => exact bind_wrap_congr (helement j)
  | unary op arg ih =>
    rw [valueAt, valueAt, ih h fun j s hmem => henv j s (mentions_unary.mpr hmem)]
  | inside arg set ih =>
    rw [valueAt, valueAt, ih h.1 fun j s hmem => henv j s (mentions_inside.mpr hmem)]
  | extend arg extra ih =>
    rw [valueAt, valueAt, ih h.1 fun j s hmem => henv j s (mentions_extend.mpr hmem)]
  | slice arg hi lo ih =>
    rw [valueAt, valueAt, ih h.1 fun j s hmem => henv j s (mentions_slice.mpr hmem)]
  | ite cond yes no ihc iht ihe =>
    have hc := ihc h.1 fun j s hmem => henv j s (mentions_ite.mpr (.inl hmem))
    have ht := iht h.2.1 fun j s hmem => henv j s (mentions_ite.mpr (.inr (.inl hmem)))
    have he := ihe h.2.2.1 fun j s hmem => henv j s (mentions_ite.mpr (.inr (.inr hmem)))
    rw [valueAt, valueAt, hc, ht, he]
  | binary op lhs rhs ihl ihr =>
    have hl := ihl h.1 fun j s hmem => henv j s (mentions_binary.mpr (.inl hmem))
    have hr := ihr h.2.1 fun j s hmem => henv j s (mentions_binary.mpr (.inr hmem))
    rw [valueAt, valueAt, hl, hr]
  | _ => rfl

end

end Expr

end Stimulus
