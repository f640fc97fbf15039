import Stimulus.Proofs.Expr.Value

/-!
# Plain expressions

A plain expression is built from scalar variables and constants and has no width beyond what the
words hold.  It has a value in every environment.

Main definitions:
- `Expr.occurrences`: the variables in the order in which they are met
- `Expr.Plain`

Main statements:
- `Expr.Plain.exists_eval`
-/

namespace Stimulus

namespace Expr

/-! ## §1 Plain expressions -/

/-- The ids of the variables of an expression, in the order in which they are looked up. -/
def occurrences (e : Expr) : List Nat := e.preorder.filterMap supportId?

/-- The support forgets the order, and how often a variable occurs. -/
theorem mem_support {e : Expr} {id : Nat} : id ∈ e.support ↔ id ∈ e.occurrences := by
  simp [support, occurrences, Std.TreeSet.mem_ofList]

@[simp] theorem occurrences_binary (op : BinaryOp) (lhs rhs : Expr) :
    (binary op lhs rhs).occurrences = lhs.occurrences ++ rhs.occurrences := by
  simp only [occurrences, preorder]
  rw [List.filterMap_cons_none rfl, List.filterMap_append]

@[simp] theorem occurrences_ite (cond yes no : Expr) :
    (ite cond yes no).occurrences = cond.occurrences ++ yes.occurrences ++ no.occurrences := by
  simp only [occurrences, preorder]
  rw [List.filterMap_cons_none rfl, List.filterMap_append, List.filterMap_append]

/-- Expressions over scalar variables, with slices inside their operands and with no width beyond
    the 64 bits of a variable and the 128 bits of a value. -/
def Plain : Expr → Prop
  | .var _ s => s.width ≤ 64
  | .const _ s => s.width ≤ 128
  | .placeholder _ => False
  | .vector _ _ => False
  | .element _ _ => False
  | .forEach _ _ _ => False
  | .unique _ => False
  | .unary _ arg => arg.Plain
  | .inside arg set => arg.Plain ∧ ∀ c ∈ set, (arg.sort.common (.ofLiteral c)).width ≤ 128
  | .extend arg extra => arg.Plain ∧ arg.sort.width + extra ≤ 128
  | .slice arg hi lo => arg.Plain ∧ lo ≤ hi ∧ hi < arg.sort.width
  | .ite cond yes no =>
      cond.Plain ∧ yes.Plain ∧ no.Plain ∧ (yes.sort.common no.sort).width ≤ 128
  | .binary op lhs rhs => lhs.Plain ∧ rhs.Plain ∧ op.Narrow lhs.sort rhs.sort

instance decidableNarrow (op : BinaryOp) (a b : BitSort) : Decidable (op.Narrow a b) :=
  decidable_of_iff
    ((a.common b).width ≤ 128 ∧ (op = .shr → a.isSigned = true → 0 < a.width))
    ⟨fun h => ⟨h.1, h.2⟩, fun h => ⟨h.common_le, h.pos_of_shr⟩⟩

instance decidablePlain : (e : Expr) → Decidable e.Plain
  | .var _ s => inferInstanceAs (Decidable (s.width ≤ 64))
  | .const _ s => inferInstanceAs (Decidable (s.width ≤ 128))
  | .placeholder _ => inferInstanceAs (Decidable False)
  | .vector _ _ => inferInstanceAs (Decidable False)
  | .element _ _ => inferInstanceAs (Decidable False)
  | .forEach _ _ _ => inferInstanceAs (Decidable False)
  | .unique _ => inferInstanceAs (Decidable False)
  | .unary _ arg => decidablePlain arg
  | .inside arg set =>
      have := decidablePlain arg
      inferInstanceAs
        (Decidable (arg.Plain ∧ ∀ c ∈ set, (arg.sort.common (.ofLiteral c)).width ≤ 128))
  | .extend arg extra =>
      have := decidablePlain arg
      inferInstanceAs (Decidable (arg.Plain ∧ arg.sort.width + extra ≤ 128))
  | .slice arg hi lo =>
      have := decidablePlain arg
      inferInstanceAs (Decidable (arg.Plain ∧ lo ≤ hi ∧ hi < arg.sort.width))
  | .ite cond yes no =>
      have := decidablePlain cond
      have := decidablePlain yes
      have := decidablePlain no
      inferInstanceAs (Decidable
        (cond.Plain ∧ yes.Plain ∧ no.Plain ∧ (yes.sort.common no.sort).width ≤ 128))
  | .binary op lhs rhs =>
      have := decidablePlain lhs
      have := decidablePlain rhs
      inferInstanceAs (Decidable (lhs.Plain ∧ rhs.Plain ∧ op.Narrow lhs.sort rhs.sort))

theorem Plain.narrow {op : BinaryOp} {lhs rhs : Expr} (h : (binary op lhs rhs).Plain) :
    op.Narrow lhs.sort rhs.sort :=
  h.2.2

theorem Plain.width_le {e : Expr} (h : e.Plain) : e.sort.width ≤ 128 := by
  induction e with
  | var id s => exact le_trans h (by omega)
  | const bits s => exact h
  | unary op arg ih =>
    cases op with
    | not => simp [sort, BitSort.width]
    | neg => exact ih h
    | complement => exact ih h
  | inside arg set ih => simp [sort, BitSort.width]
  | extend arg extra ih => exact h.2
  | slice arg hi lo ih =>
    have hwidth := ih h.1
    have hhi := h.2.2
    simp only [sort, BitSort.width]
    omega
  | ite cond yes no _ _ _ => exact h.2.2.2
  | binary op lhs rhs _ _ => exact h.narrow.result_le
  | _ => exact absurd h id

/-! ## §2 The equations of evaluation -/

section

variable {env : Nat → Option Nat} {a b c v : Value}

theorem eval_unary {op : UnaryOp} {arg : Expr} (ha : eval env arg = pure a) :
    eval env (.unary op arg) = pure (op.apply a) := by
  rw [eval, ha, pure_bind]

theorem eval_inside {arg : Expr} {set : List Int} {hit : Bool} (ha : eval env arg = pure a)
    (hit_eq : a.isAmong set = .ok hit) : eval env (.inside arg set) = pure (.truth hit) := by
  rw [eval, ha, pure_bind, hit_eq]
  rfl

theorem eval_extend {arg : Expr} {extra : Nat} (ha : eval env arg = pure a) :
    eval env (.extend arg extra) = pure (a.resize (extend arg extra).sort) := by
  rw [eval, ha, pure_bind]

theorem eval_slice {arg : Expr} {hi lo : Nat} (ha : eval env arg = pure a) (hlo : lo < 128) :
    eval env (.slice arg hi lo) =
      pure (.wrap (a.bits >>> lo : Nat) (slice arg hi lo).sort) := by
  rw [eval, ha, pure_bind, shiftable, if_pos hlo]
  rfl

theorem eval_ite {cond yes no : Expr} (hc : eval env cond = pure c) (ha : eval env yes = pure a)
    (hb : eval env no = pure b) :
    eval env (.ite cond yes no) =
      pure ((if c.isTrue then a else b).resize (ite cond yes no).sort) := by
  rw [eval, hc, pure_bind]
  cases c.isTrue with
  | true => rw [if_pos rfl, ha, pure_bind, if_pos rfl]
  | false => rw [if_neg Bool.false_ne_true, hb, pure_bind, if_neg Bool.false_ne_true]

theorem eval_binary {op : BinaryOp} {lhs rhs : Expr} (ha : eval env lhs = pure a)
    (hb : eval env rhs = pure b) (hv : op.apply a b (binary op lhs rhs).sort = .ok v) :
    eval env (.binary op lhs rhs) = pure v := by
  rw [eval, ha, pure_bind, hb, pure_bind, hv]
  rfl

end

/-! ## §3 Values -/

/-- A plain expression has a value when all variables have one. -/
theorem Plain.exists_eval {e : Expr} (h : e.Plain) (env : Nat → Nat) :
    ∃ v, eval (fun id => some (env id)) e = pure v ∧ v.Fits e.sort := by
  induction e with
  | var id s => exact ⟨_, eval_var rfl, Value.fits_wrap _ s⟩
  | const bits s => exact ⟨_, rfl, Value.fits_wrap _ s⟩
  | unary op arg ih =>
    obtain ⟨v, hv, hfits⟩ := ih h
    have hsort : (unary op arg).sort = op.resultSort arg.sort := by cases op <;> rfl
    rw [hsort]
    exact ⟨_, eval_unary hv, UnaryOp.apply_fits hfits⟩
  | inside arg set ih =>
    obtain ⟨⟨x, s⟩, hv, rfl, -⟩ := ih h.1
    exact ⟨_, eval_inside hv (Value.isAmong_eq h.2), Value.fits_truth _⟩
  | extend arg extra ih =>
    obtain ⟨v, hv, -⟩ := ih h.1
    exact ⟨_, eval_extend hv, Value.fits_resize v _⟩
  | slice arg hi lo ih =>
    obtain ⟨v, hv, -⟩ := ih h.1
    have hwidth := h.1.width_le
    obtain ⟨-, hlo, hhi⟩ := id h
    exact ⟨_, eval_slice hv (by omega), Value.fits_wrap _ _⟩
  | ite cond yes no ihc iht ihe =>
    obtain ⟨c, hc, -⟩ := ihc h.1
    obtain ⟨a, ha, -⟩ := iht h.2.1
    obtain ⟨b, hb, -⟩ := ihe h.2.2.1
    exact ⟨_, eval_ite hc ha hb, Value.fits_resize _ _⟩
  | binary op lhs rhs ihl ihr =>
    obtain ⟨⟨x, s⟩, ha, rfl, hx⟩ := ihl h.1
    obtain ⟨⟨y, t⟩, hb, rfl, -⟩ := ihr h.2.1
    obtain ⟨v, hv, hfits⟩ := BinaryOp.exists_apply h.narrow hx y
    exact ⟨v, eval_binary ha hb hv, hfits⟩
  | _ => exact absurd h id

end Expr

end Stimulus
