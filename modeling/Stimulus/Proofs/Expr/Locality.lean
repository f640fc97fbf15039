import Stimulus.Proofs.Expr.Plain

/-!
# Which variables an expression is about

The value of an expression is settled by the low bits of the variables that occur in it: as many
bits as the sort has under which a variable occurs.  A signature fixes one sort for each declared
variable, and constraints are written over a signature.

Main definitions:
- `Expr.Mentions`: a variable occurs in an expression
- `Expr.Holds`: the truth of a constraint under numbers for all variables
- `Signature`: the sorts of the declared variables
- `Signature.Admits`: the constraints that can be encoded

Main statements:
- `Expr.eval_congr`, `Expr.eval_congr_of_support`, `Expr.holds_congr`
- `Expr.holds_equalTo`, `Expr.holds_atMost`
-/

namespace Stimulus

namespace Expr

/-! ## §1 Locality -/

/-- The variable occurs in the expression, with that sort. -/
def Mentions (e : Expr) (id : Nat) (s : BitSort) : Prop := Expr.var id s ∈ e.preorder

section

variable {id : Nat} {s : BitSort}

@[simp] theorem mentions_var {id' : Nat} {s' : BitSort} :
    (var id' s').Mentions id s ↔ id = id' ∧ s = s' := by
  simp [Mentions, preorder]

@[simp] theorem not_mentions_const {bits : Nat} {s' : BitSort} :
    ¬ (const bits s').Mentions id s := by
  simp [Mentions, preorder]

@[simp] theorem mentions_unary {op : UnaryOp} {arg : Expr} :
    (unary op arg).Mentions id s ↔ arg.Mentions id s := by
  simp [Mentions, preorder]

@[simp] theorem mentions_inside {arg : Expr} {set : List Int} :
    (inside arg set).Mentions id s ↔ arg.Mentions id s := by
  simp [Mentions, preorder]

@[simp] theorem mentions_extend {arg : Expr} {extra : Nat} :
    (extend arg extra).Mentions id s ↔ arg.Mentions id s := by
  simp [Mentions, preorder]

@[simp] theorem mentions_slice {arg : Expr} {hi lo : Nat} :
    (slice arg hi lo).Mentions id s ↔ arg.Mentions id s := by
  simp [Mentions, preorder]

@[simp] theorem mentions_ite {cond yes no : Expr} :
    (ite cond yes no).Mentions id s ↔
      cond.Mentions id s ∨ yes.Mentions id s ∨ no.Mentions id s := by
  simp [Mentions, preorder]

@[simp] theorem mentions_binary {op : BinaryOp} {lhs rhs : Expr} :
    (binary op lhs rhs).Mentions id s ↔ lhs.Mentions id s ∨ rhs.Mentions id s := by
  simp [Mentions, preorder]

end

/-- Two numbers that are the same in a sort can stand for each other. -/
theorem bind_wrap_congr {x y : Option Nat} {s : BitSort}
    (h : x.map (fun bits : Nat => Value.wrap bits s) = y.map fun bits : Nat => Value.wrap bits s) :
    (do let some bits := x | failure
        return Value.wrap bits s : Evaluation Value) = do
      let some bits := y | failure
      return Value.wrap bits s := by
  cases x with
  | none =>
    cases y with
    | none => rfl
    | some y => cases h
  | some x =>
    cases y with
    | none => cases h
    | some y => exact congrArg pure (Option.some.inj h)

/-- Environments that agree on every occurrence of a variable, as far as its sort reaches, give an
    expression the same value. -/
theorem eval_congr {e : Expr} {env env' : Nat → Option Nat}
    (h : ∀ id s, e.Mentions id s → (env id).map (fun bits : Nat => Value.wrap bits s) =
      (env' id).map (fun bits : Nat => Value.wrap bits s)) : e.eval env = e.eval env' := by
  induction e with
  | var id s =>
    rw [eval, eval]
    exact bind_wrap_congr (h id s (mentions_var.mpr ⟨rfl, rfl⟩))
  | unary op arg ih => rw [eval, eval, ih fun id s hmem => h id s (mentions_unary.mpr hmem)]
  | inside arg set ih => rw [eval, eval, ih fun id s hmem => h id s (mentions_inside.mpr hmem)]
  | extend arg extra ih => rw [eval, eval, ih fun id s hmem => h id s (mentions_extend.mpr hmem)]
  | slice arg hi lo ih => rw [eval, eval, ih fun id s hmem => h id s (mentions_slice.mpr hmem)]
  | ite cond yes no ihc iht ihe =>
    have hc := ihc fun id s hmem => h id s (mentions_ite.mpr (.inl hmem))
    have ht := iht fun id s hmem => h id s (mentions_ite.mpr (.inr (.inl hmem)))
    have he := ihe fun id s hmem => h id s (mentions_ite.mpr (.inr (.inr hmem)))
    rw [eval, eval, hc, ht, he]
  | binary op lhs rhs ihl ihr =>
    have hl := ihl fun id s hmem => h id s (mentions_binary.mpr (.inl hmem))
    have hr := ihr fun id s hmem => h id s (mentions_binary.mpr (.inr hmem))
    rw [eval, eval, hl, hr]
  | _ => rfl

/-- Whatever occurs belongs to the support. -/
theorem Mentions.mem_support {e : Expr} {id : Nat} {s : BitSort} (h : e.Mentions id s) :
    id ∈ e.support :=
  Expr.mem_support.mpr (List.mem_filterMap.mpr ⟨_, h, rfl⟩)

/-- Environments that agree on the support give an expression the same value, or give it none for
    the same reason. -/
theorem eval_congr_of_support {e : Expr} {env env' : Nat → Option Nat}
    (h : ∀ id ∈ e.support, env id = env' id) : e.eval env = e.eval env' := by
  apply eval_congr
  intro id s hmention
  rw [h id hmention.mem_support]

/-! ## §2 Constraints -/

/-- The constraint has a value under the given numbers, and the value is not zero. -/
def Holds (env : Nat → Nat) (e : Expr) : Prop :=
  ∃ v, e.eval (fun id => some (env id)) = pure v ∧ v.isTrue = true

/-- A truth value that is zero does not hold. -/
theorem not_holds_var {env : Nat → Nat} {id : Nat} (h : env id = 0) :
    ¬ (var id .bool).Holds env := by
  rintro ⟨v, hv, htrue⟩
  have hzero : eval (fun id => some (env id)) (var id .bool) = pure (.wrap 0 .bool) :=
    eval_var (congrArg some h)
  rw [hzero] at hv
  cases hv
  cases htrue

theorem wrap_eq_of_mod_eq {x y : Nat} {s : BitSort} (h : x % 2 ^ s.width = y % 2 ^ s.width) :
    Value.wrap x s = Value.wrap y s := by
  have hdvd : 2 ^ min s.width 128 ∣ 2 ^ s.width := Nat.pow_dvd_pow 2 (Nat.min_le_left _ _)
  have hmod : x % 2 ^ min s.width 128 = y % 2 ^ min s.width 128 := by
    rw [← Nat.mod_mod_of_dvd x hdvd, h, Nat.mod_mod_of_dvd y hdvd]
  rw [Value.wrap, Value.wrap, BitSort.span, Nat.one_shiftLeft]
  norm_cast
  rw [hmod]

/-- A constraint is about the low bits of the variables that occur in it. -/
theorem holds_congr {e : Expr} {env env' : Nat → Nat}
    (h : ∀ id s, e.Mentions id s → env id % 2 ^ s.width = env' id % 2 ^ s.width) :
    e.Holds env ↔ e.Holds env' := by
  have heval : e.eval (fun id => some (env id)) = e.eval fun id => some (env' id) :=
    eval_congr fun id s hmem => congrArg some (wrap_eq_of_mod_eq (h id s hmem))
  rw [Holds, Holds, heval]

/-- All constraints of a list hold. -/
def AllHold (env : Nat → Nat) (es : List Expr) : Prop := ∀ e ∈ es, e.Holds env

theorem allHold_append {env : Nat → Nat} {es fs : List Expr} :
    AllHold env (es ++ fs) ↔ AllHold env es ∧ AllHold env fs := by
  simp only [AllHold, List.mem_append, or_imp, forall_and]

theorem allHold_congr {es : List Expr} {env env' : Nat → Nat}
    (h : ∀ e ∈ es, ∀ id s, e.Mentions id s →
      env id % 2 ^ s.width = env' id % 2 ^ s.width) : AllHold env es ↔ AllHold env' es :=
  forall₂_congr fun e he => holds_congr (h e he)

/-! ## §3 Support -/

/-- No part of a plain expression needs a vector. -/
theorem Plain.isVectorNode_eq_false {e : Expr} (h : e.Plain) :
    ∀ t ∈ e.preorder, t.isVectorNode = false := by
  induction e with
  | var id s => simp [preorder, isVectorNode]
  | const bits s => simp [preorder, isVectorNode]
  | unary op arg ih => simpa [preorder, isVectorNode] using ih h
  | inside arg set ih => simpa [preorder, isVectorNode] using ih h.1
  | extend arg extra ih => simpa [preorder, isVectorNode] using ih h.1
  | slice arg hi lo ih => simpa [preorder, isVectorNode] using ih h.1
  | ite cond yes no ihc iht ihe =>
    have hc := ihc h.1
    have ht := iht h.2.1
    have he := ihe h.2.2.1
    simp only [preorder, List.mem_cons, List.mem_append]
    rintro t (rfl | (hmem | hmem) | hmem)
    · rfl
    · exact hc t hmem
    · exact ht t hmem
    · exact he t hmem
  | binary op lhs rhs ihl ihr =>
    have hl := ihl h.1
    have hr := ihr h.2.1
    simp only [preorder, List.mem_cons, List.mem_append]
    rintro t (rfl | hmem | hmem)
    · rfl
    · exact hl t hmem
    · exact hr t hmem
  | _ => exact absurd h id

/-- The support of a plain expression consists of the variables that occur in it. -/
theorem Plain.mem_occurrences {e : Expr} (h : e.Plain) {id : Nat} :
    id ∈ e.occurrences ↔ ∃ s, e.Mentions id s := by
  constructor
  · intro hid
    obtain ⟨t, ht, hsupport⟩ := List.mem_filterMap.mp hid
    have hscalar := h.isVectorNode_eq_false t ht
    cases t with
    | var id' s =>
      cases hsupport
      exact ⟨s, ht⟩
    | vector id' s => cases hscalar
    | _ => cases hsupport
  · rintro ⟨s, hs⟩
    exact List.mem_filterMap.mpr ⟨_, hs, rfl⟩

/-! ## §4 First occurrences -/

theorem mem_firstOccurrences {seen : Std.TreeSet Nat} {ts : List Expr} {t : Expr}
    (h : t ∈ firstOccurrences seen ts) : ∃ id s, t = .var id s ∧ t ∈ ts := by
  induction ts generalizing seen with
  | nil => cases h
  | cons u ts ih =>
    have hrest : ∀ seen', t ∈ firstOccurrences seen' ts → ∃ id s, t = .var id s ∧ t ∈ u :: ts := by
      intro seen' hmem
      obtain ⟨id, s, rfl, hts⟩ := ih hmem
      exact ⟨id, s, rfl, List.mem_cons_of_mem u hts⟩
    cases u with
    | var id s =>
      rw [firstOccurrences] at h
      split at h
      · exact hrest _ h
      · rcases List.mem_cons.mp h with rfl | h
        · exact ⟨id, s, rfl, List.mem_cons_self⟩
        · exact hrest _ h
    | _ => exact hrest _ h

/-- The variables of an expression occur in it. -/
theorem mentions_of_mem_scalars {e t : Expr} (h : t ∈ e.scalars) :
    ∃ id s, t = .var id s ∧ e.Mentions id s := by
  obtain ⟨id, s, rfl, hmem⟩ := mem_firstOccurrences h
  exact ⟨id, s, rfl, hmem⟩

theorem exists_mem_firstOccurrences {seen : Std.TreeSet Nat} {ts : List Expr} {id : Nat}
    {s : BitSort} (h : .var id s ∈ ts) (hseen : id ∉ seen) :
    ∃ s', .var id s' ∈ firstOccurrences seen ts := by
  induction ts generalizing seen with
  | nil => cases h
  | cons u ts ih =>
    have hskip (hne : u ≠ .var id s) (seen' : Std.TreeSet Nat) (hseen' : id ∉ seen') :
        ∃ s', .var id s' ∈ firstOccurrences seen' ts :=
      ih ((List.mem_cons.mp h).resolve_left hne.symm) hseen'
    cases u with
    | var id' s' =>
      rw [firstOccurrences]
      by_cases hsame : id' = id
      · subst hsame
        rw [if_neg (by simpa using hseen)]
        exact ⟨s', List.mem_cons_self⟩
      · have hne : Expr.var id' s' ≠ .var id s := by
          simpa using fun heq => absurd heq hsame
        split
        · exact hskip hne seen hseen
        · obtain ⟨s'', hs''⟩ := hskip hne (seen.insert id') (by
            simpa [Std.TreeSet.mem_insert] using ⟨hsame, hseen⟩)
          exact ⟨s'', List.mem_cons_of_mem _ hs''⟩
    | _ => exact hskip (by simp) seen hseen

/-- Everything that occurs in an expression is among its variables. -/
theorem exists_mem_scalars {e : Expr} {id : Nat} {s : BitSort} (h : e.Mentions id s) :
    ∃ s', .var id s' ∈ e.scalars :=
  exists_mem_firstOccurrences h (by simp)

/-! ## §5 A variable compared with a constant -/

section

variable {id c : Nat} {s : BitSort} {env : Nat → Nat}

theorem plain_compare (op : BinaryOp) (hs : s.width ≤ 64) (hop : op ≠ .shr) :
    (Expr.binary op (.var id s) (.const c s)).Plain := by
  refine ⟨hs, show s.width ≤ 128 by omega, ?_, fun h => absurd h hop⟩
  show (s.common s).width ≤ 128
  rw [BitSort.common_self]
  omega

/-- Operands of one sort are compared as what they are in it. -/
theorem eval_same {op : BinaryOp} {lhs rhs : Expr} {e : Nat → Option Nat} {x y : Nat}
    (hs : s.width ≤ 64) (hop : op.onCommon = true) (hlhs : lhs.eval e = pure (Value.wrap x s))
    (hrhs : rhs.eval e = pure (Value.wrap y s)) :
    (Expr.binary op lhs rhs).eval e = pure (op.onIntegers ⟨x % 2 ^ s.width, s⟩
      ⟨y % 2 ^ s.width, s⟩ (Expr.binary op lhs rhs).sort) := by
  have hread (x : Nat) :
      (readAs s.isSigned s.width (x % 2 ^ s.width) % 2 ^ s.width).toNat = x % 2 ^ s.width := by
    have hcast : ((x % 2 ^ s.width : Nat) : Int) % 2 ^ s.width = (x % 2 ^ s.width : Nat) := by
      exact_mod_cast Nat.mod_mod x (2 ^ s.width)
    rw [readAs_emod, hcast, Int.toNat_natCast]
  have hplain : (Expr.binary op (.var 0 s) (.const 0 s)).Plain := plain_compare op hs fun h => by
    subst h
    cases hop
  have hnarrow : op.Narrow s s := hplain.narrow
  rw [Value.wrap_natCast (by omega)] at hlhs hrhs
  refine eval_binary hlhs hrhs ?_
  rw [BinaryOp.apply_onCommon hop hnarrow, BitSort.common_self, hread, hread]

/-- Comparing a variable with a constant of its sort compares their low bits. -/
theorem eval_compare {op : BinaryOp} (hs : s.width ≤ 64) (hop : op.onCommon = true) :
    (Expr.binary op (.var id s) (.const c s)).eval (fun id => some (env id)) =
      pure (op.onIntegers ⟨env id % 2 ^ s.width, s⟩ ⟨c % 2 ^ s.width, s⟩
        (Expr.binary op (.var id s) (.const c s)).sort) :=
  eval_same hs hop (eval_var rfl) rfl

/-- The equality that fixes the low bits of a variable. -/
theorem holds_equalTo (hs : s.width ≤ 64) :
    ((Expr.var id s).equalTo c).Holds env ↔ env id % 2 ^ s.width = c % 2 ^ s.width := by
  have htruncate : s.truncate c % 2 ^ s.width = c % 2 ^ s.width := by
    rw [BitSort.truncate, Nat.min_eq_left hs, BitVec.toNat_ofNat, Nat.mod_mod]
  unfold Holds equalTo constant sort
  rw [eval_compare hs rfl, htruncate]
  constructor
  · rintro ⟨v, hv, htrue⟩
    cases hv
    simpa [BinaryOp.onIntegers, Value.truth, Value.isTrue] using htrue
  · intro heq
    exact ⟨_, rfl, by simp [BinaryOp.onIntegers, Value.truth, Value.isTrue, heq]⟩

/-- The bound on the low bits of an unsigned variable. -/
theorem holds_atMost {w : Nat} (hw : w ≤ 64) (hc : c < 2 ^ w) :
    (Expr.binary .lessEqual (.var id (.unsigned w)) (.constant c (.unsigned w))).Holds env ↔
      env id % 2 ^ w ≤ c := by
  have hwidth : (BitSort.unsigned w).width = w := rfl
  have htruncate : (BitSort.unsigned w).truncate c % 2 ^ w = c := by
    rw [BitSort.truncate, hwidth, Nat.min_eq_left hw, BitVec.toNat_ofNat, Nat.mod_mod,
      Nat.mod_eq_of_lt hc]
  unfold Holds constant
  rw [eval_compare (s := .unsigned w) hw rfl, hwidth, htruncate]
  constructor
  · rintro ⟨v, hv, htrue⟩
    cases hv
    simpa [BinaryOp.onIntegers, Value.truth, Value.isTrue, BitSort.isSigned] using htrue
  · intro hle
    exact ⟨_, rfl, by
      simp [BinaryOp.onIntegers, Value.truth, Value.isTrue, BitSort.isSigned, hle]⟩

end

end Expr

/-! ## §6 Signatures -/

/-- The sorts of the declared variables, at most 64 bits wide. -/
structure Signature where
  sort? : Nat → Option BitSort
  width_le : ∀ id s, sort? id = some s → s.width ≤ 64

namespace Signature

/-- All variables of a signature are declared with the same sorts in another. -/
def Sub (Γ Δ : Signature) : Prop := ∀ id s, Γ.sort? id = some s → Δ.sort? id = some s

/-- A constraint over declared variables that has a value and a circuit. -/
structure Admits (Γ : Signature) (e : Expr) : Prop where
  plain : e.Plain
  declared : ∀ id s, e.Mentions id s → Γ.sort? id = some s

variable {Γ Δ : Signature} {e : Expr}

theorem Admits.mono (h : Γ.Admits e) (hsub : Γ.Sub Δ) : Δ.Admits e :=
  ⟨h.plain, fun id s hmem => hsub id s (h.declared id s hmem)⟩

theorem admits_compare {op : BinaryOp} {id c : Nat} {s : BitSort} (hid : Γ.sort? id = some s)
    (hop : op ≠ .shr) : Γ.Admits (.binary op (.var id s) (.const c s)) := by
  refine ⟨Expr.plain_compare op (Γ.width_le id s hid) hop, fun id' s' hmem => ?_⟩
  simp only [Expr.mentions_binary, Expr.mentions_var, Expr.not_mentions_const, or_false] at hmem
  rwa [hmem.1, hmem.2]

theorem admits_equalTo {id c : Nat} {s : BitSort} (hid : Γ.sort? id = some s) :
    Γ.Admits ((Expr.var id s).equalTo c) :=
  admits_compare hid (by decide)

/-- Environments that agree on the declared variables agree on admitted constraints. -/
theorem allHold_congr {es : List Expr} (hes : ∀ e ∈ es, Γ.Admits e) {env env' : Nat → Nat}
    (h : ∀ id s, Γ.sort? id = some s → env id % 2 ^ s.width = env' id % 2 ^ s.width) :
    Expr.AllHold env es ↔ Expr.AllHold env' es :=
  Expr.allHold_congr fun e he id s hmem => h id s ((hes e he).declared id s hmem)

end Signature

end Stimulus
