import Stimulus.Proofs.Expr.Plain
import Stimulus.Scalar

/-!
# Comparisons of integers

A value stands for an integer.  The common sort of two operands holds the integers of both, so
extending an operand does not change what it stands for, and comparing words compares integers.
Literals and the values of scalar variables stand for themselves.

Main definitions:
- `BitSort.Holds`: the integers of a sort
- `BinaryOp.relation?`: the relation that a comparison decides

Main statements:
- `Expr.eval_fits`: a value is of the sort of its expression
- `BitSort.Holds.common_left`, `Value.Fits.resize_eq`: the common sort keeps integers
- `comparisons_of_numbers`
-/

namespace Stimulus

/-! ## §1 The integers of a sort -/

namespace BitSort

/-- The integers of a sort.  The bounds are doubled, so that they are right for an empty word. -/
def Holds (s : BitSort) (n : Int) : Prop :=
  if s.isSigned then -2 ^ s.width ≤ n * 2 ∧ n * 2 < 2 ^ s.width else 0 ≤ n ∧ n < 2 ^ s.width

variable {s a b : BitSort} {n : Int}

theorem holds_readAs {x : Nat} (hx : x < 2 ^ s.width) :
    s.Holds (readAs s.isSigned s.width x) := by
  have hcast : ((2 : Int) ^ s.width) = ((2 ^ s.width : Nat) : Int) := by push_cast; rfl
  unfold Holds readAs
  rw [hcast]
  cases s.isSigned with
  | false => exact ⟨Int.natCast_nonneg x, Int.ofNat_lt.mpr hx⟩
  | true =>
    have hle := Int.le_bmod (x := x) (Nat.two_pow_pos s.width)
    have hlt := Int.bmod_lt (x := x) (Nat.two_pow_pos s.width)
    simp only [if_true]
    omega

/-- The word of an integer that a sort holds is read as that integer. -/
theorem Holds.readAs_emod (h : s.Holds n) :
    readAs s.isSigned s.width (n % 2 ^ s.width).toNat = n := by
  have hnonneg : 0 ≤ n % 2 ^ s.width := Int.emod_nonneg n (by positivity)
  unfold Holds at h
  unfold readAs
  rw [Int.toNat_of_nonneg hnonneg]
  cases hsigned : s.isSigned with
  | false =>
    rw [hsigned] at h
    exact Int.emod_eq_of_lt h.1 h.2
  | true =>
    -- The balanced remainder of a number between the bounds is the number.
    rw [hsigned] at h
    have hmod := Int.emod_bmod n (2 ^ s.width)
    push_cast at hmod
    rw [if_pos rfl, hmod]
    exact Int.bmod_eq_of_le_mul_two (by exact_mod_cast h.1) (by exact_mod_cast h.2)

/-- Among the integers of a sort, different ones have different words. -/
theorem Holds.toNat_emod_inj {m : Int} (hm : s.Holds m) (hn : s.Holds n) :
    (m % 2 ^ s.width).toNat = (n % 2 ^ s.width).toNat ↔ m = n := by
  constructor
  · intro heq
    rw [← hm.readAs_emod, heq, hn.readAs_emod]
  · exact fun heq => heq ▸ rfl

/-- The common sort is signed if one of the operands is. -/
theorem isSigned_common (a b : BitSort) :
    (a.common b).isSigned = (a.isSigned || b.isSigned) := by
  cases a with
  | bool =>
    cases b with
    | bool => rfl
    | bits wb sb => cases sb <;> rfl
  | bits wa sa =>
    cases b with
    | bool => cases sa <;> rfl
    | bits wb sb => cases sa <;> cases sb <;> rfl

theorem common_comm (a b : BitSort) : a.common b = b.common a := by
  cases a with
  | bool =>
    cases b with
    | bool => rfl
    | bits wb sb => cases sb <;> simp [common, isBool, isSigned, Nat.max_comm]
  | bits wa sa =>
    cases b with
    | bool => cases sa <;> simp [common, isBool, isSigned, Nat.max_comm]
    | bits wb sb => cases sa <;> cases sb <;> simp [common, isBool, isSigned, Nat.max_comm]

/-- Beside a signed operand an unsigned one gets room for a sign. -/
theorem width_lt_common (ha : a.isSigned = false) (hb : b.isSigned = true) :
    a.width < (a.common b).width := by
  have hbool : b.isBool = false := by
    cases b with
    | bool => cases hb
    | bits _ _ => rfl
  unfold common
  rw [ha, hb, hbool, Bool.and_false, if_neg Bool.false_ne_true, if_neg (by decide),
    if_neg Bool.false_ne_true]
  exact Nat.lt_of_lt_of_le (Nat.lt_succ_self _) (Nat.le_max_right _ _)

theorem width_common_le (a b : BitSort) : (a.common b).width ≤ max a.width b.width + 1 := by
  unfold common
  split
  · exact Nat.le_add_left 1 _
  · split
    · exact Nat.le_succ _
    · split <;> simp only [width] <;> omega

/-- The common sort holds what its left operand holds. -/
theorem Holds.common_left (h : a.Holds n) (b : BitSort) : (a.common b).Holds n := by
  have hwidth : (2 : Int) ^ a.width ≤ 2 ^ (a.common b).width :=
    pow_le_pow_right₀ (by norm_num) (width_le_common a b).1
  unfold Holds at h ⊢
  rw [isSigned_common]
  cases ha : a.isSigned with
  | true =>
    rw [ha, if_pos rfl] at h
    rw [Bool.true_or, if_pos rfl]
    constructor <;> linarith
  | false =>
    rw [ha, if_neg Bool.false_ne_true] at h
    rw [Bool.false_or]
    cases hb : b.isSigned with
    | false => exact ⟨h.1, h.2.trans_le hwidth⟩
    | true =>
      -- The bit that the operand gains is free for the sign.
      have hroom : (2 : Int) ^ a.width * 2 ≤ 2 ^ (a.common b).width := by
        rw [← pow_succ]
        exact pow_le_pow_right₀ (by norm_num) (width_lt_common ha hb)
      have hpos : (0 : Int) < 2 ^ (a.common b).width := by positivity
      rw [if_pos rfl]
      constructor <;> linarith

theorem Holds.common_right (h : b.Holds n) (a : BitSort) : (a.common b).Holds n :=
  common_comm b a ▸ h.common_left a

end BitSort

/-! ## §2 The integer of a value -/

namespace Value

variable {s t : BitSort} {v : Value}

/-- Unless a word fills all 128 bits, its integer is read with the sign of the sort. -/
theorem Fits.number_eq (h : v.Fits s) (hs : s.width ≤ 127) :
    v.number = readAs s.isSigned s.width v.bits := by
  obtain ⟨rfl, hlt⟩ := h
  unfold number
  cases hsigned : v.sort.isSigned with
  | true =>
    rw [if_pos rfl]
    exact twosComplement_mk (by omega) v.bits
  | false =>
    -- The topmost of the 128 bits is not used, so the integer is the word.
    have hbits : v.bits < 2 ^ 127 :=
      Nat.lt_of_lt_of_le hlt (Nat.pow_le_pow_right Nat.two_pos hs)
    rw [if_neg Bool.false_ne_true, BitVec.toInt_ofNat', readAs, if_neg Bool.false_ne_true]
    exact Int.bmod_eq_of_le_mul_two (by omega) (by omega)

theorem Fits.holds_number (h : v.Fits s) (hs : s.width ≤ 127) : s.Holds v.number := by
  rw [h.number_eq hs]
  exact BitSort.holds_readAs h.lt

/-- A value resized is the word of its integer. -/
theorem Fits.resize_eq (h : v.Fits s) (hs : s.width ≤ 127) (ht : t.width ≤ 128) :
    v.resize t = wrap v.number t := by
  rw [h.number_eq hs, wrap_eq ht]
  obtain ⟨rfl, -⟩ := h
  exact resize_mk (by omega) ht v.bits

end Value

/-! ## §3 Values of expressions -/

/-- An evaluation has a value if its first part has one and the rest has one from there. -/
theorem Evaluation.bind_eq_pure {α β : Type} {x : Evaluation α} {k : α → Evaluation β} {b : β} :
    (x >>= k) = pure b ↔ ∃ a, x = pure a ∧ k a = pure b := by
  constructor
  · intro h
    match x with
    | .error _ => cases h
    | .ok none => cases h
    | .ok (some a) => exact ⟨a, rfl, h⟩
  · rintro ⟨a, rfl, h⟩
    exact h

theorem Evaluation.eq_ok_of_lift {α : Type} {x : Except Fault α} {a : α}
    (h : (liftM x : Evaluation α) = pure a) : x = .ok a := by
  cases x with
  | error _ => cases h
  | ok b => exact congrArg Except.ok (Option.some.inj (Except.ok.inj h))

theorem Evaluation.pure_inj {α : Type} {a b : α} (h : (pure a : Evaluation α) = pure b) : a = b :=
  Option.some.inj (Except.ok.inj h)

theorem shiftLeft_fits {a v : Value} {k : Nat} {s : BitSort} (hv : shiftLeft a k s = .ok v) :
    v.Fits s := by
  unfold shiftLeft shiftable at hv
  split at hv
  · exact Except.ok.inj hv ▸ Value.fits_wrap _ s
  · split at hv
    · exact Except.ok.inj hv ▸ Value.fits_wrap _ s
    · cases hv

theorem shiftRight_fits {a v : Value} {k : Nat} {s : BitSort} (hv : shiftRight a k s = .ok v) :
    v.Fits s := by
  -- Whatever is shifted in, the result is cut to the width of the sort.
  unfold shiftRight shiftable at hv
  split at hv
  · -- The sign is shifted in.
    split at hv
    · cases hv
    · split at hv
      · exact Except.ok.inj hv ▸ Value.fits_wrap _ s
      · cases hv
  · -- Zeros are shifted in.
    split at hv
    · exact Except.ok.inj hv ▸ Value.fits_wrap _ s
    · split at hv
      · exact Except.ok.inj hv ▸ Value.fits_wrap _ s
      · cases hv

/-- What an operator answers is of the sort of the result. -/
theorem BinaryOp.apply_fits {op : BinaryOp} {a b v : Value} {s : BitSort}
    (hpredicate : op.isPredicate = true → s = .bool) (hv : op.apply a b s = .ok v) : v.Fits s := by
  unfold apply BitSort.meet at hv
  split at hv
  · cases hv
  · cases op with
    | and | or =>
      rw [hpredicate rfl]
      exact Except.ok.inj hv ▸ Value.fits_truth _
    | shl => exact shiftLeft_fits hv
    | shr => exact shiftRight_fits hv
    | _ => exact Except.ok.inj hv ▸ onIntegers_fits hpredicate _ _

namespace Expr

variable {env : Nat → Option Nat}

/-- The value of an expression is of the sort of the expression. -/
theorem eval_fits {e : Expr} {v : Value} (h : eval env e = pure v) : v.Fits e.sort := by
  -- One case for each constructor; all of them end in an operation that fits its sort.
  induction e generalizing v with
  | var id s =>
    rw [eval] at h
    cases hbits : env id with
    | none =>
      rw [hbits] at h
      cases h
    | some bits =>
      rw [hbits] at h
      exact Evaluation.pure_inj h ▸ Value.fits_wrap _ s
  | const bits s => exact Evaluation.pure_inj h ▸ Value.fits_wrap _ s
  | unary op arg ih =>
    rw [eval] at h
    obtain ⟨a, ha, hv⟩ := Evaluation.bind_eq_pure.mp h
    have hsort : (unary op arg).sort = op.resultSort arg.sort := by cases op <;> rfl
    rw [hsort, ← Evaluation.pure_inj hv]
    exact UnaryOp.apply_fits (ih ha)
  | inside arg set ih =>
    rw [eval] at h
    obtain ⟨a, -, hv⟩ := Evaluation.bind_eq_pure.mp h
    obtain ⟨hit, -, hv⟩ := Evaluation.bind_eq_pure.mp hv
    exact Evaluation.pure_inj hv ▸ Value.fits_truth hit
  | extend arg extra ih =>
    rw [eval] at h
    obtain ⟨a, -, hv⟩ := Evaluation.bind_eq_pure.mp h
    exact Evaluation.pure_inj hv ▸ Value.fits_resize a _
  | slice arg hi lo ih =>
    rw [eval] at h
    obtain ⟨a, -, hv⟩ := Evaluation.bind_eq_pure.mp h
    obtain ⟨k, -, hv⟩ := Evaluation.bind_eq_pure.mp hv
    exact Evaluation.pure_inj hv ▸ Value.fits_wrap _ _
  | ite cond yes no _ _ _ =>
    rw [eval] at h
    obtain ⟨c, -, hv⟩ := Evaluation.bind_eq_pure.mp h
    -- Either branch is resized to the sort of both.
    cases hc : c.isTrue with
    | true =>
      rw [hc, if_pos rfl] at hv
      obtain ⟨a, -, hv⟩ := Evaluation.bind_eq_pure.mp hv
      exact Evaluation.pure_inj hv ▸ Value.fits_resize a _
    | false =>
      rw [hc, if_neg Bool.false_ne_true] at hv
      obtain ⟨a, -, hv⟩ := Evaluation.bind_eq_pure.mp hv
      exact Evaluation.pure_inj hv ▸ Value.fits_resize a _
  | binary op lhs rhs _ _ =>
    rw [eval] at h
    obtain ⟨a, -, hv⟩ := Evaluation.bind_eq_pure.mp h
    obtain ⟨b, -, hv⟩ := Evaluation.bind_eq_pure.mp hv
    exact BinaryOp.apply_fits (fun hp => if_pos hp) (Evaluation.eq_ok_of_lift hv)
  | _ => cases h

end Expr

/-! ## §4 Comparisons -/

/-- The relation between integers that a comparison decides. -/
def BinaryOp.relation? : BinaryOp → Option (Int → Int → Bool)
  | .equal => some fun m n => decide (m = n)
  | .notEqual => some fun m n => decide (m ≠ n)
  | .less => some fun m n => decide (m < n)
  | .lessEqual => some fun m n => decide (m ≤ n)
  | .greater => some fun m n => decide (m > n)
  | .greaterEqual => some fun m n => decide (m ≥ n)
  | _ => none

section

variable {s t c : BitSort} {m n : Int}

/-- Words of one sort are equal if their integers are. -/
theorem BitSort.Holds.wrap_inj (hc : c.width ≤ 128) (hm : c.Holds m) (hn : c.Holds n) :
    Value.wrap m c = Value.wrap n c ↔ m = n := by
  rw [Value.wrap_eq hc, Value.wrap_eq hc, Value.mk.injEq, hm.toNat_emod_inj hn]
  exact and_iff_left rfl

/-- Words of one sort are ordered as their integers are. -/
theorem BitSort.Holds.wrap_less (hc : c.width ≤ 128) (hm : c.Holds m) (hn : c.Holds n) :
    (if c.isSigned then decide ((Value.wrap m c).twosComplement < (Value.wrap n c).twosComplement)
      else decide ((Value.wrap m c).bits < (Value.wrap n c).bits)) = decide (m < n) := by
  have hreadm := hm.readAs_emod
  have hreadn := hn.readAs_emod
  rw [Value.wrap_eq hc, Value.wrap_eq hc]
  cases hsigned : c.isSigned with
  | true =>
    rw [hsigned] at hreadm hreadn
    rw [if_pos rfl, Value.twosComplement_mk hc, Value.twosComplement_mk hc, hreadm, hreadn]
  | false =>
    rw [hsigned] at hreadm hreadn
    have hless : (m % 2 ^ c.width).toNat < (n % 2 ^ c.width).toNat ↔ m < n := by
      rw [← Int.ofNat_lt]
      exact iff_of_eq (congrArg₂ (· < ·) hreadm hreadn)
    rw [if_neg Bool.false_ne_true]
    exact decide_eq_decide.mpr hless

theorem BinaryOp.onIntegers_relation {op : BinaryOp} {r : Int → Int → Bool}
    (hop : op.relation? = some r) (hc : c.width ≤ 128) (hm : c.Holds m) (hn : c.Holds n)
    (result : BitSort) :
    op.onIntegers (.wrap m c) (.wrap n c) result = .truth (r m n) := by
  have hbits : (Value.wrap m c).bits = (Value.wrap n c).bits ↔ m = n := by
    rw [Value.wrap_eq hc, Value.wrap_eq hc]
    exact hm.toNat_emod_inj hn
  have heq : ((Value.wrap m c).bits == (Value.wrap n c).bits) = decide (m = n) :=
    decide_eq_decide.mpr hbits
  -- The other orders are negated, or have their operands exchanged.
  have hlt := hm.wrap_less hc hn
  have hgt := hn.wrap_less hc hm
  have hsort (k : Int) : (Value.wrap k c).sort = c := rfl
  cases op with
  | equal =>
    cases Option.some.inj hop
    exact congrArg Value.truth heq
  | notEqual =>
    cases Option.some.inj hop
    simp only [onIntegers, bne, heq, decide_not]
  | less =>
    cases Option.some.inj hop
    exact congrArg Value.truth hlt
  | lessEqual =>
    cases Option.some.inj hop
    simp only [onIntegers, hsort, hgt, ← decide_not, not_lt]
  | greater =>
    cases Option.some.inj hop
    exact congrArg Value.truth hgt
  | greaterEqual =>
    cases Option.some.inj hop
    simp only [onIntegers, hsort, hlt, ← decide_not, not_lt]
  | _ => cases hop

/-- A comparison decides its relation between the integers of its operands. -/
theorem BinaryOp.apply_relation {op : BinaryOp} {r : Int → Int → Bool} {v w : Value}
    (hop : op.relation? = some r) (hv : v.Fits s) (hw : w.Fits t)
    (hcommon : (s.common t).width ≤ 127) (result : BitSort) :
    op.apply v w result = .ok (.truth (r v.number w.number)) := by
  obtain ⟨hs, ht⟩ := BitSort.width_le_common s t
  have hs := hs.trans hcommon
  have ht := ht.trans hcommon
  have hc : (s.common t).width ≤ 128 := by omega
  have happly : op.apply v w result =
      .ok (op.onIntegers (v.resize (s.common t)) (w.resize (s.common t)) result) := by
    unfold apply
    rw [hv.sort_eq, hw.sort_eq, BitSort.meet_eq_ok hc]
    cases op <;> first | rfl | cases hop
  rw [happly, hv.resize_eq hs hc, hw.resize_eq ht hc]
  exact congrArg Except.ok (onIntegers_relation hop hc ((hv.holds_number hs).common_left t)
    ((hw.holds_number ht).common_right s) result)

end

/-! ## §5 Literals -/

/-- A literal has no more binary digits than the bound it lies under. -/
theorem BitSort.bitLength_le {n k : Nat} (h : n < 2 ^ k) : bitLength n ≤ k := by
  unfold bitLength
  split
  · exact Nat.zero_le k
  · rename_i hn
    exact (Nat.log2_lt hn).mpr h

theorem BitSort.lt_two_pow_bitLength (n : Nat) : n < 2 ^ bitLength n := by
  unfold bitLength
  split
  · rename_i hn
    simp [hn]
  · exact Nat.lt_log2_self

/-- The sort of a literal holds it. -/
theorem BitSort.holds_ofLiteral (c : Int) : (ofLiteral c).Holds c := by
  cases c with
  | ofNat n =>
    have hlt := lt_two_pow_bitLength n
    have hle : 2 ^ bitLength n ≤ 2 ^ max 1 (bitLength n) :=
      Nat.pow_le_pow_right Nat.two_pos (Nat.le_max_right _ _)
    exact ⟨Int.natCast_nonneg n, Int.ofNat_lt.mpr (hlt.trans_le hle)⟩
  | negSucc n =>
    have hlt : (n : Int) < 2 ^ bitLength n := by exact_mod_cast lt_two_pow_bitLength n
    have hneg : Int.negSucc n = -n - 1 := by omega
    show -2 ^ (bitLength n + 1) ≤ Int.negSucc n * 2 ∧ Int.negSucc n * 2 < 2 ^ (bitLength n + 1)
    rw [hneg, pow_succ]
    constructor <;> omega

/-- A number of 64 bits, with or without a sign, has a sort of at most 64 bits. -/
theorem BitSort.width_ofLiteral_le {c : Int} (hle : -2 ^ 63 ≤ c) (hlt : c < 2 ^ 64) :
    (ofLiteral c).width ≤ 64 := by
  cases c with
  | ofNat n =>
    have hbits : bitLength n ≤ 64 := bitLength_le (Int.ofNat_lt.mp hlt)
    exact max_le (by decide) hbits
  | negSucc n =>
    have hbits : bitLength n ≤ 63 := bitLength_le (by omega)
    exact Nat.succ_le_succ hbits

/-- A word of a number that its sort holds stands for the number. -/
theorem BitSort.Holds.number_wrap {s : BitSort} {n : Int} (h : s.Holds n) (hs : s.width ≤ 127) :
    (Value.wrap n s).number = n := by
  rw [(Value.fits_wrap n s).number_eq hs, Value.wrap_eq (by omega)]
  exact h.readAs_emod

/-- A value equals a literal if it stands for it. -/
theorem Value.Fits.equals_eq {s : BitSort} {v : Value} (hv : v.Fits s) (hs : s.width ≤ 127)
    {c : Int} (hc : (BitSort.ofLiteral c).width ≤ 127)
    (hcommon : (s.common (.ofLiteral c)).width ≤ 128) : v.equals c = decide (v.number = c) := by
  have hliteral := BitSort.holds_ofLiteral c
  have hfits := Value.fits_wrap c (BitSort.ofLiteral c)
  unfold equals
  simp only [hv.sort_eq, hv.resize_eq hs hcommon, hfits.resize_eq hc hcommon,
    hliteral.number_wrap hc]
  exact decide_eq_decide.mpr
    (((hv.holds_number hs).common_left _).wrap_inj hcommon (hliteral.common_right s))

/-- Membership in a set of 64-bit integers, the operand being narrower than a value. -/
theorem Value.Fits.isAmong_eq {s : BitSort} {v : Value} (hv : v.Fits s) (hs : s.width ≤ 127)
    {set : List Int} (hset : ∀ c ∈ set, -2 ^ 63 ≤ c ∧ c < 2 ^ 63) :
    v.isAmong set = .ok (decide (v.number ∈ set)) := by
  have hliteral (c : Int) (hc : c ∈ set) : (BitSort.ofLiteral c).width ≤ 64 :=
    BitSort.width_ofLiteral_le (hset c hc).1 ((hset c hc).2.trans (by norm_num))
  have hcommon (c : Int) (hc : c ∈ set) : (s.common (.ofLiteral c)).width ≤ 128 := by
    have hwidth := BitSort.width_common_le s (.ofLiteral c)
    have hnarrow := hliteral c hc
    omega
  rw [Value.isAmong_eq fun c hc => by rw [hv.sort_eq]; exact hcommon c hc]
  have hany : set.any v.equals = decide (v.number ∈ set) := by
    rw [Bool.eq_iff_iff, List.any_eq_true, decide_eq_true_iff]
    constructor
    · rintro ⟨c, hc, heq⟩
      rw [hv.equals_eq hs (by have := hliteral c hc; omega) (hcommon c hc),
        decide_eq_true_iff] at heq
      exact heq ▸ hc
    · intro hmem
      refine ⟨_, hmem, ?_⟩
      rw [hv.equals_eq hs (by have := hliteral _ hmem; omega) (hcommon _ hmem)]
      exact decide_eq_true rfl
  rw [hany]

/-- A literal of 64 bits, with or without a sign, evaluates to its number. -/
theorem Expr.eval_literal (env : Nat → Option Nat) {c : Int} (hle : -2 ^ 63 ≤ c)
    (hlt : c < 2 ^ 64) : eval env (literal c) = pure (.wrap c (.ofLiteral c)) := by
  have hwidth := BitSort.width_ofLiteral_le hle hlt
  have hstored : (BitSort.ofLiteral c).truncate (BitVec.ofInt 64 c).toNat =
      (c % 2 ^ (BitSort.ofLiteral c).width).toNat := by
    rw [BitSort.truncate, BitVec.toNat_ofNat, Nat.min_eq_left hwidth, toNat_ofInt_mod hwidth]
  have hnonneg : 0 ≤ c % 2 ^ (BitSort.ofLiteral c).width := Int.emod_nonneg c (by positivity)
  rw [literal, constant, eval, hstored, Value.wrap_eq (by omega), Value.wrap_eq (by omega),
    Int.toNat_of_nonneg hnonneg, Int.emod_emod_of_dvd c dvd_rfl]

/-! ## §6 Scalar variables -/

namespace ScalarType

variable {t : ScalarType} {n : Int}

theorem width_sort_le (t : ScalarType) : t.sort.width ≤ 64 := by
  cases t with
  | bool => decide
  | int size signed => cases size <;> simp [sort, BitSort.width, IntSize.width]

/-- The sort of a type holds the numbers of the type. -/
theorem Contains.holds (h : t.Contains n) : t.sort.Holds n := by
  obtain ⟨hle, hlt⟩ := h
  cases t with
  | bool => exact ⟨hle, Int.lt_of_le_of_lt hlt (by decide)⟩
  | int size signed =>
    cases signed with
    | false =>
      refine ⟨hle, Int.lt_of_le_of_lt hlt ?_⟩
      cases size <;> decide
    | true =>
      have hleast : -2 ^ size.width ≤ (least (.int size true)) * 2 := by cases size <;> decide
      have hgreatest : greatest (.int size true) * 2 < 2 ^ size.width := by cases size <;> decide
      exact ⟨hleast.trans (by omega), Int.lt_of_le_of_lt (by omega) hgreatest⟩

/-- The bits of a number are the word of the number. -/
theorem wrap_toBits (t : ScalarType) (n : Int) :
    Value.wrap (t.toBits n) t.sort = .wrap n t.sort := by
  have hwidth := t.width_sort_le
  rw [Value.wrap_natCast (by omega), Value.wrap_eq (by omega), toBits, toNat_ofInt_mod le_rfl]

/-- Bits within the width are read with the sign of the type. -/
theorem ofBits_eq (t : ScalarType) {bits : Nat} (h : bits < 2 ^ t.sort.width) :
    t.ofBits bits = readAs t.sort.isSigned t.sort.width bits := by
  cases t with
  | bool => exact congrArg Nat.cast (Nat.mod_eq_of_lt h)
  | int size signed =>
    cases signed with
    | false => exact congrArg Nat.cast ((BitVec.toNat_ofNat _ _).trans (Nat.mod_eq_of_lt h))
    | true => exact BitVec.toInt_ofNat' ..

/-- A number of a type is read back from its bits. -/
theorem Contains.ofBits_toBits (h : t.Contains n) : t.ofBits (t.toBits n) = n := by
  have hbits : t.toBits n = (n % 2 ^ t.sort.width).toNat := by
    rw [toBits, BitVec.toNat_ofInt]
    push_cast
    rfl
  have hlt : t.toBits n < 2 ^ t.sort.width := BitVec.isLt _
  rw [t.ofBits_eq hlt, hbits]
  exact h.holds.readAs_emod

end ScalarType

/-! ## §7 Evaluation means integers -/

/-- Evaluation means integers, whatever the widths and signs of operands: a comparison decides its
    relation between the integers of two values, and membership in a set asks whether the integer is
    in the set; every literal evaluates to its number; and a scalar variable that is bound to the
    bits of a number of its type evaluates to that number, which is also read back from the bits. -/
theorem comparisons_of_numbers :
    (∀ (op : BinaryOp) (r : Int → Int → Bool), op.relation? = some r →
      ∀ (a b : Expr) (env : Nat → Option Nat) (v w : Value),
        a.eval env = pure v → b.eval env = pure w → (a.sort.common b.sort).width ≤ 127 →
        (Expr.binary op a b).eval env = pure (.truth (r v.number w.number))) ∧
    (∀ (a : Expr) (set : List Int) (env : Nat → Option Nat) (v : Value),
      a.eval env = pure v → a.sort.width ≤ 127 → (∀ c ∈ set, -2 ^ 63 ≤ c ∧ c < 2 ^ 63) →
      (Expr.inside a set).eval env = pure (.truth (decide (v.number ∈ set)))) ∧
    (∀ (c : Int) (env : Nat → Option Nat), -2 ^ 63 ≤ c → c < 2 ^ 64 →
      ∃ v, (Expr.literal c).eval env = pure v ∧ v.number = c) ∧
    (∀ (t : ScalarType) (n : Int), t.Contains n →
      (∀ (id : Nat) (env : Nat → Option Nat), env id = some (t.toBits n) →
        ∃ v, (Expr.var id t.sort).eval env = pure v ∧ v.number = n) ∧
      t.ofBits (t.toBits n) = n) := by
  refine ⟨?comparison, ?membership, ?literal, ?scalar⟩
  case comparison =>
    intro op r hop a b env v w hv hw hcommon
    exact Expr.eval_binary hv hw
      (BinaryOp.apply_relation hop (Expr.eval_fits hv) (Expr.eval_fits hw) hcommon _)
  case membership =>
    intro a set env v hv hwidth hset
    exact Expr.eval_inside hv ((Expr.eval_fits hv).isAmong_eq hwidth hset)
  case literal =>
    intro c env hle hlt
    have hwidth := BitSort.width_ofLiteral_le hle hlt
    exact ⟨_, Expr.eval_literal env hle hlt, (BitSort.holds_ofLiteral c).number_wrap (by omega)⟩
  case scalar =>
    intro t n hn
    have hwidth := t.width_sort_le
    refine ⟨?_, hn.ofBits_toBits⟩
    intro id env hbits
    refine ⟨.wrap n t.sort, ?_, hn.holds.number_wrap (by omega)⟩
    rw [Expr.eval, hbits, ← t.wrap_toBits]

/-- The byte 200 is above the signed byte -1 and a member of a set that holds 200; the greatest
    number of 64 bits is a literal; and a signed byte keeps -1. -/
theorem comparisons_of_bytes :
    (Expr.binary .greater (.constant 200 (.unsigned 8)) (.constant 255 (.signed 8))).eval
        (fun _ => none) = pure (.truth true) ∧
      (Expr.inside (.constant 200 (.unsigned 8)) [-56, 200]).eval (fun _ => none) =
        pure (.truth true) ∧
      (∃ v, (Expr.literal (2 ^ 64 - 1)).eval (fun _ => none) = pure v ∧ v.number = 2 ^ 64 - 1) ∧
      (∃ v, (Expr.var 0 (ScalarType.int .bits8 true).sort).eval (fun _ => some 255) = pure v ∧
        v.number = -1) ∧
      ScalarType.ofBits (.int .bits8 true) 255 = -1 := by
  obtain ⟨hcompare, hinside, hliteral, hscalar⟩ := comparisons_of_numbers
  obtain ⟨hread, hback⟩ := hscalar (.int .bits8 true) (-1) ⟨by decide, by decide⟩
  exact ⟨hcompare .greater _ rfl (.constant 200 (.unsigned 8)) (.constant 255 (.signed 8)) _
      ⟨200, .unsigned 8⟩ ⟨255, .signed 8⟩ rfl rfl (by decide),
    hinside (.constant 200 (.unsigned 8)) [-56, 200] _ ⟨200, .unsigned 8⟩ rfl (by decide)
      (by decide),
    hliteral _ _ (by norm_num) (by norm_num), hread 0 _ rfl, hback⟩

end Stimulus
