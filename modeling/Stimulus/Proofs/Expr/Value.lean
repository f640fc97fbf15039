import Stimulus.Expr.Value
import Stimulus.Proofs.Circuit.Number

/-!
# Values of narrow sorts

A value is a word of 128 bits.  As long as no sort is wider than that, every value is a number below
the span of its sort, operators compute modulo that span, and every operator has a result.

Main definitions:
- `Value.Fits`: a value of a sort, within the width of the sort
- `BinaryOp.Narrow`, `BinaryOp.resultSort`, `UnaryOp.resultSort`

Main statements:
- `BinaryOp.apply_onCommon`, `shiftLeft_mk`, `shiftRight_mk`: what operators compute
- `BinaryOp.exists_apply`
- `Value.isAmong_eq`
-/

namespace Stimulus

/-! ## §1 Sorts -/

/-- The common sort is at least as wide as both of its operands. -/
theorem BitSort.width_le_common (a b : BitSort) :
    a.width ≤ (a.common b).width ∧ b.width ≤ (a.common b).width := by
  unfold common
  split
  · -- Both operands are truth values.
    rename_i hbool
    cases a <;> cases b <;> simp_all [isBool]
  · -- One sign: the wider operand decides.  Two signs: one more bit for the unsigned operand.
    split
    · exact ⟨Nat.le_max_left _ _, Nat.le_max_right _ _⟩
    · split <;> constructor <;> simp only [width] <;> omega

/-- Sorts meet as long as their common sort is narrow. -/
theorem BitSort.meet_eq_ok {a b : BitSort} (h : (a.common b).width ≤ 128) :
    a.meet b = .ok (a.common b) := by
  have hlimit : 128 < widthLimit := by decide
  have hfits : a.meetOverflows b = false := by
    unfold meetOverflows
    -- Only an unsigned operand beside a signed one can overflow, and it is narrower than both.
    cases a with
    | bool =>
      cases b with
      | bool => rfl
      | bits wb sb => cases sb <;> simp_all [common, isBool, isSigned, width]; omega
    | bits wa sa =>
      cases b with
      | bool => cases sa <;> simp_all [common, isBool, isSigned, width]; omega
      | bits wb sb =>
        cases sa <;> cases sb <;> simp_all [common, isBool, isSigned, width] <;> omega
  rw [meet, hfits, if_neg Bool.false_ne_true]

/-! ## §2 Words -/

section

variable {s t : BitSort}

theorem BitSort.span_eq (hs : s.width ≤ 128) : s.span = 2 ^ s.width := by
  rw [span, Nat.min_eq_left hs, Nat.one_shiftLeft]

theorem Value.wrap_eq (hs : s.width ≤ 128) (n : Int) :
    Value.wrap n s = ⟨(n % 2 ^ s.width).toNat, s⟩ := by
  rw [wrap, BitSort.span_eq hs]
  push_cast
  rfl

/-- A number that fits is wrapped as it is. -/
theorem Value.wrap_natCast (hs : s.width ≤ 128) (n : Nat) :
    Value.wrap n s = ⟨n % 2 ^ s.width, s⟩ := by
  rw [wrap_eq hs]
  norm_cast

theorem Value.wrap_of_lt (hs : s.width ≤ 128) {n : Nat} (hn : n < 2 ^ s.width) :
    Value.wrap n s = ⟨n, s⟩ := by
  rw [wrap_natCast hs, Nat.mod_eq_of_lt hn]

/-- Subtraction borrows from the width. -/
theorem Value.wrap_sub (hs : s.width ≤ 128) (x : Nat) {y : Nat} (hy : y ≤ 2 ^ s.width) :
    Value.wrap ((x : Int) - y) s = ⟨(x + (2 ^ s.width - y)) % 2 ^ s.width, s⟩ := by
  have hborrow : ((x : Int) - y) + 2 ^ s.width = ((x + (2 ^ s.width - y) : Nat) : Int) := by
    push_cast [Int.natCast_sub hy]
    ring
  rw [← wrap_natCast hs, wrap_eq hs, wrap_eq hs, ← hborrow, Int.add_emod_right]

theorem Value.twosComplement_mk (hs : s.width ≤ 128) (x : Nat) :
    (⟨x, s⟩ : Value).twosComplement = readAs true s.width x := by
  rw [twosComplement, BitSort.span_eq hs, readAs, if_pos rfl]

theorem Value.resize_mk (hs : s.width ≤ 128) (ht : t.width ≤ 128) (x : Nat) :
    (⟨x, s⟩ : Value).resize t = ⟨(readAs s.isSigned s.width x % 2 ^ t.width).toNat, t⟩ := by
  unfold resize
  cases hsigned : s.isSigned with
  | false => rw [if_neg (by simp), wrap_eq ht]; rfl
  | true => rw [if_pos rfl, wrap_eq ht, twosComplement_mk hs]

/-- A value of a sort lies within its width. -/
structure Value.Fits (v : Value) (s : BitSort) : Prop where
  sort_eq : v.sort = s
  lt : v.bits < 2 ^ s.width

theorem Value.fits_truth (b : Bool) : (truth b).Fits .bool := ⟨rfl, Bool.toNat_lt b⟩

/-- Words are cut to the span of their sort, which is no wider than the sort itself. -/
theorem BitSort.span_le (s : BitSort) : s.span ≤ 2 ^ s.width := by
  rw [span, Nat.one_shiftLeft]
  exact Nat.pow_le_pow_right Nat.two_pos (Nat.min_le_left _ _)

theorem Value.fits_wrap (n : Int) (s : BitSort) : (wrap n s).Fits s := by
  have hpos : (0 : Int) < s.span := by exact_mod_cast s.span_pos
  have hlt : (n % s.span).toNat < s.span := by
    zify
    rw [Int.toNat_of_nonneg (Int.emod_nonneg n hpos.ne')]
    exact Int.emod_lt_of_pos n hpos
  exact ⟨rfl, Nat.lt_of_lt_of_le hlt s.span_le⟩

theorem Value.fits_resize (v : Value) (s : BitSort) : (v.resize s).Fits s := by
  unfold resize
  split <;> exact fits_wrap _ s

end

/-! ## §3 Operators with two operands -/

section

variable {s : BitSort}

/-- The quotient of two numbers; division by zero answers all ones. -/
theorem Value.wrap_quotient (hs : s.width ≤ 128) {x : Nat} (hx : x < 2 ^ s.width) (y : Nat) :
    Value.wrap (if y = 0 then -1 else (x / y : Nat)) s =
      ⟨if y = 0 then 2 ^ s.width - 1 else x / y, s⟩ := by
  have hpos := Nat.two_pow_pos s.width
  split
  · have hones := wrap_sub hs 0 (Nat.succ_le_of_lt hpos)
    rw [Nat.zero_add, Nat.mod_eq_of_lt (Nat.sub_lt hpos Nat.one_pos)] at hones
    exact hones
  · exact wrap_of_lt hs (Nat.lt_of_le_of_lt (Nat.div_le_self x y) hx)

/-- A left shift multiplies, modulo the width. -/
theorem shiftLeft_mk (hs : s.width ≤ 128) (x k : Nat) :
    shiftLeft ⟨x, s⟩ k s = .ok ⟨x * 2 ^ k % 2 ^ s.width, s⟩ := by
  unfold shiftLeft
  split
  · -- Everything is shifted out.
    rename_i hk
    have hdvd : 2 ^ s.width ∣ x * 2 ^ k := Dvd.dvd.mul_left (pow_dvd_pow 2 hk) x
    rw [Nat.mod_eq_zero_of_dvd hdvd]
    exact congrArg Except.ok (Value.wrap_natCast hs 0)
  · rw [shiftable, if_pos (by omega)]
    show Except.ok (Value.wrap (x <<< k : Nat) s) = _
    rw [Nat.shiftLeft_eq, Value.wrap_natCast hs]

/-- A right shift divides and rounds down. -/
theorem shiftRight_mk (hs : s.width ≤ 128) (hpos : s.isSigned = true → 0 < s.width) {x : Nat}
    (hx : x < 2 ^ s.width) (k : Nat) :
    shiftRight ⟨x, s⟩ k s =
      .ok ⟨(readAs s.isSigned s.width x / 2 ^ k % 2 ^ s.width).toNat, s⟩ := by
  unfold shiftRight
  cases hsigned : s.isSigned with
  | true =>
    have hpos := hpos hsigned
    obtain ⟨w, hw⟩ : ∃ w, s.width = w + 1 := ⟨s.width - 1, by omega⟩
    -- An amount beyond the sign shifts the sign in, as the amount `width - 1` does.
    have hamount : readAs true s.width x / 2 ^ min k w = readAs true s.width x / 2 ^ k := by
      obtain ⟨hle, hlt⟩ := readAs_bounds w x
      rw [hw]
      by_cases hk : k ≤ w
      · rw [Nat.min_eq_left hk]
      · rw [Nat.min_eq_right (by omega), ediv_two_pow_of_le hle hlt (le_refl w),
          ediv_two_pow_of_le hle hlt (by omega)]
    rw [if_pos rfl, if_neg (by omega), shiftable, if_pos (by omega), Value.twosComplement_mk hs]
    show Except.ok (Value.wrap (readAs true s.width x >>> min k (s.width - 1)) s) = _
    rw [Int.shiftRight_eq_div_pow, Nat.cast_pow, hw, Nat.add_sub_cancel, ← hw, Nat.cast_ofNat,
      hamount, Value.wrap_eq hs]
  | false =>
    rw [if_neg Bool.false_ne_true]
    have hread : readAs false s.width x / 2 ^ k % 2 ^ s.width = ((x / 2 ^ k : Nat) : Int) := by
      have hlt : x / 2 ^ k < 2 ^ s.width := Nat.lt_of_le_of_lt (Nat.div_le_self _ _) hx
      rw [readAs, if_neg Bool.false_ne_true]
      norm_cast
      exact Nat.mod_eq_of_lt hlt
    rw [hread, Int.toNat_natCast]
    split
    · rename_i hk
      have hzero : x / 2 ^ k = 0 :=
        Nat.div_eq_of_lt (Nat.lt_of_lt_of_le hx (Nat.pow_le_pow_right Nat.two_pos hk))
      rw [hzero]
      exact congrArg Except.ok (Value.wrap_of_lt hs (Nat.two_pow_pos _))
    · rw [shiftable, if_pos (by omega)]
      show Except.ok (Value.wrap (x >>> k : Nat) s) = _
      rw [Nat.shiftRight_eq_div_pow,
        Value.wrap_of_lt hs (Nat.lt_of_le_of_lt (Nat.div_le_self _ _) hx)]

end

/-- The sort of the result of an operator. -/
def BinaryOp.resultSort (op : BinaryOp) (a b : BitSort) : BitSort :=
  if op.isPredicate then .bool else if op.isShift then a else a.common b

/-- The operators that work on integers of a common sort. -/
def BinaryOp.onCommon : BinaryOp → Bool
  | .and | .or | .shl | .shr => false
  | _ => true

/-- The common sort of the operands is narrow, and no empty word that has a sign is shifted to the
    right. -/
structure BinaryOp.Narrow (op : BinaryOp) (a b : BitSort) : Prop where
  common_le : (a.common b).width ≤ 128
  pos_of_shr : op = .shr → a.isSigned = true → 0 < a.width

section

variable {op : BinaryOp} {a b : BitSort}

theorem BinaryOp.Narrow.left_le (h : op.Narrow a b) : a.width ≤ 128 :=
  (BitSort.width_le_common a b).1.trans h.common_le

theorem BinaryOp.Narrow.right_le (h : op.Narrow a b) : b.width ≤ 128 :=
  (BitSort.width_le_common a b).2.trans h.common_le

theorem BinaryOp.Narrow.result_le (h : op.Narrow a b) : (op.resultSort a b).width ≤ 128 := by
  unfold resultSort
  split
  · -- a truth value
    decide
  · split
    · -- a shift keeps the sort of its left operand
      exact h.left_le
    · exact h.common_le

theorem BinaryOp.apply_onCommon (hop : op.onCommon = true) (h : op.Narrow a b) (s : BitSort)
    (x y : Nat) :
    op.apply ⟨x, a⟩ ⟨y, b⟩ s = .ok (op.onIntegers
      ⟨(readAs a.isSigned a.width x % 2 ^ (a.common b).width).toNat, a.common b⟩
      ⟨(readAs b.isSigned b.width y % 2 ^ (a.common b).width).toNat, a.common b⟩ s) := by
  rw [← Value.resize_mk h.left_le h.common_le, ← Value.resize_mk h.right_le h.common_le]
  unfold apply
  rw [BitSort.meet_eq_ok h.common_le]
  cases op <;> first | rfl | cases hop

theorem BinaryOp.onIntegers_fits {s : BitSort} (hpredicate : op.isPredicate = true → s = .bool)
    (x y : Value) : (op.onIntegers x y s).Fits s := by
  cases op with
  | equal | notEqual | less | lessEqual | greater | greaterEqual =>
    rw [hpredicate rfl]
    exact Value.fits_truth _
  | div | rem =>
    -- The signed and the unsigned operation are both wrapped.
    simp only [onIntegers]
    split <;> exact Value.fits_wrap _ s
  | _ => exact Value.fits_wrap _ s

/-- Every operator has a result, and it is a value of the sort of the result. -/
theorem BinaryOp.exists_apply (h : op.Narrow a b) {x : Nat} (hx : x < 2 ^ a.width) (y : Nat) :
    ∃ v, op.apply ⟨x, a⟩ ⟨y, b⟩ (op.resultSort a b) = .ok v ∧ v.Fits (op.resultSort a b) := by
  cases hop : op.onCommon with
  | true =>
    exact ⟨_, apply_onCommon hop h _ x y, onIntegers_fits (fun hp => if_pos hp) _ _⟩
  | false =>
    unfold apply
    rw [BitSort.meet_eq_ok h.common_le]
    cases op with
    | and => exact ⟨_, rfl, Value.fits_truth _⟩
    | or => exact ⟨_, rfl, Value.fits_truth _⟩
    | shl =>
      exact ⟨_, shiftLeft_mk h.left_le x y, rfl, Nat.mod_lt _ (Nat.two_pow_pos _)⟩
    | shr =>
      refine ⟨_, shiftRight_mk h.left_le (h.pos_of_shr rfl) hx y, ?_⟩
      rw [← Value.wrap_eq h.left_le]
      exact Value.fits_wrap _ a
    | _ => cases hop

end

/-! ## §4 Operators with one operand -/

/-- The sort of the result of an operator with one operand. -/
def UnaryOp.resultSort (op : UnaryOp) (s : BitSort) : BitSort := if op = .not then .bool else s

theorem UnaryOp.apply_fits {op : UnaryOp} {v : Value} {s : BitSort} (hv : v.Fits s) :
    (op.apply v).Fits (op.resultSort s) := by
  cases op with
  | not => exact Value.fits_truth _
  | neg =>
    rw [apply, hv.sort_eq]
    exact Value.fits_wrap _ s
  | complement =>
    rw [apply, hv.sort_eq]
    exact Value.fits_wrap _ s

/-! ## §5 Literals -/

/-- Whether a value equals a literal, both brought to their common sort. -/
def Value.equals (a : Value) (c : Int) : Bool :=
  let common := a.sort.common (.ofLiteral c)
  decide (a.resize common = (wrap c (.ofLiteral c)).resize common)

theorem Value.isAmong_eq {a : Value} {set : List Int}
    (hset : ∀ c ∈ set, (a.sort.common (.ofLiteral c)).width ≤ 128) :
    a.isAmong set = .ok (set.any a.equals) := by
  induction set with
  | nil => rfl
  | cons c set ih =>
    rw [isAmong, List.any_cons]
    have hmeet : a.sort.meet (wrap c (.ofLiteral c)).sort = .ok (a.sort.common (.ofLiteral c)) :=
      BitSort.meet_eq_ok (hset c List.mem_cons_self)
    rw [hmeet]
    show (if a.resize _ = _ then Except.ok true else _) = _
    by_cases heq : a.resize (a.sort.common (.ofLiteral c)) =
        (wrap c (.ofLiteral c)).resize (a.sort.common (.ofLiteral c))
    · -- The first hit ends the search.
      rw [if_pos heq, equals, decide_eq_true heq, Bool.true_or]
    · rw [if_neg heq, equals, decide_eq_false heq, Bool.false_or,
        ih fun c' hc' => hset c' (List.mem_cons_of_mem c hc')]

end Stimulus
