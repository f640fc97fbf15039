import Mathlib.Data.Nat.Bitwise
import Stimulus.Circuit.Encoding
import Stimulus.Proofs.Circuit.Division
import Stimulus.Proofs.Circuit.Shift
import Stimulus.Proofs.Expr.Value

/-!
# Circuits of operators

The circuit of an operator and the evaluation of the operator are two computations of one number.
Both bring the operands to a common sort first, and then differ: the circuit works bit by bit, the
evaluation with integers that are wrapped in the end.  They agree as long as no width exceeds the
128 bits of a value.

Main definitions:
- `Agrees`: a circuit spells what an evaluation answers, and depends on its operands alone
- `BinaryOp.Computes`: a circuit agrees with an operator on two operands
- `OnCommon`: two words spell the operands in their common sort

Main statements:
- `BinaryOp.circuit_delivers`, `UnaryOp.circuit_delivers`
- `amongLiterals_delivers`
-/

namespace Stimulus

/-! ## §1 Bits of numbers -/

theorem toNat_add_two_mul (b : Bool) (n : Nat) : b.toNat + 2 * n = Nat.bit b n := by
  rw [Nat.bit_val, Nat.add_comm]

theorem land_cons (a b : Bool) (j k : Nat) :
    (a && b).toNat + 2 * (j &&& k) = (a.toNat + 2 * j) &&& (b.toNat + 2 * k) := by
  simp only [toNat_add_two_mul, Nat.land_bit]

theorem lor_cons (a b : Bool) (j k : Nat) :
    (a || b).toNat + 2 * (j ||| k) = (a.toNat + 2 * j) ||| (b.toNat + 2 * k) := by
  simp only [toNat_add_two_mul, Nat.lor_bit]

theorem xor_cons (a b : Bool) (j k : Nat) :
    (a ^^ b).toNat + 2 * (j ^^^ k) = (a.toNat + 2 * j) ^^^ (b.toNat + 2 * k) := by
  simp only [toNat_add_two_mul, Nat.xor_bit]

/-! ## §2 Agreement -/

section

variable {d : Manager} {xs ys : Word} {m n : Nat} {f g : (Nat → Bool) → Nat}

/-- A single bit spells a truth value. -/
theorem spells_truth {e : Edge} {p : (Nat → Bool) → Bool} (he : d.Denotes e p) :
    d.Spells [e] 1 fun env => (p env).toNat :=
  (Manager.spells_nil.cons he).congr fun env => by simp

/-- A circuit agrees with an evaluation of its operands: it delivers a word, which depends on
    nothing but the operands, and if the widths are narrow, the word spells what the evaluation
    answers. -/
def Agrees {α : Type} (act : Build Word) (d : Manager) (operands : (Nat → Bool) → α)
    (narrow : Prop) (s : BitSort) (result : (Nat → Bool) → Except Fault Value) : Prop :=
  Delivers act d fun w d' => ∃ k h, d'.Spells w k h ∧ Function.FactorsThrough h operands ∧
    (narrow → k = s.width ∧ ∀ env, result env = .ok ⟨h env, s⟩)

variable {α : Type} {operands : (Nat → Bool) → α}

theorem agrees_of_spells {act : Build Word} {narrow : Prop} {s : BitSort}
    {result : (Nat → Bool) → Except Fault Value} {k : Nat} {h : (Nat → Bool) → Nat}
    (hact : Delivers act d fun w d' => d'.Spells w k h)
    (hoperands : Function.FactorsThrough h operands) (hk : narrow → k = s.width)
    (hresult : narrow → ∀ env, result env = .ok ⟨h env, s⟩) :
    Agrees act d operands narrow s result :=
  hact.imp fun _ _ _ _ hw => ⟨k, h, hw, hoperands, fun hn => ⟨hk hn, hresult hn⟩⟩

/-- A predicate is a word of one bit. -/
theorem agrees_of_yields_not {act : Build Edge} {narrow : Prop}
    {result : (Nat → Bool) → Except Fault Value} {p : (Nat → Bool) → Bool}
    (hact : Yields act d p) (hoperands : Function.FactorsThrough p operands)
    (hresult : narrow → ∀ env, result env = .ok (.truth (!p env))) :
    Agrees (act >>= fun e => pure [-e]) d operands narrow .bool result := by
  apply agrees_of_spells (hact.bind fun _ _ _ hwf he => .pure hwf (spells_truth he.neg))
  · exact fun a b hab => congrArg (fun b => (!b).toNat) (hoperands hab)
  · exact fun _ => rfl
  · exact hresult

/-- A result that is the same for the same two operands depends on nothing else. -/
theorem factorsThrough_pair {β : Type} {h : (Nat → Bool) → β}
    (hsame : ∀ a b, f a = f b → g a = g b → h a = h b) :
    Function.FactorsThrough h fun env => (f env, g env) := by
  intro a b hab
  obtain ⟨hf, hg⟩ := Prod.mk.inj hab
  exact hsame a b hf hg

/-! ## §3 Operators with two operands -/

/-- The order of the numbers that words of a sort spell. -/
def BitSort.precedes (s : BitSort) (x y : Nat) : Bool :=
  if s.isSigned then decide (readAs true s.width x < readAs true s.width y) else decide (x < y)

/-- The comparison of two words of one sort. -/
theorem less_delivers {s : BitSort} (hd : d.WellFormed) (hxs : d.Spells xs s.width f)
    (hys : d.Spells ys s.width g) :
    Yields (if s.isSigned then signedLess xs ys else unsignedLess xs ys) d fun env =>
      s.precedes (f env) (g env) := by
  unfold BitSort.precedes
  cases s.isSigned with
  | false => exact unsignedLess_delivers hd hxs hys
  | true => exact signedLess_delivers hd hxs hys

/-- The quotient of the numbers that words of a sort spell, and what remains. -/
def BitSort.quotient (s : BitSort) (x y : Nat) : Nat :=
  if s.isSigned then
    (signedQuotient (readAs true s.width x) (readAs true s.width y) % 2 ^ s.width).toNat
  else if y = 0 then 2 ^ s.width - 1 else x / y

def BitSort.remainder (s : BitSort) (x y : Nat) : Nat :=
  if s.isSigned then
    (signedRemainder (readAs true s.width x) (readAs true s.width y) % 2 ^ s.width).toNat
  else x % y

/-- The division of two words of one sort. -/
theorem divide_delivers {s : BitSort} (hd : d.WellFormed) (hxs : d.Spells xs s.width f)
    (hys : d.Spells ys s.width g) :
    Delivers (if s.isSigned then divideSigned xs ys else divideUnsigned xs ys) d fun out d' =>
      (d'.Spells out.1 s.width fun env => s.quotient (f env) (g env)) ∧
        d'.Spells out.2 s.width fun env => s.remainder (f env) (g env) := by
  unfold BitSort.quotient BitSort.remainder
  cases s.isSigned with
  | false => exact divideUnsigned_delivers hd hxs hys
  | true => exact divideSigned_delivers hd hxs hys

/-- An operation on the truth of two words. -/
theorem truths_delivers {op : Edge → Edge → Build Edge} {b : Bool → Bool → Bool}
    (hd : d.WellFormed) (hxs : d.Spells xs m f) (hys : d.Spells ys n g)
    (hop : ∀ x y p q d', d'.WellFormed → d'.Denotes x p → d'.Denotes y q →
      Yields (op x y) d' fun env => b (p env) (q env)) :
    Delivers (do let p ← anyBit xs; let q ← anyBit ys; return [← op p q]) d fun w d' =>
      d'.Spells w 1 fun env => (b (decide (f env ≠ 0)) (decide (g env ≠ 0))).toNat := by
  refine (anyBit_delivers hd hxs).bind fun p d₁ hext₁ hwf₁ hp => ?_
  -- The second word is still what it was when the first one was read.
  refine (anyBit_delivers hwf₁ (hys.mono hext₁)).bind fun q d₂ hext₂ hwf₂ hq => ?_
  exact (hop p q _ _ d₂ hwf₂ (hp.mono hext₂) hq).bind fun e d₃ _ hwf₃ he =>
    .pure hwf₃ (spells_truth he)

/-- The circuit agrees with an operator on two operands, which spell two numbers. -/
def BinaryOp.Computes (op : BinaryOp) (act : Build Word) (d : Manager) (sa sb : BitSort)
    (m n : Nat) (f g : (Nat → Bool) → Nat) : Prop :=
  Agrees act d (fun env => (f env, g env)) (m = sa.width ∧ n = sb.width ∧ op.Narrow sa sb)
    (op.resultSort sa sb) fun env => op.apply ⟨f env, sa⟩ ⟨g env, sb⟩ (op.resultSort sa sb)

/-- The number of an operand in the common sort of two operands. -/
def BitSort.lifted (s common : BitSort) (n x : Nat) : Nat :=
  (readAs s.isSigned n x % 2 ^ common.width).toNat

/-- Two words spell the numbers of the operands in their common sort. -/
structure OnCommon (d : Manager) (sa sb : BitSort) (m n : Nat) (f g : (Nat → Bool) → Nat)
    (xs ys : Word) : Prop where
  left : d.Spells xs (sa.common sb).width fun env => sa.lifted (sa.common sb) m (f env)
  right : d.Spells ys (sa.common sb).width fun env => sb.lifted (sa.common sb) n (g env)

section

variable {op : BinaryOp} {sa sb : BitSort}

/-- Truth and shifts take the operands as they are. -/
theorem BinaryOp.computes_of_spells {act : Build Word} {k : Nat} {h : Nat → Nat → Nat}
    (hact : Delivers act d fun w d' => d'.Spells w k fun env => h (f env) (g env))
    (hk : m = sa.width → k = (op.resultSort sa sb).width)
    (hresult : m = sa.width → op.Narrow sa sb → ∀ env,
      op.apply ⟨f env, sa⟩ ⟨g env, sb⟩ (op.resultSort sa sb) =
        .ok ⟨h (f env) (g env), op.resultSort sa sb⟩) :
    op.Computes act d sa sb m n f g :=
  agrees_of_spells hact (factorsThrough_pair fun _ _ hf hg => by simp only [hf, hg])
    (fun hn => hk hn.1) fun hn => hresult hn.1 hn.2.2

/-- A circuit for an operator on integers of the common sort, which delivers the number that the
    operator has for its result. -/
theorem OnCommon.computes (hwords : OnCommon d sa sb m n f g xs ys) (hop : op.onCommon = true)
    {act : Build Word} {h : Nat → Nat → Nat}
    (hact : Delivers act d fun w d' => d'.Spells w (op.resultSort sa sb).width fun env =>
      h (sa.lifted (sa.common sb) m (f env)) (sb.lifted (sa.common sb) n (g env)))
    (hresult : (sa.common sb).width ≤ 128 →
      ∀ x < 2 ^ (sa.common sb).width, ∀ y < 2 ^ (sa.common sb).width,
        op.onIntegers ⟨x, sa.common sb⟩ ⟨y, sa.common sb⟩ (op.resultSort sa sb) =
          ⟨h x y, op.resultSort sa sb⟩) :
    op.Computes act d sa sb m n f g := by
  apply agrees_of_spells hact (factorsThrough_pair fun _ _ hf hg => by simp only [hf, hg])
    fun _ => rfl
  rintro ⟨rfl, rfl, hnarrow⟩ env
  -- Where the words have the widths of their sorts, the operator works on the same two numbers.
  rw [BinaryOp.apply_onCommon hop hnarrow]
  exact congrArg _ (hresult hnarrow.common_le _ (hwords.left.lt env) _ (hwords.right.lt env))

/-- A circuit for a predicate on integers of the common sort. -/
theorem OnCommon.decides (hwords : OnCommon d sa sb m n f g xs ys) (hop : op.onCommon = true)
    (hsort : op.resultSort sa sb = .bool) {act : Build Edge} {p : Nat → Nat → Bool}
    (hact : Yields act d fun env =>
      p (sa.lifted (sa.common sb) m (f env)) (sb.lifted (sa.common sb) n (g env)))
    (hresult : (sa.common sb).width ≤ 128 → ∀ x y,
      op.onIntegers ⟨x, sa.common sb⟩ ⟨y, sa.common sb⟩ .bool = .truth (p x y)) :
    op.Computes (act >>= fun e => pure [e]) d sa sb m n f g := by
  refine hwords.computes hop (h := fun x y => (p x y).toNat) ?_ fun hwidth x _ y _ => ?_
  · rw [hsort]
    exact hact.bind fun _ _ _ hwf he => .pure hwf (spells_truth he)
  · rw [hsort, hresult hwidth]
    rfl

theorem OnCommon.refutes (hwords : OnCommon d sa sb m n f g xs ys) (hop : op.onCommon = true)
    (hsort : op.resultSort sa sb = .bool) {act : Build Edge} {p : Nat → Nat → Bool}
    (hact : Yields act d fun env =>
      p (sa.lifted (sa.common sb) m (f env)) (sb.lifted (sa.common sb) n (g env)))
    (hresult : (sa.common sb).width ≤ 128 → ∀ x y,
      op.onIntegers ⟨x, sa.common sb⟩ ⟨y, sa.common sb⟩ .bool = .truth (!p x y)) :
    op.Computes (act >>= fun e => pure [-e]) d sa sb m n f g := by
  refine hwords.computes hop (h := fun x y => (!p x y).toNat) ?_ fun hwidth x _ y _ => ?_
  · rw [hsort]
    exact hact.bind fun _ _ _ hwf he => .pure hwf (spells_truth he.neg)
  · rw [hsort, hresult hwidth]
    rfl

theorem BinaryOp.and_computes (hd : d.WellFormed) (hxs : d.Spells xs m f) (hys : d.Spells ys n g) :
    BinaryOp.and.Computes (do let p ← anyBit xs; let q ← anyBit ys; return [← conj p q])
      d sa sb m n f g := by
  have htruths := truths_delivers (b := (· && ·)) hd hxs hys
    fun x y p q d' hwf hx hy => conj_delivers hwf hx hy
  refine computes_of_spells (h := fun x y => (decide (x ≠ 0) && decide (y ≠ 0)).toNat) htruths
    (fun _ => rfl) fun _ hnarrow env => ?_
  rw [apply, BitSort.meet_eq_ok hnarrow.common_le]
  rfl

theorem BinaryOp.or_computes (hd : d.WellFormed) (hxs : d.Spells xs m f) (hys : d.Spells ys n g) :
    BinaryOp.or.Computes (do let p ← anyBit xs; let q ← anyBit ys; return [← disj p q])
      d sa sb m n f g := by
  have htruths := truths_delivers (b := (· || ·)) hd hxs hys
    fun x y p q d' hwf hx hy => disj_delivers hwf hx hy
  refine computes_of_spells (h := fun x y => (decide (x ≠ 0) || decide (y ≠ 0)).toNat) htruths
    (fun _ => rfl) fun _ hnarrow env => ?_
  rw [apply, BitSort.meet_eq_ok hnarrow.common_le]
  rfl

theorem BinaryOp.shl_computes (hd : d.WellFormed) (hxs : d.Spells xs m f) (hys : d.Spells ys n g) :
    BinaryOp.shl.Computes (shiftWordLeft xs ys) d sa sb m n f g := by
  refine computes_of_spells (h := fun x k => x * 2 ^ k % 2 ^ m) (shiftWordLeft_delivers hd hxs hys)
    id ?_
  rintro rfl hnarrow env
  rw [apply, BitSort.meet_eq_ok hnarrow.common_le]
  exact shiftLeft_mk hnarrow.left_le _ _

theorem BinaryOp.shr_computes (hd : d.WellFormed) (hxs : d.Spells xs m f) (hys : d.Spells ys n g) :
    BinaryOp.shr.Computes (shiftWordRight sa.isSigned xs ys) d sa sb m n f g := by
  refine computes_of_spells (h := fun x k => (readAs sa.isSigned m x / 2 ^ k % 2 ^ m).toNat)
    (shiftWordRight_delivers hd hxs hys) id ?_
  rintro rfl hnarrow env
  rw [apply, BitSort.meet_eq_ok hnarrow.common_le]
  exact shiftRight_mk hnarrow.left_le (hnarrow.pos_of_shr rfl) (hxs.lt env) _

section

variable (hwords : OnCommon d sa sb m n f g xs ys) (hd : d.WellFormed)

include hwords hd

theorem OnCommon.equal :
    BinaryOp.equal.Computes (do return [← equalWords xs ys]) d sa sb m n f g :=
  hwords.decides rfl rfl (p := fun x y => decide (x = y))
    (equalWords_delivers hd hwords.left hwords.right) fun _ _ _ => rfl

theorem OnCommon.notEqual :
    BinaryOp.notEqual.Computes (do return [-(← equalWords xs ys)]) d sa sb m n f g :=
  hwords.refutes rfl rfl (p := fun x y => decide (x = y))
    (equalWords_delivers hd hwords.left hwords.right) fun _ _ _ => rfl

theorem OnCommon.less : BinaryOp.less.Computes
    ((if (sa.common sb).isSigned then signedLess xs ys else unsignedLess xs ys) >>=
      fun e => pure [e]) d sa sb m n f g := by
  refine hwords.decides rfl rfl (p := (sa.common sb).precedes)
    (less_delivers hd hwords.left hwords.right) fun hwidth x y => ?_
  simp only [BinaryOp.onIntegers, Value.twosComplement_mk hwidth, BitSort.precedes]

theorem OnCommon.lessEqual : BinaryOp.lessEqual.Computes
    ((if (sa.common sb).isSigned then signedLess ys xs else unsignedLess ys xs) >>=
      fun e => pure [-e]) d sa sb m n f g := by
  refine hwords.refutes rfl rfl (p := fun x y => (sa.common sb).precedes y x)
    (less_delivers hd hwords.right hwords.left) fun hwidth x y => ?_
  simp only [BinaryOp.onIntegers, Value.twosComplement_mk hwidth, BitSort.precedes]

theorem OnCommon.greater : BinaryOp.greater.Computes
    ((if (sa.common sb).isSigned then signedLess ys xs else unsignedLess ys xs) >>=
      fun e => pure [e]) d sa sb m n f g := by
  refine hwords.decides rfl rfl (p := fun x y => (sa.common sb).precedes y x)
    (less_delivers hd hwords.right hwords.left) fun hwidth x y => ?_
  simp only [BinaryOp.onIntegers, Value.twosComplement_mk hwidth, BitSort.precedes]

theorem OnCommon.greaterEqual : BinaryOp.greaterEqual.Computes
    ((if (sa.common sb).isSigned then signedLess xs ys else unsignedLess xs ys) >>=
      fun e => pure [-e]) d sa sb m n f g := by
  refine hwords.refutes rfl rfl (p := (sa.common sb).precedes)
    (less_delivers hd hwords.left hwords.right) fun hwidth x y => ?_
  simp only [BinaryOp.onIntegers, Value.twosComplement_mk hwidth, BitSort.precedes]

theorem OnCommon.add : BinaryOp.add.Computes (addWords xs ys) d sa sb m n f g :=
  hwords.computes rfl (h := fun x y => (x + y) % 2 ^ (sa.common sb).width)
    (addWords_delivers hd hwords.left hwords.right)
    fun hwidth x _ y _ => Value.wrap_natCast hwidth (x + y)

theorem OnCommon.sub : BinaryOp.sub.Computes (subtractWords xs ys) d sa sb m n f g :=
  hwords.computes rfl
    (h := fun x y => (x + (2 ^ (sa.common sb).width - y)) % 2 ^ (sa.common sb).width)
    (subtractWords_delivers hd hwords.left hwords.right)
    fun hwidth x _ _ hy => Value.wrap_sub hwidth x hy.le

theorem OnCommon.mul : BinaryOp.mul.Computes (multiplyWords xs ys) d sa sb m n f g :=
  hwords.computes rfl (h := fun x y => x * y % 2 ^ (sa.common sb).width)
    (multiplyWords_delivers hd hwords.left hwords.right)
    fun hwidth x _ y _ => Value.wrap_natCast hwidth (x * y)

theorem OnCommon.bitAnd : BinaryOp.bitAnd.Computes (bitwise conj xs ys) d sa sb m n f g := by
  have hbits := bitwise_delivers (b := fun _ => (· && ·)) (h := fun _ => (· &&& ·)) hd hwords.left
    hwords.right (fun x y p q d' _ hwf => conj_delivers hwf) (fun _ => rfl) fun _ => land_cons
  exact hwords.computes rfl (h := (· &&& ·)) hbits
    fun hwidth x _ _ hy => Value.wrap_of_lt hwidth (Nat.and_lt_two_pow x hy)

theorem OnCommon.bitOr : BinaryOp.bitOr.Computes (bitwise disj xs ys) d sa sb m n f g := by
  have hbits := bitwise_delivers (b := fun _ => (· || ·)) (h := fun _ => (· ||| ·)) hd hwords.left
    hwords.right (fun x y p q d' _ hwf => disj_delivers hwf) (fun _ => rfl) fun _ => lor_cons
  exact hwords.computes rfl (h := (· ||| ·)) hbits
    fun hwidth _ hx _ hy => Value.wrap_of_lt hwidth (Nat.or_lt_two_pow hx hy)

theorem OnCommon.bitXor : BinaryOp.bitXor.Computes (bitwise xor xs ys) d sa sb m n f g := by
  have hbits := bitwise_delivers (b := fun _ => (· ^^ ·)) (h := fun _ => (· ^^^ ·)) hd hwords.left
    hwords.right (fun x y p q d' _ hwf => xor_delivers hwf) (fun _ => rfl) fun _ => xor_cons
  exact hwords.computes rfl (h := (· ^^^ ·)) hbits
    fun hwidth _ hx _ hy => Value.wrap_of_lt hwidth (Nat.xor_lt_two_pow hx hy)

theorem OnCommon.div : BinaryOp.div.Computes (Prod.fst <$>
    if (sa.common sb).isSigned then divideSigned xs ys else divideUnsigned xs ys)
    d sa sb m n f g := by
  have hdivide := divide_delivers hd hwords.left hwords.right
  refine hwords.computes rfl (h := (sa.common sb).quotient)
    (hdivide.map fun out d' _ _ hout => hout.1) fun hwidth x hx y _ => ?_
  simp only [BinaryOp.onIntegers, Value.twosComplement_mk hwidth, BitSort.quotient]
  -- Only the quotient of signed numbers may leave the sort, and then both sides wrap.
  split
  · exact Value.wrap_eq hwidth _
  · exact Value.wrap_quotient hwidth hx y

theorem OnCommon.rem : BinaryOp.rem.Computes (Prod.snd <$>
    if (sa.common sb).isSigned then divideSigned xs ys else divideUnsigned xs ys)
    d sa sb m n f g := by
  have hdivide := divide_delivers hd hwords.left hwords.right
  refine hwords.computes rfl (h := (sa.common sb).remainder)
    (hdivide.map fun out d' _ _ hout => hout.2) fun hwidth x hx y _ => ?_
  simp only [BinaryOp.onIntegers, Value.twosComplement_mk hwidth, BitSort.remainder]
  split
  · exact Value.wrap_eq hwidth _
  · -- A remainder is no greater than the dividend.
    exact Value.wrap_of_lt hwidth (Nat.lt_of_le_of_lt (Nat.mod_le _ _) hx)

end

end

/-- Every circuit of an operator agrees with the operator. -/
theorem BinaryOp.circuit_delivers {op : BinaryOp} {sa sb : BitSort} (hd : d.WellFormed)
    (hxs : d.Spells xs m f) (hys : d.Spells ys n g) (hmeet : sa.meet sb = .ok (sa.common sb)) :
    Agrees (op.circuit xs sa ys sb) d (fun env => (f env, g env))
      (m = sa.width ∧ n = sb.width ∧ op.Narrow sa sb) (op.resultSort sa sb)
      fun env => op.apply ⟨f env, sa⟩ ⟨g env, sb⟩ (op.resultSort sa sb) := by
  unfold circuit
  apply Delivers.ofExcept_bind ⟨_, hmeet, rfl⟩
  rintro _ rfl
  -- From here on both operands are words of the common sort.
  have hwords : OnCommon d sa sb m n f g _ _ :=
    ⟨hxs.resizeWord hd sa.isSigned (sa.common sb).width,
      hys.resizeWord hd sb.isSigned (sa.common sb).width⟩
  cases op with
  | and => exact and_computes hd hxs hys
  | or => exact or_computes hd hxs hys
  | shl => exact shl_computes hd hxs hys
  | shr => exact shr_computes hd hxs hys
  | equal => exact hwords.equal hd
  | notEqual => exact hwords.notEqual hd
  | less => exact hwords.less hd
  | lessEqual => exact hwords.lessEqual hd
  | greater => exact hwords.greater hd
  | greaterEqual => exact hwords.greaterEqual hd
  | add => exact hwords.add hd
  | sub => exact hwords.sub hd
  | mul => exact hwords.mul hd
  | bitAnd => exact hwords.bitAnd hd
  | bitOr => exact hwords.bitOr hd
  | bitXor => exact hwords.bitXor hd
  | div => exact hwords.div hd
  | rem => exact hwords.rem hd

/-! ## §4 Operators with one operand -/

theorem UnaryOp.circuit_delivers {op : UnaryOp} {s : BitSort} (hd : d.WellFormed)
    (hxs : d.Spells xs n f) :
    Agrees (op.circuit xs) d f (n = s.width ∧ s.width ≤ 128) (op.resultSort s)
      fun env => .ok (op.apply ⟨f env, s⟩) := by
  cases op with
  | not =>
    exact agrees_of_yields_not (anyBit_delivers hd hxs) (fun _ _ hf => by simp only [hf])
      fun _ env => rfl
  | neg =>
    apply agrees_of_spells (negateWord_delivers hd hxs) (fun _ _ hf => by simp only [hf])
      (fun h => h.1)
    rintro ⟨rfl, hs⟩ env
    -- The negative is the difference from zero.
    have hwrap := Value.wrap_sub hs 0 (hxs.lt env).le
    rw [Nat.cast_zero, Int.zero_sub, Nat.zero_add] at hwrap
    exact congrArg Except.ok hwrap
  | complement =>
    apply agrees_of_spells (.pure hd hxs.complementWord) (fun _ _ hf => by simp only [hf])
      (fun h => h.1)
    rintro ⟨rfl, hs⟩ env
    have hlt := hxs.lt env
    -- The complement of a number is what it lacks to the greatest number of the width.
    have hwrap := Value.wrap_sub hs 0 (Nat.succ_le_of_lt hlt)
    have hsucc : ((0 : Nat) : Int) - (f env).succ = -(f env) - 1 := by push_cast; ring
    rw [hsucc, Nat.zero_add, Nat.mod_eq_of_lt (by omega)] at hwrap
    rw [apply, hwrap]
    congr 2
    omega

/-! ## §5 Literals -/

/-- The comparison that the circuit of a literal makes with a number of `n` bits. -/
def BitSort.matches (s : BitSort) (n x : Nat) (c : Int) : Bool :=
  let literal := BitSort.ofLiteral c
  let common := s.common literal
  decide ((readAs s.isSigned n x % 2 ^ common.width).toNat =
    (readAs literal.isSigned literal.width ((BitVec.ofInt 128 c).toNat % 2 ^ literal.width) %
      2 ^ common.width).toNat)

theorem Value.equals_eq {s : BitSort} {c : Int} (hcommon : (s.common (.ofLiteral c)).width ≤ 128)
    (x : Nat) : (⟨x, s⟩ : Value).equals c = s.matches s.width x c := by
  obtain ⟨hs, hliteral⟩ := BitSort.width_le_common s (.ofLiteral c)
  have hs := hs.trans hcommon
  have hliteral := hliteral.trans hcommon
  rw [equals, resize_mk hs hcommon, wrap_eq hliteral, resize_mk hliteral hcommon, BitSort.matches,
    toNat_ofInt_mod hliteral]
  simp

theorem equalsLiteral_delivers {s : BitSort} {c : Int} (hd : d.WellFormed)
    (hxs : d.Spells xs n f) (hmeet : s.meet (.ofLiteral c) = .ok (s.common (.ofLiteral c))) :
    Yields (equalsLiteral xs s c) d fun env => s.matches n (f env) c := by
  unfold equalsLiteral
  apply Delivers.ofExcept_bind ⟨_, hmeet, rfl⟩
  rintro _ rfl
  have hx := hxs.resizeWord hd s.isSigned (s.common (.ofLiteral c)).width
  have hc := hd.spells_constantWord (BitVec.ofInt 128 c).toNat (BitSort.ofLiteral c).width
  exact equalWords_delivers hd hx (hc.resizeWord hd _ _)

theorem amongLiterals_delivers {s : BitSort} {set : List Int} (hd : d.WellFormed)
    (hxs : d.Spells xs n f)
    (hmeet : ∀ c ∈ set, s.meet (.ofLiteral c) = .ok (s.common (.ofLiteral c))) :
    Agrees (amongLiterals xs s set) d f
      (n = s.width ∧ ∀ c ∈ set, (s.common (.ofLiteral c)).width ≤ 128) .bool
      fun env => .ok (.truth (set.any (Value.equals ⟨f env, s⟩))) := by
  unfold amongLiterals
  have hhits := mapM_delivers (p := fun c env => s.matches n (f env) c) hd
    fun c hc d' hext hwf => equalsLiteral_delivers hwf (hxs.mono hext) (hmeet c hc)
  apply agrees_of_spells (h := fun env => (set.any (s.matches n (f env))).toNat)
  · -- Some hit is set exactly if the number of all hits is not zero.
    refine hhits.bind fun w d₁ hext₁ hwf₁ hw => ?_
    refine (anyBit_delivers hwf₁ hw).bind fun e d₂ hext₂ hwf₂ he => .pure hwf₂ ?_
    apply spells_truth
    exact he.congr fun env => by rw [← any_id_eq, List.any_map]; rfl
  · exact fun _ _ hf => by simp only [hf]
  · exact fun _ => rfl
  · rintro ⟨rfl, hset⟩ env
    -- For literals whose common sort is admissible, the two notions of equality agree.
    have hany : set.any (Value.equals ⟨f env, s⟩) = set.any (s.matches s.width (f env)) := by
      rw [Bool.eq_iff_iff, List.any_eq_true, List.any_eq_true]
      exact exists_congr fun c => and_congr_right fun hc => by rw [Value.equals_eq (hset c hc)]
    rw [hany]
    rfl

end

end Stimulus
