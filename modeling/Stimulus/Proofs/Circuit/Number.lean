import Mathlib.Data.List.Induction
import Mathlib.Tactic.Linarith
import Mathlib.Tactic.Ring

/-!
# Numbers as lists of bits

A list of bits, the least significant one first, is read as a natural number or in two's
complement.  What is cut off or appended at the upper end, and what is moved in at the lower end,
shows in both readings as arithmetic with powers of two.

Main definitions:
- `number`: the natural number that bits spell
- `readAs`: a number of a given width, read with or without a sign
- `resized`: bits cut off or extended to a width
-/

namespace Stimulus

/-! ## §1 Natural numbers -/

/-- The natural number that bits spell, the least significant bit first. -/
def number : List Bool → Nat
  | [] => 0
  | b :: bs => b.toNat + 2 * number bs

@[simp] theorem number_nil : number [] = 0 := rfl

@[simp] theorem number_cons (b : Bool) (bs : List Bool) :
    number (b :: bs) = b.toNat + 2 * number bs := rfl

theorem number_lt (bs : List Bool) : number bs < 2 ^ bs.length := by
  induction bs with
  | nil => simp
  | cons b bs ih =>
    have hb := b.toNat_le
    simp only [number_cons, List.length_cons, Nat.pow_succ]
    omega

theorem number_append (xs ys : List Bool) :
    number (xs ++ ys) = number xs + 2 ^ xs.length * number ys := by
  induction xs with
  | nil => simp
  | cons b bs ih =>
    simp only [List.cons_append, number_cons, List.length_cons, ih, Nat.pow_succ]
    ring

theorem number_replicate_false (n : Nat) : number (List.replicate n false) = 0 := by
  induction n with
  | zero => rfl
  | succ n ih => simp [List.replicate_succ, ih]

theorem number_replicate_true (n : Nat) : number (List.replicate n true) + 1 = 2 ^ n := by
  induction n with
  | zero => rfl
  | succ n ih =>
    simp only [List.replicate_succ, number_cons, Bool.toNat_true, Nat.pow_succ]
    omega

theorem number_map_and (b : Bool) (bs : List Bool) :
    number (bs.map (b && ·)) = b.toNat * number bs := by
  cases b with
  | true => simp
  | false => simp [List.map_const', number_replicate_false]

/-- Complementing every bit subtracts from the greatest number of the width. -/
theorem number_map_not (bs : List Bool) :
    number (bs.map (!·)) + number bs + 1 = 2 ^ bs.length := by
  induction bs with
  | nil => rfl
  | cons b bs ih =>
    simp only [List.map_cons, number_cons, List.length_cons, Nat.pow_succ]
    cases b <;> simp <;> omega

theorem number_take (n : Nat) (bs : List Bool) : number (bs.take n) = number bs % 2 ^ n := by
  by_cases hn : n ≤ bs.length
  · have hsplit := number_append (bs.take n) (bs.drop n)
    rw [List.take_append_drop, List.length_take_of_le hn] at hsplit
    have hlt := number_lt (bs.take n)
    rw [List.length_take_of_le hn] at hlt
    rw [hsplit, Nat.add_mul_mod_self_left, Nat.mod_eq_of_lt hlt]
  · have hle : bs.length ≤ n := by omega
    -- There is nothing to cut off, and the number is small already.
    have hlt : number bs < 2 ^ n :=
      Nat.lt_of_lt_of_le (number_lt bs) (Nat.pow_le_pow_right Nat.two_pos hle)
    rw [List.take_of_length_le hle, Nat.mod_eq_of_lt hlt]

theorem number_drop (n : Nat) (bs : List Bool) : number (bs.drop n) = number bs / 2 ^ n := by
  induction bs generalizing n with
  | nil => simp
  | cons b bs ih =>
    -- Dropping a place halves the number, and the first bit is lost.
    cases n with
    | zero => simp
    | succ n =>
      have hb := b.toNat_le
      have hhalf : (b.toNat + 2 * number bs) / 2 = number bs := by omega
      rw [List.drop_succ_cons, ih, number_cons, Nat.pow_succ, Nat.mul_comm (2 ^ n),
        ← Nat.div_div_eq_div_mul, hhalf]

/-- A bit of the number is the bit of the list. -/
theorem testBit_number (bs : List Bool) (i : Nat) : (number bs).testBit i = bs.getD i false := by
  induction bs generalizing i with
  | nil => simp
  | cons b bs ih =>
    have hb := b.toNat_le
    cases i with
    | zero =>
      rw [Nat.testBit_zero, number_cons]
      cases b <;> simp
    | succ i =>
      have hhalf : (b.toNat + 2 * number bs) / 2 = number bs := by omega
      rw [Nat.testBit_succ, number_cons, hhalf, ih]
      simp

/-- The words whose bits are all given by a function. -/
theorem number_eq_of_testBit {bs : List Bool} {m : Nat}
    (h : ∀ i, i < bs.length → bs.getD i false = m.testBit i) :
    number bs = m % 2 ^ bs.length := by
  apply Nat.eq_of_testBit_eq
  intro i
  rw [testBit_number, Nat.testBit_mod_two_pow]
  -- Beyond the word both sides have no bits.
  by_cases hi : i < bs.length
  · rw [h i hi]
    simp [hi]
  · simp [hi]

/-- The low bits of a number spell what it is modulo the width. -/
theorem number_map_testBit (n width : Nat) :
    number ((List.range width).map n.testBit) = n % 2 ^ width := by
  have hlen : ((List.range width).map n.testBit).length = width := by simp
  have h : number ((List.range width).map n.testBit) =
      n % 2 ^ ((List.range width).map n.testBit).length := by
    apply number_eq_of_testBit
    intro i hi
    rw [hlen] at hi
    simp [hi]
  rw [h, hlen]

/-- Cutting off the upper bits leaves the lowest bit alone. -/
theorem toNat_add_two_mul_mod (b : Bool) (k n : Nat) :
    b.toNat + 2 * (k % 2 ^ n) = (b.toNat + 2 * k) % 2 ^ (n + 1) := by
  have hb := b.toNat_le
  have hlt := Nat.mod_lt k (Nat.two_pow_pos n)
  -- The part of `k` that is cut off is a multiple of the new span as well.
  have hsplit : b.toNat + 2 * k = b.toNat + 2 * (k % 2 ^ n) + 2 ^ (n + 1) * (k / 2 ^ n) := by
    have hdiv := Nat.div_add_mod k (2 ^ n)
    rw [Nat.pow_succ]
    linarith
  have hsmall : b.toNat + 2 * (k % 2 ^ n) < 2 ^ (n + 1) := by
    rw [Nat.pow_succ]
    omega
  rw [hsplit, Nat.add_mul_mod_self_left, Nat.mod_eq_of_lt hsmall]

/-- What is moved up and cut off at the width may be cut off before it is moved. -/
theorem two_pow_mul_mod (shift k n : Nat) :
    2 ^ min shift n * (k % 2 ^ (n - shift)) = 2 ^ shift * k % 2 ^ n := by
  by_cases h : shift ≤ n
  · have hpow : 2 ^ shift * 2 ^ (n - shift) = 2 ^ n := by
      rw [← pow_add]
      congr 1
      omega
    rw [Nat.min_eq_left h, ← hpow, Nat.mul_mod_mul_left]
  · have hle : n ≤ shift := by omega
    -- Everything is moved out of the word.
    have hdvd : 2 ^ n ∣ 2 ^ shift * k := Dvd.dvd.mul_right (pow_dvd_pow 2 hle) k
    rw [Nat.mod_eq_zero_of_dvd hdvd, Nat.sub_eq_zero_of_le hle, Nat.pow_zero, Nat.mod_one,
      Nat.mul_zero]

/-- A number is zero unless some bit is set. -/
theorem any_id_eq (bs : List Bool) : bs.any id = decide (number bs ≠ 0) := by
  induction bs with
  | nil => rfl
  | cons b bs ih =>
    rw [List.any_cons, ih, number_cons]
    cases b <;> simp

/-- Comparing two numbers: the lowest bits count only if the bits above them agree. -/
theorem decide_lt_cons (a b : Bool) (j k : Nat) :
    decide (a.toNat + 2 * j < b.toNat + 2 * k) =
      (decide (j < k) || (decide (j = k) && (!a && b))) := by
  rw [Bool.eq_iff_iff]
  cases a <;> cases b <;> simp <;> omega

theorem decide_eq_cons (a b : Bool) (j k : Nat) :
    decide (a.toNat + 2 * j = b.toNat + 2 * k) = (decide (j = k) && (a == b)) := by
  rw [Bool.eq_iff_iff]
  cases a <;> cases b <;> simp <;> omega

/-! ## §2 Two's complement -/

/-- The top bit; an empty word has none that is set. -/
def topBit (bs : List Bool) : Bool := bs.getLastD false

theorem number_concat (bs : List Bool) (t : Bool) :
    number (bs ++ [t]) = number bs + 2 ^ bs.length * t.toNat := by
  simp [number_append]

/-- A number of a given width as an integer, read in two's complement if it has a sign. -/
def readAs (signed : Bool) (n m : Nat) : Int := if signed then Int.bmod m (2 ^ n) else m

/-- Both readings agree modulo the width. -/
theorem readAs_emod (signed : Bool) (n m : Nat) : readAs signed n m % 2 ^ n = m % 2 ^ n := by
  cases signed with
  | false => rfl
  | true =>
    have h := Int.bmod_emod (x := m) (m := 2 ^ n)
    push_cast at h
    exact h

/-- The bits of an integer, cut off at a smaller width. -/
theorem toNat_ofInt_mod {w k : Nat} (hw : w ≤ k) (c : Int) :
    (BitVec.ofInt k c).toNat % 2 ^ w = (c % 2 ^ w).toNat := by
  have hdvd : (2 : Int) ^ w ∣ 2 ^ k := pow_dvd_pow 2 hw
  have hnonneg : 0 ≤ c % 2 ^ k := Int.emod_nonneg _ (by positivity)
  rw [BitVec.toNat_ofInt, ← Int.emod_emod_of_dvd c hdvd, Nat.cast_pow, Nat.cast_ofNat,
    Int.toNat_emod hnonneg (by positivity)]
  norm_cast

/-- A signed number lies in the range of its width. -/
theorem readAs_bounds (n m : Nat) :
    -2 ^ n ≤ readAs true (n + 1) m ∧ readAs true (n + 1) m < 2 ^ n := by
  have hle := Int.le_bmod (x := m) (m := 2 ^ (n + 1)) (Nat.two_pow_pos _)
  have hlt := Int.bmod_lt (x := m) (m := 2 ^ (n + 1)) (Nat.two_pow_pos _)
  have hcast : ((2 : Int) ^ n) = ((2 ^ n : Nat) : Int) := by push_cast; rfl
  rw [pow_succ] at hle hlt
  rw [readAs, if_pos rfl, hcast, pow_succ]
  generalize 2 ^ n = p at *
  constructor <;> omega

/-- What a word is extended with: its top bit if it has a sign, otherwise zeros. -/
def fill (signed : Bool) (bs : List Bool) : Bool := signed && topBit bs

/-- In two's complement the top bit counts negatively. -/
theorem readAs_number (signed : Bool) (bs : List Bool) :
    readAs signed bs.length (number bs) =
      number bs - (fill signed bs).toNat * 2 ^ bs.length := by
  cases signed with
  | false => simp [readAs, fill]
  | true =>
    induction bs using List.reverseRecOn with
    | nil => decide
    -- Only the last bit counts, so the induction serves to split it off.
    | append_singleton init t _ =>
      have htop : fill true (init ++ [t]) = t := by simp [fill, topBit]
      have hlt := number_lt init
      have hlt' := number_lt (init ++ [t])
      rw [number_concat, List.length_append, List.length_singleton, Nat.pow_succ] at hlt'
      rw [htop, readAs, if_pos rfl, number_concat, List.length_append, List.length_singleton,
        pow_succ, pow_succ, Int.bmod_def,
        Int.emod_eq_of_lt (Int.natCast_nonneg _) (by exact_mod_cast hlt')]
      push_cast
      have hcast : ((2 : Int) ^ init.length) = ((2 ^ init.length : Nat) : Int) := by push_cast; rfl
      rw [hcast]
      -- Powers of two are opaque to the arithmetic, which only has to know this one.
      generalize 2 ^ init.length = p at hlt
      cases t <;> simp <;> omega

/-- An integer of a given width lies within the range of the width and its negative. -/
theorem readAs_range (signed : Bool) {n m : Nat} (hm : m < 2 ^ n) :
    -2 ^ n ≤ readAs signed n m ∧ readAs signed n m < 2 ^ n := by
  have hlt : (m : Int) < 2 ^ n := by exact_mod_cast hm
  have hnonneg := Int.natCast_nonneg m
  cases signed with
  | false =>
    have hcast : ((2 : Int) ^ n) = ((2 ^ n : Nat) : Int) := by push_cast; rfl
    simp only [readAs, Bool.false_eq_true, if_false]
    omega
  | true =>
    rw [readAs, if_pos rfl, Int.bmod_def,
      Int.emod_eq_of_lt hnonneg (by exact_mod_cast hm)]
    push_cast
    split <;> constructor <;> linarith

/-- The bit that a word is extended with tells whether its integer is negative. -/
theorem fill_eq_decide (signed : Bool) (bs : List Bool) :
    fill signed bs = decide (readAs signed bs.length (number bs) < 0) := by
  have hlt : (number bs : Int) < 2 ^ bs.length := by exact_mod_cast number_lt bs
  have hnonneg := Int.natCast_nonneg (number bs)
  rw [readAs_number]
  cases fill signed bs with
  | false => simp
  | true =>
    simp only [Bool.toNat_true, Nat.cast_one, one_mul]
    -- With the sign set, the span is taken off a number that is smaller.
    exact (decide_eq_true (by linarith)).symm

/-- Moved by its width or more, an integer is all fill. -/
theorem ediv_two_pow_of_le {x : Int} {n m : Nat} (hle : -2 ^ n ≤ x) (hlt : x < 2 ^ n)
    (hm : n ≤ m) : x / 2 ^ m = if x < 0 then -1 else 0 := by
  have hpow : (2 : Int) ^ n ≤ 2 ^ m := pow_le_pow_right₀ (by norm_num) hm
  split
  · rename_i hneg
    exact Int.ediv_eq_neg_one_of_neg_of_le hneg (by linarith)
  · exact Int.ediv_eq_zero_of_lt (by omega) (by linarith)

/-! ## §3 Other widths -/

/-- Bits cut off or extended to a width. -/
def resized (signed : Bool) (bs : List Bool) (width : Nat) : List Bool :=
  bs.take width ++ List.replicate (width - bs.length) (fill signed bs)

/-- Resizing keeps the integer, modulo the new width. -/
theorem number_resized (signed : Bool) (bs : List Bool) (width : Nat) :
    (number (resized signed bs width) : Int) =
      readAs signed bs.length (number bs) % 2 ^ width := by
  unfold resized
  rw [number_append, number_take]
  by_cases hw : width ≤ bs.length
  · -- Nothing is appended, and the new width divides the old one.
    have hdvd : (2 : Int) ^ width ∣ 2 ^ bs.length := pow_dvd_pow 2 hw
    rw [Nat.sub_eq_zero_of_le hw, List.replicate_zero, number_nil, Nat.mul_zero, Nat.add_zero,
      ← Int.emod_emod_of_dvd (readAs _ _ _) hdvd, readAs_emod, Int.emod_emod_of_dvd _ hdvd]
    push_cast
    rfl
  · -- The word is kept, and filled up to the new width.
    have hlen : (bs.take width).length = bs.length := by
      rw [List.length_take]
      omega
    have hpow : (2 : Int) ^ bs.length * 2 ^ (width - bs.length) = 2 ^ width := by
      rw [← pow_add]
      congr 1
      omega
    have hlt : (number bs : Int) < 2 ^ bs.length := by exact_mod_cast number_lt bs
    have hle : (2 : Int) ^ bs.length ≤ 2 ^ width := pow_le_pow_right₀ (by norm_num) (by omega)
    have hmod : number bs % 2 ^ width = number bs :=
      Nat.mod_eq_of_lt (Nat.lt_of_lt_of_le (number_lt bs)
        (Nat.pow_le_pow_right Nat.two_pos (by omega)))
    rw [hmod, hlen, readAs_number]
    cases fill signed bs with
    | false =>
      rw [number_replicate_false]
      simp only [Bool.toNat_false, Nat.mul_zero, Nat.add_zero, Nat.cast_zero, zero_mul, sub_zero]
      exact (Int.emod_eq_of_lt (by positivity) (by linarith)).symm
    | true =>
      -- Ones above the sign make up for its negative weight.
      have hones : (number (List.replicate (width - bs.length) true) : Int) =
          2 ^ (width - bs.length) - 1 := by
        have hsucc : (number (List.replicate (width - bs.length) true) : Int) + 1 =
            2 ^ (width - bs.length) := by exact_mod_cast number_replicate_true (width - bs.length)
        linarith
      push_cast
      rw [hones, mul_sub, hpow, mul_one]
      simp only [Bool.toNat_true, Nat.cast_one, one_mul]
      rw [← Int.add_emod_right, Int.emod_eq_of_lt] <;> linarith [Int.natCast_nonneg (number bs)]

end Stimulus
