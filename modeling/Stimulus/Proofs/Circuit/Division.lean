import Stimulus.Expr.Value
import Stimulus.Proofs.Circuit.Word

/-!
# Circuits for division

Restoring division brings the dividend down bit by bit.  After every bit the quotient and the
remainder are those of the bits brought down so far; a divisor that is zero fits into every
remainder, so its quotient is all ones and nothing is taken off.  Signed division divides the
absolute values and puts the signs back.

Main definitions:
- `Divided`: what holds between two steps of the division

Main statements:
- `divideUnsigned_delivers`, `divideSigned_delivers`
-/

namespace Stimulus

/-! ## §1 One step -/

/-- The quotient and the remainder of the number `p` of `k` bits that were brought down. -/
structure Divided (divisor p k quotient remainder : Nat) : Prop where
  lt : p < 2 ^ k
  eq : quotient * divisor + remainder = p
  remainder_lt : divisor ≠ 0 → remainder < divisor
  ones : divisor = 0 → quotient + 1 = 2 ^ k

theorem divided_zero {divisor : Nat} : Divided divisor 0 0 0 0 := by
  constructor <;> simp
  omega

/-- Bring one more bit down, and take the divisor off where it fits. -/
theorem Divided.step {divisor p k quotient remainder : Nat}
    (h : Divided divisor p k quotient remainder) (bit : Bool) :
    let shifted := bit.toNat + 2 * remainder
    Divided divisor (bit.toNat + 2 * p) (k + 1) ((!decide (shifted < divisor)).toNat + 2 * quotient)
      (if shifted < divisor then shifted else shifted - divisor) := by
  intro shifted
  have hbit := bit.toNat_le
  have hlt := h.lt
  have heq := h.eq
  -- The divisor does not fit, and the quotient gets a zero; or it does, and is taken off once.
  by_cases hless : shifted < divisor
  · refine ⟨?_, ?_, ?_, ?_⟩
    · rw [Nat.pow_succ]
      omega
    · rw [if_pos hless, decide_eq_true hless, ← heq]
      simp only [Bool.not_true, Bool.toNat_false, shifted]
      ring
    · intro _
      rwa [if_pos hless]
    · intro hzero
      omega
  · refine ⟨?_, ?_, ?_, ?_⟩
    · rw [Nat.pow_succ]
      omega
    · rw [if_neg hless, decide_eq_false hless, ← heq]
      -- The new digit adds the divisor once, which is what is taken off the remainder.
      simp only [Bool.not_false, Bool.toNat_true, Nat.add_mul, Nat.one_mul]
      have : 2 * quotient * divisor = 2 * (quotient * divisor) := Nat.mul_assoc ..
      omega
    · intro hzero
      have := h.remainder_lt hzero
      rw [if_neg hless]
      omega
    · intro hzero
      have := h.ones hzero
      rw [decide_eq_false hless, Nat.pow_succ]
      simp only [Bool.not_false, Bool.toNat_true]
      omega

/-- What the last step leaves. -/
theorem Divided.result {divisor p k quotient remainder : Nat}
    (h : Divided divisor p k quotient remainder) :
    quotient = (if divisor = 0 then 2 ^ k - 1 else p / divisor) ∧ remainder = p % divisor := by
  have heq := h.eq
  by_cases hzero : divisor = 0
  · have := h.ones hzero
    rw [if_pos hzero, hzero, Nat.mod_zero]
    rw [hzero, Nat.mul_zero] at heq
    omega
  · have hsum : remainder + divisor * quotient = p := by
      rw [Nat.add_comm, Nat.mul_comm, heq]
    -- Quotient and remainder are the only numbers that add up like this with a small remainder.
    obtain ⟨hdiv, hmod⟩ := (Nat.div_mod_unique (Nat.pos_of_ne_zero hzero)).mpr
      ⟨hsum, h.remainder_lt hzero⟩
    rw [if_neg hzero]
    exact ⟨hdiv.symm, hmod.symm⟩

/-- As long as bits are left to bring down, the remainder has room for one more. -/
theorem Divided.remainder_lt_two_pow {divisor p k quotient remainder n : Nat}
    (h : Divided divisor p k quotient remainder) (hk : k ≤ n) : remainder < 2 ^ n := by
  have hle : remainder ≤ p := by
    rw [← h.eq]
    exact Nat.le_add_left _ _
  exact Nat.lt_of_le_of_lt hle (Nat.lt_of_lt_of_le h.lt (Nat.pow_le_pow_right Nat.two_pos hk))

/-- What words of one length subtract and choose by a comparison is the divisor taken off where it
    fits. -/
theorem chosen_difference {shifted divisor n : Nat} (hshifted : shifted < 2 ^ n)
    (hdivisor : divisor < 2 ^ n) :
    (if (!decide (shifted < divisor)) = true then (shifted + (2 ^ n - divisor)) % 2 ^ n
      else shifted) = if shifted < divisor then shifted else shifted - divisor := by
  by_cases hless : shifted < divisor
  · rw [if_pos hless, decide_eq_true hless, Bool.not_true, if_neg Bool.false_ne_true]
  · have hsum : shifted + (2 ^ n - divisor) = (shifted - divisor) + 2 ^ n := by omega
    rw [if_neg hless, decide_eq_false hless, Bool.not_false, if_pos rfl, hsum,
      Nat.add_mod_right, Nat.mod_eq_of_lt (by omega)]

/-! ## §2 Unsigned division -/

section

variable {d : Manager} {n : Nat}

/-- The invariant of the division is kept from bit to bit. -/
theorem divideFrom_delivers {divisor quotient remainder rest : Word} {j k : Nat}
    {c p q r m : (Nat → Bool) → Nat} (hd : d.WellFormed) (hc : d.Spells divisor (n + 1) c)
    (hq : d.Spells quotient j q) (hr : d.Spells remainder (n + 1) r)
    (hrest : d.Spells rest.reverse k m) (hjk : j + k = n)
    (h : ∀ env, Divided (c env) (p env) j (q env) (r env)) :
    Delivers (divideFrom divisor quotient remainder rest) d fun out d' =>
      ∃ q' r', d'.Spells out.1 n q' ∧ d'.Spells out.2 (n + 1) r' ∧
        ∀ env, Divided (c env) (p env * 2 ^ k + m env) n (q' env) (r' env) := by
  induction rest generalizing d quotient remainder j k p q r m with
  | nil =>
    -- No bit is left, so everything that was to be divided is brought down.
    obtain ⟨rfl, hm⟩ := hrest.eq_zero_of_nil
    obtain rfl : j = n := hjk
    refine .pure hd ⟨q, r, hq, hr, fun env => ?_⟩
    rw [Nat.pow_zero, Nat.mul_one, hm, Nat.add_zero]
    exact h env
  | cons bit rest ih =>
    rw [List.reverse_cons] at hrest
    obtain ⟨k, b, m', rfl, hbit, hrest, hm⟩ := hrest.unconcat
    -- The remainder is below two to the number of bits brought down, so no bit drops out.
    have hshifted : d.Spells (bit :: remainder.dropLast) (n + 1) fun env =>
        (b env).toNat + 2 * r env := by
      have hlow := hr.take (Nat.le_succ n)
      rw [List.dropLast_eq_take, hr.length_eq]
      refine (hlow.cons hbit).congr fun env => ?_
      rw [Nat.mod_eq_of_lt ((h env).remainder_lt_two_pow (by omega))]
    unfold divideFrom
    refine (unsignedLess_delivers hd hshifted hc).bind fun less d₁ hext₁ hwf₁ hless => ?_
    refine (subtractWords_delivers hwf₁ (hshifted.mono hext₁) (hc.mono hext₁)).bind
      fun reduced d₂ hext₂ hwf₂ hreduced => ?_
    have hext := hext₁.trans hext₂
    refine (chooseWord_delivers hwf₂ (hless.mono hext₂).neg hreduced (hshifted.mono hext)).bind
      fun remainder' d₃ hext₃ hwf₃ hr' => ?_
    have hext := hext.trans hext₃
    have hq' := (hq.mono hext).cons ((hless.mono hext₂).neg.mono hext₃)
    have hr' : d₃.Spells remainder' (n + 1) fun env =>
        if (b env).toNat + 2 * r env < c env then (b env).toNat + 2 * r env
        else (b env).toNat + 2 * r env - c env :=
      hr'.congr fun env => chosen_difference (hshifted.lt env) (hc.lt env)
    -- The step lemma of the numbers is what the induction hypothesis asks for.
    refine (ih hwf₃ (hc.mono hext) hq' hr' (hrest.mono hext) (by omega)
      fun env => (h env).step (b env)).imp ?_
    rintro out d' - - ⟨q', r', hq', hr', hdiv⟩
    refine ⟨q', r', hq', hr', fun env => ?_⟩
    have hsum : p env * 2 ^ (k + 1) + m env =
        ((b env).toNat + 2 * p env) * 2 ^ k + m' env := by
      rw [hm, pow_succ]
      ring
    rw [hsum]
    exact hdiv env

/-- Quotient and remainder of natural numbers. -/
theorem divideUnsigned_delivers {xs ys : Word} {f g : (Nat → Bool) → Nat} (hd : d.WellFormed)
    (hxs : d.Spells xs n f) (hys : d.Spells ys n g) :
    Delivers (divideUnsigned xs ys) d fun out d' =>
      (d'.Spells out.1 n fun env => if g env = 0 then 2 ^ n - 1 else f env / g env) ∧
        d'.Spells out.2 n fun env => f env % g env := by
  unfold divideUnsigned
  rw [hxs.length_eq]
  have hdivisor : d.Spells (resizeWord false ys (n + 1)) (n + 1) g := by
    refine (hys.resizeWord hd false (n + 1)).congr fun env => ?_
    have hlt : g env < 2 ^ (n + 1) := by
      have := hys.lt env
      rw [pow_succ]
      omega
    simp only [readAs, Bool.false_eq_true, if_false]
    exact_mod_cast Nat.mod_eq_of_lt hlt
  have hrest : d.Spells xs.reverse.reverse n f := by rwa [List.reverse_reverse]
  -- At first nothing is brought down, and both quotient and remainder are zero.
  refine (divideFrom_delivers (p := fun _ => 0) hd hdivisor Manager.spells_nil
    (hd.spells_zeros (n + 1)) hrest (Nat.zero_add n) fun env => divided_zero).bind ?_
  rintro ⟨quotient, remainder⟩ d' hext hwf ⟨q, r, hq, hr, hdiv⟩
  refine .pure hwf ⟨hq.congr fun env => ?_, (hr.take (Nat.le_succ n)).congr fun env => ?_⟩
  · have := (hdiv env).result.1
    rwa [Nat.zero_mul, Nat.zero_add] at this
  · have hres := (hdiv env).result.2
    rw [Nat.zero_mul, Nat.zero_add] at hres
    have hle : f env % g env ≤ f env := Nat.mod_le _ _
    rw [hres, Nat.mod_eq_of_lt (Nat.lt_of_le_of_lt hle (hxs.lt env))]

end

/-! ## §3 Signed division -/

/-- An integer given by its absolute value and its sign. -/
def withSign (negative : Bool) (m : Nat) : Int := if negative then -m else m

/-- A word read in two's complement, as sign and absolute value. -/
theorem readAs_eq_withSign {n m : Nat} (hm : m < 2 ^ n) :
    readAs true n m = withSign (decide (readAs true n m < 0))
      (if readAs true n m < 0 then 2 ^ n - m else m) := by
  have hcast : ((2 : Int) ^ n) = ((2 ^ n : Nat) : Int) := by push_cast; rfl
  -- A word stands for its number or, with the top bit set, for what it lacks to the span.
  have hcases : readAs true n m = m ∨ readAs true n m = m - 2 ^ n := by
    rw [readAs, if_pos rfl, Int.bmod_def,
      Int.emod_eq_of_lt (Int.natCast_nonneg _) (by exact_mod_cast hm)]
    split
    · exact .inl rfl
    · exact .inr (by push_cast; rfl)
  rw [hcast] at hcases
  unfold withSign
  rcases hcases with h | h
  · have hneg : ¬ readAs true n m < 0 := by omega
    rw [decide_eq_false hneg, if_neg hneg, if_neg Bool.false_ne_true, h]
  · have hneg : readAs true n m < 0 := by omega
    rw [decide_eq_true hneg, if_pos hneg, if_pos rfl, h]
    omega

/-- What is negative has an absolute value other than zero. -/
theorem abs_ne_zero {n m : Nat} (hm : m < 2 ^ n) (hneg : decide (readAs true n m < 0) = true) :
    (if readAs true n m < 0 then 2 ^ n - m else m) ≠ 0 := by
  rw [if_pos (of_decide_eq_true hneg)]
  omega

/-- Negating under a condition puts a sign back, modulo the width. -/
theorem withSign_emod {n m : Nat} (hm : m < 2 ^ n) (negative : Bool) :
    (((if negative then (2 ^ n - m) % 2 ^ n else m : Nat)) : Int) =
      withSign negative m % 2 ^ n := by
  have hcast : ((2 : Int) ^ n) = ((2 ^ n : Nat) : Int) := by push_cast; rfl
  cases negative with
  | false =>
    simp only [withSign, Bool.false_eq_true, if_false]
    exact (Int.emod_eq_of_lt (Int.natCast_nonneg m) (by exact_mod_cast hm)).symm
  | true =>
    simp only [withSign, if_true]
    rw [hcast, Int.natCast_emod, Int.natCast_sub (Nat.le_of_lt hm), Int.sub_emod_left]

theorem tdiv_withSign (a b : Bool) (j k : Nat) :
    (withSign a j).tdiv (withSign b k) = withSign (a ^^ b) (j / k) := by
  cases a <;> cases b <;> simp [withSign]

theorem tmod_withSign (a b : Bool) (j k : Nat) :
    (withSign a j).tmod (withSign b k) = withSign a (j % k) := by
  cases a <;> cases b <;> simp [withSign, ← Int.ofNat_tmod]

/-- The quotient of the absolute values with its sign put back, modulo the width. -/
theorem signedQuotient_emod {n j k : Nat} {a b : Bool} (ha : a = true → j ≠ 0)
    (hb : b = true → k ≠ 0) :
    withSign (a ^^ b) (if k = 0 then 2 ^ n - 1 else j / k) % 2 ^ n =
      signedQuotient (withSign a j) (withSign b k) % 2 ^ n := by
  -- Signs do not matter for whether the divisor is zero.
  have hzero : withSign b k = 0 ↔ k = 0 := by cases b <;> simp [withSign]
  by_cases hk : k = 0
  · -- All ones, after the sign of the dividend.
    have hones : ((2 ^ n - 1 : Nat) : Int) = 2 ^ n - 1 := by
      rw [Int.natCast_sub (Nat.one_le_two_pow)]
      push_cast
      rfl
    have hplus : b = false := Bool.eq_false_iff.mpr fun hminus => hb hminus hk
    rw [signedQuotient, if_pos (hzero.mpr hk), if_pos hk, hplus, Bool.xor_false]
    cases a with
    | false =>
      have hnonneg : (0 : Int) ≤ withSign false j := by simp [withSign]
      rw [if_pos hnonneg, withSign, if_neg Bool.false_ne_true, hones, Int.sub_emod_left]
    | true =>
      have hneg : ¬ (0 : Int) ≤ withSign true j := by
        have := ha rfl
        simp only [withSign, if_true]
        omega
      rw [if_neg hneg, withSign, if_pos rfl, hones, Int.neg_sub, Int.sub_emod_right]
  · rw [signedQuotient, if_neg (mt hzero.mp hk), if_neg hk, tdiv_withSign]

theorem signedRemainder_emod {n j k : Nat} {a b : Bool} :
    withSign a (j % k) % 2 ^ n = signedRemainder (withSign a j) (withSign b k) % 2 ^ n := by
  have hzero : withSign b k = 0 ↔ k = 0 := by cases b <;> simp [withSign]
  by_cases hk : k = 0
  · rw [signedRemainder, if_pos (hzero.mpr hk), hk, Nat.mod_zero]
  · rw [signedRemainder, if_neg (mt hzero.mp hk), tmod_withSign]

section

variable {d : Manager} {n : Nat} {xs ys : Word} {f g : (Nat → Bool) → Nat}

/-- The top bit of a word tells whether the number in two's complement is negative. -/
theorem denotes_top {init : Word} {top : Edge} (h : d.Spells (init ++ [top]) n f) :
    d.Denotes top fun env => decide (readAs true n (f env) < 0) := by
  refine ⟨h.valid top (by simp), fun env => ?_⟩
  have hfill := fill_eq_decide true (d.bits env (init ++ [top]))
  rw [h.number_eq, Manager.length_bits, h.length_eq] at hfill
  rw [← hfill]
  simp [fill, topBit, Manager.bits_append]

/-- The absolute value of a word, whose sign is its top bit. -/
theorem abs_delivers {init : Word} {top : Edge} (hd : d.WellFormed)
    (hxs : d.Spells (init ++ [top]) n f) :
    Delivers (negateWord (init ++ [top]) >>= fun negated => chooseWord top negated (init ++ [top]))
      d fun zs d' => d'.Spells zs n fun env =>
        if readAs true n (f env) < 0 then 2 ^ n - f env else f env := by
  refine (negateWord_delivers hd hxs).bind fun negated d₁ hext₁ hwf₁ hneg => ?_
  refine (chooseWord_delivers hwf₁ ((denotes_top hxs).mono hext₁) hneg (hxs.mono hext₁)).imp
    fun zs d' _ _ hzs => hzs.congr fun env => ?_
  by_cases hcase : readAs true n (f env) < 0
  · -- Zero is not negative, so the negative stays below the span.
    have hpos : 0 < f env := by
      by_contra hzero
      rw [Nat.eq_zero_of_not_pos hzero] at hcase
      simp [readAs] at hcase
    have hlt : 2 ^ n - f env < 2 ^ n := by
      have := Nat.two_pow_pos n
      omega
    simp [hcase, Nat.mod_eq_of_lt hlt]
  · simp [hcase]

/-- Negate a word under a condition. -/
theorem signed_delivers {negative : Edge} {p : (Nat → Bool) → Bool} (hd : d.WellFormed)
    (hp : d.Denotes negative p) (hxs : d.Spells xs n f) :
    Delivers (negateWord xs >>= fun negated => chooseWord negative negated xs) d fun zs d' =>
      d'.Spells zs n fun env => (withSign (p env) (f env) % 2 ^ n).toNat := by
  refine (negateWord_delivers hd hxs).bind fun negated d₁ hext₁ hwf₁ hneg => ?_
  refine (chooseWord_delivers hwf₁ (hp.mono hext₁) hneg (hxs.mono hext₁)).imp
    fun zs d' _ _ hzs => hzs.congr fun env => ?_
  rw [← withSign_emod (hxs.lt env), Int.toNat_natCast]

/-- Quotient and remainder of integers in two's complement. -/
theorem divideSigned_delivers (hd : d.WellFormed) (hxs : d.Spells xs n f)
    (hys : d.Spells ys n g) :
    Delivers (divideSigned xs ys) d fun out d' =>
      (d'.Spells out.1 n fun env =>
          (signedQuotient (readAs true n (f env)) (readAs true n (g env)) % 2 ^ n).toNat) ∧
        d'.Spells out.2 n fun env =>
          (signedRemainder (readAs true n (f env)) (readAs true n (g env)) % 2 ^ n).toNat := by
  cases n with
  | zero =>
    -- Without bits there is no sign, and the numbers of all words are zero.
    rw [List.length_eq_zero_iff.mp hxs.length_eq]
    refine .pure hd ⟨Manager.spells_nil.congr fun env => ?_, Manager.spells_nil.congr fun env => ?_⟩
    · simp
    · simp
  | succ n =>
    -- A word with bits ends with its sign.
    have hconcat : ∀ {w : Word} {h : (Nat → Bool) → Nat}, d.Spells w (n + 1) h →
        ∃ init top, w = init ++ [top] := by
      intro w h hw
      induction w using List.reverseRecOn with
      | nil => cases hw.length_eq
      | append_singleton init top _ => exact ⟨init, top, rfl⟩
    obtain ⟨initA, signA, rfl⟩ := hconcat hxs
    obtain ⟨initB, signB, rfl⟩ := hconcat hys
    have hsignA := denotes_top hxs
    have hsignB := denotes_top hys
    unfold divideSigned
    rw [List.getLast?_concat, List.getLast?_concat]
    dsimp only
    -- Negating and choosing go together: they make the absolute value.
    rw [← bind_assoc]
    refine (abs_delivers hd hxs).bind fun absA d₁ hext₁ hwf₁ habsA => ?_
    rw [← bind_assoc]
    refine (abs_delivers hwf₁ (hys.mono hext₁)).bind fun absB d₂ hext₂ hwf₂ habsB => ?_
    have hext := hext₁.trans hext₂
    refine (divideUnsigned_delivers hwf₂ (habsA.mono hext₂) habsB).bind ?_
    rintro ⟨quotient, remainder⟩ d₃ hext₃ hwf₃ ⟨hq, hr⟩
    have hext := hext.trans hext₃
    refine (xor_delivers hwf₃ (hsignA.mono hext) (hsignB.mono hext)).bind
      fun differ d₄ hext₄ hwf₄ hdiffer => ?_
    have hext := hext.trans hext₄
    dsimp only
    rw [← bind_assoc]
    refine (signed_delivers hwf₄ hdiffer (hq.mono hext₄)).bind
      fun quotient' d₅ hext₅ hwf₅ hq' => ?_
    have hext := hext.trans hext₅
    rw [← bind_assoc]
    refine (signed_delivers hwf₅ (hsignA.mono hext) (hr.mono (hext₄.trans hext₅))).bind
      fun remainder' d₆ hext₆ hwf₆ hr' => .pure hwf₆ ⟨(hq'.mono hext₆).congr fun env => ?_,
        hr'.congr fun env => ?_⟩
    · rw [signedQuotient_emod (abs_ne_zero (hxs.lt env)) (abs_ne_zero (hys.lt env)),
        ← readAs_eq_withSign (hxs.lt env), ← readAs_eq_withSign (hys.lt env)]
    · rw [signedRemainder_emod (b := decide (readAs true (n + 1) (g env) < 0)),
        ← readAs_eq_withSign (hxs.lt env), ← readAs_eq_withSign (hys.lt env)]

end

end Stimulus
