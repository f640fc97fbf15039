import Stimulus.Circuit.Word
import Stimulus.Proofs.Circuit.Number
import Stimulus.Proofs.Diagram.Conditional

/-!
# Circuits for addition, multiplication and comparison

Under an assignment a word of functions is a list of bits.  Every circuit is described by the bits
or the number of the word that it delivers, in terms of those of its operands.  The lengths of the
operands matter to the numbers only: on words of any lengths a circuit delivers a valid word.

Main definitions:
- `Manager.ValidWord`, `Manager.bits`

Main statements:
- `bitwise_delivers`, `chooseWord_delivers`
- `addWords_delivers`, `subtractWords_delivers`, `negateWord_delivers`, `multiplyWords_delivers`
- `equalWords_delivers`, `unsignedLess_delivers`, `signedLess_delivers`
-/

namespace Stimulus

namespace Manager

/-! ## §1 Words -/

/-- All edges of a word lead to stored nodes. -/
def ValidWord (d : Manager) (w : Word) : Prop := ∀ e ∈ w, d.Valid e

/-- The bits of a word under an assignment. -/
def bits (d : Manager) (env : Nat → Bool) (w : Word) : List Bool := w.map (d.value env)

variable {d d' : Manager} {env : Nat → Bool} {e : Edge} {v w : Word}

@[simp] theorem validWord_nil : d.ValidWord [] := by simp [ValidWord]

@[simp] theorem validWord_cons : d.ValidWord (e :: w) ↔ d.Valid e ∧ d.ValidWord w := by
  simp [ValidWord]

@[simp] theorem validWord_append : d.ValidWord (v ++ w) ↔ d.ValidWord v ∧ d.ValidWord w := by
  simp only [ValidWord, List.mem_append, or_imp, forall_and]

theorem validWord_replicate (n : Nat) (he : d.Valid e) : d.ValidWord (List.replicate n e) := by
  intro f hf
  exact List.eq_of_mem_replicate hf ▸ he

theorem ValidWord.subset (h : d.ValidWord w) (hsub : v ⊆ w) : d.ValidWord v :=
  fun e he => h e (hsub he)

theorem ValidWord.take (h : d.ValidWord w) (n : Nat) : d.ValidWord (w.take n) :=
  h.subset (List.take_subset n w)

theorem ValidWord.drop (h : d.ValidWord w) (n : Nat) : d.ValidWord (w.drop n) :=
  h.subset (List.drop_subset n w)

theorem ValidWord.complementWord (h : d.ValidWord w) : d.ValidWord (complementWord w) := by
  intro e he
  obtain ⟨f, hf, rfl⟩ := List.mem_map.mp he
  exact (h f hf).neg

theorem ValidWord.getLastD (h : d.ValidWord w) (he : d.Valid e) : d.Valid (w.getLastD e) := by
  rw [List.getLastD_eq_getLast?]
  cases hw : w.getLast? with
  | none => exact he
  | some f => exact h f (List.mem_of_getLast? hw)

theorem ValidWord.fillBit (h : d.ValidWord w) (hd : d.WellFormed) (signed : Bool) :
    d.Valid (fillBit signed w) := by
  unfold Stimulus.fillBit
  split
  · exact h.getLastD hd.valid_zero
  · exact hd.valid_zero

theorem ValidWord.resizeWord (h : d.ValidWord w) (hd : d.WellFormed) (signed : Bool)
    (width : Nat) : d.ValidWord (resizeWord signed w width) :=
  validWord_append.mpr ⟨h.take width, validWord_replicate _ (h.fillBit hd signed)⟩

theorem Extends.validWord (hd : d.Extends d') (h : d.ValidWord w) : d'.ValidWord w :=
  fun e he => hd.valid (h e he)

@[simp] theorem bits_nil : d.bits env [] = [] := rfl

@[simp] theorem bits_cons : d.bits env (e :: w) = d.value env e :: d.bits env w := rfl

@[simp] theorem length_bits : (d.bits env w).length = w.length := by simp [bits]

theorem bits_append : d.bits env (v ++ w) = d.bits env v ++ d.bits env w := List.map_append

theorem bits_take (n : Nat) : d.bits env (w.take n) = (d.bits env w).take n := List.map_take

theorem bits_drop (n : Nat) : d.bits env (w.drop n) = (d.bits env w).drop n := List.map_drop

theorem bits_replicate (n : Nat) :
    d.bits env (List.replicate n e) = List.replicate n (d.value env e) := List.map_replicate

theorem bits_complementWord (h : d.ValidWord w) :
    d.bits env (complementWord w) = (d.bits env w).map (!·) := by
  unfold bits complementWord
  rw [List.map_map, List.map_map]
  refine List.map_congr_left fun e he => ?_
  exact value_neg (h e he).index_ne_zero

/-- Bits keep their values in a manager that stores more. -/
theorem Extends.bits_eq (hd : d.Extends d') (h : d.ValidWord w) (env : Nat → Bool) :
    d'.bits env w = d.bits env w :=
  List.map_congr_left fun e he => hd.value_eq (h e he) env

theorem value_fillBit (signed : Bool) :
    d.value env (fillBit signed w) = fill signed (d.bits env w) := by
  cases signed with
  | false => exact value_zero
  | true =>
    induction w using List.reverseRecOn with
    | nil => exact value_zero
    | append_singleton init t _ => simp [fillBit, fill, topBit, bits_append]

theorem bits_resizeWord (signed : Bool) (width : Nat) :
    d.bits env (resizeWord signed w width) = resized signed (d.bits env w) width := by
  unfold resizeWord resized
  rw [bits_append, bits_take, bits_replicate, value_fillBit, length_bits]

@[simp] theorem length_resizeWord (signed : Bool) (width : Nat) :
    (resizeWord signed w width).length = width := by
  simp only [resizeWord, List.length_append, List.length_take, List.length_replicate]
  omega

theorem bits_constantWord (n width : Nat) :
    d.bits env (constantWord n width) = (List.range width).map n.testBit := by
  unfold bits constantWord
  rw [List.map_map]
  refine List.map_congr_left fun i _ => ?_
  show d.value env (constantBit (n.testBit i)) = n.testBit i
  cases n.testBit i
  · exact value_zero
  · exact value_one

/-- A constant word spells the low bits of its number. -/
theorem number_constantWord (n width : Nat) :
    number (d.bits env (constantWord n width)) = n % 2 ^ width := by
  rw [bits_constantWord, number_map_testBit]

theorem WellFormed.validWord_constantWord (hd : d.WellFormed) (n width : Nat) :
    d.ValidWord (constantWord n width) := by
  intro e he
  obtain ⟨i, -, rfl⟩ := List.mem_map.mp he
  unfold constantBit
  split
  · exact hd.valid_one
  · exact hd.valid_zero

/-- The word is valid, has a given width, and spells a given number under every assignment. -/
structure Spells (d : Manager) (w : Word) (n : Nat) (f : (Nat → Bool) → Nat) : Prop where
  valid : d.ValidWord w
  length_eq : w.length = n
  number_eq : ∀ env, number (d.bits env w) = f env

variable {n : Nat} {f g : (Nat → Bool) → Nat}

theorem ValidWord.spells (h : d.ValidWord w) :
    d.Spells w w.length fun env => number (d.bits env w) :=
  ⟨h, rfl, fun _ => rfl⟩

theorem Spells.mono (h : d.Spells w n f) (hd : d.Extends d') : d'.Spells w n f :=
  ⟨hd.validWord h.valid, h.length_eq, fun env => by rw [hd.bits_eq h.valid, h.number_eq]⟩

theorem Spells.congr (h : d.Spells w n f) (hfg : ∀ env, f env = g env) : d.Spells w n g :=
  ⟨h.valid, h.length_eq, fun env => (h.number_eq env).trans (hfg env)⟩

theorem Spells.lt (h : d.Spells w n f) (env : Nat → Bool) : f env < 2 ^ n := by
  rw [← h.number_eq, ← h.length_eq, ← length_bits (d := d) (w := w)]
  exact number_lt _

/-- An edge of the word is a bit of the number. -/
theorem Spells.value_getElem (h : d.Spells w n f) (env : Nat → Bool) {i : Nat} (hi : i < w.length) :
    d.value env w[i] = (f env).testBit i := by
  rw [← h.number_eq, testBit_number]
  simp [bits, hi]

theorem spells_nil : d.Spells [] 0 fun _ => 0 := ⟨validWord_nil, rfl, fun _ => rfl⟩

theorem Spells.cons {p : (Nat → Bool) → Bool} (he : d.Denotes e p) (hw : d.Spells w n f) :
    d.Spells (e :: w) (n + 1) fun env => (p env).toNat + 2 * f env where
  valid := validWord_cons.mpr ⟨he.valid, hw.valid⟩
  length_eq := by rw [List.length_cons, hw.length_eq]
  number_eq env := by rw [bits_cons, number_cons, he.value_eq, hw.number_eq]

/-- A word that is not empty is its lowest bit and the word above it. -/
theorem Spells.uncons (h : d.Spells (e :: w) n f) :
    ∃ m p g, n = m + 1 ∧ d.Denotes e p ∧ d.Spells w m g ∧
      ∀ env, f env = (p env).toNat + 2 * g env := by
  obtain ⟨he, hw⟩ := validWord_cons.mp h.valid
  refine ⟨w.length, _, _, by rw [← h.length_eq, List.length_cons], he.denotes, hw.spells,
    fun env => ?_⟩
  rw [← h.number_eq, bits_cons, number_cons]

/-- The same at the upper end. -/
theorem Spells.unconcat (h : d.Spells (w ++ [e]) n f) :
    ∃ m p g, n = m + 1 ∧ d.Denotes e p ∧ d.Spells w m g ∧
      ∀ env, f env = g env + 2 ^ m * (p env).toNat := by
  obtain ⟨hw, he⟩ := validWord_append.mp h.valid
  refine ⟨w.length, _, _, ?_, (he e (by simp)).denotes, hw.spells, fun env => ?_⟩
  · rw [← h.length_eq, List.length_append, List.length_singleton]
  · rw [← h.number_eq, bits_append, number_append, length_bits]
    simp

theorem Spells.eq_zero_of_nil (h : d.Spells [] n f) : n = 0 ∧ ∀ env, f env = 0 :=
  ⟨h.length_eq.symm, fun env => (h.number_eq env).symm⟩

theorem Spells.append {m : Nat} (hv : d.Spells v n f) (hw : d.Spells w m g) :
    d.Spells (v ++ w) (n + m) fun env => f env + 2 ^ n * g env where
  valid := validWord_append.mpr ⟨hv.valid, hw.valid⟩
  length_eq := by rw [List.length_append, hv.length_eq, hw.length_eq]
  number_eq env := by
    rw [bits_append, number_append, length_bits, hv.number_eq, hw.number_eq, hv.length_eq]

theorem Spells.take {m : Nat} (h : d.Spells w n f) (hm : m ≤ n) :
    d.Spells (w.take m) m fun env => f env % 2 ^ m where
  valid := h.valid.take m
  length_eq := List.length_take_of_le (h.length_eq ▸ hm)
  number_eq env := by rw [bits_take, number_take, h.number_eq]

theorem Spells.drop {m : Nat} (h : d.Spells w n f) :
    d.Spells (w.drop m) (n - m) fun env => f env / 2 ^ m where
  valid := h.valid.drop m
  length_eq := by rw [List.length_drop, h.length_eq]
  number_eq env := by rw [bits_drop, number_drop, h.number_eq]

theorem WellFormed.spells_zeros (hd : d.WellFormed) (n : Nat) :
    d.Spells (List.replicate n .zero) n fun _ => 0 where
  valid := validWord_replicate n hd.valid_zero
  length_eq := List.length_replicate
  number_eq _ := by rw [bits_replicate, value_zero, number_replicate_false]

/-- A word that repeats a bit. -/
theorem spells_replicate {p : (Nat → Bool) → Bool} (he : d.Denotes e p) (n : Nat) :
    d.Spells (List.replicate n e) n fun env => if p env then 2 ^ n - 1 else 0 where
  valid := validWord_replicate n he.valid
  length_eq := List.length_replicate
  number_eq env := by
    rw [bits_replicate, he.value_eq]
    cases p env with
    | false => exact number_replicate_false n
    | true =>
      have := number_replicate_true n
      simp only [if_true]
      omega

theorem WellFormed.spells_constantWord (hd : d.WellFormed) (m n : Nat) :
    d.Spells (constantWord m n) n fun _ => m % 2 ^ n where
  valid := hd.validWord_constantWord m n
  length_eq := by simp [constantWord]
  number_eq _ := number_constantWord m n

/-- The complement counts down from the greatest number of the width. -/
theorem Spells.complementWord (h : d.Spells w n f) :
    d.Spells (complementWord w) n fun env => 2 ^ n - 1 - f env where
  valid := h.valid.complementWord
  length_eq := by simp [Stimulus.complementWord, h.length_eq]
  number_eq env := by
    have := number_map_not (d.bits env w)
    rw [length_bits, h.length_eq, h.number_eq] at this
    rw [bits_complementWord h.valid]
    omega

/-- A resized word keeps the integer that it stands for, modulo its new width. -/
theorem Spells.resizeWord (h : d.Spells w n f) (hd : d.WellFormed) (signed : Bool) (m : Nat) :
    d.Spells (resizeWord signed w m) m fun env => (readAs signed n (f env) % 2 ^ m).toNat where
  valid := h.valid.resizeWord hd signed m
  length_eq := length_resizeWord signed m
  number_eq env := by
    have hnum := number_resized signed (d.bits env w) m
    rw [length_bits, h.length_eq, h.number_eq] at hnum
    rw [bits_resizeWord, ← hnum, Int.toNat_natCast]

end Manager

/-! ## §2 Bit by bit -/

section

variable {d : Manager} {xs ys : Word} {n : Nat} {f g : (Nat → Bool) → Nat}

/-- Functions that are made one after the other. -/
theorem mapM_delivers {α : Type} {make : α → Build Edge} {p : α → (Nat → Bool) → Bool}
    {as : List α} (hd : d.WellFormed)
    (hmake : ∀ a ∈ as, ∀ d', d.Extends d' → d'.WellFormed → Yields (make a) d' (p a)) :
    Delivers (as.mapM make) d fun w d' =>
      d'.Spells w as.length fun env => number (as.map (p · env)) := by
  induction as generalizing d with
  | nil => exact .pure hd Manager.spells_nil
  | cons a as ih =>
    rw [List.mapM_cons]
    refine (hmake a List.mem_cons_self d (.refl d) hd).bind fun e d₁ hext₁ hwf₁ he => ?_
    -- Later functions are made in managers that extend the one after this function.
    have hrest : ∀ b ∈ as, ∀ d', d₁.Extends d' → d'.WellFormed → Yields (make b) d' (p b) :=
      fun b hb d' hext => hmake b (List.mem_cons_of_mem a hb) d' (hext₁.trans hext)
    exact (ih hwf₁ hrest).bind fun w d₂ hext₂ hwf₂ hw => .pure hwf₂ (hw.cons (he.mono hext₂))

/-- An operation on bits, applied bit by bit, computes what goes from bits to numbers. -/
theorem bitwise_delivers {op : Edge → Edge → Build Edge} {b : (Nat → Bool) → Bool → Bool → Bool}
    {h : (Nat → Bool) → Nat → Nat → Nat} (hd : d.WellFormed) (hxs : d.Spells xs n f)
    (hys : d.Spells ys n g)
    (hop : ∀ x y p q d', d.Extends d' → d'.WellFormed → d'.Denotes x p → d'.Denotes y q →
      Yields (op x y) d' fun env => b env (p env) (q env))
    (hzero : ∀ env, h env 0 0 = 0)
    (hstep : ∀ env (r s : Bool) j k, (b env r s).toNat + 2 * h env j k =
      h env (r.toNat + 2 * j) (s.toNat + 2 * k)) :
    Delivers (bitwise op xs ys) d fun zs d' => d'.Spells zs n fun env => h env (f env) (g env) := by
  induction xs generalizing d ys n f g with
  | nil =>
    obtain ⟨rfl, hf⟩ := hxs.eq_zero_of_nil
    cases ys with
    | nil =>
      obtain ⟨-, hg⟩ := hys.eq_zero_of_nil
      exact .pure hd (Manager.spells_nil.congr fun env => by rw [hf, hg, hzero])
    | cons y ys => cases hys.length_eq
  -- The operation may be of any kind, as long as it is carried out place by place.
  | cons x xs ih =>
    -- Both words lose their first place, and the step of `h` puts it back.
    obtain ⟨m, p, f', rfl, hx, hxs, hf⟩ := hxs.uncons
    cases ys with
    | nil => cases hys.length_eq
    | cons y ys =>
      obtain ⟨m', q, g', hm, hy, hys, hg⟩ := hys.uncons
      cases Nat.succ.inj hm
      refine (hop x y p q d (.refl d) hd hx hy).bind fun z d₁ hext₁ hwf₁ hz => ?_
      refine (ih hwf₁ (hxs.mono hext₁) (hys.mono hext₁)
        fun x y p q d' hext => hop x y p q d' (hext₁.trans hext)).bind
        fun zs d₂ hext₂ hwf₂ hzs => .pure hwf₂ ?_
      exact (hzs.cons (hz.mono hext₂)).congr fun env => by rw [hf, hg, hstep]

/-- One of two words. -/
theorem chooseWord_delivers {cond : Edge} {p : (Nat → Bool) → Bool} (hd : d.WellFormed)
    (hc : d.Denotes cond p) (hxs : d.Spells xs n f) (hys : d.Spells ys n g) :
    Delivers (chooseWord cond xs ys) d fun zs d' =>
      d'.Spells zs n fun env => if p env then f env else g env := by
  refine bitwise_delivers (h := fun env j k => if p env then j else k)
    (b := fun env r s => if p env then r else s) hd hxs hys ?_ ?_ ?_
  · intro x y q r d' hext hwf hx hy
    exact ite_delivers hwf (hc.mono hext) hx hy
  · intro env
    simp
  · intro env a b j k
    cases p env <;> simp

/-- Whether a word spells a number other than zero. -/
theorem anyBit_delivers (hd : d.WellFormed) (hxs : d.Spells xs n f) :
    Yields (anyBit xs) d fun env => decide (f env ≠ 0) := by
  refine (disjAny_delivers hd hxs.valid).congr fun env => ?_
  rw [← hxs.number_eq, ← any_id_eq, Manager.bits, List.any_map]
  rfl

end

/-! ## §3 Addition and subtraction -/

section

variable {d : Manager} {xs ys : Word} {n : Nat} {f g : (Nat → Bool) → Nat}

/-- A full adder: sum bit and carry of three bits. -/
theorem full_adder (a b c : Bool) :
    ((a ^^ b) ^^ c).toNat + 2 * (a && b || c && (a ^^ b)).toNat = a.toNat + b.toNat + c.toNat := by
  cases a <;> cases b <;> cases c <;> rfl

/-- The carry ripples from the least significant bit up; the last one is dropped. -/
theorem addCarry_delivers {carry : Edge} {r : (Nat → Bool) → Bool} (hd : d.WellFormed)
    (hc : d.Denotes carry r) (hxs : d.Spells xs n f) (hys : d.Spells ys n g) :
    Delivers (addCarry carry xs ys) d fun zs d' =>
      d'.Spells zs n fun env => (f env + g env + (r env).toNat) % 2 ^ n := by
  induction xs generalizing d carry r ys n f g with
  | nil =>
    obtain ⟨rfl, -⟩ := hxs.eq_zero_of_nil
    cases ys with
    | nil => exact .pure hd (Manager.spells_nil.congr fun env => (Nat.mod_one _).symm)
    | cons y ys => cases hys.length_eq
  | cons x xs ih =>
    obtain ⟨m, p, f', rfl, hx, hxs, hf⟩ := hxs.uncons
    cases ys with
    | nil => cases hys.length_eq
    | cons y ys =>
      obtain ⟨m', q, g', hm, hy, hys, hg⟩ := hys.uncons
      cases Nat.succ.inj hm
      unfold addCarry
      refine (xor_delivers hd hx hy).bind fun half d₁ hext₁ hwf₁ hhalf => ?_
      have hc₁ := hc.mono hext₁
      refine (xor_delivers hwf₁ hhalf hc₁).bind fun sum d₂ hext₂ hwf₂ hsum => ?_
      have hext := hext₁.trans hext₂
      refine (conj_delivers hwf₂ (hx.mono hext) (hy.mono hext)).bind
        fun both d₃ hext₃ hwf₃ hboth => ?_
      have hext := hext.trans hext₃
      refine (conj_delivers hwf₃ (hc.mono hext) (hhalf.mono (hext₂.trans hext₃))).bind
        fun ripple d₄ hext₄ hwf₄ hripple => ?_
      have hext := hext.trans hext₄
      refine (disj_delivers hwf₄ (hboth.mono hext₄) hripple).bind
        fun carry' d₅ hext₅ hwf₅ hcarry' => ?_
      have hext := hext.trans hext₅
      -- The carry of this place goes into the induction hypothesis.
      refine (ih hwf₅ hcarry' (hxs.mono hext) (hys.mono hext)).bind
        fun zs d₆ hext₆ hwf₆ hzs => .pure hwf₆ ?_
      have hsum := hsum.mono (((hext₃.trans hext₄).trans hext₅).trans hext₆)
      refine (hzs.cons hsum).congr fun env => ?_
      -- One full adder, and the sum of the bits above it.
      have hadd := full_adder (p env) (q env) (r env)
      rw [toNat_add_two_mul_mod, hf, hg]
      congr 1
      linarith

theorem addWords_delivers (hd : d.WellFormed) (hxs : d.Spells xs n f) (hys : d.Spells ys n g) :
    Delivers (addWords xs ys) d fun zs d' =>
      d'.Spells zs n fun env => (f env + g env) % 2 ^ n :=
  addCarry_delivers hd hd.denotes_zero hxs hys

/-- Subtraction adds the complement and one. -/
theorem subtractWords_delivers (hd : d.WellFormed) (hxs : d.Spells xs n f)
    (hys : d.Spells ys n g) :
    Delivers (subtractWords xs ys) d fun zs d' =>
      d'.Spells zs n fun env => (f env + (2 ^ n - g env)) % 2 ^ n := by
  -- The complement of a number, plus one, is its difference from the span.
  refine (addCarry_delivers hd hd.denotes_one hxs hys.complementWord).imp
    fun zs d' _ _ hzs => hzs.congr fun env => ?_
  have hlt := hys.lt env
  congr 1
  simp only [Bool.toNat_true]
  omega

theorem negateWord_delivers (hd : d.WellFormed) (hxs : d.Spells xs n f) :
    Delivers (negateWord xs) d fun zs d' =>
      d'.Spells zs n fun env => (2 ^ n - f env) % 2 ^ n := by
  have hzeros : d.Spells (List.replicate xs.length .zero) n fun _ => 0 := by
    rw [hxs.length_eq]
    exact hd.spells_zeros n
  refine (subtractWords_delivers hd hzeros hxs).imp fun zs d' _ _ hzs => hzs.congr fun env => ?_
  rw [Nat.zero_add]

/-! ## §4 Multiplication -/

/-- A row of a multiplication: the multiplicand moved up, under the bit of the multiplier. -/
theorem maskedRow_delivers {bit : Edge} {p : (Nat → Bool) → Bool} (hd : d.WellFormed)
    (hbit : d.Denotes bit p) (hys : d.Spells ys n g) (shift : Nat) :
    Delivers (maskedRow bit shift ys) d fun zs d' =>
      d'.Spells zs n fun env => ((p env).toNat * 2 ^ shift * g env) % 2 ^ n := by
  unfold maskedRow
  -- The places that would leave the word are not made at all.
  have hlow := hys.take (Nat.sub_le n shift)
  rw [hys.length_eq]
  refine (mapM_delivers (p := fun e env => p env && d.value env e) hd
    fun e he d' hext hwf => ?_).bind fun row d₁ hext₁ hwf₁ hrow => .pure hwf₁ ?_
  · exact conj_delivers hwf (hbit.mono hext) ((hlow.valid e he).denotes.mono hext)
  · have hlen : min shift n + (ys.take (n - shift)).length = n := by
      rw [hlow.length_eq]
      omega
    have hword := (hwf₁.spells_zeros (min shift n)).append hrow
    rw [hlen] at hword
    refine hword.congr fun env => ?_
    have hmap : (ys.take (n - shift)).map (fun e => p env && d.value env e) =
        (d.bits env (ys.take (n - shift))).map (p env && ·) := by
      rw [Manager.bits, List.map_map]
      rfl
    rw [hmap, number_map_and, hlow.number_eq]
    -- A masked row is either zero or the multiplicand.
    cases p env with
    | false => simp
    | true => rw [Bool.toNat_true, Nat.one_mul, Nat.zero_add, Nat.one_mul, two_pow_mul_mod]

/-- Every bit of the multiplier adds its row. -/
theorem multiplyFrom_delivers {acc rest : Word} {k shift : Nat} {a h : (Nat → Bool) → Nat}
    (hd : d.WellFormed) (hacc : d.Spells acc n a) (hys : d.Spells ys n g)
    (hrest : d.Spells rest k h) :
    Delivers (multiplyFrom acc shift ys rest) d fun zs d' =>
      d'.Spells zs n fun env => (a env + h env * 2 ^ shift * g env) % 2 ^ n := by
  induction rest generalizing d acc shift k a h with
  | nil =>
    obtain ⟨-, hh⟩ := hrest.eq_zero_of_nil
    refine .pure hd (hacc.congr fun env => ?_)
    -- The rest of the multiplier counts twice as much one place further on.
    rw [hh, Nat.zero_mul, Nat.zero_mul, Nat.add_zero, Nat.mod_eq_of_lt (hacc.lt env)]
  | cons bit rest ih =>
    obtain ⟨m, p, h', rfl, hbit, hrest, hh⟩ := hrest.uncons
    unfold multiplyFrom
    refine (maskedRow_delivers hd hbit hys shift).bind fun row d₁ hext₁ hwf₁ hrow => ?_
    refine (addWords_delivers hwf₁ (hacc.mono hext₁) hrow).bind
      fun acc' d₂ hext₂ hwf₂ hacc' => ?_
    have hext := hext₁.trans hext₂
    refine (ih hwf₂ hacc' (hys.mono hext) (hrest.mono hext)).imp
      fun zs d' _ _ hzs => hzs.congr fun env => ?_
    rw [hh, Nat.mod_add_mod, Nat.add_right_comm, Nat.add_mod_mod]
    congr 1
    rw [pow_succ]
    ring

theorem multiplyWords_delivers (hd : d.WellFormed) (hxs : d.Spells xs n f)
    (hys : d.Spells ys n g) :
    Delivers (multiplyWords xs ys) d fun zs d' =>
      d'.Spells zs n fun env => (f env * g env) % 2 ^ n := by
  have hzeros : d.Spells (List.replicate xs.length .zero) n fun _ => 0 := by
    rw [hxs.length_eq]
    exact hd.spells_zeros n
  refine (multiplyFrom_delivers hd hzeros hys hxs).imp fun zs d' _ _ hzs => hzs.congr fun env => ?_
  rw [Nat.pow_zero, Nat.mul_one, Nat.zero_add]

/-! ## §5 Comparison -/

/-- Bits that agree pairwise spell the same number. -/
theorem all_zip_eq {bs cs : List Bool} (h : bs.length = cs.length) :
    ((bs.zip cs).all fun p => p.1 == p.2) = decide (number bs = number cs) := by
  induction bs generalizing cs with
  | nil => rw [List.length_eq_zero_iff.mp h.symm]; rfl
  | cons b bs ih =>
    cases cs with
    | nil => cases h
    | cons c cs =>
      rw [List.zip_cons_cons, List.all_cons, ih (Nat.succ.inj h), number_cons, number_cons,
        decide_eq_cons, Bool.and_comm]

/-- Words are compared bit by bit. -/
theorem equalWords_delivers (hd : d.WellFormed) (hxs : d.Spells xs n f) (hys : d.Spells ys n g) :
    Yields (equalWords xs ys) d fun env => decide (f env = g env) := by
  have hpairs : ∀ p ∈ xs.zip ys, d.Valid p.1 ∧ d.Valid p.2 := fun p hp =>
    ⟨hxs.valid _ (List.of_mem_zip hp).1, hys.valid _ (List.of_mem_zip hp).2⟩
  have hpair : ∀ p ∈ xs.zip ys, ∀ d', d.Extends d' → d'.WellFormed →
      Yields (iff p.1 p.2) d' fun env => d.value env p.1 == d.value env p.2 := by
    intro p hp d' hext hwf
    obtain ⟨hp₁, hp₂⟩ := hpairs p hp
    exact iff_delivers hwf (hp₁.denotes.mono hext) (hp₂.denotes.mono hext)
  refine (conjWith_delivers (p := fun p env => d.value env p.1 == d.value env p.2) hd
    hd.denotes_one hpair).congr fun env => ?_
  -- Words of one length are equal exactly if their numbers are.
  have hlen : (d.bits env xs).length = (d.bits env ys).length := by
    rw [Manager.length_bits, Manager.length_bits, hxs.length_eq, hys.length_eq]
  rw [← hxs.number_eq, ← hys.number_eq, ← all_zip_eq hlen, Manager.bits, Manager.bits,
    List.zip_map, List.all_map, Bool.true_and]
  rfl

/-- The highest bit that differs decides; what is known from the bits below counts only if none
    does. -/
theorem lessFrom_delivers {less : Edge} {r : (Nat → Bool) → Bool} (hd : d.WellFormed)
    (hless : d.Denotes less r) (hxs : d.Spells xs n f) (hys : d.Spells ys n g) :
    Yields (lessFrom less xs ys) d fun env =>
      decide (f env < g env) || (decide (f env = g env) && r env) := by
  induction xs generalizing d less r ys n f g with
  | nil =>
    obtain ⟨rfl, hf⟩ := hxs.eq_zero_of_nil
    cases ys with
    | nil =>
      obtain ⟨-, hg⟩ := hys.eq_zero_of_nil
      exact .pure hd (hless.congr fun env => by simp [hf, hg])
    | cons y ys => cases hys.length_eq
  | cons x xs ih =>
    obtain ⟨m, p, f', rfl, hx, hxs, hf⟩ := hxs.uncons
    cases ys with
    | nil => cases hys.length_eq
    | cons y ys =>
      obtain ⟨m', q, g', hm, hy, hys, hg⟩ := hys.uncons
      cases Nat.succ.inj hm
      unfold lessFrom
      refine (xor_delivers hd hx hy).bind fun differ d₁ hext₁ hwf₁ hdiffer => ?_
      refine (ite_delivers hwf₁ hdiffer (hy.mono hext₁) (hless.mono hext₁)).bind
        fun less' d₂ hext₂ hwf₂ hless' => ?_
      have hext := hext₁.trans hext₂
      refine (ih hwf₂ hless' (hxs.mono hext) (hys.mono hext)).congr fun env => ?_
      -- What was decided below matters only while the places above agree.
      rw [hf, hg, decide_lt_cons, decide_eq_cons]
      cases p env <;> cases q env <;> simp

theorem unsignedLess_delivers (hd : d.WellFormed) (hxs : d.Spells xs n f)
    (hys : d.Spells ys n g) :
    Yields (unsignedLess xs ys) d fun env => decide (f env < g env) :=
  (lessFrom_delivers hd hd.denotes_zero hxs hys).congr fun env => by simp

/-- Complementing the top bit moves the numbers in two's complement up by half the range. -/
theorem spells_flipTop (hxs : d.Spells xs (n + 1) f) :
    d.Spells (flipTop xs) (n + 1) fun env => (readAs true (n + 1) (f env) + 2 ^ n).toNat := by
  obtain ⟨init, top, rfl⟩ : ∃ init top, xs = init ++ [top] := by
    induction xs using List.reverseRecOn with
    | nil => cases hxs.length_eq
    | append_singleton init top _ => exact ⟨init, top, rfl⟩
  obtain ⟨hinit, htop⟩ := Manager.validWord_append.mp hxs.valid
  have htop := Manager.validWord_cons.mp htop
  have hlen : init.length = n := by
    have := hxs.length_eq
    simpa using this
  have hflip : flipTop (init ++ [top]) = init ++ [-top] := by simp [flipTop]
  rw [hflip]
  refine ⟨Manager.validWord_append.mpr ⟨hinit, Manager.validWord_cons.mpr ⟨htop.1.neg, htop.2⟩⟩,
    by simp [hlen], fun env => ?_⟩
  -- Flipping the sign adds half of the span to the signed number.
  have hread := readAs_number true (d.bits env (init ++ [top]))
  rw [hxs.number_eq, Manager.length_bits, hxs.length_eq] at hread
  have hfill : fill true (d.bits env (init ++ [top])) = d.value env top := by
    simp [fill, topBit, Manager.bits_append]
  rw [hread, hfill, ← hxs.number_eq, Manager.bits_append, Manager.bits_append, number_append,
    number_append, Manager.length_bits, hlen, Manager.bits_cons, Manager.bits_cons,
    Manager.value_neg htop.1.index_ne_zero, pow_succ]
  have hcast : ((2 : Int) ^ n) = ((2 ^ n : Nat) : Int) := by push_cast; rfl
  rw [hcast]
  -- The rest is arithmetic with this one power of two.
  generalize 2 ^ n = p
  cases d.value env top <;> simp <;> omega

/-- Signed words are compared as unsigned ones, with their top bits complemented. -/
theorem signedLess_delivers (hd : d.WellFormed) (hxs : d.Spells xs n f) (hys : d.Spells ys n g) :
    Yields (signedLess xs ys) d fun env =>
      decide (readAs true n (f env) < readAs true n (g env)) := by
  cases n with
  | zero =>
    -- Without bits both numbers are zero.
    rw [List.length_eq_zero_iff.mp hxs.length_eq, List.length_eq_zero_iff.mp hys.length_eq]
    refine .pure hd (hd.denotes_zero.congr fun env => ?_)
    have hf := hxs.lt env
    have hg := hys.lt env
    rw [Nat.pow_zero, Nat.lt_one_iff] at hf hg
    simp [hf, hg]
  | succ n =>
    -- Adding half of the span to both numbers keeps their order.
    refine (unsignedLess_delivers hd (spells_flipTop hxs) (spells_flipTop hys)).congr fun env => ?_
    have hf := (readAs_bounds n (f env)).1
    have hg := (readAs_bounds n (g env)).1
    rw [decide_eq_decide]
    omega

end

end Stimulus
