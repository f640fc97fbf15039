import Stimulus.Proofs.Circuit.Word

/-!
# Circuits for shifts

A shift goes through the bits of its amount.  A bit of weight `2^k` moves the word by as many
places, but never by more than its width, because what lies beyond is fill already.

Main statements:
- `shiftWordLeft_delivers`, `shiftWordRight_delivers`
-/

namespace Stimulus

/-! ## §1 Moving integers -/

/-- A negative integer in the range of a width, modulo the width. -/
theorem emod_two_pow_of_neg {x : Int} {n : Nat} (hle : -2 ^ n ≤ x) (hneg : x < 0) :
    x % 2 ^ n = x + 2 ^ n := by
  rw [← Int.add_emod_right, Int.emod_eq_of_lt (by linarith) (by linarith)]

/-- Dividing by a power of two keeps an integer in its range, and keeps its sign. -/
theorem ediv_two_pow_range {x : Int} {n : Nat} (hle : -2 ^ n ≤ x) (hlt : x < 2 ^ n) (m : Nat) :
    (-2 ^ n ≤ x / 2 ^ m ∧ x / 2 ^ m < 2 ^ n) ∧ (x / 2 ^ m < 0 ↔ x < 0) := by
  have hpos : (0 : Int) < 2 ^ m := by positivity
  have hone : (1 : Int) ≤ 2 ^ m := by exact_mod_cast Nat.one_le_two_pow
  have hrange : (0 : Int) < 2 ^ n := by positivity
  -- Dividing by a positive number brings a number closer to zero, at most to minus one.
  refine ⟨⟨?_, ?_⟩, ?_⟩
  · refine (Int.le_ediv_iff_mul_le hpos).mpr (le_trans ?_ hle)
    nlinarith
  · refine (Int.ediv_lt_iff_lt_mul hpos).mpr (lt_of_lt_of_le hlt ?_)
    nlinarith
  · rw [Int.ediv_lt_iff_lt_mul hpos, zero_mul]

/-- What moving down makes of an integer and its fill. -/
theorem moveDown_number {x : Int} {n m : Nat} (hle : -2 ^ n ≤ x) (hlt : x < 2 ^ n) (hm : m ≤ n) :
    (((x % 2 ^ n).toNat / 2 ^ m + 2 ^ (n - m) * (if x < 0 then 2 ^ m - 1 else 0) : Nat) : Int) =
      x / 2 ^ m % 2 ^ n := by
  have hne : (2 : Int) ^ m ≠ 0 := by positivity
  have hpow : (2 : Int) ^ m * 2 ^ (n - m) = 2 ^ n := by
    rw [← pow_add]
    congr 1
    omega
  have hnat : ((x % 2 ^ n).toNat : Int) = x % 2 ^ n :=
    Int.toNat_of_nonneg (Int.emod_nonneg _ (by positivity))
  push_cast
  rw [hnat]
  by_cases hneg : x < 0
  · -- The fill makes up for the places that the sign has moved.
    obtain ⟨⟨hle', -⟩, hsign⟩ := ediv_two_pow_range hle hlt m
    have hneg' := hsign.mpr hneg
    have hones : ((2 ^ m - 1 : Nat) : Int) = 2 ^ m - 1 := by
      rw [Int.natCast_sub Nat.one_le_two_pow]
      push_cast
      rfl
    rw [if_pos hneg, emod_two_pow_of_neg hle hneg, emod_two_pow_of_neg hle' hneg', hones, ← hpow,
      Int.add_mul_ediv_left _ _ hne]
    ring
  · -- Without a sign nothing is filled in, and everything stays in range.
    have hnonneg : 0 ≤ x := by omega
    have hdiv : x / 2 ^ m ≤ x := Int.ediv_le_self _ hnonneg
    rw [if_neg hneg, Int.emod_eq_of_lt hnonneg hlt,
      Int.emod_eq_of_lt (Int.ediv_nonneg hnonneg (by positivity)) (by linarith)]
    simp

/-! ## §2 The bits of the amount -/

section

variable {d : Manager} {n : Nat}

/-- Every bit of the amount moves the word or leaves it.  The numbers `h env m` are those of the
    word moved by `m` places; from the width on they do not change. -/
theorem shiftFrom_delivers {move : Nat → Word → Word} {h : (Nat → Bool) → Nat → Nat}
    {w rest : Word} {s c : (Nat → Bool) → Nat} {j k : Nat} (hd : d.WellFormed)
    (hw : d.Spells w n fun env => h env (s env)) (hrest : d.Spells rest j c)
    (hmove : ∀ (d' : Manager) (v : Word) (s : (Nat → Bool) → Nat) (m : Nat), d.Extends d' →
      d'.WellFormed → m ≤ n → (d'.Spells v n fun env => h env (s env)) →
      d'.Spells (move m v) n fun env => h env (s env + m))
    (hfill : ∀ env s m, n ≤ m → h env (s + m) = h env (s + n)) :
    Delivers (shiftFrom move w k rest) d fun zs d' =>
      d'.Spells zs n fun env => h env (s env + 2 ^ k * c env) := by
  induction rest generalizing d w s c j k with
  | nil =>
    -- Without bits the amount is zero.
    obtain ⟨-, hc⟩ := hrest.eq_zero_of_nil
    refine .pure hd (hw.congr fun env => ?_)
    rw [hc, Nat.mul_zero, Nat.add_zero]
  | cons bit rest ih =>
    obtain ⟨i, p, c', rfl, hbit, hrest, hc⟩ := hrest.uncons
    unfold shiftFrom
    rw [hw.length_eq]
    -- The places that the circuit moves by are as good as `2^k`.
    have hplaces : ∀ env, h env (s env + min (1 <<< min k n) n) = h env (s env + 2 ^ k) := by
      intro env
      rw [Nat.one_shiftLeft]
      by_cases hlt : 2 ^ k < n
      · have hk : k < n := Nat.lt_trans Nat.lt_two_pow_self hlt
        rw [Nat.min_eq_left (Nat.le_of_lt hk), Nat.min_eq_left (Nat.le_of_lt hlt)]
      · -- One of the two caps is reached, and either one moves everything.
        have hge : n ≤ 2 ^ min k n := by
          rcases Nat.le_total k n with hle | hle
          · rw [Nat.min_eq_left hle]
            omega
          · rw [Nat.min_eq_right hle]
            exact Nat.le_of_lt Nat.lt_two_pow_self
        rw [Nat.min_eq_right hge, hfill env (s env) (2 ^ k) (by omega)]
    have hmoved := hmove d w s (min (1 <<< min k n) n) (.refl d) hd (Nat.min_le_right _ _) hw
    refine (chooseWord_delivers hd hbit hmoved hw).bind fun w' d₁ hext₁ hwf₁ hw' => ?_
    have hw' : d₁.Spells w' n fun env => h env (s env + 2 ^ k * (p env).toNat) := by
      refine hw'.congr fun env => ?_
      cases p env with
      | false => simp
      | true => simp [hplaces]
    -- The places moved so far are added up in `s`.
    refine (ih hwf₁ hw' (hrest.mono hext₁) fun d' v s m hext =>
      hmove d' v s m (hext₁.trans hext)).imp fun zs d' _ _ hzs => hzs.congr fun env => ?_
    rw [hc, pow_succ]
    congr 1
    ring

/-- A left shift multiplies, modulo the width. -/
theorem shiftWordLeft_delivers {xs amount : Word} {j : Nat} {f c : (Nat → Bool) → Nat}
    (hd : d.WellFormed) (hxs : d.Spells xs n f) (hamount : d.Spells amount j c) :
    Delivers (shiftWordLeft xs amount) d fun zs d' =>
      d'.Spells zs n fun env => f env * 2 ^ c env % 2 ^ n := by
  have hstart : d.Spells xs n fun env => f env * 2 ^ 0 % 2 ^ n := by
    refine hxs.congr fun env => ?_
    rw [Nat.pow_zero, Nat.mul_one, Nat.mod_eq_of_lt (hxs.lt env)]
  refine (shiftFrom_delivers (h := fun env m => f env * 2 ^ m % 2 ^ n) (s := fun _ => 0) hd hstart
    hamount ?_ ?_).imp fun zs d' _ _ hzs => hzs.congr fun env => ?_
  · intro d' v s m hext hwf hm hv
    -- Zeros come in from below, and what leaves the word is dropped.
    have hlong := ((hwf.spells_zeros m).append hv).take (Nat.le_add_left n m)
    unfold moveUp
    rw [hv.length_eq]
    refine hlong.congr fun env => ?_
    rw [Nat.zero_add, Nat.mul_mod_mod, pow_add]
    congr 1
    ring
  · intro env s m hm
    -- Beyond the width every distance gives zero.
    have hzero : ∀ k, n ≤ k → f env * 2 ^ (s + k) % 2 ^ n = 0 := by
      intro k hk
      apply Nat.mod_eq_zero_of_dvd
      exact Dvd.dvd.mul_left (pow_dvd_pow 2 (by omega)) _
    rw [hzero m hm, hzero n (Nat.le_refl n)]
  · rw [Nat.zero_add, Nat.pow_zero, Nat.one_mul]

/-- A right shift divides, rounding down; a negative integer stays negative. -/
theorem shiftWordRight_delivers {xs amount : Word} {j : Nat} {f c : (Nat → Bool) → Nat}
    {signed : Bool} (hd : d.WellFormed) (hxs : d.Spells xs n f) (hamount : d.Spells amount j c) :
    Delivers (shiftWordRight signed xs amount) d fun zs d' =>
      d'.Spells zs n fun env => (readAs signed n (f env) / 2 ^ c env % 2 ^ n).toNat := by
  have hrange := fun env => readAs_range signed (hxs.lt env)
  have hstart : d.Spells xs n fun env => (readAs signed n (f env) / 2 ^ 0 % 2 ^ n).toNat := by
    refine hxs.congr fun env => ?_
    have hlt := hxs.lt env
    rw [pow_zero, Int.ediv_one, readAs_emod]
    norm_cast
    exact (Nat.mod_eq_of_lt hlt).symm
  have hsign : d.Denotes (fillBit signed xs) fun env => decide (readAs signed n (f env) < 0) := by
    refine ⟨hxs.valid.fillBit hd signed, fun env => ?_⟩
    rw [Manager.value_fillBit, fill_eq_decide, hxs.number_eq, Manager.length_bits, hxs.length_eq]
  -- The loop is run for the quotient by a power of two, with the sign filling up from above.
  refine (shiftFrom_delivers (h := fun env m => (readAs signed n (f env) / 2 ^ m % 2 ^ n).toNat)
    (s := fun _ => 0) hd hstart hamount ?_ ?_).imp fun zs d' _ _ hzs => hzs.congr fun env => ?_
  · intro d' v s m hext hwf hm hv
    -- The word loses its low places and is filled with its sign.
    have hlong := (hv.drop (m := m)).append (Manager.spells_replicate (hsign.mono hext) m)
    rw [Nat.sub_add_cancel hm] at hlong
    unfold moveDown
    rw [hv.length_eq, Nat.min_eq_left hm]
    refine hlong.congr fun env => ?_
    obtain ⟨⟨hle, hlt⟩, hsame⟩ := ediv_two_pow_range (hrange env).1 (hrange env).2 (s env)
    have hmoved := moveDown_number hle hlt hm
    rw [Int.ediv_ediv_of_nonneg (by positivity), ← pow_add] at hmoved
    rw [← hmoved, Int.toNat_natCast]
    simp only [hsame, decide_eq_true_eq]
  · intro env s m hm
    -- A distance beyond the width leaves nothing but the sign.
    have hsplit : ∀ k, readAs signed n (f env) / 2 ^ (s + k) =
        readAs signed n (f env) / 2 ^ s / 2 ^ k := by
      intro k
      rw [Int.ediv_ediv_of_nonneg (by positivity), ← pow_add]
    obtain ⟨⟨hle, hlt⟩, -⟩ := ediv_two_pow_range (hrange env).1 (hrange env).2 s
    rw [hsplit m, hsplit n, ediv_two_pow_of_le hle hlt hm,
      ediv_two_pow_of_le hle hlt (Nat.le_refl n)]
  · rw [Nat.zero_add, Nat.pow_zero, Nat.one_mul]

end

end Stimulus
