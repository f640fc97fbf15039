import Mathlib.Algebra.Group.Int.Defs
import Stimulus.Proofs.Outcome
import Stimulus.Random.Dice

/-!
# What draws answer

A draw reads words from a stream until it has an answer.  The only way for it to fail is that the
words never let it end.  What it answers lies in its range, whatever the words are.

Main definitions:
- `Draws`: the law of a draw

Main statements:
- `Stream.below_draws`, `Stream.range_draws`, `Stream.between_draws`
- `Stream.shuffle_draws`: a shuffle answers a permutation
-/

namespace Stimulus

/-! ## §1 Draws -/

/-- Whatever the stream, the draw never ends or answers something with a property. -/
def Draws {α : Type} (act : Draw α) (P : α → Prop) : Prop :=
  ∀ s, Ensures act s (· = .drawNeverEnds) fun a _ => P a

section

variable {α β : Type} {act : Draw α} {P : α → Prop} {Q : β → Prop}

theorem Draws.pure {a : α} (h : P a) : Draws (pure a) P := fun _ => h

theorem Draws.bind {k : α → Draw β} (h : Draws act P) (hk : ∀ a, P a → Draws (k a) Q) :
    Draws (act >>= k) Q :=
  fun s => (h s).bind fun a s' ha => hk a ha s'

theorem Draws.mono {P' : α → Prop} (h : Draws act P) (hP : ∀ a, P a → P' a) : Draws act P' :=
  fun s => (h s).mono fun a _ ha => hP a ha

theorem Draws.map {f : α → β} (h : Draws act P) (hf : ∀ a, P a → Q (f a)) :
    Draws (f <$> act) Q :=
  fun s => (h s).map fun a _ ha => hf a ha

theorem draws_mapM (xs : List β) {f : β → Draw α} (h : ∀ x ∈ xs, Draws (f x) P) :
    Draws (xs.mapM f) fun ys => ys.length = xs.length ∧ ∀ y ∈ ys, P y :=
  fun _ => (ensures_mapM (I := fun _ => True) trivial fun x hx s _ =>
    (h x hx s).mono fun _ _ ha => ⟨ha, trivial⟩).mono fun _ _ hys => hys.1

end

namespace Stream

/-! ## §2 Words -/

theorem word_draws : Draws word (· < 2 ^ 32) := by
  rintro ⟨source, ready, n⟩
  cases ready with
  | cons w rest => exact w.toNat_lt
  | nil =>
    unfold Ensures word
    dsimp only
    cases source.block n with
    | nil => rfl
    | cons w rest => exact w.toNat_lt

theorem words_draws (n : Nat) : Draws (words n) (· < 2 ^ (32 * n)) := by
  induction n with
  | zero => exact .pure (by simp)
  | succ n ih =>
    refine word_draws.bind fun low hlow => ?_
    refine ih.bind fun high hhigh => .pure ?_
    -- The new word fills the lowest 32 bits.
    calc low + high <<< 32 = low + high * 2 ^ 32 := by rw [Nat.shiftLeft_eq]
      _ < 2 ^ 32 + high * 2 ^ 32 := Nat.add_lt_add_right hlow _
      _ = (high + 1) * 2 ^ 32 := by rw [Nat.succ_mul, Nat.add_comm]
      _ ≤ 2 ^ (32 * n) * 2 ^ 32 := Nat.mul_le_mul_right _ hhigh
      _ = 2 ^ (32 * (n + 1)) := by rw [← Nat.pow_add, Nat.mul_succ]

/-- Every block of the stream has words. -/
def Endless (s : Stream) : Prop := ∀ n, s.source.block n ≠ []

/-- A stream that is expanded from a seed never ends. -/
theorem endless_of_cipher {s : Stream} {key : ChaCha.Key} (h : s.source = .cipher key) :
    s.Endless := by
  intro n hnil
  have hlength : (s.source.block n).length = 16 := by
    rw [h]
    exact Vector.length_toList
  rw [hnil] at hlength
  cases hlength

theorem Endless.word_ensures {s : Stream} (h : s.Endless) :
    Ensures word s (fun _ => False) fun _ s' => s'.Endless := by
  obtain ⟨source, ready, n⟩ := s
  cases ready with
  | cons w rest => exact h
  | nil =>
    unfold Ensures word
    dsimp only
    cases hblock : source.block n with
    | nil => exact h n hblock
    | cons w rest => exact h

theorem Endless.words_ensures {s : Stream} (h : s.Endless) (n : Nat) :
    Ensures (words n) s (fun _ => False) fun _ s' => s'.Endless := by
  induction n generalizing s with
  | zero => exact .pure h
  | succ n ih =>
    exact h.word_ensures.bind fun _ s₁ h₁ => (ih h₁).bind fun _ s₂ h₂ => .pure h₂

/-! ## §3 Rejection -/

section

variable {α : Type} {attempt : Draw (Option α)} {P : α → Prop}

theorem tryUpTo_draws (h : Draws attempt fun found => ∀ a, found = some a → P a) (fuel : Nat) :
    Draws (tryUpTo attempt fuel) P := by
  induction fuel with
  | zero => exact fun s => rfl
  | succ fuel ih =>
    refine h.bind fun found hfound => ?_
    cases found with
    | some a => exact .pure (hfound a rfl)
    | none => exact ih

/-- What is drawn by rejection has the property of what is accepted. -/
theorem retry_draws (h : Draws attempt fun found => ∀ a, found = some a → P a) :
    Draws (retry attempt) P :=
  fun s => tryUpTo_draws h _ s

end

theorem below_draws {bound : Nat} (hbound : bound ≠ 0) : Draws (below bound) (· < bound) := by
  unfold below
  rw [if_neg hbound]
  refine retry_draws ((words_draws _).bind fun low _ => ?_)
  have haccept (high : Nat) : Draws (pure (if low + high <<< (32 * (BitSort.bitLength bound / 32)) <
      bound then some (low + high <<< (32 * (BitSort.bitLength bound / 32))) else none))
      fun found => ∀ a, found = some a → a < bound := by
    refine .pure fun a ha => ?_
    split at ha
    · rename_i hlt
      cases ha
      exact hlt
    · cases ha
  -- The bits above the last whole word come from one more word, if there are any.
  dsimp only
  split
  · exact haccept 0
  · exact (word_draws.map (Q := fun _ => True) fun _ _ => trivial).bind fun high _ => haccept high

/-- The high half of the product of a word and a range lies in the range. -/
theorem range_draws {bits n : Nat} {draw : Draw Nat} (hn : n ≠ 0)
    (hdraw : Draws draw (· < 2 ^ bits)) : Draws (range bits draw n) (· < n) := by
  unfold range
  rw [if_neg hn]
  refine retry_draws (hdraw.bind fun v hv => .pure fun a ha => ?_)
  split at ha
  · cases ha
    rw [Nat.shiftRight_eq_div_pow, Nat.div_lt_iff_lt_mul (Nat.two_pow_pos bits), Nat.mul_comm n]
    exact Nat.mul_lt_mul_of_pos_right hv (Nat.pos_of_ne_zero hn)
  · cases ha

theorem range_ends {bits n : Nat} {draw : Draw Nat} (hdraw : Draws draw (· < 2 ^ bits)) :
    Draws (range bits draw n) fun _ => True := by
  by_cases hn : n = 0
  · unfold range
    rw [if_pos hn]
    exact hdraw.mono fun _ _ => trivial
  · exact (range_draws hn hdraw).mono fun _ _ => trivial

/-- A position below a positive total is one of those below it. -/
theorem position_draws {total : Nat} (h : total ≠ 0) : Draws (Dice.position total) (· < total) := by
  show Draws (if total = 0 then throw .nothingStored else range 128 word128 total) _
  rw [if_neg h]
  exact range_draws h (words_draws 4)

theorem between_draws {lo hi : Int} (h : lo ≤ hi) : Draws (between lo hi) fun _ => True := by
  unfold between
  rw [if_neg (by omega)]
  exact (range_ends (words_draws 4)).bind fun _ _ => .pure trivial

/-- A draw between two bounds of 128 bits stays between them. -/
theorem between_within {lo hi : Int} (h : lo ≤ hi) (hlo : -2 ^ 127 ≤ lo) (hhi : hi < 2 ^ 127) :
    Draws (between lo hi) fun n => lo ≤ n ∧ n ≤ hi := by
  have hword : ((2 ^ 128 : Nat) : Int) = 2 ^ 128 := rfl
  have hhalf : (2 : Int) ^ 128 = 2 * 2 ^ 127 := rfl
  -- All 128-bit numbers together are one more than a word can count, and stand as zero.
  have hoffset : Draws (range 128 word128 (BitVec.ofInt 128 (hi - lo + 1)).toNat)
      fun offset => (offset : Int) < hi - lo + 1 := by
    rcases eq_or_ne (hi - lo + 1) (2 ^ 128) with hall | hsome
    · have hzero : (BitVec.ofInt 128 (2 ^ 128)).toNat = 0 := rfl
      rw [hall, hzero]
      exact (words_draws 4).mono fun v hv => by
        rw [← hword]
        exact Int.ofNat_lt.mpr hv
    · have hcount : (BitVec.ofInt 128 (hi - lo + 1)).toNat = (hi - lo + 1).toNat := by
        rw [BitVec.toNat_ofInt, hword, Int.emod_eq_of_lt (by omega) (by omega)]
      rw [hcount]
      exact (range_draws (by omega) (words_draws 4)).mono fun v hv => by omega
  unfold between
  rw [if_neg (by omega)]
  refine hoffset.bind fun offset hlt => .pure ?_
  have hread : (BitVec.ofInt 128 (lo + offset)).toInt = lo + offset := by
    rw [BitVec.toInt_ofInt, Int.bmod_eq_of_le] <;> omega
  rw [hread]
  omega

theorem chance_draws (p : Float) : Draws (chance p) fun _ => True := by
  unfold chance
  split
  · exact .pure trivial
  · exact (words_draws 2).bind fun _ _ => .pure trivial

/-! ## §4 Shuffling -/

theorem swapIfInBounds_perm {α : Type} (xs : Array α) (i j : Nat) :
    (xs.swapIfInBounds i j).toList.Perm xs.toList := by
  unfold Array.swapIfInBounds
  split
  · split
    · exact (Array.swap_perm _ _).toList
    · exact .refl _
  · exact .refl _

theorem shuffleUpTo_draws {α : Type} (xs : Array α) (i : Nat) :
    Draws (shuffleUpTo xs i) fun ys => ys.toList.Perm xs.toList := by
  induction i generalizing xs with
  | zero => exact .pure (.refl _)
  | succ i ih =>
    refine (range_ends word_draws).bind fun j _ => ?_
    exact (ih _).mono fun ys hys => hys.trans (swapIfInBounds_perm xs _ _)

/-- A shuffle answers the same things in another order. -/
theorem shuffle_draws {α : Type} (xs : Array α) :
    Draws (shuffle xs) fun ys => ys.toList.Perm xs.toList :=
  shuffleUpTo_draws xs _

end Stream

end Stimulus
