import Mathlib.Probability.Distributions.Uniform
import Stimulus.Random.Dice

/-!
# Laws of random draws

A computation with random draws has a law: how likely each of its answers and faults is, if the
draws are fair and independent of each other.  A draw below a bound is uniform then, and a coin is
fair.

Main definitions:
- `Law`: computations as laws of what they answer
- `Law.Always`: a property of everything that is answered, without a fault
- `Law.chance`: the probability of an answer with a property

Main statements:
- `Law.chance_uniform_bind`: a uniform draw takes the mean of the chances that follow it
-/

namespace Stimulus

open scoped ENNReal

/-! ## §1 Fair draws -/

/-- Computations with random draws, as laws of what they answer. -/
abbrev Law : Type → Type := ExceptT Fault PMF

namespace Law

/-- One of some elements, all of them as likely; without elements there is nothing to draw. -/
noncomputable def uniform {α : Type} (s : Finset α) : Law α :=
  if hs : s.Nonempty then ExceptT.lift (PMF.uniformOfFinset s hs) else throw .nothingStored

noncomputable instance : Dice Law where
  coin := uniform {false, true}
  below bound := uniform (Finset.range bound)
  position total := uniform (Finset.range total)
  between lo hi := uniform (Finset.Icc lo hi)
  word := uniform (Finset.range (2 ^ 64))
  chance p :=
    if p == 1.0 then pure true
    else do
      return decide ((← uniform (Finset.range (2 ^ 64))) <
        (p * 18446744073709551616.0).toUInt64.toNat)

/-! ## §2 What is always answered -/

/-- No fault is possible, and every possible answer has a property. -/
def Always {α : Type} (act : Law α) (P : α → Prop) : Prop :=
  ∀ o ∈ act.run.support, ∃ a, o = .ok a ∧ P a

/-- The probability of an answer with a property. -/
noncomputable def chance {α : Type} (act : Law α) (P : α → Prop) : ℝ≥0∞ :=
  act.run.toOuterMeasure {o | ∃ a, o = .ok a ∧ P a}

section

variable {α β : Type} {act : Law α} {k : α → Law β} {s : Finset α} {P : α → Prop} {Q : β → Prop}

theorem Always.pure {a : α} (h : P a) : Always (pure a) P := by
  intro o ho
  exact ⟨a, (PMF.mem_support_pure_iff _ _).mp ho, h⟩

theorem Always.bind (h : act.Always P) (hk : ∀ a, P a → (k a).Always Q) :
    Always (act >>= k) Q := by
  intro o ho
  obtain ⟨x, hx, ho⟩ := (PMF.mem_support_bind_iff _ _ _).mp ho
  obtain ⟨a, rfl, ha⟩ := h x hx
  exact hk a ha o ho

theorem uniform_always (hs : s.Nonempty) : (uniform s).Always (· ∈ s) := by
  intro o ho
  rw [uniform, dif_pos hs] at ho
  obtain ⟨a, ha, ho⟩ := (PMF.mem_support_bind_iff _ _ _).mp ho
  exact ⟨a, (PMF.mem_support_pure_iff _ _).mp ho, (PMF.mem_support_uniformOfFinset_iff hs a).mp ha⟩

theorem coin_always : Always (Dice.coin : Law Bool) fun _ => True :=
  fun o ho => (uniform_always (Finset.insert_nonempty _ _) o ho).imp fun _ h => ⟨h.1, trivial⟩

theorem below_always {n : Nat} (h : n ≠ 0) : Always (Dice.below n : Law Nat) (· < n) :=
  fun o ho => (uniform_always (Finset.nonempty_range_iff.mpr h) o ho).imp fun _ h =>
    ⟨h.1, Finset.mem_range.mp h.2⟩

/-! ## §3 Chances -/

/-- What is always answered has all the chances there are. -/
theorem Always.chance_eq_one (h : act.Always P) : act.chance P = 1 :=
  (PMF.toOuterMeasure_apply_eq_one_iff _ _).mpr h

/-- What is never answered has no chance. -/
theorem Always.chance_eq_zero {R : α → Prop} (h : act.Always P) (hR : ∀ a, P a → ¬ R a) :
    act.chance R = 0 := by
  refine (PMF.toOuterMeasure_apply_eq_zero_iff _ _).mpr (Set.disjoint_left.mpr ?_)
  rintro o ho ⟨a, rfl, ha⟩
  obtain ⟨b, hb, hP⟩ := h _ ho
  cases hb
  exact hR a hP ha

/-- The chance of the one answer of a computation that draws nothing. -/
theorem chance_pure [DecidablePred P] (a : α) :
    chance (pure a) P = if P a then 1 else 0 := by
  split
  · rename_i h
    exact (Always.pure h).chance_eq_one
  · rename_i h
    exact (Always.pure (P := (· = a)) rfl).chance_eq_zero fun b hb hP => h (hb ▸ hP)

/-- A function of the answer has a property as often as the answer leads to it. -/
theorem chance_bind_pure (f : α → β) : chance (act >>= fun a => pure (f a)) Q =
    act.chance fun a => Q (f a) := by
  have hmap : (act >>= fun a => pure (f a)).run = act.run.map (Except.map f) := by
    refine congrArg act.run.bind (funext fun o => ?_)
    cases o <;> rfl
  unfold chance
  rw [hmap, PMF.toOuterMeasure_map_apply]
  congr 1
  ext o
  cases o <;> simp [Except.map]

/-- A uniform draw takes the mean of the chances that follow it. -/
theorem chance_uniform_bind (hs : s.Nonempty) (k : α → Law β) :
    chance (uniform s >>= k) Q = (s.card : ℝ≥0∞)⁻¹ * ∑ a ∈ s, (k a).chance Q := by
  have hbind : (uniform s >>= k).run =
      (PMF.uniformOfFinset s hs).bind fun a => (k a).run := by
    rw [uniform, dif_pos hs]
    exact ExceptT.run_bind_lift _ k
  unfold chance
  rw [hbind, PMF.toOuterMeasure_bind_apply, tsum_eq_sum (s := s), Finset.mul_sum]
  · refine Finset.sum_congr rfl fun a ha => ?_
    rw [PMF.uniformOfFinset_apply_of_mem hs ha]
  · intro a ha
    rw [PMF.uniformOfFinset_apply_of_notMem hs ha, zero_mul]

/-- A coin falls on either side with the same chance. -/
theorem chance_coin_bind (k : Bool → Law β) : chance (Dice.coin >>= k) Q =
    (2 : ℝ≥0∞)⁻¹ * ((k false).chance Q + (k true).chance Q) := by
  refine (chance_uniform_bind (Finset.insert_nonempty _ _) k).trans ?_
  rw [Finset.sum_pair Bool.false_ne_true, Finset.card_pair Bool.false_ne_true, Nat.cast_ofNat]

/-- A number below a sum decides between two branches in the proportion of the summands. -/
theorem chance_below_bind {m n : Nat} (h : 0 < m + n) (k : Bool → Law β) :
    chance (Dice.below (m + n) >>= fun r => k (decide (m ≤ r))) Q =
      ((m + n : Nat) : ℝ≥0∞)⁻¹ * (m * (k false).chance Q + n * (k true).chance Q) := by
  refine (chance_uniform_bind (Finset.nonempty_range_iff.mpr h.ne') _).trans ?_
  have hlow : ∀ r ∈ Finset.range m,
      (k (decide (m ≤ r))).chance Q = (k false).chance Q := fun r hr => by
    rw [decide_eq_false (Nat.not_le.mpr (Finset.mem_range.mp hr))]
  have hhigh : ∀ r ∈ Finset.range n,
      (k (decide (m ≤ m + r))).chance Q = (k true).chance Q := fun r _ => by
    rw [decide_eq_true (Nat.le_add_right m r)]
  rw [Finset.card_range, Finset.sum_range_add, Finset.sum_congr rfl hlow,
    Finset.sum_congr rfl hhigh, Finset.sum_const, Finset.sum_const, Finset.card_range,
    Finset.card_range, nsmul_eq_mul, nsmul_eq_mul]

end

end Law

end Stimulus
