import Mathlib.Algebra.GroupWithZero.Nat
import Stimulus.Distribution
import Stimulus.Proofs.Random.Dice

/-!
# Drawing from distributions

The weights of the ranges of a distribution add up to its total, so every position below the total
falls in one of the ranges, and a draw has an answer.

Main definitions:
- `Distribution.Reached`: the distributions that can be built
- `Distribution.Lawful`

Main statements:
- `Distribution.Reached.draw_draws`
-/

namespace Stimulus

namespace Distribution

/-- The distributions that are built from an empty one or from a probability. -/
inductive Reached : Distribution → Prop where
  | empty (type : ScalarType) : Reached (empty type)
  | bernoulli {p : Float} {d : Distribution} (h : bernoulli p = .ok d) : Reached d
  | weightedRange {d d' : Distribution} {lo hi : Int} {weight : Nat} (hd : Reached d)
      (h : d.weightedRange lo hi weight = .ok d') : Reached d'

/-- The ranges are not empty, their weights are positive and add up to the total. -/
structure Lawful (d : Distribution) : Prop where
  nonempty : ∀ r ∈ d.ranges, r.lo ≤ r.hi
  positive : ∀ r ∈ d.ranges, 0 < r.weight
  total : (d.ranges.map WeightedRange.weight).sum = d.total

theorem Reached.lawful {d : Distribution} (h : d.Reached) : d.Lawful := by
  induction h with
  | empty type => exact ⟨by simp [Distribution.empty], by simp [Distribution.empty], rfl⟩
  | bernoulli h =>
    unfold Distribution.bernoulli at h
    split at h
    · cases h
      exact ⟨by simp, by simp, rfl⟩
    · cases h
  | @weightedRange d d' lo hi weight hd h ih =>
    -- A range that is refused makes no distribution, so every guard was passed.
    unfold Distribution.weightedRange at h
    dsimp only at h
    split at h
    · cases h
    split at h
    · cases h
    split at h
    · cases h
    split at h
    · cases h
    cases h
    refine ⟨List.forall_mem_append.mpr ⟨ih.nonempty, ?_⟩,
      List.forall_mem_append.mpr ⟨ih.positive, ?_⟩, ?_⟩
    · simpa using Int.not_lt.mp ‹_›
    · simpa using Nat.pos_of_ne_zero ‹_›
    · simp [ih.total]

/-- Every position below the sum of the weights falls in a range. -/
theorem rangeAt?_eq_some {position : Nat} {ranges : List WeightedRange}
    (h : position < (ranges.map WeightedRange.weight).sum) :
    ∃ r ∈ ranges, rangeAt? position ranges = some r := by
  induction ranges generalizing position with
  | nil => exact absurd h (Nat.not_lt_zero position)
  | cons r rest ih =>
    rw [rangeAt?]
    split
    · exact ⟨r, List.mem_cons_self, rfl⟩
    · rw [List.map_cons, List.sum_cons] at h
      have hlt : position - r.weight < (rest.map WeightedRange.weight).sum := by omega
      obtain ⟨r', hmem, hr'⟩ := ih hlt
      exact ⟨r', List.mem_cons_of_mem r hmem, hr'⟩

theorem Lawful.total_ne_zero {d : Distribution} (h : d.Lawful) (hne : d.ranges ≠ []) :
    d.total ≠ 0 := by
  obtain ⟨r, rest, hranges⟩ := List.exists_cons_of_ne_nil hne
  have hpos := h.positive r (by rw [hranges]; exact List.mem_cons_self)
  rw [← h.total, hranges, List.map_cons, List.sum_cons]
  omega

/-- A draw from a distribution has an answer unless the words never let it end. -/
theorem Lawful.draw_draws {d : Distribution} (h : d.Lawful) :
    Draws (d.draw : Draw Int) fun _ => True := by
  unfold draw
  cases hp : d.probability with
  | some p => exact (Stream.chance_draws p).bind fun _ _ => .pure trivial
  | none =>
    dsimp only
    split
    · exact (Stream.words_draws 2).bind fun _ _ => .pure trivial
    · rename_i hne
      have htotal := h.total_ne_zero (by simpa using hne)
      refine (Stream.position_draws htotal).bind fun position hlt => ?_
      obtain ⟨r, hmem, hr⟩ := rangeAt?_eq_some (h.total.symm ▸ hlt)
      rw [hr]
      exact (Stream.between_draws (h.nonempty r hmem)).bind fun _ _ => .pure trivial

end Distribution

end Stimulus
