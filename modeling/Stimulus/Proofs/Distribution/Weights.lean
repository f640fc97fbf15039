import Mathlib.Data.Int.Interval
import Stimulus.Proofs.Distribution
import Stimulus.Proofs.Random.Law

/-!
# Weighted ranges

A distribution is built by calls that add ranges, and every further range is tested against those
that are there.  So the ranges are disjoint, and a position below the total of their weights picks
exactly one of them.  The numbers of a range share its weight evenly, and each of them is a number
of the type that is drawn for.

Main definitions:
- `WeightedRange.values`, `WeightedRange.share`
- `Distribution.Addition`, `Distribution.Built`: calls, and what successful calls build
- `Distribution.Accepts`, `Distribution.Rejects`: the answers to a further range
- `Distribution.Weighed`

Main statements:
- `Distribution.Lawful.apply_iff`
- `Distribution.Weighed.card_positions`, `Distribution.Weighed.chance_draw`
- `Distribution.law_of_built`
-/

namespace Stimulus

open scoped ENNReal

/-! ## §1 Numbers and ranges -/

namespace ScalarType

variable {t : ScalarType} {n : Int}

/-- The numbers of a type are numbers of 64 bits, with a sign or without one. -/
theorem Contains.word (h : t.Contains n) : -2 ^ 63 ≤ n ∧ n < 2 ^ 64 := by
  obtain ⟨hle, hge⟩ := h
  have hleast : -2 ^ 63 ≤ t.least := by
    cases t with
    | bool => decide
    | int size signed => cases signed <;> cases size <;> decide
  have hgreatest : t.greatest < 2 ^ 64 := by
    cases t with
    | bool => decide
    | int size signed => cases signed <;> cases size <;> decide
  exact ⟨hleast.trans hle, hge.trans_lt hgreatest⟩

/-- The numbers of a type are converted to themselves. -/
theorem Contains.ofNumber_eq (h : t.Contains n) : t.ofNumber n = n := by
  obtain ⟨hle, hge⟩ := h
  cases t with
  | bool =>
    -- A flag is read as one or zero, which is what it holds.
    have hbit : 0 ≤ n ∧ n ≤ 1 := ⟨hle, hge⟩
    show (if n = 0 then 0 else 1) = n
    split <;> omega
  | int size signed =>
    cases signed with
    | false =>
      have hcount : (greatest (.int size false)) < ((2 ^ size.width : Nat) : Int) := by
        cases size <;> decide
      show ((BitVec.ofInt size.width n).toNat : Int) = n
      rw [BitVec.toNat_ofInt, Int.emod_eq_of_lt hle (hge.trans_lt hcount), Int.toNat_of_nonneg hle]
    | true =>
      -- Signed numbers are balanced remainders, hence kept between the bounds.
      have hleast : -((2 ^ size.width : Nat) : Int) ≤ least (.int size true) * 2 := by
        cases size <;> decide
      have hgreatest : greatest (.int size true) * 2 < ((2 ^ size.width : Nat) : Int) := by
        cases size <;> decide
      show (BitVec.ofInt size.width n).toInt = n
      rw [BitVec.toInt_ofInt]
      apply Int.bmod_eq_of_le_mul_two
      · omega
      · omega

end ScalarType

namespace WeightedRange

/-- The numbers of a range. -/
noncomputable def values (r : WeightedRange) : Finset Int := Finset.Icc r.lo r.hi

/-- The chance of a number in a fair draw from a range. -/
noncomputable def share (r : WeightedRange) (n : Int) : ℝ≥0∞ :=
  if n ∈ r.values then (r.values.card : ℝ≥0∞)⁻¹ else 0

variable {r s : WeightedRange} {n : Int}

theorem mem_values : n ∈ r.values ↔ r.lo ≤ n ∧ n ≤ r.hi := Finset.mem_Icc

theorem card_values (r : WeightedRange) : r.values.card = (r.hi - r.lo + 1).toNat := by
  rw [values, Int.card_Icc]
  congr 1
  omega

/-- Ranges that hold numbers overlap exactly if they have one in common. -/
theorem overlaps_eq_false_iff (hr : r.lo ≤ r.hi) (hs : s.lo ≤ s.hi) :
    r.overlaps s = false ↔ Disjoint r.values s.values := by
  rw [overlaps, Bool.and_eq_false_iff, decide_eq_false_iff_not, decide_eq_false_iff_not]
  constructor
  · intro hapart
    refine Finset.disjoint_left.mpr fun n hnr hns => ?_
    rw [mem_values] at hnr hns
    omega
  · -- The greater of the two lower bounds would lie in both ranges.
    intro hdisjoint
    by_contra hover
    have hmem : max r.lo s.lo ∈ r.values → max r.lo s.lo ∉ s.values :=
      fun h => Finset.disjoint_left.mp hdisjoint h
    rw [mem_values, mem_values] at hmem
    omega

end WeightedRange

namespace Distribution

/-! ## §2 Building -/

/-- A call that adds a range to a distribution. -/
inductive Addition where
  | range (lo hi : Int)
  | weightedRange (lo hi : Int) (weight : Nat)
  | value (n : Int)
  | weightedValue (n : Int) (weight : Nat)

namespace Addition

/-- The range that a call asks for. -/
def asked : Addition → WeightedRange
  | .range lo hi => ⟨lo, hi, (hi - lo + 1).toNat⟩
  | .weightedRange lo hi weight => ⟨lo, hi, weight⟩
  | .value n => ⟨n, n, 1⟩
  | .weightedValue n weight => ⟨n, n, weight⟩

/-- What a distribution answers to a call. -/
def apply (d : Distribution) : Addition → Except Refusal Distribution
  | .range lo hi => d.range lo hi
  | .weightedRange lo hi weight => d.weightedRange lo hi weight
  | .value n => d.value n
  | .weightedValue n weight => d.weightedValue n weight

/-- The call names no weight. -/
def Plain : Addition → Prop
  | .range _ _ | .value _ => True
  | .weightedRange _ _ _ | .weightedValue _ _ => False

/-- The bounds of the range are numbers of the type. -/
def Typed (t : ScalarType) (a : Addition) : Prop :=
  t.Contains a.asked.lo ∧ t.Contains a.asked.hi

theorem apply_eq (a : Addition) (d : Distribution) :
    a.apply d = d.weightedRange a.asked.lo a.asked.hi a.asked.weight := by
  cases a <;> rfl

/-- A range that is added without a weight weighs as much as it has numbers. -/
theorem Plain.weight_eq {a : Addition} (h : a.Plain) : a.asked.weight = a.asked.values.card := by
  rw [WeightedRange.card_values]
  cases a with
  | range lo hi => rfl
  | value n =>
    show 1 = (n - n + 1).toNat
    omega
  | weightedRange lo hi weight => exact h.elim
  | weightedValue n weight => exact h.elim

end Addition

/-- The distributions of a type that are built by successful calls, with these calls. -/
inductive Built (t : ScalarType) : List Addition → Distribution → Prop where
  | empty : Built t [] (empty t)
  | add {calls : List Addition} {d d' : Distribution} {a : Addition} (hd : Built t calls d)
      (ha : a.Typed t) (h : a.apply d = .ok d') : Built t (calls ++ [a]) d'

/-- Nothing stands against a further range. -/
structure Accepts (d : Distribution) (r : WeightedRange) : Prop where
  nonempty : r.lo ≤ r.hi
  apart : ∀ s ∈ d.ranges, Disjoint s.values r.values
  positive : 0 < r.weight
  fits : d.total + r.weight < 2 ^ 128

/-- Why a further range is refused; every reason is given only if those before it do not apply. -/
inductive Rejects (d : Distribution) (r : WeightedRange) : Refusal → Prop where
  | emptyRange (h : r.hi < r.lo) : Rejects d r (.emptyRange r.lo r.hi)
  | overlappingRange (h : r.lo ≤ r.hi) {s : WeightedRange} (hs : s ∈ d.ranges)
      (hover : ¬ Disjoint s.values r.values) : Rejects d r .overlappingRange
  | zeroWeight (h : r.lo ≤ r.hi) (hapart : ∀ s ∈ d.ranges, Disjoint s.values r.values)
      (hweight : r.weight = 0) : Rejects d r .zeroWeight
  | weightOverflow (h : r.lo ≤ r.hi) (hapart : ∀ s ∈ d.ranges, Disjoint s.values r.values)
      (hweight : 0 < r.weight) (hsum : 2 ^ 128 ≤ d.total + r.weight) :
      Rejects d r .weightOverflow

/-- The ranges are disjoint and within the type, and the total of their weights fits into 128 bits.
    No probability replaces them. -/
structure Weighed (d : Distribution) : Prop extends d.Lawful where
  disjoint : d.ranges.Pairwise fun r s => Disjoint r.values s.values
  typed : ∀ r ∈ d.ranges, d.type.Contains r.lo ∧ d.type.Contains r.hi
  total_lt : d.total < 2 ^ 128
  probability : d.probability = none

section

variable {d d' : Distribution} {r : WeightedRange} {t : ScalarType} {calls : List Addition}

/-- Every range is accepted, or there is a reason against it. -/
theorem accepts_or_rejects (d : Distribution) (r : WeightedRange) :
    d.Accepts r ∨ ∃ refusal, d.Rejects r refusal := by
  by_cases hnonempty : r.lo ≤ r.hi
  · by_cases hapart : ∀ s ∈ d.ranges, Disjoint s.values r.values
    · rcases Nat.eq_zero_or_pos r.weight with hzero | hpositive
      · exact .inr ⟨_, .zeroWeight hnonempty hapart hzero⟩
      · rcases Nat.lt_or_ge (d.total + r.weight) (2 ^ 128) with hfits | hsum
        · exact .inl ⟨hnonempty, hapart, hpositive, hfits⟩
        · exact .inr ⟨_, .weightOverflow hnonempty hapart hpositive hsum⟩
    · push Not at hapart
      obtain ⟨s, hs, hover⟩ := hapart
      exact .inr ⟨_, .overlappingRange hnonempty hs hover⟩
  · exact .inr ⟨_, .emptyRange (Int.not_le.mp hnonempty)⟩

/-- The test for overlaps finds a range that has a number in common with the further one. -/
theorem Lawful.any_overlaps_iff (hd : d.Lawful) (hr : r.lo ≤ r.hi) :
    d.ranges.any (·.overlaps r) = true ↔ ∃ s ∈ d.ranges, ¬ Disjoint s.values r.values := by
  rw [List.any_eq_true]
  refine exists_congr fun s => and_congr_right fun hs => ?_
  rw [← WeightedRange.overlaps_eq_false_iff (hd.nonempty s hs) hr, Bool.not_eq_false]

theorem Lawful.any_overlaps_eq_false (hd : d.Lawful) (hr : r.lo ≤ r.hi)
    (hapart : ∀ s ∈ d.ranges, Disjoint s.values r.values) :
    ¬ d.ranges.any (·.overlaps r) = true := by
  rw [hd.any_overlaps_iff hr]
  rintro ⟨s, hs, hover⟩
  exact hover (hapart s hs)

theorem Accepts.weightedRange_eq (h : d.Accepts r) (hd : d.Lawful) :
    d.weightedRange r.lo r.hi r.weight =
      .ok { d with ranges := d.ranges ++ [r], total := d.total + r.weight } := by
  have hlimit : ¬ weightLimit ≤ d.total + r.weight := Nat.not_le.mpr h.fits
  unfold weightedRange
  dsimp only
  rw [if_neg (Int.not_lt.mpr h.nonempty), if_neg (hd.any_overlaps_eq_false h.nonempty h.apart),
    if_neg h.positive.ne', if_neg hlimit]

theorem Rejects.weightedRange_eq {refusal : Refusal} (h : d.Rejects r refusal) (hd : d.Lawful) :
    d.weightedRange r.lo r.hi r.weight = .error refusal := by
  unfold weightedRange
  dsimp only
  cases h with
  | emptyRange h => rw [if_pos h]
  | overlappingRange h hs hover =>
    rw [if_neg (Int.not_lt.mpr h), if_pos ((hd.any_overlaps_iff h).mpr ⟨_, hs, hover⟩)]
  | zeroWeight h hapart hweight =>
    rw [if_neg (Int.not_lt.mpr h), if_neg (hd.any_overlaps_eq_false h hapart), if_pos hweight]
  | weightOverflow h hapart hweight hsum =>
    rw [if_neg (Int.not_lt.mpr h), if_neg (hd.any_overlaps_eq_false h hapart),
      if_neg hweight.ne', if_pos (show weightLimit ≤ _ from hsum)]

/-- A call is refused for the reason that applies, and is successful if none does. -/
theorem Lawful.apply_iff (hd : d.Lawful) (a : Addition) :
    (∀ refusal, a.apply d = .error refusal ↔ d.Rejects a.asked refusal) ∧
      ∀ d', a.apply d = .ok d' ↔ d.Accepts a.asked ∧
        d' = { d with ranges := d.ranges ++ [a.asked], total := d.total + a.asked.weight } := by
  -- A call is accepted or there is one refusal, and both say what it answers.
  rw [a.apply_eq d]
  rcases d.accepts_or_rejects a.asked with haccepts | ⟨refusal, hrejects⟩
  · rw [haccepts.weightedRange_eq hd]
    refine ⟨fun refusal => ⟨nofun, fun hrejects => ?_⟩, fun d' => ⟨fun h => ?_, fun h => ?_⟩⟩
    · cases (haccepts.weightedRange_eq hd).symm.trans (hrejects.weightedRange_eq hd)
    · cases h
      exact ⟨haccepts, rfl⟩
    · rw [h.2]
  · rw [hrejects.weightedRange_eq hd]
    refine ⟨fun refusal' => ⟨fun h => ?_, fun h => ?_⟩, fun d' => ⟨nofun, fun h => ?_⟩⟩
    · cases h
      exact hrejects
    · exact (hrejects.weightedRange_eq hd).symm.trans (h.weightedRange_eq hd)
    · cases (hrejects.weightedRange_eq hd).symm.trans (h.1.weightedRange_eq hd)

/-- A range that is accepted keeps what is known of the ranges. -/
theorem Weighed.add (hd : d.Weighed) (h : d.Accepts r)
    (hr : d.type.Contains r.lo ∧ d.type.Contains r.hi) :
    Weighed { d with ranges := d.ranges ++ [r], total := d.total + r.weight } where
  nonempty := List.forall_mem_append.mpr ⟨hd.nonempty, List.forall_mem_singleton.mpr h.nonempty⟩
  positive := List.forall_mem_append.mpr ⟨hd.positive, List.forall_mem_singleton.mpr h.positive⟩
  total := by
    rw [List.map_append, List.sum_append, hd.total, List.map_singleton, List.sum_singleton]
  disjoint := List.pairwise_append.mpr ⟨hd.disjoint, List.pairwise_singleton _ _,
    fun s hs r' hr' => List.mem_singleton.mp hr' ▸ h.apart s hs⟩
  typed := List.forall_mem_append.mpr ⟨hd.typed, List.forall_mem_singleton.mpr hr⟩
  total_lt := h.fits
  probability := hd.probability

/-- What successful calls build: the ranges are those that were asked for, in the order of the
    calls. -/
theorem Built.weighed (h : Built t calls d) :
    d.Weighed ∧ d.type = t ∧ d.ranges = calls.map Addition.asked := by
  induction h with
  | empty => exact ⟨⟨⟨nofun, nofun, rfl⟩, .nil, nofun, Nat.two_pow_pos 128, rfl⟩, rfl, rfl⟩
  | @add calls d d' a hd ha happly ih =>
    obtain ⟨hweighed, rfl, hranges⟩ := ih
    obtain ⟨haccepts, rfl⟩ := ((hweighed.apply_iff a).2 d').mp happly
    refine ⟨hweighed.add haccepts ha, rfl, ?_⟩
    rw [List.map_append, ← hranges, List.map_singleton]

/-! ## §3 Picking a range -/

/-- Positions below the sum of the weights, taken together by the range in which they fall. -/
theorem sum_rangeAt? {M : Type} [AddCommMonoid M] (f : Option WeightedRange → M)
    (ranges : List WeightedRange) :
    ∑ p ∈ Finset.range (ranges.map WeightedRange.weight).sum, f (rangeAt? p ranges) =
      (ranges.map fun r => r.weight • f (some r)).sum := by
  induction ranges with
  | nil => rfl
  | cons r rest ih =>
    have hfirst : ∀ p ∈ Finset.range r.weight, f (rangeAt? p (r :: rest)) = f (some r) :=
      fun p hp => by rw [rangeAt?, if_pos (Finset.mem_range.mp hp)]
    have hrest : ∀ p, f (rangeAt? (r.weight + p) (r :: rest)) = f (rangeAt? p rest) :=
      fun p => by rw [rangeAt?, if_neg (by omega), Nat.add_sub_cancel_left]
    rw [List.map_cons, List.sum_cons, Finset.sum_range_add, Finset.sum_congr rfl hfirst,
      Finset.sum_congr rfl fun p _ => hrest p, ih, List.map_cons, List.sum_cons,
      Finset.sum_const, Finset.card_range]

theorem Weighed.nodup (hd : d.Weighed) : d.ranges.Nodup := by
  refine hd.disjoint.imp_of_mem fun {r s} hr _ hdisjoint => ?_
  rintro rfl
  -- A range that is disjoint from itself holds no number.
  have hlo := WeightedRange.mem_values.mpr ⟨le_rfl, hd.nonempty r hr⟩
  exact Finset.disjoint_left.mp hdisjoint hlo hlo

theorem Weighed.disjoint_of_ne (hd : d.Weighed) {s : WeightedRange} (hr : r ∈ d.ranges)
    (hs : s ∈ d.ranges) (hne : r ≠ s) : Disjoint r.values s.values := by
  have : Std.Symm fun r s : WeightedRange => Disjoint r.values s.values := ⟨fun _ _ h => h.symm⟩
  exact hd.disjoint.forall hr hs hne

/-- A sum over the ranges to which only one of them contributes. -/
theorem Weighed.sum_eq_single (hd : d.Weighed) {M : Type} [AddCommMonoid M]
    {f : WeightedRange → M} (hr : r ∈ d.ranges) (hf : ∀ s ∈ d.ranges, s ≠ r → f s = 0) :
    (d.ranges.map f).sum = f r := by
  rw [List.sum_map_eq_nsmul_single r f fun s hne hs => hf s hs hne,
    List.count_eq_one_of_mem hd.nodup hr, one_nsmul]

/-- As many positions fall in a range as its weight says. -/
theorem Weighed.card_positions (hd : d.Weighed) (hr : r ∈ d.ranges) :
    {p ∈ Finset.range d.total | rangeAt? p d.ranges = some r}.card = r.weight := by
  rw [Finset.card_filter, ← hd.total, sum_rangeAt? fun found => if found = some r then 1 else 0,
    hd.sum_eq_single hr]
  · rw [if_pos rfl, smul_eq_mul, mul_one]
  · intro s _ hne
    rw [if_neg fun h => hne (Option.some.inj h), smul_zero]

/-! ## §4 Drawing -/

/-- Draw a number from the range in which a position falls. -/
def drawAt {m : Type → Type} [Monad m] [MonadExceptOf Fault m] [Dice m] (d : Distribution)
    (position : Nat) : m Int :=
  match rangeAt? position d.ranges with
  | some r => Dice.between r.lo r.hi >>= fun n => pure (d.type.ofNumber n)
  | none => throwThe Fault .nothingStored

/-- A draw picks a position, and then a number from the range in which the position falls. -/
theorem Weighed.draw_eq {m : Type → Type} [Monad m] [MonadExceptOf Fault m] [Dice m]
    (hd : d.Weighed) (hne : d.ranges ≠ []) :
    (d.draw : m Int) = Dice.position d.total >>= d.drawAt := by
  have hsome : ¬ d.ranges.isEmpty = true := by simpa using hne
  unfold draw
  rw [hd.probability]
  dsimp only
  rw [if_neg hsome]
  rfl

/-- The numbers of a range are numbers of the type. -/
theorem Weighed.ofNumber_eq (hd : d.Weighed) (hr : r ∈ d.ranges) {n : Int} (hn : n ∈ r.values) :
    d.type.ofNumber n = n := by
  obtain ⟨hlo, hhi⟩ := WeightedRange.mem_values.mp hn
  obtain ⟨hleast, hgreatest⟩ := hd.typed r hr
  exact ScalarType.Contains.ofNumber_eq ⟨hleast.1.trans hlo, hhi.trans hgreatest.2⟩

/-- Every position below the total falls in a range. -/
theorem Weighed.exists_rangeAt? (hd : d.Weighed) {position : Nat} (h : position < d.total) :
    ∃ r ∈ d.ranges, rangeAt? position d.ranges = some r :=
  rangeAt?_eq_some (hd.total.symm ▸ h)

/-- Whatever the words are, a number that is drawn lies in one of the ranges. -/
theorem Weighed.draw_within (hd : d.Weighed) (hne : d.ranges ≠ []) :
    Draws (d.draw : Draw Int) fun n => ∃ r ∈ d.ranges, n ∈ r.values := by
  rw [hd.draw_eq hne]
  refine (Stream.position_draws (hd.total_ne_zero hne)).bind fun position hlt => ?_
  obtain ⟨r, hr, hat⟩ := hd.exists_rangeAt? hlt
  obtain ⟨hlo, hhi⟩ := hd.typed r hr
  have hword := hlo.word.1
  have hword' := hhi.word.2
  have hwithin := Stream.between_within (hd.nonempty r hr) (by omega) (by omega)
  rw [drawAt, hat]
  refine hwithin.bind fun n hn => .pure ⟨r, hr, ?_⟩
  have hmem := WeightedRange.mem_values.mpr hn
  rwa [hd.ofNumber_eq hr hmem]

/-- With fair draws there is always an answer, and it lies in one of the ranges. -/
theorem Weighed.draw_always (hd : d.Weighed) (hne : d.ranges ≠ []) :
    Law.Always d.draw fun n => ∃ r ∈ d.ranges, n ∈ r.values := by
  rw [hd.draw_eq hne]
  have hpositions := Finset.nonempty_range_iff.mpr (hd.total_ne_zero hne)
  refine (Law.uniform_always hpositions).bind fun position hposition => ?_
  obtain ⟨r, hr, hat⟩ := hd.exists_rangeAt? (Finset.mem_range.mp hposition)
  rw [drawAt, hat]
  have hvalues : r.values.Nonempty :=
    ⟨r.lo, WeightedRange.mem_values.mpr ⟨le_rfl, hd.nonempty r hr⟩⟩
  refine (Law.uniform_always hvalues).bind fun n hn => .pure ⟨r, hr, ?_⟩
  rwa [hd.ofNumber_eq hr hn]

/-- A number is drawn from its range with the same chance as every other number of the range. -/
theorem Weighed.chance_drawAt (hd : d.Weighed) {position : Nat} (hr : r ∈ d.ranges)
    (hat : rangeAt? position d.ranges = some r) (n : Int) :
    Law.chance (d.drawAt position) (· = n) = r.share n := by
  have hvalues : r.values.Nonempty :=
    ⟨r.lo, WeightedRange.mem_values.mpr ⟨le_rfl, hd.nonempty r hr⟩⟩
  have hone : ∀ k ∈ r.values, Law.chance (pure (d.type.ofNumber k)) (· = n) =
      if k = n then 1 else 0 := by
    intro k hk
    rw [Law.chance_pure, hd.ofNumber_eq hr hk]
  rw [drawAt, hat]
  refine (Law.chance_uniform_bind hvalues _).trans ?_
  rw [Finset.sum_congr rfl hone, Finset.sum_ite_eq', mul_ite, mul_one, mul_zero,
    WeightedRange.share]

/-- A number of a range of weight `w` with `s` numbers is drawn with chance `w / (total * s)`. -/
theorem Weighed.chance_draw (hd : d.Weighed) (hr : r ∈ d.ranges) {n : Int} (hn : n ∈ r.values) :
    Law.chance d.draw (· = n) = r.weight / (d.total * r.values.card) := by
  have htotal := hd.total_ne_zero (List.ne_nil_of_mem hr)
  have hpick : ∀ position ∈ Finset.range d.total, Law.chance (d.drawAt position) (· = n) =
      (rangeAt? position d.ranges).elim 0 (·.share n) := by
    intro position hposition
    obtain ⟨s, hs, hat⟩ := hd.exists_rangeAt? (Finset.mem_range.mp hposition)
    rw [hd.chance_drawAt hs hat, hat, Option.elim_some]
  -- Positions are taken together by their ranges, of which only one holds the number.
  have hother : ∀ s ∈ d.ranges, s ≠ r → s.weight • s.share n = 0 := by
    intro s hs hne
    have hns := Finset.disjoint_left.mp (hd.disjoint_of_ne hr hs hne.symm) hn
    rw [WeightedRange.share, if_neg hns, smul_zero]
  have hsum : ∑ position ∈ Finset.range d.total, Law.chance (d.drawAt position) (· = n) =
      r.weight * (r.values.card : ℝ≥0∞)⁻¹ := by
    rw [Finset.sum_congr rfl hpick, ← hd.total, sum_rangeAt? fun found => found.elim 0 (·.share n)]
    refine (hd.sum_eq_single hr hother).trans ?_
    rw [WeightedRange.share, if_pos hn, nsmul_eq_mul]
  -- The position is drawn evenly, and each one picks its range.
  rw [hd.draw_eq (List.ne_nil_of_mem hr)]
  refine (Law.chance_uniform_bind (Finset.nonempty_range_iff.mpr htotal) _).trans ?_
  rw [hsum, Finset.card_range, div_eq_mul_inv, ENNReal.mul_inv, mul_left_comm]
  · exact .inl (Nat.cast_ne_zero.mpr htotal)
  · exact .inl (ENNReal.natCast_ne_top _)

/-- The numbers that a distribution draws. -/
noncomputable def support (d : Distribution) : Finset Int := d.ranges.toFinset.biUnion (·.values)

/-- Ranges without weights of their own weigh as much as they have numbers together. -/
theorem Weighed.card_support (hd : d.Weighed)
    (hplain : ∀ r ∈ d.ranges, r.weight = r.values.card) : d.support.card = d.total := by
  have hdisjoint : (d.ranges.toFinset : Set WeightedRange).PairwiseDisjoint (·.values) := by
    intro r hr s hs hne
    exact hd.disjoint_of_ne (List.mem_toFinset.mp hr) (List.mem_toFinset.mp hs) hne
  rw [support, Finset.card_biUnion hdisjoint, List.sum_toFinset _ hd.nodup, ← hd.total]
  exact congrArg List.sum (List.map_congr_left fun r hr => (hplain r hr).symm)

/-- Ranges without weights of their own are drawn from as if they were one set. -/
theorem Weighed.chance_draw_of_plain (hd : d.Weighed)
    (hplain : ∀ r ∈ d.ranges, r.weight = r.values.card) {n : Int} (hn : n ∈ d.support) :
    Law.chance d.draw (· = n) = (d.support.card : ℝ≥0∞)⁻¹ := by
  obtain ⟨r, hr, hnr⟩ := Finset.mem_biUnion.mp hn
  have hr := List.mem_toFinset.mp hr
  have hcard : (r.values.card : ℝ≥0∞) ≠ 0 := by
    rw [← hplain r hr]
    exact Nat.cast_ne_zero.mpr (hd.positive r hr).ne'
  rw [hd.chance_draw hr hnr, hplain r hr, hd.card_support hplain, div_eq_mul_inv, ENNReal.mul_inv,
    mul_left_comm, ENNReal.mul_inv_cancel hcard (ENNReal.natCast_ne_top _), mul_one]
  · exact .inr (ENNReal.natCast_ne_top _)
  · exact .inr hcard

/-! ## §5 The law of a distribution -/

/-- Whatever successful calls have built a distribution, its ranges are those that were asked for:
    disjoint, with positive weights that add up to a total below `2 ^ 128`.  A further call is
    refused for the first reason that applies, and successful otherwise.  A draw picks a range for
    as many positions as its weight says, always ends in one of the ranges, and answers a number of
    a range of weight `w` with `s` numbers with the chance `w / (total * s)`; without weights of
    their own, the ranges are drawn from as one set. -/
theorem law_of_built (h : Built t calls d) :
    (d.ranges = calls.map Addition.asked ∧ (∀ r ∈ d.ranges, r.lo ≤ r.hi ∧ 0 < r.weight) ∧
      d.ranges.Pairwise (fun r s => Disjoint r.values s.values) ∧
      d.total = (d.ranges.map WeightedRange.weight).sum ∧ d.total < 2 ^ 128) ∧
    (∀ a : Addition, (∀ refusal, a.apply d = .error refusal ↔ d.Rejects a.asked refusal) ∧
      ∀ d', a.apply d = .ok d' ↔ d.Accepts a.asked ∧
        d' = { d with ranges := d.ranges ++ [a.asked], total := d.total + a.asked.weight }) ∧
    (calls ≠ [] →
      Draws d.draw (fun n => ∃ r ∈ d.ranges, n ∈ r.values) ∧
      Law.Always d.draw (fun n => ∃ r ∈ d.ranges, n ∈ r.values) ∧
      (∀ position < d.total, ∃ r ∈ d.ranges, rangeAt? position d.ranges = some r) ∧
      (∀ r ∈ d.ranges,
        {position ∈ Finset.range d.total | rangeAt? position d.ranges = some r}.card = r.weight ∧
        ∀ n ∈ r.values, Law.chance d.draw (· = n) = r.weight / (d.total * r.values.card)) ∧
      ((∀ a ∈ calls, a.Plain) →
        ∀ n ∈ d.support, Law.chance d.draw (· = n) = (d.support.card : ℝ≥0∞)⁻¹)) := by
  obtain ⟨hd, -, hranges⟩ := h.weighed
  refine ⟨⟨hranges, fun r hr => ⟨hd.nonempty r hr, hd.positive r hr⟩, hd.disjoint, hd.total.symm,
    hd.total_lt⟩, hd.apply_iff, fun hcalls => ?_⟩
  -- A call that was accepted left a range.
  have hne : d.ranges ≠ [] := by
    rw [hranges]
    exact fun hnil => hcalls (List.map_eq_nil_iff.mp hnil)
  refine ⟨hd.draw_within hne, hd.draw_always hne, fun position => hd.exists_rangeAt?,
    fun r hr => ⟨hd.card_positions hr, fun n => hd.chance_draw hr⟩, fun hplain n => ?_⟩
  refine hd.chance_draw_of_plain fun r hr => ?_
  rw [hranges] at hr
  obtain ⟨a, ha, rfl⟩ := List.mem_map.mp hr
  exact (hplain a ha).weight_eq

/-- Six signed numbers and a single one of weight six: the single one is drawn half of the time, and
    may not be added again. -/
theorem law_of_halves : ∃ d, Built (.int .bits16 true) [.range (-10) (-5), .weightedValue 100 6] d ∧
    d.total = 12 ∧ (Addition.value 100).apply d = .error .overlappingRange ∧
    Law.chance d.draw (· = 100) = (2 : ℝ≥0∞)⁻¹ := by
  let d : Distribution := ⟨.int .bits16 true, [⟨-10, -5, 6⟩, ⟨100, 100, 6⟩], 12, none⟩
  have hbuilt : Built (.int .bits16 true) [.range (-10) (-5), .weightedValue 100 6] d :=
    .add (.add .empty ⟨⟨by decide, by decide⟩, by decide, by decide⟩ rfl)
      ⟨⟨by decide, by decide⟩, by decide, by decide⟩ rfl
  obtain ⟨-, hanswer, hdraw⟩ := law_of_built hbuilt
  have hsingle : ⟨100, 100, 6⟩ ∈ d.ranges := by simp [d]
  have hmem : (100 : Int) ∈ (⟨100, 100, 6⟩ : WeightedRange).values := by
    simp [WeightedRange.mem_values]
  refine ⟨d, hbuilt, rfl, ((hanswer (.value 100)).1 _).mpr ?_, ?_⟩
  · refine .overlappingRange (by decide) hsingle fun hdisjoint => ?_
    exact Finset.disjoint_left.mp hdisjoint hmem hmem
  · obtain ⟨-, -, -, hchance, -⟩ := hdraw nofun
    -- Six positions of twelve belong to the single value.
    rw [(hchance _ hsingle).2 100 hmem, WeightedRange.card_values]
    have htwelve : ((12 : Nat) : ℝ≥0∞) * (1 : Nat) = 6 * 2 := by norm_num
    show ((6 : Nat) : ℝ≥0∞) / ((12 : Nat) * (1 : Nat)) = _
    rw [htwelve, div_eq_mul_inv, ENNReal.mul_inv (by simp) (by simp), ← mul_assoc, Nat.cast_ofNat,
      ENNReal.mul_inv_cancel (by simp) (by simp), one_mul]

end

end Distribution

end Stimulus
