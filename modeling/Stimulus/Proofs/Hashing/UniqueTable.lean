import Mathlib.Data.List.Induction
import Mathlib.Data.Nat.Basic
import Mathlib.Tactic.ByContra
import Stimulus.Hashing.UniqueTable

/-!
# Laws of the unique table

A unique table finds what it stores.  Every index stands in the chain of its value's bucket, chains
lead to ever smaller indices, and both survive the threading of a new value as well as the growth
of the bucket array.  So `put` answers the index of an equal value whenever there is one, and no
value is stored twice.

Values that are added without a chain (a diagram's terminal) are never asked for.  The laws are
therefore stated for the values that satisfy a predicate `q`.

Main definitions:
- `Chains.Leads`, `Chains.Reaches`: walking along a chain
- `UniqueTable.Sound`: every stored value that may be asked for is found, and is stored once

Main statement:
- `UniqueTable.Sound.put`: what `put` answers, and that it keeps a table sound
-/

namespace Stimulus

/-! ## §1 Buckets and chains -/

/-- A bucket is one of the buckets, whatever their number. -/
theorem bucketOf_lt {α : Type} [Fingerprint α] (v : α) {n : Nat} (hpos : 0 < n) :
    bucketOf v n < n := by
  unfold bucketOf
  by_cases hn : n < UInt64.size
  · -- The remainder is taken in machine words, and `n` survives the way there.
    have hword : n.toUInt64.toNat = n := Nat.mod_eq_of_lt hn
    rw [UInt64.toNat_mod, hword]
    exact Nat.mod_lt _ hpos
  · -- A word is less than every number that is none.
    exact Nat.lt_of_lt_of_le (UInt64.toNat_lt _) (Nat.not_lt.mp hn)

namespace Chains

/-- Walking from index `i` along its chain passes index `j`. -/
inductive Leads (c : Chains) : Nat → Nat → Prop where
  | here {i : Nat} (hi : i ≠ 0) : Leads c i i
  | next {i j : Nat} (hi : i ≠ 0) (h : Leads c (c.after i) j) : Leads c i j

/-- Index `i` stands in the chain of bucket `b`. -/
def Reaches (c : Chains) (b i : Nat) : Prop := c.Leads (c.heads.getD b 0) i

/-- There is a bucket, links lead downwards, and the heads are indices in use. -/
structure Linked (c : Chains) : Prop where
  heads_pos : 0 < c.heads.size
  after_lt : ∀ i, i ≠ 0 → c.after i < i
  head_le : ∀ b, c.heads.getD b 0 ≤ c.links.size

theorem after_eq (c : Chains) (i : Nat) : c.after i = c.links[i - 1]?.getD 0 :=
  Array.getD_eq_getD_getElem?

theorem head_eq (c : Chains) (b : Nat) : c.heads.getD b 0 = c.heads[b]?.getD 0 :=
  Array.getD_eq_getD_getElem?

theorem linked_empty {n : Nat} (hn : 0 < n) : (Chains.empty n).Linked := by
  constructor
  · simpa [Chains.empty] using hn
  · intro i hi
    -- Nothing is linked yet, so every index is followed by 0.
    have hnone : (Chains.empty n).links[i - 1]? = none := rfl
    rw [after_eq, hnone]
    exact Nat.pos_of_ne_zero hi
  · -- A bucket is empty, and a bucket that does not exist reads as empty.
    intro b
    rw [head_eq, Chains.empty, Array.getElem?_replicate]
    split <;> simp

/-! Storing a value under the next index. -/

section Thread

variable {α : Type} [Fingerprint α] (c : Chains) (v : α)

theorem links_thread :
    (c.thread v).links = c.links.push (c.heads.getD (bucketOf v c.heads.size) 0) := rfl

theorem heads_thread :
    (c.thread v).heads = c.heads.setIfInBounds (bucketOf v c.heads.size) (c.links.size + 1) := rfl

theorem links_size_thread : (c.thread v).links.size = c.links.size + 1 := by
  rw [links_thread, Array.size_push]

theorem heads_size_thread : (c.thread v).heads.size = c.heads.size := by
  rw [heads_thread, Array.size_setIfInBounds]

/-- Old indices keep their successors. -/
theorem after_thread_of_le {i : Nat} (hi : i ≠ 0) (hle : i ≤ c.links.size) :
    (c.thread v).after i = c.after i := by
  have hlt : i - 1 < c.links.size := by omega
  rw [after_eq, after_eq, links_thread, Array.getElem?_push_lt hlt, Array.getElem?_eq_getElem hlt]

/-- The new index is followed by the old head of its bucket. -/
theorem after_thread_new :
    (c.thread v).after (c.links.size + 1) = c.heads.getD (bucketOf v c.heads.size) 0 := by
  rw [after_eq, links_thread, Nat.add_sub_cancel, Array.getElem?_push_size, Option.getD_some]

/-- An index that was never handed out has no successor. -/
theorem after_thread_of_gt {i : Nat} (hgt : c.links.size + 1 < i) : (c.thread v).after i = 0 := by
  have hout : (c.thread v).links.size ≤ i - 1 := by
    rw [links_size_thread]
    omega
  rw [after_eq, Array.getElem?_eq_none hout, Option.getD_none]

theorem head_thread_self (hb : bucketOf v c.heads.size < c.heads.size) :
    (c.thread v).heads.getD (bucketOf v c.heads.size) 0 = c.links.size + 1 := by
  rw [head_eq, heads_thread, Array.getElem?_setIfInBounds_self_of_lt hb, Option.getD_some]

theorem head_thread_of_ne {b : Nat} (hb : b ≠ bucketOf v c.heads.size) :
    (c.thread v).heads.getD b 0 = c.heads.getD b 0 := by
  rw [head_eq, head_eq, heads_thread, Array.getElem?_setIfInBounds_ne (Ne.symm hb)]

variable {c}

theorem Leads.thread (hc : c.Linked) {s i : Nat} (h : c.Leads s i) (hs : s ≤ c.links.size) :
    (c.thread v).Leads s i := by
  induction h with
  | here hi => exact .here hi
  | next hi _ ih =>
    refine .next hi ?_
    rw [after_thread_of_le c v hi hs]
    exact ih (Nat.le_trans (Nat.le_of_lt (hc.after_lt _ hi)) hs)

/-- Threading a value keeps every chain and puts the new index at the head of one. -/
theorem Linked.thread (hc : c.Linked) : (c.thread v).Linked := by
  constructor
  · rw [heads_size_thread]
    exact hc.heads_pos
  · intro i hi
    rcases Nat.lt_trichotomy i (c.links.size + 1) with hlt | heq | hgt
    · -- An old index keeps its link.
      rw [after_thread_of_le c v hi (by omega)]
      exact hc.after_lt i hi
    · -- The new index is linked to the old head, which is an index in use.
      rw [heq, after_thread_new]
      have := hc.head_le (bucketOf v c.heads.size)
      omega
    · -- Beyond the new index there are no links.
      rw [after_thread_of_gt c v hgt]
      omega
  · intro b
    rw [links_size_thread]
    -- Only the bucket of the value has another head.
    by_cases hb : b = bucketOf v c.heads.size
    · by_cases hin : bucketOf v c.heads.size < c.heads.size
      · exact Nat.le_of_eq (hb ▸ head_thread_self c v hin)
      · have hout : (c.thread v).heads.size ≤ b := by rw [heads_size_thread]; omega
        rw [head_eq, Array.getElem?_eq_none hout, Option.getD_none]
        exact Nat.zero_le _
    · rw [head_thread_of_ne c v hb]
      exact Nat.le_succ_of_le (hc.head_le b)

theorem Reaches.thread (hc : c.Linked) {b i : Nat} (hb : bucketOf v c.heads.size < c.heads.size)
    (h : c.Reaches b i) : (c.thread v).Reaches b i := by
  have hold := Leads.thread v hc h (hc.head_le b)
  unfold Reaches
  by_cases hself : b = bucketOf v c.heads.size
  · -- The old chain of this bucket hangs below the new index.
    rw [hself, head_thread_self c v hb]
    refine .next (Nat.succ_ne_zero _) ?_
    rw [after_thread_new, ← hself]
    exact hold
  · -- The other buckets are not touched.
    rw [head_thread_of_ne c v hself]
    exact hold

theorem reaches_thread_new (hb : bucketOf v c.heads.size < c.heads.size) :
    (c.thread v).Reaches (bucketOf v c.heads.size) (c.links.size + 1) := by
  unfold Reaches
  rw [head_thread_self c v hb]
  exact .here (Nat.succ_ne_zero _)

end Thread

end Chains

/-! ## §2 Looking a value up -/

namespace UniqueTable

variable {α : Type}

/-- What is stored under an index. -/
theorem value_eq_ok {t : UniqueTable α} {i : Nat} {v : α} :
    t.value i = .ok v ↔ i ≠ 0 ∧ t.values[i - 1]? = some v := by
  unfold value
  by_cases hi : i = 0
  · simp [hi]
  · cases h : t.values[i - 1]? <;> simp [hi]

theorem holds_iff [DecidableEq α] {t : UniqueTable α} {v : α} {i : Nat} :
    t.holds v i = true ↔ t.values[i - 1]? = some v := by
  unfold holds
  cases h : t.values[i - 1]? with
  | none => simp
  | some w => simp [eq_comm]

/-- What is found is what was asked for. -/
theorem findFrom_sound [DecidableEq α] {t : UniqueTable α} {v : α} {i k : Nat}
    (h : t.findFrom v i = some k) : k ≠ 0 ∧ t.values[k - 1]? = some v := by
  -- The walk goes on at smaller indices only, so the induction is on the index.
  induction i using Nat.strong_induction_on with
  | _ i ih =>
    rw [findFrom] at h
    split at h
    · cases h
    · rename_i hi
      -- Either this index holds the value or the rest of the chain is asked.
      split at h
      · rename_i hholds
        cases h
        exact ⟨hi, holds_iff.mp hholds⟩
      · split at h
        · rename_i hlt
          exact ih _ hlt h
        · cases h

/-- A value that stands in the chain is found, possibly under an index met earlier. -/
theorem findFrom_complete [DecidableEq α] {t : UniqueTable α} (hc : t.chains.Linked) {v : α}
    {i j : Nat} (hlead : t.chains.Leads i j) (hj : t.values[j - 1]? = some v) :
    ∃ k, t.findFrom v i = some k := by
  induction hlead with
  | here hi =>
    rw [findFrom, if_neg hi, if_pos (holds_iff.mpr hj)]
    exact ⟨_, rfl⟩
  | next hi _ ih =>
    rw [findFrom, if_neg hi]
    -- An equal value met on the way is an answer as well.
    split
    · exact ⟨_, rfl⟩
    · rw [if_pos (hc.after_lt _ hi)]
      exact ih hj

/-! ## §3 Sound tables -/

/-- Every stored value that satisfies `q` is found through its bucket and is stored once.  Once the
    table has grown, there are no more buckets than values. -/
structure Sound [Fingerprint α] (t : UniqueTable α) (q : α → Prop) : Prop where
  linked : t.chains.Linked
  aligned : t.chains.links.size = t.values.size
  capacity_le : t.capacity ≤ max (1 <<< 31) t.size
  listed : ∀ (i : Nat) (v : α), q v → t.values[i]? = some v →
    t.chains.Reaches (bucketOf v t.capacity) (i + 1)
  distinct : ∀ (i j : Nat) (v : α), q v → t.values[i]? = some v → t.values[j]? = some v → i = j

section

variable [Fingerprint α] {t : UniqueTable α} {q : α → Prop}

theorem sound_empty {bits : Nat} (h : UniqueTable.empty bits = .ok t) : t.Sound q := by
  unfold UniqueTable.empty at h
  split at h
  · rename_i hbits
    cases h
    have hpos : 0 < 1 <<< bits := by
      rw [Nat.one_shiftLeft]
      exact Nat.two_pow_pos bits
    refine ⟨Chains.linked_empty hpos, rfl, ?_, ?_, ?_⟩
    · have hpow : 1 <<< bits ≤ 1 <<< 31 := by
        rw [Nat.one_shiftLeft, Nat.one_shiftLeft]
        exact Nat.pow_le_pow_right Nat.two_pos hbits
      exact Nat.le_trans (by simp [capacity, Chains.empty]) (Nat.le_trans hpow (Nat.le_max_left _ _))
    · intro i v _ hi
      simp at hi
    · intro i j v _ hi
      simp at hi
  · cases h

/-- A value that nobody asks for may be added without a chain. -/
theorem Sound.add (h : t.Sound q) {v : α} (hv : ¬ q v) : (t.add v).2.Sound q := by
  -- A value that is asked for is none of the added ones.
  have hold : ∀ {i : Nat} {w : α}, q w → (t.values.push v)[i]? = some w →
      t.values[i]? = some w := by
    intro i w hw hi
    rw [Array.getElem?_push] at hi
    split at hi
    · cases hi
      exact absurd hw hv
    · exact hi
  -- The index that is skipped was read as the end of a chain before.
  have hafter : ∀ i, (t.chains.skip).after i = t.chains.after i := by
    intro i
    simp [Chains.skip, Chains.after, Array.getD_eq_getD_getElem?, Array.getElem?_push]
    split
    · rename_i heq
      simp [heq]
    · rfl
  refine ⟨⟨h.linked.heads_pos, ?_, ?_⟩, ?_, ?_, ?_, ?_⟩
  · intro i hi
    rw [show (t.add v).2.chains = t.chains.skip from rfl, hafter]
    exact h.linked.after_lt i hi
  · intro b
    exact Nat.le_trans (h.linked.head_le b) (by simp [UniqueTable.add, Chains.skip])
  · simp [UniqueTable.add, Chains.skip, h.aligned]
  · have := h.capacity_le
    simp only [UniqueTable.add, capacity, Chains.skip, size, Array.size_push] at this ⊢
    omega
  · intro i w hw hi
    have hlead := h.listed i w hw (hold hw hi)
    -- Skipping an index changes no chain.
    have hkeep : ∀ {s j : Nat}, t.chains.Leads s j → t.chains.skip.Leads s j := by
      intro s j hl
      induction hl with
      | here hi => exact .here hi
      | next hi _ ih => exact .next hi (by rw [hafter]; exact ih)
    exact hkeep hlead
  · intro i j w hw hi hj
    exact h.distinct i j w hw (hold hw hi) (hold hw hj)

/-- A new value that is threaded into its chain keeps a table sound. -/
theorem Sound.push (h : t.Sound q) {v : α} (hfresh : ∀ i : Nat, t.values[i]? ≠ some v) :
    (⟨t.values.push v, t.chains.thread v⟩ : UniqueTable α).Sound q := by
  have hb : bucketOf v t.chains.heads.size < t.chains.heads.size :=
    bucketOf_lt v h.linked.heads_pos
  have hcapacity : (⟨t.values.push v, t.chains.thread v⟩ : UniqueTable α).capacity = t.capacity :=
    Chains.heads_size_thread _ _
  refine ⟨h.linked.thread v, ?_, ?_, ?_, ?_⟩
  · rw [Chains.links_size_thread, Array.size_push, h.aligned]
  · have := h.capacity_le
    rw [hcapacity]
    simp only [size, Array.size_push] at this ⊢
    omega
  · intro i w hw hi
    rw [hcapacity]
    rw [Array.getElem?_push] at hi
    split at hi
    · -- The new value heads its chain; the old ones are still reached.
      rename_i hnew
      cases hi
      have hreach := Chains.reaches_thread_new v hb
      rw [h.aligned, ← hnew] at hreach
      exact hreach
    · exact (h.listed i w hw hi).thread v h.linked hb
  · intro i j w hw hi hj
    rw [Array.getElem?_push] at hi hj
    split at hi <;> split at hj
    · -- Two indices of one value: both are new, or one is, or none.
      omega
    · cases hi
      exact absurd hj (hfresh j)
    · cases hj
      exact absurd hi (hfresh i)
    · exact h.distinct i j w hw hi hj

/-- Chaining values one after the other lists every one of them in its bucket. -/
theorem reaches_foldl_thread {n : Nat} (hn : 0 < n) (values : List α) :
    let c := values.foldl Chains.thread (Chains.empty n)
    c.Linked ∧ c.links.size = values.length ∧ c.heads.size = n ∧
      ∀ (i : Nat) (v : α), values[i]? = some v → c.Reaches (bucketOf v n) (i + 1) := by
  -- The values are taken from the end, so that the last one is threaded last.
  induction values using List.reverseRecOn with
  | nil =>
    refine ⟨Chains.linked_empty hn, rfl, by simp [Chains.empty], ?_⟩
    intro i v hi
    simp at hi
  | append_singleton values w ih =>
    obtain ⟨hlinked, hsize, hheads, hreach⟩ := ih
    rw [List.foldl_append, List.foldl_cons, List.foldl_nil]
    have hb : bucketOf w (values.foldl Chains.thread (Chains.empty n)).heads.size <
        (values.foldl Chains.thread (Chains.empty n)).heads.size := by
      rw [hheads]
      exact bucketOf_lt w hn
    refine ⟨hlinked.thread w, ?_, ?_, ?_⟩
    · rw [Chains.links_size_thread, hsize, List.length_append, List.length_singleton]
    · rw [Chains.heads_size_thread, hheads]
    · intro i v hi
      -- An earlier value keeps its place in the chain that the last value is threaded into.
      by_cases hlast : i < values.length
      · rw [List.getElem?_append_left hlast] at hi
        exact (hreach i v hi).thread w hlinked hb
      · rw [List.getElem?_append_right (by omega)] at hi
        have hzero : i - values.length = 0 := by
          by_contra hne
          rw [List.getElem?_eq_none (by simp; omega)] at hi
          cases hi
        rw [hzero] at hi
        cases hi
        have hnew := Chains.reaches_thread_new w hb
        rw [hheads, hsize] at hnew
        rwa [show i + 1 = values.length + 1 by omega]

/-- Growth keeps the values and chains them anew. -/
theorem Sound.grow (h : t.Sound q) (hcap : 2 * t.capacity ≤ t.size) : t.grow.Sound q := by
  have hpos : 0 < 2 * t.capacity := by
    have := h.linked.heads_pos
    unfold capacity
    omega
  obtain ⟨hlinked, hlinks, hheads, hreach⟩ := reaches_foldl_thread hpos t.values.toList
  have hchains : t.grow.chains =
      t.values.toList.foldl Chains.thread (Chains.empty (2 * t.capacity)) := by
    -- The array is chained as the list of its values is.
    simp [UniqueTable.grow]
  have hvalues : t.grow.values = t.values := rfl
  refine ⟨by rw [hchains]; exact hlinked, ?_, ?_, ?_, ?_⟩
  · rw [hchains, hlinks, hvalues, Array.length_toList]
  · rw [capacity, hchains, hheads, size, hvalues]
    exact Nat.le_trans hcap (Nat.le_max_right _ _)
  · intro i v _ hi
    rw [capacity, hchains, hheads]
    exact hreach i v (by simpa [hvalues] using hi)
  · exact h.distinct

end

/-! ## §4 Storing a value -/

section

variable [DecidableEq α] [Fingerprint α] {t : UniqueTable α} {q : α → Prop} {v : α}

theorem find?_sound {i : Nat} (h : t.find? v = some i) : i ≠ 0 ∧ t.values[i - 1]? = some v :=
  findFrom_sound h

/-- A sound table that does not find a value does not store it. -/
theorem Sound.not_stored (h : t.Sound q) (hv : q v) (hnone : t.find? v = none) (i : Nat) :
    t.values[i]? ≠ some v := by
  intro hi
  obtain ⟨k, hk⟩ := findFrom_complete h.linked (h.listed i v hv hi) hi
  rw [find?, hk] at hnone
  cases hnone

/-- `put` answers the index of an equal value, and stores the value under the next index if there
    is none.  Either way the table stays sound. -/
theorem Sound.put (h : t.Sound q) (hv : q v) :
    ∃ i t', t.put v = (i + 1, t') ∧ t'.Sound q ∧ t'.values[i]? = some v ∧
      (t' = t ∨ i = t.size ∧ t'.values = t.values.push v) := by
  unfold UniqueTable.put
  cases hfind : t.find? v with
  | some k =>
    -- An equal value is stored: the table stays as it is.
    obtain ⟨hk, hval⟩ := find?_sound hfind
    have hindex : k - 1 + 1 = k := Nat.succ_pred_eq_of_ne_zero hk
    exact ⟨k - 1, t, by rw [hindex], h, hval, .inl rfl⟩
  | none =>
    -- No equal value is stored, so the value may be threaded in, and the buckets may grow after.
    have hpush := h.push (h.not_stored hv hfind)
    have hget : (t.values.push v)[t.size]? = some v := Array.getElem?_push_size
    dsimp only
    split
    · rename_i hfull
      exact ⟨t.size, _, rfl, hpush.grow (Nat.le_of_lt hfull), hget, .inr ⟨rfl, rfl⟩⟩
    · exact ⟨t.size, _, rfl, hpush, hget, .inr ⟨rfl, rfl⟩⟩

/-- A value that is stored already is found, and the table stays as it is. -/
theorem Sound.put_of_stored (h : t.Sound q) (hv : q v) {i : Nat} (hi : t.values[i]? = some v) :
    t.put v = (i + 1, t) := by
  obtain ⟨j, t', hput, hsound, hj, rfl | ⟨hnew, hvalues⟩⟩ := h.put hv
  · rw [hput, h.distinct i j v hv hi hj]
  · -- The value would be stored twice.
    obtain ⟨hlt, -⟩ := Array.getElem?_eq_some_iff.mp hi
    have hi' : t'.values[i]? = some v := by
      rw [hvalues, Array.getElem?_push_lt hlt, ← Array.getElem?_eq_getElem hlt, hi]
    have hsame := hsound.distinct i j v hv hi' hj
    exact absurd hlt (by rw [hsame, hnew]; exact Nat.lt_irrefl _)

/-- The index that `put` answers, and the values stored after it, do not depend on the buckets. -/
theorem Sound.put_eq_of_values_eq (h : t.Sound q) {t' : UniqueTable α} (h' : t'.Sound q)
    (hvalues : t'.values = t.values) (hv : q v) :
    (t'.put v).1 = (t.put v).1 ∧ (t'.put v).2.values = (t.put v).2.values := by
  by_cases hstored : ∃ i : Nat, t.values[i]? = some v
  · obtain ⟨i, hi⟩ := hstored
    rw [h.put_of_stored hv hi, h'.put_of_stored hv (hvalues ▸ hi)]
    exact ⟨rfl, hvalues⟩
  · -- Both tables store the value under the next index.
    obtain ⟨i, u, hput, -, hi, hold | ⟨hnew, hpush⟩⟩ := h.put hv
    · exact absurd ⟨i, hold ▸ hi⟩ hstored
    obtain ⟨i', u', hput', -, hi', hold' | ⟨hnew', hpush'⟩⟩ := h'.put hv
    · exact absurd ⟨i', hvalues ▸ hold' ▸ hi'⟩ hstored
    rw [hput, hput', hnew, hnew', hpush, hpush', hvalues, size, size, hvalues]
    exact ⟨rfl, rfl⟩

end

end UniqueTable

end Stimulus
