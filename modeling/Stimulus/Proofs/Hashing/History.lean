import Mathlib.Data.List.Basic
import Stimulus.Proofs.Hashing.ComputedTable
import Stimulus.Proofs.Hashing.UniqueTable

/-!
# What a computed table remembers

A computed table forgets, because a key takes its slot from the key that held it before.  Still the
history of its calls determines every answer: a slot holds what the last call that touched it left
there, and the other calls leave it alone.  So a result that is found is the last one stored under
that very key since the table was cleared; and where nothing is found, no such result was stored, or
a different key has taken the slot since.

Main definitions:
- `ComputedTable.Call`: a call of a table
- `ComputedTable.after`, `ComputedTable.answers`: the table after calls, and their answers
- `ComputedTable.Call.touches`: the calls that decide what a slot holds
- `ComputedTable.LastStored`: the last result of a key, with the calls that came later
- `ComputedTable.Displaced`: a different key was stored in the slot

Main statements:
- `ComputedTable.held_after`
- `ComputedTable.find?_after_iff_lastStored`
- `ComputedTable.latest_of_calls`
-/

namespace Stimulus

/-- The last member of a list that satisfies a predicate, by the members behind it. -/
theorem find?_reverse_eq_some {α : Type} {p : α → Bool} {l : List α} {a : α} :
    l.reverse.find? p = some a ↔ p a ∧ ∃ later, a :: later <:+ l ∧ ∀ b ∈ later, p b = false := by
  rw [List.find?_eq_some_iff_append]
  constructor
  · intro h
    obtain ⟨ha, later, before, hl, hlater⟩ := h
    refine ⟨ha, later.reverse, ⟨before.reverse, ?_⟩, ?_⟩
    · rw [← List.reverse_reverse l, hl]
      simp
    · simpa using hlater
  · intro h
    obtain ⟨ha, later, ⟨before, rfl⟩, hlater⟩ := h
    exact ⟨ha, later.reverse, before.reverse, by simp, by simpa using hlater⟩

namespace ComputedTable

variable {κ ν : Type} {t : ComputedTable κ ν}

/-! ## §1 Slots -/

theorem held_empty {bits : Nat} (ht : ComputedTable.empty bits = .ok t) (slot : Nat) :
    t.held slot = none := by
  obtain rfl := eq_of_empty ht
  rw [held, Array.getD_eq_getD_getElem?, Array.getElem?_replicate]
  split <;> rfl

theorem slotOf_lt [Fingerprint κ] {bits : Nat} (ht : ComputedTable.empty bits = .ok t) (k : κ) :
    t.slotOf k < t.slots.size := by
  obtain rfl := eq_of_empty ht
  exact bucketOf_lt k (by simp)

/-! ## §2 Calls -/

/-- A call of a computed table. -/
inductive Call (κ ν : Type) where
  | remember (k : κ) (result : ν)
  | fetch (k : κ)
  | clear

namespace Call

/-- The call looks a key up. -/
def isFetch : Call κ ν → Bool
  | .fetch _ => true
  | _ => false

/-- Whether a call decides what a slot holds, of a table with so many slots. -/
def touches [Fingerprint κ] (size slot : Nat) : Call κ ν → Bool
  | .remember k _ => bucketOf k size = slot
  | .fetch _ => false
  | .clear => true

/-- What a call leaves in a slot that it touches. -/
def left : Call κ ν → Option (κ × ν)
  | .remember k result => some (k, result)
  | _ => none

theorem left_eq_some {c : Call κ ν} {k : κ} {r : ν} : c.left = some (k, r) ↔ c = .remember k r := by
  cases c <;> simp [left]

end Call

section

variable [DecidableEq κ] [Fingerprint κ]

/-- The answer to a call, which only a look-up has, and the table after it. -/
def call (t : ComputedTable κ ν) : Call κ ν → Option ν × ComputedTable κ ν
  | .remember k result => (none, t.remember k result)
  | .fetch k => t.fetch k
  | .clear => (none, t.clear)

/-- The table after calls one after the other. -/
def after (t : ComputedTable κ ν) (calls : List (Call κ ν)) : ComputedTable κ ν :=
  calls.foldl (fun t c => (t.call c).2) t

/-- The answers to calls one after the other. -/
def answers (t : ComputedTable κ ν) (calls : List (Call κ ν)) : List (Option ν) :=
  List.zipWith (fun t c => (t.call c).1) (calls.scanl (fun t c => (t.call c).2) t) calls

variable {calls past : List (Call κ ν)} {c : Call κ ν}

theorem after_cons : t.after (c :: calls) = (t.call c).2.after calls := rfl

theorem after_concat : t.after (past ++ [c]) = ((t.after past).call c).2 :=
  List.foldl_concat _ t c past

theorem answers_cons :
    t.answers (c :: calls) = (t.call c).1 :: (t.call c).2.answers calls := by
  simp only [answers, List.scanl_cons, List.zipWith_cons_cons]

/-- Every call is answered by the table that the calls before it leave. -/
theorem getElem?_answers {i : Nat} (h : calls[i]? = some c) :
    (t.answers calls)[i]? = some ((t.after (calls.take i)).call c).1 := by
  obtain ⟨hlt, -⟩ := List.getElem?_eq_some_iff.mp h
  rw [answers, List.getElem?_zipWith, List.getElem?_scanl, if_pos (Nat.le_of_lt hlt), h]
  rfl

/-! ## §3 One call -/

theorem size_call (t : ComputedTable κ ν) (c : Call κ ν) :
    (t.call c).2.slots.size = t.slots.size := by
  cases c with
  | remember k r => exact Array.size_setIfInBounds
  | fetch k => exact congrArg Array.size (slots_fetch t k)
  | clear => exact Array.size_replicate

/-- A call that touches a slot decides what it holds, and every other call leaves it alone. -/
theorem held_call {slot : Nat} (hslot : slot < t.slots.size) (c : Call κ ν) :
    (t.call c).2.held slot = if c.touches t.slots.size slot then c.left else t.held slot := by
  cases c with
  | remember k r =>
    simp only [held, call, remember, slotOf, Call.touches, Call.left, Array.getD_eq_getD_getElem?,
      Array.getElem?_setIfInBounds, decide_eq_true_eq]
    by_cases h : bucketOf k t.slots.size = slot
    · simp [h, hslot]
    · simp [h]
  | fetch k => simp [held, call, slots_fetch, Call.touches]
  | clear => simp [held, call, clear, Call.touches, Call.left, hslot]

/-- No call changes the number of slots. -/
theorem size_after (t : ComputedTable κ ν) (past : List (Call κ ν)) :
    (t.after past).slots.size = t.slots.size := by
  induction past using List.reverseRecOn with
  | nil => rfl
  | append_singleton past c ih => rw [after_concat, size_call, ih]

theorem slotOf_after (t : ComputedTable κ ν) (past : List (Call κ ν)) (k : κ) :
    (t.after past).slotOf k = t.slotOf k := by
  rw [slotOf, size_after, slotOf]

/-! ## §4 Histories -/

/-- A slot holds what the last call that touched it left there. -/
theorem held_after {bits slot : Nat} (ht : ComputedTable.empty bits = .ok t)
    (hslot : slot < t.slots.size) (past : List (Call κ ν)) :
    (t.after past).held slot =
      (past.reverse.find? (Call.touches t.slots.size slot)).bind Call.left := by
  induction past using List.reverseRecOn with
  | nil => exact held_empty ht slot
  | append_singleton past c ih =>
    have hslot' : slot < (t.after past).slots.size := by rwa [size_after]
    rw [after_concat, held_call hslot' c, size_after, ih, List.reverse_concat, List.find?_cons]
    -- Either the new call is the last one that touched the slot, or it does not matter.
    cases c.touches t.slots.size slot <;> simp

/-- A result is found if it was stored under the key and no later call has touched the slot. -/
theorem find?_after_eq_some {bits : Nat} (ht : ComputedTable.empty bits = .ok t) {k : κ} {r : ν} :
    (t.after past).find? k = some r ↔ ∃ later, .remember k r :: later <:+ past ∧
      ∀ c ∈ later, c.touches t.slots.size (t.slotOf k) = false := by
  rw [find?_eq_some, slotOf_after, held_after ht (slotOf_lt ht k), Option.bind_eq_some_iff]
  constructor
  · intro h
    obtain ⟨c, hlast, hleft⟩ := h
    obtain rfl := Call.left_eq_some.mp hleft
    exact (find?_reverse_eq_some.mp hlast).2
  · intro h
    -- The key belongs to its own slot, so the call that stored it touched the slot.
    exact ⟨.remember k r, find?_reverse_eq_some.mpr ⟨decide_eq_true rfl, h⟩, rfl⟩

/-- The result was the last one stored under the key since the table was cleared, and the later
    calls came after it. -/
def LastStored (past : List (Call κ ν)) (k : κ) (result : ν) (later : List (Call κ ν)) : Prop :=
  .remember k result :: later <:+ past ∧ .clear ∉ later ∧ ∀ r, .remember k r ∉ later

/-- Among the calls, a different key was stored in the slot of the key. -/
def Displaced (t : ComputedTable κ ν) (k : κ) (later : List (Call κ ν)) : Prop :=
  ∃ k' r, .remember k' r ∈ later ∧ k' ≠ k ∧ t.slotOf k' = t.slotOf k

/-- A result is found if it was the last one of its key and has not been displaced. -/
theorem find?_after_iff_lastStored {bits : Nat} (ht : ComputedTable.empty bits = .ok t)
    {k : κ} {r : ν} : (t.after past).find? k = some r ↔
      ∃ later, LastStored past k r later ∧ ¬ t.Displaced k later := by
  rw [find?_after_eq_some ht]
  constructor
  · intro h
    obtain ⟨later, hstored, hfree⟩ := h
    refine ⟨later, ⟨hstored, ?_, ?_⟩, ?_⟩
    · intro hclear
      exact Bool.noConfusion (hfree _ hclear)
    · intro r' hsame
      exact of_decide_eq_false (hfree _ hsame) rfl
    · intro hdisplaced
      obtain ⟨k', r', hother, -, hslot⟩ := hdisplaced
      exact of_decide_eq_false (hfree _ hother) hslot
  · intro h
    obtain ⟨later, ⟨hstored, hclear, hsame⟩, hdisplaced⟩ := h
    refine ⟨later, hstored, fun c hc => ?_⟩
    cases c with
    | remember k' r' =>
      apply decide_eq_false
      intro hslot
      -- What is stored in the slot is stored under the key or under a different one.
      by_cases hkey : k' = k
      · exact hsame r' (hkey ▸ hc)
      · exact hdisplaced ⟨k', r', hc, hkey, hslot⟩
    | fetch k' => rfl
    | clear => exact absurd hc hclear

/-! ## §5 Counts -/

/-- A look-up adds one to the counts, and a result that is found adds one to the hits. -/
theorem counts_call (t : ComputedTable κ ν) (c : Call κ ν) :
    (t.call c).2.hits = t.hits + (if (t.call c).1.isSome then 1 else 0) ∧
    (t.call c).2.hits + (t.call c).2.misses =
      t.hits + t.misses + (if c.isFetch then 1 else 0) := by
  cases c with
  | remember k r => exact ⟨rfl, rfl⟩
  | fetch k =>
    cases hfind : t.find? k with
    | none => simp [call, fetch, hfind, Call.isFetch, Nat.add_assoc]
    | some r => simp [call, fetch, hfind, Call.isFetch, Nat.add_right_comm]
  | clear => exact ⟨rfl, rfl⟩

theorem counts_after (t : ComputedTable κ ν) (calls : List (Call κ ν)) :
    (t.after calls).hits = t.hits + (t.answers calls).countP Option.isSome ∧
    (t.after calls).hits + (t.after calls).misses =
      t.hits + t.misses + calls.countP Call.isFetch := by
  induction calls generalizing t with
  | nil => exact ⟨rfl, rfl⟩
  | cons c rest ih =>
    obtain ⟨hhits, hall⟩ := ih (t.call c).2
    obtain ⟨hhit, hcall⟩ := counts_call t c
    rw [after_cons, answers_cons, List.countP_cons, List.countP_cons]
    constructor
    · rw [hhits, hhit]
      omega
    · rw [hall, hcall]
      omega

/-! ## §6 The answers to calls -/

/-- A computed table of any size answers every look-up, after any calls.  What it finds is the
    result last stored under that very key since it was cleared.  It finds nothing only if there is
    no such result, or a different key has been stored in the same slot since.  Every look-up is
    counted once, as a hit if a result was found. -/
theorem latest_of_calls (bits : Nat) (calls : List (Call κ ν)) :
    (bits ≤ 31 → ∃ t : ComputedTable κ ν, ComputedTable.empty bits = .ok t) ∧
    ∀ t : ComputedTable κ ν, ComputedTable.empty bits = .ok t →
    (∀ (i : Nat) (k : κ), calls[i]? = some (.fetch k) →
      ∃ answer, (t.answers calls)[i]? = some answer ∧
      (∀ r, answer = some r → ∃ later, LastStored (calls.take i) k r later) ∧
      (answer = none ↔ ∀ r later, LastStored (calls.take i) k r later → t.Displaced k later)) ∧
    (t.after calls).hits + (t.after calls).misses = calls.countP Call.isFetch ∧
    (t.after calls).hits = (t.answers calls).countP Option.isSome := by
  refine ⟨fun hbits => ⟨_, if_pos hbits⟩, fun t ht => ⟨?answered, ?counted⟩⟩
  case answered =>
    intro i k hi
    refine ⟨_, getElem?_answers hi, ?_⟩
    -- The answer is what the table finds that the calls so far have left.
    simp only [call, fetch_fst]
    refine ⟨fun r hfound => ?found, ?missed, ?displaced⟩
    case found =>
      obtain ⟨later, hlast, -⟩ := (find?_after_iff_lastStored ht).mp hfound
      exact ⟨later, hlast⟩
    case missed =>
      intro hmiss r later hlast
      by_contra hkept
      have hfound := (find?_after_iff_lastStored ht).mpr ⟨later, hlast, hkept⟩
      rw [hmiss] at hfound
      cases hfound
    case displaced =>
      intro hdisplaced
      rw [Option.eq_none_iff_forall_ne_some]
      intro r hfound
      obtain ⟨later, hlast, hkept⟩ := (find?_after_iff_lastStored ht).mp hfound
      exact hkept (hdisplaced r later hlast)
  case counted =>
    obtain ⟨hhits, hall⟩ := counts_after t calls
    obtain rfl := eq_of_empty ht
    simpa using And.intro hall hhits

end

/-- A table with one slot: the second pair takes it from the first, so that only the second is
    found, and neither once the table has been cleared. -/
theorem latest_of_collision : ∃ t : ComputedTable (UInt64 × UInt64) Nat,
    let calls := [.remember (1, 2) 3, .remember (4, 5) 6, .fetch (1, 2), .fetch (4, 5), .clear,
      .fetch (4, 5)]
    ComputedTable.empty 0 = .ok t ∧ t.answers calls = [none, none, none, some 6, none, none] ∧
      t.Displaced (1, 2) [.remember (4, 5) 6] ∧
      (∃ later, LastStored (calls.take 3) (4, 5) 6 later) ∧
      (t.after calls).hits + (t.after calls).misses = 3 ∧ (t.after calls).hits = 1 := by
  let calls : List (Call (UInt64 × UInt64) Nat) := [.remember (1, 2) 3, .remember (4, 5) 6,
    .fetch (1, 2), .fetch (4, 5), .clear, .fetch (4, 5)]
  obtain ⟨hmade, hlaw⟩ := latest_of_calls 0 calls
  obtain ⟨t, ht⟩ := hmade (Nat.zero_le 31)
  obtain rfl : ⟨#[none], 0, 0⟩ = t := Except.ok.inj ht
  obtain ⟨hlookups, hall, hhits⟩ := hlaw _ ht
  have hanswers : answers ⟨#[none], 0, 0⟩ calls = [none, none, none, some 6, none, none] := by
    decide +kernel
  rw [hanswers] at hlookups hhits
  obtain ⟨_, hsecond, -, hmissed⟩ := hlookups 2 (1, 2) rfl
  obtain ⟨_, hthird, hfound, -⟩ := hlookups 3 (4, 5) rfl
  cases hsecond
  cases hthird
  refine ⟨_, ht, hanswers, hmissed.mp rfl 3 _ ?_, hfound 6 rfl, hall, hhits⟩
  -- The first pair was not stored again.
  exact ⟨List.suffix_rfl, by simp, by simp⟩

end ComputedTable

end Stimulus
