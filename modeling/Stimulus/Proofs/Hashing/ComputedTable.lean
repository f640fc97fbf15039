import Stimulus.Hashing.ComputedTable

/-!
# Laws of the computed table

A computed table answers only what was stored under the very key that it is asked for.  What holds
of every stored pair of key and result therefore holds of every hit, and keeps holding as long as
it holds of the pairs that are stored.

Main definitions:
- `ComputedTable.Stores`: some slot holds a result under a key
- `ComputedTable.held`: what a slot holds
-/

namespace Stimulus

namespace ComputedTable

variable {κ ν : Type} {t : ComputedTable κ ν}

/-- Some slot holds the result under the key. -/
def Stores (t : ComputedTable κ ν) (k : κ) (result : ν) : Prop :=
  ∃ slot : Nat, t.slots[slot]? = some (some (k, result))

/-- What a slot holds. -/
def held (t : ComputedTable κ ν) (slot : Nat) : Option (κ × ν) := t.slots.getD slot none

/-- A new table holds nothing and has counted nothing. -/
theorem eq_of_empty {bits : Nat} (h : ComputedTable.empty bits = .ok t) :
    t = ⟨Array.replicate (1 <<< bits) none, 0, 0⟩ := by
  unfold ComputedTable.empty at h
  split at h
  · exact (Except.ok.inj h).symm
  · cases h

theorem not_stores_empty {bits : Nat} (h : ComputedTable.empty bits = .ok t) (k : κ) (r : ν) :
    ¬ t.Stores k r := by
  obtain rfl := eq_of_empty h
  intro hstores
  obtain ⟨slot, hslot⟩ := hstores
  -- All slots are empty.
  rw [Array.getElem?_replicate] at hslot
  split at hslot <;> simp at hslot

theorem stores_of_held {slot : Nat} {k : κ} {r : ν} (h : t.held slot = some (k, r)) :
    t.Stores k r := by
  rw [held, Array.getD_eq_getD_getElem?, Option.getD_eq_iff] at h
  exact ⟨slot, by simpa using h⟩

variable [Fingerprint κ]

/-- A result is found if the slot of its key holds it under this very key. -/
theorem find?_eq_some [DecidableEq κ] {k : κ} {r : ν} :
    t.find? k = some r ↔ t.held (t.slotOf k) = some (k, r) := by
  rw [held]
  unfold find?
  cases t.slots.getD (t.slotOf k) none with
  | none => simp
  | some pair => by_cases hkey : pair.1 = k <;> simp [Prod.ext_iff, hkey]

/-- A hit is a stored result. -/
theorem stores_of_find? [DecidableEq κ] {k : κ} {r : ν} (h : t.find? k = some r) :
    t.Stores k r :=
  stores_of_held (find?_eq_some.mp h)

/-- Looking a key up changes no slot. -/
theorem slots_fetch [DecidableEq κ] (t : ComputedTable κ ν) (k : κ) :
    (t.fetch k).2.slots = t.slots := by
  unfold fetch
  split <;> rfl

theorem fetch_fst [DecidableEq κ] (t : ComputedTable κ ν) (k : κ) :
    (t.fetch k).1 = t.find? k := by
  unfold fetch
  split <;> simp_all

/-- What is stored after a result was kept is that result or was stored before. -/
theorem Stores.of_remember {k k' : κ} {r r' : ν} (h : (t.remember k r).Stores k' r') :
    k' = k ∧ r' = r ∨ t.Stores k' r' := by
  obtain ⟨slot, hslot⟩ := h
  simp only [remember] at hslot
  by_cases hs : t.slotOf k = slot
  · -- The slot that was written holds the new pair.
    rw [Array.getElem?_setIfInBounds] at hslot
    rw [if_pos hs] at hslot
    split at hslot
    · simp only [Option.some.injEq, Prod.mk.injEq] at hslot
      exact .inl ⟨hslot.1.symm, hslot.2.symm⟩
    · cases hslot
  · -- Every other slot is as before.
    rw [Array.getElem?_setIfInBounds_ne hs] at hslot
    exact .inr ⟨slot, hslot⟩

end ComputedTable

end Stimulus
