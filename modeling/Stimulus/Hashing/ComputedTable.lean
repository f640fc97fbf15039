import Stimulus.Failure
import Stimulus.Hashing.Fingerprint

/-!
# Computed tables

A computed table remembers results by their key.  Every key has one slot; a later key may take the
slot from an earlier one, so a result can be forgotten, but a result that is found is the one last
stored under that very key.

Main definitions:
- `ComputedTable`, `ComputedTable.empty`
- `ComputedTable.fetch`, `ComputedTable.remember`, `ComputedTable.clear`
-/

namespace Stimulus

/-- Slots for results, and how many look-ups found one. -/
structure ComputedTable (κ ν : Type) where
  slots : Array (Option (κ × ν))
  hits : Nat
  misses : Nat

namespace ComputedTable

variable {κ ν : Type}

/-- A table with `2^bits` slots; there are at most `2^31` of them. -/
def empty (bits : Nat) : Except Fault (ComputedTable κ ν) :=
  if bits ≤ 31 then .ok ⟨Array.replicate (1 <<< bits) none, 0, 0⟩ else .error .computedTableBits

/-- The slot of a key. -/
def slotOf [Fingerprint κ] (t : ComputedTable κ ν) (k : κ) : Nat := bucketOf k t.slots.size

/-- The result stored under a key. -/
def find? [DecidableEq κ] [Fingerprint κ] (t : ComputedTable κ ν) (k : κ) : Option ν :=
  match t.slots.getD (t.slotOf k) none with
  | some (key, result) => if key = k then some result else none
  | none => none

/-- Look a key up and count whether it was found. -/
def fetch [DecidableEq κ] [Fingerprint κ] (t : ComputedTable κ ν) (k : κ) :
    Option ν × ComputedTable κ ν :=
  match t.find? k with
  | some result => (some result, { t with hits := t.hits + 1 })
  | none => (none, { t with misses := t.misses + 1 })

/-- Store a result under a key, in place of what its slot held. -/
def remember [Fingerprint κ] (t : ComputedTable κ ν) (k : κ) (result : ν) : ComputedTable κ ν :=
  let slot := t.slotOf k
  { t with slots := t.slots.setIfInBounds slot (some (k, result)) }

/-- Forget all results; the counts go on. -/
def clear (t : ComputedTable κ ν) : ComputedTable κ ν :=
  { t with slots := Array.replicate t.slots.size none }

end ComputedTable

end Stimulus
