import Stimulus.Failure
import Stimulus.Hashing.Fingerprint

/-!
# Unique tables

A unique table stores every value once and names it by its index, counted from one in the order of
arrival.  Values of one bucket are chained from the newest to the oldest.  Once the chains hold
more than two values on average, the number of buckets doubles and all values are chained anew.

Main definitions:
- `UniqueTable`, `UniqueTable.empty`
- `UniqueTable.put`: the index of a value, stored if it is new
- `UniqueTable.value`, `UniqueTable.next`
-/

namespace Stimulus

/-! ## §1 Chains -/

/-- The chains of a table: for every bucket the index at its head, for every index the next one.
    An index of zero ends a chain. -/
structure Chains where
  links : Array Nat
  heads : Array Nat

namespace Chains

/-- Chains without values. -/
def empty (buckets : Nat) : Chains := ⟨#[], Array.replicate buckets 0⟩

/-- The index that follows `i` in its chain. -/
@[inline] def after (c : Chains) (i : Nat) : Nat := c.links.getD (i - 1) 0

/-- The next index is put at the head of the chain of `v`. -/
def thread {α : Type} [Fingerprint α] (c : Chains) (v : α) : Chains :=
  let bucket := bucketOf v c.heads.size
  let index := c.links.size + 1
  let head := c.heads.getD bucket 0
  ⟨c.links.push head, c.heads.setIfInBounds bucket index⟩

/-- The next index belongs to no chain. -/
def skip (c : Chains) : Chains := { c with links := c.links.push 0 }

end Chains

/-! ## §2 Tables -/

/-- Values under the indices `1, 2, …`, and the chains through which they are found. -/
structure UniqueTable (α : Type) where
  values : Array α
  chains : Chains

namespace UniqueTable

variable {α : Type}

/-- A table with `2^bits` buckets; there are at most `2^31` of them. -/
def empty (bits : Nat) : Except Fault (UniqueTable α) :=
  if bits ≤ 31 then .ok ⟨#[], .empty (1 <<< bits)⟩ else .error .uniqueTableBits

/-- The number of buckets. -/
def capacity (t : UniqueTable α) : Nat := t.chains.heads.size

/-- The number of stored values. -/
def size (t : UniqueTable α) : Nat := t.values.size

/-- The value at an index. -/
def value (t : UniqueTable α) (i : Nat) : Except Fault α :=
  if i = 0 then .error .nothingStored
  else match t.values[i - 1]? with
    | some v => .ok v
    | none => .error .nothingStored

/-- The index that follows in the same chain. -/
def next (t : UniqueTable α) (i : Nat) : Except Fault Nat :=
  if i = 0 then .error .nothingStored
  else match t.chains.links[i - 1]? with
    | some j => .ok j
    | none => .error .nothingStored

/-- Store a value without chaining it, so that `put` will not find it until the table grows. -/
def add (t : UniqueTable α) (v : α) : Nat × UniqueTable α :=
  (t.values.size + 1, ⟨t.values.push v, t.chains.skip⟩)

/-- Whether a value is the one stored at an index. -/
@[inline] def holds [DecidableEq α] (t : UniqueTable α) (v : α) (i : Nat) : Bool :=
  match t.values[i - 1]? with
  | some w => w = v
  | none => false

/-- The index of a value in the chain that starts at `i`.  Chains lead to ever smaller indices. -/
def findFrom [DecidableEq α] (t : UniqueTable α) (v : α) (i : Nat) : Option Nat :=
  if i = 0 then none
  else if t.holds v i then some i
  -- A test in place of a proof: it holds of every chain, and the search ends by it.
  else if t.chains.after i < i then t.findFrom v (t.chains.after i)
  else none
termination_by i

/-- The index of a stored value. -/
def find? [DecidableEq α] [Fingerprint α] (t : UniqueTable α) (v : α) : Option Nat :=
  t.findFrom v (t.chains.heads.getD (bucketOf v t.capacity) 0)

/-- Twice as many buckets, with all values chained anew in the order of their indices. -/
def grow [Fingerprint α] (t : UniqueTable α) : UniqueTable α :=
  { t with chains := t.values.foldl Chains.thread (Chains.empty (2 * t.capacity)) }

/-- The index of a value, which is stored unless it already was. -/
def put [DecidableEq α] [Fingerprint α] (t : UniqueTable α) (v : α) : Nat × UniqueTable α :=
  match t.find? v with
  | some i => (i, t)
  | none =>
    let index := t.values.size + 1
    let t : UniqueTable α := ⟨t.values.push v, t.chains.thread v⟩
    -- The index stays the same, whichever buckets the values are in.
    (index, if t.size > 2 * t.capacity then t.grow else t)

end UniqueTable

end Stimulus
