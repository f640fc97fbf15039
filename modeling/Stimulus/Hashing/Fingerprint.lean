/-!
# Fingerprints

A fingerprint condenses a value into one 64-bit word.  Pairs and triples of words are condensed by
Szudzik's pairing function, whose arithmetic wraps because the result only chooses a bucket.

Main definitions:
- `pairing`, `pairing3`
- `spread`: scatter a fingerprint before it chooses a bucket
- `Fingerprint`: types whose values have a fingerprint
-/

namespace Stimulus

/-- Szudzik's pairing of two words: `b * b + a` when `a < b`, and `a * a + a + b` otherwise. -/
@[inline] def pairing (a b : UInt64) : UInt64 :=
  if a < b then b * b + a else a * a + a + b

/-- The pairing of three words, from the left. -/
@[inline] def pairing3 (a b c : UInt64) : UInt64 := pairing (pairing a b) c

/-- Fibonacci hashing: multiply by `2^64` over the golden ratio and fold the high bits down. -/
@[inline] def spread (h : UInt64) : UInt64 :=
  let h := 0x9E3779B97F4A7C15 * h
  h ^^^ (h >>> 29)

/-- Types whose values have a fingerprint.  Equal values have equal fingerprints because a
    fingerprint is a function of the value. -/
class Fingerprint (α : Type) where
  fingerprint : α → UInt64

export Fingerprint (fingerprint)

instance : Fingerprint (UInt64 × UInt64) where
  fingerprint p := pairing p.1 p.2

instance : Fingerprint (UInt64 × UInt64 × UInt64) where
  fingerprint p := pairing3 p.1 p.2.1 p.2.2

/-- The bucket that a value belongs to, of a given number of buckets. -/
@[inline, irreducible] def bucketOf {α : Type} [Fingerprint α] (v : α) (buckets : Nat) : Nat :=
  (spread (fingerprint v) % buckets.toUInt64).toNat

end Stimulus
