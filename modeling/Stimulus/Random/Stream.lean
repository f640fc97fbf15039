import Stimulus.Random.ChaCha

/-!
# Streams of random words

Everything random is read from a stream of 32-bit words.  A stream either repeats a given list of
words for ever or is expanded from a seed.

Main definitions:
- `Stream`, `Stream.ofWords`, `Stream.ofKey`, `Stream.ofSeed`
- `Stream.word`, `Stream.word64`, `Stream.word128`
-/

namespace Stimulus

/-- Where the words of a stream come from: both sources deliver their words in blocks. -/
inductive Source where
  | cyclic (words : List UInt32)
  | cipher (key : ChaCha.Key)

namespace Source

/-- The words of a block. -/
def block : Source → Nat → List UInt32
  | .cyclic words, _ => words
  | .cipher key, n => ChaCha.block key n

/-- After this many words the stream repeats itself.  A cipher counts `2^64` blocks. -/
def period : Source → Nat
  | .cyclic words => words.length
  | .cipher _ => 1 <<< 68

end Source

/-- A position in the words of a source: what is left of the current block, and the number of the
    next block. -/
structure Stream where
  source : Source
  ready : List UInt32
  nextBlock : Nat

/-- A computation that reads words from a stream. -/
abbrev Draw : Type → Type := Step Stream

namespace Stream

/-- The stream that repeats a list of words. -/
def ofWords (words : List UInt32) : Stream := ⟨.cyclic words, [], 0⟩

/-- The stream that is expanded from a key. -/
def ofKey (key : ChaCha.Key) : Stream := ⟨.cipher key, [], 0⟩

/-- The stream that a seed stands for. -/
def ofSeed (seed : Nat) : Stream := ofKey (.ofSeed seed.toUInt64)

/-- The stream of an optional seed.  Without a seed it is expanded from entropy. -/
def ofSeed? (seed : Option Nat) (entropy : ChaCha.Key) : Stream :=
  match seed with
  | some seed => ofSeed seed
  | none => ofKey entropy

/-- The next word.  A stream over no words has none. -/
def word : Draw Nat := fun s =>
  match s with
  | ⟨source, w :: rest, n⟩ => .ok (w.toNat, ⟨source, rest, n⟩)
  | ⟨source, [], n⟩ =>
    -- The block is used up, so the next one is made.
    match source.block n with
    | w :: rest => .ok (w.toNat, ⟨source, rest, n + 1⟩)
    | [] => .error .drawNeverEnds

/-- Several words as one number, the least significant word first. -/
def words : Nat → Draw Nat
  | 0 => return 0
  | n + 1 => do
      let low ← word
      let high ← words n
      return low + high <<< 32

/-- A 64-bit word: two words, the lower one first. -/
def word64 : Draw Nat := words 2

/-- A 128-bit word: four words, the lowest one first. -/
def word128 : Draw Nat := words 4

end Stream

end Stimulus
