import Stimulus.Random.Stream

/-!
# Random draws

The draws that sampling needs, and how each of them reads words from a stream.  Draws from a range
reject a word that would favour some values and try again; a stream repeats itself, so a draw that
rejects a whole period never ends.

Main definitions:
- `Dice`: the draws, for any monad that offers them
- `Stream.below`, `Stream.range`, `Stream.between`: draws by rejection
- `shuffle`
-/

namespace Stimulus

/-! ## §1 The draws -/

/-- Random draws. -/
class Dice (m : Type → Type) where
  /-- A fair coin. -/
  coin : m Bool
  /-- A natural number below a positive bound of any size. -/
  below (bound : Nat) : m Nat
  /-- A position below a positive total of at most 128 bits. -/
  position (total : Nat) : m Nat
  /-- An integer between two bounds, both included. -/
  between (lo hi : Int) : m Int
  /-- A 64-bit word. -/
  word : m Nat
  /-- A coin that falls on true with a given probability. -/
  chance (p : Float) : m Bool

/-! ## §2 Rejection -/

namespace Stream

/-- Try until an attempt is accepted, at most `fuel` times. -/
def tryUpTo {α : Type} (attempt : Draw (Option α)) : Nat → Draw α
  | 0 => throw .drawNeverEnds
  | fuel + 1 => do
      match ← attempt with
      | some a => return a
      | none => tryUpTo attempt fuel

/-- Try until an attempt is accepted.  Every attempt reads the same number of words, so after a
    period of attempts the stream is back where it was. -/
def retry {α : Type} (attempt : Draw (Option α)) : Draw α := do
  tryUpTo attempt (← get).source.period

/-- A natural number below a bound: as many bits as the bound has, until they are below it. -/
def below (bound : Nat) : Draw Nat := do
  if bound = 0 then throw .nothingStored
  let bits := BitSort.bitLength bound
  let whole := bits / 32
  let extra := bits % 32
  retry do
    let low ← words whole
    let high ← if extra = 0 then pure 0 else (· >>> (32 - extra)) <$> word
    -- The words are put together with the least significant one first.
    let n := low + high <<< (32 * whole)
    return if n < bound then some n else none

/-- A natural number below `range`, from a draw of `bits` bits: the high half of the product of the
    draw and the range.  A low half beyond the largest multiple of the range is rejected.  A range
    of zero stands for all `2^bits` numbers. -/
def range (bits : Nat) (draw : Draw Nat) (range : Nat) : Draw Nat :=
  if range = 0 then draw
  else
    -- Numbers beyond the zone would favour some results.
    let zone := range <<< (bits - BitSort.bitLength range) - 1
    retry do
      let product := (← draw) * range
      return if (BitVec.ofNat bits product).toNat ≤ zone then some (product >>> bits) else none

/-- An integer between two bounds of 128 bits. -/
def between (lo hi : Int) : Draw Int := do
  if hi < lo then throw .nothingStored
  let offset ← range 128 word128 (BitVec.ofInt 128 (hi - lo + 1)).toNat
  return (BitVec.ofInt 128 (lo + offset)).toInt

/-- A coin that falls on true when a 64-bit word lies below `p * 2^64`; certainty needs no word. -/
def chance (p : Float) : Draw Bool := do
  if p == 1.0 then return true
  return decide ((← word64) < (p * 18446744073709551616.0).toUInt64.toNat)

instance : Dice Draw where
  coin := return decide (1 <<< 31 ≤ (← word))
  below := below
  position total := if total = 0 then throw .nothingStored else range 128 word128 total
  between := between
  word := word64
  chance := chance

/-! ## §3 Shuffling -/

/-- Exchange every position from `i` down to the first with a random one that is not above it. -/
def shuffleUpTo {α : Type} (xs : Array α) : Nat → Draw (Array α)
  | 0 => return xs
  | i + 1 => do
      let j ← range 32 word (i + 2)
      shuffleUpTo (xs.swapIfInBounds (i + 1) j) i

/-- A random permutation. -/
def shuffle {α : Type} (xs : Array α) : Draw (Array α) := shuffleUpTo xs (xs.size - 1)

end Stream

end Stimulus
