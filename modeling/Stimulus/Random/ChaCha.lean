import Stimulus.Failure

/-!
# The ChaCha block function

A key of eight words is expanded into blocks of sixteen words.  The generator runs twelve rounds,
that is six double rounds, over a state of four constants, the key, a 64-bit block counter and a
nonce of zero.

Main definitions:
- `ChaCha.Key`, `ChaCha.Key.ofSeed`
- `ChaCha.block`
-/

namespace Stimulus

namespace ChaCha

/-- The key of a generator. -/
abbrev Key : Type := Vector UInt32 8

/-- The state that the rounds work on. -/
abbrev State : Type := Vector UInt32 16

/-! ## §1 Keys -/

/-- A word rotated to the right. -/
def rotateRight (x : UInt32) (n : UInt32) : UInt32 :=
  if n % 32 = 0 then x else (x >>> (n % 32)) ||| (x <<< (32 - n % 32))

/-- A word rotated to the left. -/
def rotateLeft (x : UInt32) (n : UInt32) : UInt32 := (x <<< n) ||| (x >>> (32 - n))

/-- One step of the linear congruential generator that stretches a seed. -/
def stretch (state : UInt64) : UInt64 := state * 6364136223846793005 + 11634580027462260723

/-- The word that a state of the stretching generator yields. -/
def permute (state : UInt64) : UInt32 :=
  rotateRight (((state >>> 18) ^^^ state) >>> 27).toUInt32 (state >>> 59).toUInt32

/-- The words of a key, drawn from the states that follow `state`. -/
def keyWords (state : UInt64) : Nat → List UInt32
  | 0 => []
  | n + 1 => permute (stretch state) :: keyWords (stretch state) n

theorem length_keyWords (state : UInt64) (n : Nat) : (keyWords state n).length = n := by
  induction n generalizing state with
  | zero => rfl
  | succ n ih => simp [keyWords, ih]

/-- The key that a 64-bit seed stands for. -/
def Key.ofSeed (seed : UInt64) : Key :=
  ⟨(keyWords seed 8).toArray, by simp [length_keyWords]⟩

/-! ## §2 Rounds -/

/-- The quarter round mixes four words of the state. -/
def quarter (s : State) (a b c d : Fin 16) : State :=
  -- Each line adds, mixes and rotates; the distances are 16, 12, 8 and 7.
  let xa := s[a] + s[b]
  let xd := rotateLeft (s[d] ^^^ xa) 16
  let xc := s[c] + xd
  let xb := rotateLeft (s[b] ^^^ xc) 12
  let xa := xa + xb
  let xd := rotateLeft (xd ^^^ xa) 8
  let xc := xc + xd
  let xb := rotateLeft (xb ^^^ xc) 7
  (((s.set a xa).set b xb).set c xc).set d xd

/-- A double round mixes the columns and then the diagonals. -/
def doubleRound (s : State) : State :=
  -- The columns.
  let s := quarter s 0 4 8 12
  let s := quarter s 1 5 9 13
  let s := quarter s 2 6 10 14
  let s := quarter s 3 7 11 15
  -- The diagonals.
  let s := quarter s 0 5 10 15
  let s := quarter s 1 6 11 12
  let s := quarter s 2 7 8 13
  quarter s 3 4 9 14

/-- The number of double rounds. -/
def doubleRounds : Nat := 6

/-- The state from which a block is computed; the counter is taken modulo `2^64`. -/
def initial (key : Key) (counter : Nat) : State :=
  #v[0x61707865, 0x3320646e, 0x79622d32, 0x6b206574,
    key[0], key[1], key[2], key[3], key[4], key[5], key[6], key[7],
    counter.toUInt32, (counter >>> 32).toUInt32, 0, 0]

/-- The sixteen words of a block: the mixed state added to the state before mixing. -/
def block (key : Key) (counter : Nat) : List UInt32 :=
  let s := initial key counter
  let mixed := Nat.repeat doubleRound doubleRounds s
  (Vector.zipWith (· + ·) mixed s).toList

end ChaCha

end Stimulus
