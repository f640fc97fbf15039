import Stimulus.Diagram.Conditional

/-!
# Circuits over words of functions

A word is a list of Boolean functions, the least significant bit first.  The circuits compute with
words as the machine does with bits: addition ripples a carry, multiplication adds shifted rows,
division restores, and shifts move by powers of two, one bit of the amount after the other.

Main definitions:
- `Word`, `constantWord`, `resizeWord`, `chooseWord`
- `addWords`, `subtractWords`, `negateWord`, `multiplyWords`
- `unsignedLess`, `signedLess`, `equalWords`
- `divideUnsigned`, `divideSigned`
- `shiftWordLeft`, `shiftWordRight`
-/

namespace Stimulus

/-- Boolean functions, the least significant bit first. -/
abbrev Word : Type := List Edge

/-! ## §1 Wiring -/

/-- A bit that does not depend on anything. -/
def constantBit (b : Bool) : Edge := if b then .one else .zero

/-- The low `width` bits of a number. -/
def constantWord (n width : Nat) : Word :=
  (List.range width).map fun i => constantBit (n.testBit i)

/-- The bit that a word is extended with: the top bit of a signed word, otherwise false. -/
def fillBit (signed : Bool) (w : Word) : Edge := if signed then w.getLastD .zero else .zero

/-- A word cut off or extended to a width. -/
def resizeWord (signed : Bool) (w : Word) (width : Nat) : Word :=
  w.take width ++ List.replicate (width - w.length) (fillBit signed w)

/-- A word with every bit complemented. -/
def complementWord (w : Word) : Word := w.map (- ·)

/-- A word with its top bit complemented, so that signed order becomes unsigned order. -/
def flipTop (w : Word) : Word :=
  match w.reverse with
  -- A word without bits has no sign.
  | [] => []
  | top :: rest => (-top :: rest).reverse

/-- Whether any bit is set. -/
def anyBit (w : Word) : Build Edge := disjAny w

/-- An operation applied bit by bit, from the least significant bit on. -/
def bitwise (op : Edge → Edge → Build Edge) : Word → Word → Build Word
  | x :: xs, y :: ys => do
      let z ← op x y
      let zs ← bitwise op xs ys
      return z :: zs
  | _, _ => return []

/-- One of two words. -/
def chooseWord (cond : Edge) (yes no : Word) : Build Word := bitwise (ite cond) yes no

/-! ## §2 Addition and subtraction -/

/-- Add two words and a carry. -/
def addCarry (carry : Edge) : Word → Word → Build Word
  | x :: xs, y :: ys => do
      let half ← xor x y
      let sum ← xor half carry
      -- A carry leaves this place when two of the three bits are set.
      let both ← conj x y
      let ripple ← conj carry half
      let carry ← disj both ripple
      let sums ← addCarry carry xs ys
      return sum :: sums
  | _, _ => return []

/-- The sum, modulo the width. -/
def addWords (a b : Word) : Build Word := addCarry .zero a b

/-- The difference, modulo the width. -/
def subtractWords (a b : Word) : Build Word := addCarry .one a (complementWord b)

/-- The negative, modulo the width. -/
def negateWord (a : Word) : Build Word := subtractWords (List.replicate a.length .zero) a

/-! ## §3 Multiplication -/

/-- A word under a mask bit, moved up by `shift` places and cut off at the same width. -/
def maskedRow (bit : Edge) (shift : Nat) (b : Word) : Build Word := do
  let row ← (b.take (b.length - shift)).mapM (conj bit ·)
  return List.replicate (min shift b.length) .zero ++ row

/-- Add one row for every remaining bit of the multiplier. -/
def multiplyFrom (acc : Word) (shift : Nat) (b : Word) : Word → Build Word
  | [] => return acc
  | bit :: rest => do
      let row ← maskedRow bit shift b
      let acc ← addWords acc row
      multiplyFrom acc (shift + 1) b rest

/-- The product, modulo the width. -/
def multiplyWords (a b : Word) : Build Word :=
  multiplyFrom (List.replicate a.length .zero) 0 b a

/-! ## §4 Comparison -/

/-- Whether the words agree; the comparison ends at a bit that makes it false. -/
def equalWords (a b : Word) : Build Edge :=
  conjWith (fun p => iff p.1 p.2) .one (a.zip b)

/-- Compare from the least significant bit on: the highest bit that differs decides. -/
def lessFrom (less : Edge) : Word → Word → Build Edge
  | x :: xs, y :: ys => do
      let differ ← xor x y
      -- Where the bits differ, the second one tells which word is larger.
      let less ← ite differ y less
      lessFrom less xs ys
  | _, _ => return less

/-- Whether the first word is the smaller natural number. -/
def unsignedLess (a b : Word) : Build Edge := lessFrom .zero a b

/-- Whether the first word is the smaller number in two's complement. -/
def signedLess (a b : Word) : Build Edge := unsignedLess (flipTop a) (flipTop b)

/-! ## §5 Division -/

/-- Bring down the remaining bits of the dividend, the most significant one first.  Where the
    divisor fits into the remainder it is taken off and the quotient gets a one. -/
def divideFrom (divisor quotient remainder : Word) : Word → Build (Word × Word)
  | [] => return (quotient, remainder)
  | bit :: rest => do
      -- One place more than the dividend: the bit that drops out is zero.
      let shifted := bit :: remainder.dropLast
      let less ← unsignedLess shifted divisor
      let reduced ← subtractWords shifted divisor
      let remainder ← chooseWord (-less) reduced shifted
      divideFrom divisor (-less :: quotient) remainder rest

/-- Quotient and remainder.  Division by zero gives an all-ones quotient and leaves the dividend as
    remainder. -/
def divideUnsigned (a b : Word) : Build (Word × Word) := do
  -- With one place more, what is left over can be moved up before it is compared.
  let divisor := resizeWord false b (a.length + 1)
  let start := List.replicate (a.length + 1) Edge.zero
  let (quotient, remainder) ← divideFrom divisor [] start a.reverse
  return (quotient, remainder.take a.length)

/-- Quotient and remainder of the absolute values, with the signs put back: the quotient is
    negative when the signs differ, the remainder has the sign of the dividend. -/
def divideSigned (a b : Word) : Build (Word × Word) := do
  let (some signA, some signB) := (a.getLast?, b.getLast?) | return ([], [])
  -- The least number is its own negative, which read without a sign is its absolute value.
  let negA ← negateWord a
  let absA ← chooseWord signA negA a
  let negB ← negateWord b
  let absB ← chooseWord signB negB b
  let (quotient, remainder) ← divideUnsigned absA absB
  let differ ← xor signA signB
  let negQuotient ← negateWord quotient
  let quotient ← chooseWord differ negQuotient quotient
  let negRemainder ← negateWord remainder
  let remainder ← chooseWord signA negRemainder remainder
  return (quotient, remainder)

/-! ## §6 Shifts -/

/-- A word moved up by `n` places. -/
def moveUp (n : Nat) (w : Word) : Word :=
  (List.replicate n Edge.zero ++ w).take w.length

/-- A word moved down by `n` places and filled from above. -/
def moveDown (fill : Edge) (n : Nat) (w : Word) : Word :=
  w.drop n ++ List.replicate (min n w.length) fill

/-- Shift by the bits of an amount: bit `k` moves the word by `2^k` places, which is everything
    once that reaches the width. -/
def shiftFrom (move : Nat → Word → Word) (w : Word) (k : Nat) : Word → Build Word
  | [] => return w
  | bit :: rest => do
      -- A distance beyond the width moves everything, so neither it nor the power grows further.
      let w ← chooseWord bit (move (min (1 <<< min k w.length) w.length) w) w
      shiftFrom move w (k + 1) rest

/-- A left shift. -/
def shiftWordLeft (a amount : Word) : Build Word := shiftFrom moveUp a 0 amount

/-- A right shift, which fills with the sign of a signed word. -/
def shiftWordRight (signed : Bool) (a amount : Word) : Build Word :=
  shiftFrom (moveDown (fillBit signed a)) a 0 amount

end Stimulus
