/-!
# Decimal texts of floating-point numbers

A binary floating-point number stands for all reals that round to it.  Its shortest decimal is the
one on the coarsest decimal grid that has a point among those reals; of two such points the nearer
one is taken.  A decimal is read with one rounding for its digits and one for its power of ten, so
what is read need not be the number nearest to the decimal.

Main definitions:
- `Dyadic`: a positive number `units / 4 * 2^exponent` and the reals that round to it
- `Dyadic.onGrid?`, `Dyadic.shortest`
- `decimalText`: the text of a floating-point number in positional notation
- `Numeral`, `decimalValue?`: the floating-point number that a text is read as
-/

namespace Stimulus

/-! ## §1 The reals that round to a number -/

/-- A positive binary number as a fraction, with the bounds of the reals that round to it as
    fractions of the same denominator.  The bounds themselves round to it when the last bit of the
    number is zero. -/
structure Dyadic where
  value : Nat
  lower : Nat
  upper : Nat
  denominator : Nat
  closed : Bool

namespace Dyadic

/-- The number `mantissa * 2^exponent`.  Below a power of two the next number is only half as far
    away, unless the numbers are denormal. -/
def ofParts (mantissa : Nat) (exponent : Int) (narrowBelow : Bool) : Dyadic :=
  let scale := 1 <<< (exponent - 2).toNat
  { value := 4 * mantissa * scale
    lower := (4 * mantissa - if narrowBelow then 1 else 2) * scale
    upper := (4 * mantissa + 2) * scale
    denominator := 1 <<< (2 - exponent).toNat
    closed := mantissa % 2 = 0 }

/-- Whether the fraction `n / (denominator * scale)` rounds to the number. -/
def rounds (d : Dyadic) (n scale : Nat) : Bool :=
  if d.closed then d.lower * scale ≤ n && n ≤ d.upper * scale
  else d.lower * scale < n && n < d.upper * scale

/-- The multiple of `10^power` that rounds to the number and is nearest to it, the larger one of
    two that are equally near. -/
def onGrid? (d : Dyadic) (power : Int) : Option Nat :=
  let up := Nat.pow 10 power.toNat
  let down := Nat.pow 10 (-power).toNat
  let step := d.denominator * up
  let below := d.value * down / step
  let fits (k : Nat) : Bool := d.rounds (k * step) down
  let gap := d.value * down - below * step
  match fits below, fits (below + 1) with
  | true, true => some (if 2 * gap < step then below else below + 1)
  | true, false => some below
  | false, true => some (below + 1)
  | false, false => none

/-- The coarsest grid with a point that rounds to the number, from `10^power` on down. -/
def shortestFrom (d : Dyadic) (power : Int) : Nat → Nat × Int
  | 0 => (0, 0)
  | tries + 1 =>
    match d.onGrid? power with
    | some k => (k, power)
    -- A finer grid has more points, so the search goes on there.
    | none => d.shortestFrom (power - 1) tries

/-- The shortest decimal: digits and a power of ten.  The powers between `10^309` and `10^-341`
    suffice for 64-bit numbers. -/
def shortest (d : Dyadic) : Nat × Int := d.shortestFrom 309 651

end Dyadic

/-! ## §2 Positional notation -/

/-- Digits and a power of ten, written without an exponent. -/
def positional (digits : Nat) (power : Int) : String :=
  let text := toString digits
  let places := (-power).toNat
  if places = 0 then text ++ "".pushn '0' power.toNat
  else
    let padded := ("".pushn '0' (places + 1 - text.length) ++ text).toList
    let whole := padded.length - places
    String.ofList (padded.take whole) ++ "." ++ String.ofList (padded.drop whole)

/-- The shortest text of a floating-point number in positional notation. -/
def decimalText (x : Float) : String :=
  let bits := x.toBits.toNat
  let sign := if bits >>> 63 = 1 then "-" else ""
  let biased := (bits >>> 52) % 2048
  let fraction := bits % (1 <<< 52)
  if biased = 2047 then if fraction = 0 then sign ++ "inf" else "NaN"
  else if biased = 0 ∧ fraction = 0 then sign ++ "0"
  else
    let mantissa := if biased = 0 then fraction else 1 <<< 52 + fraction
    let exponent : Int := (max 1 biased : Nat) - 1075
    let number := Dyadic.ofParts mantissa exponent (fraction = 0 ∧ 1 < biased)
    let (digits, power) := number.shortest
    sign ++ positional digits power

/-! ## §3 Reading -/

/-- The digits of a number before and after the point, and the power of ten that it is scaled by. -/
structure Numeral where
  negative : Bool
  whole : List Nat
  fraction : List Nat
  power : Int
  deriving DecidableEq, Repr

namespace Numeral

/-- Digits up to something else, and what follows them. -/
def digits (text : List Char) : List Nat × List Char :=
  ((text.takeWhile Char.isDigit).map (·.toNat - '0'.toNat), text.dropWhile Char.isDigit)

/-- A text without its minus sign, and whether there was one. -/
def sign : List Char → Bool × List Char
  | '-' :: rest => (true, rest)
  | '+' :: rest => (false, rest)
  | text => (false, text)

/-- A power of ten, which may be missing. -/
def power? : List Char → Option Int
  | [] => some 0
  | mark :: rest =>
    let (negative, rest) := sign rest
    match digits rest with
    | (exponent, []) =>
      let size : Nat := exponent.foldl (10 * · + ·) 0
      if mark.toLower ≠ 'e' ∨ exponent.isEmpty then none
      else some (if negative then -(size : Int) else size)
    | _ => none

/-- The number that a text is. -/
def ofText? (text : String) : Option Numeral := do
  let (negative, text) := sign text.toList
  let (whole, text) := digits text
  let (fraction, text) := match text with
    | '.' :: text => digits text
    | text => ([], text)
  if whole.isEmpty then none
  return ⟨negative, whole, fraction, ← power? text⟩

/-- Append digits to a number of 64 bits, up to the first that does not fit, and count the rest. -/
def takeDigits (acc : Nat) : List Nat → Nat × Nat
  | [] => (acc, 0)
  | d :: rest =>
    if 10 * acc + d < 1 <<< 64 then takeDigits (10 * acc + d) rest else (acc, rest.length + 1)

/-- The number as 64 bits of digits and a power of ten.  Digits that do not fit are as good as zero;
    before the point they still count as places. -/
def parts (n : Numeral) : Nat × Int :=
  let (whole, places) := takeDigits 0 n.whole
  let (significand, ignored) := takeDigits whole n.fraction
  (significand, n.power + places - (n.fraction.length - ignored : Nat))

/-- A power of ten. -/
def tenTo (k : Nat) : Float := Float.ofScientific 1 false k

/-- A number divided by a power of ten, in steps that are floating-point numbers themselves. -/
def divideByTens (x : Float) (k : Nat) : Float :=
  if k ≤ 308 then x / tenTo k
  else if x == 0.0 then x
  else divideByTens (x / tenTo 308) (k - 308)
termination_by k

/-- A number scaled by a power of ten, unless it gets too large. -/
def scale? (x : Float) : Int → Option Float
  | .negSucc k => some (divideByTens x (k + 1))
  | .ofNat k =>
    if x == 0.0 then some x
    else if k ≤ 308 ∧ (x * tenTo k).isFinite then some (x * tenTo k)
    else none

/-- The floating-point number that a decimal is read as. -/
def toFloat? (n : Numeral) : Option Float := do
  let x ← scale? (Float.ofNat n.parts.1) n.parts.2
  return if n.negative then -x else x

end Numeral

/-- The floating-point number that a text is read as, unless it is no decimal or too large. -/
def decimalValue? (text : String) : Option Float := do
  (← Numeral.ofText? text).toFloat?

end Stimulus
