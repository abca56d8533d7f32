/-
# Exact contents of a floating-point number

A finite binary64 number is an integer times a power of two. Every printed form
of a number is computed from these two, in exact integer arithmetic.

A finite number is written with the fewest significant digits among the
decimals that round to it, and of those with the nearest to it. All decimals of
`n` digits form a grid. If a point of the grid rounds to the number, so does one
of the number's two neighbours on the grid, so only these two are tried.
-/

namespace CyclePattern

/-- A power of two. -/
def twoPow (n : Nat) : Nat :=
  Nat.pow 2 n

/-- A power of ten. -/
def tenPow (n : Nat) : Nat :=
  Nat.pow 10 n

/-- What a binary64 number stands for. A finite number is `mantissa` times two
to the `exponent`. -/
inductive Binary64
  | notANumber
  | infinite (negative : Bool)
  | finite (negative : Bool) (mantissa : Nat) (exponent : Int)
  deriving DecidableEq, Repr

namespace Binary64

/-- Read the contents off the bits: one for the sign, eleven for the exponent
and fifty-two for the mantissa, whose leading one is not stored. -/
def ofFloat (x : Float) : Binary64 :=
  let bits := x.toBits.toNat
  let negative := bits / twoPow 63 == 1
  let exponent : Nat := bits / twoPow 52 % twoPow 11
  let fraction := bits % twoPow 52
  if exponent == twoPow 11 - 1 then
    if fraction == 0 then infinite negative else notANumber
  else if exponent == 0 then finite negative fraction (-1074)
  else finite negative (twoPow 52 + fraction) ((exponent : Int) - 1075)

/-- Numerator and denominator of `mantissa` times two to the `exponent`. -/
def ratio (mantissa : Nat) (exponent : Int) : Nat × Nat :=
  if exponent < 0 then (mantissa, twoPow (-exponent).toNat)
  else (mantissa * twoPow exponent.toNat, 1)

end Binary64

/-- A decimal: zero, a point, the digits of `digits`, times ten to the `scale`. -/
structure Decimal where
  digits : List Char
  scale : Int
  deriving DecidableEq, Repr

namespace Decimal

/-- Decimal digits of a natural number. -/
def digitsOf (n : Nat) : List Char :=
  Nat.toDigits 10 n

/-- The power of ten just above a positive quotient: the least `k` with
`num / den < 10 ^ k`. -/
def magnitude (num den : Nat) : Int :=
  if den ≤ num then (digitsOf (num / den)).length
  else 1 - ((digitsOf ((den - 1) / num)).length : Int)

/-- Whether the decimal `point` times ten to the `place` lies in the interval of
numbers that round to `mantissa` times two to the `exponent`. The interval ends
half a step away, a quarter of a step below a power of two, and holds its ends
exactly when the mantissa is even. -/
def roundsTo (mantissa : Nat) (exponent : Int) (point : Nat) (place : Int) : Bool :=
  let low := if mantissa == twoPow 52 && exponent != -1074 then 4 * mantissa - 1
    else 4 * mantissa - 2
  let high := 4 * mantissa + 2
  let (twoUp, twoDown) := Binary64.ratio 1 (exponent - 2)
  let tenUp := tenPow place.toNat
  let tenDown := tenPow (-place).toNat
  let value := point * tenUp * twoDown
  let below := low * twoUp * tenDown
  let above := high * twoUp * tenDown
  if mantissa % 2 == 0 then below ≤ value && value ≤ above
  else below < value && value < above

/-- The nearest decimal of `count` digits that rounds to the number, if any.
Halfway between two of them the even one is taken. -/
def onGrid? (mantissa : Nat) (exponent : Int) (num den : Nat) (magnitude : Int)
    (count : Nat) : Option (Nat × Int) :=
  let place := magnitude - count
  let scaledNum := num * tenPow (-place).toNat
  let scaledDen := den * tenPow place.toNat
  let low := scaledNum / scaledDen
  let rest := scaledNum % scaledDen
  let lowFits := roundsTo mantissa exponent low place
  let highFits := roundsTo mantissa exponent (low + 1) place
  let highNearer := 2 * rest > scaledDen || (2 * rest == scaledDen && low % 2 == 1)
  if lowFits && highFits then some (if highNearer then low + 1 else low, place)
  else if lowFits then some (low, place)
  else if highFits then some (low + 1, place)
  else none

/-- Decimal of a whole number times a power of ten, without trailing zeros. -/
def ofPlace (point : Nat) (place : Int) : Decimal :=
  let digits := digitsOf point
  ⟨(digits.reverse.dropWhile (· == '0')).reverse, place + digits.length⟩

/-- Shortest decimal that rounds to a positive finite number. Seventeen digits
are always enough. -/
def shortest (mantissa : Nat) (exponent : Int) : Decimal :=
  let (num, den) := Binary64.ratio mantissa exponent
  let top := magnitude num den
  match (List.range 17).findSome? fun n => onGrid? mantissa exponent num den top (n + 1) with
  | some (point, place) => ofPlace point place
  | none => ⟨[], 0⟩

end Decimal

end CyclePattern
