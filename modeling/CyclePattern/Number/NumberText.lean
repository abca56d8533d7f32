/-
# Written numbers

Two forms of a floating-point number: the plain one, which reads back exactly,
and the one with a fixed number of places, for a table.
-/

import CyclePattern.Number.Binary64

namespace CyclePattern.NumberText

open Decimal

/-- What a written form decides beyond the digits. -/
structure Style where
  /-- Least power of ten that is written by leading zeros and not by an exponent. -/
  leastPower : Int
  /-- Least power of ten beyond the plain form. -/
  powerLimit : Int
  /-- Least number of digits of an exponent. -/
  exponentWidth : Nat
  infinity : String
  notANumber : String

/-- Numbers of a report: plain from a ten-thousandth up to below ten to the
sixteenth, exponents with a sign and two digits. -/
def report : Style where
  leastPower := -4
  powerLimit := 16
  exponentWidth := 2
  infinity := "Infinity"
  notANumber := "NaN"

/-- A sign and the digits of an exponent. -/
def exponentText (style : Style) (power : Int) : List Char :=
  let digits := digitsOf power.natAbs
  (if power < 0 then '-' else '+') ::
    List.replicate (style.exponentWidth - digits.length) '0' ++ digits

/-- Digits with a point. A whole number keeps one zero after the point. -/
def positional (x : Decimal) : List Char :=
  if x.scale ≤ 0 then
    '0' :: '.' :: List.replicate (-x.scale).toNat '0' ++ x.digits
  else
    let size := x.scale.toNat
    let whole := x.digits.take size
    let fraction := x.digits.drop size
    whole ++ List.replicate (size - whole.length) '0' ++
      '.' :: (if fraction.isEmpty then ['0'] else fraction)

/-- One digit, the rest after a point, and an exponent. -/
def scientific (style : Style) (x : Decimal) : List Char :=
  let fraction := x.digits.drop 1
  x.digits.take 1 ++ (if fraction.isEmpty then [] else '.' :: fraction) ++
    'e' :: exponentText style (x.scale - 1)

/-- Written form of a finite positive number. -/
def positive (style : Style) (x : Decimal) : List Char :=
  if style.leastPower < x.scale && x.scale ≤ style.powerLimit then positional x
  else scientific style x

/-- A minus sign where one is due. -/
def signed (negative : Bool) (size : List Char) : List Char :=
  if negative then '-' :: size else size

/-- The form that reads back exactly. -/
def plain (style : Style) (x : Float) : List Char :=
  match Binary64.ofFloat x with
  | .notANumber => style.notANumber.toList
  | .infinite negative => signed negative style.infinity.toList
  | .finite negative mantissa exponent =>
    signed negative <|
      if mantissa = 0 then ['0', '.', '0'] else positive style (shortest mantissa exponent)

/-- Nearest whole number to a quotient, the even one halfway between two. -/
def roundQuotient (num den : Nat) : Nat :=
  let low := num / den
  let rest := num % den
  if 2 * rest > den || (2 * rest == den && low % 2 == 1) then low + 1 else low

/-- The form with a fixed number of places, rounded once from the exact value.
A negative number keeps its sign when it rounds to zero. -/
def fixed (places : Nat) (x : Float) : List Char :=
  match Binary64.ofFloat x with
  | .notANumber => ['n', 'a', 'n']
  | .infinite negative => signed negative ['i', 'n', 'f']
  | .finite negative mantissa exponent =>
    let (num, den) := Binary64.ratio mantissa exponent
    let digits := digitsOf (roundQuotient (num * tenPow places) den)
    let padded := List.replicate (places + 1 - digits.length) '0' ++ digits
    let size := padded.length - places
    signed negative <|
      padded.take size ++ if places = 0 then [] else '.' :: padded.drop size

end CyclePattern.NumberText
