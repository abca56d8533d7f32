/-
# Measures of time

Playing a pattern divides windows of time. The same division serves binary
floating-point numbers, which the program computes with, and exact rationals,
in which the laws of the division hold without rounding.
-/

import CyclePattern.Number.Binary64

namespace CyclePattern

/-- Numbers that measure time, weight and speed. -/
class Measure (α : Type) extends Add α, Mul α, Div α where
  /-- The nearest measure to an integer. -/
  ofInt : Int → α
  /-- Whether an integer has a finite nearest measure. -/
  fits : Int → Bool
  /-- Whether a measure is zero, by which nothing can be divided. -/
  isZero : α → Bool
  /-- Whether a time is earlier than another. -/
  isBefore : α → α → Bool

namespace Measure

variable {α : Type} [Measure α]

/-- The measure one. -/
def one : α :=
  ofInt 1

/-- Sum of measures, from left to right. -/
def sum (xs : List α) : α :=
  xs.foldl (· + ·) (ofInt 0)

end Measure

/-- Smallest natural number that rounds to an infinite binary64 number: half a
step beyond the largest finite one. -/
def binary64Overflow : Nat :=
  twoPow 1024 - twoPow 970

instance : Measure Float where
  ofInt := Float.ofInt
  fits n := n.natAbs < binary64Overflow
  isZero x := x == 0
  isBefore x y := x < y

instance : Measure Rat where
  ofInt n := n
  fits _ := true
  isZero x := x == 0
  isBefore x y := x < y

end CyclePattern
