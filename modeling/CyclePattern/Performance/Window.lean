/-
# Windows of time

Playing a pattern divides a window of time among its parts. A division can
fail: nothing can be divided by zero, and a count can be too large to be a
measure of time.
-/

import CyclePattern.Number.Measure
import CyclePattern.Number.Numeral
import CyclePattern.Rhythm.Euclidean

namespace CyclePattern

/-- Why a pattern cannot be computed with. -/
inductive Fault
  | divisionByZero
  | number (fault : NumberFault)
  | unplayable (cause : Rhythm.Unplayable)
  deriving DecidableEq, Repr

/-- Wording of a fault. -/
def Fault.message : Fault → String
  | .divisionByZero => "float division by zero"
  | .number fault => fault.message
  | .unplayable cause => cause.message

/-- A stretch of time. -/
structure Window (α : Type) where
  start : α
  duration : α
  deriving DecidableEq, Repr

variable {α : Type} [Measure α]

/-- Quotient of two measures. -/
def quotient (x y : α) : Except Fault α :=
  if Measure.isZero y then .error .divisionByZero else .ok (x / y)

namespace Window

/-- Length of one of `count` equal parts. -/
def partLength (window : Window α) (count : Int) : Except Fault α :=
  if Measure.fits α count then quotient window.duration (Measure.ofInt count)
  else .error (.number .tooLarge)

/-- Stretch of `size` parts from the part `index` on. -/
def part (window : Window α) (length : α) (index size : Nat) : Window α :=
  ⟨window.start + Measure.ofInt index * length, length * Measure.ofInt size⟩

/-- The single part `index`. -/
def slot (window : Window α) (length : α) (index : Nat) : Window α :=
  ⟨window.start + Measure.ofInt index * length, length⟩

/-- Equal parts one after the other. There are none when the count is
negative. -/
def split (window : Window α) (count : Int) : Except Fault (List (Window α)) :=
  (window.partLength count).map fun length =>
    (List.range count.toNat).map (window.slot length)

end Window

end CyclePattern
