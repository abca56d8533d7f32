/-
# Numerals

A numeral is an optional minus sign, decimal digits and an optional fraction.
It is kept as it is written, since a count must have no fraction while a
weight may, and since a dropped numeral is quoted in a message. Reading takes
the longest numeral at the front of a text.

A numeral without a fraction is converted to an integer only while it has few
enough digits. One with too many is a fault, and so is an integer that becomes a
float where there is none near it.
-/

import CyclePattern.Text.Class

namespace CyclePattern

open Text

/-- Most digits of a whole number that is converted. -/
def digitLimit : Nat := 4300

/-- Why a number that is written well cannot be computed with. -/
inductive NumberFault
  /-- An integer that no float comes near would have to become one. -/
  | tooLarge
  /-- A whole number has more digits than are converted. -/
  | tooLong (digits : Nat)
  deriving DecidableEq, Repr

/-- Wording of a fault. -/
def NumberFault.message : NumberFault → String
  | .tooLarge => "int too large to convert to float"
  | .tooLong digits =>
    "Exceeds the limit (" ++ toString digitLimit ++
      " digits) for integer string conversion: value has " ++ toString digits ++
      " digits; use sys.set_int_max_str_digits() to increase the limit"

/-- A number as it is written. -/
structure Numeral where
  negative : Bool
  whole : List Char
  fraction : Option (List Char)
  deriving DecidableEq, Repr

namespace Numeral

/-- The characters that the numeral was read from. -/
def text (x : Numeral) : List Char :=
  (if x.negative then ['-'] else []) ++ x.whole ++
    match x.fraction with
    | none => []
    | some digits => '.' :: digits

/-- Whether the numeral has no fractional part. -/
def isWhole (x : Numeral) : Bool :=
  x.fraction.isNone

/-- The fault of converting the numeral, if it has no fraction and too many
digits. Zeros at the front count as digits, the sign does not. -/
def tooLong? (x : Numeral) : Option NumberFault :=
  if x.isWhole && digitLimit < x.whole.length then some (.tooLong x.whole.length) else none

/-- Value of the whole part, with the sign, as far as it can be converted. -/
def wholeValue (x : Numeral) : Int :=
  if x.negative then -(digitsValue x.whole : Int) else digitsValue x.whole

/-- Value of a numeral without a fraction, as far as it can be converted. -/
def toInt? (x : Numeral) : Option Int :=
  if x.isWhole then some x.wholeValue else none

/-- Binary floating-point value: the nearest one, the even one on a tie, and an
infinity beyond the range. A negative numeral keeps its sign even at zero. -/
def toFloat (x : Numeral) : Float :=
  let digits := x.fraction.getD []
  let size := Float.ofScientific (digitsValue (x.whole ++ digits)) true digits.length
  if x.negative then -size else size

/-- The longest run of decimal digits at the front of a text, not empty. -/
def readDigits? (cs : List Char) : Option (List Char × List Char) :=
  match cs.takeWhile isDecimal with
  | [] => none
  | digits => some (digits, cs.dropWhile isDecimal)

/-- An optional minus sign. -/
def readSign : List Char → Bool × List Char
  | '-' :: rest => (true, rest)
  | cs => (false, cs)

/-- A dot and the digits after it; a dot without a digit is left alone. -/
def readFraction : List Char → Option (List Char) × List Char
  | '.' :: rest =>
    match readDigits? rest with
    | some (digits, after) => (some digits, after)
    | none => (none, '.' :: rest)
  | cs => (none, cs)

/-- Read a numeral without a fraction. -/
def readWhole? (cs : List Char) : Option (Numeral × List Char) :=
  let (negative, unsigned) := readSign cs
  (readDigits? unsigned).map fun (whole, rest) => (⟨negative, whole, none⟩, rest)

/-- Read the longest numeral. -/
def read? (cs : List Char) : Option (Numeral × List Char) :=
  (readWhole? cs).map fun (x, rest) =>
    let (fraction, after) := readFraction rest
    ({ x with fraction }, after)

/-- Read a text that is a numeral and nothing else. -/
def ofText? (cs : List Char) : Option Numeral :=
  match read? cs with
  | some (x, []) => some x
  | _ => none

theorem length_of_readDigits? {cs digits rest : List Char}
    (read : readDigits? cs = some (digits, rest)) : rest.length < cs.length := by
  unfold readDigits? at read
  split at read
  · simp at read
  · next nonempty =>
    have split : cs.takeWhile isDecimal ++ cs.dropWhile isDecimal = cs :=
      List.takeWhile_append_dropWhile
    have lengths := congrArg List.length split
    simp only [Option.some.injEq, Prod.mk.injEq] at read
    obtain ⟨_, rfl⟩ := read
    rw [List.length_append] at lengths
    have := List.length_pos_iff.mpr nonempty
    omega

theorem length_readSign_le (cs : List Char) : (readSign cs).2.length ≤ cs.length := by
  unfold readSign
  split <;> simp

theorem length_readFraction_le (cs : List Char) : (readFraction cs).2.length ≤ cs.length := by
  unfold readFraction
  split
  · next rest =>
    split
    · next digits after read =>
      have := length_of_readDigits? read
      simp only [List.length_cons]
      omega
    · simp
  · simp

/-- A numeral that is read takes at least one character. -/
theorem length_of_readWhole? {cs rest : List Char} {x : Numeral}
    (read : readWhole? cs = some (x, rest)) : rest.length < cs.length := by
  simp only [readWhole?, Option.map_eq_some_iff, Prod.exists, Prod.mk.injEq] at read
  obtain ⟨whole, _, digits, _, rfl⟩ := read
  have := length_of_readDigits? digits
  have := length_readSign_le cs
  omega

/-- A numeral that is read takes at least one character. -/
theorem length_of_read? {cs rest : List Char} {x : Numeral}
    (read : read? cs = some (x, rest)) : rest.length < cs.length := by
  simp only [read?, Option.map_eq_some_iff, Prod.exists, Prod.mk.injEq] at read
  obtain ⟨_, after, whole, _, rfl⟩ := read
  have := length_of_readWhole? whole
  have := length_readFraction_le after
  omega

end Numeral

end CyclePattern
