/-
# Modifiers of a sound

A sound name may be followed by modifiers in any order, each at most once. A
modifier whose number is out of range is no modifier at all: the caller then
takes the whole word for a sound name, so a pattern still plays while somebody
types in it.

Counts and the arguments of a rhythm are converted to integers before their
range is looked at, also those of a modifier that turns out to be none. Which
numerals these are is listed apart from what is read.
-/

import CyclePattern.Number.Numeral
import CyclePattern.Number.Measure
import CyclePattern.Pattern.Node
import CyclePattern.Text.Class

namespace CyclePattern

open Text

/-- Chance that is meant by a question mark without a number. -/
def defaultProbability : Float := 0.5

/-- One modifier after a sound name. -/
inductive Modifier
  | sample (index : Int)
  | repeats (count : Int)
  | copies (count : Int)
  | weight (share : Float)
  | division (cycles : Float)
  | ratio (factor : Float)
  | probability (chance : Float)
  | euclid (rhythm : Euclid)

namespace Modifier

/-- A whole number that is at least `least`. -/
def readCount? (least : Int) (cs : List Char) : Option (Int × List Char) :=
  match Numeral.read? cs with
  | none => none
  | some (x, rest) =>
    match x.toInt? with
    | none => none
    | some n => if n < least then none else some (n, rest)

/-- A number above zero. A number too small to be told from zero is refused. -/
def readPositive? (cs : List Char) : Option (Float × List Char) :=
  match Numeral.read? cs with
  | none => none
  | some (x, rest) => if 0 < x.toFloat then some (x.toFloat, rest) else none

/-- A chance between zero and one, or the default when no number follows. -/
def readChance? (cs : List Char) : Option (Float × List Char) :=
  match Numeral.read? cs with
  | none => some (defaultProbability, cs)
  | some (x, rest) =>
    if 0 ≤ x.toFloat ∧ x.toFloat ≤ 1 then some (x.toFloat, rest) else none

/-- A whole number between blanks. -/
def readArgument? (cs : List Char) : Option (Numeral × List Char) :=
  (Numeral.readWhole? (skipBlanks cs)).map fun (x, rest) => (x, skipBlanks rest)

/-- Two or three whole numbers in parentheses. -/
def readArguments? : List Char → Option ((Numeral × Numeral × Option Numeral) × List Char)
  | '(' :: cs =>
    match readArgument? cs with
    | some (first, ',' :: afterFirst) =>
      match readArgument? afterFirst with
      | some (second, ')' :: rest) => some ((first, second, none), rest)
      | some (second, ',' :: afterSecond) =>
        match readArgument? afterSecond with
        | some (third, ')' :: rest) => some ((first, second, some third), rest)
        | _ => none
      | _ => none
    | _ => none
  | _ => none

/-- A rhythm with at least one pulse and no more pulses than steps. -/
def readEuclid? (cs : List Char) : Option (Euclid × List Char) :=
  match readArguments? cs with
  | none => none
  | some ((pulses, steps, rotation), rest) =>
    if 0 < pulses.wholeValue ∧ pulses.wholeValue ≤ steps.wholeValue then
      some (⟨pulses.wholeValue, steps.wholeValue, (rotation.map (·.wholeValue)).getD 0⟩, rest)
    else none

/-- Read one modifier. -/
def read? : List Char → Option (Modifier × List Char)
  | ':' :: cs => (readCount? 0 cs).map fun (n, rest) => (sample n, rest)
  | '*' :: cs => (readCount? 1 cs).map fun (n, rest) => (repeats n, rest)
  | '!' :: cs => (readCount? 1 cs).map fun (n, rest) => (copies n, rest)
  | '@' :: cs => (readPositive? cs).map fun (x, rest) => (weight x, rest)
  | '/' :: cs => (readPositive? cs).map fun (x, rest) => (division x, rest)
  | '%' :: cs => (readPositive? cs).map fun (x, rest) => (ratio x, rest)
  | '?' :: cs => (readChance? cs).map fun (x, rest) => (probability x, rest)
  | '(' :: cs => (readEuclid? ('(' :: cs)).map fun (e, rest) => (euclid e, rest)
  | _ => none

/-- The numeral of a count, unless it has a fraction. -/
def countWholes (cs : List Char) : List Numeral :=
  match Numeral.read? cs with
  | some (x, _) => if x.isWhole then [x] else []
  | none => []

/-- The arguments of a rhythm. -/
def euclidWholes (cs : List Char) : List Numeral :=
  match readArguments? cs with
  | some ((pulses, steps, rotation), _) => pulses :: steps :: rotation.toList
  | none => []

/-- Numerals that are converted to integers while one modifier is read. -/
def wholes : List Char → List Numeral
  | ':' :: cs => countWholes cs
  | '*' :: cs => countWholes cs
  | '!' :: cs => countWholes cs
  | '(' :: cs => euclidWholes ('(' :: cs)
  | _ => []

theorem length_readCount? {least n : Int} {cs rest : List Char}
    (read : readCount? least cs = some (n, rest)) : rest.length < cs.length := by
  unfold readCount? at read
  split at read <;> try contradiction
  next numeral =>
    split at read <;> try contradiction
    split at read <;> simp only [Option.some.injEq, Prod.mk.injEq, reduceCtorEq] at read
    obtain ⟨_, rfl⟩ := read
    exact Numeral.length_of_read? numeral

theorem length_readPositive? {x : Float} {cs rest : List Char}
    (read : readPositive? cs = some (x, rest)) : rest.length < cs.length := by
  unfold readPositive? at read
  split at read <;> try contradiction
  next numeral =>
    split at read <;> simp only [Option.some.injEq, Prod.mk.injEq, reduceCtorEq] at read
    obtain ⟨_, rfl⟩ := read
    exact Numeral.length_of_read? numeral

theorem length_readChance? {x : Float} {cs rest : List Char}
    (read : readChance? cs = some (x, rest)) : rest.length ≤ cs.length := by
  unfold readChance? at read
  split at read
  · simp only [Option.some.injEq, Prod.mk.injEq] at read
    exact Nat.le_of_eq (congrArg List.length read.2.symm)
  next numeral =>
    split at read <;> simp only [Option.some.injEq, Prod.mk.injEq, reduceCtorEq] at read
    obtain ⟨_, rfl⟩ := read
    exact Nat.le_of_lt (Numeral.length_of_read? numeral)

theorem length_skipBlanks_le (cs : List Char) : (skipBlanks cs).length ≤ cs.length :=
  (List.dropWhile_suffix isBlank).length_le

theorem length_readArgument? {x : Numeral} {cs rest : List Char}
    (read : readArgument? cs = some (x, rest)) : rest.length < cs.length := by
  simp only [readArgument?, Option.map_eq_some_iff, Prod.exists, Prod.mk.injEq] at read
  obtain ⟨_, after, whole, _, rfl⟩ := read
  have := Numeral.length_of_readWhole? whole
  have := length_skipBlanks_le cs
  have := length_skipBlanks_le after
  omega

theorem length_readArguments? {arguments : Numeral × Numeral × Option Numeral}
    {cs rest : List Char} (read : readArguments? cs = some (arguments, rest)) :
    rest.length < cs.length := by
  unfold readArguments? at read
  split at read <;> try contradiction
  split at read <;> try contradiction
  next first =>
    have := length_readArgument? first
    simp only [List.length_cons] at this
    split at read <;> try contradiction
    · next second =>
      have := length_readArgument? second
      simp only [Option.some.injEq, Prod.mk.injEq] at read
      obtain ⟨_, rfl⟩ := read
      simp only [List.length_cons] at this ⊢
      omega
    · next second =>
      have := length_readArgument? second
      simp only [List.length_cons] at this
      split at read <;> try contradiction
      next third =>
        have := length_readArgument? third
        simp only [Option.some.injEq, Prod.mk.injEq] at read
        obtain ⟨_, rfl⟩ := read
        simp only [List.length_cons] at this ⊢
        omega

theorem length_readEuclid? {rhythm : Euclid} {cs rest : List Char}
    (read : readEuclid? cs = some (rhythm, rest)) : rest.length < cs.length := by
  unfold readEuclid? at read
  split at read <;> try contradiction
  next arguments =>
    split at read <;> simp only [Option.some.injEq, Prod.mk.injEq, reduceCtorEq] at read
    obtain ⟨_, rfl⟩ := read
    exact length_readArguments? arguments

/-- A modifier takes at least one character. -/
theorem length_read? {modifier : Modifier} {cs rest : List Char}
    (read : read? cs = some (modifier, rest)) : rest.length < cs.length := by
  unfold read? at read
  split at read <;> try contradiction
  all_goals
    simp only [Option.map_eq_some_iff, Prod.exists, Prod.mk.injEq] at read
    obtain ⟨_, _, inner, _, rfl⟩ := read
  · exact Nat.lt_succ_of_lt (length_readCount? inner)
  · exact Nat.lt_succ_of_lt (length_readCount? inner)
  · exact Nat.lt_succ_of_lt (length_readCount? inner)
  · exact Nat.lt_succ_of_lt (length_readPositive? inner)
  · exact Nat.lt_succ_of_lt (length_readPositive? inner)
  · exact Nat.lt_succ_of_lt (length_readPositive? inner)
  · exact Nat.lt_succ_of_le (length_readChance? inner)
  · exact length_readEuclid? inner

end Modifier

/-- Modifiers of one sound, each present or not. -/
structure Modifiers where
  sample : Option Int
  repeats : Option Int
  copies : Option Int
  weight : Option Float
  division : Option Float
  ratio : Option Float
  probability : Option Float
  euclid : Option Euclid

namespace Modifiers

/-- No modifier. -/
def none : Modifiers :=
  ⟨.none, .none, .none, .none, .none, .none, .none, .none⟩

/-- Add a modifier of a kind that is not there yet. -/
def add? (ms : Modifiers) : Modifier → Option Modifiers
  | .sample n => if ms.sample.isSome then .none else some { ms with sample := some n }
  | .repeats n => if ms.repeats.isSome then .none else some { ms with repeats := some n }
  | .copies n => if ms.copies.isSome then .none else some { ms with copies := some n }
  | .weight x => if ms.weight.isSome then .none else some { ms with weight := some x }
  | .division x => if ms.division.isSome then .none else some { ms with division := some x }
  | .ratio x => if ms.ratio.isSome then .none else some { ms with ratio := some x }
  | .probability x =>
    if ms.probability.isSome then .none else some { ms with probability := some x }
  | .euclid e => if ms.euclid.isSome then .none else some { ms with euclid := some e }

/-- Read modifiers to the end of a text, on top of those that were read. -/
def read? (ms : Modifiers) (cs : List Char) : Option Modifiers :=
  if cs.isEmpty then some ms
  else
    match _read : Modifier.read? cs with
    | .none => .none
    | some (modifier, rest) =>
      match ms.add? modifier with
      | .none => .none
      | some more => more.read? rest
termination_by cs.length
decreasing_by exact Modifier.length_read? _read

/-- Numerals that are converted to integers while modifiers are read, up to the
end of the text or to the first that is none or is there already. -/
def wholes (ms : Modifiers) (cs : List Char) : List Numeral :=
  if cs.isEmpty then []
  else
    Modifier.wholes cs ++
      match _read : Modifier.read? cs with
      | .none => []
      | some (modifier, rest) =>
        match ms.add? modifier with
        | .none => []
        | some more => more.wholes rest
termination_by cs.length
decreasing_by exact Modifier.length_read? _read

end Modifiers

/-- The sound of a name with modifiers and controls. A sound without a weight
weighs one. -/
def Atom.ofModifiers (name : List Char) (ms : Modifiers) (controls : Controls Float) :
    Atom Float where
  name := String.ofList name
  sample := ms.sample
  weight := ms.weight.getD Measure.one
  repeats := ms.repeats
  copies := ms.copies
  probability := ms.probability
  division := ms.division
  ratio := ms.ratio
  euclid := ms.euclid
  controls := controls

end CyclePattern
