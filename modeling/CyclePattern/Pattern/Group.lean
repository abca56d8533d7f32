/-
# Groups

A group that has been closed becomes one node. The number after it sets how the
group is played; a number out of range is dropped with a notice, and the group
still plays. A whole number that cannot be converted is a fault, though.
-/

import CyclePattern.Number.Measure
import CyclePattern.Pattern.Node
import CyclePattern.Pattern.Notice
import CyclePattern.Pattern.Token

namespace CyclePattern

/-- What the number after a group has set. -/
structure GroupSettings where
  repeats : Option Int
  division : Option Float
  ratio : Option Float
  steps : Option Int

namespace GroupSettings

/-- Nothing is set. -/
def none : GroupSettings :=
  ⟨.none, .none, .none, .none⟩

/-- Set a field to a number, if it is in range: at least one and without a
fraction for a count, above zero for a factor. A factor without a fraction is
looked at as an integer and converted afterwards. -/
def ofNumber? (field : GroupField) (number : Numeral) : Option GroupSettings :=
  match field with
  | .repeats => (count? number).map fun n => { none with repeats := some n }
  | .steps => (count? number).map fun n => { none with steps := some n }
  | .division => (factor? number).map fun x => { none with division := some x }
  | .ratio => (factor? number).map fun x => { none with ratio := some x }
where
  count? (number : Numeral) : Option Int :=
    match number.toInt? with
    | .none => .none
    | some n => if 1 ≤ n then some n else .none
  factor? (number : Numeral) : Option Float :=
    match number.toInt? with
    | some n => if 0 < n then some (Measure.ofInt n) else .none
    | .none => if 0 < number.toFloat then some number.toFloat else .none

end GroupSettings

/-- Whether a factor is written as a whole number that no floating-point number
comes near. A number with a fraction may be as large as it likes. -/
def GroupModifier.isTooLarge (modifier : GroupModifier) : Bool :=
  match modifier.field with
  | .division | .ratio =>
    modifier.number.isWhole && !Measure.fits Float modifier.number.wholeValue
  | _ => false

/-- The fault of the number after a group, if it has one: the number is converted
first, and a factor that is an integer becomes a float afterwards. -/
def GroupModifier.fault? (modifier : GroupModifier) : Option NumberFault :=
  match modifier.number.tooLong? with
  | some fault => some fault
  | none => if modifier.isTooLarge then some .tooLarge else none

/-- The node of a group, given its sequences in order. -/
def groupNode (bracket : Bracket) (groups : List (List (Node Float)))
    (settings : GroupSettings) (span : Span) : Node Float :=
  match bracket with
  | .square =>
    let inner :=
      match groups with
      | [single] => .sequence single
      | _ => .stack (groups.map .sequence)
    .subdivision inner settings.repeats settings.division settings.ratio span
  | .angle =>
    let options := groups.flatten.filter fun option => !option.isElongation
    .alternation options settings.repeats settings.division span
  | .curly => .polymetric (groups.map .sequence) settings.steps span

end CyclePattern
