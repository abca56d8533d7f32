/-
# Notices

Reading and playing a pattern never fail on a doubtful word; they note what
they made of it, for a performer who asks.
-/

import CyclePattern.Text.Quoted

namespace CyclePattern

open Text

/-- Which kind of choice had nothing to play. -/
inductive ChoiceKind
  | alternation
  | randomChoice
  deriving DecidableEq, Repr

/-- Name of the kind in exported data. -/
def ChoiceKind.name : ChoiceKind → String
  | .alternation => "alternation"
  | .randomChoice => "random_choice"

/-- A decision that a performer may want to know of. -/
inductive Notice
  /-- A word is no sound with modifiers and names a sound as a whole. -/
  | keptLiteral (word : List Char) (offset : Int)
  /-- No voice has a control of this name. -/
  | ignoredControl (name : List Char) (offset : Int)
  /-- The number after a group is out of range for what it would set. -/
  | droppedModifier (modifier : List Char) (groupStart : Nat) (field : String)
  /-- No option of a choice has a sound. -/
  | nothingToPlay (kind : ChoiceKind) (offset : Option Int)
  deriving DecidableEq, Repr

namespace Notice

/-- Which part of the program speaks. -/
def topic : Notice → String
  | .nothingToPlay .. => "uzu.interpreter"
  | _ => "uzu.grammar"

/-- Wording of the notice. -/
def message : Notice → String
  | .keptLiteral word offset =>
    "Keeping " ++ String.ofList (quoted word) ++ " at offset " ++ toString offset ++
      " as a literal sound name"
  | .ignoredControl name offset =>
    "Ignoring unknown sound parameter " ++ String.ofList (quoted name) ++ " at offset " ++
      toString offset
  | .droppedModifier modifier groupStart field =>
    "Dropping " ++ String.ofList (quoted modifier) ++ " after the group at offset " ++
      toString groupStart ++ ": invalid " ++ field
  | .nothingToPlay kind offset =>
    "No playable option in " ++ kind.name ++ " at offset " ++
      match offset with
      | some start => toString start
      | none => "None"

end Notice

end CyclePattern
