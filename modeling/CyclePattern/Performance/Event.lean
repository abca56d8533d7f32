/-
# Events

An event is one sound at one time of the cycle. What it sounds like is fixed by
its node; its controls collect what the groups around the node add.
-/

import CyclePattern.Pattern.Node
import CyclePattern.Pattern.Notice

namespace CyclePattern

/-- What a player needs to know of one option of a choice. An option without a
sound is silent. -/
structure OptionSound (α : Type) where
  sound : Option String
  sample : Option Int
  probability : Option α
  deriving DecidableEq, Repr

/-- What an event carries besides its controls. -/
inductive Detail (α : Type)
  /-- An ordinary sound. -/
  | plain
  /-- A degree or a chord. -/
  | harmony (leaf : Harmony)
  /-- A choice that is made while playing. -/
  | options (kind : ChoiceKind) (options : List (OptionSound α))
  deriving DecidableEq, Repr

/-- One sound at one time. -/
structure Event (α : Type) where
  sound : String
  sample : Option Int
  time : α
  duration : α
  detail : Detail α
  controls : Controls α
  span : Span
  deriving DecidableEq, Repr

/-- Description of an option: a sound by its name, harmony by its text, and
anything else as silent. -/
def OptionSound.ofNode {α : Type} : Node α → OptionSound α
  | .atom sound _ => ⟨some sound.name, sound.sample, sound.probability⟩
  | .harmony _ text _ => ⟨some text, none, none⟩
  | _ => ⟨none, none, none⟩

end CyclePattern
