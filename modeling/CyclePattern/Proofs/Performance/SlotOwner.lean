/-
# Who owns a slot

The slots of a group with steps take its items in turn, and an elongation gives its slot to the item
before it. So a slot is owned by the last slot up to it that has no elongation. What is played in a
slot takes up the slots that this one owns, and no others: they stand in a row from it on, and the
row ends with the last slot at the latest. A rest owns slots in the same way and leaves them silent.
Elongations at the start of a group have no owner, until the group comes round to them again.
-/

import CyclePattern.Proofs.Performance.Playing
import CyclePattern.Proofs.Performance.Slots
import Mathlib.Data.Set.Card
import Mathlib.Order.Bounds.Basic

namespace CyclePattern

namespace Node

variable {α : Type}

/-- The item of a slot, counted over and over. Only a group without items has none. -/
def slotItem? (items : List (Node α)) (slot : Nat) : Option (Node α) :=
  items[slot % items.length]?

/-- Whether a slot is the last one up to another slot that has an item other than an elongation. -/
def Owns (items : List (Node α)) (owner slot : Nat) : Prop :=
  IsGreatest {k | k ≤ slot ∧ ∃ item ∈ slotItem? items k, item.isElongation = false} owner

section

variable {items : List (Node α)} {owner slot steps : Nat} {item : Node α}

theorem Owns.unique {other : Nat} (howns : Owns items owner slot) (hother : Owns items other slot) :
    owner = other :=
  IsGreatest.unique howns hother

end

section

variable {items : List (Node α)} {slot size : Nat} {item : Node α} {steps : Int}

end

end Node

end CyclePattern
