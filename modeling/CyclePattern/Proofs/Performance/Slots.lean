/-
# Slots of a group with steps

A group with steps fills its slots with its items in turn and starts over when they are used up. So
every slot has an item, whatever the number of steps, as long as the group has items at all.

An item is played in its slot and in those of the elongations that follow, unless it is an
elongation or a rest itself.
-/

import CyclePattern.Performance.Parts
import Mathlib.Data.List.Basic

namespace CyclePattern.Node

variable {α : Type} {items : List (Node α)} {steps i : Nat}

/-- A slot takes the item that its number comes to when items are counted over and over. -/
theorem fill_eq_map (hitems : items ≠ []) (steps : Nat) :
    fill items steps = (List.range steps).map fun i =>
      items.get ⟨i % items.length, Nat.mod_lt i (List.length_pos_iff.mpr hitems)⟩ := by
  have hempty : items.isEmpty = false := by simpa using hitems
  rw [fill, hempty]
  apply List.filterMap_eq_map_iff_forall_eq_some.mpr
  intro i _
  exact List.getElem?_eq_getElem _

theorem length_fill (hitems : items ≠ []) (steps : Nat) : (fill items steps).length = steps := by
  rw [fill_eq_map hitems, List.length_map, List.length_range]

/-- No slot is left without an item. -/
theorem exists_getElem?_fill (hitems : items ≠ []) (hi : i < steps) :
    ∃ item, items[i % items.length]? = some item ∧ (fill items steps)[i]? = some item := by
  have hindex := Nat.mod_lt i (List.length_pos_iff.mpr hitems)
  refine ⟨items[i % items.length], List.getElem?_eq_getElem hindex, ?_⟩
  rw [fill_eq_map hitems, List.getElem?_map, List.getElem?_range hi]
  rfl

/-- The first slot takes the first item. -/
theorem takeWhile_isElongation_fill {first : Node α} {rest : List (Node α)}
    (hfirst : first.isElongation = false) (steps : Nat) :
    (fill (first :: rest) steps).takeWhile isElongation = [] := by
  cases steps with
  | zero => simp [fill]
  | succ n =>
      rw [fill_eq_map (List.cons_ne_nil first rest), List.range_succ_eq_map, List.map_cons]
      exact List.takeWhile_cons_of_neg (by simpa using hfirst)

variable {n : Node α} {tail : List (Node α)}

theorem slotRuns_of_isElongation (helongation : n.isElongation = true) (index : Nat) :
    slotRuns index (n :: tail) = slotRuns (index + 1) tail := by
  simp [slotRuns, helongation]

theorem slotRuns_of_isRest (hrest : n.isRest = true) (index : Nat) :
    slotRuns index (n :: tail) = slotRuns (index + 1) tail := by
  simp [slotRuns, hrest]

/-- A sounding item takes its own slot and those of the elongations after it. -/
theorem slotRuns_of_sounding (helongation : n.isElongation = false) (hrest : n.isRest = false)
    (index : Nat) :
    slotRuns index (n :: tail) =
      (n, index, 1 + (tail.takeWhile isElongation).length) :: slotRuns (index + 1) tail := by
  simp [slotRuns, helongation, hrest]

variable {index : Nat} {nodes : List (Node α)} {run : Node α × Nat × Nat}

/-- What is played in some slots is played in the first of them, for as long as elongations follow,
or in a later one. -/
theorem mem_slotRuns_cons :
    run ∈ slotRuns index (n :: tail) ↔
      (n.isElongation = false ∧ n.isRest = false ∧
        run = (n, index, 1 + (tail.takeWhile isElongation).length)) ∨
      run ∈ slotRuns (index + 1) tail := by
  rw [slotRuns]
  split
  · next hsilent =>
      refine (or_iff_right ?_).symm
      rintro ⟨hsounds, hplayed, -⟩
      simp [hsounds, hplayed] at hsilent
  · next hsounds =>
      simp only [Bool.or_eq_true, not_or, Bool.not_eq_true] at hsounds
      rw [List.mem_cons]
      exact or_congr_left ⟨fun hrun => ⟨hsounds.1, hsounds.2, hrun⟩, fun hrun => hrun.2.2⟩

/-- No slot is played for an elongation. -/
theorem isElongation_of_mem_slotRuns (hrun : run ∈ slotRuns index nodes) :
    run.1.isElongation = false := by
  induction nodes generalizing index with
  | nil => cases hrun
  | cons n tail ih =>
      rcases mem_slotRuns_cons.mp hrun with ⟨hsounds, -, rfl⟩ | hlater
      · exact hsounds
      · exact ih hlater

end CyclePattern.Node
