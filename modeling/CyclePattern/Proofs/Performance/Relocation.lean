/-
# The same pattern further along a text

Where a pattern stands in its text makes no difference to what is played. Only the offsets move that
point an editor to the pattern.
-/

import CyclePattern.Proofs.Performance.Placement
import CyclePattern.Proofs.Tree.Emissions

namespace CyclePattern

variable {α : Type}

/-- The event of a text that starts further along by some characters. -/
def Event.shift (k : Int) (event : Event α) : Event α :=
  { event with span := event.span.shift k }

theorem keepsControls_shift (k : Int) : Event.KeepsControls (Event.shift (α := α) k) :=
  fun _ _ => rfl

namespace Node

variable (k : Int)

@[simp]
theorem isRest_shift (n : Node α) : (n.shift k).isRest = n.isRest := by
  cases n <;> rfl

theorem asItem_shift (n : Node α) : (n.shift k).asItem = n.asItem.shift k := by
  cases n <;> rfl

theorem items_shift (n : Node α) : (n.shift k).items = n.items.map (shift k) := by
  cases n with
  | sequence children => rw [shift, shiftAll_eq_map, items, items]
  | _ => rfl

theorem takeWhile_isElongation_shift (nodes : List (Node α)) :
    ((nodes.map (shift k)).takeWhile isElongation).length =
      (nodes.takeWhile isElongation).length := by
  rw [List.takeWhile_map, List.length_map]
  congr 2
  funext n
  exact isElongation_shift k n

theorem slotRuns_shift (index : Nat) (nodes : List (Node α)) :
    slotRuns index (nodes.map (shift k)) =
      (slotRuns index nodes).map fun run => (run.1.shift k, run.2) := by
  induction nodes generalizing index with
  | nil => rfl
  | cons n tail ih =>
      rw [List.map_cons, slotRuns, slotRuns, isElongation_shift, isRest_shift, ih,
        takeWhile_isElongation_shift]
      split <;> rfl

theorem fill_shift (nodes : List (Node α)) (steps : Nat) :
    fill (nodes.map (shift k)) steps = (fill nodes steps).map (shift k) := by
  rw [fill_eq_turns, fill_eq_turns, turns_map]

variable [Measure α]

theorem ownWeight_shift (n : Node α) : (n.shift k).ownWeight = n.ownWeight := by
  cases n <;> rfl

theorem hold_shift (weight : α) (nodes : List (Node α)) :
    hold weight (nodes.map (shift k)) =
      ((hold weight nodes).1, (hold weight nodes).2.map (shift k)) := by
  induction nodes generalizing weight with
  | nil => rfl
  | cons n tail ih =>
      cases n with
      | elongation span => exact ih _
      | _ => rfl

theorem weightedItems_shift (children : List (Node α)) :
    weightedItems (children.map (shift k)) =
      (weightedItems children).map (Prod.map (shift k) id) := by
  fun_induction weightedItems children with
  | case1 => simp [weightedItems]
  | case2 child tail held ih =>
      rw [List.map_cons, weightedItems, ownWeight_shift, hold_shift, asItem_shift, ih]
      rfl

theorem layout_shift (total duration cursor : α) (items : List (Node α × α)) :
    layout total duration cursor (items.map (Prod.map (shift k) id)) =
      (layout total duration cursor items).map (Prod.map (shift k) id) := by
  induction items generalizing cursor with
  | nil => rfl
  | cons first rest ih => exact congrArg (_ :: ·) (ih _)

theorem sequenceParts_shift (children : List (Node α)) (window : Window α) :
    sequenceParts (children.map (shift k)) window =
      (sequenceParts children window).map (List.map (Prod.map (shift k) id)) := by
  have hweights : ((weightedItems children).map (Prod.map (shift k) id)).map (·.2) =
      (weightedItems children).map (·.2) := by
    rw [List.map_map]
    rfl
  simp only [sequenceParts, weightedItems_shift, hweights, List.isEmpty_map]
  split
  · rfl
  split
  · rfl
  · exact congrArg Except.ok (layout_shift k _ _ _ _)

theorem repeatedParts_shift (n : Node α) (repeats : Option Int) (window : Window α) :
    repeatedParts (n.shift k) repeats window =
      (repeatedParts n repeats window).map (List.map (Prod.map (shift k) id)) := by
  rw [repeatedParts, repeatedParts]
  cases window.split (countOf repeats) with
  | error fault => rfl
  | ok windows => simp [Except.map, Function.comp_def]

theorem steppedParts_shift (groups : List (Node α)) (steps : Int) (window : Window α) :
    steppedParts (groups.map (shift k)) steps window =
      (steppedParts groups steps window).map (List.map (Prod.map (shift k) id)) := by
  rw [steppedParts, steppedParts]
  cases window.partLength steps with
  | error fault => rfl
  | ok length =>
      simp [Except.map, List.map_flatMap, List.flatMap_map, Function.comp_def, items_shift,
        fill_shift, slotRuns_shift]

theorem parts_shift (n : Node α) (window : Window α) :
    (n.shift k).parts window = (n.parts window).map (List.map (Prod.map (shift k) id)) := by
  cases n with
  | sequence children => simpa [shift, parts] using sequenceParts_shift k children window
  | stack groups => simp [shift, parts, Except.map, Function.comp_def]
  | subdivision inner repeats division ratio span =>
      exact repeatedParts_shift k inner repeats window
  | alternation options repeats division span =>
      by_cases hone : options.length = 1
      · obtain ⟨option, rfl⟩ := List.length_eq_one_iff.mp hone
        exact repeatedParts_shift k option repeats window
      · have hmoved : (options.map (shift k)).length ≠ 1 := by rwa [List.length_map]
        rw [shift, shiftAll_eq_map, parts_of_length_ne_one hmoved, parts_of_length_ne_one hone]
        rfl
  | polymetric groups steps span =>
      cases steps with
      | none => simp [shift, parts, Except.map, Function.comp_def]
      | some steps => simpa [shift, parts] using steppedParts_shift k groups steps window
  | _ => rfl

end Node

/-- What a player needs to know of an option is not where it stands. -/
theorem ofNode_shift (k : Int) (n : Node α) :
    OptionSound.ofNode (n.shift k) = OptionSound.ofNode n := by
  cases n <;> rfl

theorem choiceEvents_shift (k : Int) (kind : ChoiceKind) (options : List (Node α)) (span : Span)
    (window : Window α) :
    choiceEvents kind (options.map (Node.shift k)) (span.shift k) window =
      (choiceEvents kind options span window).map (Event.shift k) := by
  have hsounds : (options.map (Node.shift k)).map OptionSound.ofNode =
      options.map OptionSound.ofNode := by
    rw [List.map_map]
    exact List.map_congr_left fun n _ => ofNode_shift k n
  simp only [choiceEvents, hsounds]
  split
  · rfl
  · rfl

section

variable [Measure α] (k : Int) (window : Window α)

namespace Atom

variable (sound : Atom α) (span : Span)

theorem event_shift :
    sound.event (span.shift k) window = (sound.event span window).map (Event.shift k) := by
  rw [event, event]
  cases sound.eventControls <;> rfl

theorem copyEvents_shift :
    sound.copyEvents (span.shift k) window =
      (sound.copyEvents span window).map (List.map (Event.shift k)) := by
  unfold copyEvents
  split
  · rw [event_shift]
    cases sound.event span window <;> rfl
  · next rhythm _ =>
      cases (Rhythm.rotatedEuclidean rhythm.steps rhythm.pulses rhythm.rotation).mapError
          Fault.unplayable with
      | error fault => rfl
      | ok steps =>
          cases window.partLength rhythm.steps with
          | error fault => rfl
          | ok length =>
              apply mapM_change
              intro onset _
              exact event_shift k _ sound span

theorem events_shift :
    sound.events (span.shift k) window =
      (sound.events span window).map (List.map (Event.shift k)) := by
  rw [events, events]
  cases window.split sound.copyCount with
  | error fault => rfl
  | ok windows =>
      apply flatMapM_change
      intro part _
      exact copyEvents_shift k part sound span

end Atom

namespace Node

theorem ownEvents_shift (n : Node α) :
    (n.shift k).ownEvents window = (n.ownEvents window).map (List.map (Event.shift k)) := by
  cases n with
  | atom sound span => exact Atom.events_shift k window sound span
  | alternation options repeats division span =>
      by_cases hone : options.length = 1
      · obtain ⟨option, rfl⟩ := List.length_eq_one_iff.mp hone
        rfl
      · have hmoved : (options.map (shift k)).length ≠ 1 := by rwa [List.length_map]
        rw [shift, shiftAll_eq_map, ownEvents_of_length_ne_one hmoved,
          ownEvents_of_length_ne_one hone]
        cases window.split (countOf repeats) with
        | error fault => rfl
        | ok windows => simp [Except.map, List.map_flatMap, ← choiceEvents_shift]
  | choice options span =>
      rw [shift, shiftAll_eq_map]
      exact congrArg Except.ok (choiceEvents_shift k _ options span window)
  | _ => rfl

/-- What a group does to the events inside it has nothing to do with its place. -/
theorem shape_shift (n : Node α) (events : List (Event α)) :
    (n.shift k).shape events = n.shape events := by
  cases n <;> rfl

/-- The same pattern further along plays the same events, further along. -/
theorem perform_shift (n : Node α) :
    (n.shift k).perform window = (n.perform window).map (List.map (Event.shift k)) := by
  refine perform_map (parts_shift k) (fun n window => ownEvents_shift k window n) ?_ n window
  intro n events
  rw [shape_shift, shape_map (keepsControls_shift k)]

end Node

end

end CyclePattern
