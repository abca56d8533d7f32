/-
# The same pattern in another window

A pattern is played in whatever window it is given. Placed in a frame, a window of the cycle becomes
the same share of the frame; so do the parts that it is divided into, and the events in them. Hence
it is enough to know what is played in the whole cycle.

The laws hold of exact numbers, in which a product is divided as its factor is. They ask nothing of
the tree: a tree that cannot be played in one window cannot be played in any other.
-/

import CyclePattern.Proofs.Performance.Playing
import CyclePattern.Proofs.Performance.Safety
import Mathlib

namespace CyclePattern

variable {α β γ δ : Type}

/-- A window of the cycle as the same share of a frame. -/
def Window.place (frame window : Window Rat) : Window Rat :=
  ⟨frame.start + frame.duration * window.start, frame.duration * window.duration⟩

/-- An event of the cycle as the same share of a frame. It sounds as before. -/
def Event.place (frame : Window Rat) (event : Event Rat) : Event Rat :=
  { event with
    time := frame.start + frame.duration * event.time
    duration := frame.duration * event.duration }

/-- The whole cycle takes up the whole frame. -/
theorem Window.place_cycle (frame : Window Rat) : frame.place ⟨0, 1⟩ = frame := by
  simp [place]

@[simp]
theorem Measure.ofInt_rat (n : Int) : (Measure.ofInt n : Rat) = n :=
  rfl

theorem Measure.fits_rat (n : Int) : Measure.fits Rat n = true :=
  rfl

namespace Window

variable (frame window : Window Rat)

theorem partLength_place (count : Int) :
    (frame.place window).partLength count =
      (window.partLength count).map (frame.duration * ·) := by
  rw [partLength, partLength, if_pos (Measure.fits_rat count), if_pos (Measure.fits_rat count),
    quotient, quotient]
  split
  · rfl
  · rw [Except.map, place, mul_div_assoc]

theorem slot_place (length : Rat) (index : Nat) :
    (frame.place window).slot (frame.duration * length) index =
      frame.place (window.slot length index) := by
  simp only [slot, place, Measure.ofInt_rat, mk.injEq, and_true]
  ring

theorem part_place (length : Rat) (index size : Nat) :
    (frame.place window).part (frame.duration * length) index size =
      frame.place (window.part length index size) := by
  simp only [part, place, Measure.ofInt_rat, mk.injEq]
  constructor
  · ring
  · ring

theorem split_place (count : Int) :
    (frame.place window).split count = (window.split count).map (List.map frame.place) := by
  rw [split, split, partLength_place]
  cases window.partLength count with
  | error fault => rfl
  | ok length => simp [Except.map, Function.comp_def, slot_place]

end Window

namespace Node

variable (frame window : Window Rat)

theorem layout_place (total duration cursor : Rat) (items : List (Node Rat × Rat)) :
    layout total (frame.duration * duration) (frame.start + frame.duration * cursor) items =
      (layout total duration cursor items).map (Prod.map id frame.place) := by
  induction items generalizing cursor with
  | nil => rfl
  | cons first rest ih =>
      obtain ⟨item, weight⟩ := first
      have hslot : weight / total * (frame.duration * duration) =
          frame.duration * (weight / total * duration) := by
        ring
      have hnext :
          frame.start + frame.duration * cursor + weight / total * (frame.duration * duration) =
            frame.start + frame.duration * (cursor + weight / total * duration) := by
        ring
      rw [layout, layout, List.map_cons, hnext, ih, hslot]
      rfl

theorem sequenceParts_place (children : List (Node Rat)) :
    sequenceParts children (frame.place window) =
      (sequenceParts children window).map (List.map (Prod.map id frame.place)) := by
  simp only [sequenceParts]
  split
  · rfl
  split
  · rfl
  · exact congrArg Except.ok (layout_place frame _ _ _ _)

theorem repeatedParts_place (n : Node Rat) (repeats : Option Int) :
    repeatedParts n repeats (frame.place window) =
      (repeatedParts n repeats window).map (List.map (Prod.map id frame.place)) := by
  rw [repeatedParts, repeatedParts, Window.split_place]
  cases window.split (countOf repeats) with
  | error fault => rfl
  | ok windows => simp [Except.map, Function.comp_def]

theorem steppedParts_place (groups : List (Node Rat)) (steps : Int) :
    steppedParts groups steps (frame.place window) =
      (steppedParts groups steps window).map (List.map (Prod.map id frame.place)) := by
  rw [steppedParts, steppedParts, Window.partLength_place]
  cases window.partLength steps with
  | error fault => rfl
  | ok length =>
      simp [Except.map, List.map_flatMap, Function.comp_def, Window.part_place]

theorem parts_place (n : Node Rat) :
    n.parts (frame.place window) =
      (n.parts window).map (List.map (Prod.map id frame.place)) := by
  unfold parts
  split
  · exact sequenceParts_place frame window _
  · simp [Except.map, Function.comp_def]
  · exact repeatedParts_place frame window _ _
  · exact repeatedParts_place frame window _ _
  · simp [Except.map, Function.comp_def]
  · exact steppedParts_place frame window _ _
  · rfl

end Node

theorem map_bind {x : Except Fault α} {f : α → Except Fault β} {g : γ → Except Fault δ}
    {rename : α → γ} {change : β → δ}
    (hvalue : ∀ value, x = .ok value → g (rename value) = (f value).map change) :
    (x.map rename >>= g) = (x >>= f).map change := by
  cases x with
  | error fault => rfl
  | ok value => exact hvalue value rfl

/-- Where every item comes to the changed values, so does the list of them. -/
theorem flatMapM_change {f : α → Except Fault (List β)} {g : α → Except Fault (List γ)}
    {change : β → γ} {items : List α}
    (hitems : ∀ item ∈ items, g item = (f item).map (List.map change)) :
    items.flatMapM g = (items.flatMapM f).map (List.map change) := by
  induction items with
  | nil => rfl
  | cons item rest ih =>
      obtain ⟨hfirst, hrest⟩ := List.forall_mem_cons.mp hitems
      rw [List.flatMapM_cons, List.flatMapM_cons, hfirst, ih hrest]
      cases f item with
      | error fault => rfl
      | ok values =>
          cases rest.flatMapM f with
          | error fault => rfl
          | ok others => exact congrArg Except.ok (List.map_append).symm

theorem flatMapM_map {f : α → Except Fault (List β)} {g : γ → Except Fault (List δ)}
    {rename : α → γ} {change : β → δ} {items : List α}
    (hitems : ∀ item ∈ items, g (rename item) = (f item).map (List.map change)) :
    (items.map rename).flatMapM g = (items.flatMapM f).map (List.map change) := by
  rw [flatMapM_comp]
  exact flatMapM_change hitems

theorem mapM_change {f : α → Except Fault β} {g : α → Except Fault γ} {change : β → γ}
    {items : List α} (hitems : ∀ item ∈ items, g item = (f item).map change) :
    items.mapM g = (items.mapM f).map (List.map change) := by
  induction items with
  | nil => rfl
  | cons item rest ih =>
      obtain ⟨hfirst, hrest⟩ := List.forall_mem_cons.mp hitems
      rw [List.mapM_cons, List.mapM_cons, hfirst, ih hrest]
      cases f item with
      | error fault => rfl
      | ok value => cases rest.mapM f <;> rfl

namespace Atom

variable (frame window : Window Rat) (sound : Atom Rat) (span : Span)

theorem event_place :
    sound.event span (frame.place window) = (sound.event span window).map (Event.place frame) := by
  rw [event, event]
  cases sound.eventControls <;> rfl

theorem copyEvents_place :
    sound.copyEvents span (frame.place window) =
      (sound.copyEvents span window).map (List.map (Event.place frame)) := by
  unfold copyEvents
  split
  · rw [event_place]
    cases sound.event span window <;> rfl
  · next rhythm _ =>
      cases (Rhythm.rotatedEuclidean rhythm.steps rhythm.pulses rhythm.rotation).mapError
          Fault.unplayable with
      | error fault => rfl
      | ok steps =>
          rw [Window.partLength_place]
          apply map_bind
          intro length _
          apply mapM_change
          intro onset _
          rw [Window.slot_place, event_place]

theorem events_place :
    sound.events span (frame.place window) =
      (sound.events span window).map (List.map (Event.place frame)) := by
  rw [events, events, Window.split_place]
  apply map_bind
  intro windows _
  apply flatMapM_map
  intro part _
  exact copyEvents_place frame part sound span

end Atom

theorem choiceEvents_place (frame window : Window Rat) (kind : ChoiceKind)
    (options : List (Node Rat)) (span : Span) :
    choiceEvents kind options span (frame.place window) =
      (choiceEvents kind options span window).map (Event.place frame) := by
  simp only [choiceEvents]
  split
  · rfl
  · rfl

/-- Whether a change of events leaves their controls alone. -/
def Event.KeepsControls (change : Event α → Event α) : Prop :=
  ∀ event controls, change (event.withControls controls) = (change event).withControls controls

section

variable {change : Event α → Event α}

theorem Event.KeepsControls.controls_eq (hchange : KeepsControls change) (event : Event α) :
    (change event).controls = event.controls :=
  (congrArg Event.controls (hchange event event.controls) :)

variable [Measure α]

theorem divide_map (hchange : Event.KeepsControls change) (division : α) (event : Event α) :
    (change event).divide division = change (event.divide division) := by
  rw [Event.divide, hchange.controls_eq]
  exact (hchange event _).symm

theorem divideAll_map (hchange : Event.KeepsControls change) (division : Option α)
    (events : List (Event α)) :
    divideAll division (events.map change) = (divideAll division events).map change := by
  cases division with
  | none => rfl
  | some factor =>
      rw [divideAll, divideAll, List.map_map, List.map_map]
      exact List.map_congr_left fun event _ => divide_map hchange factor event

theorem slow_map (hchange : Event.KeepsControls change) (ratio : α) (event : Event α) :
    (change event).slow ratio = (event.slow ratio).map change := by
  rw [Event.slow, Event.slow, hchange.controls_eq]
  cases quotient ((event.controls.get? "speed").getD Measure.one) ratio with
  | error fault => rfl
  | ok speed => exact congrArg Except.ok (hchange event _).symm

theorem slowAll_map (hchange : Event.KeepsControls change) (ratio : Option α)
    (events : List (Event α)) :
    slowAll ratio (events.map change) = (slowAll ratio events).map (List.map change) := by
  cases ratio with
  | none => rfl
  | some factor =>
      rw [slowAll, slowAll, List.mapM_map]
      apply mapM_change
      intro event _
      exact slow_map hchange factor event

end

theorem keepsControls_place (frame : Window Rat) : Event.KeepsControls (Event.place frame) :=
  fun _ _ => rfl

namespace Node

section

variable [Measure α] {change : Event α → Event α}

theorem shape_map (hchange : Event.KeepsControls change) (n : Node α) (events : List (Event α)) :
    n.shape (events.map change) = (n.shape events).map (List.map change) := by
  unfold shape
  split
  · rw [divideAll_map hchange, slowAll_map hchange]
  · exact congrArg Except.ok (divideAll_map hchange _ events)
  · rfl

/-- Other nodes in other windows play the same events changed, if what one node does is changed in
the same way. -/
theorem perform_map {rename : Node α → Node α} {move : Window α → Window α}
    (hparts : ∀ n window, (rename n).parts (move window) =
      (n.parts window).map (List.map (Prod.map rename move)))
    (hown : ∀ n window, (rename n).ownEvents (move window) =
      (n.ownEvents window).map (List.map change))
    (hshape : ∀ n events, (rename n).shape (events.map change) =
      (n.shape events).map (List.map change)) (n : Node α) (window : Window α) :
    (rename n).perform (move window) = (n.perform window).map (List.map change) := by
  induction n using partsInduction generalizing window with
  | step n ih =>
      rw [perform_eq, perform_eq, hparts]
      apply map_bind
      intro parts hpart
      have hinner : (parts.map (Prod.map rename move)).flatMapM
            (fun part : Node α × Window α => part.1.perform part.2) =
          (parts.flatMapM fun part : Node α × Window α => part.1.perform part.2).map
            (List.map change) := by
        apply flatMapM_map
        intro part hmem
        exact ih window parts hpart part hmem part.2
      rw [hown, hinner]
      apply map_bind
      intro own _
      apply map_bind
      intro inner _
      rw [← List.map_append, hshape]

end

variable (frame : Window Rat)

theorem ownEvents_place (window : Window Rat) (n : Node Rat) :
    n.ownEvents (frame.place window) =
      (n.ownEvents window).map (List.map (Event.place frame)) := by
  unfold ownEvents
  split
  · exact Atom.events_place frame window _ _
  · rfl
  · rfl
  · rw [Window.split_place]
    cases window.split _ with
    | error fault => rfl
    | ok windows => simp [Except.map, List.map_flatMap, List.flatMap_map, choiceEvents_place]
  · exact congrArg Except.ok (choiceEvents_place frame window _ _ _)
  · rfl

/-- A pattern in a share of a frame plays the same share of its events: the same sounds in the same
order, at times and for durations in proportion. -/
theorem perform_place (n : Node Rat) (window : Window Rat) :
    n.perform (frame.place window) =
      (n.perform window).map (List.map (Event.place frame)) :=
  perform_map (fun n window => parts_place frame window n)
    (fun n window => ownEvents_place frame window n)
    (fun n events => shape_map (keepsControls_place frame) n events) n window

end Node

namespace Reading

/-- A tree that was read is played with exact numbers in every window, and plays there what it plays
in the whole cycle: the same sounds in the same order, each at its share of the window. -/
theorem perform_exact_eq_place {limit : Int} {cs : List Char} {items : List (Node Float)}
    (hresult : (ofText limit 0 0 cs).result = .ok items)
    (hfinite : (Node.sequence items).IsFinite) (start duration : Rat) :
    ∃ events, (Node.sequence items).exact.perform ⟨0, 1⟩ = .ok events ∧
      (Node.sequence items).exact.perform ⟨start, duration⟩ =
        .ok (events.map (Event.place ⟨start, duration⟩)) := by
  obtain ⟨events, hevents⟩ := exists_perform_exact hresult hfinite ⟨0, 1⟩
  refine ⟨events, hevents, ?_⟩
  have hplaced := (Node.sequence items).exact.perform_place ⟨start, duration⟩ ⟨0, 1⟩
  rw [Window.place_cycle, hevents] at hplaced
  exact hplaced

theorem perform_exact_eq_place_of_steps :
    ∃ items, (ofText 1 0 0 ['{', 'a', ' ', '_', ' ', '^', '5', '}', '%', '4']).result = .ok items ∧
      (Node.sequence items).IsFinite ∧
      ∃ events, (Node.sequence items).exact.perform ⟨0, 1⟩ = .ok events ∧
        (Node.sequence items).exact.perform ⟨-1 / 2, 3⟩ =
          .ok (events.map (Event.place ⟨-1 / 2, 3⟩)) :=
  ⟨_, result_stepped_group, isFinite_stepped_group,
    perform_exact_eq_place result_stepped_group isFinite_stepped_group (-1 / 2) 3⟩

end Reading

end CyclePattern
