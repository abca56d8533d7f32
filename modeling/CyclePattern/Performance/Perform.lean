/-
# Playing a pattern

A leaf plays events in the windows it is given. What the parts of a group play
is collected in order, and then the group sets the division and the speed of
all of it.
-/

import CyclePattern.Performance.Event
import CyclePattern.Performance.Parts

namespace CyclePattern

variable {α : Type} [Measure α]

namespace Atom

/-- Controls of the sound's events: those that were written, then what its
modifiers set. -/
def eventControls (sound : Atom α) : Except Fault (Controls α) :=
  let written := Controls.ofList sound.controls
  let spread := (written.setIfGiven "probability" sound.probability).setIfGiven "division"
    sound.division
  match sound.ratio with
  | none => .ok spread
  | some ratio => (quotient Measure.one ratio).map (spread.set "speed")

/-- The sound as one event. -/
def event (sound : Atom α) (span : Span) (window : Window α) : Except Fault (Event α) :=
  sound.eventControls.map fun controls =>
    { sound := sound.name
      sample := sound.sample
      time := window.start
      duration := window.duration
      detail := .plain
      controls := controls
      span := span }

/-- One copy of the sound: an event, or one on every onset of its rhythm. -/
def copyEvents (sound : Atom α) (span : Span) (window : Window α) :
    Except Fault (List (Event α)) :=
  match sound.euclid with
  | none => (sound.event span window).map fun event => [event]
  | some euclid => do
    let rhythm ← (Rhythm.rotatedEuclidean euclid.steps euclid.pulses euclid.rotation).mapError
      Fault.unplayable
    let length ← window.partLength euclid.steps
    (Rhythm.onsets id rhythm).mapM fun onset => sound.event span (window.slot length onset)

/-- Number of copies of the sound in its window. -/
def copyCount (sound : Atom α) : Int :=
  countOf sound.repeats * countOf sound.copies

/-- All events of the sound. -/
def events (sound : Atom α) (span : Span) (window : Window α) : Except Fault (List (Event α)) := do
  let windows ← window.split sound.copyCount
  windows.flatMapM (sound.copyEvents span)

end Atom

/-- The event of a choice. It sounds like the first option that has a sound;
without such an option it is silent. -/
def choiceEvents (kind : ChoiceKind) (options : List (Node α)) (span : Span)
    (window : Window α) : List (Event α) :=
  let sounds := options.map OptionSound.ofNode
  match sounds.findSome? fun option => option.sound.map fun name => (name, option.sample) with
  | none => []
  | some (name, sample) =>
    [{ sound := name
       sample := sample
       time := window.start
       duration := window.duration
       detail := .options kind sounds
       controls := []
       span := span }]

/-- Multiply the division of an event. -/
def Event.divide (division : α) (event : Event α) : Event α :=
  let old := (event.controls.get? "division").getD Measure.one
  { event with controls := event.controls.set "division" (old * division) }

/-- Divide the speed of an event by a ratio. -/
def Event.slow (ratio : α) (event : Event α) : Except Fault (Event α) :=
  let old := (event.controls.get? "speed").getD Measure.one
  (quotient old ratio).map fun speed =>
    { event with controls := event.controls.set "speed" speed }

/-- Divide all events, if the group has a division. -/
def divideAll (division : Option α) (events : List (Event α)) : List (Event α) :=
  match division with
  | none => events
  | some factor => events.map (Event.divide factor)

/-- Slow all events down, if the group has a ratio. -/
def slowAll (ratio : Option α) (events : List (Event α)) : Except Fault (List (Event α)) :=
  match ratio with
  | none => .ok events
  | some factor => events.mapM (Event.slow factor)

/-- Collecting over the members of a list, each with a proof about it, is
collecting over the list. -/
theorem flatMapM_attachWith {m : Type → Type} [Monad m] {β γ : Type} {P : β → Prop}
    (f : β → m (List γ)) (items : List β) (all : ∀ item ∈ items, P item)
    (found : List (List γ)) :
    List.flatMapM.loop (fun item : { item // P item } => f item.1) (items.attachWith P all)
      found = List.flatMapM.loop f items found := by
  induction items generalizing found with
  | nil => rfl
  | cons first tail ih => simp only [List.attachWith_cons, List.flatMapM.loop, ih]

theorem flatMapM_attach {m : Type → Type} [Monad m] {β γ : Type} (items : List β)
    (f : β → m (List γ)) :
    items.attach.flatMapM (fun item => f item.1) = items.flatMapM f :=
  flatMapM_attachWith f items _ []

namespace Node

/-- Events that a node plays by itself, without its parts. -/
def ownEvents (node : Node α) (window : Window α) : Except Fault (List (Event α)) :=
  match node with
  | .atom sound span => sound.events span window
  | .harmony leaf text span =>
    .ok [{ sound := text
           sample := none
           time := window.start
           duration := window.duration
           detail := .harmony leaf
           controls := []
           span := span }]
  | .alternation [_] _ _ _ => .ok []
  | .alternation options repeats _ span =>
    (window.split (countOf repeats)).map fun windows =>
      windows.flatMap (choiceEvents .alternation options span)
  | .choice options span => .ok (choiceEvents .randomChoice options span window)
  | _ => .ok []

/-- What a group does to everything that is played inside it. -/
def shape (node : Node α) (events : List (Event α)) : Except Fault (List (Event α)) :=
  match node with
  | .subdivision _ _ division ratio _ => slowAll ratio (divideAll division events)
  | .alternation _ _ division _ => .ok (divideAll division events)
  | _ => .ok events

/-- Events of a node in a window, in the order of the tree. -/
def perform (node : Node α) (window : Window α) : Except Fault (List (Event α)) :=
  match divided : node.parts window with
  | .error fault => .error fault
  | .ok parts => do
    let own ← node.ownEvents window
    let inner ← parts.attach.flatMapM fun ⟨part, member⟩ =>
      have := sizeOf_lt_of_mem_parts divided member
      part.1.perform part.2
    node.shape (own ++ inner)
termination_by sizeOf node

/-- A node with parts plays its own events and then those of its parts. -/
theorem perform_of_parts {node : Node α} {window : Window α}
    {parts : List (Node α × Window α)} (divided : node.parts window = .ok parts) :
    node.perform window = (do
      let own ← node.ownEvents window
      let inner ← parts.flatMapM fun part => part.1.perform part.2
      node.shape (own ++ inner)) := by
  rw [perform]
  split
  · next failed => rw [divided] at failed; cases failed
  · next same =>
    cases divided.symm.trans same
    rw [← flatMapM_attach parts fun part => part.1.perform part.2]

/-- A node whose window cannot be divided plays nothing. -/
theorem perform_of_fault {node : Node α} {window : Window α} {fault : Fault}
    (divided : node.parts window = .error fault) : node.perform window = .error fault := by
  rw [perform]
  split
  · next same => cases divided.symm.trans same; rfl
  · next same => rw [divided] at same; cases same

/-- What a node plays, by its parts. -/
theorem perform_eq (node : Node α) (window : Window α) :
    node.perform window = (do
      let parts ← node.parts window
      let own ← node.ownEvents window
      let inner ← parts.flatMapM fun part => part.1.perform part.2
      node.shape (own ++ inner)) := by
  cases divided : node.parts window with
  | error => exact perform_of_fault divided
  | ok => exact perform_of_parts divided

/-- Notices of a node that has nothing to play where it is reached. -/
def ownNotices (node : Node α) : List Notice :=
  let silent := fun options : List (Node α) =>
    options.all fun option => (OptionSound.ofNode option).sound.isNone
  match node with
  | .alternation [_] _ _ _ => []
  | .alternation options repeats _ span =>
    if silent options then
      List.replicate (countOf repeats).toNat (.nothingToPlay .alternation span.start)
    else []
  | .choice options span =>
    if silent options then [.nothingToPlay .randomChoice span.start] else []
  | _ => []

/-- Notices that arise while a node is played, as often as its silent choices
are reached. -/
def performNotices (node : Node α) (window : Window α) : List Notice :=
  match divided : node.parts window with
  | .error _ => []
  | .ok parts =>
    node.ownNotices ++ parts.attach.flatMap fun ⟨part, member⟩ =>
      have := sizeOf_lt_of_mem_parts divided member
      part.1.performNotices part.2
termination_by sizeOf node

end Node

end CyclePattern
