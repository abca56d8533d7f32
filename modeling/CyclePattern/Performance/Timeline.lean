/-
# Events in the order of time

Events at the same time keep the order of the tree. The run of events at the
front that is in order already, or strictly in reverse order, is taken as it is
or turned around; every later event is placed by bisection after those that it
does not precede. Events that are in order are therefore left alone. A time
that is no number precedes nothing, and nothing precedes it.

Where all times are numbers this is the stable order of time, whatever sort
finds it. A weight beyond every float makes times that are no numbers. What
comes of those depends on which events a sort compares: the order below is that
of a merge sort that sorts its runs by bisection, for fewer than 64 events,
which make a single run. For more events with such a time among them the merging
of runs is left out, and the order may differ.
-/

import CyclePattern.Performance.Event
import CyclePattern.Number.Measure

namespace CyclePattern.Timeline

variable {α : Type} [Measure α]

/-- Whether an event is strictly earlier than another. -/
def precedes (first second : Event α) : Bool :=
  Measure.isBefore first.time second.time

/-- Longest run at the front in which every event after `last` follows on the
one before it, and the events after the run. -/
def spanRun (follows : Event α → Event α → Bool) (last : Event α) :
    List (Event α) → List (Event α) × List (Event α)
  | [] => ([], [])
  | event :: rest =>
    if follows last event then
      let (run, after) := spanRun follows event rest
      (event :: run, after)
    else ([], event :: rest)

/-- The run at the front in order, and the events after it. -/
def firstRun : List (Event α) → List (Event α) × List (Event α)
  | [] => ([], [])
  | [event] => ([event], [])
  | first :: second :: rest =>
    if precedes second first then
      let (run, after) := spanRun (fun last event => precedes event last) first (second :: rest)
      ((first :: run).reverse, after)
    else
      let (run, after) := spanRun (fun last event => !precedes event last) first (second :: rest)
      (first :: run, after)

/-- Place of an event among sorted ones, between `low` and `high`: behind all
that it does not precede. -/
def place (sorted : Array (Event α)) (event : Event α) (low high : Nat) : Nat :=
  if low < high then
    let middle := (low + high) / 2
    let earlier := (sorted[middle]?.map (precedes event)).getD false
    if earlier then place sorted event low middle else place sorted event (middle + 1) high
  else low
termination_by high - low

/-- Insert an event at its place. -/
def insert (sorted : Array (Event α)) (event : Event α) : Array (Event α) :=
  let index := place sorted event 0 sorted.size
  sorted.extract 0 index ++ #[event] ++ sorted.extract index sorted.size

/-- Events in the order of time. -/
def ofEvents (events : List (Event α)) : List (Event α) :=
  let (run, later) := firstRun events
  (later.foldl insert run.toArray).toList

end CyclePattern.Timeline
