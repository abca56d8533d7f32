/-
# What is played stays in its window

Every way of dividing a window hands out stretches that lie inside it and take time, and the parts
of a group that sound together each have all of it. Windows inside windows lie inside the outermost
one, so no event begins before the window of the whole pattern or rings on after it.
-/

import CyclePattern.Proofs.Performance.Division

namespace CyclePattern

namespace Node

variable {n : Node Rat} {window : Window Rat}

/-- A slot, with those of the elongations after it, ends with the window at the latest. -/
theorem contains_of_mem_steppedParts (hduration : 0 < window.duration) {groups : List (Node Rat)}
    {count : Int} (hcount : 0 < count) {parts : List (Node Rat × Window Rat)}
    (hparts : steppedParts groups count window = .ok parts) {part : Node Rat × Window Rat}
    (hpart : part ∈ parts) : window.Contains part.2 := by
  rw [steppedParts_rat groups window hcount] at hparts
  cases hparts
  obtain ⟨group, -, hrun⟩ := List.mem_flatMap.mp hpart
  obtain ⟨run, hslot, rfl⟩ := List.mem_map.mp hrun
  have hturn := inTurn_group True hduration hcount group.items (.inl trivial) (.inl trivial)
  exact hturn.contains (List.mem_map_of_mem hslot)

/-- A node hands its parts stretches of its own window. -/
theorem contains_of_mem_parts (hduration : 0 < window.duration)
    (hn : ∀ m, n.Holds m → m.WellFormed) {parts : List (Node Rat × Window Rat)}
    (hparts : n.parts window = .ok parts) {part : Node Rat × Window Rat} (hpart : part ∈ parts) :
    window.Contains part.2 := by
  have hself := hn n (.refl n)
  unfold Node.parts at hparts
  split at hparts
  · next children =>
      have hchildren : ∀ child ∈ children, child.WellFormed :=
        fun child hchild => hn child (.child hchild (.refl child))
      have hturn : InTurn True window.start (parts.map (·.2)) window.stop :=
        inTurn_sequenceParts hduration hchildren (.inl trivial) hparts
      exact hturn.contains (List.mem_map_of_mem hpart)
  · cases hparts
    obtain ⟨group, -, rfl⟩ := List.mem_map.mp hpart
    exact .refl hduration
  · obtain ⟨-, -, hrepeats, -⟩ := hself
    have hturn := inTurn_repeatedParts True hduration (countOf_pos hrepeats) hparts
    exact hturn.contains (List.mem_map_of_mem hpart)
  · obtain ⟨-, -, hrepeats, -⟩ := hself
    have hturn := inTurn_repeatedParts True hduration (countOf_pos hrepeats) hparts
    exact hturn.contains (List.mem_map_of_mem hpart)
  · cases hparts
    obtain ⟨group, -, rfl⟩ := List.mem_map.mp hpart
    exact .refl hduration
  · obtain ⟨-, -, hsteps⟩ := hself
    exact contains_of_mem_steppedParts hduration (hsteps _ rfl) hparts hpart
  · cases hparts
    cases hpart

theorem contains_of_mem_ownEvents (hduration : 0 < window.duration) (hn : n.WellFormed)
    {own : List (Event Rat)} (hown : n.ownEvents window = .ok own) {event : Event Rat}
    (hevent : event ∈ own) : window.Contains event.window := by
  have hturn : InTurn True window.start (own.map Event.window) window.stop :=
    inTurn_ownEvents hduration hn (.inl trivial) hown
  exact hturn.contains (List.mem_map_of_mem hevent)

/-- Everything that a tree of well-formed nodes plays lies in its window. -/
theorem contains_of_mem_perform (hduration : 0 < window.duration)
    (hn : ∀ m, n.Holds m → m.WellFormed) {events : List (Event Rat)}
    (hevents : n.perform window = .ok events) {event : Event Rat} (hevent : event ∈ events) :
    window.Contains event.window := by
  -- Shaping sets controls only, so what is carried from the parts to the node is where events are.
  suffices hwindows : ∀ inner ∈ events.map Event.window, window.Contains inner from
    hwindows _ (List.mem_map_of_mem hevent)
  clear hevent
  revert hduration hn
  refine perform_induction ?_ hevents
  intro n window parts own played events hparts hown hplayed hshape hduration hn inner hinner
  rw [window_of_shape hshape, List.map_append, List.mem_append] at hinner
  rcases hinner with hinner | hinner
  · obtain ⟨event, hevent, rfl⟩ := List.mem_map.mp hinner
    exact contains_of_mem_ownEvents hduration (hn n (.refl n)) hown hevent
  · rw [List.map_flatten] at hinner
    obtain ⟨windows, hwindows, hinner⟩ := List.mem_flatten.mp hinner
    obtain ⟨events, hevents, rfl⟩ := List.mem_map.mp hwindows
    obtain ⟨part, hpart, hcontains⟩ := exists_of_mem_of_forall₂ hplayed hevents
    have houter := contains_of_mem_parts hduration hn hparts hpart
    exact houter.trans (hcontains houter.duration
      (fun m hm => wellFormed_of_mem_parts hn hparts hpart hm) inner hinner)

end Node

namespace Reading

/-- A tree that was read is played inside its window: with exact numbers every event takes time,
begins in the window and ends with it at the latest. -/
theorem perform_exact_within {limit : Int} {cs : List Char} {items : List (Node Float)}
    (hresult : (ofText limit 0 0 cs).result = .ok items)
    (hfinite : (Node.sequence items).IsFinite) (start : Rat) {duration : Rat}
    (hduration : 0 < duration) :
    ∃ events, (Node.sequence items).exact.perform ⟨start, duration⟩ = .ok events ∧
      ∀ event ∈ events, 0 < event.duration ∧ event.duration ≤ duration ∧
        start ≤ event.time ∧ event.time < start + duration ∧
        event.time + event.duration ≤ start + duration := by
  obtain ⟨events, hevents⟩ := exists_perform_exact hresult hfinite ⟨start, duration⟩
  refine ⟨events, hevents, ?_⟩
  intro event hevent
  have hwindow : 0 < (Window.mk start duration).duration := hduration
  have hcontains := Node.contains_of_mem_perform hwindow
    (fun _ hm => wellFormed_exact_of_result hresult hfinite hm) hevents hevent
  have hstart : start ≤ event.time := hcontains.start
  have htime : 0 < event.duration := hcontains.duration
  have hstop : event.time + event.duration ≤ start + duration := hcontains.stop
  exact ⟨htime, by linarith, hstart, by linarith, hstop⟩

/-- In the whole cycle times lie below one, and durations do not exceed it. -/
theorem perform_exact_within_of_steps :
    ∃ items, (ofText 1 0 0 ['{', 'a', ' ', '_', ' ', '^', '5', '}', '%', '4']).result = .ok items ∧
      (Node.sequence items).IsFinite ∧ (0 : Rat) < 1 ∧
      ∃ events, (Node.sequence items).exact.perform ⟨0, 1⟩ = .ok events ∧
        ∀ event ∈ events, 0 < event.duration ∧ event.duration ≤ 1 ∧
          0 ≤ event.time ∧ event.time < 0 + 1 ∧ event.time + event.duration ≤ 0 + 1 :=
  ⟨_, result_stepped_group, isFinite_stepped_group, zero_lt_one,
    perform_exact_within result_stepped_group isFinite_stepped_group 0 zero_lt_one⟩

end Reading

end CyclePattern
