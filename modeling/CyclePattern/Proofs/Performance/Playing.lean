/-
# How a node comes to its events

A node that is played has its own events and those of its parts, in order, and then shapes all of
them. So to show something of the events of a tree it is enough to show it of one node: from what
its parts play in their windows to what it plays in its own.

Shaping sets controls. It leaves every event in its window.
-/

import CyclePattern.Performance.Perform
import CyclePattern.Proofs.Tree.Gapless
import Mathlib.Data.List.Forall2

namespace CyclePattern

variable {α β γ : Type}

theorem exists_of_bind_eq_ok {result : Except Fault β} {next : β → Except Fault γ} {value : γ}
    (hbind : result >>= next = .ok value) : ∃ x, result = .ok x ∧ next x = .ok value := by
  cases result with
  | error fault => cases hbind
  | ok x => exact ⟨x, rfl, hbind⟩

theorem forall₂_of_mapM {f : β → Except Fault γ} {items : List β} {values : List γ}
    (hvalues : items.mapM f = .ok values) :
    List.Forall₂ (fun item value => f item = .ok value) items values := by
  induction items generalizing values with
  | nil =>
      cases hvalues
      exact .nil
  | cons item rest ih =>
      rw [List.mapM_cons] at hvalues
      obtain ⟨value, hvalue, hnext⟩ := exists_of_bind_eq_ok hvalues
      obtain ⟨others, hothers, hpure⟩ := exists_of_bind_eq_ok hnext
      cases hpure
      exact .cons hvalue (ih hothers)

theorem forall₂_of_flatMapM {f : β → Except Fault (List γ)} {items : List β} {values : List γ}
    (hvalues : items.flatMapM f = .ok values) :
    ∃ found, List.Forall₂ (fun item value => f item = .ok value) items found ∧
      values = found.flatten := by
  induction items generalizing values with
  | nil =>
      cases hvalues
      exact ⟨[], .nil, rfl⟩
  | cons item rest ih =>
      rw [List.flatMapM_cons] at hvalues
      obtain ⟨value, hvalue, hnext⟩ := exists_of_bind_eq_ok hvalues
      obtain ⟨others, hothers, hpure⟩ := exists_of_bind_eq_ok hnext
      obtain ⟨found, hfound, rfl⟩ := ih hothers
      cases hpure
      exact ⟨value :: found, .cons hvalue hfound, rfl⟩

/-- What a list of values comes of is in the list of items. -/
theorem exists_of_mem_of_forall₂ {R : β → γ → Prop} {items : List β} {values : List γ}
    (hvalues : List.Forall₂ R items values) {value : γ} (hvalue : value ∈ values) :
    ∃ item ∈ items, R item value := by
  induction hvalues with
  | nil => cases hvalue
  | cons hfirst _ ih =>
      rcases List.mem_cons.mp hvalue with rfl | hlater
      · exact ⟨_, List.mem_cons_self, hfirst⟩
      · obtain ⟨item, hitem, hsame⟩ := ih hlater
        exact ⟨item, List.mem_cons_of_mem _ hitem, hsame⟩

section

variable {f g : α → Except Fault (List β)} {items : List α}

theorem flatMapM_congr (hitems : ∀ item ∈ items, f item = g item) :
    items.flatMapM f = items.flatMapM g := by
  induction items with
  | nil => rfl
  | cons item rest ih =>
      obtain ⟨hfirst, hrest⟩ := List.forall_mem_cons.mp hitems
      rw [List.flatMapM_cons, List.flatMapM_cons, hfirst, ih hrest]

theorem flatMapM_singleton (item : α) : [item].flatMapM f = f item := by
  rw [List.flatMapM_cons]
  cases f item with
  | error fault => rfl
  | ok values => exact congrArg Except.ok (List.append_nil values)

theorem flatMapM_append (items others : List α) :
    (items ++ others).flatMapM f =
      (do let first ← items.flatMapM f
          let second ← others.flatMapM f
          pure (first ++ second)) := by
  induction items with
  | nil =>
      rw [List.nil_append]
      cases others.flatMapM f <;> rfl
  | cons item rest ih =>
      rw [List.cons_append, List.flatMapM_cons, List.flatMapM_cons, ih]
      cases f item with
      | error fault => rfl
      | ok values =>
          cases rest.flatMapM f with
          | error fault => rfl
          | ok found =>
              cases others.flatMapM f with
              | error fault => rfl
              | ok more => exact congrArg Except.ok (List.append_assoc values found more).symm

theorem flatMapM_comp (rename : γ → α) (names : List γ) :
    (names.map rename).flatMapM f = names.flatMapM fun name => f (rename name) := by
  induction names with
  | nil => rfl
  | cons name rest ih => rw [List.map_cons, List.flatMapM_cons, List.flatMapM_cons, ih]

theorem flatMapM_flatMap (parts : γ → List α) (wholes : List γ) :
    (wholes.flatMap parts).flatMapM f = wholes.flatMapM fun whole => (parts whole).flatMapM f := by
  induction wholes with
  | nil => rfl
  | cons whole rest ih => rw [List.flatMap_cons, flatMapM_append, List.flatMapM_cons, ih]

/-- Items that come to nothing may be left out. -/
theorem flatMapM_filter {p : α → Bool}
    (hsilent : ∀ item ∈ items, p item = false → f item = .ok []) :
    (items.filter p).flatMapM f = items.flatMapM f := by
  induction items with
  | nil => rfl
  | cons item rest ih =>
      obtain ⟨hfirst, hrest⟩ := List.forall_mem_cons.mp hsilent
      rw [List.filter_cons, List.flatMapM_cons]
      split
      · rw [List.flatMapM_cons, ih hrest]
      · next hnot =>
          rw [hfirst (by simpa using hnot), ih hrest]
          cases rest.flatMapM f <;> rfl

theorem exists_flatMapM (hitems : ∀ item ∈ items, ∃ values, f item = .ok values) :
    ∃ values, items.flatMapM f = .ok values := by
  induction items with
  | nil => exact ⟨[], rfl⟩
  | cons item rest ih =>
      obtain ⟨⟨values, hvalues⟩, hrest⟩ := List.forall_mem_cons.mp hitems
      obtain ⟨others, hothers⟩ := ih hrest
      rw [List.flatMapM_cons, hvalues, hothers]
      exact ⟨values ++ others, rfl⟩

end

/-- The event with other controls. -/
def Event.withControls (event : Event α) (controls : Controls α) : Event α :=
  { event with controls := controls }

/-- The stretch of time in which an event sounds. -/
def Event.window (event : Event α) : Window α :=
  ⟨event.time, event.duration⟩

namespace Node

theorem isSome_sound_iff (n : Node α) :
    (OptionSound.ofNode n).sound.isSome = true ↔ n.HasSound := by
  cases n with
  | atom sound span => exact iff_of_true rfl trivial
  | harmony leaf text span => exact iff_of_true rfl trivial
  | _ => exact iff_of_false (by simp [OptionSound.ofNode]) id

/-- A choice plays one event in its window if one of its options has a sound, and nothing
otherwise. -/
theorem choiceEvents_cases (kind : ChoiceKind) (options : List (Node α)) (span : Span)
    (window : Window α) :
    ((∃ option ∈ options, option.HasSound) ∧
      ∃ event, choiceEvents kind options span window = [event] ∧ event.window = window ∧
        event.controls = []) ∨
    ((¬ ∃ option ∈ options, option.HasSound) ∧ choiceEvents kind options span window = []) := by
  simp only [choiceEvents]
  split
  · next hnone =>
      refine .inr ⟨?_, rfl⟩
      rintro ⟨option, hoption, hsound⟩
      have hsilent := List.findSome?_eq_none_iff.mp hnone _ (List.mem_map_of_mem hoption)
      have hsome := option.isSome_sound_iff.mpr hsound
      rw [Option.map_eq_none_iff.mp hsilent] at hsome
      cases hsome
  · next name sample hsome =>
      obtain ⟨described, hdescribed, hname⟩ := List.exists_of_findSome?_eq_some hsome
      obtain ⟨option, hoption, rfl⟩ := List.mem_map.mp hdescribed
      obtain ⟨_, hsound, -⟩ := Option.map_eq_some_iff.mp hname
      exact .inl ⟨⟨option, hoption, option.isSome_sound_iff.mp (Option.isSome_of_mem hsound)⟩,
        _, rfl, rfl, rfl⟩

end Node

variable [Measure α]

theorem window_divideAll (division : Option α) (events : List (Event α)) :
    (divideAll division events).map Event.window = events.map Event.window := by
  cases division with
  | none => rfl
  | some factor =>
      rw [divideAll, List.map_map]
      rfl

theorem window_of_slow {ratio : α} {event slowed : Event α}
    (hslowed : event.slow ratio = .ok slowed) : slowed.window = event.window := by
  obtain ⟨speed, -, rfl⟩ := Node.exists_of_map_eq_ok hslowed
  rfl

theorem window_of_slowAll {ratio : Option α} {events slowed : List (Event α)}
    (hslowed : slowAll ratio events = .ok slowed) :
    slowed.map Event.window = events.map Event.window := by
  cases ratio with
  | none =>
      cases hslowed
      rfl
  | some factor =>
      have hevents := forall₂_of_mapM hslowed
      clear hslowed
      induction hevents with
      | nil => rfl
      | cons hfirst _ ih => rw [List.map_cons, List.map_cons, window_of_slow hfirst, ih]

namespace Node

/-- What a group does to the events inside it leaves them in their windows. -/
theorem window_of_shape {n : Node α} {events shaped : List (Event α)}
    (hshaped : n.shape events = .ok shaped) :
    shaped.map Event.window = events.map Event.window := by
  unfold shape at hshaped
  split at hshaped
  · next division ratio _ => rw [window_of_slowAll hshaped, window_divideAll]
  · next division _ =>
      cases hshaped
      exact window_divideAll division events
  · cases hshaped
    rfl

section

variable {options : List (Node α)} {repeats : Option Int}
  {division : Option α} {span : Span} {window : Window α}

/-- An alternation hands its window to its option when it has exactly one. -/
theorem parts_of_length_ne_one (hlength : options.length ≠ 1) :
    (alternation options repeats division span).parts window = .ok [] := by
  rcases options with _ | ⟨option, _ | ⟨second, others⟩⟩
  · rfl
  · contradiction
  · rfl

/-- Otherwise it plays events of its own. -/
theorem ownEvents_of_length_ne_one (hlength : options.length ≠ 1) :
    (alternation options repeats division span).ownEvents window =
      (window.split (countOf repeats)).map fun windows =>
        windows.flatMap (choiceEvents .alternation options span) := by
  rcases options with _ | ⟨option, _ | ⟨second, others⟩⟩
  · rfl
  · contradiction
  · rfl

end

/-- To prove something of every node, prove it of a node whose parts all have it. -/
@[elab_as_elim]
theorem partsInduction {motive : Node α → Prop} (n : Node α)
    (step : ∀ n : Node α, (∀ window parts, n.parts window = .ok parts →
      ∀ part ∈ parts, motive part.1) → motive n) : motive n := by
  apply step
  intro window parts hparts part hpart
  have hsmaller := sizeOf_lt_of_mem_parts hparts hpart
  exact partsInduction part.1 step
termination_by sizeOf n

theorem exists_of_perform {n : Node α} {window : Window α} {events : List (Event α)}
    (hevents : n.perform window = .ok events) :
    ∃ parts own inner, n.parts window = .ok parts ∧ n.ownEvents window = .ok own ∧
      List.Forall₂ (fun part played => part.1.perform part.2 = .ok played) parts inner ∧
      n.shape (own ++ inner.flatten) = .ok events := by
  rw [perform_eq] at hevents
  obtain ⟨parts, hparts, hevents⟩ := exists_of_bind_eq_ok hevents
  obtain ⟨own, hown, hevents⟩ := exists_of_bind_eq_ok hevents
  obtain ⟨played, hplayed, hevents⟩ := exists_of_bind_eq_ok hevents
  obtain ⟨inner, hinner, rfl⟩ := forall₂_of_flatMapM hplayed
  exact ⟨parts, own, inner, hparts, hown, hinner, hevents⟩

theorem perform_of_isRest {n : Node α} (hn : n.isRest = true) (window : Window α) :
    n.perform window = .ok [] := by
  cases n with
  | rest span =>
      have hparts : (rest span : Node α).parts window = .ok [] := rfl
      rw [perform_of_parts hparts]
      rfl
  | _ => cases hn

/-- A node that has no events of its own and does nothing to those inside it plays its parts. -/
theorem perform_of_plain {n : Node α} {window : Window α}
    {parts : List (Node α × Window α)} (hparts : n.parts window = .ok parts)
    (hown : n.ownEvents window = .ok []) (hshape : ∀ events, n.shape events = .ok events) :
    n.perform window = parts.flatMapM fun part => part.1.perform part.2 := by
  rw [perform_of_parts hparts, hown]
  cases parts.flatMapM fun part => part.1.perform part.2 with
  | error fault => rfl
  | ok inner => exact hshape inner

/-- A node whose only part has the same window plays that part. -/
theorem perform_of_single {n part : Node α} {window : Window α}
    (hparts : n.parts window = .ok [(part, window)]) (hown : n.ownEvents window = .ok [])
    (hshape : ∀ events, n.shape events = .ok events) :
    n.perform window = part.perform window := by
  rw [perform_of_plain hparts hown hshape, flatMapM_singleton]

/-- To prove something of all that is played, prove it of the events of a node when it holds of what
each of its parts plays. -/
@[elab_as_elim]
theorem perform_induction {motive : Node α → Window α → List (Event α) → Prop}
    (step : ∀ (n : Node α) (window : Window α) parts own inner events,
      n.parts window = .ok parts → n.ownEvents window = .ok own →
      List.Forall₂ (fun part played => motive part.1 part.2 played) parts inner →
      n.shape (own ++ inner.flatten) = .ok events → motive n window events)
    {n : Node α} {window : Window α} {events : List (Event α)}
    (hevents : n.perform window = .ok events) : motive n window events := by
  induction n using partsInduction generalizing window events with
  | step n ih =>
      obtain ⟨parts, own, inner, hparts, hown, hinner, hshape⟩ := exists_of_perform hevents
      apply step n window parts own inner events hparts hown _ hshape
      have hboth := (List.forall₂_and_left parts inner).mpr ⟨ih window parts hparts, hinner⟩
      exact hboth.imp fun part played ⟨hpart, hplayed⟩ => hpart hplayed

end Node

end CyclePattern
