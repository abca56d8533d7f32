/-
# Every event comes of one emission

The parts of a node are its children and their items, some of them over and over, without those
that are silent anyway: rests, and the elongations that lengthen the item before them. So playing a
node goes through its emissions in order, and every emission becomes one event: the event that its
node plays, with the divisions and the ratios of the groups around it. No event is lost and none is
played twice.
-/

import CyclePattern.Proofs.Performance.Safety
import CyclePattern.Proofs.Performance.Scaling
import CyclePattern.Proofs.Rhythm.Euclidean
import CyclePattern.Proofs.Tree.Emissions

namespace CyclePattern

variable {α : Type}

namespace Node

theorem emissions_asItem (n : Node α) : n.asItem.emissions = n.emissions := by
  cases n with
  | elongation span => rfl
  | _ => rfl

theorem emissions_of_isElongation {n : Node α} (hn : n.isElongation = true) : n.emissions = [] := by
  cases n with
  | elongation span => rfl
  | _ => cases hn

theorem emissions_of_isRest {n : Node α} (hn : n.isRest = true) : n.emissions = [] := by
  cases n with
  | rest span => rfl
  | _ => cases hn

/-- What is played in the slots leaves out only silent items. -/
theorem flatMap_slotRuns (index : Nat) (nodes : List (Node α)) :
    (slotRuns index nodes).flatMap (fun run => run.1.emissions) = nodes.flatMap emissions := by
  induction nodes generalizing index with
  | nil => rfl
  | cons n tail ih =>
      rw [List.flatMap_cons]
      cases helongation : n.isElongation with
      | true =>
          rw [slotRuns_of_isElongation helongation, emissions_of_isElongation helongation, ih,
            List.nil_append]
      | false =>
          cases hrest : n.isRest with
          | true =>
              rw [slotRuns_of_isRest hrest, emissions_of_isRest hrest, ih, List.nil_append]
          | false => rw [slotRuns_of_sounding helongation hrest, List.flatMap_cons, ih]

variable [Measure α]

theorem flatMap_hold (weight : α) (nodes : List (Node α)) :
    (hold weight nodes).2.flatMap emissions = nodes.flatMap emissions := by
  fun_induction hold weight nodes with
  | case1 weight span tail ih =>
      rw [ih, List.flatMap_cons, emissions_of_isElongation rfl, List.nil_append]
  | case2 => rfl

/-- The items of a sequence leave out only elongations. -/
theorem flatMap_weightedItems (children : List (Node α)) :
    (weightedItems children).flatMap (fun item => item.1.emissions) =
      children.flatMap emissions := by
  fun_induction weightedItems children with
  | case1 => rfl
  | case2 child tail held ih =>
      rw [List.flatMap_cons, List.flatMap_cons, ih, flatMap_hold, emissions_asItem]

theorem map_fst_layout (total duration cursor : α) (items : List (Node α × α)) :
    (layout total duration cursor items).map Prod.fst = items.map Prod.fst := by
  induction items generalizing cursor with
  | nil => rfl
  | cons first rest ih => rw [layout, List.map_cons, List.map_cons, ih]

variable {n : Node α} {window : Window α} {parts : List (Node α × Window α)}

theorem flatMap_sequenceParts {children : List (Node α)}
    (hparts : sequenceParts children window = .ok parts) :
    parts.flatMap (fun part => part.1.emissions) = children.flatMap emissions := by
  rw [← flatMap_weightedItems, ← List.flatMap_map Prod.fst emissions,
    ← List.flatMap_map Prod.fst emissions]
  simp only [sequenceParts] at hparts
  split at hparts
  · next hempty =>
      cases hparts
      rw [List.isEmpty_iff.mp hempty]
      rfl
  split at hparts
  · cases hparts
  · cases hparts
    rw [map_fst_layout]

theorem length_of_split {count : Int} {windows : List (Window α)}
    (hwindows : window.split count = .ok windows) : windows.length = count.toNat := by
  obtain ⟨length, -, rfl⟩ := exists_of_map_eq_ok hwindows
  rw [List.length_map, List.length_range]

theorem flatMap_repeatedParts {repeats : Option Int}
    (hparts : repeatedParts n repeats window = .ok parts) :
    parts.flatMap (fun part => part.1.emissions) =
      (List.replicate (countOf repeats).toNat n.emissions).flatten := by
  obtain ⟨windows, hwindows, rfl⟩ := exists_of_map_eq_ok hparts
  have hsame : windows.map (fun _ => n.emissions) =
      List.replicate (countOf repeats).toNat n.emissions := by
    rw [List.map_const', length_of_split hwindows]
  rw [List.flatMap_map, List.flatMap_def, ← hsame]

theorem flatMap_steppedParts {groups : List (Node α)} {steps : Int}
    (hparts : steppedParts groups steps window = .ok parts) :
    parts.flatMap (fun part => part.1.emissions) =
      groups.flatMap fun group => (turns group.items steps.toNat).flatMap emissions := by
  obtain ⟨length, -, rfl⟩ := exists_of_map_eq_ok hparts
  rw [List.flatMap_assoc]
  congr 1
  funext group
  rw [List.flatMap_map, ← fill_eq_turns, flatMap_slotRuns]

/-- The parts of a node play its inner emissions. -/
theorem flatMap_parts (hparts : n.parts window = .ok parts) :
    parts.flatMap (fun part => part.1.emissions) = n.innerEmissions := by
  cases n with
  | sequence children => exact flatMap_sequenceParts hparts
  | stack groups =>
      cases hparts
      exact List.flatMap_map _ _ groups
  | subdivision inner repeats division ratio span => exact flatMap_repeatedParts hparts
  | alternation options repeats division span =>
      rcases options with _ | ⟨option, _ | ⟨second, others⟩⟩
      · cases hparts
        rfl
      · exact flatMap_repeatedParts hparts
      · cases hparts
        rfl
  | polymetric groups steps span =>
      cases steps with
      | none =>
          cases hparts
          exact List.flatMap_map _ _ groups
      | some count => exact flatMap_steppedParts hparts
  | _ =>
      cases hparts
      rfl

end Node

theorem length_flatten_of_forall {found : List (List (Event α))} {count : Nat}
    (hfound : ∀ events ∈ found, events.length = count) :
    found.flatten.length = found.length * count := by
  rw [List.length_flatten, List.map_eq_replicate_iff.mpr hfound, List.sum_replicate_nat]

theorem Node.length_choiceEvents (kind : ChoiceKind) (options : List (Node α)) (span : Span)
    (window : Window α) :
    (choiceEvents kind options span window).length = choiceCount options := by
  rcases choiceEvents_cases kind options span window with
    ⟨hsound, event, hevents, -⟩ | ⟨hsilent, hevents⟩
  · rw [hevents, choiceCount, if_pos hsound, List.length_singleton]
  · rw [hevents, choiceCount, if_neg hsilent, List.length_nil]

variable [Measure α] {window : Window α}

namespace Atom

variable {sound : Atom α} {span : Span} {events : List (Event α)}

theorem length_of_copyEvents (hevents : sound.copyEvents span window = .ok events) :
    events.length = sound.pulseCount := by
  unfold copyEvents at hevents
  split at hevents
  · next heuclid =>
      obtain ⟨event, -, rfl⟩ := Node.exists_of_map_eq_ok hevents
      rw [pulseCount, heuclid]
      rfl
  · next euclid heuclid =>
      cases hrhythm : Rhythm.rotatedEuclidean euclid.steps euclid.pulses euclid.rotation with
      | error cause =>
          rw [hrhythm] at hevents
          cases hevents
      | ok rhythm =>
          rw [hrhythm] at hevents
          obtain ⟨steps, hsteps, hevents⟩ := exists_of_bind_eq_ok hevents
          obtain ⟨length, -, hevents⟩ := exists_of_bind_eq_ok hevents
          cases hsteps
          rw [← (forall₂_of_mapM hevents).length_eq, pulseCount, heuclid]
          exact Rhythm.length_onsets_rotatedEuclidean hrhythm

theorem length_of_events (hevents : sound.events span window = .ok events) :
    events.length = sound.eventCount := by
  obtain ⟨windows, hwindows, hevents⟩ := exists_of_bind_eq_ok hevents
  obtain ⟨found, hfound, rfl⟩ := forall₂_of_flatMapM hevents
  have hcopies : ∀ copies ∈ found, copies.length = sound.pulseCount := by
    intro copies hcopies
    obtain ⟨part, -, hpart⟩ := exists_of_mem_of_forall₂ hfound hcopies
    exact length_of_copyEvents hpart
  rw [length_flatten_of_forall hcopies, ← hfound.length_eq, Node.length_of_split hwindows]
  rfl

end Atom

namespace Node

variable {n : Node α}

theorem length_of_repeatedChoice {kind : ChoiceKind} {options : List (Node α)} {span : Span}
    {count : Int} {events : List (Event α)}
    (hevents : (window.split count).map (fun windows =>
      windows.flatMap (choiceEvents kind options span)) = .ok events) :
    events.length = count.toNat * choiceCount options := by
  obtain ⟨windows, hwindows, rfl⟩ := exists_of_map_eq_ok hevents
  rw [List.flatMap_def, length_flatten_of_forall, List.length_map, length_of_split hwindows]
  intro events hmem
  obtain ⟨part, -, rfl⟩ := List.mem_map.mp hmem
  exact length_choiceEvents kind options span part

theorem length_of_ownEvents {own : List (Event α)} (hown : n.ownEvents window = .ok own) :
    own.length = n.ownCount := by
  cases n with
  | atom sound span => exact Atom.length_of_events hown
  | alternation options repeats division span =>
      rcases options with _ | ⟨option, _ | ⟨second, others⟩⟩
      · exact length_of_repeatedChoice hown
      · cases hown
        rfl
      · exact length_of_repeatedChoice hown
  | choice options span =>
      cases hown
      exact length_choiceEvents _ options span window
  | _ =>
      cases hown
      rfl

end Node

namespace Emission

variable {emission : Emission α} {event : Event α} {n : Node α}

/-- The divisions that are set on an emission, the innermost first. An alternation that is left open
sets its own. -/
def divisions (emission : Emission α) : List α :=
  (emission.source :: emission.path).flatMap fun n => n.groupDivision.toList

/-- The ratios that are set on an emission, the innermost first. -/
def ratios (emission : Emission α) : List α :=
  (emission.source :: emission.path).flatMap fun n => n.groupRatio.toList

/-- An emission becomes an event: one that its source plays by itself, after the groups around it
did what they do. -/
def Plays (emission : Emission α) (event : Event α) : Prop :=
  ∃ window found own, emission.source.ownEvents window = .ok found ∧ own ∈ found ∧
    own.Becomes emission.divisions emission.ratios event

/-- An emission of a node becomes an event that the node is still to shape. -/
def PlaysBefore (outer : Node α) (emission : Emission α) (event : Event α) : Prop :=
  ∃ window found own divisions ratios, emission.source.ownEvents window = .ok found ∧ own ∈ found ∧
    Event.Becomes own divisions ratios event ∧
    emission.divisions = divisions ++ outer.groupDivision.toList ∧
    emission.ratios = ratios ++ outer.groupRatio.toList

theorem playsBefore_of_ownEvents {own : List (Event α)} (hown : n.ownEvents window = .ok own)
    (hevent : event ∈ own) : PlaysBefore n ⟨n, []⟩ event :=
  ⟨window, own, event, [], [], hown, hevent, .refl event, List.flatMap_singleton _ n,
    List.flatMap_singleton _ n⟩

theorem Plays.before (hevent : emission.Plays event) (outer : Node α) :
    PlaysBefore outer (emission.inside outer) event := by
  obtain ⟨window, found, own, hfound, hown, hbecomes⟩ := hevent
  refine ⟨window, found, own, _, _, hfound, hown, hbecomes, ?_, ?_⟩
  · rw [divisions, divisions, inside, ← List.cons_append, List.flatMap_append,
      List.flatMap_singleton]
  · rw [ratios, ratios, inside, ← List.cons_append, List.flatMap_append, List.flatMap_singleton]

end Emission

namespace Node

theorem forall₂_replicate {β γ : Type} {R : β → γ → Prop} {x : β} {ys : List γ}
    (hall : ∀ y ∈ ys, R x y) : List.Forall₂ R (List.replicate ys.length x) ys := by
  induction ys with
  | nil => exact .nil
  | cons y rest ih =>
      obtain ⟨hfirst, hrest⟩ := List.forall_mem_cons.mp hall
      exact .cons hfirst (ih hrest)

/-- A node plays one event for each of its emissions, in order. -/
theorem forall₂_emissions {n : Node α} {events : List (Event α)}
    (hevents : n.perform window = .ok events) :
    List.Forall₂ Emission.Plays n.emissions events := by
  refine perform_induction ?_ hevents
  intro n window parts own played events hparts hown hplayed hshape
  rw [emissions_eq, emissionsAround, ← length_of_ownEvents hown]
  have howns : List.Forall₂ (Emission.PlaysBefore n) (List.replicate own.length ⟨n, []⟩) own :=
    forall₂_replicate fun event hevent => Emission.playsBefore_of_ownEvents hown hevent
  have hinner : List.Forall₂ (Emission.PlaysBefore n)
      (n.innerEmissions.map (Emission.inside n)) played.flatten := by
    rw [← flatMap_parts hparts, List.flatMap_def, List.forall₂_map_left_iff]
    have hlists : List.Forall₂ (List.Forall₂ Emission.Plays)
        (parts.map fun part => part.1.emissions) played := by
      rwa [List.forall₂_map_left_iff]
    exact (List.rel_flatten hlists).imp fun emission event hevent => hevent.before n
  refine forall₂_trans ?_ (List.rel_append howns hinner) (forall₂_of_shape hshape)
  intro emission event changed hbefore hchanged
  obtain ⟨window, found, own, divisions, ratios, hfound, hown, hbecomes, hdivisions, hratios⟩ :=
    hbefore
  refine ⟨window, found, own, hfound, hown, ?_⟩
  rw [hdivisions, hratios]
  exact hchanged own divisions ratios hbecomes

end Node

namespace Reading

variable {limit : Int} {cs : List Char} {items : List (Node Float)}

end Reading

end CyclePattern
