/-
# How exact time is divided

Every way of dividing a window leaves parts that come one after the other and end with the window:
items in proportion to their weights, equal parts, the steps of a rhythm, and the slots of a group
with steps. Rests and silent steps leave gaps between the parts, and nothing else does.
-/

import CyclePattern.Proofs.Performance.Faults
import CyclePattern.Proofs.Performance.Slots
import CyclePattern.Proofs.Performance.Succession
import CyclePattern.Proofs.Rhythm.Euclidean
import CyclePattern.Proofs.Tree.Gapless

namespace CyclePattern

variable {gaps : Prop} {window : Window Rat} {length : Rat} {count : Int}

namespace Window

/-- The time after some parts of a window. -/
def edge (window : Window Rat) (length : Rat) (index : Nat) : Rat :=
  window.start + index * length

theorem edge_zero (window : Window Rat) (length : Rat) : window.edge length 0 = window.start := by
  simp [edge]

theorem edge_count (window : Window Rat) (hcount : 0 < count) :
    window.edge (window.duration / count) count.toNat = window.stop := by
  have hcast : ((count.toNat : Nat) : Rat) = count := by
    exact_mod_cast Int.toNat_of_nonneg hcount.le
  have hne : (count : Rat) ≠ 0 := by exact_mod_cast hcount.ne'
  rw [edge, stop, hcast, mul_div_cancel₀ _ hne]

theorem edge_mono (window : Window Rat) (hlength : 0 < length) {first second : Nat}
    (hle : first ≤ second) : window.edge length first ≤ window.edge length second := by
  have hcast : (first : Rat) ≤ second := by exact_mod_cast hle
  have hmul := mul_le_mul_of_nonneg_right hcast hlength.le
  rw [edge, edge]
  linarith

theorem stop_slot (window : Window Rat) (length : Rat) (index : Nat) :
    (window.slot length index).stop = window.edge length (index + 1) := by
  simp only [slot, stop, edge, Measure.ofInt_rat]
  push_cast
  ring

theorem stop_part (window : Window Rat) (length : Rat) (index size : Nat) :
    (window.part length index size).stop = window.edge length (index + size) := by
  simp only [part, stop, edge, Measure.ofInt_rat]
  push_cast
  ring

theorem partLength_rat (window : Window Rat) (hcount : 0 < count) :
    window.partLength count = .ok (window.duration / count) := by
  rw [partLength, if_pos (Measure.fits_rat count)]
  exact quotient_eq_ok _ (LawfulMeasure.ofInt_pos hcount)

theorem split_rat (window : Window Rat) (hcount : 0 < count) :
    window.split count =
      .ok ((List.range count.toNat).map (window.slot (window.duration / count))) := by
  rw [split, partLength_rat window hcount]
  rfl

theorem partLength_pos (hduration : 0 < window.duration) (hcount : 0 < count) :
    0 < window.duration / count :=
  div_pos hduration (Int.cast_pos.mpr hcount)

end Window

namespace InTurn

/-- The steps of a rhythm that are played come one after the other. -/
theorem steps (window : Window Rat) (hlength : 0 < length) {rhythm : List Bool}
    (hrhythm : gaps ∨ ∀ isPlayed ∈ rhythm, isPlayed = true) (index : Nat) :
    InTurn gaps (window.edge length index)
      (((rhythm.zipIdx index).filter fun step => step.1).map fun step => window.slot length step.2)
      (window.edge length (index + rhythm.length)) := by
  induction rhythm generalizing index with
  | nil => exact Reaches.refl gaps _
  | cons isPlayed rest ih =>
      have hnext := ih (hrhythm.imp_right fun hall other hother => hall other (by simp [hother]))
        (index + 1)
      have hlast : index + 1 + rest.length = index + (isPlayed :: rest).length := by
        simp only [List.length_cons]
        omega
      rw [hlast] at hnext
      rw [List.zipIdx_cons]
      cases isPlayed with
      | true =>
          rw [List.filter_cons_of_pos rfl, List.map_cons]
          exact ⟨.refl gaps _, hlength, by rwa [Window.stop_slot]⟩
      | false =>
          have hgaps : gaps := hrhythm.resolve_right fun hall => by simpa using hall false (by simp)
          have hle := window.edge_mono hlength (Nat.le_add_right index 1)
          rw [List.filter_cons_of_neg (by simp)]
          exact of_reaches (.inr ⟨hgaps, hle⟩) hnext

/-- The onsets of a rhythm come one after the other in its window. -/
theorem onsets (hduration : 0 < window.duration) (hcount : 0 < count) {rhythm : List Bool}
    (hlength : rhythm.length = count.toNat)
    (hrhythm : gaps ∨ ∀ isPlayed ∈ rhythm, isPlayed = true) :
    InTurn gaps window.start
      ((Rhythm.onsets id rhythm).map (window.slot (window.duration / count))) window.stop := by
  have hsteps := steps window (Window.partLength_pos hduration hcount) hrhythm 0
  rw [Window.edge_zero, hlength, Nat.zero_add, Window.edge_count window hcount] at hsteps
  rw [Rhythm.onsets, List.map_map]
  exact hsteps

/-- Equal parts of a window come one after the other without gaps. -/
theorem slots (gaps : Prop) (hduration : 0 < window.duration) (hcount : 0 < count) :
    InTurn gaps window.start
      ((List.range count.toNat).map (window.slot (window.duration / count))) window.stop := by
  have hall : ∀ isPlayed ∈ List.replicate count.toNat true, isPlayed = true :=
    fun isPlayed hmem => List.eq_of_mem_replicate hmem
  have hrange : Rhythm.onsets id (List.replicate count.toNat true) = List.range count.toNat := by
    rw [Rhythm.onsets_of_forall hall, List.length_replicate]
  rw [← hrange]
  exact onsets hduration hcount List.length_replicate (.inr hall)

end InTurn

namespace Node

theorem sum_rat (xs : List Rat) : Measure.sum xs = xs.sum := by
  rw [List.sum_eq_foldl]
  rfl

/-- Items in proportion to their weights come one after the other. -/
theorem inTurn_layout (gaps : Prop) {total duration : Rat} (htotal : 0 < total)
    (hduration : 0 < duration) {items : List (Node Rat × Rat)}
    (hitems : ∀ item ∈ items, 0 < item.2) (cursor : Rat) :
    InTurn gaps cursor ((layout total duration cursor items).map (·.2))
      (cursor + (items.map (·.2)).sum / total * duration) := by
  induction items generalizing cursor with
  | nil =>
      rw [List.map_nil, List.sum_nil, zero_div, zero_mul, add_zero]
      exact Reaches.refl gaps cursor
  | cons first rest ih =>
      obtain ⟨item, weight⟩ := first
      obtain ⟨hweight, hrest⟩ := List.forall_mem_cons.mp hitems
      have hslot : 0 < weight / total * duration := mul_pos (div_pos hweight htotal) hduration
      have hlast : cursor + ((item, weight) :: rest |>.map (·.2)).sum / total * duration =
          cursor + weight / total * duration + (rest.map (·.2)).sum / total * duration := by
        rw [List.map_cons, List.sum_cons, add_div, add_mul, add_assoc]
      rw [hlast, layout, List.map_cons]
      exact ⟨.refl gaps cursor, hslot, ih hrest _⟩

theorem weightedItems_ne_nil {children : List (Node Rat)} (hchildren : children ≠ []) :
    weightedItems children ≠ [] := by
  cases children with
  | nil => contradiction
  | cons child tail => simp [weightedItems]

variable {parts : List (Node Rat × Window Rat)}

theorem inTurn_sequenceParts (hduration : 0 < window.duration) {children : List (Node Rat)}
    (hchildren : ∀ child ∈ children, child.WellFormed) (hsome : gaps ∨ children ≠ [])
    (hparts : sequenceParts children window = .ok parts) :
    InTurn gaps window.start (parts.map (·.2)) window.stop := by
  simp only [sequenceParts, sum_rat] at hparts
  split at hparts
  · next hempty =>
      cases hparts
      have hnone : weightedItems children = [] := by simpa using hempty
      have hgaps := hsome.resolve_right fun hne => weightedItems_ne_nil hne hnone
      exact .empty hgaps hduration
  next hempty =>
  split at hparts
  · cases hparts
  cases hparts
  have htotal := sum_weights_pos hchildren (by simpa using hempty)
  rw [sum_rat] at htotal
  have hturn := inTurn_layout gaps htotal hduration
    (fun item hitem => pos_of_mem_weightedItems hchildren hitem) window.start
  rwa [div_self htotal.ne', one_mul] at hturn

theorem inTurn_repeatedParts (gaps : Prop) (hduration : 0 < window.duration) {n : Node Rat}
    {repeats : Option Int} (hrepeats : 0 < countOf repeats)
    (hparts : repeatedParts n repeats window = .ok parts) :
    InTurn gaps window.start (parts.map (·.2)) window.stop := by
  rw [repeatedParts, Window.split_rat window hrepeats] at hparts
  cases hparts
  rw [List.map_map, List.map_map]
  exact InTurn.slots gaps hduration hrepeats

/-- What is played in the slots of a group comes one after the other. An elongation belongs to the
item before it; only one with nothing before it, and a rest, leave a gap. -/
theorem inTurn_slotRuns (window : Window Rat) (hlength : 0 < length) {nodes : List (Node Rat)}
    (hrests : gaps ∨ ∀ n ∈ nodes, n.isRest = false) (index : Nat) :
    InTurn gaps (window.edge length (index + (nodes.takeWhile isElongation).length))
      ((slotRuns index nodes).map fun run => window.part length run.2.1 run.2.2)
      (window.edge length (index + nodes.length)) := by
  induction nodes generalizing index with
  | nil => exact Reaches.refl gaps _
  | cons n tail ih =>
      have hnext := ih (hrests.imp_right fun hall other hother => hall other (by simp [hother]))
        (index + 1)
      have hlast : index + 1 + tail.length = index + (n :: tail).length := by
        simp only [List.length_cons]
        omega
      rw [hlast] at hnext
      cases helongation : n.isElongation with
      | true =>
          have hfirst : index + 1 + (tail.takeWhile isElongation).length =
              index + ((n :: tail).takeWhile isElongation).length := by
            rw [List.takeWhile_cons_of_pos helongation, List.length_cons]
            omega
          rwa [slotRuns_of_isElongation helongation, ← hfirst]
      | false =>
          rw [List.takeWhile_cons_of_neg (by simp [helongation]), List.length_nil, Nat.add_zero]
          cases hrest : n.isRest with
          | true =>
              have hgaps : gaps := hrests.resolve_right fun hall => by
                simpa [hrest] using hall n (by simp)
              have hle := window.edge_mono hlength
                (show index ≤ index + 1 + (tail.takeWhile isElongation).length by omega)
              rw [slotRuns_of_isRest hrest]
              exact hnext.of_reaches (.inr ⟨hgaps, hle⟩)
          | false =>
              have hsize : (0 : Rat) < (1 + (tail.takeWhile isElongation).length : Nat) := by
                positivity
              rw [slotRuns_of_sounding helongation hrest, List.map_cons]
              refine ⟨.refl gaps _, mul_pos hlength hsize, ?_⟩
              rwa [Window.stop_part, ← Nat.add_assoc]

/-- The slots of a group with steps take up its window. -/
theorem inTurn_group (gaps : Prop) (hduration : 0 < window.duration) (hcount : 0 < count)
    (items : List (Node Rat)) (hrests : gaps ∨ ∀ n ∈ items, n.isRest = false)
    (hfirst : gaps ∨ ∃ first rest, items = first :: rest ∧ first.isElongation = false) :
    InTurn gaps window.start
      ((slotRuns 0 (fill items count.toNat)).map fun run =>
        window.part (window.duration / count) run.2.1 run.2.2) window.stop := by
  have hlength := Window.partLength_pos hduration hcount
  cases items with
  | nil =>
      exact .empty (hfirst.resolve_right (by simp)) hduration
  | cons first rest =>
      have hrests' : gaps ∨ ∀ n ∈ fill (first :: rest) count.toNat, n.isRest = false :=
        hrests.imp_right fun hall n hn => hall n (mem_of_mem_fill hn)
      have hturn := inTurn_slotRuns window hlength hrests' 0
      rw [length_fill (List.cons_ne_nil first rest), Nat.zero_add, Nat.zero_add,
        Window.edge_count window hcount] at hturn
      refine hturn.of_reaches ?_
      rcases hfirst with hgaps | ⟨_, _, hitems, hsounds⟩
      · refine .inr ⟨hgaps, ?_⟩
        rw [← window.edge_zero (window.duration / count)]
        exact window.edge_mono hlength (Nat.zero_le _)
      · cases hitems
        rw [takeWhile_isElongation_fill hsounds, List.length_nil, Window.edge_zero]
        exact .refl gaps _

theorem steppedParts_rat (groups : List (Node Rat)) (window : Window Rat) (hcount : 0 < count) :
    steppedParts groups count window =
      .ok (groups.flatMap fun group =>
        (slotRuns 0 (fill group.items count.toNat)).map fun run =>
          (run.1, window.part (window.duration / count) run.2.1 run.2.2)) := by
  rw [steppedParts, Window.partLength_rat window hcount]
  rfl

end Node

namespace Atom

variable {sound : Atom Rat} {span : Span} {events : List (Event Rat)}

theorem window_of_event {event : Event Rat} (hevent : sound.event span window = .ok event) :
    event.window = window := by
  obtain ⟨controls, -, rfl⟩ := Node.exists_of_map_eq_ok hevent
  rfl

/-- A copy of a sound takes up its window, except for the silent steps of a rhythm. -/
theorem inTurn_copyEvents (hduration : 0 < window.duration) (hsound : sound.InRange)
    (hfull : gaps ∨ ∀ rhythm ∈ sound.euclid, ¬ rhythm.pulses < rhythm.steps)
    (hevents : sound.copyEvents span window = .ok events) :
    InTurn gaps window.start (events.map Event.window) window.stop := by
  unfold copyEvents at hevents
  split at hevents
  · obtain ⟨event, hevent, rfl⟩ := Node.exists_of_map_eq_ok hevents
    rw [List.map_singleton, window_of_event hevent]
    exact .singleton gaps hduration
  · next rhythm heuclid =>
      obtain ⟨hpulses, hsteps⟩ := hsound.euclid rhythm heuclid
      have hcount : 0 < rhythm.steps := by omega
      cases hrhythm : Rhythm.rotatedEuclidean rhythm.steps rhythm.pulses rhythm.rotation with
      | error cause =>
          rw [hrhythm] at hevents
          cases hevents
      | ok steps =>
          rw [hrhythm, Window.partLength_rat window hcount] at hevents
          have hmapM : (Rhythm.onsets id steps).mapM (fun onset =>
              sound.event span (window.slot (window.duration / rhythm.steps) onset)) =
              .ok events := hevents
          have hwindows : (Rhythm.onsets id steps).map
              (window.slot (window.duration / rhythm.steps)) = events.map Event.window := by
            rw [← List.forall₂_eq_eq_eq, List.forall₂_map_left_iff, List.forall₂_map_right_iff]
            exact (forall₂_of_mapM hmapM).imp fun onset event hevent =>
              (window_of_event hevent).symm
          have hall : gaps ∨ ∀ isPlayed ∈ steps, isPlayed = true := by
            refine hfull.imp_right fun hfull isPlayed hmem => ?_
            have hpulses := Int.not_lt.mp (hfull rhythm heuclid)
            exact Rhythm.eq_true_of_mem_rotatedEuclidean hpulses hrhythm hmem
          rw [← hwindows]
          exact .onsets hduration hcount
            (Rhythm.length_rotatedEuclidean hpulses.le hsteps hrhythm) hall

theorem inTurn_events (hduration : 0 < window.duration) (hsound : sound.InRange)
    (hfull : gaps ∨ ∀ rhythm ∈ sound.euclid, ¬ rhythm.pulses < rhythm.steps)
    (hevents : sound.events span window = .ok events) :
    InTurn gaps window.start (events.map Event.window) window.stop := by
  have hcount := sound.copyCount_pos hsound
  have hlength := Window.partLength_pos hduration hcount
  rw [Atom.events, Window.split_rat window hcount] at hevents
  obtain ⟨found, hfound, rfl⟩ := forall₂_of_flatMapM hevents
  apply (InTurn.slots gaps hduration hcount).flatten
  rw [List.forall₂_map_left_iff] at hfound ⊢
  exact hfound.imp fun index copies hcopies => inTurn_copyEvents hlength hsound hfull hcopies

end Atom

namespace Node

/-- A choice takes up its window if one of its options has a sound. -/
theorem inTurn_choiceEvents (hduration : 0 < window.duration) {kind : ChoiceKind}
    {options : List (Node Rat)} {span : Span}
    (hsound : gaps ∨ ∃ option ∈ options, option.HasSound) :
    InTurn gaps window.start ((choiceEvents kind options span window).map Event.window)
      window.stop := by
  rcases choiceEvents_cases kind options span window with
    ⟨-, event, hevents, hwindow, -⟩ | ⟨hsilent, hevents⟩
  · rw [hevents, List.map_singleton, hwindow]
    exact .singleton gaps hduration
  · rw [hevents]
    exact .empty (hsound.resolve_right hsilent) hduration

/-- A choice that is made over and over takes up its window as well. -/
theorem inTurn_repeatedChoice (hduration : 0 < window.duration) (hcount : 0 < count)
    {kind : ChoiceKind} {options : List (Node Rat)} {span : Span} {events : List (Event Rat)}
    (hsound : gaps ∨ ∃ option ∈ options, option.HasSound)
    (hevents : (window.split count).map (fun windows =>
      windows.flatMap (choiceEvents kind options span)) = .ok events) :
    InTurn gaps window.start (events.map Event.window) window.stop := by
  rw [Window.split_rat window hcount] at hevents
  cases hevents
  show InTurn gaps window.start (((_ : List (Window Rat)).flatMap _).map Event.window) window.stop
  rw [List.flatMap_def]
  apply (InTurn.slots gaps hduration hcount).flatten
  rw [List.forall₂_map_right_iff, List.forall₂_same]
  intro part hpart
  obtain ⟨index, -, rfl⟩ := List.mem_map.mp hpart
  exact inTurn_choiceEvents (Window.partLength_pos hduration hcount) hsound

/-- Whether the events of the node itself take up all of its window. -/
def FillsWindow {α : Type} : Node α → Prop
  | .atom sound _ => ∀ rhythm ∈ sound.euclid, ¬ rhythm.pulses < rhythm.steps
  | .harmony _ _ _ => True
  | .alternation options _ _ _ => options.length ≠ 1 ∧ ∃ option ∈ options, option.HasSound
  | .choice options _ => ∃ option ∈ options, option.HasSound
  | _ => False

/-- The events of a node itself come one after the other in its window. -/
theorem inTurn_ownEvents (hduration : 0 < window.duration) {n : Node Rat} (hn : n.WellFormed)
    (hfills : gaps ∨ n.FillsWindow) {own : List (Event Rat)}
    (hown : n.ownEvents window = .ok own) :
    InTurn gaps window.start (own.map Event.window) window.stop := by
  cases n with
  | atom sound span => exact Atom.inTurn_events hduration hn hfills hown
  | harmony leaf text span =>
      cases hown
      exact .singleton gaps hduration
  | alternation options repeats division span =>
      obtain ⟨-, -, hrepeats, -⟩ := hn
      have hsound : gaps ∨ ∃ option ∈ options, option.HasSound :=
        hfills.imp_right fun hfills => hfills.2
      by_cases hlength : options.length = 1
      · obtain ⟨option, rfl⟩ := List.length_eq_one_iff.mp hlength
        cases hown
        exact .empty (hfills.resolve_right fun hfills => hfills.1 rfl) hduration
      · rw [ownEvents_of_length_ne_one hlength] at hown
        exact inTurn_repeatedChoice hduration (countOf_pos hrepeats) hsound hown
  | choice options span =>
      cases hown
      exact inTurn_choiceEvents hduration hfills
  | _ =>
      cases hown
      exact .empty (hfills.resolve_right id) hduration

end Node

end CyclePattern
