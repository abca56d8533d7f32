/-
# Names come from the text

An event sounds like a sound or like harmony of its tree, and what these are called was written. So
every character of what an event sounds like is a character of the text.
-/

import CyclePattern.Proofs.Grammar.WellFormed
import CyclePattern.Proofs.Lexing.Segment
import CyclePattern.Proofs.Performance.Answer
import CyclePattern.Proofs.Performance.Origin
import CyclePattern.Proofs.Performance.Params

namespace CyclePattern

open Text

namespace Timeline

variable {α : Type}

theorem spanRun_append (follows : Event α → Event α → Bool) (last : Event α)
    (events : List (Event α)) :
    (spanRun follows last events).1 ++ (spanRun follows last events).2 = events := by
  induction events generalizing last with
  | nil => rfl
  | cons event rest ih =>
      rw [spanRun]
      split
      · exact congrArg _ (ih event)
      · rfl

variable [Measure α]

/-- The run at the front and the events after it are all events. -/
theorem mem_firstRun_iff {events : List (Event α)} {event : Event α} :
    event ∈ (firstRun events).1 ∨ event ∈ (firstRun events).2 ↔ event ∈ events := by
  unfold firstRun
  split
  · simp
  · simp
  · next first second rest =>
      have hmem (follows : Event α → Event α → Bool) :
          event ∈ (spanRun follows first (second :: rest)).1 ∨
            event ∈ (spanRun follows first (second :: rest)).2 ↔ event ∈ second :: rest := by
        rw [← List.mem_append, spanRun_append]
      split
      · rw [List.mem_reverse, List.mem_cons, or_assoc, hmem, ← List.mem_cons]
      · rw [List.mem_cons, or_assoc, hmem, ← List.mem_cons]

theorem mem_insert_iff {sorted : Array (Event α)} {event other : Event α} :
    other ∈ (insert sorted event).toList ↔ other = event ∨ other ∈ sorted.toList := by
  have hcut (index : Nat) : other ∈ sorted.toList ↔
      other ∈ sorted.toList.take index ∨ other ∈ sorted.toList.drop index := by
    rw [← List.mem_append, List.take_append_drop]
  rw [insert, hcut (place sorted event 0 sorted.size)]
  simp [List.take_of_length_le, or_left_comm]

/-- Putting events in order loses none and adds none. -/
theorem mem_ofEvents_iff {events : List (Event α)} {event : Event α} :
    event ∈ ofEvents events ↔ event ∈ events := by
  have hfold (later : List (Event α)) (sorted : Array (Event α)) :
      event ∈ (later.foldl insert sorted).toList ↔ event ∈ later ∨ event ∈ sorted.toList := by
    induction later generalizing sorted with
    | nil => simp
    | cons first later ih =>
        rw [List.foldl_cons, ih, mem_insert_iff, List.mem_cons]
        tauto
  rw [ofEvents, hfold, List.toList_toArray, or_comm]
  exact mem_firstRun_iff

end Timeline

namespace Node

variable {α : Type}

/-- What an event of the node sounds like. Only sounds and harmony have a name. -/
def name? (n : Node α) : Option String :=
  (OptionSound.ofNode n).sound

/-- The node has no name, or one with characters of a text. -/
def NamedIn (cs : List Char) (n : Node α) : Prop :=
  ∀ name ∈ n.name?, name.toList ⊆ cs

variable {cs ds : List Char} {n : Node α}

theorem NamedIn.mono (hn : n.NamedIn cs) (hsubset : cs ⊆ ds) : n.NamedIn ds :=
  fun name hname => List.Subset.trans (hn name hname) hsubset

theorem namedIn_of_name?_eq_none (hname : n.name? = none) : n.NamedIn cs := by
  intro name hsome
  rw [hname] at hsome
  cases hsome

theorem namedIn_withSpan (span : Span) : (n.withSpan span).NamedIn cs ↔ n.NamedIn cs := by
  cases n <;> exact Iff.rfl

end Node

namespace Word

variable {word text : List Char} {start : Int}

theorem mem_joined {delimiter c : Char} {texts : List (List Char)} (htext : text ∈ texts)
    (hc : c ∈ text) : c ∈ joined delimiter texts := by
  induction texts with
  | nil => cases htext
  | cons first others ih =>
      cases others with
      | nil => rwa [joined, ← List.mem_singleton.mp htext]
      | cons second others =>
          rw [joined, List.mem_append, List.mem_cons]
          rcases List.mem_cons.mp htext with rfl | hlater
          · exact .inl hc
          · exact .inr (.inr (ih hlater))

theorem text_subset_of_mem_splitTopLevel {segment : Segment}
    (hsegment : segment ∈ splitTopLevel '|' word) : segment.text ⊆ word := by
  intro c hc
  rw [← joined_splitTexts '|' 0 word]
  refine mem_joined ?_ hc
  rw [← map_text_placeSegments 0 (splitTexts '|' 0 word)]
  exact List.mem_map_of_mem hsegment

theorem namedIn_atom {name : List Char} (hname : name ⊆ word) (ms : Modifiers)
    (controls : Controls Float) (span : Span) :
    (Node.atom (.ofModifiers name ms controls) span).NamedIn word := by
  rintro _ ⟨⟩
  rwa [Atom.ofModifiers, String.toList_ofList]

theorem namedIn_harmony (leaf : Harmony) (span : Span) :
    (Node.harmony leaf (String.ofList word) span : Node Float).NamedIn word := by
  rintro _ ⟨⟩
  rw [String.toList_ofList]
  exact List.Subset.refl word

theorem namedIn_literal (word : List Char) (start : Int) :
    (literal word start).value.NamedIn word :=
  namedIn_atom (List.Subset.refl word) _ _ _

theorem subset_of_sound? {name : List Char} {ms : Modifiers}
    (hsound : sound? word = some (name, ms)) : name ⊆ word := by
  unfold sound? at hsound
  split at hsound
  · cases hsound
  next _ rest hne hspan =>
    obtain ⟨more, -, hsame⟩ := Option.map_eq_some_iff.mp hsound
    cases hsame
    rw [(isSoundRun_of_spanSoundName hspan).2]
    exact List.subset_append_left _ rest

theorem namedIn_sound (word : List Char) (start : Int) : (sound word start).value.NamedIn word := by
  unfold sound
  split
  · next hsound => exact namedIn_atom (subset_of_sound? hsound) _ _ _
  · exact namedIn_literal word start

theorem namedIn_option (text : List Char) (start : Int) :
    (option text start).value.NamedIn text := by
  unfold option
  split
  · exact Node.namedIn_of_name?_eq_none rfl
  split
  · exact namedIn_harmony _ _
  · exact namedIn_sound text start

theorem namedIn_of_mem_optionNodes {n : Node Float}
    (hn : n ∈ optionNodes start (splitTopLevel '|' word)) : n.NamedIn word := by
  obtain ⟨segment, hsegment, rfl⟩ := List.mem_map.mp hn
  exact (namedIn_option segment.text _).mono
    (text_subset_of_mem_splitTopLevel (List.mem_filter.mp hsegment).1)

theorem namedIn_controlled {head : List Char} (hhead : head ⊆ word) (start : Int)
    (rest : List Segment) : (controlled word start head rest).value.NamedIn word := by
  unfold controlled
  split
  · exact namedIn_literal word start
  · next hsound =>
      split
      · exact namedIn_atom (List.Subset.trans (subset_of_sound? hsound) hhead) _ _ _
      · exact namedIn_literal word start

theorem namedIn_choice (word : List Char) (start : Int) :
    (choice word start (splitTopLevel '|' word)).value.NamedIn word := by
  rw [choice_value]
  split
  · exact namedIn_literal word start
  · next single hsingle =>
      rw [Node.namedIn_withSpan]
      exact namedIn_of_mem_optionNodes (by rw [hsingle]; exact List.mem_singleton.mpr rfl)
  · exact Node.namedIn_of_name?_eq_none rfl

/-- What the node of a word is called stands in the word. -/
theorem namedIn_read (word : List Char) (start : Int) : (read word start).value.NamedIn word := by
  unfold read
  split
  · exact Node.namedIn_of_name?_eq_none rfl
  split
  · exact Node.namedIn_of_name?_eq_none rfl
  split
  · exact namedIn_harmony _ _
  split
  · next head second rest hsplit =>
      rw [piped]
      split
      · have hhead : head ∈ splitTopLevel '|' word := by simp [hsplit]
        exact namedIn_controlled (text_subset_of_mem_splitTopLevel hhead) start _
      · rw [← hsplit]
        exact namedIn_choice word start
  · exact namedIn_sound word start

theorem namedIn_of_holds_read {n : Node Float} (hholds : (read word start).value.Holds n) :
    n.NamedIn word := by
  have hread := namedIn_read word start
  rcases read_cases word start with ⟨hleaf, -, -⟩ | hchoice
  · rwa [hholds.eq_of_isLeaf hleaf]
  · rw [hchoice] at hholds hread
    cases hholds with
    | refl => exact hread
    | child hc hn =>
        rw [hn.eq_of_isLeaf (isLeaf_of_mem_optionNodes hc).1]
        exact namedIn_of_mem_optionNodes hc

end Word

namespace Piece

variable {cs : List Char} {room o : Nat} {p : Piece} {n m : Node Float}

/-- The characters of a located piece are characters of the text. -/
theorem text_subset_of_occur (hoccur : Token.Occur cs o p.tokens) : p.text ⊆ cs := by
  rw [← textOf_tokens, ← hoccur.slice_eq]
  exact List.Subset.trans (List.take_subset _ _) (List.drop_subset _ _)

/-- All that has a name inside the node of a located piece is named by the text. -/
theorem namedIn_of_locates (hp : Locates cs room p o n) (hholds : n.Holds m) : m.NamedIn cs := by
  induction p, o, n, hp using Locates.induction generalizing m with
  | word w o n hp =>
      obtain rfl : (Word.read w o).value = n := Option.some.inj hp.node
      exact (Word.namedIn_of_holds_read hholds).mono (text_subset_of_occur hp.occur)
  | group b earlier last modifier o n hp hitems =>
      have hnode := hp.node
      rw [node?_group] at hnode
      cases hnode
      rcases holds_groupNode hholds with rfl | ⟨rfl, -⟩ | ⟨g, -, rfl⟩ | ⟨g, hg, item, hitem, hm⟩
      · apply Node.namedIn_of_name?_eq_none
        cases b <;> rfl
      · exact Node.namedIn_of_name?_eq_none rfl
      · exact Node.namedIn_of_name?_eq_none rfl
      · obtain ⟨q, s, -, hnamed⟩ := hitems g hg item hitem
        exact hnamed hm

end Piece

theorem Reading.namedIn_of_result {limit : Int} {cs : List Char} {items : List (Node Float)}
    {n : Node Float} (hresult : (ofText limit 0 0 cs).result = .ok items)
    (hholds : (Node.sequence items).Holds n) : n.NamedIn cs := by
  rcases Piece.holds_sequence hholds with rfl | ⟨item, hitem, hn⟩
  · exact Node.namedIn_of_name?_eq_none rfl
  · obtain ⟨q, s, hq⟩ := locates_of_result hresult hitem
    exact Piece.namedIn_of_locates hq hn

namespace Node

variable {α : Type} {n : Node α} {window : Window α} {events : List (Event α)} {event : Event α}

theorem exists_name_of_mem_choiceEvents {kind : ChoiceKind} {options : List (Node α)} {span : Span}
    (hevent : event ∈ choiceEvents kind options span window) :
    ∃ option ∈ options, option.name? = some event.sound := by
  simp only [choiceEvents] at hevent
  split at hevent
  · cases hevent
  · next name sample hfound =>
      obtain ⟨sound, hsound, hsome⟩ := List.exists_of_findSome?_eq_some hfound
      obtain ⟨option, hoption, rfl⟩ := List.mem_map.mp hsound
      obtain ⟨_, hname, hsame⟩ := Option.map_eq_some_iff.mp hsome
      cases hsame
      rw [List.mem_singleton.mp hevent]
      exact ⟨option, hoption, hname⟩

variable [Measure α]

theorem exists_name_of_repeatedChoice {kind : ChoiceKind} {options : List (Node α)} {span : Span}
    {count : Int} (hevents : (window.split count).map (fun windows =>
      windows.flatMap (choiceEvents kind options span)) = .ok events) (hevent : event ∈ events) :
    ∃ option ∈ options, option.name? = some event.sound := by
  obtain ⟨windows, -, rfl⟩ := exists_of_map_eq_ok hevents
  obtain ⟨part, -, hmem⟩ := List.mem_flatMap.mp hevent
  exact exists_name_of_mem_choiceEvents hmem

/-- An event that a node plays by itself is called like the node, or like one of its options. -/
theorem exists_name_of_mem_ownEvents (hevents : n.ownEvents window = .ok events)
    (hevent : event ∈ events) : ∃ m, n.Holds m ∧ m.name? = some event.sound := by
  have hchild : (∃ option ∈ n.children, option.name? = some event.sound) →
      ∃ m, n.Holds m ∧ m.name? = some event.sound := by
    rintro ⟨option, hoption, hname⟩
    exact ⟨option, .child hoption (.refl option), hname⟩
  cases n with
  | atom sound span =>
      obtain ⟨part, hpart⟩ := Atom.exists_of_mem_events hevents hevent
      obtain ⟨controls, -, rfl⟩ := exists_of_map_eq_ok hpart
      exact ⟨_, .refl _, rfl⟩
  | harmony leaf text span =>
      cases hevents
      rw [List.mem_singleton.mp hevent]
      exact ⟨_, .refl _, rfl⟩
  | alternation options repeats division span =>
      apply hchild
      rcases options with _ | ⟨option, _ | ⟨second, others⟩⟩
      · exact exists_name_of_repeatedChoice hevents hevent
      · cases hevents
        cases hevent
      · exact exists_name_of_repeatedChoice hevents hevent
  | choice options span =>
      cases hevents
      exact hchild (exists_name_of_mem_choiceEvents hevent)
  | _ =>
      cases hevents
      cases hevent

/-- Every event of a tree is called like some node of it. -/
theorem exists_name_of_mem_perform (hevents : n.perform window = .ok events)
    (hevent : event ∈ events) : ∃ m, n.Holds m ∧ m.name? = some event.sound := by
  obtain ⟨emission, hemission, part, found, own, hfound, hown, hbecomes⟩ :=
    exists_of_mem_of_forall₂ (forall₂_emissions hevents) hevent
  obtain ⟨m, hholds, hname⟩ := exists_name_of_mem_ownEvents hfound hown
  have hsame : event.sound = own.sound := (congrArg Event.sound hbecomes.same :)
  refine ⟨m, (encloses_of_mem_emissions hemission).holds.trans hholds, ?_⟩
  rw [hsame, hname]

end Node

/-- What an event of a cycle is called was written: all its characters stand in the text. -/
theorem sound_subset_of_readCycle {cs : List Char} {limit : Int} {events : List (Event Float)}
    (hcycle : (readCycle cs limit).result = .ok (.ok events)) {event : Event Float}
    (hevent : event ∈ events) : event.sound.toList ⊆ cs := by
  rw [readCycle_result] at hcycle
  obtain ⟨outcome, htree, hcycle⟩ := exists_of_bind_eq_ok hcycle
  cases outcome with
  | error error => cases hcycle
  | ok tree =>
      obtain ⟨items, hresult, rfl⟩ := exists_items_of_readTree htree
      obtain ⟨played, hplayed, hsame⟩ := Node.exists_of_map_eq_ok hcycle
      cases hsame
      obtain ⟨m, hholds, hname⟩ :=
        Node.exists_name_of_mem_perform hplayed (Timeline.mem_ofEvents_iff.mp hevent)
      exact Reading.namedIn_of_result hresult hholds event.sound hname

end CyclePattern
