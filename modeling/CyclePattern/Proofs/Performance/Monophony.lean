/-
# One sound after the other

In a tree whose groups have no parts side by side every node plays either its own events or those of
its parts, and both come one after the other in its window. So no event begins before the one in
front of it has ended, and putting them in the order of time changes nothing. Where the tree leaves
no time out the events take up the whole window.
-/

import CyclePattern.Proofs.Performance.Containment
import CyclePattern.Proofs.Performance.Folding
import CyclePattern.Performance.Timeline

namespace CyclePattern

namespace Node

variable {gaps : Prop} {n : Node Rat} {window : Window Rat} {parts : List (Node Rat × Window Rat)}

/-- When a sequence does not begin with an elongation, every elongation in it lengthens an item. -/
theorem mem_of_mem_weightedItems {children : List (Node Rat)}
    (hfirst : ∀ first ∈ children.head?, first.isElongation = false) {item : Node Rat × Rat}
    (hitem : item ∈ weightedItems children) :
    item.1 ∈ children ∧ item.1.isElongation = false := by
  have hlead : (children.take 1).filter isElongation = [] := by
    cases children with
    | nil => rfl
    | cons child tail => simpa using hfirst child rfl
  have hmem : item.1 ∈ (weightedItems children).map Prod.fst := List.mem_map_of_mem hitem
  rw [map_fst_weightedItems, hlead, List.map_nil, List.nil_append] at hmem
  exact ⟨List.mem_of_mem_filter hmem, isElongation_of_mem_weightedItems hitem⟩

theorem mem_of_mem_sequenceParts {children : List (Node Rat)}
    (hfirst : ∀ first ∈ children.head?, first.isElongation = false)
    (hparts : sequenceParts children window = .ok parts) {part : Node Rat × Window Rat}
    (hpart : part ∈ parts) : part.1 ∈ children ∧ part.1.isElongation = false := by
  obtain ⟨item, hitem, hsame⟩ := exists_item_of_mem_sequenceParts hparts hpart
  rw [hsame]
  exact mem_of_mem_weightedItems hfirst hitem

theorem isElongation_of_isSequence {α : Type} {n : Node α} (hn : n.IsSequence) :
    n.isElongation = false := by
  cases n with
  | sequence children => rfl
  | _ => cases hn

theorem isElongation_of_isStack {α : Type} {n : Node α} (hn : n.IsStack) :
    n.isElongation = false := by
  cases n with
  | stack groups => rfl
  | _ => cases hn

/-- The parts of a solid node are played nodes of the tree, and none of them is an elongation. -/
theorem exposes_of_mem_parts (hn : n.WellFormed) (hsolid : n.IsSolid)
    (hparts : n.parts window = .ok parts) {part : Node Rat × Window Rat} (hpart : part ∈ parts) :
    n.Exposes part.1 ∧ part.1.isElongation = false := by
  unfold Node.parts at hparts
  split at hparts
  · obtain ⟨first, rest, rfl, hfirst⟩ := hsolid
    have hhead : ∀ other ∈ (first :: rest).head?, other.isElongation = false := by
      intro other hother
      cases hother
      exact hfirst
    obtain ⟨hchild, helongation⟩ := mem_of_mem_sequenceParts hhead hparts hpart
    exact ⟨.child hchild (.refl _), helongation⟩
  · cases hparts
    obtain ⟨group, hgroup, rfl⟩ := List.mem_map.mp hpart
    obtain ⟨-, hsequences⟩ := hn
    exact ⟨.child hgroup (.refl group), isElongation_of_isSequence (hsequences group hgroup)⟩
  · obtain ⟨hinner, -⟩ := hn
    rw [eq_of_mem_repeatedParts hparts hpart]
    exact ⟨.child List.mem_cons_self (.refl _),
      hinner.elim isElongation_of_isSequence isElongation_of_isStack⟩
  · obtain ⟨hoptions, -⟩ := hn
    rw [eq_of_mem_repeatedParts hparts hpart]
    exact ⟨.child List.mem_cons_self (.refl _), hoptions _ List.mem_cons_self⟩
  · cases hparts
    obtain ⟨group, hgroup, rfl⟩ := List.mem_map.mp hpart
    obtain ⟨-, hsequences, -⟩ := hn
    exact ⟨.child hgroup (.refl group), isElongation_of_isSequence (hsequences group hgroup)⟩
  · obtain ⟨length, -, rfl⟩ := exists_of_map_eq_ok hparts
    obtain ⟨group, hgroup, hlater⟩ := List.mem_flatMap.mp hpart
    obtain ⟨run, hrun, rfl⟩ := List.mem_map.mp hlater
    have hitem := mem_of_mem_fill (mem_of_mem_slotRuns hrun)
    exact ⟨.child hgroup (.child (mem_playedChildren_of_mem_items hitem) (.refl _)),
      isElongation_of_mem_slotRuns hrun⟩
  · cases hparts
    cases hpart

/-- The only group of a polymetric node takes up its window. -/
theorem inTurn_polymetric (hduration : 0 < window.duration) {group : Node Rat} {steps : Option Int}
    {span : Span} (hsteps : ∀ count ∈ steps, 1 ≤ count) (hgroup : group.IsSequence)
    (hfull : gaps ∨ (polymetric [group] steps span).IsGapless)
    (hparts : (polymetric [group] steps span).parts window = .ok parts) :
    InTurn gaps window.start (parts.map (·.2)) window.stop := by
  cases steps with
  | none =>
      cases hparts
      exact .singleton gaps hduration
  | some count =>
      have hcount : 0 < count := hsteps count rfl
      have hexposes : (polymetric [group] (some count) span).Exposes group :=
        .child List.mem_cons_self (.refl group)
      have hrests : gaps ∨ ∀ item ∈ group.items, item.isRest = false :=
        hfull.imp_right fun hfull item hitem => hfull.sounding item
          (hexposes.trans (.child (mem_playedChildren_of_mem_items hitem) (.refl item)))
      have hfirst :
          gaps ∨ ∃ first rest, group.items = first :: rest ∧ first.isElongation = false := by
        refine hfull.imp_right fun hfull => ?_
        cases group with
        | sequence children => exact hfull.solid _ hexposes.holds
        | _ => cases hgroup
      have hturn := inTurn_group gaps hduration hcount group.items hrests hfirst
      rw [Node.parts, steppedParts_rat [group] window hcount] at hparts
      cases hparts
      rw [List.flatMap_singleton, List.map_map]
      exact hturn

/-- A node plays either its parts or its own events, one after the other in its window. -/
theorem inTurn_parts_or_own (hduration : 0 < window.duration)
    (hn : ∀ m, n.Holds m → m.WellFormed) (halone : n.SoundsAlone)
    (hfull : gaps ∨ n.isElongation = false ∧ n.IsGapless) (hparts : n.parts window = .ok parts)
    {own : List (Event Rat)} (hown : n.ownEvents window = .ok own) :
    (own = [] ∧ InTurn gaps window.start (parts.map (·.2)) window.stop) ∨
      (parts = [] ∧ InTurn gaps window.start (own.map Event.window) window.stop) := by
  have hself := hn n (.refl n)
  have hsolid : gaps ∨ n.IsSolid := hfull.imp_right fun hfull => hfull.2.solid n (.refl n)
  cases n with
  | empty => exact hself.elim
  | atom sound span =>
      cases hparts
      exact .inr ⟨rfl, inTurn_ownEvents hduration hself hsolid hown⟩
  | rest span =>
      have hgaps : gaps := hfull.resolve_right fun hfull => by
        cases hfull.2.sounding _ (.refl _)
      cases hparts
      exact .inr ⟨rfl, inTurn_ownEvents hduration hself (.inl hgaps) hown⟩
  | elongation span =>
      have hgaps : gaps := hfull.resolve_right fun hfull => by cases hfull.1
      cases hparts
      exact .inr ⟨rfl, inTurn_ownEvents hduration hself (.inl hgaps) hown⟩
  | harmony leaf text span =>
      cases hparts
      exact .inr ⟨rfl, inTurn_ownEvents hduration hself (.inr trivial) hown⟩
  | sequence children =>
      have hchildren : ∀ child ∈ children, child.WellFormed :=
        fun child hchild => hn child (.child hchild (.refl child))
      have hsome : gaps ∨ children ≠ [] := by
        refine hsolid.imp_right ?_
        rintro ⟨first, rest, rfl, -⟩
        exact List.cons_ne_nil first rest
      cases hown
      exact .inl ⟨rfl, inTurn_sequenceParts hduration hchildren hsome hparts⟩
  | stack groups => exact halone.elim
  | subdivision inner repeats division ratio span =>
      obtain ⟨-, -, hrepeats, -⟩ := hself
      cases hown
      exact .inl ⟨rfl, inTurn_repeatedParts gaps hduration (countOf_pos hrepeats) hparts⟩
  | alternation options repeats division span =>
      by_cases hlength : options.length = 1
      · obtain ⟨option, rfl⟩ := List.length_eq_one_iff.mp hlength
        obtain ⟨-, -, hrepeats, -⟩ := hself
        cases hown
        exact .inl ⟨rfl, inTurn_repeatedParts gaps hduration (countOf_pos hrepeats) hparts⟩
      · have hfills : gaps ∨ (alternation options repeats division span).FillsWindow := by
          refine hsolid.imp_right fun ⟨hsome, hsound⟩ => ⟨hlength, hsound ?_⟩
          have hpos := List.length_pos_iff.mpr hsome
          omega
        rw [parts_of_length_ne_one hlength] at hparts
        cases hparts
        exact .inr ⟨rfl, inTurn_ownEvents hduration hself hfills hown⟩
  | polymetric groups steps span =>
      obtain ⟨hsome, hsequences, hsteps⟩ := hself
      have hsingle : groups.length = 1 := by
        have hpos := List.length_pos_iff.mpr hsome
        have hle : groups.length ≤ 1 := halone
        omega
      obtain ⟨group, rfl⟩ := List.length_eq_one_iff.mp hsingle
      cases hown
      exact .inl ⟨rfl, inTurn_polymetric hduration hsteps (hsequences group List.mem_cons_self)
        (hfull.imp_right And.right) hparts⟩
  | choice options span =>
      cases hparts
      exact .inr ⟨rfl, inTurn_ownEvents hduration hself hsolid hown⟩

/-- What a tree without parts side by side plays comes one after the other in its window, and takes
up all of it if the tree leaves no time out. -/
theorem inTurn_perform (hduration : 0 < window.duration) (hn : ∀ m, n.Holds m → m.WellFormed)
    (halone : ∀ m, n.Holds m → m.SoundsAlone)
    (hfull : gaps ∨ n.isElongation = false ∧ n.IsGapless) {events : List (Event Rat)}
    (hevents : n.perform window = .ok events) :
    InTurn gaps window.start (events.map Event.window) window.stop := by
  -- What is asked of the tree goes down to the parts with their windows; that the events are in
  -- turn comes back up.
  revert hduration hn halone hfull
  refine perform_induction ?_ hevents
  intro n window parts own played events hparts hown hplayed hshape hduration hn halone hfull
  rw [window_of_shape hshape]
  have hinner : List.Forall₂ (fun part events =>
      InTurn gaps part.2.start (events.map Event.window) part.2.stop) parts played := by
    have hpart : ∀ part ∈ parts, 0 < part.2.duration ∧ (∀ m, part.1.Holds m → m.WellFormed) ∧
        (∀ m, part.1.Holds m → m.SoundsAlone) ∧
        (gaps ∨ part.1.isElongation = false ∧ part.1.IsGapless) := by
      intro part hpart
      refine ⟨(contains_of_mem_parts hduration hn hparts hpart).duration,
        fun m hm => wellFormed_of_mem_parts hn hparts hpart hm,
        fun m hm => forall_of_mem_parts (fun _ => trivial) halone hparts hpart hm,
        hfull.imp_right fun ⟨_, hfull⟩ => ?_⟩
      obtain ⟨hexposes, helongation⟩ :=
        exposes_of_mem_parts (hn n (.refl n)) (hfull.solid n (.refl n)) hparts hpart
      exact ⟨helongation, hfull.of_exposes hexposes⟩
    have hboth := (List.forall₂_and_left parts played).mpr ⟨hpart, hplayed⟩
    exact hboth.imp fun part events ⟨⟨hduration, hn, halone, hfull⟩, hturn⟩ =>
      hturn hduration hn halone hfull
  rcases inTurn_parts_or_own hduration hn (halone n (.refl n)) hfull hparts hown with
    ⟨rfl, hturn⟩ | ⟨rfl, hturn⟩
  · rw [List.nil_append]
    exact hturn.flatten (List.forall₂_map_left_iff.mpr hinner)
  · cases hinner
    rwa [List.flatten_nil, List.append_nil]

end Node

namespace Timeline

section

variable {α : Type}

theorem spanRun_of_isChain (follows : Event α → Event α → Bool) {last : Event α}
    {events : List (Event α)}
    (hevents : (last :: events).IsChain fun first second => follows first second = true) :
    spanRun follows last events = (events, []) := by
  induction events generalizing last with
  | nil => rfl
  | cons event rest ih =>
      obtain ⟨hfollows, hrest⟩ := List.isChain_cons_cons.mp hevents
      rw [spanRun, if_pos hfollows, ih hrest]

/-- Events none of which precedes the one in front of it are in order already. -/
theorem ofEvents_of_isChain [Measure α] {events : List (Event α)}
    (hevents : events.IsChain fun first second => precedes second first = false) :
    ofEvents events = events := by
  match events with
  | [] => rfl
  | [event] => rfl
  | first :: second :: rest =>
      have hfirst : precedes second first = false := (List.isChain_cons_cons.mp hevents).1
      have hrun := spanRun_of_isChain
        (fun last event => !precedes event last) (hevents.imp fun _ _ => by simp)
      simp [ofEvents, firstRun, hfirst, hrun]

end

theorem ofEvents_of_inTurn {gaps : Prop} {low high : Rat} {events : List (Event Rat)}
    (hturn : InTurn gaps low (events.map Event.window) high) : ofEvents events = events := by
  have hpairwise := List.pairwise_map.mp hturn.pairwise
  apply ofEvents_of_isChain
  apply List.Pairwise.isChain
  apply hpairwise.imp_of_mem
  intro first second hfirst _ hle
  obtain ⟨-, hduration, -⟩ := hturn.bounds (List.mem_map_of_mem hfirst)
  have htime : first.time ≤ second.time := by
    have hstop : first.time + first.duration ≤ second.time := hle
    have hpositive : 0 < first.duration := hduration
    linarith
  exact decide_eq_false htime.not_gt

/-- Without gaps the events reach from one time to the other. -/
theorem ends_of_inTurn {low high : Rat} {events : List (Event Rat)}
    (hturn : InTurn False low (events.map Event.window) high) (hlt : low < high) :
    (∃ first, events.head? = some first ∧ first.time = low) ∧
      events.IsChain (fun first second => first.time + first.duration = second.time) ∧
      ∃ last, events.getLast? = some last ∧ last.time + last.duration = high := by
  obtain ⟨window, hwindow, hstart⟩ := hturn.exists_head hlt
  rw [List.head?_map] at hwindow
  obtain ⟨first, hfirst, rfl⟩ := Option.map_eq_some_iff.mp hwindow
  obtain ⟨window, hwindow, hstop⟩ := hturn.exists_getLast hlt
  rw [List.getLast?_map] at hwindow
  obtain ⟨last, hlast, rfl⟩ := Option.map_eq_some_iff.mp hwindow
  exact ⟨⟨first, hfirst, hstart⟩, (List.isChain_map Event.window).mp hturn.isChain,
    last, hlast, hstop⟩

end Timeline

namespace Reading

/-- A tree that was read and has no parts side by side plays one event after the other with exact
numbers, so the events are in the order of time already. If it leaves no time out the events take up
the window: the first begins with it, each begins where the one before ends, and the last ends with
it. -/
theorem perform_exact_in_turn {limit : Int} {cs : List Char} {items : List (Node Float)}
    (hresult : (ofText limit 0 0 cs).result = .ok items)
    (hfinite : (Node.sequence items).IsFinite)
    (halone : ∀ n, (Node.sequence items).Holds n → n.SoundsAlone) (start : Rat) {duration : Rat}
    (hduration : 0 < duration) :
    ∃ events, (Node.sequence items).exact.perform ⟨start, duration⟩ = .ok events ∧
      events.Pairwise (fun first second => first.time + first.duration ≤ second.time) ∧
      Timeline.ofEvents events = events ∧
      ((Node.sequence items).IsGapless →
        (∃ first, events.head? = some first ∧ first.time = start) ∧
        events.IsChain (fun first second => first.time + first.duration = second.time) ∧
        ∃ last, events.getLast? = some last ∧ last.time + last.duration = start + duration) := by
  obtain ⟨events, hevents⟩ := exists_perform_exact hresult hfinite ⟨start, duration⟩
  have hformed : ∀ m, (Node.sequence items).exact.Holds m → m.WellFormed :=
    fun m hm => wellFormed_exact_of_result hresult hfinite hm
  have halone' : ∀ m, (Node.sequence items).exact.Holds m → m.SoundsAlone := by
    intro m hm
    obtain ⟨k, hk, rfl⟩ := Node.exists_of_holds_map hm
    exact (Node.soundsAlone_map exactValue k).mpr (halone k hk)
  have hwindow : 0 < (Window.mk start duration).duration := hduration
  have hturn : InTurn True start (events.map Event.window) (start + duration) :=
    Node.inTurn_perform hwindow hformed halone' (.inl trivial) hevents
  refine ⟨events, hevents, List.pairwise_map.mp hturn.pairwise, Timeline.ofEvents_of_inTurn hturn,
    fun hgapless => ?_⟩
  have htiles : InTurn False start (events.map Event.window) (start + duration) :=
    Node.inTurn_perform hwindow hformed halone'
      (.inr ⟨rfl, Node.isGapless_map exactValue hgapless⟩) hevents
  exact Timeline.ends_of_inTurn htiles (by linarith)

/-- In `{a _ ^5}%4` every slot belongs to a sound, also when the items start over. -/
theorem perform_exact_in_turn_of_steps :
    ∃ items, (ofText 1 0 0 ['{', 'a', ' ', '_', ' ', '^', '5', '}', '%', '4']).result = .ok items ∧
      (Node.sequence items).IsFinite ∧
      (∀ n, (Node.sequence items).Holds n → n.SoundsAlone) ∧
      (Node.sequence items).IsGapless ∧ (0 : Rat) < 1 ∧
      ∃ events, (Node.sequence items).exact.perform ⟨0, 1⟩ = .ok events ∧
        Timeline.ofEvents events = events ∧
        (∃ first, events.head? = some first ∧ first.time = 0) ∧
        events.IsChain (fun first second => first.time + first.duration = second.time) ∧
        ∃ last, events.getLast? = some last ∧ last.time + last.duration = 0 + 1 := by
  have hitems : ∀ n ∈ steppedItems, n.SoundsAlone ∧ n.IsSolid ∧ n.isRest = false := by
    simp [steppedItems, Node.SoundsAlone, Node.IsSolid, Node.isRest, Atom.ofModifiers,
      Modifiers.none]
  have hnodes : ∀ n, (Node.sequence [steppedGroup]).Holds n →
      n.SoundsAlone ∧ n.IsSolid ∧ n.isRest = false := by
    intro n hn
    rcases eq_of_holds_stepped_group hn with rfl | rfl | rfl | hitem
    · exact ⟨trivial, ⟨_, _, rfl, rfl⟩, rfl⟩
    · exact ⟨le_refl 1, trivial, rfl⟩
    · exact ⟨trivial, ⟨_, _, rfl, rfl⟩, rfl⟩
    · exact hitems n hitem
  have halone : ∀ n, (Node.sequence [steppedGroup]).Holds n → n.SoundsAlone :=
    fun n hn => (hnodes n hn).1
  have hgapless : (Node.sequence [steppedGroup]).IsGapless :=
    ⟨fun n hn => (hnodes n hn).2.1, fun n hn => (hnodes n hn.holds).2.2⟩
  obtain ⟨events, hevents, -, horder, htiles⟩ :=
    perform_exact_in_turn result_stepped_group isFinite_stepped_group halone 0 zero_lt_one
  exact ⟨_, result_stepped_group, isFinite_stepped_group, halone, hgapless, zero_lt_one,
    events, hevents, horder, htiles hgapless⟩

end Reading

end CyclePattern
