/-
# Division and speed of an event

An event hands its controls to a voice, after what it carries besides them. Its division and its
speed are those that its node gives it, multiplied and divided by what the groups around it set, the
innermost first. All other entries are as its node left them.
-/

import CyclePattern.Export.Data
import CyclePattern.Proofs.Performance.Origin

namespace CyclePattern

variable {α β : Type}

namespace Controls

theorem get?_eq_none {controls : Controls α} {name : String}
    (hname : name ∉ controls.map Prod.fst) : get? controls name = none := by
  induction controls with
  | nil => rfl
  | cons first rest ih =>
      obtain ⟨hne, hrest⟩ := not_or.mp (mt List.mem_cons.mpr hname)
      rw [get?, if_neg (Ne.symm hne)]
      exact ih hrest

theorem get?_append {controls others : Controls α} {name : String}
    (hname : name ∉ controls.map Prod.fst) :
    get? (controls ++ others) name = get? others name := by
  induction controls with
  | nil => rfl
  | cons first rest ih =>
      obtain ⟨hne, hrest⟩ := not_or.mp (mt List.mem_cons.mpr hname)
      rw [List.cons_append, get?, if_neg (Ne.symm hne)]
      exact ih hrest

theorem get?_map (f : α → β) (controls : Controls α) (name : String) :
    get? (controls.map fun control => (control.1, f control.2)) name =
      (get? controls name).map f := by
  induction controls with
  | nil => rfl
  | cons first rest ih =>
      rw [List.map_cons, get?, get?]
      split
      · rfl
      · exact ih

/-- Controls that are set in turn from some others hide these. -/
theorem get?_foldl_set {pairs : List (String × α)} (hpairs : (pairs.map Prod.fst).Nodup)
    (controls : Controls α) (name : String) :
    get? (pairs.foldl (fun controls pair => set controls pair.1 pair.2) controls) name =
      (get? pairs name).or (get? controls name) := by
  induction pairs generalizing controls with
  | nil => rfl
  | cons first rest ih =>
      obtain ⟨hfirst, hrest⟩ := List.nodup_cons.mp hpairs
      rw [List.foldl_cons, ih hrest, get?]
      by_cases hsame : first.1 = name
      · subst hsame
        rw [if_pos rfl, get?_set_self, get?_eq_none hfirst]
        rfl
      · rw [if_neg hsame, get?_set_of_ne _ _ hsame]

theorem get?_ofList {pairs : List (String × α)} (hpairs : (pairs.map Prod.fst).Nodup)
    (name : String) : get? (ofList pairs) name = get? pairs name := by
  rw [ofList, get?_foldl_set hpairs, get?, Option.or_none]

theorem get?_setIfGiven_self (controls : Controls α) (name : String) (value : Option α) :
    get? (controls.setIfGiven name value) name = value.or (get? controls name) := by
  cases value with
  | none => rfl
  | some value => exact get?_set_self controls name value

theorem get?_setIfGiven_of_ne (controls : Controls α) {name other : String} (value : Option α)
    (hne : name ≠ other) :
    get? (controls.setIfGiven name value) other = get? controls other := by
  cases value with
  | none => rfl
  | some value => exact get?_set_of_ne controls value hne

end Controls

namespace Event

/-- What an event carries besides its controls has entries of other names. -/
theorem isPlain_of_mem_fields {detail : Detail α} {field : String × Data α}
    (hfield : field ∈ detail.fields) : Controls.isPlain field = true := by
  cases detail with
  | plain => cases hfield
  | harmony leaf =>
      rcases List.mem_cons.mp hfield with rfl | hlater
      · rfl
      · rw [List.mem_singleton.mp hlater]
        rfl
  | options kind sounds =>
      rw [List.mem_singleton.mp hfield]
      cases kind <;> rfl

theorem get?_params (event : Event α) {name : String}
    (hname : ∀ value, Controls.isPlain (name, (value : Data α)) = false) :
    Controls.get? event.params name = (event.controls.get? name).map Data.number := by
  rw [params, Controls.get?_append, Data.controlFields, Controls.get?_map]
  intro hmem
  obtain ⟨field, hfield, rfl⟩ := List.mem_map.mp hmem
  exact absurd (isPlain_of_mem_fields hfield) (by simp [hname])

theorem filter_params (event : Event α) :
    event.params.filter Controls.isPlain =
      event.detail.fields ++ Data.controlFields (event.controls.filter Controls.isPlain) := by
  have hfields : event.detail.fields.filter Controls.isPlain = event.detail.fields :=
    List.filter_eq_self.mpr fun _ => isPlain_of_mem_fields
  calc
    _ = event.detail.fields ++
          (Data.controlFields event.controls).filter Controls.isPlain := by
      rw [params, List.filter_append, hfields]
    _ = event.detail.fields ++ Data.controlFields (event.controls.filter Controls.isPlain) := by
      rw [Data.controlFields, Data.controlFields, List.filter_map]
      rfl

end Event

/-- The division that a node gives its own events. -/
def Node.ownDivision : Node α → Option α
  | .atom sound _ => sound.division
  | _ => none

/-- The speed that a node gives its own events: what its ratio makes of one, or the speed that was
written. -/
def Node.ownSpeed [Measure α] : Node α → Option α
  | .atom sound _ =>
    match sound.ratio with
    | some ratio => some (Measure.one / ratio)
    | none => Controls.get? sound.controls "speed"
  | _ => none

theorem controls_of_mem_choiceEvents {kind : ChoiceKind} {options : List (Node α)} {span : Span}
    {window : Window α} {event : Event α} (hevent : event ∈ choiceEvents kind options span window) :
    event.controls = [] := by
  rcases Node.choiceEvents_cases kind options span window with
    ⟨-, event, hevents, -, hcontrols⟩ | ⟨-, hevents⟩
  · rw [hevents] at hevent
    rwa [List.mem_singleton.mp hevent]
  · rw [hevents] at hevent
    cases hevent

variable [Measure α] {window : Window α}

namespace Atom

variable {sound : Atom α} {span : Span} {events : List (Event α)} {event : Event α}

theorem exists_of_mem_copyEvents (hevents : sound.copyEvents span window = .ok events)
    (hevent : event ∈ events) : ∃ part, sound.event span part = .ok event := by
  unfold copyEvents at hevents
  split at hevents
  · obtain ⟨found, hfound, rfl⟩ := Node.exists_of_map_eq_ok hevents
    rw [List.mem_singleton.mp hevent]
    exact ⟨window, hfound⟩
  · obtain ⟨rhythm, -, hevents⟩ := exists_of_bind_eq_ok hevents
    obtain ⟨length, -, hevents⟩ := exists_of_bind_eq_ok hevents
    obtain ⟨onset, -, hfound⟩ := exists_of_mem_of_forall₂ (forall₂_of_mapM hevents) hevent
    exact ⟨_, hfound⟩

theorem exists_of_mem_events (hevents : sound.events span window = .ok events)
    (hevent : event ∈ events) : ∃ part, sound.event span part = .ok event := by
  obtain ⟨windows, -, hevents⟩ := exists_of_bind_eq_ok hevents
  obtain ⟨found, hfound, rfl⟩ := forall₂_of_flatMapM hevents
  obtain ⟨copies, hcopies, hmem⟩ := List.mem_flatten.mp hevent
  obtain ⟨part, -, hpart⟩ := exists_of_mem_of_forall₂ hfound hcopies
  exact exists_of_mem_copyEvents hpart hmem

theorem get?_eventControls {controls : Controls α} (hknown : Controls.Known sound.controls)
    (hcontrols : sound.eventControls = .ok controls) (span : Span) :
    controls.get? "division" = (Node.atom sound span).ownDivision ∧
      controls.get? "speed" = (Node.atom sound span).ownSpeed := by
  have hwritten : Controls.get? sound.controls "division" = none := by
    apply Controls.get?_eq_none
    intro hmem
    exact absurd (hknown.mem_known _ hmem) (by decide)
  have hdivision : Controls.get? (((Controls.ofList sound.controls).setIfGiven "probability"
      sound.probability).setIfGiven "division" sound.division) "division" = sound.division := by
    rw [Controls.get?_setIfGiven_self, Controls.get?_setIfGiven_of_ne _ _ (by decide),
      Controls.get?_ofList hknown.nodup, hwritten, Option.or_none]
  have hspeed : Controls.get? (((Controls.ofList sound.controls).setIfGiven "probability"
      sound.probability).setIfGiven "division" sound.division) "speed" =
      Controls.get? sound.controls "speed" := by
    rw [Controls.get?_setIfGiven_of_ne _ _ (by decide),
      Controls.get?_setIfGiven_of_ne _ _ (by decide), Controls.get?_ofList hknown.nodup]
  simp only [eventControls] at hcontrols
  split at hcontrols
  · next hratio =>
      cases hcontrols
      rw [Node.ownSpeed, hratio]
      exact ⟨hdivision, hspeed⟩
  · next ratio hratio =>
      obtain ⟨speed, hvalue, rfl⟩ := Node.exists_of_map_eq_ok hcontrols
      rw [Node.ownSpeed, hratio, Controls.get?_set_self, eq_div_of_quotient hvalue,
        Controls.get?_set_of_ne _ _ (by decide)]
      exact ⟨hdivision, rfl⟩

end Atom

namespace Node

variable {n : Node α} {own : List (Event α)} {event : Event α}

theorem controls_of_repeatedChoice {kind : ChoiceKind} {options : List (Node α)} {span : Span}
    {count : Int} (hown : (window.split count).map (fun windows =>
      windows.flatMap (choiceEvents kind options span)) = .ok own) (hevent : event ∈ own) :
    event.controls = [] := by
  obtain ⟨windows, -, rfl⟩ := exists_of_map_eq_ok hown
  obtain ⟨part, -, hmem⟩ := List.mem_flatMap.mp hevent
  exact controls_of_mem_choiceEvents hmem

/-- The events that a node plays by itself have its division and its speed. -/
theorem get?_of_mem_ownEvents [LT α] [LE α] [OfNat α 0] [OfNat α 1] (hn : n.WellFormed)
    (hown : n.ownEvents window = .ok own) (hevent : event ∈ own) :
    event.controls.get? "division" = n.ownDivision ∧ event.controls.get? "speed" = n.ownSpeed := by
  cases n with
  | atom sound span =>
      obtain ⟨part, hpart⟩ := Atom.exists_of_mem_events hown hevent
      obtain ⟨controls, hcontrols, rfl⟩ := exists_of_map_eq_ok hpart
      exact Atom.get?_eventControls hn.controls hcontrols span
  | harmony leaf text span =>
      cases hown
      rw [List.mem_singleton.mp hevent]
      exact ⟨rfl, rfl⟩
  | alternation options repeats division span =>
      have hcontrols : event.controls = [] := by
        rcases options with _ | ⟨option, _ | ⟨second, others⟩⟩
        · exact controls_of_repeatedChoice hown hevent
        · cases hown
          cases hevent
        · exact controls_of_repeatedChoice hown hevent
      rw [hcontrols]
      exact ⟨rfl, rfl⟩
  | choice options span =>
      cases hown
      rw [controls_of_mem_choiceEvents hevent]
      exact ⟨rfl, rfl⟩
  | _ =>
      cases hown
      cases hevent

end Node

/-- An event has the entries that its emission tells. -/
theorem Emission.Plays.params [LT α] [LE α] [OfNat α 0] [OfNat α 1] {emission : Emission α}
    {event : Event α} (hplays : emission.Plays event) (hsource : emission.source.WellFormed) :
    ∃ part found own, emission.source.ownEvents part = .ok found ∧ own ∈ found ∧
      event.withControls own.controls = own ∧
      event.params.filter Controls.isPlain = own.params.filter Controls.isPlain ∧
      Controls.get? event.params "division" =
        (scaled (· * ·) emission.source.ownDivision emission.divisions).map Data.number ∧
      Controls.get? event.params "speed" =
        (scaled (· / ·) emission.source.ownSpeed emission.ratios).map Data.number := by
  obtain ⟨part, found, own, hfound, hown, hbecomes⟩ := hplays
  obtain ⟨hdivision, hspeed⟩ := Node.get?_of_mem_ownEvents hsource hfound hown
  have hdetail : event.detail = own.detail := (congrArg Event.detail hbecomes.same :)
  refine ⟨part, found, own, hfound, hown, hbecomes.same, ?_, ?_, ?_⟩
  · rw [Event.filter_params, Event.filter_params, hbecomes.plain, hdetail]
  · rw [Event.get?_params event fun _ => rfl, hbecomes.division, hdivision]
  · rw [Event.get?_params event fun _ => rfl, hbecomes.speed, hspeed]

theorem GroupSettings.ofNumber?_division {number : Numeral} (hnumber : 0 < number.toFloat) :
    ofNumber? .division number = some { none with division := some number.toFloat } := by
  simp [ofNumber?, factor?_eq, hnumber]

theorem GroupSettings.ofNumber?_ratio {number : Numeral} (hnumber : 0 < number.toFloat) :
    ofNumber? .ratio number = some { none with ratio := some number.toFloat } := by
  simp [ofNumber?, factor?_eq, hnumber]

namespace Reading

variable {limit : Int} {cs : List Char} {items : List (Node Float)} {events : List (Event Float)}
  {window : Window Float}

/-- Every event of a tree that was read comes of one node of the tree, in the order of its
emissions. It has a division exactly if this node has one or a group around it sets one, and then
the product of all of them, the innermost first; and likewise a speed. All its other entries are
those of the event that the node plays by itself. -/
theorem params_of_result (hresult : (ofText limit 0 0 cs).result = .ok items)
    (hevents : (Node.sequence items).perform window = .ok events) :
    List.Forall₂ (fun emission event =>
        (Node.sequence items).Encloses emission.path emission.source ∧
        ∃ part found own, emission.source.ownEvents part = .ok found ∧ own ∈ found ∧
          event.withControls own.controls = own ∧
          event.params.filter Controls.isPlain = own.params.filter Controls.isPlain ∧
          Controls.get? event.params "division" =
            (scaled (· * ·) emission.source.ownDivision emission.divisions).map Data.number ∧
          Controls.get? event.params "speed" =
            (scaled (· / ·) emission.source.ownSpeed emission.ratios).map Data.number)
      (Node.sequence items).emissions events := by
  have hplays := (List.forall₂_and_left (Node.sequence items).emissions events).mpr
    ⟨fun _ => Node.encloses_of_mem_emissions, Node.forall₂_emissions hevents⟩
  refine hplays.imp ?_
  intro emission event ⟨hencloses, hevent⟩
  exact ⟨hencloses, hevent.params (forall_wellFormed hresult _ hencloses.holds)⟩

/-- The group `[[<a>/3]%4]/2`. -/
def scaledGroup : Node Float :=
  .subdivision
    (.sequence [.subdivision
      (.sequence [.alternation [.atom (.ofModifiers ['a'] .none []) (Word.span ['a'] 3)] none
        (some (⟨false, ['3'], none⟩ : Numeral).toFloat) (.between 2 7)])
      none none (some (⟨false, ['4'], none⟩ : Numeral).toFloat) (.between 1 10)])
    none (some (⟨false, ['2'], none⟩ : Numeral).toFloat) none (.between 0 13)

theorem result_scaled_group :
    (ofText 3 0 0 ['[', '[', '<', 'a', '>', '/', '3', ']', '%', '4', ']', '/', '2']).result =
      .ok [scaledGroup] := by
  have htokens :
      tokens ['[', '[', '<', 'a', '>', '/', '3', ']', '%', '4', ']', '/', '2'] =
        [.opening .square, .opening .square, .opening .angle, .word ['a'],
          .closing .angle (some ⟨'/', .division, ⟨false, ['3'], none⟩⟩),
          .closing .square (some ⟨'%', .ratio, ⟨false, ['4'], none⟩⟩),
          .closing .square (some ⟨'/', .division, ⟨false, ['2'], none⟩⟩)] := by
    decide +kernel
  have hthree : GroupSettings.ofNumber? .division ⟨false, ['3'], none⟩ =
      some { GroupSettings.none with division := some (⟨false, ['3'], none⟩ : Numeral).toFloat } :=
    GroupSettings.ofNumber?_division (by decide +kernel)
  have hfour : GroupSettings.ofNumber? .ratio ⟨false, ['4'], none⟩ =
      some { GroupSettings.none with ratio := some (⟨false, ['4'], none⟩ : Numeral).toFloat } :=
    GroupSettings.ofNumber?_ratio (by decide +kernel)
  have htwo : GroupSettings.ofNumber? .division ⟨false, ['2'], none⟩ =
      some { GroupSettings.none with division := some (⟨false, ['2'], none⟩ : Numeral).toFloat } :=
    GroupSettings.ofNumber?_division (by decide +kernel)
  have hfaults : (⟨'/', .division, ⟨false, ['3'], none⟩⟩ : GroupModifier).fault? = none ∧
      (⟨'%', .ratio, ⟨false, ['4'], none⟩⟩ : GroupModifier).fault? = none ∧
      (⟨'/', .division, ⟨false, ['2'], none⟩⟩ : GroupModifier).fault? = none := by
    decide +kernel
  simp (disch := decide) [ofText, htokens, ofTokens, Progress.step, Progress.start,
    Progress.openGroup, Progress.takeWord, Progress.closeGroup, Progress.finish,
    Progress.settingsOf, Word.node_of_length_le, Word.read_letter, hfaults, hthree, hfour, htwo,
    groupNode, GroupSettings.none, Token.text, scaledGroup, GroupModifier.text,
    Numeral.text]

/-- The groups and the sound in `[[<a>/3]%4]/2` are all played once. -/
theorem eq_one_of_mem_counts_scaled_group {n : Node Float} {count : Int}
    (hn : (Node.sequence [scaledGroup]).Holds n) (hcount : count ∈ n.counts) : count = 1 := by
  cases hn with
  | refl => cases hcount
  | child hc hn =>
  cases List.mem_singleton.mp hc
  cases hn with
  | refl => exact List.mem_singleton.mp hcount
  | child hc hn =>
  cases List.mem_singleton.mp hc
  cases hn with
  | refl => cases hcount
  | child hc hn =>
  cases List.mem_singleton.mp hc
  cases hn with
  | refl => exact List.mem_singleton.mp hcount
  | child hc hn =>
  cases List.mem_singleton.mp hc
  cases hn with
  | refl => cases hcount
  | child hc hn =>
  cases List.mem_singleton.mp hc
  cases hn with
  | refl => exact List.mem_singleton.mp hcount
  | child hc hn =>
  cases List.mem_singleton.mp hc
  rw [hn.eq_of_isLeaf trivial] at hcount
  exact List.mem_singleton.mp hcount

/-- The sound in `[[<a>/3]%4]/2` is spread over three and then over two cycles, at a quarter of its
speed. -/
theorem params_of_result_of_scaled_group :
    ∃ items, (ofText 3 0 0
        ['[', '[', '<', 'a', '>', '/', '3', ']', '%', '4', ']', '/', '2']).result = .ok items ∧
      ∃ event, (Node.sequence items).perform ⟨0, 1⟩ = .ok [event] ∧
        Controls.get? event.params "division" = some (.number
          (Measure.one * (⟨false, ['3'], none⟩ : Numeral).toFloat *
            (⟨false, ['2'], none⟩ : Numeral).toFloat)) ∧
        Controls.get? event.params "speed" =
          some (.number (Measure.one / (⟨false, ['4'], none⟩ : Numeral).toFloat)) := by
  refine ⟨_, result_scaled_group, ?_⟩
  cases hevents : (Node.sequence [scaledGroup]).perform ⟨0, 1⟩ with
  | error fault =>
      obtain ⟨-, n, hn, -, count, hcount, hlarge⟩ := (Node.perform_eq_error_iff
        (forall_wellFormed result_scaled_group) ⟨0, 1⟩ fault).mp hevents
      rw [eq_one_of_mem_counts_scaled_group hn hcount] at hlarge
      exact absurd hlarge (by decide +kernel)
  | ok events =>
      obtain _ | ⟨⟨-, part, found, own, -, -, -, -, hdivision, hspeed⟩, _ | _⟩ :=
        params_of_result result_scaled_group hevents
      exact ⟨_, rfl, hdivision, hspeed⟩

end Reading

end CyclePattern
