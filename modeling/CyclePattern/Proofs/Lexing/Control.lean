/-
# Words with controls

A word with bars one of which stands before the name of a known control is a sound with controls.
The first segment gives the sound and its modifiers, as it would without the others. Each of the
others sets a control, unless it has no characters or its name is unknown; a control that is set
again keeps its place and takes the new value. When the first segment is no sound, or one of the
others is neither empty nor a name with a number, the whole word is a name.
-/

import CyclePattern.Proofs.Lexing.Conversion
import CyclePattern.Proofs.Lexing.Segment
import CyclePattern.Proofs.Tree.WellFormed

namespace CyclePattern

open Text

namespace Controls

variable {α : Type} {controls : Controls α} {pairs : List (String × α)}

/-- Controls with each name of some pairs once, in the order in which the names come up first, and
with the value that comes last. -/
structure LastOf (controls : Controls α) (pairs : List (String × α)) : Prop where
  names : controls.map Prod.fst = (pairs.map Prod.fst).eraseDups
  values : ∀ name, controls.get? name = Controls.get? pairs.reverse name

theorem lastOf_nil : LastOf ([] : Controls α) [] :=
  ⟨rfl, fun _ => rfl⟩

theorem LastOf.set (hcontrols : controls.LastOf pairs) (name : String) (value : α) :
    (Controls.set controls name value).LastOf (pairs ++ [(name, value)]) where
  names := by
    rw [keys_set, hcontrols.names, List.map_append, List.eraseDups_append]
    by_cases hmem : name ∈ pairs.map Prod.fst
    · rw [if_pos (List.mem_eraseDups.mpr hmem)]
      simp [List.removeAll, List.mem_map.mp hmem]
    · rw [if_neg (mt List.mem_eraseDups.mp hmem)]
      simp [List.removeAll, mt List.mem_map.mpr hmem, List.eraseDups_cons]
  values := by
    intro other
    rw [List.reverse_append, List.reverse_singleton, List.singleton_append, get?]
    by_cases hsame : name = other
    · rw [if_pos hsame, ← hsame, get?_set_self]
    · rw [if_neg hsame, get?_set_of_ne _ _ hsame, hcontrols.values]

end Controls

/-- What the segments after the first set, in their order. Segments without characters and unknown
names set nothing. -/
inductive Settings : List (List Char) → List (String × Float) → Prop
  | nil : Settings [] []
  | empty {texts pairs} (hrest : Settings texts pairs) : Settings ([] :: texts) pairs
  | known {text texts pairs} {name : List Char} {x : Numeral}
      (hname : String.ofList name ∈ knownControls) (hx : x.WellFormed)
      (htext : text = name ++ ':' :: x.text) (hrest : Settings texts pairs) :
      Settings (text :: texts) ((String.ofList name, x.toFloat) :: pairs)
  | unknown {text texts pairs} {name : List Char} {x : Numeral} (hname : IsControlName name)
      (hunknown : String.ofList name ∉ knownControls) (hx : x.WellFormed)
      (htext : text = name ++ ':' :: x.text) (hrest : Settings texts pairs) :
      Settings (text :: texts) pairs

theorem isControlName_of_ofList_mem {name : List Char}
    (hname : String.ofList name ∈ knownControls) : IsControlName name := by
  simpa using isControlName_of_mem hname

/-- A setting is told apart from others by its text. -/
theorem setting_unique {name other : List Char} {x y : Numeral} (hname : IsControlName name)
    (hx : x.WellFormed) (hother : IsControlName other) (hy : y.WellFormed)
    (htext : name ++ ':' :: x.text = other ++ ':' :: y.text) : name = other ∧ x = y := by
  have hread := readControl?_eq_some_iff.mpr ⟨hname, hx, htext.symm⟩
  rw [readControl?_eq_some_iff.mpr ⟨hother, hy, rfl⟩] at hread
  cases hread
  exact ⟨rfl, rfl⟩

/-- The segments tell what they set. -/
theorem Settings.unique {texts : List (List Char)} {pairs others : List (String × Float)}
    (hpairs : Settings texts pairs) (hothers : Settings texts others) : others = pairs := by
  induction hpairs generalizing others with
  | nil =>
      cases hothers
      rfl
  | empty hrest ih =>
      cases hothers with
      | empty hlater => exact ih hlater
      | known _ _ htext _ => simp at htext
      | unknown _ _ _ htext _ => simp at htext
  | known hname hx htext hrest ih =>
      cases hothers with
      | empty _ => simp at htext
      | known hother hy hsame hlater =>
          obtain ⟨rfl, rfl⟩ := setting_unique (isControlName_of_ofList_mem hname) hx
            (isControlName_of_ofList_mem hother) hy (htext.symm.trans hsame)
          rw [ih hlater]
      | unknown hother hunknown hy hsame hlater =>
          obtain ⟨rfl, -⟩ := setting_unique (isControlName_of_ofList_mem hname) hx hother hy
            (htext.symm.trans hsame)
          exact absurd hname hunknown
  | unknown hname hunknown hx htext hrest ih =>
      cases hothers with
      | empty _ => simp at htext
      | known hother hy hsame hlater =>
          obtain ⟨rfl, -⟩ := setting_unique hname hx (isControlName_of_ofList_mem hother) hy
            (htext.symm.trans hsame)
          exact absurd hother hunknown
      | unknown _ _ _ _ hlater => exact ih hlater

namespace Word

variable {word : List Char} {head segment : Segment} {rest segments : List Segment}

/-- Every segment that is not empty is a name with a number. -/
def AreSettings (segments : List Segment) : Prop :=
  ∀ segment ∈ segments, segment.text ≠ [] → IsSetting segment.text

/-- Segments that are all settings are read to their end, and set what they say. -/
theorem readControls_of_areSettings (start : Int) {controls : Controls Float}
    {before : List (String × Float)} (notices : List Notice) (hsegments : AreSettings segments)
    (hcontrols : controls.LastOf before) :
    ∃ pairs later, Settings (segments.map Segment.text) pairs ∧
      (readControls start controls notices segments).1.LastOf (before ++ pairs) ∧
      (readControls start controls notices segments).2 = (later, true) := by
  induction segments generalizing controls before notices with
  | nil => exact ⟨[], notices, .nil, by rwa [List.append_nil], rfl⟩
  | cons segment rest ih =>
      obtain ⟨hsegment, hrest⟩ := List.forall_mem_cons.mp hsegments
      by_cases hempty : segment.text = []
      · obtain ⟨pairs, later, hsettings, hlast, hend⟩ := ih notices hrest hcontrols
        refine ⟨pairs, later, ?_, ?_⟩
        · rw [List.map_cons, hempty]
          exact .empty hsettings
        · simpa [readControls, hempty] using ⟨hlast, hend⟩
      · obtain ⟨name, x, hname, hx, htext⟩ := hsegment hempty
        have hread := readControl?_eq_some_iff.mpr ⟨hname, hx, htext⟩
        by_cases hknown : String.ofList name ∈ knownControls
        · obtain ⟨pairs, later, hsettings, hlast, hend⟩ :=
            ih notices hrest (hcontrols.set (String.ofList name) x.toFloat)
          refine ⟨(String.ofList name, x.toFloat) :: pairs, later, ?_, ?_⟩
          · exact .known hknown hx htext hsettings
          · rw [List.append_assoc, List.singleton_append] at hlast
            simpa [readControls, hempty, hread, hknown] using ⟨hlast, hend⟩
        · obtain ⟨pairs, later, hsettings, hlast, hend⟩ :=
            ih (notices ++ [.ignoredControl name (start + segment.offset)]) hrest hcontrols
          refine ⟨pairs, later, ?_, ?_⟩
          · exact .unknown hname hknown hx htext hsettings
          · simpa [readControls, hempty, hread, hknown] using ⟨hlast, hend⟩

/-- Reading stops before the end at a segment that is no setting. -/
theorem readControls_of_not_areSettings (start : Int) (controls : Controls Float)
    (notices : List Notice) (hsegments : ¬ AreSettings segments) :
    (readControls start controls notices segments).2.2 = false := by
  induction segments generalizing controls notices with
  | nil => exact absurd (by simp [AreSettings]) hsegments
  | cons segment rest ih =>
      rw [AreSettings, List.forall_mem_cons, not_and_or] at hsegments
      by_cases hempty : segment.text = []
      · have hrest := hsegments.resolve_left (not_not_intro fun hne => absurd hempty hne)
        simpa [readControls, hempty] using ih controls notices hrest
      · simp only [readControls, List.isEmpty_iff, hempty, if_false]
        split
        · next name x hread =>
            obtain ⟨hname, hx, htext⟩ := readControl?_eq_some_iff.mp hread
            have hsetting : IsSetting segment.text := ⟨name, x, hname, hx, htext⟩
            have hrest := hsegments.resolve_left (not_not_intro fun _ => hsetting)
            split
            · exact ih _ notices hrest
            · exact ih controls _ hrest
        · rfl

theorem sound?_eq_none_iff : sound? word = none ↔ ∀ cut : Cut, ¬ cut.IsOf word := by
  refine ⟨?_, sound?_eq_none⟩
  intro hnone cut hcut
  obtain ⟨ms, hsome, -⟩ := sound?_of_isOf hcut
  rw [hnone] at hsome
  cases hsome

/-- A word is a name when its first segment is no sound or another one is no setting. -/
theorem controlled_eq_literal (start : Int)
    (hbad : (∀ cut : Cut, ¬ cut.IsOf head.text) ∨ ¬ AreSettings rest) :
    (controlled word start head.text rest).value = (literal word start).value := by
  unfold controlled
  split
  · rfl
  · next name ms hsound =>
      have hrest : ¬ AreSettings rest := by
        refine hbad.resolve_left ?_
        rw [← sound?_eq_none_iff, hsound]
        exact Option.some_ne_none _
      have hend := readControls_of_not_areSettings start [] [] hrest
      rcases hread : readControls start [] [] rest with ⟨controls, notices, ends⟩
      rw [hread] at hend
      cases hend
      rfl

/-- A word is a sound with controls when its first segment is a sound and the others are
settings. -/
theorem exists_controlled_eq (start : Int) {cut : Cut} (hcut : cut.IsOf head.text)
    (hrest : AreSettings rest) :
    ∃ (sound : Atom Float) (pairs : List (String × Float)),
      (controlled word start head.text rest).value = .atom sound (span word start) ∧
      sound.name = String.ofList cut.name ∧
      Atom.HasModifiers { sound with controls := [] } (cut.parts.map (·.1)) ∧
      Settings (rest.map Segment.text) pairs ∧ Controls.LastOf sound.controls pairs := by
  obtain ⟨ms, hsound, hsets⟩ := sound?_of_isOf hcut
  obtain ⟨pairs, later, hsettings, hlast, hend⟩ :=
    readControls_of_areSettings start [] hrest Controls.lastOf_nil
  rcases hread : readControls start [] [] rest with ⟨controls, notices, ends⟩
  rw [hread] at hlast hend
  cases hend
  refine ⟨.ofModifiers cut.name ms controls, pairs, ?_, rfl, ?_, hsettings, hlast⟩
  · simp only [controlled, hsound, hread]
  · exact Atom.hasModifiers_ofModifiers hsets cut.name

theorem read_eq_controlled (start : Int) {second : Segment} {others : List Segment}
    (hsegments : splitTopLevel '|' word = head :: second :: others)
    (hcontrol : ∃ segment ∈ second :: others, StartsWithControl segment.text) :
    read word start = controlled word start head.text (second :: others) := by
  rw [read_eq_piped hsegments, piped, if_pos ((any_startsKnownControl_iff _).mpr hcontrol)]

/-- Controls are floats from the start, so only the first segment has numbers that are converted to
integers. -/
theorem failsOn_of_control (start : Int) {second : Segment} {others : List Segment}
    (hsegments : splitTopLevel '|' word = head :: second :: others)
    (hcontrol : ∃ segment ∈ second :: others, StartsWithControl segment.text) :
    FailsOn word start (SoundConverts head.text) := by
  apply failsOn_of_mem_wholes_iff
  intro x
  have hwholes : wholes word = soundWholes head.text := by
    rw [wholes, hsegments]
    exact if_pos ((any_startsKnownControl_iff _).mpr hcontrol)
  rw [hwholes, mem_soundWholes_iff]

/-- A word is a name exactly when its first segment is no sound or another one is no setting. -/
theorem controlled_eq_literal_iff (start : Int) {second : Segment} {others : List Segment}
    (hsegments : splitTopLevel '|' word = head :: second :: others) :
    (controlled word start head.text (second :: others)).value = (literal word start).value ↔
      (∀ cut : Cut, ¬ cut.IsOf head.text) ∨ ¬ AreSettings (second :: others) := by
  refine ⟨?_, controlled_eq_literal start⟩
  intro hliteral
  by_contra hgood
  rw [not_or, not_not, not_forall_not] at hgood
  obtain ⟨⟨cut, hcut⟩, hrest⟩ := hgood
  obtain ⟨sound, pairs, hvalue, hname, -⟩ := exists_controlled_eq start hcut hrest
  -- The name of the sound is shorter than the word, which has a bar after it.
  have hshorter : cut.name ≠ word := by
    intro hsame
    obtain ⟨back, hword⟩ := exists_eq_append_of_splitTopLevel hsegments
    have hlength := congrArg List.length hsame
    rw [hword, hcut.text] at hlength
    simp only [List.length_append, List.length_cons] at hlength
    omega
  exact atom_ne_literal hname hshorter start (hvalue.symm.trans hliteral)

/-- A word one of whose segments after the first starts as a known control does. It cannot be read
just where a number of the first segment is too long to be converted. Otherwise it is a name exactly
when the first segment is no sound, or another one is neither empty nor a setting, and else it is
the sound of the first segment, with the controls that the others set. -/
theorem node_of_control (start : Int) (hsegments : splitTopLevel '|' word = head :: rest)
    (hcontrol : ∃ segment ∈ rest, StartsWithControl segment.text) :
    FailsOn word start (SoundConverts head.text) ∧
    ∀ found, node word start = .ok found →
    (found.value = (literal word start).value ↔
      (∀ cut : Cut, ¬ cut.IsOf head.text) ∨
        ∃ segment ∈ rest, segment.text ≠ [] ∧ ¬ IsSetting segment.text) ∧
    ∀ cut : Cut, cut.IsOf head.text →
      (∀ segment ∈ rest, segment.text ≠ [] → IsSetting segment.text) →
      ∃ (sound : Atom Float) (pairs : List (String × Float)),
        found.value = .atom sound (.between start (start + word.length)) ∧
        sound.name = String.ofList cut.name ∧
        Atom.HasModifiers { sound with controls := [] } (cut.parts.map (·.1)) ∧
        Settings (rest.map Segment.text) pairs ∧ Controls.LastOf sound.controls pairs := by
  obtain ⟨segment, hsegment, -⟩ := id hcontrol
  obtain ⟨second, others, rfl⟩ := List.exists_cons_of_ne_nil (List.ne_nil_of_mem hsegment)
  refine ⟨failsOn_of_control start hsegments hcontrol, ?_⟩
  intro found hnode
  obtain ⟨-, rfl⟩ := node_eq_ok_iff.mp hnode
  rw [read_eq_controlled start hsegments hcontrol, controlled_eq_literal_iff start hsegments]
  refine ⟨or_congr_right ?_, fun cut hcut hrest => exists_controlled_eq start hcut hrest⟩
  simp only [AreSettings, not_forall, exists_prop]

theorem wellFormed_digit {d : Char} (hd : isDecimal d = true) :
    Numeral.WellFormed ⟨false, [d], none⟩ := by
  refine ⟨⟨by simp, by simpa using hd⟩, ?_⟩
  rintro _ ⟨⟩

/-- The word `bd|gain:1||up:3|gain:2` is a sound with a gain of two. -/
theorem node_of_control_of_gain :
    ∃ (found : Noted (Node Float)) (sound : Atom Float),
      node ("bd|gain:1||up:3|gain:2".toList) 0 = .ok found ∧
      found.value = .atom sound (.between 0 22) ∧
      sound.name = "bd" ∧ sound.controls.map Prod.fst = ["gain"] ∧
      Controls.get? sound.controls "gain" = some (Numeral.toFloat ⟨false, ['2'], none⟩) := by
  have hsplit : splitTopLevel '|' "bd|gain:1||up:3|gain:2".toList =
      [⟨['b', 'd'], 0⟩, ⟨['g', 'a', 'i', 'n', ':', '1'], 3⟩, ⟨[], 10⟩, ⟨['u', 'p', ':', '3'], 11⟩,
        ⟨['g', 'a', 'i', 'n', ':', '2'], 16⟩] := by
    decide +kernel
  have hcut : Cut.IsOf ⟨['b', 'd'], []⟩ ['b', 'd'] := by
    constructor
    · simp
    · simp only [isSoundRun_cons_iff, isSoundRun_nil, and_true]
      exact ⟨.inl rfl, .inl rfl⟩
    · simp [Modifiers.AreWritten]
    · exact List.nodup_nil
    · rfl
  have hone := wellFormed_digit (d := '1') (by decide)
  have htwo := wellFormed_digit (d := '2') (by decide)
  have hthree := wellFormed_digit (d := '3') (by decide)
  have hup : IsControlName ['u', 'p'] := ⟨'u', ['p'], rfl, rfl, by simp⟩
  have hgain : String.ofList ['g', 'a', 'i', 'n'] ∈ knownControls := by
    simp [knownControls]
  have hgiven : Settings [['g', 'a', 'i', 'n', ':', '1'], [], ['u', 'p', ':', '3'],
      ['g', 'a', 'i', 'n', ':', '2']]
      [("gain", Numeral.toFloat ⟨false, ['1'], none⟩),
        ("gain", Numeral.toFloat ⟨false, ['2'], none⟩)] :=
    .known hgain hone rfl (.empty (.unknown hup (by simp [knownControls]) hthree rfl
      (.known hgain htwo rfl .nil)))
  have hsegments : ∀ segment ∈ [(⟨['g', 'a', 'i', 'n', ':', '1'], 3⟩ : Segment), ⟨[], 10⟩,
      ⟨['u', 'p', ':', '3'], 11⟩, ⟨['g', 'a', 'i', 'n', ':', '2'], 16⟩],
      segment.text ≠ [] → IsSetting segment.text := by
    have hname := isControlName_of_ofList_mem hgain
    simp only [List.forall_mem_cons, List.not_mem_nil, false_imp_iff, implies_true, and_true]
    exact ⟨fun _ => ⟨_, _, hname, hone, rfl⟩, fun hne => absurd rfl hne,
      fun _ => ⟨_, _, hup, hthree, rfl⟩, fun _ => ⟨_, _, hname, htwo, rfl⟩⟩
  have hcontrol : ∃ segment ∈ [(⟨['g', 'a', 'i', 'n', ':', '1'], 3⟩ : Segment), ⟨[], 10⟩,
      ⟨['u', 'p', ':', '3'], 11⟩, ⟨['g', 'a', 'i', 'n', ':', '2'], 16⟩],
      StartsWithControl segment.text :=
    ⟨_, List.mem_cons_self, "gain", by simp [knownControls], ['1'], by simp⟩
  have hshort : "bd|gain:1||up:3|gain:2".toList.length ≤ digitLimit := by decide
  have hnode := node_of_length_le hshort 0
  obtain ⟨-, hfound⟩ := node_of_control 0 hsplit hcontrol
  obtain ⟨sound, pairs, hvalue, hname, -, hsettings, hlast⟩ :=
    (hfound _ hnode).2 _ hcut hsegments
  obtain rfl := hgiven.unique hsettings
  exact ⟨_, sound, hnode, hvalue, hname, hlast.names, hlast.values "gain"⟩

/-- A text without parentheses or bars is a segment of its own before a bar. -/
theorem splitTexts_append_bar {front : List Char} (hfront : ∀ c ∈ front, c ∉ ['|', '(', ')'])
    (back : List Char) :
    splitTexts '|' 0 (front ++ '|' :: back) = front :: splitTexts '|' 0 back := by
  induction front with
  | nil => rw [List.nil_append, splitTexts_cons (by decide), if_pos ⟨rfl, rfl⟩]
  | cons c front ih =>
      obtain ⟨hc, hrest⟩ := List.forall_mem_cons.mp hfront
      have hbar : ¬ (c = '|' ∧ (0 : Nat) = 0) := by
        rintro ⟨rfl, -⟩
        simp at hc
      have hplain : openAfterChar 0 c = 0 := by
        rw [Token.openAfterChar_zero, if_neg (by rintro rfl; simp at hc)]
      rw [List.cons_append, splitTexts_cons (by decide), if_neg hbar, hplain, ih hrest, consFirst]

theorem length_negativeCount (length : Nat) : (negativeCount length).length = length + 3 := by
  simp [negativeCount, Numeral.ones, Numeral.text]

theorem forall_mem_negativeCount {length : Nat} (hlength : 0 < length) :
    ∀ c ∈ negativeCount length, c ∉ ['|', '(', ')'] := by
  intro c hc
  have hnumber : ∀ d ∈ ['|', '(', ')'], d ∉ (Numeral.ones true length).text := by
    intro d hd
    have hformed := Numeral.wellFormed_ones true hlength
    simp only [List.mem_cons, List.not_mem_nil, or_false] at hd
    rcases hd with rfl | rfl | rfl <;>
      exact Numeral.not_mem_text hformed (by decide) (by decide) (by decide)
  rw [negativeCount, List.mem_cons, List.mem_cons] at hc
  rcases hc with rfl | rfl | hc
  · decide
  · decide
  · exact fun hmem => hnumber c hmem hc

/-- The first segment is no sound, since its count is negative, and the other is a control. The word
is not kept as a name when the count has 4301 digits. -/
theorem node_fails_of_long_count_before_control :
    splitTopLevel '|' (negativeCount 4301 ++ '|' :: ['g', 'a', 'i', 'n', ':', '1']) =
        [⟨negativeCount 4301, 0⟩, ⟨['g', 'a', 'i', 'n', ':', '1'], 4305⟩] ∧
      StartsWithControl ['g', 'a', 'i', 'n', ':', '1'] ∧
      (∀ cut : Cut, ¬ cut.IsOf (negativeCount 4301)) ∧
      ∃ fault, node (negativeCount 4301 ++ '|' :: ['g', 'a', 'i', 'n', ':', '1']) 0 =
        .error fault := by
  have hpos : 0 < 4301 := by decide
  have hlength : (negativeCount 4301).length = 4304 := length_negativeCount 4301
  have hsplit : splitTopLevel '|' (negativeCount 4301 ++ '|' :: ['g', 'a', 'i', 'n', ':', '1']) =
      [⟨negativeCount 4301, 0⟩, ⟨['g', 'a', 'i', 'n', ':', '1'], 4305⟩] := by
    rw [splitTopLevel, splitTexts_append_bar (forall_mem_negativeCount hpos), placeSegments,
      hlength]
    rfl
  have hgain : StartsWithControl ['g', 'a', 'i', 'n', ':', '1'] :=
    ⟨"gain", by simp [knownControls], ['1'], by simp⟩
  have hcontrol : ∃ segment ∈ [(⟨['g', 'a', 'i', 'n', ':', '1'], 4305⟩ : Segment)],
      StartsWithControl segment.text := ⟨_, List.mem_cons_self, hgain⟩
  have hfails := failsOn_of_control 0 hsplit hcontrol
  exact ⟨hsplit, hgain, not_isOf_negativeCount hpos,
    hfails.fails (soundConverts_negativeCount hpos) (Numeral.isTooLong_ones true (by decide))⟩

end Word

end CyclePattern
