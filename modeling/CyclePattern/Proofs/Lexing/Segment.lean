/-
# Segments of a word

The name of a control, a control with its number, and the start that makes a segment a control are
told here by their characters, and the readers of the program are shown to find just these. Harmony
has no bar in it, so a word of several segments is what its segments make of it.
-/

import CyclePattern.Proofs.Lexing.Sound
import CyclePattern.Proofs.Tree.WordNode

namespace CyclePattern

open Text

namespace Harmony

theorem not_mem_of_degreeNumber? {digits : List Char} {n : Nat}
    (hnumber : degreeNumber? digits = some n) : '|' ∉ digits := by
  simp only [degreeNumber?, Option.ite_none_right_eq_some, List.all_eq_true] at hnumber
  obtain ⟨⟨-, hdigits, -⟩, -⟩ := hnumber
  intro hbar
  exact absurd (hdigits '|' hbar) (by decide)

theorem not_mem_of_all_isNameCharacter {cs : List Char}
    (hcs : cs.all isNameCharacter = true) : '|' ∉ cs := by
  rw [List.all_eq_true] at hcs
  intro hbar
  exact absurd (hcs '|' hbar) (by decide)

theorem not_mem_of_readDegree? {cs : List Char} {leaf : Harmony}
    (hdegree : readDegree? cs = some leaf) : '|' ∉ cs := by
  cases cs with
  | nil => cases hdegree
  | cons c digits =>
      rw [readDegree?] at hdegree
      split at hdegree
      · next haccidental =>
          obtain ⟨n, hnumber, -⟩ := Option.map_eq_some_iff.mp hdegree
          refine List.not_mem_cons_of_ne_of_not_mem ?_ (not_mem_of_degreeNumber? hnumber)
          rintro rfl
          exact absurd haccidental (by decide)
      · obtain ⟨_, hwhole, -⟩ := Option.map_eq_some_iff.mp hdegree
        obtain ⟨n, hnumber, -⟩ := Option.bind_eq_some_iff.mp hwhole
        exact not_mem_of_degreeNumber? hnumber

theorem not_mem_of_isChord {cs : List Char} (hchord : isChord cs = true) : '|' ∉ cs := by
  cases cs with
  | nil => cases hchord
  | cons root rest =>
      simp only [isChord, Bool.and_eq_true, decide_eq_true_eq] at hchord
      obtain ⟨⟨-, hroot⟩, hrest⟩ := hchord
      refine List.not_mem_cons_of_ne_of_not_mem ?_ (not_mem_of_all_isNameCharacter hrest)
      rintro rfl
      exact absurd hroot (by decide)

theorem not_mem_of_isRomanNumeral {cs : List Char} (hroman : isRomanNumeral cs = true) :
    '|' ∉ cs := by
  cases cs with
  | nil => cases hroman
  | cons first rest =>
      simp only [isRomanNumeral, Bool.and_eq_true] at hroman
      obtain ⟨hfirst, hrest⟩ := hroman
      refine List.not_mem_cons_of_ne_of_not_mem ?_ (not_mem_of_all_isNameCharacter hrest)
      rintro rfl
      exact absurd hfirst (by decide)

theorem not_mem_of_isRoman {cs : List Char} (hroman : isRoman cs = true) : '|' ∉ cs := by
  cases cs with
  | nil => cases hroman
  | cons c rest =>
      rw [isRoman] at hroman
      split at hroman
      · next haccidental =>
          refine List.not_mem_cons_of_ne_of_not_mem ?_ (not_mem_of_isRomanNumeral hroman)
          rintro rfl
          exact absurd haccidental (by decide)
      · exact not_mem_of_isRomanNumeral hroman

/-- No bar stands in harmony. -/
theorem ofWord?_eq_none {word : List Char} (hbar : '|' ∈ word) : ofWord? word = none := by
  rw [Option.eq_none_iff_forall_ne_some]
  intro leaf hleaf
  unfold ofWord? at hleaf
  split at hleaf
  · next rest =>
      exact not_mem_of_readDegree? hleaf (by simpa using hbar)
  · next rest =>
      have hmem : '|' ∈ rest := by simpa using hbar
      split at hleaf
      · next hchord => exact not_mem_of_isChord hchord hmem
      split at hleaf
      · next hroman => exact not_mem_of_isRoman hroman hmem
      · cases hleaf
  · cases hleaf

end Harmony

/-- The name of a control: a small letter, and then letters, digits and underscores, all of them
ASCII. -/
def IsControlName (name : List Char) : Prop :=
  ∃ c rest, name = c :: rest ∧ c.isLower = true ∧ ∀ d ∈ rest, d.isAlphanum = true ∨ d = '_'

/-- A segment that sets a control: a name, a colon and a number. -/
def IsSetting (text : List Char) : Prop :=
  ∃ (name : List Char) (x : Numeral),
    IsControlName name ∧ x.WellFormed ∧ text = name ++ ':' :: x.text

/-- A segment that starts with the name of a known control and a colon. -/
def StartsWithControl (text : List Char) : Prop :=
  ∃ name ∈ knownControls, name.toList ++ [':'] <+: text

theorem readControlName?_eq_some_iff {cs name after : List Char} :
    readControlName? cs = some (name, after) ↔ IsControlName name ∧ cs = name ++ ':' :: after := by
  constructor
  · intro hread
    cases cs with
    | nil => cases hread
    | cons c rest =>
        simp only [readControlName?] at hread
        split at hread
        · next tail htail =>
            obtain ⟨hlower, hname⟩ := Option.ite_none_right_eq_some.mp hread
            cases hname
            refine ⟨⟨c, _, rfl, hlower, ?_⟩, ?_⟩
            · intro d hd
              simpa using List.mem_takeWhile_imp hd
            · rw [List.cons_append, ← htail, List.takeWhile_append_dropWhile]
        · cases hread
  · rintro ⟨⟨c, rest, rfl, hlower, hrest⟩, rfl⟩
    have hall : ∀ d ∈ rest, (d.isAlphanum || d == '_') = true := by
      intro d hd
      simpa using hrest d hd
    have htake : (rest ++ ':' :: after).takeWhile (fun d => d.isAlphanum || d == '_') = rest := by
      rw [List.takeWhile_append_of_pos hall]
      simp
    have hdrop : (rest ++ ':' :: after).dropWhile (fun d => d.isAlphanum || d == '_') =
        ':' :: after := by
      rw [List.dropWhile_append_of_pos hall]
      rfl
    simp only [List.cons_append, readControlName?, hdrop, htake, hlower, if_true]

/-- Whole text is a control exactly when it is its name, a colon and its number. -/
theorem readControl?_eq_some_iff {cs name : List Char} {x : Numeral} :
    readControl? cs = some ((name, x), []) ↔
      IsControlName name ∧ x.WellFormed ∧ cs = name ++ ':' :: x.text := by
  constructor
  · intro hread
    unfold readControl? at hread
    split at hread
    · cases hread
    · next front after hname =>
        obtain ⟨⟨y, rest⟩, hnumber, hsame⟩ := Option.map_eq_some_iff.mp hread
        cases hsame
        obtain ⟨hcontrol, rfl⟩ := readControlName?_eq_some_iff.mp hname
        obtain ⟨rfl, hlongest⟩ := Numeral.read?_eq_some_iff.mp hnumber
        exact ⟨hcontrol, hlongest.wellFormed, by rw [List.append_nil]⟩
  · rintro ⟨hcontrol, hx, rfl⟩
    simp only [readControl?, readControlName?_eq_some_iff.mpr ⟨hcontrol, rfl⟩,
      Numeral.read?_text hx, Option.map_some]

theorem isControlName_of_mem {name : String} (hname : name ∈ knownControls) :
    IsControlName name.toList := by
  have hlower : ∀ name ∈ knownControls,
      name.toList ≠ [] ∧ ∀ c ∈ name.toList, c.isLower = true ∧ c.isAlphanum = true := by
    simp [knownControls]
  obtain ⟨hne, hall⟩ := hlower name hname
  obtain ⟨c, rest, hcons⟩ := List.exists_cons_of_ne_nil hne
  rw [hcons] at hall ⊢
  refine ⟨c, rest, rfl, (hall c List.mem_cons_self).1, ?_⟩
  intro d hd
  exact .inl (hall d (List.mem_cons_of_mem c hd)).2

/-- What makes a segment a control is seen from its start alone. -/
theorem startsKnownControl_iff (segment : Segment) :
    Word.startsKnownControl segment = true ↔ StartsWithControl segment.text := by
  unfold Word.startsKnownControl
  constructor
  · intro hstarts
    split at hstarts
    · next name after hname =>
        obtain ⟨-, htext⟩ := readControlName?_eq_some_iff.mp hname
        refine ⟨String.ofList name, List.contains_iff_mem.mp hstarts, after, ?_⟩
        rw [htext, String.toList_ofList, List.append_assoc, List.singleton_append]
    · cases hstarts
  · rintro ⟨name, hknown, after, hsplit⟩
    have hname : readControlName? segment.text = some (name.toList, after) := by
      apply readControlName?_eq_some_iff.mpr
      refine ⟨isControlName_of_mem hknown, ?_⟩
      rw [← hsplit, List.append_assoc, List.singleton_append]
    rw [hname]
    simpa using hknown

/-- A word of several segments starts with the first of them and a bar. -/
theorem exists_eq_append_of_splitTopLevel {word : List Char} {head second : Segment}
    {rest : List Segment} (hsegments : splitTopLevel '|' word = head :: second :: rest) :
    ∃ back, word = head.text ++ '|' :: back := by
  have htexts := congrArg (List.map Segment.text) hsegments
  rw [splitTopLevel, map_text_placeSegments] at htexts
  refine ⟨Word.joined '|' ((second :: rest).map Segment.text), ?_⟩
  rw [← Word.joined_splitTexts '|' 0 word, htexts]
  rfl

/-- Marks and harmony have no bar, so the segments tell what a word of several segments is. -/
theorem Word.read_eq_piped {word : List Char} {head second : Segment} {rest : List Segment}
    (hsegments : splitTopLevel '|' word = head :: second :: rest) (start : Int) :
    read word start = piped word start head (second :: rest) := by
  obtain ⟨back, hword⟩ := exists_eq_append_of_splitTopLevel hsegments
  have hbar : '|' ∈ word := by
    rw [hword]
    simp
  have hrest : word ≠ restMark := by
    rintro rfl
    exact absurd hbar (by decide)
  have helongation : word ≠ elongationMark := by
    rintro rfl
    exact absurd hbar (by decide)
  rw [read, if_neg hrest, if_neg helongation]
  simp only [Harmony.ofWord?_eq_none hbar, hsegments]

/-- Whether controls are set is seen from the segments after the first. -/
theorem Word.any_startsKnownControl_iff (segments : List Segment) :
    segments.any startsKnownControl = true ↔
      ∃ segment ∈ segments, StartsWithControl segment.text := by
  simp only [List.any_eq_true, startsKnownControl_iff]

end CyclePattern
