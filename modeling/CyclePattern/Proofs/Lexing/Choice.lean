/-
# Words that are choices

A word with bars is a choice between its segments unless one of them, after the first, starts with
the name of a control. An option is then what its segment is as a word by itself, at the place where
it stands, but for the mark of an elongation, which is a rest: there is nothing before it that it
could lengthen. Segments without characters are no options. A single option stands for the whole
word, and a word without options is a name. The first segment that cannot be read keeps the word
from being read.
-/

import CyclePattern.Proofs.Lexing.Conversion
import CyclePattern.Proofs.Lexing.Segment

namespace CyclePattern

open Text

/-- A value, unless there is a fault. -/
def unlessFault {ε α : Type} (fault : Option ε) (value : α) : Except ε α :=
  match fault with
  | some e => .error e
  | none => .ok value

/-- Taking elements one after the other stops at the first fault, and succeeds if there is none. -/
theorem mapM_eq_unlessFault {ε α β : Type} {f : α → Except ε β} {fault : α → Option ε} {g : α → β}
    {xs : List α} (hf : ∀ x ∈ xs, f x = unlessFault (fault x) (g x)) :
    xs.mapM f = unlessFault (xs.findSome? fault) (xs.map g) := by
  induction xs with
  | nil => rfl
  | cons x xs ih =>
      obtain ⟨hfirst, hrest⟩ := List.forall_mem_cons.mp hf
      rw [List.mapM_cons, hfirst, ih hrest, List.findSome?_cons]
      cases fault x with
      | some e => rfl
      | none => cases xs.findSome? fault <;> rfl

theorem findSome?_flatMap {α β γ : Type} (f : β → Option γ) (g : α → List β) (xs : List α) :
    (xs.flatMap g).findSome? f = xs.findSome? fun x => (g x).findSome? f := by
  induction xs with
  | nil => rfl
  | cons x xs ih =>
      rw [List.flatMap_cons, List.findSome?_append, List.findSome?_cons, ih]
      cases (g x).findSome? f <;> rfl

namespace Word

variable {word text : List Char} {segment : Segment}

/-- What a segment stands for by itself where it stands in a word, if it can be read. An elongation
is a rest. -/
def aloneNode (start : Int) (segment : Segment) : Except NumberFault (Node Float) :=
  if segment.text = elongationMark then
    .ok (.rest (span segment.text (start + segment.offset)))
  else (node segment.text (start + segment.offset)).map Noted.value

/-- The fault of an option: that of the first numeral in it that is too long. -/
def optionFault? (text : List Char) : Option NumberFault :=
  (optionWholes text).findSome? Numeral.tooLong?

/-- A text that is left whole is the same as an option and as a word, but for an elongation. -/
theorem option_eq_read (hwhole : splitTopLevel '|' text = [⟨text, 0⟩])
    (helongation : text ≠ elongationMark) (start : Int) : option text start = read text start := by
  by_cases hrest : text = restMark
  · rw [option, if_pos (.inl hrest), read, if_pos hrest]
  · rw [option, if_neg (by simp [hrest, helongation]), read, if_neg hrest, if_neg helongation,
      hwhole]

/-- By itself a segment cannot be read just where its option cannot, and is that option
otherwise. -/
theorem aloneNode_eq (hsegment : segment ∈ splitTopLevel '|' word) (start : Int) :
    aloneNode start segment = unlessFault (optionFault? segment.text)
      (option segment.text (start + segment.offset)).value := by
  have hwhole := splitTopLevel_of_mem (by decide) hsegment
  by_cases helongation : segment.text = elongationMark
  · rw [aloneNode, if_pos helongation, optionFault?, optionWholes, if_pos (.inr helongation),
      option, if_pos (.inr helongation)]
    rfl
  · have hfault : fault? segment.text = optionFault? segment.text := by
      rw [fault?, wholes, hwhole, optionFault?]
    rw [aloneNode, if_neg helongation, node, hfault, ← option_eq_read hwhole helongation]
    cases optionFault? segment.text <;> rfl

/-- The segments that are not empty stand for the options of a choice, unless one of them cannot be
read. -/
theorem mapM_aloneNode (word : List Char) (start : Int) :
    ((splitTopLevel '|' word).filter fun segment => !segment.text.isEmpty).mapM (aloneNode start) =
      unlessFault (((splitTopLevel '|' word).filter fun segment =>
        !segment.text.isEmpty).findSome? fun segment => optionFault? segment.text)
        (optionNodes start (splitTopLevel '|' word)) :=
  mapM_eq_unlessFault fun _ hsegment => aloneNode_eq (List.mem_of_mem_filter hsegment) start

/-- A choice cannot be read just where one of its options cannot. -/
theorem fault?_of_choice {head second : Segment} {rest : List Segment}
    (hsegments : splitTopLevel '|' word = head :: second :: rest)
    (hcontrols : ¬ (second :: rest).any startsKnownControl = true) :
    fault? word = ((splitTopLevel '|' word).filter fun segment => !segment.text.isEmpty).findSome?
      fun segment => optionFault? segment.text := by
  simp only [fault?, wholes, hsegments, pipedWholes, if_neg hcontrols, findSome?_flatMap]
  rfl

/-- A word of several segments, none of which sets a control, is a choice between what the segments
that are not empty stand for by themselves. A single one stands for the word, and with none the word
is a name. -/
theorem node_of_choice (start : Int) (hsegments : 2 ≤ (splitTopLevel '|' word).length)
    (hcontrols : ∀ segment ∈ (splitTopLevel '|' word).tail, ¬ StartsWithControl segment.text) :
    (node word start).map Noted.value =
      (((splitTopLevel '|' word).filter fun segment => !segment.text.isEmpty).mapM
        (aloneNode start)).map fun options =>
          match options with
          | [] => (literal word start).value
          | [single] => single.withSpan (.between start (start + word.length))
          | options => .choice options (.between start (start + word.length)) := by
  obtain ⟨head, second, rest, hsplit⟩ : ∃ head second rest,
      splitTopLevel '|' word = head :: second :: rest := by
    cases hsplit : splitTopLevel '|' word with
    | nil => simp [hsplit] at hsegments
    | cons head others =>
        obtain ⟨second, rest, rfl⟩ := List.exists_cons_of_length_pos (l := others) (by
          rw [hsplit, List.length_cons] at hsegments
          omega)
        exact ⟨head, second, rest, rfl⟩
  have hnone : ¬ (second :: rest).any startsKnownControl = true := by
    rw [any_startsKnownControl_iff]
    rintro ⟨segment, hsegment, hstarts⟩
    rw [hsplit, List.tail_cons] at hcontrols
    exact hcontrols segment hsegment hstarts
  have hread : (read word start).value = (choice word start (splitTopLevel '|' word)).value := by
    rw [read_eq_piped hsplit, piped, if_neg hnone, hsplit]
  rw [mapM_aloneNode, node, fault?_of_choice hsplit hnone]
  cases ((splitTopLevel '|' word).filter fun segment => !segment.text.isEmpty).findSome?
      fun segment => optionFault? segment.text with
  | some fault => rfl
  | none => exact congrArg Except.ok (hread.trans (choice_value word start _))

/-- The word `a||_` is a choice between a sound and a rest, and the word `a|` is the sound, over
both characters. -/
theorem node_of_choice_of_bars :
    (node ['a', '|', '|', '_'] 0).map Noted.value =
        .ok (.choice [(read ['a'] 0).value, .rest (.between 3 4)] (.between 0 4)) ∧
      (node ['a', '|'] 0).map Noted.value =
        .ok ((read ['a'] 0).value.withSpan (.between 0 2)) := by
  have hcontrols : ∀ word ∈ [['a', '|', '|', '_'], ['a', '|']],
      ∀ segment ∈ (splitTopLevel '|' word).tail, ¬ StartsWithControl segment.text := by
    intro word hword segment hsegment
    rw [← startsKnownControl_iff]
    revert segment word
    decide +kernel
  have hletter : aloneNode 0 ⟨['a'], 0⟩ = .ok (read ['a'] 0).value := by
    rw [aloneNode, if_neg (by decide), node_of_length_le (by decide)]
    rfl
  constructor
  · have hsplit : splitTopLevel '|' ['a', '|', '|', '_'] =
        [⟨['a'], 0⟩, ⟨[], 2⟩, ⟨['_'], 3⟩] := by
      decide +kernel
    have hoptions : [⟨['a'], 0⟩, ⟨['_'], 3⟩].mapM (aloneNode 0) =
        .ok [(read ['a'] 0).value, .rest (.between 3 4)] := by
      rw [List.mapM_cons, hletter]
      rfl
    rw [node_of_choice 0 (by decide +kernel) (hcontrols _ (by simp)), hsplit]
    exact congrArg (Except.map _) hoptions
  · have hsplit : splitTopLevel '|' ['a', '|'] = [⟨['a'], 0⟩, ⟨[], 2⟩] := by decide +kernel
    have hoptions : [⟨['a'], 0⟩].mapM (aloneNode 0) = .ok [(read ['a'] 0).value] := by
      rw [List.mapM_cons, hletter]
      rfl
    rw [node_of_choice 0 (by decide +kernel) (hcontrols _ (by simp)), hsplit]
    exact congrArg (Except.map _) hoptions

end Word

end CyclePattern
