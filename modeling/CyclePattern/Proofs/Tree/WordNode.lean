/-
# The node of a word

A word stands for a leaf with the span of the word, or for a choice between leaves, one for each
text between its bars. The offset at which the word starts moves the node and does not change what
it is.
-/

import CyclePattern.Pattern.Word
import CyclePattern.Proofs.Tree.Tiles

namespace CyclePattern

open Text

namespace Word

variable {word text : List Char} {start k : Int}

theorem span_add (word : List Char) (start k : Int) :
    span word (start + k) = (span word start).shift k := by
  rw [span, span, Span.shift_between, Int.add_right_comm]

theorem literal_add (word : List Char) (start k : Int) :
    (literal word (start + k)).value = (literal word start).value.shift k := by
  simp only [literal, Node.shift, span_add]

theorem sound_add (word : List Char) (start k : Int) :
    (sound word (start + k)).value = (sound word start).value.shift k := by
  unfold sound
  split
  · simp only [Node.shift, span_add]
  · exact literal_add word start k

theorem option_add (text : List Char) (start k : Int) :
    (option text (start + k)).value = (option text start).value.shift k := by
  unfold option
  split
  · simp only [Node.shift, span_add]
  · split
    · simp only [Node.shift, span_add]
    · exact sound_add text start k

/-- The controls of a word, and whether it reads to its end, do not depend on where it starts. -/
theorem readControls_eq (start other : Int) (controls : Controls Float)
    (notices others : List Notice)
    (segments : List Segment) :
    (readControls start controls notices segments).1 =
        (readControls other controls others segments).1 ∧
      (readControls start controls notices segments).2.2 =
        (readControls other controls others segments).2.2 := by
  induction segments generalizing controls notices others with
  | nil => exact ⟨rfl, rfl⟩
  | cons segment rest ih =>
      simp only [readControls]
      split
      · exact ih controls notices others
      · split
        · split
          · exact ih _ notices others
          · exact ih controls _ _
        · exact ⟨rfl, rfl⟩

theorem isLeaf_sound (word : List Char) (start : Int) :
    (sound word start).value.IsLeaf ∧ (sound word start).value.span? = some (span word start) ∧
      (sound word start).value.isElongation = false := by
  unfold sound
  split
  · exact ⟨trivial, rfl, rfl⟩
  · exact ⟨trivial, rfl, rfl⟩

theorem isLeaf_option (text : List Char) (start : Int) :
    (option text start).value.IsLeaf ∧ (option text start).value.span? = some (span text start) ∧
      (option text start).value.isElongation = false := by
  unfold option
  split
  · exact ⟨trivial, rfl, rfl⟩
  · split
    · exact ⟨trivial, rfl, rfl⟩
    · exact isLeaf_sound text start

/-- The options of a choice: one leaf for each segment that is not empty. -/
def optionNodes (start : Int) (segments : List Segment) : List (Node Float) :=
  (segments.filter fun segment => !segment.text.isEmpty).map fun segment =>
    (option segment.text (start + segment.offset)).value

theorem optionNodes_add (start k : Int) (segments : List Segment) :
    optionNodes (start + k) segments = (optionNodes start segments).map (Node.shift k) := by
  simp only [optionNodes, List.map_map]
  congr 1
  funext segment
  rw [Int.add_right_comm]
  exact option_add segment.text (start + segment.offset) k

/-- What a choice comes to depends on how many options there are. -/
theorem choice_value (word : List Char) (start : Int) (segments : List Segment) :
    (choice word start segments).value =
      match optionNodes start segments with
      | [] => (literal word start).value
      | [single] => single.withSpan (span word start)
      | options => .choice options (span word start) := by
  unfold choice optionNodes
  simp only [List.map_map]
  cases segments.filter fun segment => !segment.text.isEmpty with
  | nil => rfl
  | cons first rest =>
      cases rest with
      | nil => rfl
      | cons second rest => simp

theorem isLeaf_of_mem_optionNodes {segments : List Segment} {n : Node Float}
    (hn : n ∈ optionNodes start segments) : n.IsLeaf ∧ n.isElongation = false := by
  obtain ⟨segment, -, rfl⟩ := List.mem_map.mp hn
  obtain ⟨hleaf, -, helongation⟩ := isLeaf_option segment.text (start + segment.offset)
  exact ⟨hleaf, helongation⟩

theorem choice_add (word : List Char) (start k : Int) (segments : List Segment) :
    (choice word (start + k) segments).value = (choice word start segments).value.shift k := by
  rw [choice_value, choice_value, optionNodes_add, span_add]
  cases hoptions : optionNodes start segments with
  | nil => exact literal_add word start k
  | cons first rest =>
      cases rest with
      | nil => exact Node.shift_withSpan first k (span word start)
      | cons second rest => simp [Node.shift]

theorem controlled_add (word : List Char) (start k : Int) (head : List Char) (rest : List Segment) :
    (controlled word (start + k) head rest).value =
      (controlled word start head rest).value.shift k := by
  unfold controlled
  split
  · exact literal_add word start k
  · obtain ⟨hcontrols, hends⟩ := readControls_eq (start + k) start [] [] [] rest
    rcases hmoved : readControls (start + k) [] [] rest with ⟨controls, notices, ends⟩
    rcases hread : readControls start [] [] rest with ⟨others, later, stops⟩
    rw [hmoved, hread] at hcontrols hends
    cases hcontrols
    cases hends
    cases ends with
    | true => simp only [Node.shift, span_add]
    | false => exact literal_add word start k

theorem isLeaf_controlled (word : List Char) (start : Int) (head : List Char)
    (rest : List Segment) :
    (controlled word start head rest).value.IsLeaf ∧
      (controlled word start head rest).value.span? = some (span word start) ∧
      (controlled word start head rest).value.isElongation = false := by
  unfold controlled
  split
  · exact ⟨trivial, rfl, rfl⟩
  · split
    · exact ⟨trivial, rfl, rfl⟩
    · exact ⟨trivial, rfl, rfl⟩

theorem choice_cases (word : List Char) (start : Int) (segments : List Segment) :
    ((choice word start segments).value.IsLeaf ∧
      (choice word start segments).value.span? = some (span word start) ∧
      (choice word start segments).value.isElongation = false) ∨
    (choice word start segments).value =
      .choice (optionNodes start segments) (span word start) := by
  rw [choice_value]
  cases hoptions : optionNodes start segments with
  | nil => exact .inl ⟨trivial, rfl, rfl⟩
  | cons first rest =>
      cases rest with
      | nil =>
          have hfirst : first ∈ optionNodes start segments := by simp [hoptions]
          obtain ⟨hleaf, helongation⟩ := isLeaf_of_mem_optionNodes hfirst
          left
          refine ⟨Node.isLeaf_withSpan hleaf _, Node.span?_withSpan hleaf _, ?_⟩
          rwa [Node.isElongation_withSpan]
      | cons second rest => exact .inr rfl

/-- A word that starts further along has the same node further along. -/
theorem read_add (word : List Char) (start k : Int) :
    (read word (start + k)).value = (read word start).value.shift k := by
  unfold read
  split
  · simp only [Node.shift, span_add]
  · split
    · simp only [Node.shift, span_add]
    · split
      · simp only [Node.shift, span_add]
      · split
        · unfold piped
          split
          · exact controlled_add word start k _ _
          · exact choice_add word start k _
        · exact sound_add word start k

/-- A node with the span of its word: a leaf, or a choice between the segments of the word. Only
the mark of an elongation makes one. -/
theorem read_cases (word : List Char) (start : Int) :
    ((read word start).value.IsLeaf ∧ (read word start).value.span? = some (span word start) ∧
      ((read word start).value.isElongation = true → word = elongationMark)) ∨
    (read word start).value =
      .choice (optionNodes start (splitTopLevel '|' word)) (span word start) := by
  unfold read
  split
  · exact .inl ⟨trivial, rfl, by simp [Node.isElongation]⟩
  split
  · next hmark => exact .inl ⟨trivial, rfl, fun _ => hmark⟩
  split
  · exact .inl ⟨trivial, rfl, by simp [Node.isElongation]⟩
  split
  · next head second rest hsplit =>
      rw [hsplit, piped]
      split
      · obtain ⟨hleaf, hspan, helongation⟩ :=
          isLeaf_controlled word start head.text (second :: rest)
        exact .inl ⟨hleaf, hspan, by simp [helongation]⟩
      · rcases choice_cases word start (head :: second :: rest) with hleaf | hchoice
        · obtain ⟨hleaf, hspan, helongation⟩ := hleaf
          exact .inl ⟨hleaf, hspan, by simp [helongation]⟩
        · exact .inr hchoice
  · obtain ⟨hleaf, hspan, helongation⟩ := isLeaf_sound word start
    exact .inl ⟨hleaf, hspan, by simp [helongation]⟩

/-- The span of the node of a word is the word. -/
theorem span?_read (word : List Char) (start : Int) :
    (read word start).value.span? = some (span word start) := by
  rcases read_cases word start with ⟨-, hspan, -⟩ | hchoice
  · exact hspan
  · rw [hchoice]
    rfl

theorem eq_elongationMark_of_isElongation {word : List Char} {start : Int}
    (hread : (read word start).value.isElongation = true) : word = elongationMark := by
  rcases read_cases word start with ⟨-, -, hmark⟩ | hchoice
  · exact hmark hread
  · rw [hchoice] at hread
    cases hread

/-- The texts between the delimiters, with the delimiters between them. -/
def joined (delimiter : Char) : List (List Char) → List Char
  | [] => []
  | [last] => last
  | first :: second :: rest => first ++ delimiter :: joined delimiter (second :: rest)

theorem joined_consFirst (delimiter c : Char) {texts : List (List Char)} (htexts : texts ≠ []) :
    joined delimiter (consFirst c texts) = c :: joined delimiter texts := by
  match texts with
  | [last] => rfl
  | first :: second :: rest => rfl

theorem splitTexts_ne_nil (delimiter : Char) (depth : Nat) (cs : List Char) :
    splitTexts delimiter depth cs ≠ [] := by
  cases cs with
  | nil => simp [splitTexts]
  | cons c rest =>
      have hcons : ∀ texts, consFirst c texts ≠ [] := by
        intro texts
        cases texts <;> simp [consFirst]
      rw [splitTexts]
      split
      · exact hcons _
      · split
        · exact hcons _
        · split
          · simp
          · exact hcons _

/-- Splitting a text at a delimiter loses nothing. -/
theorem joined_splitTexts (delimiter : Char) (depth : Nat) (cs : List Char) :
    joined delimiter (splitTexts delimiter depth cs) = cs := by
  induction cs generalizing depth with
  | nil => rfl
  | cons c rest ih =>
      have hcons : ∀ d,
          joined delimiter (consFirst c (splitTexts delimiter d rest)) = c :: rest := by
        intro d
        rw [joined_consFirst delimiter c (splitTexts_ne_nil delimiter d rest), ih]
      rw [splitTexts]
      split
      · exact hcons _
      · split
        · exact hcons _
        · split
          · next hdelimiter =>
              have hne := splitTexts_ne_nil delimiter 0 rest
              have hrest := ih 0
              cases htexts : splitTexts delimiter 0 rest with
              | nil => exact absurd htexts hne
              | cons first others =>
                  rw [htexts] at hrest
                  rw [joined, hrest, hdelimiter.1, List.nil_append]
          · exact hcons _

/-- A segment in front tiles the stretch of its text. -/
theorem tiles_optionNodes_cons {gap : Nat → Prop} {o stop : Nat} {first : List Char} {place : Nat}
    {segments : List Segment}
    (htiles : Node.Tiles gap (o + place + first.length) stop (optionNodes o segments)) :
    Node.Tiles gap (o + place) stop (optionNodes o (⟨first, place⟩ :: segments)) := by
  by_cases hempty : first = []
  · simpa [optionNodes, hempty] using htiles
  · have hspan := (isLeaf_option first (o + place : Nat)).2.1
    have hpositive := List.length_pos_iff.mpr hempty
    have hnodes : optionNodes o (⟨first, place⟩ :: segments) =
        (option first (o + place : Nat)).value :: optionNodes o segments := by
      simp [optionNodes, hempty]
    rw [hnodes]
    exact Node.Tiles.cons hspan (by omega) htiles

/-- The options of a choice tile the word, and the gaps are its bars. -/
theorem tiles_optionNodes {cs after : List Char} {texts : List (List Char)} {place : Nat} (o : Nat)
    (htexts : texts ≠ []) (hdrop : cs.drop (o + place) = joined '|' texts ++ after) :
    Node.Tiles (fun i => cs[i]? = some '|') (o + place) (o + place + (joined '|' texts).length)
      (optionNodes o (placeSegments place texts)) := by
  induction texts generalizing place with
  | nil => contradiction
  | cons first rest ih =>
      cases rest with
      | nil =>
          apply tiles_optionNodes_cons
          exact ⟨Nat.le_refl _, fun i hlow hhigh => absurd hhigh (by simpa [joined] using hlow)⟩
      | cons second rest =>
          have hbar : cs.drop (o + place + first.length) =
              '|' :: (joined '|' (second :: rest) ++ after) := by
            calc
              _ = (joined '|' (first :: second :: rest) ++ after).drop first.length := by
                rw [← List.drop_drop, hdrop]
              _ = '|' :: (joined '|' (second :: rest) ++ after) := by
                rw [joined, List.append_assoc, List.drop_left, List.cons_append]
          have hgap : cs[o + place + first.length]? = some '|' := by
            rw [← List.head?_drop, hbar]
            rfl
          have hnext : cs.drop (o + (place + first.length + 1)) =
              joined '|' (second :: rest) ++ after := by
            rw [show o + (place + first.length + 1) = o + place + first.length + 1 by omega,
              ← List.drop_drop, hbar]
            rfl
          have hrest := ih (by simp) hnext
          have hstop : o + place + (joined '|' (first :: second :: rest)).length =
              o + (place + first.length + 1) + (joined '|' (second :: rest)).length := by
            rw [joined, List.length_append, List.length_cons]
            omega
          rw [hstop]
          apply tiles_optionNodes_cons
          apply Node.Tiles.of_gap hgap
          rwa [show o + place + first.length + 1 = o + (place + first.length + 1) by omega]

end Word

end CyclePattern
