/-
# Grouping is neutral

Brackets around a pattern, with no number after them, change nothing in what is played. Brackets
around several patterns play all of them at once, in the order in which they were written. It makes
no difference whether the brackets are square or curly: a subdivision of one repeat, a stack and a
group without steps all hand their whole window on, and so does a sequence of one item.
-/

import CyclePattern.Cycle
import CyclePattern.Proofs.Grammar.Enclosure
import CyclePattern.Proofs.Performance.Relocation

namespace CyclePattern

namespace Node

/-- The whole cycle divided by one is the whole cycle. -/
theorem split_wholeCycle : (wholeCycle : Window Float).split 1 = .ok [wholeCycle] := by
  decide +kernel

/-- An item by itself has all of the cycle. -/
theorem layout_single (n : Node Float) :
    layout (Measure.sum [Measure.one]) wholeCycle.duration wholeCycle.start [(n, Measure.one)] =
      [(n, wholeCycle)] := by
  have hshare : Measure.one / Measure.sum [Measure.one] * (wholeCycle : Window Float).duration =
      Measure.one := by
    decide +kernel
  rw [layout, hshare]
  rfl

theorem perform_single {n : Node Float} (hitem : n.asItem = n)
    (hweight : n.ownWeight = Measure.one) :
    (sequence [n]).perform wholeCycle = n.perform wholeCycle := by
  apply perform_of_single
  · rw [parts_single hitem hweight, layout_single]
  · rfl
  · exact fun _ => rfl

theorem perform_subdivision (inner : Node Float) (span : Span) :
    (subdivision inner none none none span).perform wholeCycle = inner.perform wholeCycle := by
  apply perform_of_single
  · have hcount : countOf none = 1 := rfl
    rw [parts, repeatedParts, hcount, split_wholeCycle]
    rfl
  · rfl
  · exact fun _ => rfl

section

variable {α : Type} [Measure α] (groups : List (Node α)) (window : Window α)

/-- Patterns in a stack are played in turn, all in the same window. -/
theorem perform_stack :
    (stack groups).perform window = groups.flatMapM fun group => group.perform window := by
  have hparts : (stack groups).parts window = .ok (groups.map fun group => (group, window)) := rfl
  rw [perform_of_plain hparts rfl fun _ => rfl, flatMapM_comp]

/-- So are patterns in a group without steps. -/
theorem perform_polymetric (span : Span) :
    (polymetric groups none span).perform window =
      groups.flatMapM fun group => group.perform window := by
  have hparts : (polymetric groups none span).parts window =
      .ok (groups.map fun group => (group, window)) := rfl
  rw [perform_of_plain hparts rfl fun _ => rfl, flatMapM_comp]

end

/-- A group with no number after it plays each of its sequences as the sequence would be played by
itself. -/
theorem perform_groupNode {b : Bracket} (hholds : b.holdsGroups = true)
    (groups : List (List (Node Float))) (span : Span) :
    (sequence [groupNode b groups .none span]).perform wholeCycle =
      groups.flatMapM fun group => (sequence group).perform wholeCycle := by
  cases b with
  | square =>
      have hinner : ∀ inner, groupNode .square groups .none span =
            subdivision inner none none none span →
          (sequence [groupNode .square groups .none span]).perform wholeCycle =
            inner.perform wholeCycle := by
        intro inner hgroup
        rw [hgroup, perform_single rfl rfl, perform_subdivision]
      -- One pattern stands in the brackets as it is, any other number of them as a stack.
      match groups with
      | [] => exact (hinner (stack []) rfl).trans (perform_stack [] wholeCycle)
      | [single] => rw [hinner (sequence single) rfl, flatMapM_singleton]
      | first :: second :: others =>
          rw [hinner _ rfl, perform_stack, flatMapM_comp]
  | angle => cases hholds
  | curly =>
      rw [groupNode, perform_single rfl rfl]
      exact (perform_polymetric _ _ span).trans (flatMapM_comp _ groups)

end Node

namespace Reading

variable {limit : Int} {texts : List (List Char)} {read : List (List (Node Float))} {b : Bracket}

/-- Patterns in a pair of square or curly brackets, with commas between them, are read whenever each
of them is, and play what each of them plays by itself. Only the places in the text differ, by the
place of the pattern in the new one. If one of them cannot be played, the first that cannot is why
the group cannot. -/
theorem perform_enclosed (hlimit : 1 ≤ limit) (hholds : b.holdsGroups = true)
    (hread : List.Forall₂ (fun cs items => (ofText (limit - 1) 0 0 cs).result = .ok items)
      texts read)
    (hsome : texts ≠ []) (hclosed : ∀ cs ∈ texts.dropLast, ¬ EndsInParenthesis cs) :
    ∃ items, (ofText limit 0 0 (enclosed b texts)).result = .ok items ∧
      (Node.sequence items).perform wholeCycle =
        ((placeSegments 1 texts).zip read).flatMapM fun placed =>
          ((Node.sequence placed.2).perform wholeCycle).map
            (List.map (Event.shift placed.1.offset)) := by
  refine ⟨_, result_enclosed hlimit hholds hread hsome hclosed, ?_⟩
  rw [Node.perform_groupNode hholds, placedItems, flatMapM_comp]
  apply flatMapM_congr
  intro placed _
  rw [← Node.perform_shift, Node.shift, Node.shiftAll_eq_map]

/-- The letters `a` and `a` in one pair of brackets, at offsets 1 and 3. -/
theorem perform_enclosed_of_letters :
    ∃ items, (ofText 1 0 0 ['[', 'a', ',', 'a', ']']).result = .ok items ∧
      (Node.sequence items).perform wholeCycle =
        ([(⟨['a'], 1⟩, [(Word.read ['a'] 0).value]), (⟨['a'], 3⟩, [(Word.read ['a'] 0).value])] :
            List (Segment × List (Node Float))).flatMapM fun placed =>
          ((Node.sequence placed.2).perform wholeCycle).map
            (List.map (Event.shift placed.1.offset)) := by
  have htokens : tokens ['a'] = [.word ['a']] := by decide +kernel
  have hletter : (ofText 0 0 0 ['a']).result = .ok [(Word.read ['a'] 0).value] := by
    rw [ofText, htokens]
    simp (disch := decide) only [ofTokens, Progress.step_word]
    rfl
  have hclosed : ¬ EndsInParenthesis ['a'] := by
    rintro ⟨word, hword, hopen⟩
    rw [htokens] at hword
    cases hword
    exact absurd hopen (by decide)
  exact perform_enclosed (b := .square) (Int.le_refl 1) rfl (.cons hletter (.cons hletter .nil))
    (List.cons_ne_nil _ _) (by simpa using hclosed)

end Reading

end CyclePattern
