/-
# How much a tree was written with

A tree counts as many words and groups as it was written with, and the options of a choice besides.
Each of them took a character of its own: a group its opener, an option a letter, and the word of a
choice the bar between its first two options.
-/

import CyclePattern.Proofs.Grammar.Location
import CyclePattern.Proofs.Lexing.Segment
import CyclePattern.Proofs.Tree.WellFormed

namespace CyclePattern

namespace Node

variable {α : Type}

mutual

/-- Number of words and groups that a node was written with. The options of a choice count besides
their word. -/
def writtenCount : Node α → Nat
  | .atom _ _ | .rest _ | .elongation _ | .harmony _ _ _ => 1
  | .sequence children => writtenCountOf children
  | .stack groups => writtenCountOf groups
  | .subdivision inner _ _ _ _ => inner.writtenCount + 1
  | .alternation options _ _ _ => writtenCountOf options + 1
  | .polymetric groups _ _ => writtenCountOf groups + 1
  | .choice options _ => writtenCountOf options + 1
  | .empty => 0

/-- Number of words and groups that some nodes were written with. -/
def writtenCountOf : List (Node α) → Nat
  | [] => 0
  | n :: ns => n.writtenCount + writtenCountOf ns

end

theorem writtenCountOf_append (ns ms : List (Node α)) :
    writtenCountOf (ns ++ ms) = writtenCountOf ns + writtenCountOf ms := by
  induction ns with
  | nil => simp [writtenCountOf]
  | cons n ns ih => rw [List.cons_append, writtenCountOf, ih, writtenCountOf, Nat.add_assoc]

theorem writtenCount_of_isLeaf {n : Node α} (hleaf : n.IsLeaf) : n.writtenCount = 1 := by
  cases n <;> first | rfl | cases hleaf

theorem writtenCountOf_of_isLeaf {ns : List (Node α)} (hleaves : ∀ n ∈ ns, n.IsLeaf) :
    writtenCountOf ns = ns.length := by
  induction ns with
  | nil => rfl
  | cons n ns ih =>
      obtain ⟨hn, hrest⟩ := List.forall_mem_cons.mp hleaves
      rw [writtenCountOf, writtenCount_of_isLeaf hn, ih hrest, List.length_cons, Nat.add_comm]

theorem writtenCountOf_filter_le (p : Node α → Bool) (ns : List (Node α)) :
    writtenCountOf (ns.filter p) ≤ writtenCountOf ns := by
  induction ns with
  | nil => exact Nat.le_refl _
  | cons n ns ih =>
      rw [List.filter_cons, writtenCountOf]
      split
      · rw [writtenCountOf]
        exact Nat.add_le_add_left ih _
      · exact ih.trans (Nat.le_add_left _ _)

theorem writtenCountOf_map_sequence (groups : List (List (Node α))) :
    writtenCountOf (groups.map .sequence) = writtenCountOf groups.flatten := by
  induction groups with
  | nil => rfl
  | cons g groups ih =>
      calc
        _ = writtenCountOf g + writtenCountOf (groups.map .sequence) := by
          rw [List.map_cons, writtenCountOf, writtenCount]
        _ = writtenCountOf g + writtenCountOf groups.flatten := by rw [ih]
        _ = writtenCountOf (g :: groups).flatten := by
          rw [List.flatten_cons, writtenCountOf_append]

end Node

open Node

/-- A group counts one more than what stands in it, or less: an alternation drops its
elongations. -/
theorem writtenCount_groupNode_le (b : Bracket) (groups : List (List (Node Float)))
    (settings : GroupSettings) (span : Span) :
    (groupNode b groups settings span).writtenCount ≤ writtenCountOf groups.flatten + 1 := by
  cases b with
  | square =>
      rw [Piece.groupNode_square, writtenCount]
      rcases Piece.innerOf_cases groups with ⟨single, rfl, hsingle⟩ | hstack
      · simp [hsingle, writtenCount]
      · rw [hstack, writtenCount, writtenCountOf_map_sequence]
  | angle =>
      rw [groupNode, writtenCount]
      exact Nat.succ_le_succ (writtenCountOf_filter_le _ _)
  | curly => rw [groupNode, writtenCount, writtenCountOf_map_sequence]

namespace Word

/-- Each option takes a character, and so does each bar between two segments. -/
theorem length_optionNodes_le {texts : List (List Char)} (htexts : texts ≠ []) (start : Int)
    (place : Nat) :
    (optionNodes start (placeSegments place texts)).length + texts.length ≤
      (joined '|' texts).length + 1 := by
  induction texts generalizing place with
  | nil => contradiction
  | cons first rest ih =>
      have hfirst : ∀ segments, (optionNodes start (⟨first, place⟩ :: segments)).length ≤
          (optionNodes start segments).length + first.length := by
        intro segments
        by_cases hempty : first = []
        · simp [optionNodes, hempty]
        · have hpos := List.length_pos_iff.mpr hempty
          simp only [optionNodes, List.length_map]
          grind
      have hsegments := hfirst (placeSegments (place + first.length + 1) rest)
      rw [placeSegments]
      cases rest with
      | nil => simpa [optionNodes, placeSegments, joined] using hsegments
      | cons second rest =>
          have hrest := ih (by simp) (place + first.length + 1)
          simp only [joined, List.length_append, List.length_cons] at hrest hsegments ⊢
          omega

theorem length_optionNodes_le_length (start : Int) (segments : List Segment) :
    (optionNodes start segments).length ≤ segments.length := by
  rw [optionNodes, List.length_map]
  exact List.length_filter_le _ _

/-- A word is at least as long as it counts. -/
theorem writtenCount_read_le {word : List Char} (hword : word ≠ []) (start : Int) :
    (read word start).value.writtenCount ≤ word.length := by
  rcases read_cases word start with ⟨hleaf, -, -⟩ | hchoice
  · rw [writtenCount_of_isLeaf hleaf]
    exact List.length_pos_iff.mpr hword
  · have hformed := wellFormed_read hword start
    rw [hchoice] at hformed ⊢
    have htwo : 2 ≤ (optionNodes start (splitTopLevel '|' word)).length := hformed.1
    have hoptions := length_optionNodes_le (splitTexts_ne_nil '|' 0 word) start 0
    have htexts := length_optionNodes_le_length start (splitTopLevel '|' word)
    rw [joined_splitTexts] at hoptions
    rw [splitTopLevel] at htwo htexts ⊢
    have hplaced : (placeSegments 0 (splitTexts '|' 0 word)).length =
        (splitTexts '|' 0 word).length := by
      rw [← List.length_map (f := Segment.text), map_text_placeSegments]
    rw [writtenCount, writtenCountOf_of_isLeaf fun n hn => (isLeaf_of_mem_optionNodes hn).1]
    omega

end Word

end CyclePattern
