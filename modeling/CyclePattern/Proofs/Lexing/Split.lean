/-
# Splitting a word outside its parentheses

A word is split at the delimiters that stand where none of its parentheses is open. Nothing is lost:
with the delimiter between them the segments are the word again, and each starts where the word
does or after such a delimiter. A segment that is split again is left whole, so what is said of a
word without such a delimiter can be said of every segment of any word.

A closing parenthesis with nothing to close changes nothing. So no parenthesis is open where a
segment starts, and it can be read without regard to what stands before it. An opening parenthesis
is no delimiter, since it is taken for a parenthesis first.
-/

import CyclePattern.Proofs.Lexing.Place
import CyclePattern.Proofs.Tree.WordNode

namespace CyclePattern

open Text

variable {delimiter : Char} {depth : Nat} {word : List Char}

/-- A character is put in front of the first segment, unless it is a delimiter outside
parentheses. -/
theorem splitTexts_cons (hopen : delimiter ≠ '(') (depth : Nat) (c : Char) (rest : List Char) :
    splitTexts delimiter depth (c :: rest) =
      if c = delimiter ∧ depth = 0 then [] :: splitTexts delimiter 0 rest
      else consFirst c (splitTexts delimiter (openAfterChar depth c) rest) := by
  rw [splitTexts, openAfterChar]
  by_cases hc : c = '('
  · subst hc
    simp [hopen.symm]
  · by_cases hclose : c = ')'
    · subst hclose
      rcases Nat.eq_zero_or_pos depth with rfl | hpos
      · simp
      · simp [hpos, hpos.ne']
    · simp [hc, hclose]

theorem exists_splitTexts_eq (delimiter : Char) (depth : Nat) (cs : List Char) :
    ∃ first others, splitTexts delimiter depth cs = first :: others :=
  List.exists_cons_of_ne_nil (Word.splitTexts_ne_nil delimiter depth cs)

/-- Places of a delimiter outside the parentheses of a word, when `depth` of them are open before
it. -/
def placesOutside (delimiter : Char) (depth : Nat) (word : List Char) : List Nat :=
  (List.range word.length).filter fun i =>
    word[i]? == some delimiter && (word.take i).foldl openAfterChar depth == 0

theorem placesOutside_cons (delimiter : Char) (depth : Nat) (c : Char) (rest : List Char) :
    placesOutside delimiter depth (c :: rest) =
      (if c = delimiter ∧ depth = 0 then [0] else []) ++
        (placesOutside delimiter (openAfterChar depth c) rest).map (· + 1) := by
  have hlater : (fun i => (c :: rest)[i]? == some delimiter &&
      ((c :: rest).take i).foldl openAfterChar depth == 0) ∘ Nat.succ =
      fun i => rest[i]? == some delimiter &&
        (rest.take i).foldl openAfterChar (openAfterChar depth c) == 0 := by
    funext i
    simp
  rw [placesOutside, List.length_cons, List.range_succ_eq_map, List.filter_cons, List.filter_map,
    hlater]
  by_cases hc : c = delimiter ∧ depth = 0
  · simp [hc, placesOutside]
  · simp [hc, placesOutside]

theorem map_text_placeSegments (offset : Nat) (texts : List (List Char)) :
    (placeSegments offset texts).map Segment.text = texts := by
  induction texts generalizing offset with
  | nil => rfl
  | cons first others ih => rw [placeSegments, List.map_cons, ih]

/-- The segments after the first start one character after the delimiters. -/
theorem map_offset_placeSegments (hopen : delimiter ≠ '(') (offset depth : Nat)
    (cs : List Char) :
    (placeSegments offset (splitTexts delimiter depth cs)).map Segment.offset =
      offset :: (placesOutside delimiter depth cs).map (offset + · + 1) := by
  induction cs generalizing offset depth with
  | nil => rfl
  | cons c rest ih =>
      have hplaces : ∀ places : List Nat,
          (places.map (· + 1)).map (offset + · + 1) = places.map (offset + 1 + · + 1) := by
        intro places
        rw [List.map_map]
        congr 1
        funext i
        simp only [Function.comp_apply]
        omega
      rw [splitTexts_cons hopen, placesOutside_cons]
      by_cases hc : c = delimiter ∧ depth = 0
      · obtain ⟨rfl, rfl⟩ := hc
        have hdepth : openAfterChar 0 c = 0 := by simp [openAfterChar, hopen]
        rw [if_pos ⟨rfl, rfl⟩, if_pos ⟨rfl, rfl⟩, hdepth, List.map_append, hplaces, placeSegments,
          List.map_cons, ih]
        rfl
      · rw [if_neg hc, if_neg hc, List.nil_append, hplaces]
        obtain ⟨first, others, htexts⟩ :=
          exists_splitTexts_eq delimiter (openAfterChar depth c) rest
        -- the first segment starts one character earlier and ends where it did
        have hrest := ih (offset + 1) (openAfterChar depth c)
        rw [htexts, placeSegments, List.map_cons, List.cons.injEq] at hrest
        have hnext : offset + (c :: first).length + 1 = offset + 1 + first.length + 1 := by
          rw [List.length_cons]
          omega
        rw [htexts, consFirst, placeSegments, List.map_cons, hnext, hrest.2]

theorem joined_eq_intercalate (delimiter : Char) (texts : List (List Char)) :
    Word.joined delimiter texts = [delimiter].intercalate texts := by
  induction texts with
  | nil => rfl
  | cons first others ih =>
      cases others with
      | nil => simp [Word.joined]
      | cons second rest => simp [Word.joined, ih]

/-- A segment stands in the word at its offset. -/
theorem slice_of_mem_placeSegments {texts : List (List Char)} {offset : Nat}
    (hdrop : word.drop offset = Word.joined delimiter texts) {segment : Segment}
    (hsegment : segment ∈ placeSegments offset texts) :
    slice word segment.offset (segment.offset + segment.text.length) = segment.text := by
  induction texts generalizing offset with
  | nil => cases hsegment
  | cons first others ih =>
      rcases List.mem_cons.mp hsegment with rfl | hlater
      · rw [slice, Nat.add_sub_cancel_left, hdrop]
        cases others with
        | nil => rw [Word.joined, List.take_length]
        | cons second rest => rw [Word.joined, List.take_left]
      · cases others with
        | nil => cases hlater
        | cons second rest =>
            apply ih _ hlater
            rw [Nat.add_assoc, ← List.drop_drop, hdrop, Word.joined, ← List.drop_drop,
              List.drop_left]
            rfl

/-- A segment has no delimiter outside its parentheses. Those after the first start where no
parenthesis is open. -/
theorem splitTexts_again (hopen : delimiter ≠ '(') {cs first : List Char}
    {others : List (List Char)} (hsplit : splitTexts delimiter depth cs = first :: others) :
    splitTexts delimiter depth first = [first] ∧
      ∀ text ∈ others, splitTexts delimiter 0 text = [text] := by
  induction cs generalizing depth first others with
  | nil =>
      cases hsplit
      exact ⟨rfl, by simp⟩
  | cons c cs ih =>
      rw [splitTexts_cons hopen] at hsplit
      split at hsplit
      · cases hsplit
        obtain ⟨second, rest, htexts⟩ := exists_splitTexts_eq delimiter 0 cs
        rw [htexts]
        exact ⟨rfl, List.forall_mem_cons.mpr (ih htexts)⟩
      · next hplain =>
          obtain ⟨front, rest, htexts⟩ := exists_splitTexts_eq delimiter (openAfterChar depth c) cs
          obtain ⟨hfront, hrest⟩ := ih htexts
          rw [htexts] at hsplit
          cases hsplit
          refine ⟨?_, hrest⟩
          rw [splitTexts_cons hopen, if_neg hplain, hfront, consFirst]

/-- A segment stands in the word at its offset. -/
theorem slice_of_mem_splitTopLevel {segment : Segment}
    (hsegment : segment ∈ splitTopLevel delimiter word) :
    slice word segment.offset (segment.offset + segment.text.length) = segment.text := by
  have hjoined := Word.joined_splitTexts delimiter 0 word
  exact slice_of_mem_placeSegments (by rw [List.drop_zero, hjoined]) hsegment

/-- A segment of a word is its only segment when it is split again. -/
theorem splitTopLevel_of_mem (hopen : delimiter ≠ '(') {segment : Segment}
    (hsegment : segment ∈ splitTopLevel delimiter word) :
    splitTopLevel delimiter segment.text = [⟨segment.text, 0⟩] := by
  have htext : segment.text ∈ splitTexts delimiter 0 word := by
    rw [← map_text_placeSegments 0 (splitTexts delimiter 0 word)]
    exact List.mem_map_of_mem hsegment
  have hwhole : splitTexts delimiter 0 segment.text = [segment.text] := by
    obtain ⟨first, others, htexts⟩ := exists_splitTexts_eq delimiter 0 word
    have hagain : ∀ text ∈ first :: others, splitTexts delimiter 0 text = [text] :=
      List.forall_mem_cons.mpr (splitTexts_again hopen htexts)
    exact hagain _ (htexts ▸ htext)
  rw [splitTopLevel, hwhole, placeSegments, placeSegments]

/-- A word is split without loss at the delimiters outside its parentheses, and nowhere else. Every
segment stands at its offset, and splitting it again leaves it whole. -/
theorem splitTopLevel_exact (hopen : delimiter ≠ '(') (word : List Char) :
    [delimiter].intercalate ((splitTopLevel delimiter word).map Segment.text) = word ∧
      (∀ segment ∈ splitTopLevel delimiter word,
        slice word segment.offset (segment.offset + segment.text.length) = segment.text) ∧
      (splitTopLevel delimiter word).map Segment.offset =
        0 :: (placesOutside delimiter 0 word).map (· + 1) ∧
      (splitTopLevel delimiter word).length = (placesOutside delimiter 0 word).length + 1 ∧
      ∀ segment ∈ splitTopLevel delimiter word,
        splitTopLevel delimiter segment.text = [⟨segment.text, 0⟩] := by
  have hoffsets : (splitTopLevel delimiter word).map Segment.offset =
      0 :: (placesOutside delimiter 0 word).map (· + 1) := by
    rw [splitTopLevel, map_offset_placeSegments hopen]
    simp
  refine ⟨?_, fun segment => slice_of_mem_splitTopLevel, hoffsets, ?_,
    fun segment => splitTopLevel_of_mem hopen⟩
  · rw [splitTopLevel, map_text_placeSegments, ← joined_eq_intercalate, Word.joined_splitTexts]
  · simpa using congrArg List.length hoffsets

/-- The word `a|(b|c))||(d|` has four segments. The second closes a parenthesis too many, and the
last leaves one open. -/
theorem splitTopLevel_exact_of_unbalanced :
    ['|'].intercalate ((splitTopLevel '|' "a|(b|c))||(d|".toList).map Segment.text) =
        "a|(b|c))||(d|".toList ∧
      (splitTopLevel '|' "a|(b|c))||(d|".toList).map Segment.offset = [0, 2, 9, 10] ∧
      (splitTopLevel '|' "a|(b|c))||(d|".toList).length = 4 ∧
      splitTopLevel '|' "(b|c))".toList = [⟨"(b|c))".toList, 0⟩] := by
  have hplaces : placesOutside '|' 0 "a|(b|c))||(d|".toList = [1, 8, 9] := by decide +kernel
  have hsecond : ⟨"(b|c))".toList, 2⟩ ∈ splitTopLevel '|' "a|(b|c))||(d|".toList := by
    decide +kernel
  obtain ⟨hjoined, -, hoffsets, hlength, hagain⟩ :=
    splitTopLevel_exact (by decide : '|' ≠ '(') "a|(b|c))||(d|".toList
  rw [hplaces] at hoffsets hlength
  exact ⟨hjoined, hoffsets, hlength, hagain _ hsecond⟩

end CyclePattern
