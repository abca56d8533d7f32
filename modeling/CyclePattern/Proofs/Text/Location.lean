/-
# A location tells the offset

Line feeds divide a text into lines. A location names one of them and a place in it, behind its last
character at most. As many characters stand before it as the lines before it have, with a line feed
for each, and the line itself up to the place. So the offset can be told from the location, and an
offset further on has a location further on.

An error in a pattern is reported at a character of the pattern. Its location tells which one.
-/

import CyclePattern.Cycle
import CyclePattern.Proofs.Grammar.Problems
import CyclePattern.Proofs.Performance.Answer
import Mathlib.Data.Prod.Lex
import Mathlib.Order.Interval.Set.Defs

namespace CyclePattern

namespace Text

/-- Number of characters of some lines with a line feed after each of them. -/
def sizeOfLines (lines : List (List Char)) : Nat :=
  (lines.map fun line => line.length + 1).sum

namespace Location

/-- The order of locations in a text: by line, and in a line by column. -/
def order (place : Location) : Nat ×ₗ Nat :=
  toLex (place.line, place.column)

/-- Whether there is such a location in some lines. A line has one more behind its last
character. -/
structure IsIn (place : Location) (lines : List (List Char)) : Prop where
  one_le_line : 1 ≤ place.line
  line_le : place.line ≤ lines.length
  one_le_column : 1 ≤ place.column
  column_le : ∀ line ∈ lines[place.line - 1]?, place.column ≤ line.length + 1

/-- Number of characters before a location, with a line feed after every line before its own. -/
def offsetIn (place : Location) (lines : List (List Char)) : Nat :=
  sizeOfLines (lines.take (place.line - 1)) + (place.column - 1)

theorem order_lt_order_next (place : Location) (c : Char) : place.order < (place.next c).order := by
  rw [order, order, Prod.Lex.toLex_lt_toLex, next]
  split
  · exact .inl (Nat.lt_succ_self place.line)
  · exact .inr ⟨rfl, Nat.lt_succ_self place.column⟩

theorem order_le_order_foldl (place : Location) (cs : List Char) :
    place.order ≤ (cs.foldl next place).order := by
  induction cs generalizing place with
  | nil => exact le_rfl
  | cons c rest ih => exact (place.order_lt_order_next c).le.trans (ih (place.next c))

theorem order_lt_order_foldl (place : Location) {cs : List Char} (hcs : cs ≠ []) :
    place.order < (cs.foldl next place).order := by
  cases cs with
  | nil => contradiction
  | cons c rest =>
      exact (place.order_lt_order_next c).trans_le ((place.next c).order_le_order_foldl rest)

end Location

variable {cs : List Char}

theorem locate_natCast (cs : List Char) (n : Nat) :
    locate cs n = (cs.take n).foldl Location.next ⟨1, 1⟩ :=
  rfl

/-- An offset further on has a location further on. -/
theorem order_locate_lt {n m : Nat} (hlt : n < m) (hm : m ≤ cs.length) :
    (locate cs n).order < (locate cs m).order := by
  obtain ⟨size, rfl⟩ := Nat.exists_eq_add_of_lt hlt
  have hmore : (cs.drop n).take (size + 1) ≠ [] := by
    apply List.ne_nil_of_length_pos
    rw [List.length_take, List.length_drop]
    omega
  rw [locate_natCast, locate_natCast, Nat.add_assoc, List.take_add, List.foldl_append]
  exact Location.order_lt_order_foldl _ hmore

theorem strictMonoOn_locate (cs : List Char) :
    StrictMonoOn (fun offset : Int => (locate cs offset).order) (Set.Icc 0 cs.length) := by
  intro offset hoffset other hother hlt
  obtain ⟨n, rfl⟩ := Int.eq_ofNat_of_zero_le hoffset.1
  obtain ⟨m, rfl⟩ := Int.eq_ofNat_of_zero_le hother.1
  exact order_locate_lt (Int.ofNat_lt.mp hlt) (Int.ofNat_le.mp hother.2)

theorem splitOn_feed_cons (cs : List Char) :
    ('\n' :: cs).splitOn '\n' = [] :: cs.splitOn '\n' := by
  rw [List.splitOn_cons_eq_if_modifyHead, if_pos (beq_self_eq_true '\n')]

theorem splitOn_cons_of_ne {c : Char} (hc : c ≠ '\n') {line : List Char} {rest : List (List Char)}
    (hlines : cs.splitOn '\n' = line :: rest) : (c :: cs).splitOn '\n' = (c :: line) :: rest := by
  rw [List.splitOn_cons_eq_if_modifyHead, if_neg (by simpa using hc), hlines, List.modifyHead_cons]

theorem sizeOfLines_cons (line : List Char) (lines : List (List Char)) :
    sizeOfLines (line :: lines) = line.length + 1 + sizeOfLines lines := by
  rw [sizeOfLines, List.map_cons, List.sum_cons, sizeOfLines]

/-- Before an offset stand some whole lines and the first characters of another one. Reading up to
there counts these lines, and the characters since the last of them. -/
theorem exists_lines_before {n : Nat} (hn : n ≤ cs.length) :
    ∃ before line after size,
      cs.splitOn '\n' = before ++ line :: after ∧ size ≤ line.length ∧
        n = sizeOfLines before + size ∧
        ∀ start : Location, (cs.take n).foldl Location.next start =
          ⟨start.line + before.length, (if before = [] then start.column else 1) + size⟩ := by
  induction cs generalizing n with
  | nil =>
      cases Nat.le_zero.mp hn
      exact ⟨[], [], [], 0, rfl, Nat.le_refl 0, rfl, fun _ => rfl⟩
  | cons c rest ih =>
      cases n with
      | zero =>
          obtain ⟨line, after, hlines⟩ :=
            List.exists_cons_of_ne_nil (List.splitOn_ne_nil '\n' (c :: rest))
          exact ⟨[], line, after, 0, hlines, Nat.zero_le _, rfl, fun _ => rfl⟩
      | succ n =>
          obtain ⟨before, line, after, size, hlines, hsize, hcount, hread⟩ :=
            ih (Nat.le_of_succ_le_succ hn)
          have hnext : ∀ start : Location, ((c :: rest).take (n + 1)).foldl Location.next start =
              ⟨(start.next c).line + before.length,
                (if before = [] then (start.next c).column else 1) + size⟩ :=
            fun start => hread (start.next c)
          by_cases hc : c = '\n'
          · subst hc
            refine ⟨[] :: before, line, after, size, ?_, hsize, ?_, ?_⟩
            · rw [splitOn_feed_cons, hlines, List.cons_append]
            · rw [sizeOfLines_cons, hcount, List.length_nil]
              omega
            · intro start
              rw [hnext, Location.next, if_pos rfl]
              simp [Nat.add_assoc, Nat.add_comm 1]
          · -- The character belongs to the first line, which is a whole one if there is any.
            cases before with
            | nil =>
                refine ⟨[], c :: line, after, size + 1, splitOn_cons_of_ne hc hlines,
                  Nat.succ_le_succ hsize, congrArg (· + 1) hcount, ?_⟩
                intro start
                rw [hnext, Location.next, if_neg hc]
                simp [Nat.add_assoc, Nat.add_comm 1]
            | cons first others =>
                refine ⟨(c :: first) :: others, line, after, size, splitOn_cons_of_ne hc hlines,
                  hsize, ?_, ?_⟩
                · rw [hcount, sizeOfLines_cons, sizeOfLines_cons, List.length_cons]
                  omega
                · intro start
                  rw [hnext, Location.next, if_neg hc]
                  simp

/-- A location is in the lines of the text, and as many characters are before it as before the
offset. -/
theorem isIn_locate_and_offsetIn {n : Nat} (hn : n ≤ cs.length) :
    (locate cs n).IsIn (cs.splitOn '\n') ∧ (locate cs n).offsetIn (cs.splitOn '\n') = n := by
  obtain ⟨before, line, after, size, hlines, hsize, hcount, hread⟩ := exists_lines_before hn
  have hplace : locate cs n = ⟨before.length + 1, size + 1⟩ := by
    rw [locate_natCast, hread]
    simp [Nat.add_comm]
  rw [hplace, hlines]
  constructor
  · constructor
    · exact Nat.le_add_left 1 before.length
    · simp
    · exact Nat.le_add_left 1 size
    · intro found hfound
      rw [Nat.add_sub_cancel, List.getElem?_append_right (Nat.le_refl _), Nat.sub_self] at hfound
      cases hfound
      exact Nat.succ_le_succ hsize
  · rw [Location.offsetIn, Nat.add_sub_cancel, Nat.add_sub_cancel, List.take_left, hcount]

/-- No two offsets of a text have the same location. -/
theorem injOn_locate (cs : List Char) : Set.InjOn (locate cs) (Set.Icc 0 cs.length) := by
  intro offset hoffset other hother hsame
  exact (strictMonoOn_locate cs).injOn hoffset hother (congrArg Location.order hsame)

theorem locate_of_neg {offset : Int} (hoffset : offset < 0) : locate cs offset = locate cs 0 := by
  rw [locate, locate, Int.toNat_of_nonpos hoffset.le, Int.toNat_zero]

theorem locate_of_length_lt {offset : Int} (hoffset : cs.length < offset) :
    locate cs offset = locate cs cs.length := by
  have hle : cs.length ≤ offset.toNat := by omega
  rw [locate, locate, Int.toNat_natCast, List.take_of_length_le hle, List.take_length]

end Text

open Text

theorem eq_readTree_of_parseTree {text : String} {limit : Int} {answer : Answer (Node Float)}
    (hanswer : parseTree text limit = .ok answer) : answer = readTree text.toList limit := by
  unfold parseTree at hanswer
  split at hanswer
  · cases hanswer
    rfl
  · cases hanswer

/-- An error in a pattern was found at one of its characters. What remains starts there. -/
theorem exists_offset_of_error {cs : List Char} {limit : Int} {error : PatternError}
    (herror : (readTree cs limit).result = .ok (.error error)) :
    error.offset < cs.length ∧ error.remaining = String.ofList (cs.drop error.offset) ∧
      error.location = locate cs error.offset := by
  rw [readTree_result] at herror
  split at herror
  · cases herror
  · next cause p hproblem =>
      cases herror
      exact ⟨(Reading.explains_of_problem hproblem).1, rfl, rfl⟩
  · cases herror

/-- Locations follow each other as their offsets do. A location is in the lines of the text, and the
characters before it number its offset; what is before or behind the text has the location of the
start or of the end. The characters before an error and those that remain are the whole pattern,
something remains, and no other offset has the location of the error. -/
theorem locate_tells_offset (text : String) :
    StrictMonoOn (fun offset : Int => (locate text.toList offset).order)
        (Set.Icc 0 text.toList.length) ∧
      (∀ offset ∈ Set.Icc (0 : Int) text.toList.length,
        (locate text.toList offset).IsIn (text.toList.splitOn '\n') ∧
          ((locate text.toList offset).offsetIn (text.toList.splitOn '\n') : Int) = offset) ∧
      (∀ offset : Int, offset < 0 → locate text.toList offset = locate text.toList 0) ∧
      (∀ offset : Int, text.toList.length < offset →
        locate text.toList offset = locate text.toList text.toList.length) ∧
      ∀ limit answer error, parseTree text limit = .ok answer →
        answer.result = .ok (.error error) →
          String.ofList (text.toList.take error.offset) ++ error.remaining = text ∧
            error.remaining ≠ "" ∧ error.location = locate text.toList error.offset ∧
            ∀ offset ∈ Set.Icc (0 : Int) text.toList.length,
              locate text.toList offset = error.location → offset = error.offset := by
  refine ⟨strictMonoOn_locate _, ?_, fun _ => locate_of_neg, fun _ => locate_of_length_lt, ?_⟩
  · intro offset hoffset
    obtain ⟨n, rfl⟩ := Int.eq_ofNat_of_zero_le hoffset.1
    obtain ⟨hin, hsame⟩ := isIn_locate_and_offsetIn (Int.ofNat_le.mp hoffset.2)
    exact ⟨hin, congrArg Nat.cast hsame⟩
  · intro limit answer error hanswer herror
    cases eq_readTree_of_parseTree hanswer
    obtain ⟨hlt, hremaining, hlocation⟩ := exists_offset_of_error herror
    have hin : (error.offset : Int) ∈ Set.Icc (0 : Int) text.toList.length :=
      ⟨Int.natCast_nonneg _, Int.ofNat_le.mpr hlt.le⟩
    refine ⟨?_, ?_, hlocation, ?_⟩
    · rw [hremaining, ← String.ofList_append, List.take_append_drop, String.ofList_toList]
    · rw [hremaining, Ne, String.ofList_eq_empty_iff, List.drop_eq_nil_iff]
      exact Nat.not_le.mpr hlt
    · intro offset hoffset hsame
      exact injOn_locate _ hoffset hin (hsame.trans hlocation)

/-- A second line `[b` ends inside a group. Of all offsets only that of the opener is in line two,
column one. -/
theorem locate_tells_offset_of_opener :
    ∃ answer error, parseTree (String.ofList ['a', '\n', '[', 'b']) 64 = .ok answer ∧
      answer.result = .ok (.error error) ∧ error.remaining = "[b" ∧ error.location = ⟨2, 1⟩ ∧
      ∀ offset ∈ Set.Icc (0 : Int) 4,
        locate ['a', '\n', '[', 'b'] offset = ⟨2, 1⟩ → offset = 2 := by
  have htokens : tokens (String.ofList ['a', '\n', '[', 'b']).toList =
      [.word ['a'], .separator '\n', .opening .square, .word ['b']] := by
    rw [String.toList_ofList]
    decide +kernel
  have hresult : (readTree (String.ofList ['a', '\n', '[', 'b']).toList 64).result =
      .ok (.error (.ofCause ['a', '\n', '[', 'b'] (.unterminated .square) 2)) := by
    rw [readTree_result, Reading.ofText, htokens, String.toList_ofList]
    simp (disch := decide) only [Reading.ofTokens, Progress.step_word]
    rfl
  obtain ⟨-, -, -, -, herrors⟩ := locate_tells_offset (String.ofList ['a', '\n', '[', 'b'])
  obtain ⟨-, -, -, honly⟩ := herrors 64 _ _ rfl hresult
  rw [String.toList_ofList] at honly
  exact ⟨_, _, rfl, hresult, rfl, rfl, honly⟩

end CyclePattern
