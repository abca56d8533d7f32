/-
# Rows of a table

The columns of a table start at the same offsets in each line, and each line holds the cells of its
row there. So a table has a line for its header and one for each event, and one more for each line
feed that shows in a sound: of all cells only a sound is written as it is.
-/

import CyclePattern.Export.Table
import CyclePattern.Proofs.Export.Visible
import CyclePattern.Proofs.Performance.Answer
import CyclePattern.Proofs.Performance.Grouping
import CyclePattern.Proofs.Performance.Names
import Mathlib.Algebra.BigOperators.Group.List.Basic

namespace CyclePattern

namespace Text

variable {cs ds : List Char}

theorem trimEnd_append_of_blank (cs : List Char) (hblank : ∀ c ∈ ds, isBlank c = true) :
    trimEnd (cs ++ ds) = trimEnd cs := by
  have hreversed : ∀ c ∈ ds.reverse, isBlank c = true := by simpa using hblank
  rw [trimEnd, List.reverse_append, List.dropWhile_append_of_pos hreversed, trimEnd]

theorem trimEnd_append_of_shown (cs : List Char) {c : Char} (hc : c ∈ ds)
    (hshown : isBlank c = false) : trimEnd (cs ++ ds) = cs ++ trimEnd ds := by
  have hkept : ¬ (ds.reverse.dropWhile isBlank).isEmpty = true := by
    rw [List.isEmpty_iff, List.dropWhile_eq_nil_iff]
    intro hall
    rw [hall c (List.mem_reverse.mpr hc)] at hshown
    cases hshown
  calc
    _ = ((ds.reverse ++ cs.reverse).dropWhile isBlank).reverse := by
      rw [trimEnd, List.reverse_append]
    _ = (ds.reverse.dropWhile isBlank ++ cs.reverse).reverse := by
      rw [List.dropWhile_append, if_neg hkept]
    _ = cs ++ trimEnd ds := by
      rw [List.reverse_append, List.reverse_reverse, trimEnd]

theorem trimEnd_of_blank (hblank : ∀ c ∈ cs, isBlank c = true) : trimEnd cs = [] :=
  trimEnd_append_of_blank [] hblank

theorem not_mem_trimEnd {c : Char} (hc : c ∉ cs) : c ∉ trimEnd cs := by
  intro hmem
  exact hc (List.mem_reverse.mp ((List.dropWhile_sublist _).subset (List.mem_reverse.mp hmem)))

/-- What has no line feed has none either in front of something else. -/
theorem count_trimEnd_append (hcs : '\n' ∉ cs) (ds : List Char) :
    (trimEnd (cs ++ ds)).count '\n' = (trimEnd ds).count '\n' := by
  by_cases hblank : ∀ c ∈ ds, isBlank c = true
  · rw [trimEnd_append_of_blank cs hblank, trimEnd_of_blank hblank,
      List.count_eq_zero.mpr (not_mem_trimEnd hcs)]
    rfl
  · push Not at hblank
    obtain ⟨c, hc, hshown⟩ := hblank
    rw [trimEnd_append_of_shown cs hc (Bool.eq_false_iff.mpr hshown), List.count_append,
      List.count_eq_zero.mpr hcs, Nat.zero_add]

theorem length_splitOn (c : Char) (cs : List Char) : (cs.splitOn c).length = cs.count c + 1 := by
  induction cs with
  | nil => rfl
  | cons d cs ih =>
      rw [List.splitOn_cons_eq_if_modifyHead, List.count_cons]
      split
      · rw [List.length_cons, ih]
      · rw [List.length_modifyHead, ih]

theorem count_intercalate (c : Char) {lines : List (List Char)} (hlines : lines ≠ []) :
    ([c].intercalate lines).count c + 1 = lines.length + (lines.map (List.count c)).sum := by
  induction lines with
  | nil => contradiction
  | cons line lines ih =>
      cases lines with
      | nil => simp [Nat.add_comm]
      | cons second lines =>
          have hrest := ih (by simp)
          rw [List.intercalate_cons_cons, List.count_append, List.count_append,
            List.count_singleton_self, List.map_cons, List.sum_cons, List.length_cons]
          omega

end Text

open Text

namespace Table

/-- A row stands on a line from an offset on: after each cell there are blanks up to the next stop,
and after the last one any number of them. -/
inductive Stands : Nat → List Nat → List String → List Char → Prop
  | last (start : Nat) (cell : String) (blanks : Nat) :
      Stands start [] [cell] (cell.toList ++ List.replicate blanks ' ')
  | cell {start stop : Nat} {stops : List Nat} {cell : String} {row : List String}
      {line : List Char} (hstop : start + cell.length < stop) (hrow : Stands stop stops row line) :
      Stands start (stop :: stops) (cell :: row)
        (cell.toList ++ List.replicate (stop - (start + cell.length)) ' ' ++ line)

/-- Columns are as wide as the cells of a row. -/
def Fits (columns : List Nat) (row : List String) : Prop :=
  List.Forall₂ (fun width cell => cell.length ≤ width) columns row

/-- Where the columns after the first start. -/
def stopsFrom : Nat → List Nat → List Nat
  | start, width :: next :: columns =>
    (start + width + 2) :: stopsFrom (start + width + 2) (next :: columns)
  | _, _ => []

/-- A row that fits stands on its padded line. -/
theorem stands_paddedLine {columns : List Nat} {row : List String} (hfits : Fits columns row)
    (hrow : row ≠ []) (start : Nat) :
    Stands start (stopsFrom start columns) row (paddedLine columns row) := by
  induction hfits generalizing start with
  | nil => contradiction
  | @cons width cell columns row hcell hrest ih =>
      cases hrest with
      | nil =>
          have hline : paddedLine [width] [cell] =
              cell.toList ++ List.replicate (width - cell.length) ' ' :=
            List.intercalate_singleton
          rw [hline]
          exact .last start cell _
      | @cons next second columns row hsecond hrest =>
          have hstands := ih (by simp) (start + width + 2)
          have hline : paddedLine (width :: next :: columns) (cell :: second :: row) =
              cell.toList ++ List.replicate (start + width + 2 - (start + cell.length)) ' ' ++
                paddedLine (next :: columns) (second :: row) := by
            have hblanks : start + width + 2 - (start + cell.length) = width - cell.length + 2 := by
              omega
            rw [hblanks, List.replicate_add]
            simp [paddedLine, pad, List.replicate]
          rw [hline]
          exact .cell (by omega) hstands

/-- Columns that are made as wide as the cells of one more row. -/
def widen (columns : List Nat) (row : List String) : List Nat :=
  List.zipWith (fun width cell => max width cell.length) columns row

theorem length_widen {columns : List Nat} {row : List String}
    (hlength : row.length = columns.length) : (widen columns row).length = columns.length := by
  simp [widen, hlength]

theorem fits_widen {columns : List Nat} {row : List String}
    (hlength : row.length = columns.length) : Fits (widen columns row) row := by
  induction columns generalizing row with
  | nil =>
      rw [List.length_eq_zero_iff.mp hlength]
      exact .nil
  | cons width columns ih =>
      cases row with
      | nil => simp at hlength
      | cons cell row => exact .cons (Nat.le_max_right _ _) (ih (Nat.succ.inj hlength))

theorem Fits.widen {columns : List Nat} {row other : List String} (hfits : Fits columns row)
    (hlength : other.length = columns.length) : Fits (widen columns other) row := by
  induction hfits generalizing other with
  | nil =>
      rw [List.length_eq_zero_iff.mp hlength]
      exact .nil
  | cons hcell hrest ih =>
      cases other with
      | nil => simp at hlength
      | cons second other =>
          exact .cons (hcell.trans (Nat.le_max_left _ _)) (ih (Nat.succ.inj hlength))

/-- After all rows were looked at, each of them fits, and so does what fitted before. -/
theorem fits_foldl {rows : List (List String)} {columns : List Nat}
    (hlengths : ∀ row ∈ rows, row.length = columns.length) :
    (rows.foldl widen columns).length = columns.length ∧
      (∀ row ∈ rows, Fits (rows.foldl widen columns) row) ∧
      ∀ row, Fits columns row → Fits (rows.foldl widen columns) row := by
  induction rows generalizing columns with
  | nil => exact ⟨rfl, List.forall_mem_nil _, fun _ => id⟩
  | cons first rows ih =>
      obtain ⟨hfirst, hothers⟩ := List.forall_mem_cons.mp hlengths
      have hwidened := length_widen hfirst
      have hrest : ∀ row ∈ rows, row.length = (widen columns first).length :=
        fun row hrow => (hothers row hrow).trans hwidened.symm
      obtain ⟨hlength, hrows, hkept⟩ := ih hrest
      refine ⟨hlength.trans hwidened, List.forall_mem_cons.mpr ⟨?_, hrows⟩, ?_⟩
      · exact hkept first (fits_widen hfirst)
      · intro row hfits
        exact hkept row (hfits.widen hfirst)

/-- Rows of a table, its header first. -/
def rows (places : Nat) (events : List (Event Float)) : List (List String) :=
  header :: events.map (cells places)

variable {places : Nat} {events : List (Event Float)}

theorem length_of_mem_rows {row : List String} (hrow : row ∈ rows places events) :
    row.length = header.length := by
  rcases List.mem_cons.mp hrow with rfl | hcells
  · rfl
  · obtain ⟨event, -, rfl⟩ := List.mem_map.mp hcells
    rfl

/-- Every row fits the columns of its table. -/
theorem fits_widths (places : Nat) (events : List (Event Float)) :
    (widths (rows places events)).length = 5 ∧
      ∀ row ∈ rows places events, Fits (widths (rows places events)) row := by
  have hlengths : ∀ row ∈ rows places events,
      row.length = (List.replicate header.length 0).length := fun row => length_of_mem_rows
  obtain ⟨hlength, hrows, -⟩ := fits_foldl hlengths
  exact ⟨hlength, hrows⟩

/-! ## Line feeds -/

variable {event : Event Float}

/-- How many line feeds of its sound show in the row of an event. Those at the end of the line are
trimmed. -/
def feeds (event : Event Float) : Nat :=
  if event.sample = none ∧ event.params = [] then (trimEnd event.sound.toList).count '\n'
  else event.sound.toList.count '\n'

theorem exists_shown_toString (n : Int) : ∃ c ∈ (toString n).toList, isBlank c = false := by
  rw [Int.toString_eq_repr]
  cases n with
  | ofNat n =>
      have hdigits : n.repr.toList ≠ [] := by
        rw [Nat.toList_repr]
        exact List.length_pos_iff.mp Nat.length_toDigits_pos
      obtain ⟨c, hc⟩ := List.exists_mem_of_ne_nil _ hdigits
      refine ⟨c, hc, isBlank_of_isDigit ?_⟩
      rw [Nat.toList_repr] at hc
      exact Nat.isDigit_of_mem_toDigits (by decide) (by decide) hc
  | negSucc n =>
      refine ⟨'-', ?_, by decide⟩
      change '-' ∈ ("-" ++ n.succ.repr).toList
      rw [String.toList_append]
      exact List.mem_append_left _ (by decide)

theorem exists_shown_line {fields : List (String × Data Float)} (hfields : fields ≠ []) :
    ∃ c ∈ (Json.line (.record fields)).toList, isBlank c = false := by
  refine ⟨'\x7b', ?_, by decide⟩
  rw [Json.line, Json.write, Json.enclose, if_neg (by simpa using hfields)]
  simp only [String.toList_append, List.append_assoc]
  exact List.mem_append_left _ (by decide)

/-- The row of an event is visible but for its sound. After the sound there is nothing, or something
that leaves a mark. -/
theorem exists_cells_eq (places : Nat) (event : Event Float) :
    ∃ time duration sample params : String,
      cells places event = [time, duration, event.sound, sample, params] ∧
        (Visible time.toList ∧ Visible duration.toList) ∧
        (Visible sample.toList ∧ Visible params.toList) ∧
        if event.sample = none ∧ event.params = [] then sample = "" ∧ params = ""
        else ∃ c ∈ sample.toList ++ params.toList, isBlank c = false := by
  have hfixed (x : Float) : Visible (String.ofList (NumberText.fixed places x)).toList := by
    rw [String.toList_ofList]
    exact NumberText.visible_fixed places x
  refine ⟨_, _, _, _, rfl, ⟨hfixed _, hfixed _⟩, ⟨?_, ?_⟩, ?_⟩
  · cases event.sample with
    | none => decide
    | some index => exact visible_toString index
  · split
    · decide
    · exact Json.visible_write 0 _
  · split
    · next hnone =>
        rw [hnone.1, hnone.2]
        exact ⟨rfl, rfl⟩
    · next hsome =>
        cases hsample : event.sample with
        | some index =>
            obtain ⟨c, hc, hshown⟩ := exists_shown_toString index
            exact ⟨c, List.mem_append_left _ hc, hshown⟩
        | none =>
            have hparams : event.params ≠ [] := fun hempty => hsome ⟨hsample, hempty⟩
            obtain ⟨c, hc, hshown⟩ := exists_shown_line hparams
            rw [if_neg (by simpa using hparams)]
            exact ⟨c, List.mem_append_right _ hc, hshown⟩

/-- The line of an event is visible but for its sound, and blank after the sound if there is neither
a sample nor a param. -/
theorem exists_paddedLine_eq {columns : List Nat} (hcolumns : columns.length = 5) (places : Nat)
    (event : Event Float) :
    ∃ before after, paddedLine columns (cells places event) =
        before ++ (event.sound.toList ++ after) ∧
      (Visible before ∧ Visible after) ∧
      if event.sample = none ∧ event.params = [] then ∀ c ∈ after, isBlank c = true
      else ∃ c ∈ after, isBlank c = false := by
  obtain ⟨time, duration, sample, params, hcells, ⟨htime, hduration⟩, ⟨hsample, hparams⟩, hafter⟩ :=
    exists_cells_eq places event
  have hvisible (count : Nat) : Visible (List.replicate count ' ') :=
    visible_replicate count (by decide)
  have hblank (count : Nat) : ∀ c ∈ List.replicate count ' ', isBlank c = true := by
    intro c hc
    rw [List.eq_of_mem_replicate hc]
    decide
  match columns, hcolumns with
  | [v, w, x, y, z], _ =>
    refine ⟨pad time v ++ [' ', ' '] ++ pad duration w ++ [' ', ' '],
      List.replicate (x - event.sound.length) ' ' ++ [' ', ' '] ++ pad sample y ++ [' ', ' '] ++
        pad params z, ?_, ⟨?_, ?_⟩, ?_⟩
    · rw [hcells]
      simp [paddedLine, pad]
    · simp only [pad, visible_append]
      exact ⟨⟨⟨⟨htime, hvisible _⟩, hvisible 2⟩, hduration, hvisible _⟩, hvisible 2⟩
    · simp only [pad, visible_append]
      exact ⟨⟨⟨⟨hvisible _, hvisible 2⟩, hsample, hvisible _⟩, hvisible 2⟩, hparams, hvisible _⟩
    · split
      · next hnone =>
          rw [if_pos hnone] at hafter
          obtain ⟨rfl, rfl⟩ := hafter
          simp only [pad, String.toList_empty, List.nil_append, List.forall_mem_append]
          exact ⟨⟨⟨⟨hblank _, hblank 2⟩, hblank _⟩, hblank 2⟩, hblank _⟩
      · next hsome =>
          rw [if_neg hsome] at hafter
          obtain ⟨c, hc, hshown⟩ := hafter
          refine ⟨c, ?_, hshown⟩
          rcases List.mem_append.mp hc with hmem | hmem
          · simp only [pad, List.mem_append, hmem, true_or, or_true]
          · simp only [pad, List.mem_append, hmem, true_or, or_true]

/-- Of a row only the sound has line feeds. -/
theorem count_trimEnd_paddedLine {columns : List Nat} (hcolumns : columns.length = 5)
    (places : Nat) (event : Event Float) :
    (trimEnd (paddedLine columns (cells places event))).count '\n' = feeds event := by
  obtain ⟨before, after, hline, ⟨hbefore, hvisible⟩, hafter⟩ :=
    exists_paddedLine_eq hcolumns places event
  rw [hline, count_trimEnd_append hbefore.not_mem_feed, feeds]
  split
  · next hnone =>
      rw [if_pos hnone] at hafter
      rw [trimEnd_append_of_blank _ hafter]
  · next hsome =>
      rw [if_neg hsome] at hafter
      obtain ⟨c, hc, hshown⟩ := hafter
      rw [trimEnd_append_of_shown _ hc hshown, List.count_append,
        List.count_eq_zero.mpr (not_mem_trimEnd hvisible.not_mem_feed), Nat.add_zero]

/-- The lines of a table before their ends are trimmed. -/
def paddedLines (places : Nat) (events : List (Event Float)) : List (List Char) :=
  (rows places events).map (paddedLine (widths (rows places events)))

theorem toList_write (places : Nat) (events : List (Event Float)) :
    (write places events).toList =
      ['\n'].intercalate ((paddedLines places events).map trimEnd) := by
  simp only [write, paddedLines, rows, String.toList_intercalate, List.map_map]
  refine congrArg (List.intercalate ['\n']) (List.map_congr_left ?_)
  intro row _
  exact String.toList_ofList

theorem visible_paddedLine (columns : List Nat) {row : List String}
    (hrow : ∀ cell ∈ row, Visible cell.toList) : Visible (paddedLine columns row) := by
  refine visible_intercalate (by decide) ?_
  intro text htext
  obtain ⟨i, hi, rfl⟩ := List.getElem_of_mem htext
  rw [List.getElem_zipWith]
  exact visible_append.mpr ⟨hrow _ (List.getElem_mem _), visible_replicate _ (by decide)⟩

/-- The line of the header has no line feed, and that of an event those of its sound. -/
theorem map_count_paddedLines (places : Nat) (events : List (Event Float)) :
    ((paddedLines places events).map trimEnd).map (List.count '\n') = 0 :: events.map feeds := by
  obtain ⟨hlength, -⟩ := fits_widths places events
  have hheader := visible_paddedLine (widths (rows places events)) (show
    ∀ cell ∈ header, Visible cell.toList by decide)
  rw [List.map_map, paddedLines, List.map_map, rows, List.map_cons, List.map_map]
  refine congrArg₂ List.cons ?_ (List.map_congr_left ?_)
  · exact List.count_eq_zero.mpr (not_mem_trimEnd hheader.not_mem_feed)
  · intro event _
    exact count_trimEnd_paddedLine hlength places event

theorem length_splitOn_write (places : Nat) (events : List (Event Float)) :
    ((write places events).toList.splitOn '\n').length =
      events.length + 1 + (events.map feeds).sum := by
  have hnonempty : (paddedLines places events).map trimEnd ≠ [] := by simp [paddedLines, rows]
  have hcount := count_intercalate '\n' hnonempty
  have hlength : (paddedLines places events).length = events.length + 1 := by
    simp [paddedLines, rows]
  rw [map_count_paddedLines, List.sum_cons, List.length_map, hlength, Nat.zero_add] at hcount
  rw [length_splitOn, toList_write, hcount]

/-- The lines of a table are those of its rows exactly if no line feed of a sound shows. -/
theorem splitOn_write_iff (places : Nat) (events : List (Event Float)) :
    (write places events).toList.splitOn '\n' = (paddedLines places events).map trimEnd ↔
      ∀ event ∈ events, feeds event = 0 := by
  constructor
  · intro hsplit event hevent
    have hlength := length_splitOn_write places events
    have hlines : ((paddedLines places events).map trimEnd).length = events.length + 1 := by
      simp [paddedLines, rows]
    rw [hsplit, hlines] at hlength
    have hsum : (events.map feeds).sum = 0 := by omega
    exact List.sum_eq_zero_iff.mp hsum _ (List.mem_map_of_mem hevent)
  · intro hfeeds
    rw [toList_write, List.splitOn_intercalate]
    · intro line hline
      have hcount : line.count '\n' ∈ 0 :: events.map feeds := by
        rw [← map_count_paddedLines places events]
        exact List.mem_map_of_mem hline
      rw [← List.count_eq_zero]
      rcases List.mem_cons.mp hcount with hzero | hevent
      · exact hzero
      · obtain ⟨event, hmem, hsame⟩ := List.mem_map.mp hevent
        rw [← hsame, hfeeds event hmem]
    · simp [paddedLines, rows]

/-- A text without line feeds names no sound with one. -/
theorem feeds_eq_zero_of_readCycle {cs : List Char} {limit : Int}
    (hcycle : (readCycle cs limit).result = .ok (.ok events)) (hfeed : '\n' ∉ cs)
    (hevent : event ∈ events) : feeds event = 0 := by
  have hsound : '\n' ∉ event.sound.toList :=
    fun hmem => hfeed (sound_subset_of_readCycle hcycle hevent hmem)
  rw [feeds]
  split
  · exact List.count_eq_zero.mpr (not_mem_trimEnd hsound)
  · exact List.count_eq_zero.mpr hsound

/-- Each row of a table has its cells at the same offsets, one after the other. The table has a line
for its header, one for each event, and one more for each line feed of a sound that shows. Where
none shows, and only there, its lines are those of the rows; and none shows in a table of a text
without line feeds. -/
theorem write_lines_rows (places : Nat) (events : List (Event Float)) :
    ∃ (second third fourth fifth : Nat) (lines : List (List Char)),
      (0 < second ∧ second < third ∧ third < fourth ∧ fourth < fifth) ∧
        List.Forall₂ (Stands 0 [second, third, fourth, fifth])
          (header :: events.map (cells places)) lines ∧
        (write places events).toList = ['\n'].intercalate (lines.map trimEnd) ∧
        ((write places events).toList.splitOn '\n').length =
          events.length + 1 + (events.map feeds).sum ∧
        ((write places events).toList.splitOn '\n' = lines.map trimEnd ↔
          ∀ event ∈ events, feeds event = 0) ∧
        ∀ cs limit, (readCycle cs limit).result = .ok (.ok events) → '\n' ∉ cs →
          ∀ event ∈ events, feeds event = 0 := by
  obtain ⟨hlength, hfits⟩ := fits_widths places events
  have hstands : List.Forall₂ (Stands 0 (stopsFrom 0 (widths (rows places events))))
      (rows places events) (paddedLines places events) := by
    rw [paddedLines, List.forall₂_map_right_iff, List.forall₂_same]
    intro row hrow
    refine stands_paddedLine (hfits row hrow) ?_ 0
    rintro rfl
    cases length_of_mem_rows hrow
  match hcolumns : widths (rows places events), hlength with
  | [v, w, x, y, z], _ =>
    rw [hcolumns] at hstands
    refine ⟨0 + v + 2, 0 + v + 2 + w + 2, 0 + v + 2 + w + 2 + x + 2,
      0 + v + 2 + w + 2 + x + 2 + y + 2, paddedLines places events, by omega, hstands,
      toList_write places events, length_splitOn_write places events,
      splitOn_write_iff places events, ?_⟩
    intro cs limit hcycle hfeed event hevent
    exact feeds_eq_zero_of_readCycle hcycle hfeed hevent

/-- A sound in parentheses with a line feed. Its row is two lines. -/
theorem length_splitOn_write_of_feed :
    ∃ event, (readCycle ['(', '\n', ')'] 64).result = .ok (.ok [event]) ∧
      ((write 4 [event]).toList.splitOn '\n').length = 3 := by
  let cs := ['(', '\n', ')']
  let sound : Atom Float := .ofModifiers cs .none []
  let span := Word.span cs 0
  let event : Event Float :=
    ⟨String.ofList cs, none, wholeCycle.start, wholeCycle.duration, .plain, [], span⟩
  have htree : (readTree cs 64).result = .ok (.ok (.sequence [.atom sound span])) := by
    have htokens : tokens cs = [.word cs] := by decide +kernel
    rw [readTree_result, Reading.ofText, htokens]
    simp (disch := decide) only [Reading.ofTokens, Progress.step_word]
    rfl
  have hown : (Node.atom sound span).ownEvents wholeCycle = .ok [event] := by
    have hcount : sound.copyCount = 1 := rfl
    change sound.events span wholeCycle = _
    rw [Atom.events, hcount, Node.split_wholeCycle]
    change [wholeCycle].flatMapM (sound.copyEvents span) = _
    rw [flatMapM_singleton]
    rfl
  have hcycle : (readCycle cs 64).result = .ok (.ok [event]) := by
    have hparts : (Node.atom sound span).parts wholeCycle = .ok [] := rfl
    rw [readCycle_result, htree]
    change ((Node.sequence _).perform wholeCycle).map _ = _
    rw [Node.perform_single rfl rfl, Node.perform_of_parts hparts, hown]
    rfl
  have hfeeds : feeds event = 1 := by
    rw [feeds, if_pos ⟨rfl, rfl⟩, String.toList_ofList]
    decide +kernel
  refine ⟨event, hcycle, ?_⟩
  rw [length_splitOn_write, List.map_singleton, hfeeds]
  rfl

end Table

end CyclePattern
