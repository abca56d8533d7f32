/-
# Events as a table

One row for each event under a header. Columns are as wide as their widest cell
and stand two spaces apart; blank space at the end of a line is dropped.
-/

import CyclePattern.Export.Json
import CyclePattern.Text.Class

namespace CyclePattern.Table

open Text

/-- Titles of the columns. -/
def header : List String :=
  ["time", "duration", "sound", "sample", "params"]

/-- Cells of an event, times with a fixed number of places. -/
def cells (places : Nat) (event : Event Float) : List String :=
  [String.ofList (NumberText.fixed places event.time),
    String.ofList (NumberText.fixed places event.duration),
    event.sound,
    match event.sample with
    | none => ""
    | some index => toString index,
    if event.params.isEmpty then "" else Json.line (.record event.params)]

/-- Width of every column. -/
def widths (rows : List (List String)) : List Nat :=
  rows.foldl (fun widest row => List.zipWith (fun width cell => max width cell.length) widest row)
    (List.replicate header.length 0)

/-- A cell filled up with spaces. -/
def pad (cell : String) (width : Nat) : List Char :=
  cell.toList ++ List.replicate (width - cell.length) ' '

/-- A line before its end is trimmed. -/
def paddedLine (columns : List Nat) (row : List String) : List Char :=
  [' ', ' '].intercalate (List.zipWith pad row columns)

/-- The table of some events. -/
def write (places : Nat) (events : List (Event Float)) : String :=
  let rows := header :: events.map (cells places)
  let columns := widths rows
  "\n".intercalate (rows.map fun row => String.ofList (trimEnd (paddedLine columns row)))

end CyclePattern.Table
