/-
# Data as JSON

Data is written on one line, or on several with an indentation of two. Only
ASCII is written: any other character is escaped by its UTF-16 code units.
-/

import CyclePattern.Export.Data
import CyclePattern.Number.NumberText
import CyclePattern.Text.Quoted

namespace CyclePattern.Json

open Text

/-- Escape of a code unit of sixteen bits. -/
def unitEscape (unit : Nat) : List Char :=
  '\\' :: 'u' :: hexPadded 4 unit

/-- One character of a text. A character beyond the first plane becomes a pair
of surrogates. -/
def escape (c : Char) : List Char :=
  let n := c.toNat
  if c == doubleQuote || c == '\\' then ['\\', c]
  else if 0x20 ≤ n && n ≤ 0x7e then [c]
  else if c == '\n' then ['\\', 'n']
  else if c == '\r' then ['\\', 'r']
  else if c == '\t' then ['\\', 't']
  else if n == 0x8 then ['\\', 'b']
  else if n == 0xc then ['\\', 'f']
  else if n ≤ 0xffff then unitEscape n
  else unitEscape (0xd800 + (n - 0x10000) / 0x400) ++ unitEscape (0xdc00 + (n - 0x10000) % 0x400)

/-- A text between quotes. -/
def quote (s : String) : String :=
  String.ofList (doubleQuote :: s.toList.flatMap escape ++ [doubleQuote])

/-- How the items of a list or the fields of a record stand apart. -/
structure Layout where
  /-- What stands before the first item and after the last one, given how deep
  the list is nested. -/
  edge : Nat → String
  /-- What stands after a comma. -/
  gap : Nat → String

/-- Everything on one line. -/
def oneLine : Layout where
  edge _ := ""
  gap _ := " "

/-- A line for each item. -/
def indented : Layout :=
  let newLine := fun depth => "\n" ++ String.ofList (List.replicate (2 * depth) ' ')
  ⟨newLine, newLine⟩

/-- Items between brackets, nested `depth` deep. -/
def enclose (layout : Layout) (depth : Nat) (opener closer : String) (items : List String) :
    String :=
  if items.isEmpty then opener ++ closer
  else
    opener ++ layout.edge (depth + 1) ++ ("," ++ layout.gap (depth + 1)).intercalate items ++
      layout.edge depth ++ closer

/-- Data nested `depth` deep. -/
def write (layout : Layout) (depth : Nat) : Data Float → String
  | .null => "null"
  | .int n => toString n
  | .number x => String.ofList (NumberText.plain NumberText.report x)
  | .text s => quote s
  | .list items => enclose layout depth "[" "]" (items.map fun i => write layout (depth + 1) i)
  | .record fields =>
    enclose layout depth "\x7b" "\x7d" (fields.map fun field =>
      quote field.1 ++ ": " ++ write layout (depth + 1) field.2)
termination_by data => sizeOf data
decreasing_by
  · next member =>
    have := List.sizeOf_lt_of_mem member
    simp only [Data.list.sizeOf_spec]
    omega
  · next member =>
    have := List.sizeOf_lt_of_mem member
    have : sizeOf field.2 < sizeOf field := by
      cases field
      simp only [Prod.mk.sizeOf_spec]
      omega
    simp only [Data.record.sizeOf_spec]
    omega

/-- Data on one line. -/
def line (data : Data Float) : String :=
  write oneLine 0 data

/-- Data with a line for each item. -/
def lines (data : Data Float) : String :=
  write indented 0 data

end CyclePattern.Json
