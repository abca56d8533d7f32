/-
# One cycle of a pattern

The text of a pattern becomes a tree, and the tree the events of one cycle. A
pattern that cannot be read is no failure: the reason comes back as a value, so
that a performer can be shown it while the previous pattern plays on. An editor
shows the place by line and column, both counted from one; a line ends with a
line feed.
-/

import CyclePattern.Pattern.Reading
import CyclePattern.Performance.Perform
import CyclePattern.Performance.Timeline

namespace CyclePattern

namespace Text

/-- Place of a character in a text of several lines. -/
structure Location where
  line : Nat
  column : Nat
  deriving DecidableEq, Repr

/-- Location after reading one more character. -/
def Location.next (place : Location) (c : Char) : Location :=
  if c = '\n' then ⟨place.line + 1, 1⟩ else ⟨place.line, place.column + 1⟩

/-- Location of an offset, which is first brought into the text: an offset
before the start stands for the start, one beyond the end for the end. -/
def locate (cs : List Char) (offset : Int) : Location :=
  (cs.take offset.toNat).foldl Location.next ⟨1, 1⟩

end Text

open Text

/-- Number of groups that may be nested unless a caller says otherwise. -/
def defaultDepth : Int := 64

/-- Largest number of nested groups that a caller may ask for. -/
def depthLimit : Int := 128

/-- Whether a caller may ask for this nesting limit. -/
def isDepth (limit : Int) : Bool :=
  1 ≤ limit && limit ≤ depthLimit

/-- Why a request is refused before its pattern is read. -/
inductive Refusal
  | depthOutOfRange
  deriving DecidableEq, Repr

/-- Wording of a refusal. -/
def Refusal.message : Refusal → String
  | .depthOutOfRange => "max_depth must be between 1 and " ++ toString depthLimit

/-- Why a pattern cannot be read, and where. -/
structure PatternError where
  message : String
  /-- The text from the reported offset on. -/
  remaining : String
  offset : Nat
  location : Location
  deriving DecidableEq, Repr

namespace PatternError

/-- The error of a cause that was found at an offset of a pattern. -/
def ofCause (cs : List Char) (cause : Cause) (offset : Nat) : PatternError where
  message := cause.message (cs.drop offset)
  remaining := String.ofList (cs.drop offset)
  offset := offset
  location := locate cs offset

/-- One line of text with the message and the place. -/
def text (error : PatternError) : String :=
  error.message ++ " (line " ++ toString error.location.line ++ ", column " ++
    toString error.location.column ++ ")"

end PatternError

/-- What comes of a pattern: a value, an error in the pattern, or a number that
cannot be computed with. Notices come with all of them. -/
structure Answer (β : Type) where
  result : Except Fault (Except PatternError β)
  notices : List Notice

/-- The tree of a pattern, a sequence. -/
def readTree (cs : List Char) (limit : Int) : Answer (Node Float) :=
  let reading := Reading.ofText limit 0 0 cs
  let result :=
    match reading.result with
    | .ok items => .ok (.ok (.sequence items))
    | .error (.problem cause offset) => .ok (.error (.ofCause cs cause offset))
    | .error (.number fault) => .error (.number fault)
  ⟨result, reading.notices⟩

/-- The whole cycle: it starts at zero and lasts one. -/
def wholeCycle {α : Type} [Measure α] : Window α :=
  ⟨Measure.ofInt 0, Measure.one⟩

/-- The events of one cycle in the order of time. -/
def readCycle (cs : List Char) (limit : Int) : Answer (List (Event Float)) :=
  let tree := readTree cs limit
  match tree.result with
  | .error fault => ⟨.error fault, tree.notices⟩
  | .ok (.error error) => ⟨.ok (.error error), tree.notices⟩
  | .ok (.ok node) =>
    match node.perform wholeCycle with
    | .error fault => ⟨.error fault, tree.notices⟩
    | .ok events =>
      ⟨.ok (.ok (Timeline.ofEvents events)), tree.notices ++ node.performNotices wholeCycle⟩

/-- The tree of a pattern, for a caller who chooses the nesting limit. -/
def parseTree (text : String) (limit : Int) : Except Refusal (Answer (Node Float)) :=
  if isDepth limit then .ok (readTree text.toList limit) else .error .depthOutOfRange

/-- The events of a pattern, for a caller who chooses the nesting limit. -/
def parseCycle (text : String) (limit : Int) : Except Refusal (Answer (List (Event Float))) :=
  if isDepth limit then .ok (readCycle text.toList limit) else .error .depthOutOfRange

end CyclePattern
