/-
# Reading a pattern

The tokens of a pattern are taken one by one. The groups that are open form a
stack; each remembers what stood before it. An item must be separated from the
item before it unless it is a group. A token that cannot follow stops the
reading, and so do the end of the pattern inside a group and a number that
cannot be computed with.
-/

import CyclePattern.Pattern.Group
import CyclePattern.Pattern.Word

namespace CyclePattern

open Text

/-- Why a pattern cannot be read. -/
inductive Cause
  /-- The pattern ends inside a group. -/
  | unterminated (bracket : Bracket)
  /-- Something that cannot stand in a group comes before its closer. -/
  | missingCloser (bracket : Bracket) (start : Nat)
  /-- One group more is open than may be. -/
  | tooDeep (limit : Int)
  /-- Something that cannot stand in a pattern follows its items. -/
  | leftover
  deriving DecidableEq, Repr

/-- Wording of a cause, given the text from the reported offset on. -/
def Cause.message (remaining : List Char) : Cause → String
  | .unterminated bracket =>
    "Unterminated " ++ String.ofList (quoted [bracket.opener]) ++ ": expected " ++
      String.ofList (quoted [bracket.closer]) ++ " before the end of the pattern"
  | .missingCloser bracket start =>
    "Expected " ++ String.ofList (quoted [bracket.closer]) ++ " to close " ++
      String.ofList (quoted [bracket.opener]) ++ " at offset " ++ toString start ++
      " but found " ++ String.ofList (quoted (remaining.take 1))
  | .tooDeep limit => "Groups nested deeper than " ++ toString limit ++ " levels"
  | .leftover => "Unexpected input remaining: " ++ String.ofList (quoted remaining)

/-- How the reading of a pattern stops early. -/
inductive Stop
  | problem (cause : Cause) (offset : Nat)
  /-- A number in a word or after a group is too long or too large. -/
  | number (fault : NumberFault)
  deriving DecidableEq, Repr

/-- A group that is not closed yet. -/
structure OpenGroup where
  bracket : Bracket
  /-- Offset of its opener. -/
  start : Nat
  /-- Its sequences that a comma has ended, the last one first. -/
  finished : List (List (Node Float))
  /-- Items before the group in the sequence that it stands in, last first. -/
  before : List (Node Float)

/-- How far the reading has come. -/
structure Progress where
  offset : Nat
  /-- Groups that are open, the innermost first. -/
  opened : List OpenGroup
  /-- Items of the innermost sequence, the last one first. -/
  items : List (Node Float)
  /-- Whether the last token was an item. -/
  afterItem : Bool
  /-- Notices so far, the last one first. -/
  notices : List Notice

namespace Progress

/-- The start of a reading. -/
def start (offset : Nat) : Progress :=
  ⟨offset, [], [], false, []⟩

/-- The reading stops before a token that cannot follow. -/
def blocked (p : Progress) : Stop :=
  match p.opened with
  | [] => .problem .leftover p.offset
  | group :: _ => .problem (.missingCloser group.bracket group.start) p.offset

/-- Take a word as an item, given what it is read as. -/
def takeWord (p : Progress) (text : List Char) (read : Noted (Node Float)) : Progress :=
  { p with
    offset := p.offset + text.length
    items := read.value :: p.items
    afterItem := true
    notices := read.notices.reverse ++ p.notices }

/-- Open a group. -/
def openGroup (p : Progress) (bracket : Bracket) : Progress :=
  { p with
    offset := p.offset + 1
    opened := ⟨bracket, p.offset, [], p.items⟩ :: p.opened
    items := []
    afterItem := false }

/-- End a sequence of the innermost group with a comma. -/
def endSequence (p : Progress) (group : OpenGroup) (outer : List OpenGroup) : Progress :=
  { p with
    offset := p.offset + 1
    opened := { group with finished := p.items.reverse :: group.finished } :: outer
    items := []
    afterItem := false }

/-- Close the innermost group with a token of `length` characters. -/
def closeGroup (p : Progress) (group : OpenGroup) (outer : List OpenGroup)
    (settings : GroupSettings) (notices : List Notice) (length : Nat) : Progress :=
  let groups := (p.items.reverse :: group.finished).reverse
  let stop := p.offset + length
  { offset := stop
    opened := outer
    items := groupNode group.bracket groups settings (.between group.start stop) :: group.before
    afterItem := true
    notices := notices ++ p.notices }

/-- Settings of a group from what follows its closer, and the notice for a
number that is dropped. -/
def settingsOf (group : OpenGroup) : Option GroupModifier → GroupSettings × List Notice
  | none => (.none, [])
  | some modifier =>
    match GroupSettings.ofNumber? modifier.field modifier.number with
    | some settings => (settings, [])
    | none => (.none, [.droppedModifier modifier.text group.start modifier.field.name])

/-- Take one token. At most `limit` groups may be open, with `depth` of them
open from before. -/
def step (limit : Int) (depth : Nat) (p : Progress) (token : Token) : Except Stop Progress :=
  match token with
  | .separator _ => .ok { p with offset := p.offset + 1, afterItem := false }
  | .word text =>
    if p.afterItem then .error p.blocked
    else
      match Word.node text p.offset with
      | .error fault => .error (.number fault)
      | .ok read => .ok (p.takeWord text read)
  | .opening bracket =>
    if limit ≤ (depth + p.opened.length : Nat) then .error (.problem (.tooDeep limit) p.offset)
    else .ok (p.openGroup bracket)
  | .comma =>
    match p.opened with
    | group :: outer =>
      if group.bracket.holdsGroups then .ok (p.endSequence group outer) else .error p.blocked
    | [] => .error p.blocked
  | .closing bracket modifier =>
    match p.opened with
    | group :: outer =>
      if group.bracket = bracket then
        match modifier.bind GroupModifier.fault? with
        | some fault => .error (.number fault)
        | none =>
          let (settings, notices) := settingsOf group modifier
          .ok (p.closeGroup group outer settings notices token.text.length)
      else .error p.blocked
    | [] => .error p.blocked
  | .strayParenthesis => .error p.blocked

/-- The items of the pattern, once all its tokens are taken. -/
def finish (p : Progress) : Except Stop (List (Node Float)) :=
  match p.opened with
  | [] => .ok p.items.reverse
  | group :: _ => .error (.problem (.unterminated group.bracket) group.start)

end Progress

/-- Outcome of a reading. -/
structure Reading where
  result : Except Stop (List (Node Float))
  /-- Offset up to which the text was taken. -/
  stop : Nat
  /-- Notices in the order in which they arose, also of a reading that failed. -/
  notices : List Notice

namespace Reading

/-- Offset at which a token stops the reading: before it, unless a number in it
was taken and could not be computed with. -/
def stopAt (p : Progress) (token : Token) : Stop → Nat
  | .number _ => p.offset + token.text.length
  | .problem .. => p.offset

/-- Take the tokens one after the other. -/
def ofTokens (limit : Int) (depth : Nat) (p : Progress) : List Token → Reading
  | [] => ⟨p.finish, p.offset, p.notices.reverse⟩
  | token :: rest =>
    match p.step limit depth token with
    | .ok next => ofTokens limit depth next rest
    | .error stop => ⟨.error stop, stopAt p token stop, p.notices.reverse⟩

/-- Read a text that starts at an offset of a longer one. -/
def ofText (limit : Int) (depth offset : Nat) (cs : List Char) : Reading :=
  ofTokens limit depth (.start offset) (tokens cs)

end Reading

end CyclePattern
