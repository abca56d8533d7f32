/-
# Sessions

A tool may walk through a pattern step by step: look ahead, skip separators,
take a word, or read everything that is left. A session is the text, how far it
was taken, and how many groups are open.

A tool may also look for a lexeme, a shape of text inside a word: a number, a
control with its number, the name of a control, or the arguments of a rhythm. A
match takes the longest such text at the front and reports its pieces.

What is left is read by descent: a group is read as soon as its opener is
reached, and counts as open until it is left, at its closer or wherever the
reading stops inside it.
-/

import CyclePattern.Pattern.Reading

namespace CyclePattern

/-- Shapes of text inside a word. -/
inductive Lexeme
  | number
  | control
  | controlName
  | rhythm
  deriving DecidableEq, Repr

/-- A match: all of its text, and its pieces. A piece that is left out, such as
a rotation, is missing. -/
structure Match where
  whole : List Char
  pieces : List (Option (List Char))
  deriving DecidableEq, Repr

namespace Lexeme

/-- Pieces of a shape at the front of a text, and the text after it. -/
def pieces? (shape : Lexeme) (cs : List Char) : Option (List (Option (List Char)) × List Char) :=
  match shape with
  | .number => (Numeral.read? cs).map fun (_, rest) => ([], rest)
  | .control => (readControl? cs).map fun ((name, x), rest) => ([some name, some x.text], rest)
  | .controlName => (readControlName? cs).map fun (name, rest) => ([some name], rest)
  | .rhythm =>
    (Modifier.readArguments? cs).map fun ((pulses, steps, rotation), rest) =>
      ([some pulses.text, some steps.text, rotation.map (·.text)], rest)

/-- Match a shape at the front of a text. -/
def match? (shape : Lexeme) (cs : List Char) : Option Match :=
  (shape.pieces? cs).map fun (pieces, rest) => ⟨cs.take (cs.length - rest.length), pieces⟩

end Lexeme

/-- A walk through a pattern. -/
structure Session where
  text : List Char
  /-- Number of characters that were taken. -/
  offset : Nat
  /-- Number of groups that may be open. -/
  limit : Int
  /-- Number of groups that are open. -/
  depth : Nat

/-- A look at a character before the start of the text. -/
inductive OutOfText
  | beforeStart
  deriving DecidableEq, Repr

/-- Wording of the refusal. -/
def OutOfText.message : OutOfText → String
  | .beforeStart => "string index out of range"

namespace Session

/-- A session at the start of a text. -/
def ofText (text : List Char) (limit : Int) : Session :=
  ⟨text, 0, limit, 0⟩

/-- The text that was not taken yet. -/
def remaining (session : Session) : List Char :=
  session.text.drop session.offset

/-- Whether all of the text was taken. -/
def atEnd (session : Session) : Bool :=
  session.text.length ≤ session.offset

/-- Whether a separator is next. -/
def atSeparator (session : Session) : Bool :=
  startsSeparator session.remaining

/-- The character `ahead` places on, or none beyond the end. A place before the
start counts back from the end of the text. -/
def peek (session : Session) (ahead : Int) : Except OutOfText (Option Char) :=
  let index := (session.offset : Int) + ahead
  if 0 ≤ index then .ok session.text[index.toNat]?
  else
    let fromEnd := index + session.text.length
    if 0 ≤ fromEnd then .ok session.text[fromEnd.toNat]? else .error .beforeStart

/-- Take the characters up to `count` places on. An end before the start of the
text counts back from the end of the text. -/
def advance (session : Session) (count : Int) : List Char × Session :=
  let stop := (session.offset : Int) + count
  let stop := if 0 ≤ stop then stop else stop + session.text.length
  let taken := session.remaining.take (stop - session.offset).toNat
  (taken, { session with offset := session.offset + taken.length })

/-- Take the separators that are next. The result tells whether there was any. -/
def skipSeparators (session : Session) : Bool × Session :=
  let separators := (spanSeparators session.remaining).1
  (!separators.isEmpty, { session with offset := session.offset + separators.length })

/-- Take the word that is next, which may be empty. -/
def takeWord (session : Session) : List Char × Session :=
  let word := (spanWord 0 session.remaining).1
  (word, { session with offset := session.offset + word.length })

/-- Match a shape without taking anything. -/
def match? (session : Session) (shape : Lexeme) : Option Match :=
  shape.match? session.remaining

/-! ## Reading by descent -/

/-- The session some characters further on. -/
def skip (session : Session) (count : Nat) : Session :=
  { session with offset := session.offset + count }

/-- The bracket that opens a group here. -/
def opens? (session : Session) : Option Bracket :=
  session.remaining.head?.bind Bracket.ofOpener?

/-- Whether a sequence ends here: with the text, or before a closer, a comma or
a closing parenthesis. -/
def atSequenceEnd (session : Session) : Bool :=
  match session.remaining with
  | [] => true
  | c :: _ => (Bracket.ofCloser? c).isSome || c == ',' || c == ')'

/-- Whether an item may follow here: after a separator, or at once if it is a
group. -/
def continues (session : Session) : Bool :=
  session.atSeparator || session.opens?.isSome

/-- Take an opener. Its group is open from then on. -/
def enter (session : Session) : Session :=
  { session with offset := session.offset + 1, depth := session.depth + 1 }

/-- A group is open no longer. -/
def leave (session : Session) : Session :=
  { session with depth := session.depth - 1 }

/-- Take the closer of a group with its opener at `start`. -/
def takeCloser (session : Session) (bracket : Bracket) (start : Nat) :
    Except Stop Unit × Session :=
  match session.remaining with
  | [] => (.error (.problem (.unterminated bracket) start), session)
  | c :: _ =>
    if c = bracket.closer then (.ok (), session.skip 1)
    else (.error (.problem (.missingCloser bracket start) session.offset), session)

/-- Take the operator and the number that may follow a group. A number that is
out of range sets nothing. -/
def takeSettings (session : Session) (bracket : Bracket) : Except Stop GroupSettings × Session :=
  match (Token.readGroupModifier bracket session.remaining).1 with
  | none => (.ok .none, session)
  | some modifier =>
    let next := session.skip modifier.text.length
    match modifier.fault? with
    | some fault => (.error (.number fault), next)
    | none => (.ok ((GroupSettings.ofNumber? modifier.field modifier.number).getD .none), next)

theorem remaining_skip (session : Session) (count : Nat) :
    (session.skip count).remaining = session.remaining.drop count := by
  rw [remaining, remaining, List.drop_drop]
  rfl

theorem length_remaining_skipSeparators_le (session : Session) :
    session.skipSeparators.2.remaining.length ≤ session.remaining.length := by
  have hskip := session.remaining_skip (spanSeparators session.remaining).1.length
  change (session.skip _).remaining.length ≤ _
  rw [hskip, List.length_drop]
  exact Nat.sub_le _ _

theorem length_remaining_enter_lt {session : Session} {bracket : Bracket}
    (hopens : session.opens? = some bracket) :
    session.enter.remaining.length < session.remaining.length := by
  have hskip := session.remaining_skip 1
  change (session.skip 1).remaining.length < _
  rw [hskip, List.length_drop]
  cases hremaining : session.remaining with
  | nil => simp [opens?, hremaining] at hopens
  | cons c rest => simp

mutual

/-- Read items up to the end of their sequence. An item always takes something,
so the reading comes to an end. -/
def readSequence (session : Session) : Except Stop (List (Node Float)) × Session :=
  let start := session.skipSeparators.2
  if start.atSequenceEnd then (.ok [], start)
  else
    match start.readItem with
    | (.error stop, next) => (.error stop, next)
    | (.ok item, next) =>
      if next.continues ∧ next.remaining.length < session.remaining.length then
        match next.readSequence with
        | (.error stop, last) => (.error stop, last)
        | (.ok items, last) => (.ok (item :: items), last)
      else (.ok [item], next)
termination_by (session.remaining.length, 1)
decreasing_by
  · exact Prod.Lex.right' _ session.length_remaining_skipSeparators_le (by decide)
  · next more => exact Prod.Lex.left _ _ more.2

/-- Read a word or a group. However the reading of a group ends, it is left. A
word is taken also when a number in it cannot be converted. -/
def readItem (session : Session) : Except Stop (Node Float) × Session :=
  match _opens : session.opens? with
  | none =>
    let (word, next) := session.takeWord
    match Word.node word session.offset with
    | .error fault => (.error (.number fault), next)
    | .ok read => (.ok read.value, next)
  | some bracket =>
    if session.limit ≤ session.depth then
      (.error (.problem (.tooDeep session.limit) session.offset), session)
    else
      match session.enter.readGroups bracket with
      | (.error stop, inside) => (.error stop, inside.leave)
      | (.ok groups, inside) =>
        match inside.takeCloser bracket session.offset with
        | (.error stop, last) => (.error stop, last.leave)
        | (.ok (), last) =>
          match last.leave.takeSettings bracket with
          | (.error stop, next) => (.error stop, next)
          | (.ok settings, next) =>
            (.ok (groupNode bracket groups settings (.between session.offset next.offset)), next)
termination_by (session.remaining.length, 0)
decreasing_by exact Prod.Lex.left _ _ (length_remaining_enter_lt _opens)

/-- Read the sequences of a group up to its end, one unless a comma may follow. -/
def readGroups (session : Session) (bracket : Bracket) :
    Except Stop (List (List (Node Float))) × Session :=
  match session.readSequence with
  | (.error stop, next) => (.error stop, next)
  | (.ok first, next) =>
    if (bracket.holdsGroups ∧ next.remaining.head? = some ',') ∧
        (next.skip 1).remaining.length < session.remaining.length then
      match (next.skip 1).readGroups bracket with
      | (.error stop, last) => (.error stop, last)
      | (.ok others, last) => (.ok (first :: others), last)
    else (.ok [first], next)
termination_by (session.remaining.length, 2)
decreasing_by
  · exact Prod.Lex.right _ (by decide)
  · next more => exact Prod.Lex.left _ _ more.2

end

/-- Read everything that is left as a pattern. -/
def readPattern (session : Session) : Except Stop (Node Float) × Session :=
  match session.readSequence with
  | (.error stop, next) => (.error stop, next)
  | (.ok items, next) =>
    let last := next.skipSeparators.2
    if last.atEnd then (.ok (.sequence items), last)
    else (.error (.problem .leftover last.offset), last)

/-- One step of a walk. -/
inductive Step
  | peek (ahead : Int)
  | advance (count : Int)
  | atEnd
  | atSeparator
  | skipSeparators
  | remaining
  | takeWord
  | matchShape (shape : Lexeme)
  | readPattern
  deriving DecidableEq, Repr

/-- What a step finds. -/
inductive Finding
  | flag (holds : Bool)
  | text (cs : List Char)
  | shape (found : Option Match)
  | tree (node : Node Float)
  | outOfText (refusal : OutOfText)
  | stopped (stop : Stop)

/-- Take one step. -/
def take (session : Session) : Step → Finding × Session
  | .peek ahead =>
    match session.peek ahead with
    | .ok found => (.text found.toList, session)
    | .error refusal => (.outOfText refusal, session)
  | .advance count =>
    let (taken, next) := session.advance count
    (.text taken, next)
  | .atEnd => (.flag session.atEnd, session)
  | .atSeparator => (.flag session.atSeparator, session)
  | .skipSeparators =>
    let (any, next) := session.skipSeparators
    (.flag any, next)
  | .remaining => (.text session.remaining, session)
  | .takeWord =>
    let (word, next) := session.takeWord
    (.text word, next)
  | .matchShape shape => (.shape (session.match? shape), session)
  | .readPattern =>
    match session.readPattern with
    | (.ok node, next) => (.tree node, next)
    | (.error stop, next) => (.stopped stop, next)

/-- Take steps one after the other. Each finding comes with the session after
its step. -/
def walk (session : Session) : List Step → List (Finding × Session)
  | [] => []
  | step :: rest =>
    let taken := session.take step
    taken :: walk taken.2 rest

end Session

end CyclePattern
