/-
# Tokens

A pattern is cut into tokens before its groups are matched: separators one
character at a time, words, brackets, commas and stray parentheses. A closing
bracket takes with it the operator and the number that may follow directly;
which operators it takes depends on the bracket alone. The characters of the
tokens, put together, are the pattern again.
-/

import CyclePattern.Number.Numeral
import CyclePattern.Pattern.Character

namespace CyclePattern

/-- The three pairs of brackets. -/
inductive Bracket
  /-- Subdivides a window. -/
  | square
  /-- Alternates from cycle to cycle. -/
  | angle
  /-- Layers parts with steps of their own. -/
  | curly
  deriving DecidableEq, Repr

/-- What the number after a group sets. -/
inductive GroupField
  | repeats
  | division
  | ratio
  | steps
  deriving DecidableEq, Repr

/-- Name of the field in exported data. -/
def GroupField.name : GroupField → String
  | .repeats => "repeat"
  | .division => "division"
  | .ratio => "ratio"
  | .steps => "steps"

namespace Bracket

/-- All brackets. -/
def all : List Bracket :=
  [square, angle, curly]

/-- The character that opens a group. -/
def opener : Bracket → Char
  | square => '['
  | angle => '<'
  | curly => '\x7b'

/-- The character that closes a group. -/
def closer : Bracket → Char
  | square => ']'
  | angle => '>'
  | curly => '\x7d'

/-- The bracket that a character opens. -/
def ofOpener? (c : Char) : Option Bracket :=
  all.find? fun bracket => bracket.opener == c

/-- The bracket that a character closes. -/
def ofCloser? (c : Char) : Option Bracket :=
  all.find? fun bracket => bracket.closer == c

/-- Operators that a group takes after its closer, with what they set. -/
def operators : Bracket → List (Char × GroupField)
  | square => [('*', .repeats), ('/', .division), ('%', .ratio)]
  | angle => [('*', .repeats), ('/', .division)]
  | curly => [('%', .steps)]

/-- Whether a group may hold several sequences with commas between them. -/
def holdsGroups : Bracket → Bool
  | angle => false
  | _ => true

end Bracket

/-- The operator and the number after a group. -/
structure GroupModifier where
  operator : Char
  field : GroupField
  number : Numeral
  deriving DecidableEq, Repr

/-- The characters of a modifier after a group. -/
def GroupModifier.text (modifier : GroupModifier) : List Char :=
  modifier.operator :: modifier.number.text

/-- Piece of a pattern. -/
inductive Token
  | separator (c : Char)
  | word (text : List Char)
  | opening (bracket : Bracket)
  | closing (bracket : Bracket) (modifier : Option GroupModifier)
  | comma
  /-- A closing parenthesis outside a word. -/
  | strayParenthesis
  deriving DecidableEq, Repr

namespace Token

/-- The characters of a token. -/
def text : Token → List Char
  | separator c => [c]
  | word cs => cs
  | opening bracket => [bracket.opener]
  | closing bracket modifier =>
    bracket.closer ::
      match modifier with
      | none => []
      | some m => m.text
  | comma => [',']
  | strayParenthesis => [')']

/-- The modifier directly after a closer. An operator that the bracket does not
take, or one without a number, is left alone. -/
def readGroupModifier (bracket : Bracket) (cs : List Char) : Option GroupModifier × List Char :=
  match cs with
  | [] => (none, [])
  | c :: rest =>
    match bracket.operators.lookup c with
    | none => (none, c :: rest)
    | some field =>
      match Numeral.read? rest with
      | none => (none, c :: rest)
      | some (number, after) => (some ⟨c, field, number⟩, after)

/-- Read the token that starts with a character. -/
def readFrom (c : Char) (rest : List Char) : Token × List Char :=
  if startsSeparator (c :: rest) then (separator c, rest)
  else if c = ',' then (comma, rest)
  else if c = ')' then (strayParenthesis, rest)
  else
    match Bracket.ofOpener? c with
    | some bracket => (opening bracket, rest)
    | none =>
      match Bracket.ofCloser? c with
      | some bracket =>
        let (modifier, after) := readGroupModifier bracket rest
        (closing bracket modifier, after)
      | none =>
        let (tail, after) := spanWord (if c = '(' then 1 else 0) rest
        (word (c :: tail), after)

theorem length_readGroupModifier_le (bracket : Bracket) (cs : List Char) :
    (readGroupModifier bracket cs).2.length ≤ cs.length := by
  unfold readGroupModifier
  split
  · simp
  · split
    · simp
    · split
      · simp
      · next number =>
        have := Numeral.length_of_read? number
        simp only [List.length_cons]
        omega

theorem length_spanWord_le (depth : Nat) (cs : List Char) :
    (spanWord depth cs).2.length ≤ cs.length := by
  induction cs generalizing depth with
  | nil => simp [spanWord]
  | cons c rest ih =>
    unfold spanWord
    simp only
    split
    · simp
    · exact Nat.le_succ_of_le (ih _)

/-- A token takes at least one character. -/
theorem length_readFrom_le (c : Char) (rest : List Char) :
    (readFrom c rest).2.length ≤ rest.length := by
  unfold readFrom
  split
  · simp
  split
  · simp
  split
  · simp
  split
  · simp
  split
  · exact length_readGroupModifier_le _ _
  · exact length_spanWord_le _ _

end Token

/-- Tokens of a pattern. -/
def tokens : List Char → List Token
  | [] => []
  | c :: rest =>
    let read := Token.readFrom c rest
    read.1 :: tokens read.2
termination_by cs => cs.length
decreasing_by exact Nat.lt_succ_of_le (Token.length_readFrom_le c rest)

end CyclePattern
