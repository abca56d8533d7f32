/-
# Characters of a pattern

A dot is decimal when an ASCII digit follows it and separates items otherwise,
so the classes look at the text from a character on and not at the character
alone.
-/

import CyclePattern.Text.Class

namespace CyclePattern

open Text

/-- Characters that separate items wherever they stand. -/
def whitespace : List Char :=
  [' ', '\t', '\n', '\r']

/-- Characters that end a word, even inside its parentheses. -/
def groupBreaks : List Char :=
  ['[', ']', '<', '>', '\x7b', '\x7d']

/-- Characters of a sound name besides ASCII letters and digits. -/
def soundPunctuation : List Char :=
  ['-', '#', '^', '_']

/-- Word that stands for a rest. -/
def restMark : List Char := ['~']

/-- Word that stands for an elongation. -/
def elongationMark : List Char := ['_']

/-- Whether the text starts with a dot that belongs to a number. -/
def isDecimalDot : List Char → Bool
  | '.' :: next :: _ => isAsciiDigit next
  | _ => false

/-- Whether the text starts with a dot that separates items. -/
def isSeparatorDot : List Char → Bool
  | '.' :: rest => !isDecimalDot ('.' :: rest)
  | _ => false

/-- Whether the text starts with a separator of items. -/
def startsSeparator : List Char → Bool
  | [] => false
  | c :: rest => whitespace.contains c || isSeparatorDot (c :: rest)

/-- Whether the text starts with a character of a sound name. -/
def startsSoundName : List Char → Bool
  | [] => false
  | c :: rest =>
    c.isAlphanum || soundPunctuation.contains c || isDecimalDot (c :: rest)

/-- Longest run of sound-name characters at the front, and the text after it. -/
def spanSoundName : List Char → List Char × List Char
  | [] => ([], [])
  | c :: rest =>
    if startsSoundName (c :: rest) then
      let (name, after) := spanSoundName rest
      (c :: name, after)
    else ([], c :: rest)

/-- Run of separators at the front, and the text after it. -/
def spanSeparators : List Char → List Char × List Char
  | [] => ([], [])
  | c :: rest =>
    if startsSeparator (c :: rest) then
      let (blank, after) := spanSeparators rest
      (c :: blank, after)
    else ([], c :: rest)

/-- A word and the text after it, when `depth` parentheses are open. The word
ends before a group break; outside its parentheses it also ends before a
separator, a comma and a closing parenthesis. -/
def spanWord (depth : Nat) : List Char → List Char × List Char
  | [] => ([], [])
  | c :: rest =>
    let ends := groupBreaks.contains c ||
      (depth == 0 && (c == ')' || c == ',' || startsSeparator (c :: rest)))
    if ends then ([], c :: rest)
    else
      let inside := if c = '(' then depth + 1 else if c = ')' then depth - 1 else depth
      let (word, after) := spanWord inside rest
      (c :: word, after)

/-- Part of a word, with its place in the word. -/
structure Segment where
  text : List Char
  offset : Nat
  deriving DecidableEq, Repr

/-- Put a character in front of the first of some texts. -/
def consFirst (c : Char) : List (List Char) → List (List Char)
  | [] => [[c]]
  | first :: others => (c :: first) :: others

/-- Texts between the delimiters that stand outside parentheses, when `depth`
parentheses are open. A closing parenthesis without an opening one is an
ordinary character. -/
def splitTexts (delimiter : Char) (depth : Nat) : List Char → List (List Char)
  | [] => [[]]
  | c :: rest =>
    if c = '(' then consFirst c (splitTexts delimiter (depth + 1) rest)
    else if c = ')' ∧ 0 < depth then consFirst c (splitTexts delimiter (depth - 1) rest)
    else if c = delimiter ∧ depth = 0 then [] :: splitTexts delimiter 0 rest
    else consFirst c (splitTexts delimiter depth rest)

/-- Places of texts that stand one delimiter apart. -/
def placeSegments (offset : Nat) : List (List Char) → List Segment
  | [] => []
  | first :: others => ⟨first, offset⟩ :: placeSegments (offset + first.length + 1) others

/-- Split a word at a delimiter that stands outside parentheses. -/
def splitTopLevel (delimiter : Char) (word : List Char) : List Segment :=
  placeSegments 0 (splitTexts delimiter 0 word)

end CyclePattern
