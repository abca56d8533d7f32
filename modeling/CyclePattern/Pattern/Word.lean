/-
# Words

A word of a pattern is a rest, an elongation, a degree or chord, a choice
between sounds, or a sound with modifiers and controls. Nothing that can be
typed as a word is an error: a word that fits none of these names a sound as a
whole, and a notice says so.

One thing still stops the reading of a word: a whole number with more digits
than are converted. `Word.read` is the node as far as all numbers are converted,
and `Word.node` looks for the first that is not.
-/

import CyclePattern.Pattern.Character
import CyclePattern.Pattern.Modifier
import CyclePattern.Pattern.Notice

namespace CyclePattern

open Text

/-- Controls that a voice understands. -/
def knownControls : List String :=
  ["gain", "speed", "pan", "cutoff", "resonance", "delay", "room"]

/-- A value with the notices that arose while it was read. -/
structure Noted (α : Type) where
  value : α
  notices : List Notice

namespace Harmony

/-- Characters of a chord name after its root. -/
def isNameCharacter (c : Char) : Bool :=
  c.isAlphanum || c == '#'

/-- Whether a character raises or lowers. -/
def isAccidental (c : Char) : Bool :=
  c == 'b' || c == '#'

/-- Digits of a degree from one to thirteen. -/
def degreeNumber? (digits : List Char) : Option Nat :=
  let number := digitsValue digits
  if digits ≠ [] ∧ digits.all isDecimal ∧ 1 ≤ number ∧ number ≤ 13 then some number else none

/-- A degree after its mark, with or without an accidental. -/
def readDegree? : List Char → Option Harmony
  | [] => none
  | c :: digits =>
    if isAccidental c then
      (degreeNumber? digits).map fun _ => alteredDegree (String.ofList (c :: digits))
    else (degreeNumber? (c :: digits)).map fun number => degree number

/-- A chord after its mark starts with the letter of its root. -/
def isChord : List Char → Bool
  | root :: rest => 'A' ≤ root && root ≤ 'G' && rest.all isNameCharacter
  | [] => false

/-- A numeral of a degree starts with a letter one or five of either case. -/
def isRomanNumeral : List Char → Bool
  | first :: rest => (first.toLower == 'i' || first.toLower == 'v') && rest.all isNameCharacter
  | [] => false

/-- A roman numeral after its mark, with or without an accidental. -/
def isRoman : List Char → Bool
  | c :: rest => if isAccidental c then isRomanNumeral rest else isRomanNumeral (c :: rest)
  | [] => false

/-- The numeral of a degree, which is converted before its range is looked at. -/
def degreeWholes (digits : List Char) : List Numeral :=
  if digits ≠ [] ∧ digits.all isDecimal then [⟨false, digits, none⟩] else []

/-- Numerals that are converted to integers while a word is read as harmony. -/
def wholes : List Char → List Numeral
  | '^' :: c :: digits => degreeWholes (if isAccidental c then digits else c :: digits)
  | _ => []

/-- A whole word as harmony. -/
def ofWord? : List Char → Option Harmony
  | '^' :: rest => readDegree? rest
  | '@' :: rest =>
    if isChord rest then some (chord (String.ofList rest))
    else if isRoman rest then some (roman (String.ofList rest))
    else none
  | _ => none

end Harmony

/-- The name of a control and the text after its colon. -/
def readControlName? : List Char → Option (List Char × List Char)
  | [] => none
  | c :: rest =>
    let isNameCharacter := fun d : Char => d.isAlphanum || d == '_'
    match rest.dropWhile isNameCharacter with
    | ':' :: after =>
      if c.isLower then some (c :: rest.takeWhile isNameCharacter, after) else none
    | _ => none

/-- The name of a control, its number, and the text after it. -/
def readControl? (cs : List Char) : Option ((List Char × Numeral) × List Char) :=
  match readControlName? cs with
  | none => none
  | some (name, after) => (Numeral.read? after).map fun (x, rest) => ((name, x), rest)

namespace Word

/-- Span of a word that starts at an offset. -/
def span (word : List Char) (start : Int) : Span :=
  .between start (start + word.length)

/-- A word that names a sound as a whole. -/
def literal (word : List Char) (start : Int) : Noted (Node Float) where
  value := .atom (.ofModifiers word .none []) (span word start)
  notices := [.keptLiteral word start]

/-- A sound name and its modifiers, if the word is nothing else. -/
def sound? (word : List Char) : Option (List Char × Modifiers) :=
  match spanSoundName word with
  | ([], _) => none
  | (name, rest) => (Modifiers.none.read? rest).map fun ms => (name, ms)

/-- A sound with modifiers, or else a literal. -/
def sound (word : List Char) (start : Int) : Noted (Node Float) :=
  match sound? word with
  | some (name, ms) => ⟨.atom (.ofModifiers name ms []) (span word start), []⟩
  | none => literal word start

/-- Whether a segment starts with the name of a known control and a colon. -/
def startsKnownControl (segment : Segment) : Bool :=
  match readControlName? segment.text with
  | some (name, _) => knownControls.contains (String.ofList name)
  | none => false

/-- Controls that are set by the segments after the first, with a notice for
each unknown one. Reading stops at a segment that is not a control; whether it
came to the end is the last component. -/
def readControls (start : Int) (controls : Controls Float) (notices : List Notice) :
    List Segment → Controls Float × List Notice × Bool
  | [] => (controls, notices, true)
  | segment :: rest =>
    if segment.text.isEmpty then readControls start controls notices rest
    else
      match readControl? segment.text with
      | some ((name, x), []) =>
        if knownControls.contains (String.ofList name) then
          readControls start (controls.set (String.ofList name) x.toFloat) notices rest
        else
          readControls start controls
            (notices ++ [.ignoredControl name (start + segment.offset)]) rest
      | _ => (controls, notices, false)

/-- A sound with controls. When the sound or a control is malformed the whole
word is a literal; controls that were passed over before are noted first. -/
def controlled (word : List Char) (start : Int) (head : List Char) (rest : List Segment) :
    Noted (Node Float) :=
  match sound? head with
  | none => literal word start
  | some (name, ms) =>
    match readControls start [] [] rest with
    | (controls, notices, true) =>
      ⟨.atom (.ofModifiers name ms controls) (span word start), notices⟩
    | (_, notices, false) =>
      ⟨(literal word start).value, notices ++ (literal word start).notices⟩

/-- One option of a choice. An elongation mark has nothing to lengthen there
and is a rest. -/
def option (text : List Char) (start : Int) : Noted (Node Float) :=
  if text = restMark ∨ text = elongationMark then ⟨.rest (span text start), []⟩
  else
    match Harmony.ofWord? text with
    | some harmony => ⟨.harmony harmony (String.ofList text) (span text start), []⟩
    | none => sound text start

/-- A choice between the segments that are not empty. A single option stands
alone, with the span of the word. -/
def choice (word : List Char) (start : Int) (segments : List Segment) : Noted (Node Float) :=
  let given := segments.filter fun segment => !segment.text.isEmpty
  let options := given.map fun segment => option segment.text (start + segment.offset)
  let notices := options.flatMap (·.notices)
  match options with
  | [] => literal word start
  | [single] => ⟨single.value.withSpan (span word start), notices⟩
  | _ => ⟨.choice (options.map (·.value)) (span word start), notices⟩

/-- A word with a bar outside its parentheses: a sound with controls if any
segment after the first names a known control, a choice otherwise. -/
def piped (word : List Char) (start : Int) (head : Segment) (rest : List Segment) :
    Noted (Node Float) :=
  if rest.any startsKnownControl then controlled word start head.text rest
  else choice word start (head :: rest)

/-- The node of a word that starts at an offset. -/
def read (word : List Char) (start : Int) : Noted (Node Float) :=
  if word = restMark then ⟨.rest (span word start), []⟩
  else if word = elongationMark then ⟨.elongation (span word start), []⟩
  else
    match Harmony.ofWord? word with
    | some harmony => ⟨.harmony harmony (String.ofList word) (span word start), []⟩
    | none =>
      match splitTopLevel '|' word with
      | head :: second :: rest => piped word start head (second :: rest)
      | _ => sound word start

/-- Numerals that are converted while a word is read as a sound. -/
def soundWholes (word : List Char) : List Numeral :=
  match spanSoundName word with
  | ([], _) => []
  | (_, rest) => Modifiers.none.wholes rest

/-- Numerals that are converted while a word without a bar is read. -/
def plainWholes (word : List Char) : List Numeral :=
  Harmony.wholes word ++
    match Harmony.ofWord? word with
    | some _ => []
    | none => soundWholes word

/-- Numerals that are converted while an option of a choice is read. -/
def optionWholes (text : List Char) : List Numeral :=
  if text = restMark ∨ text = elongationMark then [] else plainWholes text

/-- Numerals that are converted while a word with a bar is read: those of the
first segment if it is a sound with controls, which are read as floats, and
those of all segments that are not empty otherwise. -/
def pipedWholes (head : Segment) (rest : List Segment) : List Numeral :=
  if rest.any startsKnownControl then soundWholes head.text
  else
    ((head :: rest).filter fun segment => !segment.text.isEmpty).flatMap fun segment =>
      optionWholes segment.text

/-- Numerals that are converted to integers while a word is read, in their
order. -/
def wholes (word : List Char) : List Numeral :=
  match splitTopLevel '|' word with
  | head :: second :: rest => pipedWholes head (second :: rest)
  | _ => optionWholes word

/-- The fault of reading a word: that of the first numeral with too many digits to
be converted. -/
def fault? (word : List Char) : Option NumberFault :=
  (wholes word).findSome? Numeral.tooLong?

/-- The node of a word that starts at an offset, unless a whole number in it
cannot be converted. -/
def node (word : List Char) (start : Int) : Except NumberFault (Noted (Node Float)) :=
  match fault? word with
  | some fault => .error fault
  | none => .ok (read word start)

end Word

end CyclePattern
