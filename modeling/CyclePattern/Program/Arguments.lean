/-
# Arguments of the command line

Arguments are options, the pattern, or neither. An option may be shortened as
long as one option alone starts that way; its value follows as the next
argument or after an equals sign. A negative number, or a text with a space in
it, is no option even when it starts with a dash, and after two dashes nothing
is.
-/

import CyclePattern.Number.Numeral
import CyclePattern.Text.Class
import CyclePattern.Text.Quoted

namespace CyclePattern.Program

open Text

/-- Options of the program. -/
inductive Flag
  | help
  | config
  | tree
  | format
  | maxDepth
  | verbose
  deriving DecidableEq, Repr

namespace Flag

/-- All spellings, in the order in which a message lists them. -/
def spellings : List (String × Flag) :=
  [("-h", help), ("--help", help), ("--config", config), ("--ast", tree), ("--format", format),
    ("--max-depth", maxDepth), ("--verbose", verbose)]

/-- Name of an option in a message. -/
def name : Flag → String
  | help => "-h/--help"
  | config => "--config"
  | tree => "--ast"
  | format => "--format"
  | maxDepth => "--max-depth"
  | verbose => "--verbose"

/-- Whether an option has a value. -/
def hasValue : Flag → Bool
  | config | format | maxDepth => true
  | _ => false

end Flag

/-- Output formats, in the order in which a message lists them. -/
def formats : List String :=
  ["json", "table"]

/-- Why the arguments are refused. -/
inductive UsageError
  | ambiguous (given : String) (candidates : List String)
  | missingValue (flag : Flag)
  | needlessValue (flag : Flag) (value : String)
  | notAnInteger (flag : Flag) (value : String)
  | notAChoice (flag : Flag) (value : String)
  | missingPattern
  | unrecognized (arguments : List String)
  | depthOutOfRange (limit : Int)
  | unknownFormat (format : String)
  deriving DecidableEq, Repr

/-- A text in quotes, as messages show it. -/
def shown (s : String) : String :=
  String.ofList (quoted s.toList)

/-- Wording of a refusal. -/
def UsageError.message : UsageError → String
  | .ambiguous given candidates =>
    "ambiguous option: " ++ given ++ " could match " ++ ", ".intercalate candidates
  | .missingValue flag => "argument " ++ flag.name ++ ": expected one argument"
  | .needlessValue flag value =>
    "argument " ++ flag.name ++ ": ignored explicit argument " ++ shown value
  | .notAnInteger flag value =>
    "argument " ++ flag.name ++ ": invalid int value: " ++ shown value
  | .notAChoice flag value =>
    "argument " ++ flag.name ++ ": invalid choice: " ++ shown value ++ " (choose from " ++
      ", ".intercalate (formats.map shown) ++ ")"
  | .missingPattern => "the following arguments are required: pattern"
  | .unrecognized arguments => "unrecognized arguments: " ++ " ".intercalate arguments
  | .depthOutOfRange limit => "max depth must be between 1 and " ++ toString limit
  | .unknownFormat format => "unknown output format " ++ shown format

/-- One argument, by what it looks like. -/
inductive Argument
  | plain (text : String)
  /-- It looks like an option and is none. -/
  | unknown (text : String)
  /-- Two dashes: no option follows. -/
  | dashes
  | option (flag : Flag) (value : Option String)
  deriving DecidableEq, Repr

namespace Argument

/-- The part before the first equals sign and the part after it, if any. -/
def splitValue (cs : List Char) : List Char × Option String :=
  match cs.dropWhile (· != '=') with
  | [] => (cs, none)
  | _ :: value => (cs.takeWhile (· != '='), some (String.ofList value))

/-- The option that is spelled in full. -/
def spelledOut? (cs : List Char) : Option Flag :=
  Flag.spellings.lookup (String.ofList cs)

/-- Options that a shortened one may stand for. -/
def candidates (cs : List Char) : List (String × Flag × Option String) :=
  match cs with
  | '-' :: '-' :: _ =>
    let (name, value) := splitValue cs
    (Flag.spellings.filter fun spelling => name.isPrefixOf spelling.1.toList).map
      fun (spelling, flag) => (spelling, flag, value)
  | _ =>
    Flag.spellings.filterMap fun (spelling, flag) =>
      if spelling.toList = cs.take 2 then
        let tail := cs.drop 2
        some (spelling, flag, if tail.head? = some '-' then some (String.ofList tail) else none)
      else if cs.isPrefixOf spelling.toList then some (spelling, flag, none)
      else none

/-- Whether the text is a negative number, with or without a fraction. A line
feed may stand at its end. -/
def isNegativeNumber (cs : List Char) : Bool :=
  match cs with
  | '-' :: number =>
    let whole := number.takeWhile isDecimal
    let isEnd := fun rest : List Char => rest == [] || rest == ['\n']
    match number.dropWhile isDecimal with
    | '.' :: fraction =>
      !(fraction.takeWhile isDecimal).isEmpty && isEnd (fraction.dropWhile isDecimal)
    | rest => !whole.isEmpty && isEnd rest
  | _ => false

/-- What an argument looks like. -/
def ofText (s : String) : Except UsageError Argument :=
  let cs := s.toList
  match cs with
  | '-' :: _ :: _ =>
    match spelledOut? cs with
    | some flag => .ok (.option flag none)
    | none =>
      match splitValue cs with
      | (name, some value) =>
        match spelledOut? name with
        | some flag => .ok (.option flag (some value))
        | none => shortened cs
      | _ => shortened cs
  | _ => .ok (.plain s)
where
  /-- An argument that is no option in full. -/
  shortened (cs : List Char) : Except UsageError Argument :=
    match candidates cs with
    | [(_, flag, value)] => .ok (.option flag value)
    | [] =>
      if isNegativeNumber cs || cs.contains ' ' then .ok (.plain s) else .ok (.unknown s)
    | several => .error (.ambiguous s (several.map (·.1)))

/-- What all arguments look like. -/
def ofTexts : List String → Except UsageError (List Argument)
  | [] => .ok []
  | s :: rest =>
    if s = "--" then .ok (dashes :: rest.map plain)
    else do
      let first ← ofText s
      let others ← ofTexts rest
      .ok (first :: others)

end Argument

/-- An integer in decimal digits of any script, between blanks, with or without
a sign; single underscores may stand between digits. Too many digits are not
converted, also when most of them are zeros at the front. -/
def readInteger? (cs : List Char) : Option Int :=
  let (negative, digits) :=
    match skipBlanks (trimEnd cs) with
    | '-' :: digits => (true, digits)
    | '+' :: digits => (false, digits)
    | digits => (false, digits)
  match digitGroups false [] digits with
  | none => none
  | some read =>
    if digitLimit < read.length then none
    else some (if negative then -(digitsValue read.reverse : Int) else digitsValue read.reverse)
where
  /-- Digits of a text, last first, unless an underscore stands beside no digit. -/
  digitGroups (afterDigit : Bool) (read : List Char) : List Char → Option (List Char)
    | [] => if afterDigit then some read else none
    | c :: rest =>
      if isDecimal c then digitGroups true (c :: read) rest
      else if c = '_' ∧ afterDigit then digitGroups false read rest
      else none

/-- What the arguments ask for. -/
structure Request where
  pattern : Option String
  config : Option String
  tree : Bool
  format : Option String
  maxDepth : Option Int
  verbose : Bool
  /-- Arguments that are neither options nor the pattern. -/
  extra : List String
  deriving DecidableEq, Repr

namespace Request

/-- Nothing was asked for yet. -/
def empty : Request :=
  ⟨none, none, false, none, none, false, []⟩

/-- Set an option to its value. -/
def setValue (request : Request) (flag : Flag) (value : String) : Except UsageError Request :=
  match flag with
  | .config => .ok { request with config := some value }
  | .format =>
    if formats.contains value then .ok { request with format := some value }
    else .error (.notAChoice .format value)
  | .maxDepth =>
    match readInteger? value.toList with
    | some n => .ok { request with maxDepth := some n }
    | none => .error (.notAnInteger .maxDepth value)
  | _ => .error (.needlessValue flag value)

/-- Take the arguments one after the other. The result is none when help is
asked for. -/
def ofArguments (request : Request) : List Argument → Except UsageError (Option Request)
  | [] => .ok (some request)
  | .plain s :: .dashes :: rest =>
    if request.pattern.isNone then ofArguments { request with pattern := some s } rest
    else ofArguments { request with extra := request.extra ++ [s] } (.dashes :: rest)
  | .plain s :: rest =>
    if request.pattern.isNone then ofArguments { request with pattern := some s } rest
    else ofArguments { request with extra := request.extra ++ [s] } rest
  | .dashes :: .plain s :: rest =>
    if request.pattern.isNone then ofArguments { request with pattern := some s } rest
    else ofArguments { request with extra := request.extra ++ ["--", s] } rest
  | .dashes :: rest => ofArguments { request with extra := request.extra ++ ["--"] } rest
  | .unknown s :: rest => ofArguments { request with extra := request.extra ++ [s] } rest
  | .option flag (some value) :: rest => do
    let next ← request.setValue flag value
    ofArguments next rest
  | .option .help none :: _ => .ok none
  | .option .tree none :: rest => ofArguments { request with tree := true } rest
  | .option .verbose none :: rest => ofArguments { request with verbose := true } rest
  | .option flag none :: .plain value :: rest => do
    let next ← request.setValue flag value
    ofArguments next rest
  | .option flag none :: _ => .error (.missingValue flag)

/-- What a command line asks for, or none when it asks for help. A pattern is
required, and nothing may be left over. -/
def ofTexts (texts : List String) : Except UsageError (Option Request) := do
  let arguments ← Argument.ofTexts texts
  match ← ofArguments empty arguments with
  | none => .ok none
  | some request =>
    if request.pattern.isNone then .error .missingPattern
    else if request.extra ≠ [] then .error (.unrecognized request.extra)
    else .ok (some request)

end Request

end CyclePattern.Program
