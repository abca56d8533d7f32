/-
# The command line

The program reads one pattern and writes its events or its tree. An argument
comes before the configuration file, and the file before the default. What it
does is logged on standard error; a pattern that cannot be read ends with
status one, and arguments that make no sense end with status two.

The files that exist and the loader of a configuration file are given from
outside, and so is the room that the stack has for the export of a tree. The
loader gives back a mapping of sections, each a mapping of settings. Below is
what the program makes of it: which settings it looks up, and what stands for
one that is missing.
-/

import CyclePattern.Cycle
import CyclePattern.Export.Table
import CyclePattern.Program.Arguments

namespace CyclePattern.Program

/-- Name of the program in its log. -/
def defaultTopic : String := "uzu.__main__"

/-- Configuration file that is read when no other is named. -/
def defaultConfig : String := "uzu.yaml"

/-- Output format unless another is chosen. -/
def defaultFormat : String := "json"

/-- Number of places of the times in a table, unless another is chosen. -/
def defaultPlaces : Int := 4

/-- A setting as the loader of a configuration file gives it back. -/
inductive Setting
  | null
  | integer (value : Int)
  | text (value : String)
  | mapping (entries : List (String × Setting))

/-- Why a run breaks off without an outcome. -/
inductive Failure
  | pattern (fault : Fault)
  /-- The stack has no room for the calls that export a tree. -/
  | stackFull
  /-- No number is written with so many places. -/
  | places (count : Int)
  /-- The configuration cannot be loaded, or has a setting of a kind for which the
  program has no use. -/
  | configuration
  deriving DecidableEq, Repr

/-- Places from which on the writing of a number is refused. -/
def placesLimit : Int := twoPow 31

/-- Places that are too many to be looked at as a number of places. -/
def placesOverflow : Int := twoPow 63

/-- Wording of a failure. -/
def Failure.message : Failure → String
  | .pattern fault => fault.message
  | .stackFull => "maximum recursion depth exceeded"
  | .places count =>
    if count < 0 then "Format specifier missing precision"
    else if count < placesOverflow then "precision too big"
    else "Too many decimal digits in format string"
  | .configuration => "unusable configuration"

/-- What a run of the program leaves behind. -/
structure Outcome where
  status : Nat
  stdout : String
  stderr : String
  deriving DecidableEq, Repr

/-- One line of the log. -/
def logLine (level topic message : String) : String :=
  level ++ ":" ++ topic ++ ":" ++ message ++ "\n"

/-- A run that ends because of its arguments. -/
def refuse (log : String) (error : UsageError) : Outcome :=
  ⟨2, "", log ++ "uzu: error: " ++ error.message ++ "\n"⟩

/-- How the program is called. -/
def usage : String :=
  "usage: uzu [-h] [--config CONFIG] [--ast] [--format \x7bjson,table\x7d]\n" ++
    "           [--max-depth MAX_DEPTH] [--verbose]\n" ++
    "           pattern\n"

/-- Entries of a setting in which another one is looked up. What is missing or
empty has none. -/
def entriesOf : Option Setting → Except Failure (List (String × Setting))
  | none | some .null | some (.integer 0) | some (.text "") => .ok []
  | some (.mapping entries) => .ok entries
  | some _ => .error .configuration

/-- The configuration and what is logged about it. A missing file is worth a
warning only when it was asked for. -/
def loadConfig (topic : String) (load : String → Option Setting) (files : String → Option String)
    (request : Request) : Except Failure (Setting × String) :=
  let path :=
    match request.config with
    | none | some "" => defaultConfig
    | some path => path
  match files path with
  | some content =>
    match load content with
    | some config => .ok (config, "")
    | none => .error .configuration
  | none =>
    let message :=
      if request.config.isSome then
        logLine "WARNING" topic ("Config file " ++ path ++ " not found. Using defaults.")
      else if request.verbose then
        logLine "DEBUG" topic ("No config file at " ++ path ++ ". Using defaults.")
      else ""
    .ok (.mapping [], message)

/-- The nesting limit of a request, or else of the section on reading, or else
the default. -/
def limitOf (request : Request) (section? : Option Setting) : Except Failure Int :=
  match request.maxDepth with
  | some limit => .ok limit
  | none => do
    match (← entriesOf section?).lookup "max_depth" with
    | none => .ok defaultDepth
    | some (.integer limit) => .ok limit
    | some _ => .error .configuration

/-- The format of a request, or else of the section on output, or else the
default. -/
def formatOf (request : Request) (section? : Option Setting) : Except Failure String :=
  match request.format with
  | some format => .ok format
  | none => do
    match (← entriesOf section?).lookup "format" with
    | none => .ok defaultFormat
    | some (.text format) => .ok format
    | some _ => .error .configuration

/-- Number of places of the section on output, or else the default. -/
def placesOf (section? : Option Setting) : Except Failure Int := do
  match (← entriesOf section?).lookup "precision" with
  | none => .ok defaultPlaces
  | some (.integer places) => .ok places
  | some _ => .error .configuration

/-- Notices as lines of the log. -/
def noticeLines (verbose : Bool) (notices : List Notice) : String :=
  if verbose then
    String.join (notices.map fun notice => logLine "DEBUG" notice.topic notice.message)
  else ""

/-- End a run with the answer to its pattern. -/
def report {β : Type} (topic log : String) (verbose : Bool) (answer : Answer β)
    (render : β → Except Failure String) : Except Failure Outcome :=
  let log := log ++ noticeLines verbose answer.notices
  match answer.result with
  | .error fault => .error (.pattern fault)
  | .ok (.error error) =>
    .ok ⟨1, "",
      log ++ logLine "ERROR" topic ("Could not parse pattern: " ++ error.text) ++
        "error: " ++ error.text ++ "\n  at: " ++ error.remaining ++ "\n"⟩
  | .ok (.ok value) => (render value).map fun rendering => ⟨0, rendering ++ "\n", log⟩

/-- A tree in the format of the output, if the stack has room for its export. -/
def renderTree (room : Nat) (node : Node Float) : Except Failure String :=
  match node.export? room with
  | some data => .ok (Json.lines data)
  | none => .error .stackFull

/-- Events in the format of the output. Their times are written with a number of
places, if there is an event and a number can be written so. -/
def renderEvents (format : String) (places : Int) (events : List (Event Float)) :
    Except Failure String :=
  if format = "table" then
    if events ≠ [] ∧ ¬ (0 ≤ places ∧ places < placesLimit) then .error (.places places)
    else .ok (Table.write places.toNat events)
  else .ok (Json.lines (.list (events.map Event.toData)))

/-- Answer a request, given the text of its pattern. -/
def respond (topic : String) (load : String → Option Setting) (files : String → Option String)
    (room : Nat) (request : Request) (pattern : String) : Except Failure Outcome := do
  let (config, log) ← loadConfig topic load files request
  let sections ← entriesOf (some config)
  let limit ← limitOf request (sections.lookup "parser")
  let format ← formatOf request (sections.lookup "output")
  let places ← placesOf (sections.lookup "output")
  if !isDepth limit then .ok (refuse log (.depthOutOfRange depthLimit))
  else if !formats.contains format then .ok (refuse log (.unknownFormat format))
  else if request.tree then
    report topic log request.verbose (readTree pattern.toList limit) (renderTree room)
  else
    report topic log request.verbose (readCycle pattern.toList limit)
      (renderEvents format places)

/-- Run the program. The log names it by `topic`. A configuration file is read by
`load`, and `files` gives the contents of the files that exist. The stack has
room for `room` more calls when a tree is exported. -/
def run (topic : String) (load : String → Option Setting) (files : String → Option String)
    (room : Nat) (arguments : List String) : Except Failure Outcome :=
  match Request.ofTexts arguments with
  | .error error => .ok (refuse "" error)
  | .ok none => .ok ⟨0, usage, ""⟩
  | .ok (some request) => respond topic load files room request (request.pattern.getD "")

end CyclePattern.Program
