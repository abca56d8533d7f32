/-
# The program

Standard output and standard error are written as the run has left them. A run
that breaks off, because of numbers that cannot be computed with or a tree that
is too deep to be exported, says why on standard error.
-/

import CyclePattern.Program.CommandLine

open CyclePattern Program

/-- Calls that the stack has room for: a thousand, less those that are open when
a tree is exported. -/
def stackRoom : Nat := 998

/-- The contents of the configuration file, if it exists. -/
def readFile (path : String) : IO (Option String) := do
  try
    return some (← IO.FS.readFile path)
  catch _ =>
    return none

/-- Run the program with a loader of configuration files and the given
arguments. -/
def program (load : String → Option Setting) (arguments : List String) : IO UInt32 := do
  let named :=
    match Request.ofTexts arguments with
    | .ok (some request) => request.config.getD ""
    | _ => ""
  let path := if named = "" then defaultConfig else named
  let content ← readFile path
  let files := fun name => if name = path then content else none
  match run defaultTopic load files stackRoom arguments with
  | .ok outcome =>
    (← IO.getStdout).putStr outcome.stdout
    (← IO.getStderr).putStr outcome.stderr
    return outcome.status.toUInt32
  | .error failure =>
    (← IO.getStderr).putStr (failure.message ++ "\n")
    return 1
