/-
# The command line asks the library

A request is refused, with status two and nothing on standard output, exactly when its nesting limit
is out of range or its format is none. A run of any other writes what the library answers to the
pattern under that limit: a value in the format that was chosen, or the error in the pattern on
standard error, with status one. A tree for whose export the stack has no room is not written, and
neither is a time with more places than a number can have.

Each setting comes from the arguments, else from the configuration file, else from the defaults. The
file is what its loader makes of it: missing, empty, or a mapping of sections.
-/

import CyclePattern.Program.CommandLine
import CyclePattern.Proofs.Performance.Answer
import CyclePattern.Proofs.Program.Arguments

namespace CyclePattern.Program

open Text

/-- A file is missing, or is loaded as something empty or as a mapping. -/
inductive IsMapping (load : String → Option Setting) :
    Option String → List (String × Setting) → Prop
  | missing : IsMapping load none []
  | empty {content : String} (hload : load content = some .null) : IsMapping load (some content) []
  | given {content : String} {entries : List (String × Setting)}
      (hload : load content = some (.mapping entries)) : IsMapping load (some content) entries

/-- A section of a mapping is missing, empty, or a mapping itself. -/
inductive IsSection (entries : List (String × Setting)) (name : String) :
    List (String × Setting) → Prop
  | missing (hlookup : entries.lookup name = none) : IsSection entries name []
  | empty (hlookup : entries.lookup name = some .null) : IsSection entries name []
  | given {section' : List (String × Setting)}
      (hlookup : entries.lookup name = some (.mapping section')) : IsSection entries name section'

/-- Settings of a configuration file, each of which may be missing. -/
structure FileSettings where
  maxDepth : Option Int
  format : Option String
  precision : Option Nat

/-- What a configuration file sets. Its sections may hold other entries besides. -/
inductive Sets (load : String → Option Setting) (file : Option String) (settings : FileSettings) :
    Prop
  | intro {entries parser output : List (String × Setting)} (hentries : IsMapping load file entries)
      (hparser : IsSection entries "parser" parser) (houtput : IsSection entries "output" output)
      (hmaxDepth : parser.lookup "max_depth" = settings.maxDepth.map .integer)
      (hformat : output.lookup "format" = settings.format.map .text)
      (hprecision : output.lookup "precision" =
        settings.precision.map fun places => .integer places) :
      Sets load file settings

/-- The number of places in a table: as in the file, else four. -/
def FileSettings.places (settings : FileSettings) : Nat :=
  settings.precision.getD 4

namespace Request

/-- Where the configuration file is. -/
def configPath (request : Request) : String :=
  match request.config with
  | none | some "" => "uzu.yaml"
  | some path => path

/-- The nesting limit: as given, else as in the file, else sixty-four. -/
def depthUnder (request : Request) (settings : FileSettings) : Int :=
  request.maxDepth.getD (settings.maxDepth.getD 64)

/-- The format: as given, else as in the file, else JSON. -/
def formatUnder (request : Request) (settings : FileSettings) : String :=
  request.format.getD (settings.format.getD "json")

end Request

/-- A tree is written as JSON where the stack has room for its export. -/
inductive ShowsTree (room : Nat) (node : Node Float) : Except Failure String → Prop
  | lines (hroom : node.exportCalls ≤ room) : ShowsTree room node (.ok (Json.lines node.toData))
  | full (hroom : room < node.exportCalls) : ShowsTree room node (.error .stackFull)

/-- Events are written as JSON or as a table, unless there are times to be written with too many
places. -/
inductive ShowsEvents (format : String) (places : Nat) (events : List (Event Float)) :
    Except Failure String → Prop
  | lines (hformat : format = "json") :
      ShowsEvents format places events (.ok (Json.lines (.list (events.map Event.toData))))
  | table (hformat : format = "table") (hplaces : events = [] ∨ places < 2 ^ 31) :
      ShowsEvents format places events (.ok (Table.write places events))
  | tooMany (hformat : format = "table") (hevents : events ≠ []) (hplaces : 2 ^ 31 ≤ places) :
      ShowsEvents format places events (.error (.places places))

/-- A run reports what the library answers: a value on standard output, if it can be written, an
error in the pattern in the last lines of standard error, and a fault as it is. -/
inductive Reports {β : Type} (Shows : β → Except Failure String → Prop) :
    Except Fault (Except PatternError β) → Except Failure Outcome → Prop
  | value {value : β} {text : String} (hshows : Shows value (.ok text)) (log : String) :
      Reports Shows (.ok (.ok value)) (.ok ⟨0, text ++ "\n", log⟩)
  | unwritten {value : β} {failure : Failure} (hshows : Shows value (.error failure)) :
      Reports Shows (.ok (.ok value)) (.error failure)
  | error (error : PatternError) (log : String) :
      Reports Shows (.ok (.error error))
        (.ok ⟨1, "", log ++ "\nerror: " ++ error.text ++ "\n  at: " ++ error.remaining ++ "\n"⟩)
  | fault (fault : Fault) : Reports Shows (.error fault) (.error (.pattern fault))

theorem reports_report {β : Type} {Shows : β → Except Failure String → Prop}
    {render : β → Except Failure String} (hrender : ∀ value, Shows value (render value))
    (topic log : String) (verbose : Bool) (answer : Answer β) :
    Reports Shows answer.result (report topic log verbose answer render) := by
  rw [report]
  rcases answer.result with fault | error | value
  · exact .fault fault
  · have hlines : "\nerror: " = "\n" ++ "error: " := rfl
    have hlog : log ++ noticeLines verbose answer.notices ++
        logLine "ERROR" topic ("Could not parse pattern: " ++ error.text) ++ "error: " =
        log ++ noticeLines verbose answer.notices ++ ("ERROR" ++ ":" ++ topic ++ ":" ++
          ("Could not parse pattern: " ++ error.text)) ++ "\nerror: " := by
      rw [hlines, logLine]
      simp only [String.append_assoc]
    change Reports Shows _ (.ok ⟨1, "", _ ++ _ ++ "error: " ++ _ ++ _ ++ _ ++ _⟩)
    rw [hlog]
    exact .error error _
  · have hshows := hrender value
    dsimp only
    cases hwritten : render value with
    | error failure => exact .unwritten (hwritten ▸ hshows)
    | ok text => exact .value (hwritten ▸ hshows) _

/-- A run is not refused where it reports something. -/
theorem Reports.ne_refused {β : Type} {Shows : β → Except Failure String → Prop}
    {result : Except Fault (Except PatternError β)} {outcome : Except Failure Outcome}
    (hreports : Reports Shows result outcome) (log : String) : outcome ≠ .ok ⟨2, "", log⟩ := by
  cases hreports <;> simp

theorem showsTree_renderTree (room : Nat) (node : Node Float) :
    ShowsTree room node (renderTree room node) := by
  by_cases hroom : node.exportCalls ≤ room
  · rw [renderTree, Node.export?, if_pos hroom]
    exact .lines hroom
  · rw [renderTree, Node.export?, if_neg hroom]
    exact .full (Nat.not_le.mp hroom)

theorem mem_formats_iff {name : String} : name ∈ formats ↔ name = "json" ∨ name = "table" := by
  simp [formats]

theorem showsEvents_renderEvents {format : String} (hformat : format ∈ formats) (places : Nat)
    (events : List (Event Float)) :
    ShowsEvents format places events (renderEvents format places events) := by
  rcases mem_formats_iff.mp hformat with rfl | rfl
  · exact .lines rfl
  · have hwritable : (0 ≤ (places : Int) ∧ (places : Int) < placesLimit) ↔ places < 2 ^ 31 := by
      have hlimit : twoPow 31 = 2 ^ 31 := rfl
      rw [placesLimit, hlimit]
      omega
    rw [renderEvents, if_pos rfl]
    simp only [hwritable]
    split
    · next hmany => exact .tooMany rfl hmany.1 (Nat.not_lt.mp hmany.2)
    · next hfew =>
        rw [not_and_or, not_not, not_not] at hfew
        exact .table rfl hfew

theorem isDepth_iff {limit : Int} : isDepth limit = true ↔ 1 ≤ limit ∧ limit ≤ 128 := by
  rw [isDepth, Bool.and_eq_true, decide_eq_true_eq, decide_eq_true_eq, depthLimit]

section

variable {topic : String} {load : String → Option Setting} {files : String → Option String}
  {room : Nat} {request : Request} {pattern : String} {settings : FileSettings}
  {entries : List (String × Setting)}

theorem entriesOf_of_isSection {name : String} {found : List (String × Setting)}
    (hfound : IsSection entries name found) : entriesOf (entries.lookup name) = .ok found := by
  cases hfound with
  | missing hlookup => rw [hlookup, entriesOf]
  | empty hlookup => rw [hlookup, entriesOf]
  | given hlookup => rw [hlookup, entriesOf]

theorem exists_loadConfig (topic : String)
    (hentries : IsMapping load (files request.configPath) entries) :
    ∃ config log, loadConfig topic load files request = .ok (config, log) ∧
      entriesOf (some config) = .ok entries := by
  unfold loadConfig
  dsimp only
  split
  · next content hcontent =>
      have hfile : files request.configPath = some content := hcontent
      rw [hfile] at hentries
      cases hentries with
      | empty hload =>
          rw [hload]
          exact ⟨_, _, rfl, rfl⟩
      | given hload =>
          rw [hload]
          exact ⟨_, _, rfl, rfl⟩
  · next hmissing =>
      have hfile : files request.configPath = none := hmissing
      rw [hfile] at hentries
      cases hentries
      exact ⟨_, _, rfl, rfl⟩

theorem limitOf_eq {parser : List (String × Setting)} (hparser : IsSection entries "parser" parser)
    (hmaxDepth : parser.lookup "max_depth" = settings.maxDepth.map .integer) :
    limitOf request (entries.lookup "parser") = .ok (request.depthUnder settings) := by
  rw [limitOf, Request.depthUnder]
  cases request.maxDepth with
  | some limit => rfl
  | none =>
      rw [entriesOf_of_isSection hparser]
      dsimp only [bind, Except.bind]
      rw [hmaxDepth]
      cases settings.maxDepth <;> rfl

theorem formatOf_eq {output : List (String × Setting)} (houtput : IsSection entries "output" output)
    (hformat : output.lookup "format" = settings.format.map .text) :
    formatOf request (entries.lookup "output") = .ok (request.formatUnder settings) := by
  rw [formatOf, Request.formatUnder]
  cases request.format with
  | some name => rfl
  | none =>
      rw [entriesOf_of_isSection houtput]
      dsimp only [bind, Except.bind]
      rw [hformat]
      cases settings.format <;> rfl

theorem placesOf_eq {output : List (String × Setting)} (houtput : IsSection entries "output" output)
    (hprecision : output.lookup "precision" =
      settings.precision.map fun places => .integer places) :
    placesOf (entries.lookup "output") = .ok (settings.places : Int) := by
  rw [placesOf, FileSettings.places, entriesOf_of_isSection houtput]
  dsimp only [bind, Except.bind]
  rw [hprecision]
  cases settings.precision <;> rfl

/-- How a request is answered under its settings. -/
theorem exists_respond_eq (topic : String) (room : Nat) (pattern : String)
    (hsets : Sets load (files request.configPath) settings) :
    ∃ log error, respond topic load files room request pattern =
      if ¬ isDepth (request.depthUnder settings) = true ∨
          request.formatUnder settings ∉ formats then
        .ok (refuse log error)
      else if request.tree = true then
        report topic log request.verbose (readTree pattern.toList (request.depthUnder settings))
          (renderTree room)
      else
        report topic log request.verbose (readCycle pattern.toList (request.depthUnder settings))
          (renderEvents (request.formatUnder settings) settings.places) := by
  obtain ⟨hentries, hparser, houtput, hmaxDepth, hformat, hprecision⟩ := hsets
  obtain ⟨config, log, hload, hconfig⟩ := exists_loadConfig topic hentries
  refine ⟨log, if isDepth (request.depthUnder settings) = true then
    .unknownFormat (request.formatUnder settings) else .depthOutOfRange depthLimit, ?_⟩
  rw [respond, hload]
  change (entriesOf (some config) >>= _) = _
  rw [hconfig]
  change (limitOf request (List.lookup "parser" _) >>= _) = _
  rw [limitOf_eq hparser hmaxDepth]
  change (formatOf request (List.lookup "output" _) >>= _) = _
  rw [formatOf_eq houtput hformat]
  change (placesOf (List.lookup "output" _) >>= _) = _
  rw [placesOf_eq houtput hprecision]
  change (if (!isDepth (request.depthUnder settings)) = true then _ else
    if (!formats.contains (request.formatUnder settings)) = true then _ else _) = _
  cases isDepth (request.depthUnder settings) with
  | false => rfl
  | true =>
      by_cases hknown : request.formatUnder settings ∈ formats
      · have hcontains : formats.contains (request.formatUnder settings) = true :=
          List.contains_iff_mem.mpr hknown
        rw [hcontains]
        exact (if_neg (by simp [hknown])).symm
      · have hcontains : formats.contains (request.formatUnder settings) = false := by
          rwa [Bool.eq_false_iff, Ne, List.contains_iff_mem]
        rw [hcontains]
        exact (if_pos (.inr hknown)).symm

/-- How a run reports the answer to a pattern. -/
def ReportsAnswer (room : Nat) (settings : FileSettings) (request : Request) (pattern : String)
    (outcome : Except Failure Outcome) : Prop :=
  if request.tree = true then
    ∃ answer, parseTree pattern (request.depthUnder settings) = .ok answer ∧
      Reports (ShowsTree room) answer.result outcome
  else
    ∃ answer, parseCycle pattern (request.depthUnder settings) = .ok answer ∧
      Reports (ShowsEvents (request.formatUnder settings) settings.places) answer.result outcome

theorem ReportsAnswer.ne_refused {outcome : Except Failure Outcome}
    (hreports : ReportsAnswer room settings request pattern outcome) (log : String) :
    outcome ≠ .ok ⟨2, "", log⟩ := by
  rw [ReportsAnswer] at hreports
  split at hreports
  · obtain ⟨answer, -, hanswer⟩ := hreports
    exact hanswer.ne_refused log
  · obtain ⟨answer, -, hanswer⟩ := hreports
    exact hanswer.ne_refused log

theorem reportsAnswer_respond (hsets : Sets load (files request.configPath) settings)
    (hdepth : isDepth (request.depthUnder settings) = true)
    (hformat : request.formatUnder settings ∈ formats) :
    ReportsAnswer room settings request pattern
      (respond topic load files room request pattern) := by
  obtain ⟨log, error, hrespond⟩ := exists_respond_eq topic room pattern hsets
  rw [hrespond, if_neg (by simp [hdepth, hformat]), ReportsAnswer]
  split
  · exact ⟨_, if_pos hdepth, reports_report (showsTree_renderTree room) _ _ _ _⟩
  · exact ⟨_, if_pos hdepth, reports_report (showsEvents_renderEvents hformat _) _ _ _ _⟩

theorem respond_of_unsuited (hsets : Sets load (files request.configPath) settings)
    (hunsuited : ¬ isDepth (request.depthUnder settings) = true ∨
      request.formatUnder settings ∉ formats) :
    ∃ log, respond topic load files room request pattern = .ok ⟨2, "", log⟩ := by
  obtain ⟨log, error, hrespond⟩ := exists_respond_eq topic room pattern hsets
  rw [hrespond, if_pos hunsuited]
  exact ⟨_, rfl⟩

/-- What is given in the arguments comes before the file, so a request that is unsuited by itself
stays so. -/
theorem unsuited_under (hunsuited : request.Unsuited) (settings : FileSettings) :
    ¬ isDepth (request.depthUnder settings) = true ∨ request.formatUnder settings ∉ formats := by
  rcases hunsuited with ⟨name, hname, hnone⟩ | ⟨limit, hlimit, hlong⟩
  · right
    rwa [Request.formatUnder, hname, Option.getD_some]
  · left
    have hlarge : 10 ^ 3 ≤ limit.natAbs :=
      (Nat.pow_le_pow_right (by decide) (by decide : 3 ≤ digitLimit)).trans hlong
    rw [Request.depthUnder, hlimit, Option.getD_some, isDepth_iff]
    omega

/-- A run answers its request, or refuses arguments that are unsuited. -/
theorem run_of_spelled (topic : String) (load : String → Option Setting)
    (files : String → Option String) (room : Nat) {texts : List String}
    (hspelled : Request.Spelled .empty texts request) (hpattern : request.pattern = some pattern) :
    run topic load files room texts = respond topic load files room request pattern ∨
      (∃ log, run topic load files room texts = .ok ⟨2, "", log⟩) ∧ request.Unsuited := by
  rcases Request.ofTexts_of_spelled hspelled (by simp [hpattern]) with
    htexts | ⟨⟨error, htexts⟩, hunsuited⟩
  · left
    rw [run, htexts]
    show respond topic load files room request (request.pattern.getD "") = _
    rw [hpattern]
    rfl
  · right
    rw [run, htexts]
    exact ⟨⟨_, rfl⟩, hunsuited⟩

/-- A request is refused if its nesting limit is out of range or its format is none, for the tree as
well as for the events, and then nothing is on standard output. Otherwise a run reports what the
library answers to the pattern under that limit. Every request can be spelled, and it makes no
difference how it is. -/
theorem run_refuses_or_reports (topic : String) (room : Nat)
    (hpattern : request.pattern = some pattern) (hextra : request.extra = [])
    (hsets : Sets load (files request.configPath) settings) :
    (∃ texts, Request.Spelled .empty texts request) ∧
      ∀ texts, Request.Spelled .empty texts request →
        ((∃ log, run topic load files room texts = .ok ⟨2, "", log⟩) ↔
            ¬ (1 ≤ request.depthUnder settings ∧ request.depthUnder settings ≤ 128) ∨
              (request.formatUnder settings ≠ "json" ∧ request.formatUnder settings ≠ "table")) ∧
          (1 ≤ request.depthUnder settings → request.depthUnder settings ≤ 128 →
            (request.formatUnder settings = "json" ∨ request.formatUnder settings = "table") →
            ReportsAnswer room settings request pattern
              (run topic load files room texts)) := by
  refine ⟨Request.exists_spelled (by simp [hpattern]) hextra, ?_⟩
  intro texts hspelled
  have hrun := run_of_spelled topic load files room hspelled hpattern
  have hreports : 1 ≤ request.depthUnder settings → request.depthUnder settings ≤ 128 →
      (request.formatUnder settings = "json" ∨ request.formatUnder settings = "table") →
      ReportsAnswer room settings request pattern (run topic load files room texts) := by
    intro hlow hhigh hformat
    rw [← mem_formats_iff] at hformat
    have hdepth := isDepth_iff.mpr ⟨hlow, hhigh⟩
    rcases hrun with hrun | ⟨-, hunsuited⟩
    · rw [hrun]
      exact reportsAnswer_respond hsets hdepth hformat
    · rcases unsuited_under hunsuited settings with hnone | hnone
      · exact absurd hdepth hnone
      · exact absurd hformat hnone
  refine ⟨⟨?_, ?_⟩, hreports⟩
  · rintro ⟨log, hrefused⟩
    by_contra hsuited
    push Not at hsuited
    obtain ⟨⟨hlow, hhigh⟩, hformat⟩ := hsuited
    have hknown : request.formatUnder settings = "json" ∨
        request.formatUnder settings = "table" := by
      tauto
    exact (hreports hlow hhigh hknown).ne_refused log hrefused
  · intro hunsuited
    rcases hrun with hrun | ⟨hrefused, -⟩
    · rw [hrun]
      apply respond_of_unsuited hsets
      rw [isDepth_iff, mem_formats_iff, not_or]
      exact hunsuited
    · exact hrefused

/-- A pattern that ends inside a group, under a file that chooses a table of two places. The run
ends with status one and shows where the group starts. -/
theorem run_refuses_or_reports_of_opener :
    let content := "output:\n  format: table\n  precision: 2\n"
    let output : List (String × Setting) := [("format", .text "table"), ("precision", .integer 2)]
    let load : String → Option Setting := fun text =>
      if text = content then some (.mapping [("output", .mapping output)]) else none
    let files : String → Option String := fun path =>
      if path = "uzu.yaml" then some content else none
    let request : Request := ⟨some "[a", none, false, none, some 2, false, []⟩
    let settings : FileSettings := ⟨none, some "table", some 2⟩
    let error := PatternError.ofCause ['[', 'a'] (.unterminated .square) 0
    Sets load (files request.configPath) settings ∧
      Request.Spelled .empty ["--max-depth", "2", "[a"] request ∧
      ∃ log, run "uzu.__main__" load files 990 ["--max-depth", "2", "[a"] = .ok ⟨1, "",
        log ++ "\nerror: " ++ error.text ++ "\n  at: " ++ error.remaining ++ "\n"⟩ := by
  intro content output load files request settings error
  have hsets : Sets load (files request.configPath) settings :=
    .intro (.given rfl) (.missing rfl) (.given rfl) rfl rfl rfl
  have hspelled : Request.Spelled .empty ["--max-depth", "2", "[a"] request :=
    .maxDepth (.next (by decide +kernel)) (by decide +kernel) rfl
      (.pattern (by decide +kernel) rfl (.done request))
  have hanswer : (readCycle "[a".toList 2).result = .ok (.error error) := by
    have htokens : tokens "[a".toList = [.opening .square, .word ['a']] := by decide +kernel
    rw [readCycle_result, readTree_result, Reading.ofText, htokens]
    simp (disch := decide) only [Reading.ofTokens, Progress.step_word]
    rfl
  obtain ⟨-, hruns⟩ := run_refuses_or_reports "uzu.__main__" 990 rfl rfl hsets
  obtain ⟨-, hreports⟩ := hruns _ hspelled
  obtain ⟨answer, hparse, hreported⟩ := hreports (by decide) (by decide) (.inr rfl)
  have hsame : readCycle "[a".toList 2 = answer := Except.ok.inj hparse
  rw [← hsame, hanswer] at hreported
  refine ⟨hsets, hspelled, ?_⟩
  generalize run "uzu.__main__" load files 990 ["--max-depth", "2", "[a"] = outcome at hreported
  cases hreported with
  | error _ log => exact ⟨log, rfl⟩

/-- A pattern that starts with a dash and stands alone is taken for an option. The run is refused,
with the nesting limit and the format that stand by default. -/
theorem run_of_dashed_pattern :
    (∃ log, run "uzu.__main__" (fun _ => none) (fun _ => none) 990 ["-bd"] = .ok ⟨2, "", log⟩) ∧
      1 ≤ defaultDepth ∧ defaultDepth ≤ 128 ∧ defaultFormat = "json" :=
  ⟨⟨_, rfl⟩, by decide, by decide, rfl⟩

end

end CyclePattern.Program
