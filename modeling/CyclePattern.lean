import CyclePattern.Main
import CyclePattern.Cycle
import CyclePattern.Export.Table
import CyclePattern.Pattern.Session
import CyclePattern.Proofs.Grammar.Problems
import CyclePattern.Proofs.Grammar.Tiling
import CyclePattern.Proofs.Grammar.Juxtaposition
import CyclePattern.Proofs.Grammar.Nesting
import CyclePattern.Proofs.Grammar.WellFormed
import CyclePattern.Proofs.Number.Positive
import CyclePattern.Proofs.Number.Exact
import CyclePattern.Proofs.Rhythm.Euclidean
import CyclePattern.Proofs.Rhythm.Distribution
import CyclePattern.Proofs.Rhythm.Evenness
import CyclePattern.Proofs.Tree.Exact
import CyclePattern.Proofs.Tree.Gapless
import CyclePattern.Proofs.Performance.Faults
import CyclePattern.Proofs.Performance.Answer
import CyclePattern.Proofs.Performance.Safety
import CyclePattern.Proofs.Performance.Playing
import CyclePattern.Proofs.Performance.Placement
import CyclePattern.Proofs.Performance.Succession
import CyclePattern.Proofs.Performance.Slots
import CyclePattern.Proofs.Performance.Division
import CyclePattern.Proofs.Performance.Containment
import CyclePattern.Proofs.Performance.Monophony
import CyclePattern.Proofs.Tree.Emissions
import CyclePattern.Proofs.Performance.Scaling
import CyclePattern.Proofs.Performance.Origin
import CyclePattern.Proofs.Performance.Params
import CyclePattern.Proofs.Performance.Rounds
import CyclePattern.Proofs.Grammar.Enclosure
import CyclePattern.Proofs.Performance.Relocation
import CyclePattern.Proofs.Performance.Grouping
import CyclePattern.Proofs.Session.Descent
import CyclePattern.Proofs.Lexing.Sound
import CyclePattern.Proofs.Lexing.Conversion
import CyclePattern.Proofs.Grammar.GroupNumber
import CyclePattern.Proofs.Grammar.SeparatorDot
import CyclePattern.Proofs.Lexing.Split
import CyclePattern.Proofs.Lexing.Choice
import CyclePattern.Proofs.Lexing.Control
import CyclePattern.Proofs.Text.Location
import CyclePattern.Proofs.Rhythm.Rotation
import CyclePattern.Proofs.Performance.SlotOwner
import CyclePattern.Proofs.Performance.Copies
import CyclePattern.Proofs.Performance.Folding
import CyclePattern.Proofs.Export.Lossless
import CyclePattern.Proofs.Session.Progress
import CyclePattern.Proofs.Export.Visible
import CyclePattern.Proofs.Export.Table
import CyclePattern.Proofs.Program.CommandLine
