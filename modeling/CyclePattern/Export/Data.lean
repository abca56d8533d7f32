/-
# Exported data

Trees and events leave the program as plain data: named fields in a fixed
order, lists, texts and numbers. Whole numbers and measures are kept apart, and
so are a field that is not set and one that is.

A tree is exported by calls inside calls, several for each level of its groups,
so a deep one is exported only where the stack has room for them.
-/

import CyclePattern.Performance.Event

namespace CyclePattern

/-- Plain data over the numbers that measure time. -/
inductive Data (α : Type)
  | null
  | int (value : Int)
  | number (value : α)
  | text (value : String)
  | list (items : List (Data α))
  | record (fields : List (String × Data α))

namespace Data

variable {α : Type}

/-- A whole number that may be missing. -/
def ofInt? : Option Int → Data α
  | none => null
  | some n => int n

/-- A measure that may be missing. -/
def ofNumber? : Option α → Data α
  | none => null
  | some x => number x

/-- A text that may be missing. -/
def ofText? : Option String → Data α
  | none => null
  | some s => text s

/-- Both ends of a span as fields. -/
def spanFields (span : Span) : List (String × Data α) :=
  [("source_start", ofInt? span.start), ("source_end", ofInt? span.stop)]

/-- Controls as fields, in their order. -/
def controlFields (controls : Controls α) : List (String × Data α) :=
  controls.map fun control => (control.1, number control.2)

end Data

variable {α : Type}

/-- Arguments of a rhythm as a list. -/
def Euclid.toData (euclid : Euclid) : Data α :=
  .list [.int euclid.pulses, .int euclid.steps, .int euclid.rotation]

/-- Name of the kind of harmony in a tree. -/
def Harmony.typeName : Harmony → String
  | .degree _ | .alteredDegree _ => "scale_degree"
  | .chord _ => "chord_symbol"
  | .roman _ => "roman_numeral"

/-- Name of the kind of harmony in an event. -/
def Harmony.kindName : Harmony → String
  | .degree _ | .alteredDegree _ => "degree"
  | .chord _ => "chord"
  | .roman _ => "roman"

/-- What the harmony names: a number for a plain degree, a text otherwise. -/
def Harmony.valueData : Harmony → Data α
  | .degree number => .int number
  | .alteredDegree name => .text name
  | .chord name => .text name
  | .roman name => .text name

/-- Fields of a sound without its span. -/
def Atom.fields (sound : Atom α) : List (String × Data α) :=
  [("value", .text sound.name),
    ("sample", .ofInt? sound.sample),
    ("weight", .number sound.weight),
    ("repeat", .ofInt? sound.repeats),
    ("replicate", .ofInt? sound.copies),
    ("probability", .ofNumber? sound.probability),
    ("division", .ofNumber? sound.division),
    ("ratio", .ofNumber? sound.ratio),
    ("euclidean", (sound.euclid.map Euclid.toData).getD .null),
    ("params", .record (Data.controlFields (Controls.ofList sound.controls)))]

/-- A tree as plain data. -/
def Node.toData : Node α → Data α
  | .empty => .record [("type", .text "node")]
  | .atom sound span =>
    .record (("type", .text "atom") :: sound.fields ++ Data.spanFields span)
  | .rest span => .record (("type", .text "rest") :: Data.spanFields span)
  | .elongation span => .record (("type", .text "elongation") :: Data.spanFields span)
  | .harmony leaf text span =>
    .record
      ([("type", .text leaf.typeName), ("value", leaf.valueData), ("text", .text text)] ++
        Data.spanFields span)
  | .sequence children =>
    .record [("type", .text "sequence"), ("children", .list (children.map fun c => c.toData))]
  | .stack groups =>
    .record [("type", .text "stack"), ("groups", .list (groups.map fun g => g.toData))]
  | .subdivision inner repeats division ratio span =>
    .record
      ([("type", .text "subdivision"), ("inner", inner.toData), ("repeat", .ofInt? repeats),
          ("division", .ofNumber? division), ("ratio", .ofNumber? ratio)] ++
        Data.spanFields span)
  | .alternation options repeats division span =>
    .record
      ([("type", .text "alternation"), ("options", .list (options.map fun o => o.toData)),
          ("repeat", .ofInt? repeats), ("division", .ofNumber? division)] ++
        Data.spanFields span)
  | .polymetric groups steps span =>
    .record
      ([("type", .text "polymetric"), ("groups", .list (groups.map fun g => g.toData)),
          ("steps", .ofInt? steps)] ++
        Data.spanFields span)
  | .choice options span =>
    .record
      ([("type", .text "random_choice"), ("options", .list (options.map fun o => o.toData))] ++
        Data.spanFields span)

/-- Most calls that are open at once while a tree is exported. Each node is a call
that first lists its fields, which takes two more. A group takes a call for its
field, one for a list in that field and one for each member of the list; a sound
is exported by the call of any node inside its own, and goes through the pairs of
its controls. -/
def Node.exportCalls : Node α → Nat
  | .empty | .rest _ | .elongation _ | .harmony .. => 3
  | .atom sound _ => if sound.controls.isEmpty then 4 else 7
  | .subdivision inner _ _ _ _ => 2 + inner.exportCalls
  | .sequence members | .stack members | .alternation members _ _ _ | .polymetric members _ _
  | .choice members _ =>
    (members.map fun member => 4 + member.exportCalls).foldl max 3

/-- A tree as plain data, if the stack has room for the calls of its export. -/
def Node.export? (room : Nat) (node : Node α) : Option (Data α) :=
  if node.exportCalls ≤ room then some node.toData else none

/-- One option of a choice as plain data. -/
def OptionSound.toData (option : OptionSound α) : Data α :=
  .record
    [("sound", .ofText? option.sound), ("sample", .ofInt? option.sample),
      ("probability", .ofNumber? option.probability)]

/-- Name under which an event lists the options of a choice. -/
def ChoiceKind.fieldName : ChoiceKind → String
  | .alternation => "alternate"
  | .randomChoice => "random_choice"

/-- Fields of what an event carries besides its controls. -/
def Detail.fields : Detail α → List (String × Data α)
  | .plain => []
  | .harmony leaf =>
    [("harmony_type", .text leaf.kindName), ("harmony_value", leaf.valueData)]
  | .options kind sounds =>
    [(kind.fieldName, .list (sounds.map OptionSound.toData))]

/-- Everything that an event hands to a voice, in order. -/
def Event.params (event : Event α) : List (String × Data α) :=
  event.detail.fields ++ Data.controlFields event.controls

/-- An event as plain data. -/
def Event.toData (event : Event α) : Data α :=
  .record
    ([("sound", .text event.sound), ("sample", .ofInt? event.sample),
        ("time", .number event.time), ("duration", .number event.duration),
        ("params", .record event.params)] ++
      Data.spanFields event.span)

end CyclePattern
