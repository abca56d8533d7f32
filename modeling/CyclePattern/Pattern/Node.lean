/-
# The tree of a pattern

A pattern is read into a tree. Leaves are sounds, rests, elongations and
harmony; groups divide, layer or alternate what they hold. Leaves and groups
record the stretch of source text that they were read from, so that an editor
can point at them.

The tree does not promise that its numbers make sense: the reader sets only
sensible ones, and playing a tree that was built by hand reports the rest.
-/

import CyclePattern.Pattern.Controls

namespace CyclePattern

/-- Stretch of source text, from an offset up to another one. A tree that was
built by hand may leave either end open. -/
structure Span where
  start : Option Int
  stop : Option Int
  deriving DecidableEq, Repr

/-- The span between two known offsets. -/
def Span.between (start stop : Int) : Span :=
  ⟨some start, some stop⟩

/-- Arguments of a Euclidean rhythm. -/
structure Euclid where
  pulses : Int
  steps : Int
  rotation : Int
  deriving DecidableEq, Repr

/-- A sound name with everything that may follow it. -/
structure Atom (α : Type) where
  name : String
  /-- Which sample of the sound. -/
  sample : Option Int
  /-- Share of the enclosing window, relative to the other items. -/
  weight : α
  /-- Number of equal parts that are played one after the other. -/
  repeats : Option Int
  /-- Number of copies inside each part. -/
  copies : Option Int
  /-- Chance that the sound is played. -/
  probability : Option α
  /-- Number of cycles over which the sound is spread. -/
  division : Option α
  /-- Length of the sound relative to its playback at normal speed. -/
  ratio : Option α
  euclid : Option Euclid
  /-- Numbers handed to the voice, as they were written. -/
  controls : List (String × α)
  deriving DecidableEq, Repr

/-- What a harmony leaf names. -/
inductive Harmony
  /-- A degree of the scale, counted from one. -/
  | degree (number : Int)
  /-- A degree that is raised or lowered, as it is written. -/
  | alteredDegree (name : String)
  | chord (name : String)
  | roman (name : String)
  deriving DecidableEq, Repr

/-- Tree of a pattern. -/
inductive Node (α : Type)
  /-- A node without contents. It is silent. -/
  | empty
  | atom (sound : Atom α) (span : Span)
  /-- Silence that takes up its share. -/
  | rest (span : Span)
  /-- A step that lengthens the item before it. -/
  | elongation (span : Span)
  | harmony (leaf : Harmony) (text : String) (span : Span)
  /-- Items that share their window by weight. -/
  | sequence (children : List (Node α))
  /-- Parts that sound together. -/
  | stack (groups : List (Node α))
  /-- A group in square brackets. -/
  | subdivision (inner : Node α) (repeats : Option Int) (division ratio : Option α) (span : Span)
  /-- A group in angle brackets, one option a cycle. -/
  | alternation (options : List (Node α)) (repeats : Option Int) (division : Option α) (span : Span)
  /-- A group in curly brackets: parts with steps of their own. -/
  | polymetric (groups : List (Node α)) (steps : Option Int) (span : Span)
  /-- Options of which one is picked at random. -/
  | choice (options : List (Node α)) (span : Span)

namespace Node

variable {α β : Type}

/-- Whether the node lengthens the item before it. -/
def isElongation : Node α → Bool
  | .elongation _ => true
  | _ => false

/-- Whether the node is written silence. -/
def isRest : Node α → Bool
  | .rest _ => true
  | _ => false

/-- Items of a sequence. Any other node has none. -/
def items : Node α → List (Node α)
  | .sequence children => children
  | _ => []

/-- The node with another span, where the node has one. -/
def withSpan (node : Node α) (span : Span) : Node α :=
  match node with
  | .atom sound _ => .atom sound span
  | .rest _ => .rest span
  | .elongation _ => .elongation span
  | .harmony leaf text _ => .harmony leaf text span
  | .subdivision inner repeats division ratio _ => .subdivision inner repeats division ratio span
  | .alternation options repeats division _ => .alternation options repeats division span
  | .polymetric groups steps _ => .polymetric groups steps span
  | .choice options _ => .choice options span
  | other => other

end Node

end CyclePattern
