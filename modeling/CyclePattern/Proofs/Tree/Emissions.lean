/-
# Who plays the events of a tree

Every event comes from one node: a sound, a harmony leaf, or a choice that is left open. How often
that node plays is decided by its counts and by those of the nodes around it, whatever the window
is. So the emissions of a tree, with the nodes around each of them, can be told from the tree alone,
in the order in which its events are played.

The number of events is told by a simpler recursion, which does not say where they come from.
-/

import CyclePattern.Performance.Perform
import CyclePattern.Proofs.Tree.Gapless

namespace CyclePattern

variable {α β : Type}

/-- Some items in turn, over and over, one for each of `steps` turns. -/
def turns (items : List β) (steps : Nat) : List β :=
  (List.range steps).filterMap fun i => items[i % items.length]?

theorem turns_map {γ : Type} (f : β → γ) (items : List β) (steps : Nat) :
    turns (items.map f) steps = (turns items steps).map f := by
  rw [turns, turns, List.map_filterMap]
  simp

theorem Node.fill_eq_turns (items : List (Node α)) (steps : Nat) :
    fill items steps = turns items steps := by
  cases items with
  | nil => simp [fill, turns]
  | cons first rest => rfl

/-- Number of events of one copy of a sound: one, or one for each pulse of its rhythm. -/
def Atom.pulseCount (sound : Atom α) : Nat :=
  match sound.euclid with
  | none => 1
  | some rhythm => rhythm.pulses.toNat

/-- Number of events of a sound with all its copies. -/
def Atom.eventCount (sound : Atom α) : Nat :=
  sound.copyCount.toNat * sound.pulseCount

namespace Node

instance : DecidablePred (HasSound (α := α))
  | .atom _ _ => .isTrue trivial
  | .harmony _ _ _ => .isTrue trivial
  | .empty => .isFalse id
  | .rest _ => .isFalse id
  | .elongation _ => .isFalse id
  | .sequence _ => .isFalse id
  | .stack _ => .isFalse id
  | .subdivision _ _ _ _ _ => .isFalse id
  | .alternation _ _ _ _ => .isFalse id
  | .polymetric _ _ _ => .isFalse id
  | .choice _ _ => .isFalse id

/-- Number of events of a choice: one, if one of its options has a sound. -/
def choiceCount (options : List (Node α)) : Nat :=
  if ∃ option ∈ options, option.HasSound then 1 else 0

mutual

/-- Number of events that a node plays in any window. -/
def eventCount : Node α → Nat
  | .empty => 0
  | .atom sound _ => sound.eventCount
  | .rest _ => 0
  | .elongation _ => 0
  | .harmony _ _ _ => 1
  | .sequence children => (eventCounts children).sum
  | .stack groups => (eventCounts groups).sum
  | .subdivision inner repeats _ _ _ => (countOf repeats).toNat * inner.eventCount
  | .alternation [option] repeats _ _ => (countOf repeats).toNat * option.eventCount
  | .alternation options repeats _ _ => (countOf repeats).toNat * choiceCount options
  | .polymetric groups none _ => (eventCounts groups).sum
  | .polymetric groups (some steps) _ => turnCount steps.toNat groups
  | .choice options _ => choiceCount options

/-- Number of events of each of some nodes. -/
def eventCounts : List (Node α) → List Nat
  | [] => []
  | n :: ns => n.eventCount :: eventCounts ns

/-- Number of events of each item of a sequence. -/
def itemCounts : Node α → List Nat
  | .sequence children => eventCounts children
  | _ => []

/-- Number of events of some groups whose items take turns. -/
def turnCount (steps : Nat) : List (Node α) → Nat
  | [] => 0
  | group :: groups => (turns group.itemCounts steps).sum + turnCount steps groups

end

end Node

/-- Where an event comes from: a node that plays it, and the nodes that are played around that one,
the innermost first. -/
structure Emission (α : Type) where
  source : Node α
  path : List (Node α)

/-- The emission seen from one node further out. -/
def Emission.inside (outer : Node α) (emission : Emission α) : Emission α :=
  { emission with path := emission.path ++ [outer] }

namespace Node

/-- Number of events that a node plays by itself, without its parts. -/
def ownCount : Node α → Nat
  | .atom sound _ => sound.eventCount
  | .harmony _ _ _ => 1
  | .alternation [_] _ _ _ => 0
  | .alternation options repeats _ _ => (countOf repeats).toNat * choiceCount options
  | .choice options _ => choiceCount options
  | _ => 0

/-- Emissions of a node, given those of its parts. -/
def emissionsAround (n : Node α) (inner : List (Emission α)) : List (Emission α) :=
  List.replicate n.ownCount ⟨n, []⟩ ++ inner.map (Emission.inside n)

mutual

/-- Emissions of a node, in the order of its events. -/
def emissions : Node α → List (Emission α)
  | .sequence children => emissionsAround (.sequence children) (emissionsOf children).flatten
  | .stack groups => emissionsAround (.stack groups) (emissionsOf groups).flatten
  | .subdivision inner repeats division ratio span =>
    emissionsAround (.subdivision inner repeats division ratio span)
      (List.replicate (countOf repeats).toNat inner.emissions).flatten
  | .alternation [option] repeats division span =>
    emissionsAround (.alternation [option] repeats division span)
      (List.replicate (countOf repeats).toNat option.emissions).flatten
  | .polymetric groups none span =>
    emissionsAround (.polymetric groups none span) (emissionsOf groups).flatten
  | .polymetric groups (some steps) span =>
    emissionsAround (.polymetric groups (some steps) span) (turnEmissions steps.toNat groups)
  | n => emissionsAround n []

/-- Emissions of each of some nodes. -/
def emissionsOf : List (Node α) → List (List (Emission α))
  | [] => []
  | n :: ns => n.emissions :: emissionsOf ns

/-- Emissions of each item of a sequence. -/
def itemEmissions : Node α → List (List (Emission α))
  | .sequence children => emissionsOf children
  | _ => []

/-- Emissions of some groups whose items take turns. -/
def turnEmissions (steps : Nat) : List (Node α) → List (Emission α)
  | [] => []
  | group :: groups => (turns group.itemEmissions steps).flatten ++ turnEmissions steps groups

end

/-- Emissions of the parts of a node, in the order in which they play. -/
def innerEmissions : Node α → List (Emission α)
  | .sequence children => children.flatMap emissions
  | .stack groups => groups.flatMap emissions
  | .subdivision inner repeats _ _ _ =>
    (List.replicate (countOf repeats).toNat inner.emissions).flatten
  | .alternation [option] repeats _ _ =>
    (List.replicate (countOf repeats).toNat option.emissions).flatten
  | .polymetric groups none _ => groups.flatMap emissions
  | .polymetric groups (some steps) _ =>
    groups.flatMap fun group => (turns group.items steps.toNat).flatMap emissions
  | _ => []

theorem emissionsOf_eq_map (ns : List (Node α)) : emissionsOf ns = ns.map emissions := by
  induction ns with
  | nil => rfl
  | cons n ns ih => rw [emissionsOf, ih, List.map_cons]

theorem itemEmissions_eq_map (n : Node α) : n.itemEmissions = n.items.map emissions := by
  cases n with
  | sequence children => exact emissionsOf_eq_map children
  | _ => rfl

theorem turnEmissions_eq_flatMap (steps : Nat) (groups : List (Node α)) :
    turnEmissions steps groups =
      groups.flatMap fun group => (turns group.items steps).flatMap emissions := by
  induction groups with
  | nil => rfl
  | cons group groups ih =>
      calc
        _ = (turns (group.items.map emissions) steps).flatten ++ turnEmissions steps groups := by
          rw [turnEmissions, itemEmissions_eq_map]
        _ = (turns group.items steps).flatMap emissions ++
              groups.flatMap fun group => (turns group.items steps).flatMap emissions := by
          rw [turns_map, ← List.flatMap_def, ih]
        _ = (group :: groups).flatMap fun group => (turns group.items steps).flatMap emissions :=
          rfl

/-- The emissions of a node are its own and, seen from it, those of its parts. -/
theorem emissions_eq (n : Node α) : n.emissions = n.emissionsAround n.innerEmissions := by
  cases n with
  | sequence children => rw [emissions, emissionsOf_eq_map, innerEmissions, List.flatMap_def]
  | stack groups => rw [emissions, emissionsOf_eq_map, innerEmissions, List.flatMap_def]
  | alternation options repeats division span =>
      rcases options with _ | ⟨option, _ | ⟨second, others⟩⟩
      · rfl
      · rfl
      · rfl
  | polymetric groups steps span =>
      cases steps with
      | none => rw [emissions, emissionsOf_eq_map, innerEmissions, List.flatMap_def]
      | some count => rw [emissions, turnEmissions_eq_flatMap, innerEmissions]
  | _ => rfl

/-- A node inside another one, with the nodes that are played around it, the innermost first. In a
group with steps the items take turns in place of the sequences that they are written in. -/
inductive Encloses : Node α → List (Node α) → Node α → Prop
  | refl (n : Node α) : Encloses n [] n
  | part {n c m : Node α} {path : List (Node α)} (hc : c ∈ n.playedChildren)
      (hm : Encloses c path m) : Encloses n (path ++ [n]) m
  | item {n group item m : Node α} {path : List (Node α)} (hgroup : group ∈ n.playedChildren)
      (hitem : item ∈ group.items) (hm : Encloses item path m) : Encloses n (path ++ [n]) m

theorem Encloses.holds {n m : Node α} {path : List (Node α)} (hm : n.Encloses path m) :
    n.Holds m := by
  induction hm with
  | refl n => exact .refl n
  | part hc _ ih => exact .child (mem_children_of_mem_playedChildren hc) ih
  | item hgroup hitem _ ih =>
      have hinner := mem_children_of_mem_playedChildren (mem_playedChildren_of_mem_items hitem)
      exact .child (mem_children_of_mem_playedChildren hgroup) (.child hinner ih)

theorem mem_of_mem_turns {items : List β} {steps : Nat} {item : β}
    (hitem : item ∈ turns items steps) : item ∈ items := by
  obtain ⟨i, -, hi⟩ := List.mem_filterMap.mp hitem
  exact List.mem_of_getElem? hi

/-- Inner emissions are those of a child, or of an item that takes turns. -/
theorem exists_of_mem_innerEmissions {n : Node α} {emission : Emission α}
    (hemission : emission ∈ n.innerEmissions) :
    (∃ c ∈ n.playedChildren, emission ∈ c.emissions) ∨
      ∃ group ∈ n.playedChildren, ∃ item ∈ group.items, emission ∈ item.emissions := by
  unfold innerEmissions at hemission
  split at hemission
  · exact .inl (List.mem_flatMap.mp hemission)
  · exact .inl (List.mem_flatMap.mp hemission)
  · obtain ⟨found, hfound, hmem⟩ := List.mem_flatten.mp hemission
    rw [List.eq_of_mem_replicate hfound] at hmem
    exact .inl ⟨_, List.mem_cons_self, hmem⟩
  · obtain ⟨found, hfound, hmem⟩ := List.mem_flatten.mp hemission
    rw [List.eq_of_mem_replicate hfound] at hmem
    exact .inl ⟨_, List.mem_cons_self, hmem⟩
  · exact .inl (List.mem_flatMap.mp hemission)
  · obtain ⟨group, hgroup, hlater⟩ := List.mem_flatMap.mp hemission
    obtain ⟨item, hitem, hmem⟩ := List.mem_flatMap.mp hlater
    exact .inr ⟨group, hgroup, item, mem_of_mem_turns hitem, hmem⟩
  · cases hemission

/-- To prove something of every node, prove it of a node whose children have it, and their items,
which may be played in place of them. -/
@[elab_as_elim]
theorem itemsInduction {motive : Node α → Prop} (n : Node α)
    (step : ∀ n : Node α, (∀ c ∈ n.children, motive c) →
      (∀ group ∈ n.children, ∀ item ∈ group.items, motive item) → motive n) : motive n := by
  have hboth : motive n ∧ ∀ item ∈ n.items, motive item := by
    induction n using inductionOn with
    | step n ih =>
        have hitems : ∀ item ∈ n.items, motive item := by
          intro item hitem
          have hchild := mem_playedChildren_of_mem_items hitem
          exact (ih item (mem_children_of_mem_playedChildren hchild)).1
        exact ⟨step n (fun c hc => (ih c hc).1) fun group hgroup => (ih group hgroup).2, hitems⟩
  exact hboth.1

/-- Every emission of a tree names a node of the tree and the nodes that are played around it. -/
theorem encloses_of_mem_emissions {n : Node α} {emission : Emission α}
    (hemission : emission ∈ n.emissions) : n.Encloses emission.path emission.source := by
  induction n using itemsInduction generalizing emission with
  | step n ihchild ihitem =>
      rw [emissions_eq, emissionsAround, List.mem_append] at hemission
      rcases hemission with hown | hinner
      · rw [List.eq_of_mem_replicate hown]
        exact .refl n
      · obtain ⟨inner, hpart, rfl⟩ := List.mem_map.mp hinner
        rcases exists_of_mem_innerEmissions hpart with
          ⟨c, hc, hmem⟩ | ⟨group, hgroup, item, hitem, hmem⟩
        · exact .part hc (ihchild c (mem_children_of_mem_playedChildren hc) hmem)
        · have hchild := mem_children_of_mem_playedChildren hgroup
          exact .item hgroup hitem (ihitem group hchild item hitem hmem)

end Node

end CyclePattern
