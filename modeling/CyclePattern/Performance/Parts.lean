/-
# How a node divides its window

A group plays nothing itself: it hands stretches of its window to its parts. A
sequence divides by weight, a repeated group into equal parts, a polymetric
group with steps into slots that its items fill in turn. Every part is smaller
than the node that it belongs to, so playing always comes to an end.
-/

import CyclePattern.Pattern.Node
import CyclePattern.Performance.Window

namespace CyclePattern

variable {α : Type}

/-- A count that may be missing; zero counts as missing, and both mean one. -/
def countOf : Option Int → Int
  | none => 1
  | some n => if n = 0 then 1 else n

namespace Node

/-- A node as an item of a sequence. An elongation with nothing before it to
lengthen is silence. -/
def asItem : Node α → Node α
  | .elongation span => .rest span
  | other => other

section Weights

variable [Measure α]

/-- Weight of an item by itself. -/
def ownWeight : Node α → α
  | .atom sound _ => sound.weight
  | _ => Measure.one

/-- Weight of an item with the elongations that follow it, and what follows
those. Each elongation adds one. -/
def hold (weight : α) : List (Node α) → α × List (Node α)
  | .elongation _ :: tail => hold (weight + Measure.one) tail
  | tail => (weight, tail)

theorem length_hold_le (weight : α) (nodes : List (Node α)) :
    (hold weight nodes).2.length ≤ nodes.length := by
  fun_induction hold weight nodes with
  | case1 weight span tail ih => exact Nat.le_succ_of_le ih
  | case2 => exact Nat.le_refl _

/-- Items of a sequence with their weights, elongations folded into the item
before them. -/
def weightedItems : List (Node α) → List (Node α × α)
  | [] => []
  | child :: tail =>
    let held := hold child.ownWeight tail
    (child.asItem, held.1) :: weightedItems held.2
termination_by children => children.length
decreasing_by exact Nat.lt_succ_of_le (length_hold_le _ _)

/-- Windows of items from `cursor` on, in proportion to their weights. -/
def layout (total duration cursor : α) : List (Node α × α) → List (Node α × Window α)
  | [] => []
  | (item, weight) :: tail =>
    let slot := weight / total * duration
    (item, ⟨cursor, slot⟩) :: layout total duration (cursor + slot) tail

/-- Parts of a sequence. There is nothing to divide when it has no items. -/
def sequenceParts (children : List (Node α)) (window : Window α) :
    Except Fault (List (Node α × Window α)) :=
  let items := weightedItems children
  let total := Measure.sum (items.map (·.2))
  if items.isEmpty then .ok []
  else if Measure.isZero total then .error .divisionByZero
  else .ok (layout total window.duration window.start items)

end Weights

/-- The items of a group in turn, one for each of `steps` slots. A group without
items fills none, however many slots there are. -/
def fill (items : List (Node α)) (steps : Nat) : List (Node α) :=
  if items.isEmpty then []
  else (List.range steps).filterMap fun i => items[i % items.length]?

/-- What is played in the slots from `index` on: a node, its slot, and the
number of slots up to the end of the elongations after it. Rests are not
played. -/
def slotRuns (index : Nat) : List (Node α) → List (Node α × Nat × Nat)
  | [] => []
  | node :: tail =>
    if node.isElongation || node.isRest then slotRuns (index + 1) tail
    else (node, index, 1 + (tail.takeWhile isElongation).length) :: slotRuns (index + 1) tail

theorem mem_of_mem_slotRuns {index : Nat} {nodes : List (Node α)} {run : Node α × Nat × Nat}
    (member : run ∈ slotRuns index nodes) : run.1 ∈ nodes := by
  induction nodes generalizing index with
  | nil => simp [slotRuns] at member
  | cons first tail ih =>
    unfold slotRuns at member
    split at member
    · exact List.mem_cons_of_mem _ (ih member)
    · rcases List.mem_cons.mp member with rfl | later
      · exact List.mem_cons_self
      · exact List.mem_cons_of_mem _ (ih later)

theorem mem_of_mem_fill {items : List (Node α)} {steps : Nat} {node : Node α}
    (member : node ∈ fill items steps) : node ∈ items := by
  unfold fill at member
  split at member
  · simp at member
  · obtain ⟨index, _, found⟩ := List.mem_filterMap.mp member
    exact List.mem_of_getElem? found

theorem sizeOf_asItem (node : Node α) : sizeOf node.asItem = sizeOf node := by
  cases node <;> simp [asItem]

theorem sizeOf_lt_of_mem_items {group node : Node α} (member : node ∈ group.items) :
    sizeOf node < sizeOf group := by
  cases group <;> simp only [items, List.not_mem_nil] at member
  next children =>
    have := List.sizeOf_lt_of_mem member
    simp only [sequence.sizeOf_spec]
    omega

section Parts

variable [Measure α]

/-- A node played in every one of some equal parts. -/
def repeatedParts (node : Node α) (repeats : Option Int) (window : Window α) :
    Except Fault (List (Node α × Window α)) :=
  (window.split (countOf repeats)).map fun windows => windows.map fun part => (node, part)

/-- Parts of groups that share a number of steps. -/
def steppedParts (groups : List (Node α)) (steps : Int) (window : Window α) :
    Except Fault (List (Node α × Window α)) :=
  (window.partLength steps).map fun length =>
    groups.flatMap fun group =>
      (slotRuns 0 (fill group.items steps.toNat)).map fun (node, index, size) =>
        (node, window.part length index size)

/-- Parts of a node with their windows, in the order in which they play. -/
def parts (node : Node α) (window : Window α) : Except Fault (List (Node α × Window α)) :=
  match node with
  | .sequence children => sequenceParts children window
  | .stack groups => .ok (groups.map fun group => (group, window))
  | .subdivision inner repeats _ _ _ => repeatedParts inner repeats window
  | .alternation [option] repeats _ _ => repeatedParts option repeats window
  | .polymetric groups none _ => .ok (groups.map fun group => (group, window))
  | .polymetric groups (some steps) _ => steppedParts groups steps window
  | _ => .ok []

theorem mem_of_mem_hold {weight : α} {nodes : List (Node α)} {node : Node α}
    (member : node ∈ (hold weight nodes).2) : node ∈ nodes := by
  fun_induction hold weight nodes with
  | case1 weight span tail ih => exact List.mem_cons_of_mem _ (ih member)
  | case2 => exact member

/-- An item of a sequence is one of its children, or the rest that stands for
one of them. -/
theorem exists_of_mem_weightedItems {children : List (Node α)} {item : Node α × α}
    (member : item ∈ weightedItems children) : ∃ child ∈ children, item.1 = child.asItem := by
  fun_induction weightedItems children with
  | case1 => simp at member
  | case2 child tail held ih =>
    rcases List.mem_cons.mp member with rfl | later
    · exact ⟨child, List.mem_cons_self, rfl⟩
    · obtain ⟨found, inside, same⟩ := ih later
      exact ⟨found, List.mem_cons_of_mem _ (mem_of_mem_hold inside), same⟩

theorem exists_of_mem_layout {total duration cursor : α} {items : List (Node α × α)}
    {part : Node α × Window α} (member : part ∈ layout total duration cursor items) :
    ∃ item ∈ items, part.1 = item.1 := by
  induction items generalizing cursor with
  | nil => simp [layout] at member
  | cons first tail ih =>
    rcases List.mem_cons.mp member with rfl | later
    · exact ⟨first, List.mem_cons_self, rfl⟩
    · obtain ⟨item, inside, same⟩ := ih later
      exact ⟨item, List.mem_cons_of_mem _ inside, same⟩

theorem exists_of_map_eq_ok {ε β γ : Type} {f : β → γ} {x : Except ε β} {y : γ}
    (mapped : x.map f = .ok y) : ∃ z, x = .ok z ∧ f z = y := by
  cases x with
  | error => simp [Except.map] at mapped
  | ok z => exact ⟨z, rfl, by simpa [Except.map] using mapped⟩

/-- Every part of a node is smaller than the node. -/
theorem sizeOf_lt_of_mem_parts {node : Node α} {window : Window α}
    {found : List (Node α × Window α)} (divided : node.parts window = .ok found)
    {part : Node α × Window α} (member : part ∈ found) : sizeOf part.1 < sizeOf node := by
  unfold parts at divided
  split at divided
  · next children =>
    unfold sequenceParts at divided
    simp only at divided
    split at divided
    · simp only [Except.ok.injEq] at divided
      simp [← divided] at member
    split at divided
    · simp at divided
    · simp only [Except.ok.injEq] at divided
      obtain ⟨item, inside, same⟩ := exists_of_mem_layout (divided ▸ member)
      obtain ⟨child, present, becomes⟩ := exists_of_mem_weightedItems inside
      have := List.sizeOf_lt_of_mem present
      rw [same, becomes, sizeOf_asItem, sequence.sizeOf_spec]
      omega
  · simp only [Except.ok.injEq] at divided
    subst divided
    obtain ⟨group, inside, rfl⟩ := List.mem_map.mp member
    have := List.sizeOf_lt_of_mem inside
    simp only [stack.sizeOf_spec]
    omega
  · obtain ⟨_, _, rfl⟩ := exists_of_map_eq_ok divided
    obtain ⟨_, _, rfl⟩ := List.mem_map.mp member
    simp only [subdivision.sizeOf_spec]
    omega
  · obtain ⟨_, _, rfl⟩ := exists_of_map_eq_ok divided
    obtain ⟨_, _, rfl⟩ := List.mem_map.mp member
    simp only [alternation.sizeOf_spec, List.cons.sizeOf_spec]
    omega
  · simp only [Except.ok.injEq] at divided
    subst divided
    obtain ⟨group, inside, rfl⟩ := List.mem_map.mp member
    have := List.sizeOf_lt_of_mem inside
    simp only [polymetric.sizeOf_spec]
    omega
  · obtain ⟨_, _, rfl⟩ := exists_of_map_eq_ok divided
    obtain ⟨group, inside, later⟩ := List.mem_flatMap.mp member
    obtain ⟨run, played, rfl⟩ := List.mem_map.mp later
    have := List.sizeOf_lt_of_mem inside
    have := sizeOf_lt_of_mem_items (mem_of_mem_fill (mem_of_mem_slotRuns played))
    simp only [polymetric.sizeOf_spec]
    omega
  · simp only [Except.ok.injEq] at divided
    simp [← divided] at member

end Parts

end Node

end CyclePattern
