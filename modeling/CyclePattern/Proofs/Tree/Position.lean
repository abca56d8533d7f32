/-
# Positions in a tree

A node that was read from a text knows the stretch of the text that it came from. Moving the text
moves every stretch of its tree by the same amount and changes nothing else. The nodes inside a
node are reached through its children.
-/

import CyclePattern.Pattern.Group

namespace CyclePattern

/-- The span further along by some characters. -/
def Span.shift (k : Int) (span : Span) : Span where
  start := span.start.map (· + k)
  stop := span.stop.map (· + k)

@[simp]
theorem Span.shift_between (k start stop : Int) :
    (Span.between start stop).shift k = .between (start + k) (stop + k) :=
  rfl

/-- Moving a span back undoes moving it. -/
theorem Span.shift_neg (k : Int) (span : Span) : (span.shift k).shift (-k) = span := by
  cases span with
  | mk start stop =>
      cases start <;> cases stop <;> simp only [shift, Option.map_some, Option.map_none,
        Int.add_neg_cancel_right]

namespace Node

variable {α : Type}

/-- The span of a node, where it has one. -/
def span? : Node α → Option Span
  | .atom _ span => some span
  | .rest span => some span
  | .elongation span => some span
  | .harmony _ _ span => some span
  | .subdivision _ _ _ _ span => some span
  | .alternation _ _ _ span => some span
  | .polymetric _ _ span => some span
  | .choice _ span => some span
  | _ => none

mutual

/-- The node further along by some characters, at all depths. -/
def shift (k : Int) : Node α → Node α
  | .empty => .empty
  | .atom sound span => .atom sound (span.shift k)
  | .rest span => .rest (span.shift k)
  | .elongation span => .elongation (span.shift k)
  | .harmony leaf text span => .harmony leaf text (span.shift k)
  | .sequence children => .sequence (shiftAll k children)
  | .stack groups => .stack (shiftAll k groups)
  | .subdivision inner repeats division ratio span =>
    .subdivision (inner.shift k) repeats division ratio (span.shift k)
  | .alternation options repeats division span =>
    .alternation (shiftAll k options) repeats division (span.shift k)
  | .polymetric groups steps span => .polymetric (shiftAll k groups) steps (span.shift k)
  | .choice options span => .choice (shiftAll k options) (span.shift k)

/-- Some nodes further along by some characters. -/
def shiftAll (k : Int) : List (Node α) → List (Node α)
  | [] => []
  | n :: ns => n.shift k :: shiftAll k ns

end

@[simp]
theorem shiftAll_eq_map (k : Int) (ns : List (Node α)) : shiftAll k ns = ns.map (shift k) := by
  induction ns with
  | nil => rfl
  | cons n ns ih => rw [shiftAll, ih, List.map_cons]

@[simp]
theorem isElongation_shift (k : Int) (n : Node α) : (n.shift k).isElongation = n.isElongation := by
  cases n <;> rfl

/-- The nodes directly inside a node. -/
def children : Node α → List (Node α)
  | .sequence children => children
  | .stack groups => groups
  | .subdivision inner _ _ _ _ => [inner]
  | .alternation options _ _ _ => options
  | .polymetric groups _ _ => groups
  | .choice options _ => options
  | _ => []

/-- The children of a sequence and the options of an alternation: what was written as one item. -/
def writtenItems : Node α → List (Node α)
  | .sequence children => children
  | .alternation options _ _ _ => options
  | _ => []

/-- A node and the nodes inside it, at all depths. -/
inductive Holds : Node α → Node α → Prop
  | refl (n : Node α) : Holds n n
  | child {n c m : Node α} (hc : c ∈ n.children) (hm : Holds c m) : Holds n m

/-- Leaves are sounds, rests, elongations and harmony. -/
def IsLeaf : Node α → Prop
  | .atom _ _ | .rest _ | .elongation _ | .harmony _ _ _ => True
  | _ => False

theorem span?_withSpan {n : Node α} (hleaf : n.IsLeaf) (span : Span) :
    (n.withSpan span).span? = some span := by
  cases n <;> first | rfl | cases hleaf

theorem isLeaf_withSpan {n : Node α} (hleaf : n.IsLeaf) (span : Span) :
    (n.withSpan span).IsLeaf := by
  cases n <;> exact hleaf

theorem isElongation_withSpan {n : Node α} (span : Span) :
    (n.withSpan span).isElongation = n.isElongation := by
  cases n <;> rfl

/-- Moving a node before or after giving it a span is the same. -/
theorem shift_withSpan (n : Node α) (k : Int) (span : Span) :
    (n.shift k).withSpan (span.shift k) = (n.withSpan span).shift k := by
  cases n <;> rfl

theorem children_of_isLeaf {n : Node α} (hleaf : n.IsLeaf) : n.children = [] := by
  cases n <;> first | rfl | cases hleaf

theorem mem_children_of_mem_items {n item : Node α} (hitem : item ∈ n.items) :
    item ∈ n.children := by
  cases n with
  | sequence children => exact hitem
  | _ => cases hitem

theorem Holds.eq_of_isLeaf {n m : Node α} (hholds : n.Holds m) (hleaf : n.IsLeaf) : m = n := by
  cases hholds with
  | refl => rfl
  | child hc _ =>
      rw [children_of_isLeaf hleaf] at hc
      cases hc

theorem Holds.trans {n m d : Node α} (hholds : n.Holds m) (hd : m.Holds d) : n.Holds d := by
  induction hholds with
  | refl => exact hd
  | child hc _ ih => exact .child hc (ih hd)

theorem sizeOf_lt_of_mem_children {n c : Node α} (hc : c ∈ n.children) : sizeOf c < sizeOf n := by
  cases n with
  | subdivision inner repeats division ratio span =>
      rw [children, List.mem_singleton] at hc
      rw [hc, subdivision.sizeOf_spec]
      omega
  | sequence ns =>
      have hlt := List.sizeOf_lt_of_mem hc
      simp only [Node.children, sequence.sizeOf_spec] at hlt ⊢
      omega
  | stack groups =>
      have hlt := List.sizeOf_lt_of_mem hc
      simp only [Node.children, stack.sizeOf_spec] at hlt ⊢
      omega
  | alternation options repeats division span =>
      have hlt := List.sizeOf_lt_of_mem hc
      simp only [Node.children, alternation.sizeOf_spec] at hlt ⊢
      omega
  | polymetric groups steps span =>
      have hlt := List.sizeOf_lt_of_mem hc
      simp only [Node.children, polymetric.sizeOf_spec] at hlt ⊢
      omega
  | choice options span =>
      have hlt := List.sizeOf_lt_of_mem hc
      simp only [Node.children, choice.sizeOf_spec] at hlt ⊢
      omega
  | _ => cases hc

/-- To prove something of every node, prove it of a node whose children all have it. -/
@[elab_as_elim]
theorem inductionOn {motive : Node α → Prop} (n : Node α)
    (step : ∀ n : Node α, (∀ c ∈ n.children, motive c) → motive n) : motive n :=
  step n fun c _hc => inductionOn c step
termination_by sizeOf n
decreasing_by exact sizeOf_lt_of_mem_children _hc

theorem map_shift_neg {k : Int} (ns : List (Node α))
    (hns : ∀ n ∈ ns, (n.shift k).shift (-k) = n) : (ns.map (shift k)).map (shift (-k)) = ns := by
  rw [List.map_map]
  exact (List.map_congr_left hns).trans (List.map_id' ns)

/-- Moving a node back undoes moving it. -/
theorem shift_neg (k : Int) (n : Node α) : (n.shift k).shift (-k) = n := by
  induction n using inductionOn with
  | step n ih =>
      cases n with
      | subdivision inner repeats division ratio span =>
          simp [shift, Span.shift_neg, ih inner (by simp [children])]
      | sequence ns => rw [shift, shift, shiftAll_eq_map, shiftAll_eq_map, map_shift_neg ns ih]
      | stack ns => rw [shift, shift, shiftAll_eq_map, shiftAll_eq_map, map_shift_neg ns ih]
      | alternation ns repeats division span =>
          rw [shift, shift, shiftAll_eq_map, shiftAll_eq_map, map_shift_neg ns ih, Span.shift_neg]
      | polymetric ns steps span =>
          rw [shift, shift, shiftAll_eq_map, shiftAll_eq_map, map_shift_neg ns ih, Span.shift_neg]
      | choice ns span =>
          rw [shift, shift, shiftAll_eq_map, shiftAll_eq_map, map_shift_neg ns ih, Span.shift_neg]
      | _ => simp only [shift, Span.shift_neg]

end Node

end CyclePattern
