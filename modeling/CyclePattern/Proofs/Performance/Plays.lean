/-
# The nodes that are played

To play a node is to play its parts, and the parts of those. They are nodes of the tree, except that
a rest is played for an elongation with nothing before it, so they are as well formed as the tree
is. The counts by which they divide their windows are then positive.
-/

import CyclePattern.Performance.Perform
import CyclePattern.Proofs.Tree.WellFormed

namespace CyclePattern

variable {α : Type}

/-- A count that was read, or one, is positive. -/
theorem countOf_pos {count : Option Int} (hcount : ∀ n ∈ count, 1 ≤ n) : 0 < countOf count := by
  cases count with
  | none => decide
  | some n =>
      have hn := hcount n rfl
      rw [countOf, if_neg (by omega)]
      omega

theorem Atom.copyCount_pos [LT α] [LE α] [OfNat α 0] [OfNat α 1] (sound : Atom α)
    (hsound : sound.InRange) : 0 < sound.copyCount :=
  Int.mul_pos (countOf_pos hsound.repeats) (countOf_pos hsound.copies)

/-- The counts that a node divides its window by. -/
def Node.counts : Node α → List Int
  | .atom sound _ => sound.copyCount :: (sound.euclid.map (·.steps)).toList
  | .subdivision _ repeats _ _ _ => [countOf repeats]
  | .alternation _ repeats _ _ => [countOf repeats]
  | .polymetric _ steps _ => steps.toList
  | _ => []

/-- A well-formed node divides its window only by positive counts. -/
theorem Node.pos_of_mem_counts [LT α] [LE α] [OfNat α 0] [OfNat α 1] {n : Node α} {count : Int}
    (hn : n.WellFormed) (hcount : count ∈ n.counts) : 0 < count := by
  cases n with
  | atom sound span =>
      rcases List.mem_cons.mp hcount with rfl | hsteps
      · exact sound.copyCount_pos hn
      · obtain ⟨rhythm, hrhythm, rfl⟩ := Option.map_eq_some_iff.mp (Option.mem_toList.mp hsteps)
        have hrange := hn.euclid rhythm hrhythm
        exact Int.lt_of_lt_of_le hrange.pulses hrange.steps
  | subdivision inner repeats division ratio span =>
      obtain ⟨-, -, hrepeats, -⟩ := hn
      rw [List.mem_singleton.mp hcount]
      exact countOf_pos hrepeats
  | alternation options repeats division span =>
      obtain ⟨-, -, hrepeats, -⟩ := hn
      rw [List.mem_singleton.mp hcount]
      exact countOf_pos hrepeats
  | polymetric groups steps span =>
      obtain ⟨-, -, hsteps⟩ := hn
      exact hsteps count (Option.mem_toList.mp hcount)
  | _ => cases hcount

variable [Measure α]

/-- Whether a count of the node is beyond every measure. -/
def Node.HasLargeCount (n : Node α) : Prop :=
  ∃ count ∈ n.counts, Measure.fits α count = false

namespace Node

theorem exists_item_of_mem_sequenceParts {children : List (Node α)} {window : Window α}
    {found : List (Node α × Window α)} (hfound : sequenceParts children window = .ok found)
    {part : Node α × Window α} (hpart : part ∈ found) :
    ∃ item ∈ weightedItems children, part.1 = item.1 := by
  rw [sequenceParts] at hfound
  split at hfound
  · cases hfound
    cases hpart
  split at hfound
  · cases hfound
  cases hfound
  exact exists_of_mem_layout hpart

theorem exists_asItem_of_mem_sequenceParts {children : List (Node α)} {window : Window α}
    {found : List (Node α × Window α)} (hfound : sequenceParts children window = .ok found)
    {part : Node α × Window α} (hpart : part ∈ found) :
    ∃ child ∈ children, part.1 = child.asItem := by
  obtain ⟨item, hitem, hsame⟩ := exists_item_of_mem_sequenceParts hfound hpart
  obtain ⟨child, hchild, hbecomes⟩ := exists_of_mem_weightedItems hitem
  exact ⟨child, hchild, hsame.trans hbecomes⟩

theorem eq_of_mem_repeatedParts {n : Node α} {repeats : Option Int} {window : Window α}
    {found : List (Node α × Window α)} (hfound : repeatedParts n repeats window = .ok found)
    {part : Node α × Window α} (hpart : part ∈ found) : part.1 = n := by
  obtain ⟨windows, -, rfl⟩ := exists_of_map_eq_ok hfound
  obtain ⟨piece, -, rfl⟩ := List.mem_map.mp hpart
  rfl

theorem exists_item_of_mem_steppedParts {groups : List (Node α)} {steps : Int}
    {window : Window α} {found : List (Node α × Window α)}
    (hfound : steppedParts groups steps window = .ok found) {part : Node α × Window α}
    (hpart : part ∈ found) : ∃ group ∈ groups, part.1 ∈ group.items := by
  obtain ⟨length, -, rfl⟩ := exists_of_map_eq_ok hfound
  obtain ⟨group, hgroup, hlater⟩ := List.mem_flatMap.mp hpart
  obtain ⟨run, hrun, rfl⟩ := List.mem_map.mp hlater
  exact ⟨group, hgroup, mem_of_mem_fill (mem_of_mem_slotRuns hrun)⟩

/-- A node hands its window to nodes inside it, and to rests in place of elongations that lengthen
nothing. -/
theorem holds_or_eq_rest_of_mem_parts {n : Node α} {window : Window α}
    {found : List (Node α × Window α)} (hfound : n.parts window = .ok found)
    {part : Node α × Window α} (hpart : part ∈ found) :
    n.Holds part.1 ∨ ∃ span, part.1 = rest span := by
  unfold parts at hfound
  split at hfound
  · obtain ⟨child, hchild, hsame⟩ := exists_asItem_of_mem_sequenceParts hfound hpart
    rw [hsame]
    cases child with
    | elongation span => exact .inr ⟨span, rfl⟩
    | _ => exact .inl (.child hchild (.refl _))
  · cases hfound
    obtain ⟨group, hgroup, rfl⟩ := List.mem_map.mp hpart
    exact .inl (.child hgroup (.refl group))
  · rw [eq_of_mem_repeatedParts hfound hpart]
    exact .inl (.child List.mem_cons_self (.refl _))
  · rw [eq_of_mem_repeatedParts hfound hpart]
    exact .inl (.child List.mem_cons_self (.refl _))
  · cases hfound
    obtain ⟨group, hgroup, rfl⟩ := List.mem_map.mp hpart
    exact .inl (.child hgroup (.refl group))
  · obtain ⟨group, hgroup, hitem⟩ := exists_item_of_mem_steppedParts hfound hpart
    exact .inl (.child hgroup (.child (mem_children_of_mem_items hitem) (.refl _)))
  · cases hfound
    cases hpart

/-- What holds of every node of a tree and of rests holds of every node of its parts. -/
theorem forall_of_mem_parts {P : Node α → Prop} (hrest : ∀ span, P (rest span)) {n : Node α}
    (hn : ∀ m, n.Holds m → P m) {window : Window α} {found : List (Node α × Window α)}
    (hfound : n.parts window = .ok found) {part : Node α × Window α} (hpart : part ∈ found)
    {m : Node α} (hm : part.1.Holds m) : P m := by
  rcases holds_or_eq_rest_of_mem_parts hfound hpart with hholds | ⟨span, hsame⟩
  · exact hn m (hholds.trans hm)
  · rw [hsame] at hm
    cases hm.eq_of_isLeaf trivial
    exact hrest span

/-- The parts of a tree of well-formed nodes are such trees. -/
theorem wellFormed_of_mem_parts [LT α] [LE α] [OfNat α 0] [OfNat α 1] {n : Node α}
    (hn : ∀ m, n.Holds m → m.WellFormed) {window : Window α} {found : List (Node α × Window α)}
    (hfound : n.parts window = .ok found) {part : Node α × Window α} (hpart : part ∈ found)
    {m : Node α} (hm : part.1.Holds m) : m.WellFormed :=
  forall_of_mem_parts (fun _ => trivial) hn hfound hpart hm

/-- The nodes that are played when a node is: itself, and what its parts play. -/
inductive Plays : Node α → Window α → Node α → Prop
  | refl (n : Node α) (window : Window α) : Plays n window n
  | part {n m : Node α} {window : Window α} {found : List (Node α × Window α)}
      {part : Node α × Window α} (hfound : n.parts window = .ok found) (hpart : part ∈ found)
      (hm : Plays part.1 part.2 m) : Plays n window m

/-- What is played is a node of the tree, or a rest in place of an elongation. -/
theorem Plays.holds_or_eq_rest {n m : Node α} {window : Window α} (hplays : n.Plays window m) :
    n.Holds m ∨ ∃ span, m = rest span := by
  induction hplays with
  | refl n window => exact .inl (.refl n)
  | part hfound hpart _ ih =>
      rcases ih with hholds | hrest
      · rcases holds_or_eq_rest_of_mem_parts hfound hpart with hfirst | ⟨span, hsame⟩
        · exact .inl (hfirst.trans hholds)
        · rw [hsame] at hholds
          exact .inr ⟨span, hholds.eq_of_isLeaf trivial⟩
      · exact .inr hrest

end Node

end CyclePattern
