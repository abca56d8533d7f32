/-
# Trees with exact numbers

The laws of playing hold of exact numbers. A tree is read with floating-point numbers; where these
are finite they are rationals, and the tree with these rationals in their place is the same tree in
every other respect. It is well formed when the tree is, since exact values keep the order of the
numbers.
-/

import CyclePattern.Proofs.Number.Exact
import CyclePattern.Proofs.Tree.WellFormed

namespace CyclePattern

variable {α β : Type}

/-- The sound with other numbers. Counts and rhythms are integers and stay. -/
def Atom.map (f : α → β) (sound : Atom α) : Atom β where
  name := sound.name
  sample := sound.sample
  weight := f sound.weight
  repeats := sound.repeats
  copies := sound.copies
  probability := sound.probability.map f
  division := sound.division.map f
  ratio := sound.ratio.map f
  euclid := sound.euclid
  controls := sound.controls.map fun control => (control.1, f control.2)

namespace Node

mutual

/-- The node with other numbers, at all depths. -/
def map (f : α → β) : Node α → Node β
  | .empty => .empty
  | .atom sound span => .atom (sound.map f) span
  | .rest span => .rest span
  | .elongation span => .elongation span
  | .harmony leaf text span => .harmony leaf text span
  | .sequence children => .sequence (mapAll f children)
  | .stack groups => .stack (mapAll f groups)
  | .subdivision inner repeats division ratio span =>
    .subdivision (inner.map f) repeats (division.map f) (ratio.map f) span
  | .alternation options repeats division span =>
    .alternation (mapAll f options) repeats (division.map f) span
  | .polymetric groups steps span => .polymetric (mapAll f groups) steps span
  | .choice options span => .choice (mapAll f options) span

/-- Some nodes with other numbers. -/
def mapAll (f : α → β) : List (Node α) → List (Node β)
  | [] => []
  | n :: ns => n.map f :: mapAll f ns

end

@[simp]
theorem mapAll_eq_map (f : α → β) (ns : List (Node α)) : mapAll f ns = ns.map (map f) := by
  induction ns with
  | nil => rfl
  | cons n ns ih => rw [mapAll, ih, List.map_cons]

/-- The numbers that stand in the node itself. -/
def numbers : Node α → List α
  | .atom sound _ =>
    sound.weight :: (sound.probability.toList ++ sound.division.toList ++ sound.ratio.toList ++
      sound.controls.map (·.2))
  | .subdivision _ _ division ratio _ => division.toList ++ ratio.toList
  | .alternation _ _ division _ => division.toList
  | _ => []

/-- Whether all numbers of a tree are finite. -/
def IsFinite (n : Node Float) : Prop :=
  ∀ m, n.Holds m → ∀ x ∈ m.numbers, x.isFinite = true

/-- The tree with its numbers as exact ones. -/
def exact (n : Node Float) : Node Rat :=
  n.map exactValue

section

variable (f : α → β) (n : Node α)

theorem children_map : (n.map f).children = n.children.map (map f) := by
  cases n <;> simp [map, children]

@[simp]
theorem isElongation_map : (n.map f).isElongation = n.isElongation := by
  cases n <;> rfl

@[simp]
theorem isRest_map : (n.map f).isRest = n.isRest := by
  cases n <;> rfl

theorem isSequence_map : (n.map f).IsSequence ↔ n.IsSequence := by
  cases n <;> exact Iff.rfl

theorem isItem_map : (n.map f).IsItem ↔ n.IsItem := by
  cases n <;> exact Iff.rfl

theorem isOption_map : (n.map f).IsOption ↔ n.IsOption := by
  cases n <;> exact Iff.rfl

theorem isStack_map : (n.map f).IsStack ↔ n.IsStack := by
  cases n with
  | stack groups => simp [map, IsStack, isSequence_map]
  | _ => exact Iff.rfl

end

/-- The nodes inside a tree with other numbers are those of the tree, with other numbers. -/
theorem exists_of_holds_map {f : α → β} {n : Node α} {m : Node β} (hholds : (n.map f).Holds m) :
    ∃ k, n.Holds k ∧ m = k.map f := by
  generalize hn : n.map f = d at hholds
  induction hholds generalizing n with
  | refl => exact ⟨n, .refl n, hn.symm⟩
  | child hc _ ih =>
      subst hn
      rw [children_map] at hc
      obtain ⟨child, hchild, hsame⟩ := List.mem_map.mp hc
      obtain ⟨k, hk, hm⟩ := ih hsame
      exact ⟨k, .child hchild hk, hm⟩

theorem exactValue_pos {x : Float} (hfinite : x.isFinite = true) (hx : 0 < x) :
    0 < exactValue x := by
  rw [← exactValue_zero]
  exact (exactValue_lt_iff rfl hfinite).mpr hx

theorem exactValue_nonneg {x : Float} (hfinite : x.isFinite = true) (hx : 0 ≤ x) :
    0 ≤ exactValue x := by
  rw [← exactValue_zero]
  exact (exactValue_le_iff rfl hfinite).mpr hx

theorem exactValue_le_one {x : Float} (hfinite : x.isFinite = true) (hx : x ≤ 1) :
    exactValue x ≤ 1 := by
  rw [← exactValue_one]
  exact (exactValue_le_iff hfinite rfl).mpr hx

theorem pos_of_mem_map {number : Option Float} (hfinite : ∀ x ∈ number.toList, x.isFinite = true)
    (hpos : ∀ x ∈ number, 0 < x) : ∀ y ∈ number.map exactValue, 0 < y := by
  intro y hy
  obtain ⟨x, hx, rfl⟩ := Option.map_eq_some_iff.mp hy
  exact exactValue_pos (hfinite x (Option.mem_toList.mpr hx)) (hpos x hx)

end Node

theorem Controls.known_map {controls : Controls α} (f : α → β) (hcontrols : Known controls) :
    Known (controls.map fun control => (control.1, f control.2)) := by
  have hkeys : (controls.map fun control => (control.1, f control.2)).map Prod.fst =
      controls.map Prod.fst := by
    rw [List.map_map]
    rfl
  constructor
  · rw [hkeys]
    exact hcontrols.nodup
  · rw [hkeys]
    exact hcontrols.mem_known

namespace Node

theorem inRange_exact {sound : Atom Float} {span : Span} (hsound : sound.InRange)
    (hfinite : ∀ x ∈ (atom sound span).numbers, x.isFinite = true) :
    (sound.map exactValue).InRange := by
  simp only [numbers, List.mem_cons, List.mem_append] at hfinite
  exact {
    name := hsound.name
    sample := hsound.sample
    weight := exactValue_pos (hfinite _ (.inl rfl)) hsound.weight
    repeats := hsound.repeats
    copies := hsound.copies
    probability := by
      intro y hy
      obtain ⟨x, hx, rfl⟩ := Option.map_eq_some_iff.mp hy
      have hxfinite := hfinite x (.inr (.inl (.inl (.inl (Option.mem_toList.mpr hx)))))
      obtain ⟨hlow, hhigh⟩ := hsound.probability x hx
      exact ⟨exactValue_nonneg hxfinite hlow, exactValue_le_one hxfinite hhigh⟩
    division := pos_of_mem_map (fun x hx => hfinite x (.inr (.inl (.inl (.inr hx)))))
      hsound.division
    ratio := pos_of_mem_map (fun x hx => hfinite x (.inr (.inl (.inr hx)))) hsound.ratio
    euclid := hsound.euclid
    controls := Controls.known_map exactValue hsound.controls }

/-- A well-formed node with finite numbers is well formed with exact ones. -/
theorem wellFormed_exact {n : Node Float} (hn : n.WellFormed)
    (hfinite : ∀ x ∈ n.numbers, x.isFinite = true) : n.exact.WellFormed := by
  cases n with
  | empty => exact hn
  | atom sound span => exact inRange_exact hn hfinite
  | rest span => trivial
  | elongation span => trivial
  | harmony leaf text span => exact hn
  | sequence children => simpa [exact, map, WellFormed, isItem_map] using hn
  | stack groups => exact (isStack_map exactValue (.stack groups)).mpr hn
  | subdivision inner repeats division ratio span =>
      obtain ⟨hinner, hsingle, hrepeats, hdivision, hratio⟩ := hn
      simp only [numbers, List.mem_append] at hfinite
      refine ⟨?_, ?_, hrepeats, ?_, ?_⟩
      · exact hinner.imp (isSequence_map exactValue inner).mpr (isStack_map exactValue inner).mpr
      · simpa using hsingle
      · exact pos_of_mem_map (fun x hx => hfinite x (.inl hx)) hdivision
      · exact pos_of_mem_map (fun x hx => hfinite x (.inr hx)) hratio
  | alternation options repeats division span =>
      obtain ⟨hoptions, hsingle, hrepeats, hdivision⟩ := hn
      refine ⟨?_, ?_, hrepeats, pos_of_mem_map hfinite hdivision⟩
      · simpa using hoptions
      · simpa using hsingle
  | polymetric groups steps span =>
      obtain ⟨hgroups, hsequences, hsteps⟩ := hn
      refine ⟨?_, ?_, hsteps⟩
      · simpa using hgroups
      · simpa [isSequence_map] using hsequences
  | choice options span => simpa [exact, map, WellFormed, isOption_map] using hn

/-- A tree of well-formed nodes with finite numbers is one with exact numbers. -/
theorem wellFormed_of_holds_exact {n : Node Float} (hn : ∀ m, n.Holds m → m.WellFormed)
    (hfinite : n.IsFinite) {m : Node Rat} (hm : n.exact.Holds m) : m.WellFormed := by
  obtain ⟨k, hk, rfl⟩ := exists_of_holds_map hm
  exact wellFormed_exact (hn k hk) (hfinite k hk)

end Node

end CyclePattern
