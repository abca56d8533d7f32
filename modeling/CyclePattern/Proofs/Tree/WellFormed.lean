/-
# Well-formed trees

The reader sets only numbers that make sense. Whatever a modifier, a control or a word is, the node
that comes of it has its numbers in range: the checks are made where a number is read, and a word
that fails one is kept as the name of a sound, which sets nothing.

Trees are well formed over any numbers, since a tree is played with exact numbers as well.
-/

import CyclePattern.Proofs.Lexing.Modifier
import CyclePattern.Proofs.Tree.WordNode
import Mathlib.Data.List.Nodup

namespace CyclePattern

open Text

variable {α : Type}

/-- A rhythm has a pulse and no more pulses than steps. -/
structure Euclid.InRange (rhythm : Euclid) : Prop where
  pulses : 0 < rhythm.pulses
  steps : rhythm.pulses ≤ rhythm.steps

/-- Controls are known, and each is set once. -/
structure Controls.Known (controls : Controls α) : Prop where
  nodup : (controls.map Prod.fst).Nodup
  mem_known : ∀ name ∈ controls.map Prod.fst, name ∈ knownControls

/-- A degree lies between one and thirteen, also when it is raised or lowered. -/
def Harmony.InRange : Harmony → Prop
  | degree number => 1 ≤ number ∧ number ≤ 13
  | alteredDegree name =>
    ∃ c digits, name = String.ofList (c :: digits) ∧ isAccidental c = true ∧ digits ≠ [] ∧
      digits.all isDecimal = true ∧ 1 ≤ digitsValue digits ∧ digitsValue digits ≤ 13
  | chord _ => True
  | roman _ => True

/-- All numbers of a sound are in range. -/
structure Atom.InRange [LT α] [LE α] [OfNat α 0] [OfNat α 1] (sound : Atom α) : Prop where
  name : sound.name ≠ ""
  sample : ∀ n ∈ sound.sample, 0 ≤ n
  weight : 0 < sound.weight
  repeats : ∀ n ∈ sound.repeats, 1 ≤ n
  copies : ∀ n ∈ sound.copies, 1 ≤ n
  probability : ∀ x ∈ sound.probability, 0 ≤ x ∧ x ≤ 1
  division : ∀ x ∈ sound.division, 0 < x
  ratio : ∀ x ∈ sound.ratio, 0 < x
  euclid : ∀ rhythm ∈ sound.euclid, rhythm.InRange
  controls : Controls.Known sound.controls

namespace Node

/-- Whether the node is a sequence. -/
def IsSequence : Node α → Prop
  | .sequence _ => True
  | _ => False

/-- Whether the node is a stack of at least two sequences. -/
def IsStack : Node α → Prop
  | .stack groups => 2 ≤ groups.length ∧ ∀ group ∈ groups, group.IsSequence
  | _ => False

/-- Whether the node may stand in a sequence. -/
def IsItem : Node α → Prop
  | .sequence _ | .stack _ => False
  | _ => True

/-- Whether the node may be an option of a choice. -/
def IsOption : Node α → Prop
  | .atom _ _ | .rest _ | .harmony _ _ _ => True
  | _ => False

/-- What holds of a node by itself when it was read. Of the numbers that may follow a group only
one is set. -/
def WellFormed [LT α] [LE α] [OfNat α 0] [OfNat α 1] : Node α → Prop
  | .empty => False
  | .atom sound _ => sound.InRange
  | .rest _ => True
  | .elongation _ => True
  | .harmony leaf _ _ => leaf.InRange
  | .sequence children => ∀ child ∈ children, child.IsItem
  | .stack groups => (stack groups).IsStack
  | .subdivision inner repeats division ratio _ =>
    (inner.IsSequence ∨ inner.IsStack) ∧
      [repeats.isSome, division.isSome, ratio.isSome].count true ≤ 1 ∧
      (∀ n ∈ repeats, 1 ≤ n) ∧ (∀ x ∈ division, 0 < x) ∧ ∀ x ∈ ratio, 0 < x
  | .alternation options repeats division _ =>
    (∀ option ∈ options, option.isElongation = false) ∧
      [repeats.isSome, division.isSome].count true ≤ 1 ∧
      (∀ n ∈ repeats, 1 ≤ n) ∧ ∀ x ∈ division, 0 < x
  | .polymetric groups steps _ =>
    groups ≠ [] ∧ (∀ group ∈ groups, group.IsSequence) ∧ ∀ n ∈ steps, 1 ≤ n
  | .choice options _ => 2 ≤ options.length ∧ ∀ option ∈ options, option.IsOption

theorem isLeaf_of_isOption {n : Node α} (hn : n.IsOption) : n.IsLeaf := by
  cases n <;> trivial

theorem isItem_of_isLeaf {n : Node α} (hn : n.IsLeaf) : n.IsItem := by
  cases n <;> trivial

/-- Only the contents of a node matter. -/
theorem wellFormed_withSpan [LT α] [LE α] [OfNat α 0] [OfNat α 1] (n : Node α) (span : Span) :
    (n.withSpan span).WellFormed ↔ n.WellFormed := by
  cases n <;> exact Iff.rfl

end Node

/-- Whether the number of a modifier is in range. -/
def Modifier.InRange : Modifier → Prop
  | sample n => 0 ≤ n
  | repeats n => 1 ≤ n
  | copies n => 1 ≤ n
  | weight x => 0 < x
  | division x => 0 < x
  | ratio x => 0 < x
  | probability x => 0 ≤ x ∧ x ≤ 1
  | euclid rhythm => rhythm.InRange

/-- Whether the numbers of all modifiers are in range. -/
structure Modifiers.InRange (ms : Modifiers) : Prop where
  sample : ∀ n ∈ ms.sample, 0 ≤ n
  repeats : ∀ n ∈ ms.repeats, 1 ≤ n
  copies : ∀ n ∈ ms.copies, 1 ≤ n
  weight : ∀ x ∈ ms.weight, 0 < x
  division : ∀ x ∈ ms.division, 0 < x
  ratio : ∀ x ∈ ms.ratio, 0 < x
  probability : ∀ x ∈ ms.probability, 0 ≤ x ∧ x ≤ 1
  euclid : ∀ rhythm ∈ ms.euclid, rhythm.InRange

namespace Modifier

variable {cs rest : List Char}

theorem defaultProbability_range : 0 ≤ defaultProbability ∧ defaultProbability ≤ 1 := by
  decide

theorem Written.inRange {m : Modifier} (hm : m.Written cs) : m.InRange := by
  cases hm with
  | sample hx hn hle => exact hle
  | repeats hx hn hle => exact hle
  | copies hx hn hle => exact hle
  | weight hx hpos => exact hpos
  | division hx hpos => exact hpos
  | ratio hx hpos => exact hpos
  | probability hx hrange => exact hrange
  | evenChance => exact defaultProbability_range
  | euclid harguments hrange => exact ⟨hrange.1, hrange.2⟩

/-- A modifier that is read is in range. -/
theorem inRange_of_read? {m : Modifier} (hread : read? cs = some (m, rest)) : m.InRange := by
  obtain ⟨text, hm, -⟩ := written_of_read? hread
  exact hm.inRange

end Modifier

namespace Modifiers

theorem inRange_none : none.InRange := by
  constructor <;> simp [none]

theorem InRange.add? {ms more : Modifiers} {m : Modifier} (hms : ms.InRange) (hm : m.InRange)
    (hadd : ms.add? m = some more) : more.InRange := by
  cases m
  all_goals
    simp only [Modifiers.add?, Option.ite_none_left_eq_some, Option.some.injEq] at hadd
    obtain ⟨-, rfl⟩ := hadd
  · exact { hms with sample := by rintro n ⟨⟩; exact hm }
  · exact { hms with repeats := by rintro n ⟨⟩; exact hm }
  · exact { hms with copies := by rintro n ⟨⟩; exact hm }
  · exact { hms with weight := by rintro x ⟨⟩; exact hm }
  · exact { hms with division := by rintro x ⟨⟩; exact hm }
  · exact { hms with ratio := by rintro x ⟨⟩; exact hm }
  · exact { hms with probability := by rintro x ⟨⟩; exact hm }
  · exact { hms with euclid := by rintro rhythm ⟨⟩; exact hm }

/-- Modifiers that are read are in range. -/
theorem InRange.read? {ms more : Modifiers} {cs : List Char} (hms : ms.InRange)
    (hread : ms.read? cs = some more) : more.InRange := by
  fun_induction Modifiers.read? ms cs with
  | case1 ms cs hempty =>
      cases hread
      exact hms
  | case2 ms cs hempty hnone => cases hread
  | case3 ms cs hempty m rest hmodifier hnone => cases hread
  | case4 ms cs hempty m rest hmodifier next hadd ih =>
      exact ih (hms.add? (Modifier.inRange_of_read? hmodifier) hadd) hread

end Modifiers

namespace Controls

theorem known_nil : Known ([] : Controls α) :=
  ⟨List.nodup_nil, by simp⟩

/-- Setting a control adds its name at the end, unless it is there. -/
theorem keys_set (controls : Controls α) (name : String) (value : α) :
    (set controls name value).map Prod.fst =
      if name ∈ controls.map Prod.fst then controls.map Prod.fst
      else controls.map Prod.fst ++ [name] := by
  induction controls with
  | nil => rfl
  | cons control rest ih =>
      obtain ⟨other, old⟩ := control
      rw [set]
      by_cases hsame : other = name
      · simp [hsame]
      · have hne : name ≠ other := Ne.symm hsame
        simp only [hsame, if_false, List.map_cons, ih, List.mem_cons, hne, false_or]
        split <;> rfl

theorem Known.set {controls : Controls α} {name : String} (hcontrols : Known controls)
    (hname : name ∈ knownControls) (value : α) : Known (Controls.set controls name value) := by
  by_cases hmem : name ∈ controls.map Prod.fst
  · constructor
    · rw [keys_set, if_pos hmem]
      exact hcontrols.nodup
    · rw [keys_set, if_pos hmem]
      exact hcontrols.mem_known
  · constructor
    · rw [keys_set, if_neg hmem]
      rw [← List.concat_eq_append]
      exact hcontrols.nodup.concat hmem
    · rw [keys_set, if_neg hmem]
      intro other hother
      rcases List.mem_append.mp hother with hold | hnew
      · exact hcontrols.mem_known other hold
      · cases List.mem_singleton.mp hnew
        exact hname

end Controls

theorem Atom.inRange_ofModifiers {name : List Char} {ms : Modifiers} {controls : Controls Float}
    (hname : name ≠ []) (hms : ms.InRange) (hcontrols : Controls.Known controls) :
    (ofModifiers name ms controls).InRange where
  name := by
    intro hempty
    exact hname (String.ofList_eq_empty_iff.mp hempty)
  sample := hms.sample
  weight := by
    have hone : (0 : Float) < Measure.one := by decide
    cases hweight : ms.weight with
    | none => simpa [ofModifiers, hweight] using hone
    | some x => simpa [ofModifiers, hweight] using hms.weight x hweight
  repeats := hms.repeats
  copies := hms.copies
  probability := hms.probability
  division := hms.division
  ratio := hms.ratio
  euclid := hms.euclid
  controls := hcontrols

theorem Harmony.degreeNumber?_eq_some {digits : List Char} {number : Nat}
    (hread : degreeNumber? digits = some number) :
    digits ≠ [] ∧ digits.all isDecimal = true ∧ 1 ≤ digitsValue digits ∧
      digitsValue digits ≤ 13 ∧ digitsValue digits = number := by
  simp only [degreeNumber?, Option.ite_none_right_eq_some, Option.some.injEq] at hread
  obtain ⟨⟨hne, hall, hlow, hhigh⟩, hnumber⟩ := hread
  exact ⟨hne, hall, hlow, hhigh, hnumber⟩

theorem Harmony.inRange_of_readDegree? {cs : List Char} {leaf : Harmony}
    (hread : readDegree? cs = some leaf) : leaf.InRange := by
  cases cs with
  | nil => cases hread
  | cons c digits =>
      simp only [readDegree?] at hread
      split at hread
      · next haccidental =>
          obtain ⟨number, hnumber, rfl⟩ := Option.map_eq_some_iff.mp hread
          obtain ⟨hne, hall, hlow, hhigh, -⟩ := degreeNumber?_eq_some hnumber
          exact ⟨c, digits, rfl, haccidental, hne, hall, hlow, hhigh⟩
      · obtain ⟨value, hvalue, rfl⟩ := Option.map_eq_some_iff.mp hread
        obtain ⟨number, hnumber, hsame⟩ := Option.bind_eq_some_iff.mp hvalue
        obtain ⟨-, -, hlow, hhigh, rfl⟩ := degreeNumber?_eq_some hnumber
        cases hsame
        exact ⟨by omega, by omega⟩

theorem Harmony.inRange_of_ofWord? {cs : List Char} {leaf : Harmony}
    (hread : ofWord? cs = some leaf) : leaf.InRange := by
  unfold ofWord? at hread
  split at hread
  · exact inRange_of_readDegree? hread
  · split at hread
    · cases hread
      trivial
    split at hread
    · cases hread
      trivial
    · cases hread
  · cases hread

namespace Word

variable {word text head name : List Char} {start : Int}

theorem wellFormed_literal (hword : word ≠ []) (start : Int) :
    (literal word start).value.WellFormed :=
  Atom.inRange_ofModifiers hword Modifiers.inRange_none Controls.known_nil

theorem inRange_of_sound? {ms : Modifiers} (hsound : sound? word = some (name, ms)) :
    name ≠ [] ∧ ms.InRange := by
  unfold sound? at hsound
  split at hsound
  · cases hsound
  · next first rest hne hspan =>
      obtain ⟨more, hread, hsame⟩ := Option.map_eq_some_iff.mp hsound
      cases hsame
      exact ⟨hne, Modifiers.inRange_none.read? hread⟩

theorem wellFormed_sound (hword : word ≠ []) (start : Int) :
    (sound word start).value.WellFormed ∧ (sound word start).value.IsOption := by
  unfold sound
  split
  · next hsound =>
      obtain ⟨hname, hms⟩ := inRange_of_sound? hsound
      exact ⟨Atom.inRange_ofModifiers hname hms Controls.known_nil, trivial⟩
  · exact ⟨wellFormed_literal hword start, trivial⟩

theorem wellFormed_option (htext : text ≠ []) (start : Int) :
    (option text start).value.WellFormed ∧ (option text start).value.IsOption := by
  unfold option
  split
  · exact ⟨trivial, trivial⟩
  split
  · next hleaf => exact ⟨Harmony.inRange_of_ofWord? hleaf, trivial⟩
  · exact wellFormed_sound htext start

theorem wellFormed_of_mem_optionNodes {segments : List Segment} {n : Node Float}
    (hn : n ∈ optionNodes start segments) : n.WellFormed ∧ n.IsOption := by
  obtain ⟨segment, hsegment, rfl⟩ := List.mem_map.mp hn
  have hgiven := (List.mem_filter.mp hsegment).2
  have hne : segment.text ≠ [] := by simpa using hgiven
  exact wellFormed_option hne _

theorem wellFormed_choice (hword : word ≠ []) (start : Int) (segments : List Segment) :
    (choice word start segments).value.WellFormed := by
  have hoptions : ∀ n ∈ optionNodes start segments, n.WellFormed ∧ n.IsOption :=
    fun n hn => wellFormed_of_mem_optionNodes hn
  rw [choice_value]
  cases hgiven : optionNodes start segments with
  | nil => exact wellFormed_literal hword start
  | cons first rest =>
      rw [hgiven] at hoptions
      cases rest with
      | nil =>
          have hfirst := (hoptions first (by simp)).1
          exact (Node.wellFormed_withSpan first _).mpr hfirst
      | cons second rest =>
          refine ⟨by simp, ?_⟩
          intro n hn
          exact (hoptions n hn).2

/-- The controls that a word sets are known, and each stands once. -/
theorem known_readControls {controls : Controls Float} (hcontrols : Controls.Known controls)
    (start : Int) (notices : List Notice) (segments : List Segment) :
    Controls.Known (readControls start controls notices segments).1 := by
  induction segments generalizing controls notices with
  | nil => exact hcontrols
  | cons segment rest ih =>
      rw [readControls]
      split
      · exact ih hcontrols notices
      split
      · next key x hread =>
          split
          · next hknown =>
              have hkey : String.ofList key ∈ knownControls := by simpa using hknown
              exact ih (hcontrols.set hkey x.toFloat) notices
          · exact ih hcontrols _
      · exact hcontrols

theorem wellFormed_controlled (hword : word ≠ []) (start : Int) (head : List Char)
    (rest : List Segment) : (controlled word start head rest).value.WellFormed := by
  unfold controlled
  split
  · exact wellFormed_literal hword start
  · next name ms hsound =>
      obtain ⟨hname, hms⟩ := inRange_of_sound? hsound
      have hknown := known_readControls Controls.known_nil start [] rest
      split
      · next hread =>
          rw [hread] at hknown
          exact Atom.inRange_ofModifiers hname hms hknown
      · exact wellFormed_literal hword start

/-- The node of a word is well formed. -/
theorem wellFormed_read (hword : word ≠ []) (start : Int) :
    (read word start).value.WellFormed := by
  unfold read
  split
  · trivial
  split
  · trivial
  split
  · next hleaf => exact Harmony.inRange_of_ofWord? hleaf
  split
  · unfold piped
    split
    · exact wellFormed_controlled hword start _ _
    · exact wellFormed_choice hword start _
  · exact (wellFormed_sound hword start).1

theorem isItem_read (word : List Char) (start : Int) : (read word start).value.IsItem := by
  rcases read_cases word start with ⟨hleaf, -, -⟩ | hchoice
  · exact Node.isItem_of_isLeaf hleaf
  · rw [hchoice]
    trivial

/-- Every node of a word is well formed. -/
theorem wellFormed_of_holds_read {n : Node Float} (hword : word ≠ [])
    (hholds : (read word start).value.Holds n) : n.WellFormed := by
  have hread := wellFormed_read hword start
  rcases read_cases word start with ⟨hleaf, -, -⟩ | hchoice
  · rw [hholds.eq_of_isLeaf hleaf]
    exact hread
  · rw [hchoice] at hholds hread
    cases hholds with
    | refl => exact hread
    | child hc hn =>
        obtain ⟨hformed, hoption⟩ := wellFormed_of_mem_optionNodes hc
        rw [hn.eq_of_isLeaf (Node.isLeaf_of_isOption hoption)]
        exact hformed

end Word

end CyclePattern
