/-
# Trees that are read are well formed

Only words and groups make nodes. A word makes well-formed ones by itself; a group puts together
what its items have made and sets at most one number, after the number was checked. So every node of
a tree that was read is well formed, and playing the tree need not check anything again.
-/

import CyclePattern.Proofs.Grammar.Locality
import CyclePattern.Proofs.Number.Whole
import CyclePattern.Proofs.Tree.WellFormed

namespace CyclePattern

open Piece

/-- At most one field of a group is set, and to a number in range. -/
structure GroupSettings.InRange (settings : GroupSettings) : Prop where
  single : [settings.repeats.isSome, settings.division.isSome, settings.ratio.isSome,
    settings.steps.isSome].count true ≤ 1
  repeats : ∀ n ∈ settings.repeats, 1 ≤ n
  division : ∀ x ∈ settings.division, 0 < x
  ratio : ∀ x ∈ settings.ratio, 0 < x
  steps : ∀ n ∈ settings.steps, 1 ≤ n

namespace GroupSettings

theorem inRange_none : none.InRange := by
  constructor <;> simp [none]

theorem le_of_count? {number : Numeral} {n : Int} (hcount : ofNumber?.count? number = some n) :
    1 ≤ n := by
  unfold ofNumber?.count? at hcount
  split at hcount
  · cases hcount
  split at hcount
  · next hle =>
      cases hcount
      exact hle
  · cases hcount

theorem pos_of_factor? {number : Numeral} {x : Float}
    (hfactor : ofNumber?.factor? number = some x) :
    0 < x := by
  rw [factor?_eq] at hfactor
  split at hfactor
  · next hpositive =>
      cases hfactor
      exact hpositive
  · cases hfactor

theorem inRange_of_ofNumber? {field : GroupField} {number : Numeral} {settings : GroupSettings}
    (hread : ofNumber? field number = some settings) : settings.InRange := by
  cases field with
  | repeats =>
      obtain ⟨n, hcount, rfl⟩ := Option.map_eq_some_iff.mp hread
      exact { inRange_none with
        single := Nat.le_refl 1
        repeats := by rintro _ ⟨⟩; exact le_of_count? hcount }
  | division =>
      obtain ⟨x, hfactor, rfl⟩ := Option.map_eq_some_iff.mp hread
      exact { inRange_none with
        single := Nat.le_refl 1
        division := by rintro _ ⟨⟩; exact pos_of_factor? hfactor }
  | ratio =>
      obtain ⟨x, hfactor, rfl⟩ := Option.map_eq_some_iff.mp hread
      exact { inRange_none with
        single := Nat.le_refl 1
        ratio := by rintro _ ⟨⟩; exact pos_of_factor? hfactor }
  | steps =>
      obtain ⟨n, hcount, rfl⟩ := Option.map_eq_some_iff.mp hread
      exact { inRange_none with
        single := Nat.le_refl 1
        steps := by rintro _ ⟨⟩; exact le_of_count? hcount }

end GroupSettings

/-- What the modifier of a group sets is in range. -/
theorem inRange_settings (m : Option GroupModifier) : (Piece.settings m).InRange := by
  cases m with
  | none => exact GroupSettings.inRange_none
  | some m =>
      rw [Piece.settings]
      cases hread : GroupSettings.ofNumber? m.field m.number with
      | none => exact GroupSettings.inRange_none
      | some settings => exact GroupSettings.inRange_of_ofNumber? hread

theorem isSequence_of_mem_map {groups : List (List (Node Float))} {group : Node Float}
    (hgroup : group ∈ groups.map Node.sequence) : group.IsSequence := by
  obtain ⟨g, -, rfl⟩ := List.mem_map.mp hgroup
  trivial

/-- Inside square brackets stands one sequence, or a stack of more. -/
theorem isSequence_or_isStack_innerOf {groups : List (List (Node Float))} (hgroups : groups ≠ []) :
    (innerOf groups).IsSequence ∨ (innerOf groups).IsStack := by
  cases groups with
  | nil => contradiction
  | cons first others =>
      cases others with
      | nil => exact .inl trivial
      | cons second others =>
          refine .inr ⟨by simp, ?_⟩
          intro group hgroup
          exact isSequence_of_mem_map hgroup

theorem isItem_groupNode (b : Bracket) (groups : List (List (Node Float)))
    (settings : GroupSettings) (span : Span) : (groupNode b groups settings span).IsItem := by
  cases b <;> trivial

theorem wellFormed_groupNode (b : Bracket) {groups : List (List (Node Float))}
    {settings : GroupSettings} (span : Span) (hgroups : groups ≠ [])
    (hsettings : settings.InRange) : (groupNode b groups settings span).WellFormed := by
  cases b with
  | square =>
      have hsublist : [settings.repeats.isSome, settings.division.isSome,
          settings.ratio.isSome].Sublist [settings.repeats.isSome, settings.division.isSome,
            settings.ratio.isSome, settings.steps.isSome] := by
        simp
      exact ⟨isSequence_or_isStack_innerOf hgroups,
        (hsublist.count_le true).trans hsettings.single, hsettings.repeats, hsettings.division,
        hsettings.ratio⟩
  | angle =>
      have hsublist : [settings.repeats.isSome, settings.division.isSome].Sublist
          [settings.repeats.isSome, settings.division.isSome, settings.ratio.isSome,
            settings.steps.isSome] := by
        simp
      refine ⟨?_, (hsublist.count_le true).trans hsettings.single, hsettings.repeats,
        hsettings.division⟩
      intro option hoption
      simpa using (List.mem_filter.mp hoption).2
  | curly =>
      refine ⟨by simpa using hgroups, ?_, hsettings.steps⟩
      intro group hgroup
      exact isSequence_of_mem_map hgroup

namespace Piece

variable {cs : List Char} {room o : Nat} {p : Piece} {n m : Node Float}

/-- The node of a piece is no sequence and no stack. -/
theorem isItem_of_node? (hnode : p.node? o = some n) : n.IsItem := by
  cases p with
  | separator c => cases hnode
  | word w =>
      cases hnode
      exact Word.isItem_read w o
  | group b earlier last m =>
      rw [node?_group] at hnode
      cases hnode
      exact isItem_groupNode b _ _ _

/-- Every node inside the node of a piece is well formed. -/
theorem wellFormed_of_locates (hp : Locates cs room p o n) (hholds : n.Holds m) : m.WellFormed := by
  induction p, o, n, hp using Locates.induction generalizing m with
  | word w o n hp =>
      obtain rfl : (Word.read w o).value = n := Option.some.inj hp.node
      exact Word.wellFormed_of_holds_read (text_ne_nil_of_occur hp.occur) hholds
  | group b earlier last modifier o n hp hitems =>
      have hnode := hp.node
      rw [node?_group] at hnode
      cases hnode
      have hgroups : sequencesOf o earlier last ≠ [] := by simp [sequencesOf]
      rcases holds_groupNode hholds with
        rfl | ⟨rfl, hinner⟩ | ⟨g, hg, rfl⟩ | ⟨g, hg, item, hitem, hm⟩
      · exact wellFormed_groupNode b _ hgroups (inRange_settings modifier)
      · rcases isSequence_or_isStack_innerOf hgroups with hsequence | hstack
        · rw [hinner] at hsequence
          cases hsequence
        · rwa [hinner] at hstack
      · intro child hchild
        obtain ⟨q, s, hq, -⟩ := hitems g hg child hchild
        exact isItem_of_node? hq.node
      · obtain ⟨q, s, hq, hformed⟩ := hitems g hg item hitem
        exact hformed hm

end Piece

namespace Reading

theorem forall_wellFormed {limit : Int} {cs : List Char} {items : List (Node Float)}
    (hresult : (ofText limit 0 0 cs).result = .ok items) :
    ∀ n, (Node.sequence items).Holds n → n.WellFormed := by
  intro n hholds
  rcases holds_sequence hholds with rfl | ⟨item, hitem, hn⟩
  · intro child hchild
    obtain ⟨q, s, hq⟩ := locates_of_result hresult hchild
    exact isItem_of_node? hq.node
  · obtain ⟨q, s, hq⟩ := locates_of_result hresult hitem
    exact wellFormed_of_locates hq hn

/-- Every node of a tree that was read is well formed. -/
theorem wellFormed_of_result {limit : Int} {cs : List Char} {items : List (Node Float)}
    {n : Node Float} (hresult : (ofText limit 0 0 cs).result = .ok items)
    (hholds : (Node.sequence items).Holds n) : n.WellFormed :=
  forall_wellFormed hresult n hholds

/-- The group `[a,^3]*2` repeats a stack of two sequences, and sets nothing else. -/
theorem wellFormed_of_result_of_stack :
    (ofText 1 0 0 ['[', 'a', ',', '^', '3', ']', '*', '2']).result =
        .ok [.subdivision (.stack [.sequence [(Word.read ['a'] 1).value],
          .sequence [.harmony (.degree 3) "^3" (.between 3 5)]]) (some 2) none none
          (.between 0 8)] ∧
      (Node.subdivision (.stack [.sequence [(Word.read ['a'] 1).value],
        .sequence [.harmony (.degree 3) "^3" (.between 3 5)]]) (some 2) none none
        (.between 0 8)).WellFormed := by
  have htokens : tokens ['[', 'a', ',', '^', '3', ']', '*', '2'] =
      [.opening .square, .word ['a'], .comma, .word ['^', '3'],
        .closing .square (some ⟨'*', .repeats, ⟨false, ['2'], none⟩⟩)] := by
    decide +kernel
  have hresult : (ofText 1 0 0 ['[', 'a', ',', '^', '3', ']', '*', '2']).result =
      .ok [.subdivision (.stack [.sequence [(Word.read ['a'] 1).value],
        .sequence [.harmony (.degree 3) "^3" (.between 3 5)]]) (some 2) none none
        (.between 0 8)] := by
    rw [ofText, htokens]
    simp (disch := decide) only [ofTokens, Progress.step_word]
    rfl
  exact ⟨hresult, wellFormed_of_result hresult (.child (List.mem_singleton.mpr rfl) (.refl _))⟩

end Reading

end CyclePattern
