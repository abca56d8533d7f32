/-
# A number after a sound and after a group

An operator that a group takes may follow a sound as well, and the number after it sets the same
field to the same value in both. Where the number is out of range the sound is kept as a name that
has the number in it, and the group drops the number.

A group converts every number without a fraction to an integer, so one with too many digits keeps it
from being read, and so does a factor that is an integer beyond every float. A sound converts its
counts only, and takes the nearest float there is for a factor.
-/

import CyclePattern.Proofs.Grammar.Language
import CyclePattern.Proofs.Number.Whole
import CyclePattern.Proofs.Tree.WordNode

namespace CyclePattern

open Text

variable {b : Bracket} {c : Char} {field : GroupField} {x : Numeral}

namespace Modifiers

/-- The modifiers of a sound that have what is set for a group. -/
def ofSettings (settings : GroupSettings) : Modifiers :=
  { none with
    repeats := settings.repeats
    division := settings.division
    ratio := settings.ratio }

theorem readCount?_text (hx : x.WellFormed) :
    Modifier.readCount? 1 x.text = (GroupSettings.ofNumber?.count? x).map fun n => (n, []) := by
  simp only [Modifier.readCount?, Numeral.read?_text hx, GroupSettings.ofNumber?.count?]
  cases x.toInt? with
  | none => rfl
  | some n =>
      by_cases hle : 1 ≤ n
      · simp [hle, Int.not_lt.mpr hle]
      · simp [hle, Int.not_le.mp hle]

theorem readPositive?_text (hx : x.WellFormed) :
    Modifier.readPositive? x.text = (GroupSettings.ofNumber?.factor? x).map fun v => (v, []) := by
  simp only [Modifier.readPositive?, Numeral.read?_text hx, GroupSettings.factor?_eq]
  split <;> rfl

/-- A number after an operator is read as one modifier, which sets what it sets after a group in
square brackets, or as none. -/
theorem exists_read?_number (hc : (c, field) ∈ Bracket.square.operators) (hx : x.WellFormed) :
    ∃ found : Option Modifier, Modifier.read? (c :: x.text) = (found.map fun m => (m, [])) ∧
      found.bind none.add? = (GroupSettings.ofNumber? field x).map ofSettings := by
  simp only [Bracket.operators, List.mem_cons, Prod.mk.injEq, List.not_mem_nil, or_false] at hc
  rcases hc with ⟨rfl, rfl⟩ | ⟨rfl, rfl⟩ | ⟨rfl, rfl⟩
  · refine ⟨(GroupSettings.ofNumber?.count? x).map .repeats, ?_, ?_⟩
    · simp [Modifier.read?, readCount?_text hx, Function.comp_def]
    · rw [GroupSettings.ofNumber?]
      cases GroupSettings.ofNumber?.count? x <;> rfl
  · refine ⟨(GroupSettings.ofNumber?.factor? x).map .division, ?_, ?_⟩
    · simp [Modifier.read?, readPositive?_text hx, Function.comp_def]
    · rw [GroupSettings.ofNumber?]
      cases GroupSettings.ofNumber?.factor? x <;> rfl
  · refine ⟨(GroupSettings.ofNumber?.factor? x).map .ratio, ?_, ?_⟩
    · simp [Modifier.read?, readPositive?_text hx, Function.comp_def]
    · rw [GroupSettings.ofNumber?]
      cases GroupSettings.ofNumber?.factor? x <;> rfl

theorem read?_eq_ofNumber? (hc : (c, field) ∈ Bracket.square.operators) (hx : x.WellFormed) :
    none.read? (c :: x.text) = (GroupSettings.ofNumber? field x).map ofSettings := by
  obtain ⟨found, hread, hadd⟩ := exists_read?_number hc hx
  rw [read?_single (List.cons_ne_nil _ _) hread, hadd]

end Modifiers

theorem spanSoundName_letter (hc : (c, field) ∈ Bracket.square.operators) (rest : List Char) :
    spanSoundName ('x' :: c :: rest) = (['x'], c :: rest) := by
  have hoperator : c ∈ modifierOperators := by
    rcases Bracket.operator_of_mem hc with rfl | rfl | rfl <;> decide
  have hname : IsSoundRun ['x'] := isSoundRun_cons_iff.mpr ⟨.inl rfl, isSoundRun_nil⟩
  exact spanSoundName_append hname (beforeModifier_cons hoperator rest)

theorem Word.sound?_letter (hc : (c, field) ∈ Bracket.square.operators) (hx : x.WellFormed) :
    sound? ('x' :: c :: x.text) =
      (GroupSettings.ofNumber? field x).map fun settings => (['x'], .ofSettings settings) := by
  rw [sound?, spanSoundName_letter hc]
  simp only [Modifiers.read?_eq_ofNumber? hc hx, Option.map_map, Function.comp_def]

/-- No bar stands in a sound with a number. -/
theorem not_barOutside_letter (hc : (c, field) ∈ b.operators) (hx : x.WellFormed) :
    ¬ BarOutside ('x' :: c :: x.text) := by
  rintro ⟨front, back, hsplit, -⟩
  have hmem : '|' ∈ 'x' :: c :: x.text := by
    rw [hsplit]
    simp
  have hnumber : '|' ∉ x.text :=
    Numeral.not_mem_text hx (by decide) (by decide) (by decide)
  rcases Bracket.operator_of_mem hc with rfl | rfl | rfl <;> simp [hnumber] at hmem

theorem Word.read_letter_number (hc : (c, field) ∈ Bracket.square.operators) (hx : x.WellFormed)
    (start : Int) : read ('x' :: c :: x.text) start = sound ('x' :: c :: x.text) start := by
  apply read_eq_sound
  · simp [restMark]
  · simp [elongationMark]
  · rfl
  · exact not_barOutside_letter hc hx

/-- Something is set by a number in range. -/
theorem GroupSettings.isSet_of_ofNumber? {settings : GroupSettings}
    (hc : (c, field) ∈ Bracket.square.operators) (hsettings : ofNumber? field x = some settings) :
    ¬ (settings.repeats = .none ∧ settings.division = .none ∧ settings.ratio = .none) := by
  simp only [Bracket.operators, List.mem_cons, Prod.mk.injEq, List.not_mem_nil, or_false] at hc
  rcases hc with ⟨-, rfl⟩ | ⟨-, rfl⟩ | ⟨-, rfl⟩
  all_goals
    simp only [ofNumber?, Option.map_eq_some_iff] at hsettings
    obtain ⟨value, -, rfl⟩ := hsettings
    simp

/-- A sound has what its number sets, and is kept as a name exactly when nothing is set. -/
theorem Word.exists_read_letter_number (hc : (c, field) ∈ Bracket.square.operators)
    (hx : x.WellFormed) (start : Int) :
    ∃ sound : Atom Float,
      (read ('x' :: c :: x.text) start).value =
        .atom sound (.between start (start + ('x' :: c :: x.text).length)) ∧
      (sound.repeats = (Piece.settings (some ⟨c, field, x⟩)).repeats ∧
        sound.division = (Piece.settings (some ⟨c, field, x⟩)).division ∧
        sound.ratio = (Piece.settings (some ⟨c, field, x⟩)).ratio) ∧
      ((read ('x' :: c :: x.text) start).value = (literal ('x' :: c :: x.text) start).value ↔
        sound.repeats = none ∧ sound.division = none ∧ sound.ratio = none) := by
  rw [read_letter_number hc hx, Word.sound, sound?_letter hc hx]
  cases hsettings : GroupSettings.ofNumber? field x with
  | none =>
      refine ⟨.ofModifiers ('x' :: c :: x.text) .none [], rfl, ?_, ?_⟩
      · simp only [Piece.settings, hsettings]
        exact ⟨rfl, rfl, rfl⟩
      · exact iff_of_true rfl ⟨rfl, rfl, rfl⟩
  | some settings =>
      refine ⟨.ofModifiers ['x'] (.ofSettings settings) [], rfl, ?_, ?_⟩
      · simp only [Piece.settings, hsettings]
        exact ⟨rfl, rfl, rfl⟩
      · refine iff_of_false ?_ (GroupSettings.isSet_of_ofNumber? hc hsettings)
        exact atom_ne_literal rfl (by simp) start

theorem Bracket.exists_mem_operators_square (hc : c ∈ ['*', '/', '%']) :
    ∃ field, (c, field) ∈ square.operators := by
  simp only [List.mem_cons, List.not_mem_nil, or_false] at hc
  rcases hc with rfl | rfl | rfl
  · exact ⟨.repeats, by simp [operators]⟩
  · exact ⟨.division, by simp [operators]⟩
  · exact ⟨.ratio, by simp [operators]⟩

theorem Bracket.mem_operators_angle (hc : (c, field) ∈ square.operators) (hratio : c ≠ '%') :
    (c, field) ∈ angle.operators := by
  simp only [operators, List.mem_cons, Prod.mk.injEq, List.not_mem_nil, or_false] at hc ⊢
  rcases hc with hrepeats | hdivision | ⟨hpercent, -⟩
  · exact .inl hrepeats
  · exact .inr hdivision
  · exact absurd hpercent hratio

/-- Whether the operator takes a factor and the number is an integer beyond every float. -/
structure IsLargeFactor (c : Char) (x : Numeral) : Prop where
  operator : c = '/' ∨ c = '%'
  whole : x.fraction = none
  large : binary64Overflow ≤ x.wholeValue.natAbs

/-- A number that is not too long has a fault just where it is a large factor. -/
theorem GroupModifier.fault?_cases (hc : (c, field) ∈ Bracket.square.operators)
    (hshort : ¬ x.IsTooLong) :
    (IsLargeFactor c x ∧ fault? ⟨c, field, x⟩ = some .tooLarge) ∨
      (¬ IsLargeFactor c x ∧ fault? ⟨c, field, x⟩ = none) := by
  have hfactor : isTooLarge ⟨c, field, x⟩ = true ↔ IsLargeFactor c x := by
    have hoperator : (field = .division ∨ field = .ratio) ↔ (c = '/' ∨ c = '%') := by
      simp only [Bracket.operators, List.mem_cons, Prod.mk.injEq, List.not_mem_nil, or_false] at hc
      rcases hc with ⟨rfl, rfl⟩ | ⟨rfl, rfl⟩ | ⟨rfl, rfl⟩ <;> simp
    rw [isTooLarge_iff, hoperator]
    exact ⟨fun h => ⟨h.1, h.2.1, h.2.2⟩, fun h => ⟨h.operator, h.whole, h.large⟩⟩
  by_cases hlarge : IsLargeFactor c x
  · exact .inl ⟨hlarge, fault?_eq_some_iff.mpr (.inr ⟨hshort, hfactor.mpr hlarge, rfl⟩)⟩
  · refine .inr ⟨hlarge, Option.eq_none_iff_forall_ne_some.mpr ?_⟩
    intro fault hfault
    rcases fault?_eq_some_iff.mp hfault with ⟨hlong, -⟩ | ⟨-, htoo, -⟩
    · exact hshort hlong
    · exact hlarge (hfactor.mp htoo)

/-- A sound converts its number only as a count. -/
theorem Word.fault?_letter (hc : (c, field) ∈ Bracket.square.operators) (hx : x.WellFormed) :
    fault? ('x' :: c :: x.text) = if c = '*' then x.tooLong? else none := by
  have hwholes : wholes ('x' :: c :: x.text) = Modifiers.none.wholes (c :: x.text) := by
    rw [wholes_eq_plainWholes (by simp [restMark]) (by simp [elongationMark])
      (not_barOutside_letter hc hx)]
    show soundWholes ('x' :: c :: x.text) = _
    rw [soundWholes, spanSoundName_letter hc]
  obtain ⟨found, hfound, -⟩ := Modifiers.exists_read?_number hc hx
  rw [fault?, hwholes, Modifiers.wholes_single (List.cons_ne_nil _ _) hfound]
  simp only [Bracket.operators, List.mem_cons, Prod.mk.injEq, List.not_mem_nil, or_false] at hc
  rcases hc with ⟨rfl, -⟩ | ⟨rfl, -⟩ | ⟨rfl, -⟩
  · have hcount : Modifier.countWholes x.text = if x.isWhole then [x] else [] := by
      simp only [Modifier.countWholes, Numeral.read?_text hx]
    rw [if_pos rfl, Modifier.wholes, hcount]
    cases hwhole : x.isWhole <;> simp [Numeral.tooLong?, hwhole]
  · rfl
  · rfl

namespace Reading

variable {limit : Int}

/-- A group without a fault is read, and sets what its number sets. -/
theorem result_letterGroup_of_fault?_eq_none (hlimit : 1 ≤ limit) (hb : (c, field) ∈ b.operators)
    (hx : x.WellFormed) (hfault : GroupModifier.fault? ⟨c, field, x⟩ = none) :
    (ofText limit 0 0 (letterGroup b c x)).result =
      .ok [groupNode b [[(Word.read ['x'] 1).value]] (Piece.settings (some ⟨c, field, x⟩))
        (.between 0 (letterGroup b c x).length)] := by
  rw [result_letterGroup hlimit hb hx, hfault, Stop.unlessFault_none]

theorem result_letterGroup_of_fault?_eq_some {fault : NumberFault} (hlimit : 1 ≤ limit)
    (hb : (c, field) ∈ b.operators) (hx : x.WellFormed)
    (hfault : GroupModifier.fault? ⟨c, field, x⟩ = some fault) :
    (ofText limit 0 0 (letterGroup b c x)).result = .error (.number fault) := by
  rw [result_letterGroup hlimit hb hx, hfault, Stop.unlessFault_some]

/-- A letter is no elongation, so it stays among the options of an alternation. -/
theorem groupNode_angle_letter (settings : GroupSettings) (span : Span) :
    groupNode .angle [[(Word.read ['x'] 1).value]] settings span =
      .alternation [(Word.read ['x'] 1).value] settings.repeats settings.division span := by
  have helongation : (Word.read ['x'] 1).value.isElongation = false := by
    rw [← Bool.not_eq_true]
    intro hletter
    cases Word.eq_elongationMark_of_isElongation hletter
  simp [groupNode, helongation]

/-- An integer with too many digits keeps both groups from being read, and the sound only where it is
a count. -/
theorem number_of_isTooLong (hlimit : 1 ≤ limit) (hsquare : (c, field) ∈ Bracket.square.operators)
    (hx : x.WellFormed) (hlong : x.IsTooLong) :
    (ofText limit 0 0 (letterGroup .square c x)).result =
        .error (.number (.tooLong x.whole.length)) ∧
      (c ≠ '%' → (ofText limit 0 0 (letterGroup .angle c x)).result =
        .error (.number (.tooLong x.whole.length))) ∧
      (c = '*' → Word.node ('x' :: c :: x.text) 0 = .error (.tooLong x.whole.length)) ∧
      (c ≠ '*' → ∃ read, Word.node ('x' :: c :: x.text) 0 = .ok read) := by
  have hgroup : GroupModifier.fault? ⟨c, field, x⟩ = some (.tooLong x.whole.length) :=
    GroupModifier.fault?_eq_some_iff.mpr (.inl ⟨hlong, rfl⟩)
  have hsound := Word.fault?_letter hsquare hx
  refine ⟨result_letterGroup_of_fault?_eq_some hlimit hsquare hx hgroup, ?_, ?_, ?_⟩
  · intro hpercent
    have hangle := Bracket.mem_operators_angle hsquare hpercent
    exact result_letterGroup_of_fault?_eq_some hlimit hangle hx hgroup
  · intro hcount
    rw [if_pos hcount, Numeral.tooLong?_eq_some_iff.mpr ⟨hlong, rfl⟩] at hsound
    exact Word.node_of_fault?_eq_some hsound 0
  · intro hfactor
    rw [if_neg hfactor] at hsound
    exact ⟨_, Word.node_of_fault?_eq_none hsound 0⟩

/-- After a sound and after a group a number sets the same to the same, and the sound is kept as a
name exactly when nothing is set. An integer beyond every float, as a factor, keeps the group from
being read. So does any integer with too many digits, which the sound cannot have as a count
either, while it takes one as a factor. -/
theorem group_agrees_with_sound (hlimit : 1 ≤ limit) (hc : c ∈ ['*', '/', '%'])
    (hx : x.WellFormed) :
    (x.IsTooLong →
      (ofText limit 0 0 (letterGroup .square c x)).result =
        .error (.number (.tooLong x.whole.length)) ∧
      (c ≠ '%' → (ofText limit 0 0 (letterGroup .angle c x)).result =
        .error (.number (.tooLong x.whole.length))) ∧
      (c = '*' → Word.node ('x' :: c :: x.text) 0 = .error (.tooLong x.whole.length)) ∧
      (c ≠ '*' → ∃ read, Word.node ('x' :: c :: x.text) 0 = .ok read)) ∧
    (¬ x.IsTooLong → ∃ (sound : Atom Float) (read : Noted (Node Float)),
      Word.node ('x' :: c :: x.text) 0 = .ok read ∧
      read.value = .atom sound (.between 0 ('x' :: c :: x.text).length) ∧
      (read.value = (Word.literal ('x' :: c :: x.text) 0).value ↔
        sound.repeats = none ∧ sound.division = none ∧ sound.ratio = none) ∧
      ((IsLargeFactor c x ∧
          (ofText limit 0 0 (letterGroup .square c x)).result = .error (.number .tooLarge)) ∨
        (¬ IsLargeFactor c x ∧
          (ofText limit 0 0 (letterGroup .square c x)).result =
            .ok [.subdivision (.sequence [(Word.read ['x'] 1).value]) sound.repeats sound.division
              sound.ratio (.between 0 (letterGroup .square c x).length)])) ∧
      (c ≠ '%' →
        (IsLargeFactor c x ∧
          (ofText limit 0 0 (letterGroup .angle c x)).result = .error (.number .tooLarge)) ∨
        (¬ IsLargeFactor c x ∧
          (ofText limit 0 0 (letterGroup .angle c x)).result =
            .ok [.alternation [(Word.read ['x'] 1).value] sound.repeats sound.division
              (.between 0 (letterGroup .angle c x).length)]))) := by
  obtain ⟨field, hsquare⟩ := Bracket.exists_mem_operators_square hc
  refine ⟨number_of_isTooLong hlimit hsquare hx, ?_⟩
  intro hshort
  have hnode : Word.fault? ('x' :: c :: x.text) = none := by
    rw [Word.fault?_letter hsquare hx, Numeral.tooLong?_eq_none_iff.mpr hshort, ite_self]
  obtain ⟨sound, hvalue, ⟨hrepeats, hdivision, hratio⟩, hliteral⟩ :=
    Word.exists_read_letter_number hsquare hx 0
  rw [Int.zero_add] at hvalue
  refine ⟨sound, _, Word.node_of_fault?_eq_none hnode 0, hvalue, hliteral, ?_⟩
  rw [hrepeats, hdivision, hratio]
  rcases GroupModifier.fault?_cases hsquare hshort with ⟨hlarge, hgroup⟩ | ⟨hsmall, hgroup⟩
  · refine ⟨.inl ⟨hlarge, ?_⟩, fun hpercent => .inl ⟨hlarge, ?_⟩⟩
    · exact result_letterGroup_of_fault?_eq_some hlimit hsquare hx hgroup
    · have hangle := Bracket.mem_operators_angle hsquare hpercent
      exact result_letterGroup_of_fault?_eq_some hlimit hangle hx hgroup
  · refine ⟨.inr ⟨hsmall, ?_⟩, fun hpercent => .inr ⟨hsmall, ?_⟩⟩
    · exact result_letterGroup_of_fault?_eq_none hlimit hsquare hx hgroup
    · have hangle := Bracket.mem_operators_angle hsquare hpercent
      rw [result_letterGroup_of_fault?_eq_none hlimit hangle hx hgroup, groupNode_angle_letter]

/-- A half after a slash is a factor of the sound and of both groups. -/
theorem group_agrees_with_sound_of_half :
    ∃ (sound : Atom Float) (read : Noted (Node Float)),
      Word.node ['x', '/', '0', '.', '5'] 0 = .ok read ∧
      read.value = .atom sound (.between 0 5) ∧
      (ofText 64 0 0 ['[', 'x', ']', '/', '0', '.', '5']).result =
        .ok [.subdivision (.sequence [(Word.read ['x'] 1).value]) sound.repeats sound.division
          sound.ratio (.between 0 7)] ∧
      (ofText 64 0 0 ['<', 'x', '>', '/', '0', '.', '5']).result =
        .ok [.alternation [(Word.read ['x'] 1).value] sound.repeats sound.division
          (.between 0 7)] := by
  have hhalf : Numeral.WellFormed ⟨false, ['0'], some ['5']⟩ := by
    refine ⟨⟨by simp, by simp; decide⟩, ?_⟩
    rintro _ ⟨⟩
    exact ⟨by simp, by simp; decide⟩
  have hshort : ¬ Numeral.IsTooLong ⟨false, ['0'], some ['5']⟩ := by
    rintro ⟨hwhole, -⟩
    cases hwhole
  have hsmall : ¬ IsLargeFactor '/' ⟨false, ['0'], some ['5']⟩ := by
    rintro ⟨-, hwhole, -⟩
    cases hwhole
  obtain ⟨-, hagrees⟩ := group_agrees_with_sound (by decide : (1 : Int) ≤ 64) (c := '/')
    (by decide) hhalf
  obtain ⟨sound, read, hnode, hvalue, -, hsquare, hangle⟩ := hagrees hshort
  obtain ⟨-, hsquare⟩ := hsquare.resolve_left fun h => hsmall h.1
  obtain ⟨-, hangle⟩ := (hangle (by decide)).resolve_left fun h => hsmall h.1
  exact ⟨sound, read, hnode, hvalue, hsquare, hangle⟩

/-- After `[x]*` a negative number of 4301 digits is not dropped. The group is not read, and the
number is no factor beyond every float. -/
theorem number_of_group_of_long_count :
    (ofText 64 0 0 (letterGroup .square '*' (.ones true 4301))).result ≠
        .error (.number .tooLarge) ∧
      ∀ items, (ofText 64 0 0 (letterGroup .square '*' (.ones true 4301))).result ≠ .ok items := by
  have hoperator : ('*', GroupField.repeats) ∈ Bracket.square.operators := by
    simp [Bracket.operators]
  have hformed := Numeral.wellFormed_ones true (by decide : 0 < 4301)
  have hlong := Numeral.isTooLong_ones true (by decide : digitLimit < 4301)
  have hfault : GroupModifier.fault? ⟨'*', .repeats, .ones true 4301⟩ = some (.tooLong _) :=
    GroupModifier.fault?_eq_some_iff.mpr (.inl ⟨hlong, rfl⟩)
  rw [result_letterGroup_of_fault?_eq_some (by decide) hoperator hformed hfault]
  exact ⟨by simp, by simp⟩

end Reading

end CyclePattern
