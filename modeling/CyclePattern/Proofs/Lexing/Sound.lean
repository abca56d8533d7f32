/-
# Words that name a sound

A word with a sound name at its front and modifiers after it can be cut into these in one way only,
and is read so: each modifier sets its own field, in whatever order they stand. A word that cannot
be cut so names a sound as a whole. Nothing is in between: no word keeps some of its modifiers and
drops others.
-/

import CyclePattern.Pattern.Word
import CyclePattern.Proofs.Lexing.Modifier
import CyclePattern.Proofs.Lexing.Split

namespace CyclePattern

open Text

/-- A modifier with its text. -/
abbrev ModifierText :=
  Modifier × List Char

namespace Modifiers

variable {ms more : Modifiers} {m : Modifier} {parts others : List ModifierText}

/-- Whether the modifier is among those that are set. -/
def Sets (ms : Modifiers) : Modifier → Prop
  | .sample n => ms.sample = some n
  | .repeats n => ms.repeats = some n
  | .copies n => ms.copies = some n
  | .weight x => ms.weight = some x
  | .division x => ms.division = some x
  | .ratio x => ms.ratio = some x
  | .probability x => ms.probability = some x
  | .euclid rhythm => ms.euclid = some rhythm

theorem not_sets_none (m : Modifier) : ¬ none.Sets m := by
  cases m <;> simp [Sets, none]

/-- A modifier is refused when one with its operator is set. -/
theorem add?_eq_none_iff :
    ms.add? m = .none ↔ ∃ old, ms.Sets old ∧ old.operator = m.operator := by
  constructor
  · intro hnone
    cases m
    all_goals
      simp only [add?, ite_eq_left_iff, reduceCtorEq, imp_false, not_not,
        Option.isSome_iff_exists] at hnone
      obtain ⟨value, hvalue⟩ := hnone
    · exact ⟨.sample value, hvalue, rfl⟩
    · exact ⟨.repeats value, hvalue, rfl⟩
    · exact ⟨.copies value, hvalue, rfl⟩
    · exact ⟨.weight value, hvalue, rfl⟩
    · exact ⟨.division value, hvalue, rfl⟩
    · exact ⟨.ratio value, hvalue, rfl⟩
    · exact ⟨.probability value, hvalue, rfl⟩
    · exact ⟨.euclid value, hvalue, rfl⟩
  · rintro ⟨old, hold, hoperator⟩
    cases m <;> cases old <;> simp_all [Modifier.operator, Sets, add?]

/-- A modifier that is added sets its own field and leaves the others. -/
theorem sets_of_add? (hadd : ms.add? m = some more) (other : Modifier) :
    more.Sets other ↔ other = m ∨ ms.Sets other := by
  cases m
  all_goals
    simp only [add?, Option.ite_none_left_eq_some, Option.some.injEq, Bool.not_eq_true,
      Option.isSome_eq_false_iff, Option.isNone_iff_eq_none] at hadd
    obtain ⟨hfree, rfl⟩ := hadd
    cases other <;> simp [Sets, hfree, eq_comm]

/-- The characters of some modifiers that stand together. -/
def textOf (parts : List ModifierText) : List Char :=
  parts.flatMap (·.2)

/-- Every modifier is written as its text is. -/
def AreWritten (parts : List ModifierText) : Prop :=
  ∀ part ∈ parts, part.1.Written part.2

/-- The operators of some modifiers. -/
def operators (parts : List ModifierText) : List Char :=
  parts.map (·.1.operator)

theorem beforeModifier_textOf (hparts : AreWritten parts) : BeforeModifier (textOf parts) := by
  cases parts with
  | nil => exact beforeModifier_nil
  | cons part parts =>
      obtain ⟨tail, htext⟩ := (hparts part (by simp)).exists_eq_cons
      rw [textOf, List.flatMap_cons, htext]
      exact beforeModifier_cons part.1.operator_mem _

/-- Modifiers are told apart by their text. -/
theorem eq_of_textOf_eq (hparts : AreWritten parts) (hothers : AreWritten others)
    (htext : textOf parts = textOf others) : parts = others := by
  induction parts generalizing others with
  | nil =>
      cases others with
      | nil => rfl
      | cons other others =>
          obtain ⟨tail, htail⟩ := (hothers other (by simp)).exists_eq_cons
          simp [textOf, htail] at htext
  | cons part parts ih =>
      cases others with
      | nil =>
          obtain ⟨tail, htail⟩ := (hparts part (by simp)).exists_eq_cons
          simp [textOf, htail] at htext
      | cons other others =>
          obtain ⟨hpart, hparts⟩ := List.forall_mem_cons.mp hparts
          obtain ⟨hother, hothers⟩ := List.forall_mem_cons.mp hothers
          have hread := Modifier.read?_append hpart (beforeModifier_textOf hparts)
          have hreadOther := Modifier.read?_append hother (beforeModifier_textOf hothers)
          change part.2 ++ textOf parts = other.2 ++ textOf others at htext
          rw [htext, hreadOther] at hread
          simp only [Option.some.injEq, Prod.mk.injEq] at hread
          obtain ⟨hmodifier, hrest⟩ := hread
          rw [hrest] at htext
          have hfirst : part = other := Prod.ext hmodifier.symm (List.append_cancel_right htext)
          rw [hfirst, ih hparts hothers hrest.symm]

theorem read?_of_modifier {next : Modifiers} {cs rest : List Char}
    (hmodifier : Modifier.read? cs = some (m, rest)) (hadd : ms.add? m = some next) :
    ms.read? cs = next.read? rest := by
  have hne : ¬ cs.isEmpty = true := by
    intro hempty
    rw [List.isEmpty_iff.mp hempty] at hmodifier
    cases hmodifier
  rw [read?, if_neg hne]
  split
  · next hnone =>
      rw [hmodifier] at hnone
      cases hnone
  · next other after hother =>
      rw [hmodifier] at hother
      cases hother
      rw [hadd]

/-- Modifiers that can be added to those that are set: no two of them have the same operator, and
none has that of one that is set. -/
structure Fresh (ms : Modifiers) (parts : List ModifierText) : Prop where
  nodup : (operators parts).Nodup
  free : ∀ old, ms.Sets old → old.operator ∉ operators parts

theorem fresh_nil (ms : Modifiers) : ms.Fresh [] :=
  ⟨List.nodup_nil, fun _ _ => List.not_mem_nil⟩

theorem fresh_none_iff : none.Fresh parts ↔ (operators parts).Nodup :=
  ⟨Fresh.nodup, fun hnodup => ⟨hnodup, fun old hold => absurd hold (not_sets_none old)⟩⟩

/-- The first of some modifiers is added before the others. -/
theorem fresh_cons_iff {part : ModifierText} :
    ms.Fresh (part :: parts) ↔ ∃ next, ms.add? part.1 = some next ∧ next.Fresh parts := by
  constructor
  · rintro ⟨hnodup, hfree⟩
    obtain ⟨hother, hnodup⟩ := List.nodup_cons.mp hnodup
    obtain ⟨next, hadd⟩ : ∃ next, ms.add? part.1 = some next := by
      rw [← Option.ne_none_iff_exists']
      intro hnone
      obtain ⟨old, hold, hoperator⟩ := add?_eq_none_iff.mp hnone
      exact hfree old hold (by simp [operators, hoperator])
    refine ⟨next, hadd, hnodup, ?_⟩
    intro old hold hmem
    rcases (sets_of_add? hadd old).mp hold with rfl | hbefore
    · exact hother hmem
    · exact hfree old hbefore (List.mem_cons_of_mem _ hmem)
  · rintro ⟨next, hadd, hnodup, hfree⟩
    have hsets := sets_of_add? hadd
    refine ⟨List.nodup_cons.mpr ⟨hfree part.1 ((hsets part.1).mpr (.inl rfl)), hnodup⟩, ?_⟩
    intro old hold hmem
    rcases List.mem_cons.mp hmem with hoperator | hmem
    · have hnone := add?_eq_none_iff.mpr ⟨old, hold, hoperator⟩
      rw [hadd] at hnone
      cases hnone
    · exact hfree old ((hsets old).mpr (.inr hold)) hmem

/-- Modifiers that can be added are all set. -/
theorem read?_textOf (hparts : AreWritten parts) (hfresh : ms.Fresh parts) :
    ∃ more, ms.read? (textOf parts) = some more ∧
      ∀ other, more.Sets other ↔ other ∈ parts.map (·.1) ∨ ms.Sets other := by
  induction parts generalizing ms with
  | nil =>
      refine ⟨ms, ?_, by simp⟩
      rw [read?]
      rfl
  | cons part parts ih =>
      obtain ⟨hpart, hparts⟩ := List.forall_mem_cons.mp hparts
      obtain ⟨next, hadd, hfresh⟩ := fresh_cons_iff.mp hfresh
      obtain ⟨more, hread, hmore⟩ := ih hparts hfresh
      refine ⟨more, ?_, ?_⟩
      · rw [← hread]
        exact read?_of_modifier
          (Modifier.read?_append hpart (beforeModifier_textOf hparts)) hadd
      · intro other
        rw [hmore, sets_of_add? hadd, List.map_cons, List.mem_cons, or_left_comm, or_assoc]

theorem exists_textOf_of_read? {cs : List Char} (hread : ms.read? cs = some more) :
    ∃ parts, AreWritten parts ∧ ms.Fresh parts ∧ textOf parts = cs := by
  fun_induction Modifiers.read? ms cs with
  | case1 ms cs hempty =>
      exact ⟨[], by simp [AreWritten], ms.fresh_nil, (List.isEmpty_iff.mp hempty).symm⟩
  | case2 ms cs hempty hnone => cases hread
  | case3 ms cs hempty m rest hmodifier hnone => cases hread
  | case4 ms cs hempty m rest hmodifier next hadd ih =>
      obtain ⟨parts, hparts, hfresh, rfl⟩ := ih hread
      obtain ⟨text, htext, rfl⟩ := Modifier.written_of_read? hmodifier
      exact ⟨(m, text) :: parts, List.forall_mem_cons.mpr ⟨htext, hparts⟩,
        fresh_cons_iff.mpr ⟨next, hadd, hfresh⟩, rfl⟩

end Modifiers

/-- A character of a sound name when `after` follows it in the name. -/
def IsSoundCharacter (c : Char) (after : List Char) : Prop :=
  c.isAlphanum = true ∨ c ∈ soundPunctuation ∨ (c = '.' ∧ StartsWithDigit after)

/-- A run of characters of a sound name. -/
def IsSoundRun (name : List Char) : Prop :=
  ∀ front c back, name = front ++ c :: back → IsSoundCharacter c back

theorem startsSoundName_iff (c : Char) (after : List Char) :
    startsSoundName (c :: after) = true ↔ IsSoundCharacter c after := by
  by_cases hdot : c = '.'
  · subst hdot
    rw [startsSoundName, Bool.or_eq_true, Bool.or_eq_true, isDecimalDot_iff]
    simp [IsSoundCharacter]
  · simp [startsSoundName, isDecimalDot, IsSoundCharacter, hdot]

theorem not_isSoundCharacter_of_operator {c : Char} (hc : c ∈ modifierOperators)
    (after : List Char) : ¬ IsSoundCharacter c after := by
  have hplain : c.isAlphanum = false ∧ c ∉ soundPunctuation ∧ c ≠ '.' := by
    simp only [modifierOperators, List.mem_cons, List.not_mem_nil, or_false] at hc
    rcases hc with rfl | rfl | rfl | rfl | rfl | rfl | rfl | rfl <;> decide
  rintro (halpha | hpunctuation | ⟨hdot, -⟩)
  · rw [hplain.1] at halpha
    cases halpha
  · exact hplain.2.1 hpunctuation
  · exact hplain.2.2 hdot

theorem isSoundRun_nil : IsSoundRun [] := by
  intro front c back hsplit
  simp at hsplit

theorem isSoundRun_cons_iff {c : Char} {name : List Char} :
    IsSoundRun (c :: name) ↔ IsSoundCharacter c name ∧ IsSoundRun name := by
  constructor
  · intro hrun
    refine ⟨hrun [] c name rfl, ?_⟩
    intro front d back hsplit
    exact hrun (c :: front) d back (by rw [hsplit, List.cons_append])
  · rintro ⟨hc, hrun⟩ front d back hsplit
    cases front with
    | nil =>
        cases hsplit
        exact hc
    | cons e front =>
        cases hsplit
        exact hrun front d back rfl

/-- Before a modifier a run of characters of a sound name is taken as a whole. -/
theorem spanSoundName_append {name rest : List Char} (hname : IsSoundRun name)
    (hrest : BeforeModifier rest) : spanSoundName (name ++ rest) = (name, rest) := by
  induction name with
  | nil =>
      cases rest with
      | nil => rfl
      | cons c rest =>
          rw [List.nil_append, spanSoundName, if_neg]
          rw [startsSoundName_iff]
          exact not_isSoundCharacter_of_operator (hrest c rest rfl) rest
  | cons c name ih =>
      obtain ⟨hc, hname⟩ := isSoundRun_cons_iff.mp hname
      have hstarts : IsSoundCharacter c (name ++ rest) := by
        rcases hc with halpha | hpunctuation | ⟨rfl, d, back, rfl, hdigit⟩
        · exact .inl halpha
        · exact .inr (.inl hpunctuation)
        · exact .inr (.inr ⟨rfl, d, back ++ rest, rfl, hdigit⟩)
      rw [List.cons_append, spanSoundName, if_pos ((startsSoundName_iff c _).mpr hstarts),
        ih hname]

/-- What is taken is a run of characters of a sound name by itself: a digit after a dot is taken
with the dot. -/
theorem isSoundRun_of_spanSoundName {cs name rest : List Char}
    (hspan : spanSoundName cs = (name, rest)) : IsSoundRun name ∧ cs = name ++ rest := by
  induction cs generalizing name rest with
  | nil =>
      cases hspan
      exact ⟨isSoundRun_nil, rfl⟩
  | cons c cs ih =>
      rw [spanSoundName] at hspan
      split at hspan
      · next hstarts =>
          rw [startsSoundName_iff] at hstarts
          cases hspan
          obtain ⟨hrun, hsplit⟩ := ih rfl
          refine ⟨isSoundRun_cons_iff.mpr ⟨?_, hrun⟩, ?_⟩
          · rcases hstarts with halpha | hpunctuation | ⟨rfl, d, back, rfl, hdigit⟩
            · exact .inl halpha
            · exact .inr (.inl hpunctuation)
            · have hnext : startsSoundName (d :: back) = true := by
                rw [startsSoundName_iff]
                left
                simp only [Char.isAlphanum, Char.isDigit, Bool.or_eq_true, Bool.and_eq_true,
                  decide_eq_true_eq]
                exact .inr hdigit
              rw [spanSoundName, if_pos hnext]
              exact .inr (.inr ⟨rfl, d, _, rfl, hdigit⟩)
          · rw [List.cons_append, ← hsplit]
      · cases hspan
        exact ⟨isSoundRun_nil, rfl⟩

/-- A sound name with modifiers. -/
@[ext]
structure Cut where
  name : List Char
  parts : List ModifierText

/-- Whether the word consists of the sound name and the modifiers, no two of them with the same
operator. -/
structure Cut.IsOf (cut : Cut) (word : List Char) : Prop where
  ne_nil : cut.name ≠ []
  name : IsSoundRun cut.name
  written : Modifiers.AreWritten cut.parts
  nodup : (Modifiers.operators cut.parts).Nodup
  text : word = cut.name ++ Modifiers.textOf cut.parts

/-- A sound with the fields that some modifiers set, and no others. -/
structure Atom.HasModifiers (sound : Atom Float) (ms : List Modifier) : Prop where
  sample : ∀ n, sound.sample = some n ↔ .sample n ∈ ms
  repeats : ∀ n, sound.repeats = some n ↔ .repeats n ∈ ms
  copies : ∀ n, sound.copies = some n ↔ .copies n ∈ ms
  weight : ∀ x, .weight x ∈ ms → sound.weight = x
  weight_default : (∀ x, .weight x ∉ ms) → sound.weight = Measure.one
  division : ∀ x, sound.division = some x ↔ .division x ∈ ms
  ratio : ∀ x, sound.ratio = some x ↔ .ratio x ∈ ms
  probability : ∀ x, sound.probability = some x ↔ .probability x ∈ ms
  euclid : ∀ rhythm, sound.euclid = some rhythm ↔ .euclid rhythm ∈ ms
  controls : sound.controls = []

/-- Whether a bar of the word is outside its parentheses. -/
def BarOutside (word : List Char) : Prop :=
  ∃ front back, word = front ++ '|' :: back ∧ front.foldl openAfterChar 0 = 0

/-- A word without a bar outside its parentheses is not split. -/
theorem splitTexts_of_no_bar {word : List Char} {depth : Nat}
    (hbar : ∀ front back, word = front ++ '|' :: back → front.foldl openAfterChar depth ≠ 0) :
    splitTexts '|' depth word = [word] := by
  induction word generalizing depth with
  | nil => rfl
  | cons c rest ih =>
      have hplain : ¬ (c = '|' ∧ depth = 0) := by
        rintro ⟨rfl, rfl⟩
        exact hbar [] rest rfl rfl
      have hrest : splitTexts '|' (openAfterChar depth c) rest = [rest] := by
        apply ih
        intro front back hsplit
        exact hbar (c :: front) back (by rw [hsplit, List.cons_append])
      rw [splitTexts_cons (by decide), if_neg hplain, hrest, consFirst]

theorem splitTopLevel_of_no_bar {word : List Char} (hbar : ¬ BarOutside word) :
    splitTopLevel '|' word = [⟨word, 0⟩] := by
  rw [splitTopLevel, splitTexts_of_no_bar]
  · rfl
  · intro front back hsplit hzero
    exact hbar ⟨front, back, hsplit, hzero⟩

theorem Word.read_eq_sound {word : List Char} (hrest : word ≠ restMark)
    (helongation : word ≠ elongationMark) (hharmony : Harmony.ofWord? word = none)
    (hbar : ¬ BarOutside word) (start : Int) : read word start = sound word start := by
  rw [read, if_neg hrest, if_neg helongation]
  simp only [hharmony, splitTopLevel_of_no_bar hbar]

/-- A word is cut in one way at most: its name is all that is taken as one, and each modifier ends
where the next one starts. -/
theorem Cut.IsOf.unique {cut other : Cut} {word : List Char} (hcut : cut.IsOf word)
    (hother : other.IsOf word) : other = cut := by
  have hspan : ∀ {one : Cut}, one.IsOf word →
      spanSoundName word = (one.name, Modifiers.textOf one.parts) := by
    intro one hone
    rw [hone.text]
    exact spanSoundName_append hone.name (Modifiers.beforeModifier_textOf hone.written)
  have hsame := hspan hcut
  rw [hspan hother, Prod.mk.injEq] at hsame
  obtain ⟨hname, htext⟩ := hsame
  exact Cut.ext hname (Modifiers.eq_of_textOf_eq hother.written hcut.written htext)

theorem Word.sound?_of_isOf {cut : Cut} {word : List Char} (hcut : cut.IsOf word) :
    ∃ ms, sound? word = some (cut.name, ms) ∧
      ∀ m, ms.Sets m ↔ m ∈ cut.parts.map (·.1) := by
  obtain ⟨ms, hread, hsets⟩ :=
    Modifiers.read?_textOf hcut.written (Modifiers.fresh_none_iff.mpr hcut.nodup)
  have hspan := spanSoundName_append hcut.name (Modifiers.beforeModifier_textOf hcut.written)
  refine ⟨ms, ?_, ?_⟩
  · obtain ⟨c, name, hname⟩ := List.exists_cons_of_ne_nil hcut.ne_nil
    rw [hname] at hspan
    simp only [sound?, hcut.text, hname, hspan, hread, Option.map_some]
  · intro m
    rw [hsets]
    exact or_iff_left (Modifiers.not_sets_none m)

theorem Word.exists_isOf_of_sound? {word name : List Char} {ms : Modifiers}
    (hsound : sound? word = some (name, ms)) : ∃ cut : Cut, cut.IsOf word := by
  unfold sound? at hsound
  split at hsound
  · cases hsound
  next front rest hne hspan =>
    simp only [Option.map_eq_some_iff, Prod.mk.injEq] at hsound
    obtain ⟨_, hread, -, -⟩ := hsound
    obtain ⟨hrun, hword⟩ := isSoundRun_of_spanSoundName hspan
    obtain ⟨parts, hparts, hfresh, hrest⟩ := Modifiers.exists_textOf_of_read? hread
    exact ⟨⟨front, parts⟩, hne, hrun, hparts, hfresh.nodup, by rw [hrest, ← hword]⟩

theorem Word.sound?_eq_none {word : List Char} (hnone : ∀ cut : Cut, ¬ cut.IsOf word) :
    sound? word = none := by
  rw [Option.eq_none_iff_forall_ne_some]
  rintro ⟨name, ms⟩ hsome
  obtain ⟨cut, hcut⟩ := exists_isOf_of_sound? hsome
  exact hnone cut hcut

theorem Atom.hasModifiers_ofModifiers {ms : Modifiers} {given : List Modifier}
    (hgiven : ∀ m, ms.Sets m ↔ m ∈ given) (name : List Char) :
    (Atom.ofModifiers name ms []).HasModifiers given := by
  constructor
  case weight =>
    intro x hx
    have hweight : ms.weight = some x := (hgiven (.weight x)).mpr hx
    simp [ofModifiers, hweight]
  case weight_default =>
    intro hx
    have hweight : ms.weight = none := by
      rw [Option.eq_none_iff_forall_not_mem]
      intro x hmem
      exact hx x ((hgiven (.weight x)).mp hmem)
    simp [ofModifiers, hweight]
  case sample => exact fun n => hgiven (.sample n)
  case repeats => exact fun n => hgiven (.repeats n)
  case copies => exact fun n => hgiven (.copies n)
  case division => exact fun x => hgiven (.division x)
  case ratio => exact fun x => hgiven (.ratio x)
  case probability => exact fun x => hgiven (.probability x)
  case euclid => exact fun rhythm => hgiven (.euclid rhythm)
  case controls => rfl

/-- A sound whose name is not the word is not the word as a name. -/
theorem Word.atom_ne_literal {sound : Atom Float} {span : Span} {name word : List Char}
    (hname : sound.name = String.ofList name) (hne : name ≠ word) (start : Int) :
    Node.atom sound span ≠ (literal word start).value := by
  intro hliteral
  have hsame : sound.name = String.ofList word := congrArg Atom.name (Node.atom.inj hliteral).1
  exact hne (String.ofList_injective (hname.symm.trans hsame))

/-- A word without a bar that is neither a mark nor harmony is a sound. It keeps its name and all
of its modifiers if it can be cut into these, which is possible in at most one way; otherwise all of
it is the name. -/
theorem Word.read_keeps_all_or_none {word : List Char} (hrest : word ≠ restMark)
    (helongation : word ≠ elongationMark) (hharmony : Harmony.ofWord? word = none)
    (hbar : ¬ BarOutside word) (start : Int) :
    ∃ sound : Atom Float,
      (read word start).value = .atom sound (.between start (start + word.length)) ∧
      (∀ cut : Cut, cut.IsOf word → (∀ other : Cut, other.IsOf word → other = cut) ∧
        sound.name = String.ofList cut.name ∧ sound.HasModifiers (cut.parts.map (·.1))) ∧
      ((∀ cut : Cut, ¬ cut.IsOf word) →
        sound.name = String.ofList word ∧ sound.HasModifiers []) := by
  rw [read_eq_sound hrest helongation hharmony hbar]
  by_cases hexists : ∃ cut : Cut, cut.IsOf word
  · obtain ⟨cut, hcut⟩ := hexists
    obtain ⟨ms, hsound, hsets⟩ := sound?_of_isOf hcut
    refine ⟨.ofModifiers cut.name ms [], ?_, ?_, fun hnone => absurd hcut (hnone cut)⟩
    · rw [Word.sound, hsound]
      rfl
    · intro other hother
      obtain rfl := hcut.unique hother
      exact ⟨fun another => hother.unique, rfl, Atom.hasModifiers_ofModifiers hsets _⟩
  · have hnone : ∀ cut : Cut, ¬ cut.IsOf word := fun cut hcut => hexists ⟨cut, hcut⟩
    refine ⟨.ofModifiers word .none [], ?_, fun cut hcut => absurd hcut (hnone cut), ?_⟩
    · rw [Word.sound, sound?_eq_none hnone]
      rfl
    · intro _
      refine ⟨rfl, Atom.hasModifiers_ofModifiers ?_ word⟩
      intro m
      simp [Modifiers.not_sets_none]

end CyclePattern
