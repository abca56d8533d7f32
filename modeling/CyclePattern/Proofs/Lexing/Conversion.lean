/-
# Whole numbers that are converted

Some numbers of a word are converted to integers while it is read, and a number with too many digits
cannot be. Which numbers these are is told here by the text: the digits of a degree, and, after a
sound that the word goes on from, a count or the arguments of a rhythm. Factors and chances are
floats from the start. The first number that cannot be converted keeps the word from being read,
also where the word would have been kept as a name.

With this a word without a bar is settled: it cannot be read for the sake of such a number, or it is
a sound with all the modifiers that it shows, or a name with none.
-/

import CyclePattern.Proofs.Lexing.Sound

namespace CyclePattern

open Text

variable {word : List Char} {x : Numeral}

/-- A number without a fraction and with more digits than are converted. -/
structure Numeral.IsTooLong (x : Numeral) : Prop where
  whole : x.fraction = none
  long : digitLimit < x.whole.length

theorem Numeral.tooLong?_eq_some_iff {fault : NumberFault} :
    x.tooLong? = some fault ↔ x.IsTooLong ∧ fault = .tooLong x.whole.length := by
  rw [tooLong?, Option.ite_none_right_eq_some, Option.some.injEq, Bool.and_eq_true,
    decide_eq_true_eq, isWhole, Option.isNone_iff_eq_none, eq_comm (b := fault)]
  exact and_congr_left fun _ => ⟨fun h => ⟨h.1, h.2⟩, fun h => ⟨h.whole, h.long⟩⟩

theorem Numeral.tooLong?_eq_none_iff : x.tooLong? = none ↔ ¬ x.IsTooLong := by
  rw [← not_iff_not, not_not, ← ne_eq, Option.ne_none_iff_exists']
  constructor
  · rintro ⟨fault, hfault⟩
    exact (tooLong?_eq_some_iff.mp hfault).1
  · exact fun hlong => ⟨_, tooLong?_eq_some_iff.mpr ⟨hlong, rfl⟩⟩

/-- A number of ones, with or without a sign. -/
def Numeral.ones (negative : Bool) (count : Nat) : Numeral :=
  ⟨negative, List.replicate count '1', none⟩

theorem Numeral.wellFormed_ones (negative : Bool) {count : Nat} (hcount : 0 < count) :
    (ones negative count).WellFormed := by
  refine ⟨⟨by simpa [ones] using hcount.ne', ?_⟩, by rintro _ ⟨⟩⟩
  intro c hc
  rw [List.eq_of_mem_replicate hc]
  decide

theorem Numeral.length_whole_ones (negative : Bool) (count : Nat) :
    (ones negative count).whole.length = count :=
  List.length_replicate

theorem Numeral.isTooLong_ones (negative : Bool) {count : Nat} (hcount : digitLimit < count) :
    (ones negative count).IsTooLong :=
  ⟨rfl, by rwa [length_whole_ones]⟩

namespace Modifier

/-- Whether the number is converted where a modifier starts: as a count after its operator, or as an
argument of a rhythm. -/
inductive Converts : List Char → Numeral → Prop
  | count {c : Char} {x : Numeral} {rest : List Char} (hc : c ∈ [':', '*', '!'])
      (hwhole : x.fraction = none) (hlongest : x.Longest rest) :
      Converts (c :: (x.text ++ rest)) x
  | argument {pulses steps : Numeral} {rotation : Option Numeral} {cs : List Char} {x : Numeral}
      (harguments : AreArguments (pulses, steps, rotation) cs)
      (hx : x ∈ pulses :: steps :: rotation.toList) (rest : List Char) :
      Converts (cs ++ rest) x

/-- A count is not negative. -/
theorem readCount?_of_negative {least : Int} (hleast : 0 < least) (hx : x.WellFormed)
    (hnegative : x.negative = true) : readCount? least x.text = none := by
  have hvalue : x.wholeValue < least := by
    rw [Numeral.wholeValue, if_pos hnegative]
    omega
  simp only [readCount?, Numeral.read?_text hx, Numeral.toInt?]
  cases x.isWhole <;> simp [hvalue]

theorem mem_countWholes_iff {cs : List Char} :
    x ∈ countWholes cs ↔ ∃ rest, cs = x.text ++ rest ∧ x.fraction = none ∧ x.Longest rest := by
  rw [countWholes]
  cases hread : Numeral.read? cs with
  | none =>
      refine iff_of_false List.not_mem_nil ?_
      rintro ⟨rest, rfl, -, hlongest⟩
      exact Numeral.read?_eq_none_iff.mp hread x hlongest.wellFormed (List.prefix_append _ _)
  | some read =>
      obtain ⟨y, after⟩ := read
      obtain ⟨rfl, hlongest⟩ := Numeral.read?_eq_some_iff.mp hread
      have hmem : x ∈ (if y.isWhole = true then [y] else []) ↔ y.fraction = none ∧ x = y := by
        cases hfraction : y.fraction <;> simp [Numeral.isWhole, hfraction]
      simp only [hmem]
      constructor
      · rintro ⟨hwhole, rfl⟩
        exact ⟨after, rfl, hwhole, hlongest⟩
      · rintro ⟨rest, hsplit, hwhole, hother⟩
        have hsame := Numeral.read?_eq_some_iff.mpr ⟨hsplit, hother⟩
        rw [hread] at hsame
        cases hsame
        exact ⟨hwhole, rfl⟩

theorem mem_euclidWholes_iff {cs : List Char} :
    x ∈ euclidWholes cs ↔ ∃ pulses steps rotation ds rest,
      AreArguments (pulses, steps, rotation) ds ∧ x ∈ pulses :: steps :: rotation.toList ∧
        cs = ds ++ rest := by
  rw [euclidWholes]
  constructor
  · intro hx
    split at hx
    · next pulses steps rotation rest hread =>
        obtain ⟨ds, hds, hsplit⟩ := areArguments_of_readArguments? hread
        exact ⟨pulses, steps, rotation, ds, rest, hds, hx, hsplit⟩
    · cases hx
  · rintro ⟨pulses, steps, rotation, ds, rest, hds, hx, rfl⟩
    rw [readArguments?_append hds]
    exact hx

/-- The numbers that a reader of modifiers converts first are those that the text shows. -/
theorem mem_wholes_iff {cs : List Char} : x ∈ wholes cs ↔ Converts cs x := by
  constructor
  · intro hx
    unfold wholes at hx
    split at hx
    case h_4 =>
      obtain ⟨pulses, steps, rotation, ds, rest, hds, hx, hsplit⟩ := mem_euclidWholes_iff.mp hx
      exact hsplit ▸ .argument hds hx rest
    case h_5 => cases hx
    all_goals
      obtain ⟨rest, rfl, hwhole, hlongest⟩ := mem_countWholes_iff.mp hx
      exact .count (by simp) hwhole hlongest
  · intro hx
    cases hx with
    | @count c x rest hc hwhole hlongest =>
        have hcount := mem_countWholes_iff.mpr ⟨rest, rfl, hwhole, hlongest⟩
        simp only [List.mem_cons, List.not_mem_nil, or_false] at hc
        rcases hc with rfl | rfl | rfl <;> exact hcount
    | @argument pulses steps rotation cs x harguments hx rest =>
        have hrhythm := mem_euclidWholes_iff.mpr ⟨_, _, _, _, rest, harguments, hx, rfl⟩
        obtain ⟨tail, rfl⟩ : ∃ tail, cs = '(' :: tail := by
          cases harguments <;> exact ⟨_, rfl⟩
        exact hrhythm

theorem Converts.exists_eq_cons {cs : List Char} (hx : Converts cs x) :
    ∃ c rest, cs = c :: rest ∧ c ∈ modifierOperators := by
  cases hx with
  | count hc _ _ =>
      refine ⟨_, _, rfl, ?_⟩
      simp only [List.mem_cons, List.not_mem_nil, or_false] at hc
      rcases hc with rfl | rfl | rfl <;> decide
  | argument harguments _ rest => cases harguments <;> exact ⟨_, _, rfl, by decide⟩

theorem Converts.beforeModifier {cs : List Char} (hx : Converts cs x) : BeforeModifier cs := by
  obtain ⟨c, rest, rfl, hc⟩ := hx.exists_eq_cons
  exact beforeModifier_cons hc rest

/-- A number that is converted is a number of the text, and has no fraction. -/
theorem Converts.wellFormed {cs : List Char} (hx : Converts cs x) :
    x.WellFormed ∧ x.fraction = none ∧ x.text <:+: cs := by
  cases hx with
  | @count c _ rest _ hwhole hlongest =>
      exact ⟨hlongest.wellFormed, hwhole, [c], rest, by simp⟩
  | @argument pulses steps rotation cs _ harguments hx rest =>
      have hpiece : ∀ {y : Numeral} {ds : List Char}, IsArgument y ds → y.text <:+: ds := by
        intro y ds hy
        obtain ⟨before, after, -, -, rfl⟩ := hy.blanks
        exact ⟨before, after, by rw [List.append_assoc]⟩
      have hmember : ∃ ds, IsArgument x ds ∧ ds <:+: cs := by
        cases harguments with
        | @two _ _ cs ds hfirst hsecond =>
            simp only [Option.toList_none, List.mem_cons, List.not_mem_nil, or_false] at hx
            rcases hx with rfl | rfl
            · exact ⟨cs, hfirst, ['('], ',' :: (ds ++ [')']), by simp⟩
            · exact ⟨ds, hsecond, '(' :: (cs ++ [',']), [')'], by simp⟩
        | @three _ _ _ cs ds es hfirst hsecond hthird =>
            simp only [Option.toList_some, List.mem_cons, List.not_mem_nil, or_false] at hx
            rcases hx with rfl | rfl | rfl
            · exact ⟨cs, hfirst, ['('], ',' :: (ds ++ ',' :: (es ++ [')'])), by simp⟩
            · exact ⟨ds, hsecond, '(' :: (cs ++ [',']), ',' :: (es ++ [')']), by simp⟩
            · exact ⟨es, hthird, '(' :: (cs ++ ',' :: (ds ++ [','])), [')'], by simp⟩
      obtain ⟨ds, hargument, hinside⟩ := hmember
      exact ⟨hargument.wellFormed, hargument.whole, (hpiece hargument).trans
        (hinside.trans (List.prefix_append cs rest).isInfix)⟩

end Modifier

namespace Modifiers

variable {ms next : Modifiers} {m : Modifier} {cs rest : List Char}

theorem mem_wholes_of_mem (hx : x ∈ Modifier.wholes cs) : x ∈ ms.wholes cs := by
  obtain ⟨c, tail, rfl, -⟩ := (Modifier.mem_wholes_iff.mp hx).exists_eq_cons
  rw [wholes, if_neg (by simp)]
  exact List.mem_append_left _ hx

theorem wholes_of_modifier (hmodifier : Modifier.read? cs = some (m, rest))
    (hadd : ms.add? m = some next) :
    ms.wholes cs = Modifier.wholes cs ++ next.wholes rest := by
  have hne : ¬ cs.isEmpty = true := by
    intro hempty
    rw [List.isEmpty_iff.mp hempty] at hmodifier
    cases hmodifier
  rw [wholes, if_neg hne]
  congr 1
  split
  · next hnone =>
      rw [hmodifier] at hnone
      cases hnone
  · next other after hother =>
      rw [hmodifier] at hother
      cases hother
      rw [hadd]

theorem beforeModifier_append {parts : List ModifierText} (hparts : AreWritten parts)
    (hrest : BeforeModifier rest) : BeforeModifier (textOf parts ++ rest) := by
  cases parts with
  | nil => exact hrest
  | cons part parts =>
      obtain ⟨tail, htail⟩ := (hparts part (by simp)).exists_eq_cons
      rw [textOf, List.flatMap_cons, htail]
      exact beforeModifier_cons part.1.operator_mem _

theorem read?_nil (ms : Modifiers) : ms.read? [] = some ms := by
  rw [read?]
  rfl

/-- A text that is read as one modifier, or as none, is read so as modifiers too. -/
theorem read?_single {cs : List Char} {found : Option Modifier} (hcs : cs ≠ [])
    (hfound : Modifier.read? cs = found.map fun m => (m, [])) :
    none.read? cs = found.bind none.add? := by
  rw [read?, if_neg (by simpa using hcs)]
  split
  · next hread =>
      rw [hread, eq_comm, Option.map_eq_none_iff] at hfound
      rw [hfound]
      rfl
  · next m rest hread =>
      rw [hread, eq_comm, Option.map_eq_some_iff] at hfound
      obtain ⟨m, rfl, hsame⟩ := hfound
      cases hsame
      rw [Option.bind_some]
      cases none.add? m with
      | none => rfl
      | some more => exact read?_nil more

/-- Where one modifier is read to the end of the text, or none is, nothing is converted but what
belongs to it. -/
theorem wholes_single {found : Option Modifier} (hcs : cs ≠ [])
    (hfound : Modifier.read? cs = found.map fun m => (m, [])) :
    ms.wholes cs = Modifier.wholes cs := by
  rw [wholes, if_neg (by simpa using hcs)]
  split
  · exact List.append_nil _
  · next m rest hread =>
      rw [hread, eq_comm, Option.map_eq_some_iff] at hfound
      obtain ⟨m, -, hsame⟩ := hfound
      cases hsame
      cases ms.add? m with
      | none => exact List.append_nil _
      | some more =>
          have hend : more.wholes [] = [] := by
            rw [wholes]
            rfl
          simp only [hend, List.append_nil]

/-- A number is converted where a modifier starts after those that have been read. -/
theorem mem_wholes_iff :
    x ∈ ms.wholes cs ↔ ∃ parts rest, AreWritten parts ∧ ms.Fresh parts ∧
      cs = textOf parts ++ rest ∧ Modifier.Converts rest x := by
  constructor
  · intro hx
    fun_induction wholes ms cs with
    | case1 ms cs hempty => cases hx
    | case2 ms cs hempty ih =>
        rcases List.mem_append.mp hx with hx | hx
        · exact ⟨[], cs, by simp [AreWritten], ms.fresh_nil, rfl, Modifier.mem_wholes_iff.mp hx⟩
        split at hx
        · cases hx
        next m rest hmodifier =>
          split at hx
          · cases hx
          next next hadd =>
            obtain ⟨parts, last, hparts, hfresh, rfl, hconverts⟩ := ih m rest hmodifier next hx
            obtain ⟨text, htext, rfl⟩ := Modifier.written_of_read? hmodifier
            exact ⟨(m, text) :: parts, last, List.forall_mem_cons.mpr ⟨htext, hparts⟩,
              fresh_cons_iff.mpr ⟨next, hadd, hfresh⟩, by simp [textOf], hconverts⟩
  · rintro ⟨parts, rest, hparts, hfresh, rfl, hconverts⟩
    induction parts generalizing ms with
    | nil => exact mem_wholes_of_mem (Modifier.mem_wholes_iff.mpr hconverts)
    | cons part parts ih =>
        obtain ⟨hpart, hparts⟩ := List.forall_mem_cons.mp hparts
        obtain ⟨next, hadd, hfresh⟩ := fresh_cons_iff.mp hfresh
        have hbefore := beforeModifier_append hparts hconverts.beforeModifier
        have hmodifier := Modifier.read?_append hpart hbefore
        have htext : textOf (part :: parts) ++ rest = part.2 ++ (textOf parts ++ rest) := by
          simp [textOf]
        rw [htext, wholes_of_modifier hmodifier hadd]
        exact List.mem_append_right _ (ih hparts hfresh)

end Modifiers

namespace Word

/-- Whether the number is converted while the word is read as a sound: the word goes on with it
after a sound. -/
def SoundConverts (word : List Char) (x : Numeral) : Prop :=
  ∃ (cut : Cut) (front rest : List Char),
    cut.IsOf front ∧ word = front ++ rest ∧ Modifier.Converts rest x

/-- Whether the number is converted while a word without a bar is read: it is a degree, or a number
of a sound. -/
inductive Converts (word : List Char) : Numeral → Prop
  | degree {accidental digits : List Char}
      (haccidental : accidental = [] ∨ accidental = ['b'] ∨ accidental = ['#'])
      (hdigits : Numeral.IsDigits digits) (hword : word = '^' :: (accidental ++ digits)) :
      Converts word ⟨false, digits, none⟩
  | sound {x : Numeral} (hx : SoundConverts word x) : Converts word x

theorem mem_soundWholes_iff : x ∈ soundWholes word ↔ SoundConverts word x := by
  rw [soundWholes]
  constructor
  · intro hx
    split at hx
    · cases hx
    · next name rest hne hspan =>
        obtain ⟨hrun, rfl⟩ := isSoundRun_of_spanSoundName hspan
        obtain ⟨parts, last, hparts, hfresh, rfl, hconverts⟩ := Modifiers.mem_wholes_iff.mp hx
        refine ⟨⟨name, parts⟩, name ++ Modifiers.textOf parts, last, ?_, ?_, hconverts⟩
        · exact ⟨hne, hrun, hparts, hfresh.nodup, rfl⟩
        · rw [List.append_assoc]
  · rintro ⟨⟨name, parts⟩, front, rest, ⟨hne, hrun, hparts, hnodup, rfl⟩, rfl, hconverts⟩
    have hbefore := Modifiers.beforeModifier_append hparts hconverts.beforeModifier
    have hspan := spanSoundName_append hrun hbefore
    obtain ⟨c, tail, rfl⟩ := List.exists_cons_of_ne_nil hne
    rw [List.append_assoc, hspan]
    exact Modifiers.mem_wholes_iff.mpr
      ⟨parts, rest, hparts, Modifiers.fresh_none_iff.mpr hnodup, rfl, hconverts⟩

theorem mem_degreeWholes_iff {digits : List Char} :
    x ∈ Harmony.degreeWholes digits ↔ Numeral.IsDigits digits ∧ x = ⟨false, digits, none⟩ := by
  have hshape : (digits ≠ [] ∧ digits.all isDecimal = true) ↔ Numeral.IsDigits digits := by
    rw [Numeral.IsDigits, List.all_eq_true]
  by_cases hdigits : Numeral.IsDigits digits
  · rw [Harmony.degreeWholes, if_pos (hshape.mpr hdigits)]
    simp [hdigits]
  · rw [Harmony.degreeWholes, if_neg (mt hshape.mp hdigits)]
    simp [hdigits]

theorem mem_harmonyWholes_iff :
    x ∈ Harmony.wholes word ↔ ∃ accidental digits,
      (accidental = [] ∨ accidental = ['b'] ∨ accidental = ['#']) ∧ Numeral.IsDigits digits ∧
        word = '^' :: (accidental ++ digits) ∧ x = ⟨false, digits, none⟩ := by
  constructor
  · intro hx
    unfold Harmony.wholes at hx
    split at hx
    · next c digits =>
        obtain ⟨hdigits, rfl⟩ := mem_degreeWholes_iff.mp hx
        by_cases hc : Harmony.isAccidental c = true
        · rw [if_pos hc] at hdigits ⊢
          refine ⟨[c], digits, ?_, hdigits, rfl, rfl⟩
          simpa [Harmony.isAccidental] using hc
        · rw [if_neg hc] at hdigits ⊢
          exact ⟨[], c :: digits, .inl rfl, hdigits, rfl, rfl⟩
    · cases hx
  · rintro ⟨accidental, digits, haccidental, hdigits, rfl, rfl⟩
    rcases haccidental with rfl | rfl | rfl
    · obtain ⟨c, rest, rfl⟩ := List.exists_cons_of_ne_nil hdigits.1
      have hc : ¬ Harmony.isAccidental c = true := by
        intro haccidental
        have hdecimal := hdigits.2 c (by simp)
        simp only [Harmony.isAccidental, Bool.or_eq_true, beq_iff_eq] at haccidental
        rcases haccidental with rfl | rfl <;> revert hdecimal <;> decide
      simp only [List.nil_append, Harmony.wholes, if_neg hc]
      exact mem_degreeWholes_iff.mpr ⟨hdigits, rfl⟩
    · exact mem_degreeWholes_iff.mpr ⟨hdigits, rfl⟩
    · exact mem_degreeWholes_iff.mpr ⟨hdigits, rfl⟩

/-- A word without a bar outside its parentheses that is no mark is converted as a whole. -/
theorem wholes_eq_plainWholes (hrest : word ≠ restMark) (helongation : word ≠ elongationMark)
    (hbar : ¬ BarOutside word) : wholes word = plainWholes word := by
  have hmark : ¬ (word = restMark ∨ word = elongationMark) := by simp [hrest, helongation]
  rw [wholes, splitTopLevel_of_no_bar hbar]
  exact if_neg hmark

/-- The numbers that are converted in a word that is no harmony. -/
theorem mem_plainWholes_iff (hharmony : Harmony.ofWord? word = none) :
    x ∈ plainWholes word ↔ Converts word x := by
  simp only [plainWholes, hharmony, List.mem_append, mem_harmonyWholes_iff, mem_soundWholes_iff]
  constructor
  · rintro (⟨accidental, digits, haccidental, hdigits, hword, rfl⟩ | hx)
    · exact .degree haccidental hdigits hword
    · exact .sound hx
  · intro hx
    cases hx with
    | degree haccidental hdigits hword => exact .inl ⟨_, _, haccidental, hdigits, hword, rfl⟩
    | sound hx => exact .inr hx

theorem isDigits_of_mem_soundWholes (hx : x ∈ soundWholes word) :
    Numeral.IsDigits x.whole ∧ x.whole <:+: word := by
  obtain ⟨-, front, rest, -, rfl, hconverts⟩ := mem_soundWholes_iff.mp hx
  obtain ⟨hformed, hwhole, hinside⟩ := hconverts.wellFormed
  rw [Numeral.text_of_fraction_eq_none hwhole] at hinside
  exact ⟨hformed.whole, (List.suffix_append _ _).isInfix.trans
    (hinside.trans (List.suffix_append _ _).isInfix)⟩

theorem isDigits_of_mem_optionWholes (hx : x ∈ optionWholes word) :
    Numeral.IsDigits x.whole ∧ x.whole <:+: word := by
  rw [optionWholes] at hx
  split at hx
  · cases hx
  rcases List.mem_append.mp hx with hx | hx
  · obtain ⟨accidental, digits, -, hdigits, rfl, rfl⟩ := mem_harmonyWholes_iff.mp hx
    exact ⟨hdigits, ((List.suffix_append accidental digits).trans (List.suffix_cons _ _)).isInfix⟩
  · split at hx
    · cases hx
    · exact isDigits_of_mem_soundWholes hx

theorem isInfix_of_mem_splitTopLevel {segment : Segment}
    (hsegment : segment ∈ splitTopLevel '|' word) : segment.text <:+: word := by
  rw [← slice_of_mem_splitTopLevel hsegment]
  exact (List.take_prefix _ _).isInfix.trans (List.drop_suffix _ _).isInfix

/-- Every number that is converted stands in the word with its digits. -/
theorem isDigits_of_mem_wholes (hx : x ∈ wholes word) :
    Numeral.IsDigits x.whole ∧ x.whole <:+: word := by
  rw [wholes] at hx
  split at hx
  · next head second rest hsegments =>
      rw [pipedWholes] at hx
      split at hx
      · obtain ⟨hdigits, hinside⟩ := isDigits_of_mem_soundWholes hx
        exact ⟨hdigits, hinside.trans (isInfix_of_mem_splitTopLevel (by simp [hsegments]))⟩
      · obtain ⟨segment, hsegment, hx⟩ := List.mem_flatMap.mp hx
        obtain ⟨hdigits, hinside⟩ := isDigits_of_mem_optionWholes hx
        refine ⟨hdigits, hinside.trans (isInfix_of_mem_splitTopLevel ?_)⟩
        rw [hsegments]
        exact List.mem_of_mem_filter hsegment
  · exact isDigits_of_mem_optionWholes hx

/-- The fault of a word is that of a number in it with too many digits. -/
theorem exists_isTooLong_of_fault? {fault : NumberFault} (hfault : fault? word = some fault) :
    ∃ x ∈ wholes word, x.IsTooLong ∧ fault = .tooLong x.whole.length := by
  obtain ⟨x, hx, hlong⟩ := List.exists_of_findSome?_eq_some hfault
  exact ⟨x, hx, Numeral.tooLong?_eq_some_iff.mp hlong⟩

theorem fault?_eq_none_iff : fault? word = none ↔ ∀ x ∈ wholes word, ¬ x.IsTooLong := by
  simp only [fault?, List.findSome?_eq_none_iff, Numeral.tooLong?_eq_none_iff]

/-- A word of few characters has no number that is too long. -/
theorem fault?_eq_none_of_length_le (hword : word.length ≤ digitLimit) : fault? word = none := by
  rw [fault?_eq_none_iff]
  intro x hx hlong
  have hlength := (isDigits_of_mem_wholes hx).2.length_le
  have hmany := hlong.long
  omega

theorem node_of_fault?_eq_none (hfault : fault? word = none) (start : Int) :
    node word start = .ok (read word start) := by
  rw [node, hfault]

theorem node_of_fault?_eq_some {fault : NumberFault} (hfault : fault? word = some fault)
    (start : Int) : node word start = .error fault := by
  rw [node, hfault]

theorem node_of_length_le (hword : word.length ≤ digitLimit) (start : Int) :
    node word start = .ok (read word start) :=
  node_of_fault?_eq_none (fault?_eq_none_of_length_le hword) start

theorem node_eq_error_iff {fault : NumberFault} {start : Int} :
    node word start = .error fault ↔ fault? word = some fault := by
  rw [node]
  cases fault? word <;> simp

theorem node_eq_ok_iff {start : Int} {found : Noted (Node Float)} :
    node word start = .ok found ↔ fault? word = none ∧ read word start = found := by
  rw [node]
  cases fault? word <;> simp

/-- A word cannot be read just where one of the numbers is too long, and the fault is that of such a
number. -/
structure FailsOn (word : List Char) (start : Int) (Converted : Numeral → Prop) : Prop where
  fails : ∀ {x : Numeral}, Converted x → x.IsTooLong → ∃ fault, node word start = .error fault
  names : ∀ {fault : NumberFault}, node word start = .error fault →
    ∃ x, Converted x ∧ x.IsTooLong ∧ fault = .tooLong x.whole.length

theorem failsOn_of_mem_wholes_iff {Converted : Numeral → Prop}
    (hwholes : ∀ x, x ∈ wholes word ↔ Converted x) (start : Int) :
    FailsOn word start Converted where
  fails := by
    intro x hx hlong
    cases hfault : fault? word with
    | none => exact absurd hlong (fault?_eq_none_iff.mp hfault x ((hwholes x).mpr hx))
    | some fault => exact ⟨fault, node_of_fault?_eq_some hfault start⟩
  names := by
    intro fault hnode
    obtain ⟨x, hx, hlong⟩ := exists_isTooLong_of_fault? (node_eq_error_iff.mp hnode)
    exact ⟨x, (hwholes x).mp hx, hlong⟩

theorem failsOn_converts (hrest : word ≠ restMark) (helongation : word ≠ elongationMark)
    (hharmony : Harmony.ofWord? word = none) (hbar : ¬ BarOutside word) (start : Int) :
    FailsOn word start (Converts word) := by
  apply failsOn_of_mem_wholes_iff
  intro x
  rw [wholes_eq_plainWholes hrest helongation hbar, mem_plainWholes_iff hharmony]

/-- A word without a bar that is neither a mark nor harmony cannot be read just where a number in it
is too long to be converted. Otherwise it is a sound. It keeps its name and all of its modifiers if
it can be cut into these, which is possible in at most one way; otherwise all of it is the name. -/
theorem node_keeps_all_or_none (hrest : word ≠ restMark) (helongation : word ≠ elongationMark)
    (hharmony : Harmony.ofWord? word = none) (hbar : ¬ BarOutside word) (start : Int) :
    FailsOn word start (Converts word) ∧
    ∀ found, node word start = .ok found → ∃ sound : Atom Float,
      found.value = .atom sound (.between start (start + word.length)) ∧
      (∀ cut : Cut, cut.IsOf word → (∀ other : Cut, other.IsOf word → other = cut) ∧
        sound.name = String.ofList cut.name ∧ sound.HasModifiers (cut.parts.map (·.1))) ∧
      ((∀ cut : Cut, ¬ cut.IsOf word) →
        sound.name = String.ofList word ∧ sound.HasModifiers []) := by
  refine ⟨failsOn_converts hrest helongation hharmony hbar start, ?_⟩
  intro found hnode
  obtain ⟨-, rfl⟩ := node_eq_ok_iff.mp hnode
  exact read_keeps_all_or_none hrest helongation hharmony hbar start

theorem not_barOutside_of_not_mem (hbar : '|' ∉ word) : ¬ BarOutside word := by
  rintro ⟨front, back, rfl, -⟩
  exact hbar (by simp)

theorem node_keeps_all_of_two_modifiers :
    ∃ (found : Noted (Node Float)) (sound : Atom Float),
      node ['b', 'd', '?', '*', '2'] 4 = .ok found ∧ found.value = .atom sound (.between 4 9) ∧
      sound.name = "bd" ∧ sound.HasModifiers [.probability defaultProbability, .repeats 2] := by
  have hcut : Cut.IsOf ⟨['b', 'd'], [(.probability defaultProbability, ['?']),
      (.repeats 2, ['*', '2'])]⟩ ['b', 'd', '?', '*', '2'] := by
    have htwo : Numeral.WellFormed ⟨false, ['2'], none⟩ :=
      ⟨⟨by simp, by simp; decide⟩, by rintro _ ⟨⟩⟩
    constructor
    · simp
    · simp only [isSoundRun_cons_iff, isSoundRun_nil, and_true]
      exact ⟨.inl rfl, .inl rfl⟩
    · rintro part (_ | ⟨_, _ | ⟨_, ⟨⟩⟩⟩)
      · exact .evenChance
      · exact .repeats htwo rfl (by decide)
    · decide
    · rfl
  have hshort : ['b', 'd', '?', '*', '2'].length ≤ digitLimit := by decide
  have hrest : ['b', 'd', '?', '*', '2'] ≠ restMark := by decide
  have hnode := node_of_length_le hshort 4
  obtain ⟨-, hfound⟩ := node_keeps_all_or_none hrest (by decide) (by decide)
    (not_barOutside_of_not_mem (by decide)) 4
  obtain ⟨sound, hvalue, hcuts, -⟩ := hfound _ hnode
  exact ⟨_, sound, hnode, hvalue, (hcuts _ hcut).2⟩

/-- A sound with a negative count. Such a text is no sound with modifiers, whatever the count. -/
def negativeCount (length : Nat) : List Char :=
  'a' :: '*' :: (Numeral.ones true length).text

theorem not_isOf_negativeCount {length : Nat} (hlength : 0 < length) (cut : Cut) :
    ¬ cut.IsOf (negativeCount length) := by
  intro hcut
  have hread : Modifier.read? ('*' :: (Numeral.ones true length).text) =
      (none : Option Modifier).map fun m => (m, []) := by
    rw [Modifier.read?, Modifier.readCount?_of_negative (by decide)
      (Numeral.wellFormed_ones true hlength) rfl]
    rfl
  have hname : IsSoundRun ['a'] := isSoundRun_cons_iff.mpr ⟨.inl rfl, isSoundRun_nil⟩
  have hspan : spanSoundName (negativeCount length) =
      (['a'], '*' :: (Numeral.ones true length).text) :=
    spanSoundName_append hname (beforeModifier_cons (by decide) _)
  obtain ⟨ms, hsound, -⟩ := sound?_of_isOf hcut
  rw [sound?, hspan] at hsound
  simp only [Modifiers.read?_single (List.cons_ne_nil _ _) hread] at hsound
  cases hsound

theorem soundConverts_negativeCount {length : Nat} (hlength : 0 < length) :
    SoundConverts (negativeCount length) (.ones true length) := by
  have hname : IsSoundRun ['a'] := isSoundRun_cons_iff.mpr ⟨.inl rfl, isSoundRun_nil⟩
  have hcut : Cut.IsOf ⟨['a'], []⟩ ['a'] :=
    ⟨by simp, hname, by simp [Modifiers.AreWritten], List.nodup_nil, rfl⟩
  have hlongest : (Numeral.ones true length).Longest [] :=
    (Numeral.read?_eq_some_iff.mp (Numeral.read?_text (Numeral.wellFormed_ones true hlength))).2
  have hcount := Modifier.Converts.count (c := '*') (by simp) rfl hlongest
  rw [List.append_nil] at hcount
  exact ⟨⟨['a'], []⟩, ['a'], '*' :: (Numeral.ones true length).text, hcut, rfl, hcount⟩

/-- A sound with a negative count of 4301 digits can be cut into no name and modifiers, and still is
not kept as a name. -/
theorem node_fails_of_long_count :
    negativeCount 4301 ≠ restMark ∧ negativeCount 4301 ≠ elongationMark ∧
      Harmony.ofWord? (negativeCount 4301) = none ∧ ¬ BarOutside (negativeCount 4301) ∧
      (∀ cut : Cut, ¬ cut.IsOf (negativeCount 4301)) ∧
      ∃ fault, node (negativeCount 4301) 0 = .error fault := by
  have hpos : 0 < 4301 := by decide
  have hbar : ¬ BarOutside (negativeCount 4301) := by
    have hcount := Numeral.not_mem_text (Numeral.wellFormed_ones true hpos) (c := '|') (by decide)
      (by decide) (by decide)
    exact not_barOutside_of_not_mem (by simp [negativeCount, hcount])
  have hrest : negativeCount 4301 ≠ restMark := by simp [negativeCount, restMark]
  have helongation : negativeCount 4301 ≠ elongationMark := by simp [negativeCount, elongationMark]
  have hfails := failsOn_converts hrest helongation rfl hbar 0
  exact ⟨hrest, helongation, rfl, hbar, not_isOf_negativeCount hpos,
    hfails.fails (.sound (soundConverts_negativeCount hpos))
      (Numeral.isTooLong_ones true (by decide))⟩

end Word

end CyclePattern
