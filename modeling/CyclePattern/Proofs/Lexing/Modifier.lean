/-
# Texts of modifiers

A modifier is written as its operator and what the operator takes: a number, or nothing, or whole
numbers in parentheses. This is said here without a reader. The reader returns a modifier only
where such a text stands, and where one stands before another modifier or at the end of a word, it
takes just that text: no operator is a character of a number, so no number goes on past one.
-/

import CyclePattern.Pattern.Modifier
import CyclePattern.Proofs.Lexing.Token

namespace CyclePattern

open Text

/-- First characters of the modifiers. -/
def modifierOperators : List Char :=
  [':', '*', '!', '@', '/', '%', '?', '(']

/-- A text that is empty or goes on with a modifier. -/
def BeforeModifier (cs : List Char) : Prop :=
  ∀ c rest, cs = c :: rest → c ∈ modifierOperators

theorem beforeModifier_nil : BeforeModifier [] := by
  intro c rest hcons
  cases hcons

theorem beforeModifier_cons {c : Char} (hc : c ∈ modifierOperators) (rest : List Char) :
    BeforeModifier (c :: rest) := by
  rintro _ _ ⟨⟩
  exact hc

namespace Numeral

theorem text_ne_nil {x : Numeral} (hx : x.WellFormed) : x.text ≠ [] := by
  rw [text_eq]
  simp [hx.whole.1]

theorem not_mem_text_of_operator {x : Numeral} (hx : x.WellFormed) {c : Char}
    (hc : c ∈ modifierOperators) : c ∉ x.text := by
  have hplain : isDecimal c = false ∧ c ≠ '-' ∧ c ≠ '.' := by
    simp only [modifierOperators, List.mem_cons, List.not_mem_nil, or_false] at hc
    rcases hc with rfl | rfl | rfl | rfl | rfl | rfl | rfl | rfl <;> decide
  obtain ⟨hdigit, hminus, hdot⟩ := hplain
  exact not_mem_text hx hdigit hminus hdot

/-- Before a modifier a numeral is read as a whole. -/
theorem read?_append {x : Numeral} {rest : List Char} (hx : x.WellFormed)
    (hrest : BeforeModifier rest) : read? (x.text ++ rest) = some (x, rest) := by
  refine read?_eq_some_iff.mpr ⟨rfl, hx, ?_⟩
  intro y hy hfront
  have hstop : ∀ c tail, rest = c :: tail → c ∉ y.text :=
    fun c tail hcons => not_mem_text_of_operator hy (hrest c tail hcons)
  exact (isPrefix_of_not_mem hstop hfront).length_le

/-- The text of a numeral is read as a whole. -/
theorem read?_text {x : Numeral} (hx : x.WellFormed) : read? x.text = some (x, []) := by
  have hread := read?_append hx beforeModifier_nil
  rwa [List.append_nil] at hread

theorem read?_of_beforeModifier {cs : List Char} (hcs : BeforeModifier cs) : read? cs = none := by
  refine read?_eq_none_iff.mpr ?_
  intro x hx hfront
  have hstop : ∀ c tail, cs = c :: tail → c ∉ x.text :=
    fun c tail hcons => not_mem_text_of_operator hx (hcs c tail hcons)
  have hempty : x.text <+: [] := isPrefix_of_not_mem hstop hfront
  exact text_ne_nil hx (List.prefix_nil.mp hempty)

theorem text_of_fraction_eq_none {x : Numeral} (hwhole : x.fraction = none) :
    x.text = (if x.negative then ['-'] else []) ++ x.whole := by
  rw [text_eq, hwhole, fractionText, List.append_nil]

/-- Reading without a fraction stops at the first character that is no digit. -/
theorem readWhole?_eq_some_iff {cs rest : List Char} {x : Numeral} :
    readWhole? cs = some (x, rest) ↔
      cs = x.text ++ rest ∧ x.WellFormed ∧ x.fraction = none ∧
        ∀ c tail, rest = c :: tail → isDecimal c = false := by
  constructor
  · intro hread
    simp only [readWhole?, Option.map_eq_some_iff, Prod.exists, Prod.mk.injEq] at hread
    obtain ⟨whole, tail, hdigits, rfl, rfl⟩ := hread
    obtain ⟨hshape, hsplit⟩ := isDigits_of_readDigits? hdigits
    obtain ⟨-, hdrop, -⟩ := readDigits?_eq_some_iff.mp hdigits
    refine ⟨?_, ⟨hshape, by rintro _ ⟨⟩⟩, rfl, ?_⟩
    · rw [text_of_fraction_eq_none rfl, List.append_assoc, ← hsplit]
      exact readSign_text cs
    · intro c after hcons
      have hhead := List.head?_dropWhile_not isDecimal (readSign cs).2
      rw [← hdrop, hcons] at hhead
      simpa using hhead
  · rintro ⟨rfl, hx, hwhole, hrest⟩
    obtain ⟨hsign, -⟩ := readSign_of_isPrefix hx (List.prefix_append x.text rest)
    have hunsigned : (readSign (x.text ++ rest)).2 = x.whole ++ rest := by
      have hsplit := readSign_text (x.text ++ rest)
      rw [hsign, text_of_fraction_eq_none hwhole, List.append_assoc] at hsplit
      rw [text_of_fraction_eq_none hwhole, List.append_assoc]
      exact (List.append_cancel_left hsplit).symm
    have hrun := takeWhile_digits hx.whole.2 hrest
    have hdigits : readDigits? (x.whole ++ rest) = some (x.whole, rest) := by
      refine readDigits?_eq_some_iff.mpr ⟨hrun.symm, ?_, hx.whole.1⟩
      have hboth := List.takeWhile_append_dropWhile (p := isDecimal) (l := x.whole ++ rest)
      rw [hrun] at hboth
      exact (List.append_cancel_left hboth).symm
    rw [readWhole?]
    simp only [hunsigned, hsign, hdigits, Option.map_some, ← hwhole]

end Numeral

/-- A text of blanks alone. -/
def IsBlankText (cs : List Char) : Prop :=
  ∀ c ∈ cs, isBlank c = true

theorem not_isDecimal_of_isBlank {c : Char} (hc : isBlank c = true) : isDecimal c = false := by
  have hzeros : ∀ base ∈ digitZeros, ∀ digit < 10,
      ¬ ((0x9 ≤ base + digit ∧ base + digit ≤ 0xd) ∨ (0x1c ≤ base + digit ∧ base + digit ≤ 0x20) ∨
        base + digit = 0x85 ∨ base + digit = 0xa0 ∨ base + digit = 0x1680 ∨
        (0x2000 ≤ base + digit ∧ base + digit ≤ 0x200a) ∨ base + digit = 0x2028 ∨
        base + digit = 0x2029 ∨ base + digit = 0x202f ∨ base + digit = 0x205f ∨
        base + digit = 0x3000) := by
    decide
  rw [isDecimal, digitValue?, Option.isSome_eq_false_iff, Option.isNone_iff_eq_none,
    List.findSome?_eq_none_iff]
  intro base hbase
  rw [if_neg]
  rintro ⟨hlow, hhigh⟩
  have hdigit := hzeros base hbase (c.toNat - base) (by omega)
  rw [Nat.add_sub_cancel' hlow] at hdigit
  simp only [isBlank, Bool.or_eq_true, Bool.and_eq_true, decide_eq_true_eq, beq_iff_eq] at hc
  omega

theorem Numeral.not_isBlank_of_mem_text {x : Numeral} (hx : x.WellFormed) {c : Char}
    (hc : c ∈ x.text) : isBlank c = false := by
  by_contra hblank
  rw [Bool.not_eq_false] at hblank
  have hsign : c ≠ '-' ∧ c ≠ '.' := by
    constructor <;> rintro rfl <;> revert hblank <;> decide
  exact not_mem_text hx (not_isDecimal_of_isBlank hblank) hsign.1 hsign.2 hc

theorem skipBlanks_append {blank cs : List Char} (hblank : IsBlankText blank)
    (hcs : ∀ c rest, cs = c :: rest → isBlank c = false) : skipBlanks (blank ++ cs) = cs := by
  rw [skipBlanks, List.dropWhile_append_of_pos hblank]
  cases cs with
  | nil => rfl
  | cons c rest => simp [hcs c rest rfl]

theorem exists_skipBlanks (cs : List Char) :
    ∃ blank, IsBlankText blank ∧ cs = blank ++ skipBlanks cs :=
  ⟨cs.takeWhile isBlank, fun _ hc => List.mem_takeWhile_imp hc,
    List.takeWhile_append_dropWhile.symm⟩

namespace Modifier

/-- A whole number as it is written between parentheses, with blanks around it. -/
structure IsArgument (x : Numeral) (cs : List Char) : Prop where
  wellFormed : x.WellFormed
  whole : x.fraction = none
  blanks : ∃ before after, IsBlankText before ∧ IsBlankText after ∧
    cs = before ++ (x.text ++ after)

/-- Two or three whole numbers in parentheses, with commas between them. -/
inductive AreArguments : Numeral × Numeral × Option Numeral → List Char → Prop
  | two {first second : Numeral} {cs ds : List Char} (hfirst : IsArgument first cs)
      (hsecond : IsArgument second ds) :
      AreArguments (first, second, none) ('(' :: (cs ++ ',' :: (ds ++ [')'])))
  | three {first second third : Numeral} {cs ds es : List Char} (hfirst : IsArgument first cs)
      (hsecond : IsArgument second ds) (hthird : IsArgument third es) :
      AreArguments (first, second, some third)
        ('(' :: (cs ++ ',' :: (ds ++ ',' :: (es ++ [')']))))

/-- An argument is read up to a comma or a closing parenthesis. -/
theorem readArgument?_append {x : Numeral} {cs rest : List Char} {c : Char} (hx : IsArgument x cs)
    (hc : c = ',' ∨ c = ')') : readArgument? (cs ++ c :: rest) = some (x, c :: rest) := by
  obtain ⟨before, after, hbefore, hafter, rfl⟩ := hx.blanks
  have hplain : isBlank c = false ∧ isDecimal c = false := by
    rcases hc with rfl | rfl <;> decide
  have hfront : ∀ d tail, x.text ++ (after ++ c :: rest) = d :: tail → isBlank d = false := by
    intro d tail hcons
    apply Numeral.not_isBlank_of_mem_text hx.wellFormed
    cases htext : x.text with
    | nil => exact absurd htext (Numeral.text_ne_nil hx.wellFormed)
    | cons e digits =>
        rw [htext] at hcons
        cases hcons
        simp
  have hread : Numeral.readWhole? (x.text ++ (after ++ c :: rest)) =
      some (x, after ++ c :: rest) := by
    refine Numeral.readWhole?_eq_some_iff.mpr ⟨rfl, hx.wellFormed, hx.whole, ?_⟩
    intro d tail hcons
    cases after with
    | nil =>
        cases hcons
        exact hplain.2
    | cons d after =>
        cases hcons
        exact not_isDecimal_of_isBlank (hafter d (by simp))
  have hskip : skipBlanks (after ++ c :: rest) = c :: rest := by
    apply skipBlanks_append hafter
    rintro _ _ ⟨⟩
    exact hplain.1
  rw [readArgument?, List.append_assoc, List.append_assoc, skipBlanks_append hbefore hfront, hread,
    Option.map_some]
  simp only [hskip]

theorem isArgument_of_readArgument? {x : Numeral} {cs rest : List Char}
    (hread : readArgument? cs = some (x, rest)) : ∃ ds, IsArgument x ds ∧ cs = ds ++ rest := by
  simp only [readArgument?, Option.map_eq_some_iff, Prod.exists, Prod.mk.injEq] at hread
  obtain ⟨_, middle, hwhole, rfl, rfl⟩ := hread
  obtain ⟨hsplit, hx, hfraction, -⟩ := Numeral.readWhole?_eq_some_iff.mp hwhole
  obtain ⟨before, hbefore, hcs⟩ := exists_skipBlanks cs
  obtain ⟨after, hafter, hmiddle⟩ := exists_skipBlanks middle
  refine ⟨before ++ (_ ++ after), ⟨hx, hfraction, before, after, hbefore, hafter, rfl⟩, ?_⟩
  rw [List.append_assoc, List.append_assoc, ← hmiddle, ← hsplit, ← hcs]

theorem readArguments?_append {arguments : Numeral × Numeral × Option Numeral} {cs : List Char}
    (harguments : AreArguments arguments cs) (rest : List Char) :
    readArguments? (cs ++ rest) = some (arguments, rest) := by
  cases harguments with
  | two hfirst hsecond =>
      simp only [List.cons_append, List.append_assoc, List.nil_append, readArguments?,
        readArgument?_append hfirst (.inl rfl), readArgument?_append hsecond (.inr rfl)]
  | three hfirst hsecond hthird =>
      simp only [List.cons_append, List.append_assoc, List.nil_append, readArguments?,
        readArgument?_append hfirst (.inl rfl), readArgument?_append hsecond (.inl rfl),
        readArgument?_append hthird (.inr rfl)]

theorem areArguments_of_readArguments? {arguments : Numeral × Numeral × Option Numeral}
    {cs rest : List Char} (hread : readArguments? cs = some (arguments, rest)) :
    ∃ ds, AreArguments arguments ds ∧ cs = ds ++ rest := by
  unfold readArguments? at hread
  split at hread
  case h_2 => cases hread
  split at hread
  case h_2 => cases hread
  next first afterFirst hreadFirst =>
    obtain ⟨ds, hfirst, rfl⟩ := isArgument_of_readArgument? hreadFirst
    split at hread
    · next second after hreadSecond =>
        obtain ⟨es, hsecond, rfl⟩ := isArgument_of_readArgument? hreadSecond
        cases hread
        exact ⟨_, .two hfirst hsecond, by simp⟩
    · next second afterSecond hreadSecond =>
        obtain ⟨es, hsecond, rfl⟩ := isArgument_of_readArgument? hreadSecond
        split at hread
        case h_2 => cases hread
        next third after hreadThird =>
          obtain ⟨fs, hthird, rfl⟩ := isArgument_of_readArgument? hreadThird
          cases hread
          exact ⟨_, .three hfirst hsecond hthird, by simp⟩
    · cases hread

/-- The first character of a modifier. -/
def operator : Modifier → Char
  | sample _ => ':'
  | repeats _ => '*'
  | copies _ => '!'
  | weight _ => '@'
  | division _ => '/'
  | ratio _ => '%'
  | probability _ => '?'
  | euclid _ => '('

/-- A modifier as it can be written. A count has no fraction, and the range of any other number is
that of its floating-point value. -/
inductive Written : Modifier → List Char → Prop
  | sample {x : Numeral} {n : Int} (hx : x.WellFormed) (hn : x.toInt? = some n) (hle : 0 ≤ n) :
      Written (sample n) (':' :: x.text)
  | repeats {x : Numeral} {n : Int} (hx : x.WellFormed) (hn : x.toInt? = some n) (hle : 1 ≤ n) :
      Written (repeats n) ('*' :: x.text)
  | copies {x : Numeral} {n : Int} (hx : x.WellFormed) (hn : x.toInt? = some n) (hle : 1 ≤ n) :
      Written (copies n) ('!' :: x.text)
  | weight {x : Numeral} (hx : x.WellFormed) (hpos : 0 < x.toFloat) :
      Written (weight x.toFloat) ('@' :: x.text)
  | division {x : Numeral} (hx : x.WellFormed) (hpos : 0 < x.toFloat) :
      Written (division x.toFloat) ('/' :: x.text)
  | ratio {x : Numeral} (hx : x.WellFormed) (hpos : 0 < x.toFloat) :
      Written (ratio x.toFloat) ('%' :: x.text)
  | probability {x : Numeral} (hx : x.WellFormed) (hrange : 0 ≤ x.toFloat ∧ x.toFloat ≤ 1) :
      Written (probability x.toFloat) ('?' :: x.text)
  | evenChance : Written (probability defaultProbability) ['?']
  | euclid {pulses steps : Numeral} {rotation : Option Numeral} {cs : List Char}
      (harguments : AreArguments (pulses, steps, rotation) cs)
      (hrange : 0 < pulses.wholeValue ∧ pulses.wholeValue ≤ steps.wholeValue) :
      Written (euclid ⟨pulses.wholeValue, steps.wholeValue,
        (rotation.map (·.wholeValue)).getD 0⟩) cs

theorem operator_mem (m : Modifier) : m.operator ∈ modifierOperators := by
  cases m <;> simp [operator, modifierOperators]

theorem Written.exists_eq_cons {m : Modifier} {cs : List Char} (hm : m.Written cs) :
    ∃ tail, cs = m.operator :: tail := by
  cases hm with
  | euclid harguments hrange => cases harguments <;> exact ⟨_, rfl⟩
  | _ => exact ⟨_, rfl⟩

theorem readCount?_append {x : Numeral} {n least : Int} {rest : List Char} (hx : x.WellFormed)
    (hn : x.toInt? = some n) (hle : least ≤ n) (hrest : BeforeModifier rest) :
    readCount? least (x.text ++ rest) = some (n, rest) := by
  simp only [readCount?, Numeral.read?_append hx hrest, hn, if_neg (Int.not_lt.mpr hle)]

theorem exists_of_readCount? {n least : Int} {cs rest : List Char}
    (hread : readCount? least cs = some (n, rest)) :
    ∃ x : Numeral, x.WellFormed ∧ x.toInt? = some n ∧ least ≤ n ∧ cs = x.text ++ rest := by
  unfold readCount? at hread
  split at hread
  · cases hread
  next x after hnumeral =>
    split at hread
    · cases hread
    next n hn =>
      split at hread
      · cases hread
      next hle =>
        cases hread
        obtain ⟨hx, hsplit⟩ := Numeral.wellFormed_of_read? hnumeral
        exact ⟨x, hx, hn, Int.not_lt.mp hle, hsplit⟩

theorem readPositive?_append {x : Numeral} {rest : List Char} (hx : x.WellFormed)
    (hpos : 0 < x.toFloat) (hrest : BeforeModifier rest) :
    readPositive? (x.text ++ rest) = some (x.toFloat, rest) := by
  simp only [readPositive?, Numeral.read?_append hx hrest, if_pos hpos]

theorem exists_of_readPositive? {value : Float} {cs rest : List Char}
    (hread : readPositive? cs = some (value, rest)) :
    ∃ x : Numeral, x.WellFormed ∧ x.toFloat = value ∧ 0 < x.toFloat ∧ cs = x.text ++ rest := by
  unfold readPositive? at hread
  split at hread
  · cases hread
  next x after hnumeral =>
    split at hread
    case isFalse => cases hread
    next hpos =>
      cases hread
      obtain ⟨hx, hsplit⟩ := Numeral.wellFormed_of_read? hnumeral
      exact ⟨x, hx, rfl, hpos, hsplit⟩

/-- A modifier is read just as it is written, when another one or nothing follows. -/
theorem read?_append {m : Modifier} {cs rest : List Char} (hm : m.Written cs)
    (hrest : BeforeModifier rest) : read? (cs ++ rest) = some (m, rest) := by
  cases hm with
  | sample hx hn hle => simp only [List.cons_append, read?, readCount?_append hx hn hle hrest,
      Option.map_some]
  | repeats hx hn hle => simp only [List.cons_append, read?, readCount?_append hx hn hle hrest,
      Option.map_some]
  | copies hx hn hle => simp only [List.cons_append, read?, readCount?_append hx hn hle hrest,
      Option.map_some]
  | weight hx hpos => simp only [List.cons_append, read?, readPositive?_append hx hpos hrest,
      Option.map_some]
  | division hx hpos => simp only [List.cons_append, read?, readPositive?_append hx hpos hrest,
      Option.map_some]
  | ratio hx hpos => simp only [List.cons_append, read?, readPositive?_append hx hpos hrest,
      Option.map_some]
  | probability hx hrange => simp only [List.cons_append, read?, readChance?,
      Numeral.read?_append hx hrest, if_pos hrange, Option.map_some]
  | evenChance => simp only [List.cons_append, List.nil_append, read?, readChance?,
      Numeral.read?_of_beforeModifier hrest, Option.map_some]
  | euclid harguments hrange =>
      have hread := readArguments?_append harguments rest
      have hparenthesis : ∃ tail, cs = '(' :: tail := by
        cases harguments <;> exact ⟨_, rfl⟩
      obtain ⟨tail, rfl⟩ := hparenthesis
      rw [List.cons_append] at hread ⊢
      simp only [read?, readEuclid?, hread, if_pos hrange, Option.map_some]

theorem exists_of_readChance? {value : Float} {cs rest : List Char}
    (hread : readChance? cs = some (value, rest)) :
    (value = defaultProbability ∧ cs = rest) ∨
      ∃ x : Numeral, x.WellFormed ∧ x.toFloat = value ∧ (0 ≤ x.toFloat ∧ x.toFloat ≤ 1) ∧
        cs = x.text ++ rest := by
  unfold readChance? at hread
  split at hread
  · cases hread
    exact .inl ⟨rfl, rfl⟩
  next x after hnumeral =>
    split at hread
    case isFalse => cases hread
    next hrange =>
      cases hread
      obtain ⟨hx, hsplit⟩ := Numeral.wellFormed_of_read? hnumeral
      exact .inr ⟨x, hx, rfl, hrange, hsplit⟩

theorem written_of_readEuclid? {rhythm : Euclid} {cs rest : List Char}
    (hread : readEuclid? cs = some (rhythm, rest)) :
    ∃ ds, (euclid rhythm).Written ds ∧ cs = ds ++ rest := by
  unfold readEuclid? at hread
  split at hread
  · cases hread
  next pulses steps rotation after harguments =>
    split at hread
    case isFalse => cases hread
    next hrange =>
      cases hread
      obtain ⟨ds, hds, hsplit⟩ := areArguments_of_readArguments? harguments
      exact ⟨ds, .euclid hds hrange, hsplit⟩

/-- What is read is a modifier as it can be written. -/
theorem written_of_read? {m : Modifier} {cs rest : List Char} (hread : read? cs = some (m, rest)) :
    ∃ ds, m.Written ds ∧ cs = ds ++ rest := by
  unfold read? at hread
  split at hread
  case h_9 => cases hread
  all_goals
    simp only [Option.map_eq_some_iff, Prod.exists, Prod.mk.injEq] at hread
    obtain ⟨_, _, hinner, rfl, rfl⟩ := hread
  case h_1 =>
    obtain ⟨x, hx, hn, hle, rfl⟩ := exists_of_readCount? hinner
    exact ⟨_, .sample hx hn hle, rfl⟩
  case h_2 =>
    obtain ⟨x, hx, hn, hle, rfl⟩ := exists_of_readCount? hinner
    exact ⟨_, .repeats hx hn hle, rfl⟩
  case h_3 =>
    obtain ⟨x, hx, hn, hle, rfl⟩ := exists_of_readCount? hinner
    exact ⟨_, .copies hx hn hle, rfl⟩
  case h_4 =>
    obtain ⟨x, hx, rfl, hpos, rfl⟩ := exists_of_readPositive? hinner
    exact ⟨_, .weight hx hpos, rfl⟩
  case h_5 =>
    obtain ⟨x, hx, rfl, hpos, rfl⟩ := exists_of_readPositive? hinner
    exact ⟨_, .division hx hpos, rfl⟩
  case h_6 =>
    obtain ⟨x, hx, rfl, hpos, rfl⟩ := exists_of_readPositive? hinner
    exact ⟨_, .ratio hx hpos, rfl⟩
  case h_7 =>
    rcases exists_of_readChance? hinner with ⟨rfl, rfl⟩ | ⟨x, hx, rfl, hrange, rfl⟩
    · exact ⟨_, .evenChance, rfl⟩
    · exact ⟨_, .probability hx hrange, rfl⟩
  case h_8 => exact written_of_readEuclid? hinner

end Modifier

end CyclePattern
