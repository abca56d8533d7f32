/-
# The longest numeral at the front of a text

A numeral is an optional minus sign, decimal digits and an optional fraction. The reader is
compared here with that shape alone: what it returns is a numeral of this shape, and no longer one
stands at the front of the text. Both together determine the answer, so a reader that stopped
early, or that took a dot without a digit, would be told apart.
-/

import Mathlib.Data.List.Basic
import Mathlib.Data.List.TakeWhile
import CyclePattern.Number.Numeral

namespace CyclePattern

open Text

namespace Numeral

/-- Digits of a numeral: at least one, and all of them decimal. -/
def IsDigits (digits : List Char) : Prop :=
  digits ≠ [] ∧ ∀ c ∈ digits, isDecimal c = true

/-- A numeral as it can be written. -/
structure WellFormed (x : Numeral) : Prop where
  whole : IsDigits x.whole
  fraction : ∀ digits, x.fraction = some digits → IsDigits digits

/-- No longer numeral than `x` starts where `x` starts, when `after` follows it. -/
structure Longest (x : Numeral) (after : List Char) : Prop where
  wellFormed : x.WellFormed
  maximal : ∀ y : Numeral, y.WellFormed → y.text <+: x.text ++ after →
    y.text.length ≤ x.text.length

/-- The text of a numeral after its whole part. -/
def fractionText : Option (List Char) → List Char
  | none => []
  | some digits => '.' :: digits

theorem text_eq (x : Numeral) :
    x.text = (if x.negative then ['-'] else []) ++ (x.whole ++ fractionText x.fraction) := by
  show (if x.negative then ['-'] else []) ++ x.whole ++ fractionText x.fraction = _
  rw [List.append_assoc]

theorem isDecimal_minus : isDecimal '-' = false := by
  decide

theorem isDecimal_dot : isDecimal '.' = false := by
  decide

theorem takeWhile_digits {digits rest : List Char} (hdigits : ∀ c ∈ digits, isDecimal c = true)
    (hrest : ∀ c tail, rest = c :: tail → isDecimal c = false) :
    (digits ++ rest).takeWhile isDecimal = digits := by
  rw [List.takeWhile_append_of_pos hdigits]
  cases rest with
  | nil => simp
  | cons c tail => simp [hrest c tail rfl]

/-- Digits at the front of a text are part of the run that the reader takes. -/
theorem isPrefix_takeWhile {digits cs : List Char} (hdigits : ∀ c ∈ digits, isDecimal c = true)
    (hfront : digits <+: cs) : digits <+: cs.takeWhile isDecimal := by
  obtain ⟨rest, rfl⟩ := hfront
  rw [List.takeWhile_append_of_pos hdigits]
  exact List.prefix_append _ _

theorem isDigits_takeWhile {digits cs : List Char} (hdigits : IsDigits digits)
    (hfront : digits <+: cs) : IsDigits (cs.takeWhile isDecimal) := by
  refine ⟨?_, fun c hc => List.mem_takeWhile_imp hc⟩
  have hrun := isPrefix_takeWhile hdigits.2 hfront
  intro hempty
  rw [hempty, List.prefix_nil] at hrun
  exact hdigits.1 hrun

theorem readDigits?_eq_some_iff {cs digits rest : List Char} :
    readDigits? cs = some (digits, rest) ↔
      digits = cs.takeWhile isDecimal ∧ rest = cs.dropWhile isDecimal ∧ digits ≠ [] := by
  unfold readDigits?
  split
  · next hempty =>
      simp only [hempty, reduceCtorEq, false_iff, not_and, not_not]
      intro hdigits _
      exact hdigits
  · next hrun =>
      simp only [Option.some.injEq, Prod.mk.injEq]
      constructor
      · rintro ⟨rfl, rfl⟩
        exact ⟨rfl, rfl, hrun⟩
      · rintro ⟨rfl, rfl, _⟩
        exact ⟨rfl, rfl⟩

theorem readDigits?_of_isPrefix {digits cs : List Char} (hdigits : IsDigits digits)
    (hfront : digits <+: cs) :
    readDigits? cs = some (cs.takeWhile isDecimal, cs.dropWhile isDecimal) :=
  readDigits?_eq_some_iff.mpr ⟨rfl, rfl, (isDigits_takeWhile hdigits hfront).1⟩

theorem isDigits_of_readDigits? {cs digits rest : List Char}
    (hread : readDigits? cs = some (digits, rest)) : IsDigits digits ∧ cs = digits ++ rest := by
  obtain ⟨rfl, rfl, hne⟩ := readDigits?_eq_some_iff.mp hread
  exact ⟨⟨hne, fun c hc => List.mem_takeWhile_imp hc⟩, List.takeWhile_append_dropWhile.symm⟩

theorem readFraction_text (cs : List Char) :
    cs = fractionText (readFraction cs).1 ++ (readFraction cs).2 ∧
      ∀ digits, (readFraction cs).1 = some digits → IsDigits digits := by
  unfold readFraction
  split
  · next rest =>
      split
      · next digits tail hdigits =>
          obtain ⟨hshape, rfl⟩ := isDigits_of_readDigits? hdigits
          exact ⟨rfl, by rintro _ ⟨⟩; exact hshape⟩
      · exact ⟨rfl, by rintro _ ⟨⟩⟩
  · exact ⟨rfl, by rintro _ ⟨⟩⟩

theorem readSign_text (cs : List Char) :
    cs = (if (readSign cs).1 then ['-'] else []) ++ (readSign cs).2 := by
  unfold readSign
  split <;> rfl

theorem wellFormed_of_read? {cs rest : List Char} {x : Numeral}
    (hread : read? cs = some (x, rest)) :
    x.WellFormed ∧ cs = x.text ++ rest := by
  simp only [read?, readWhole?, Option.map_eq_some_iff, Prod.exists, Prod.mk.injEq] at hread
  obtain ⟨_, middle, ⟨whole, tail, hwhole, rfl, rfl⟩, rfl, hrest⟩ := hread
  obtain ⟨hdigits, hsplit⟩ := isDigits_of_readDigits? hwhole
  obtain ⟨htail, hfraction⟩ := readFraction_text tail
  refine ⟨⟨hdigits, hfraction⟩, ?_⟩
  rw [hrest] at htail
  rw [text_eq, List.append_assoc, List.append_assoc, ← htail, ← hsplit]
  exact readSign_text cs

theorem readSign_of_isPrefix {y : Numeral} {cs : List Char} (hy : y.WellFormed)
    (hfront : y.text <+: cs) :
    (readSign cs).1 = y.negative ∧ y.whole ++ fractionText y.fraction <+: (readSign cs).2 := by
  obtain ⟨rest, rfl⟩ := hfront
  rw [text_eq]
  cases hsign : y.negative with
  | true => exact ⟨rfl, rest, rfl⟩
  | false =>
      obtain ⟨d, digits, hwhole⟩ := List.exists_cons_of_ne_nil hy.whole.1
      have hdecimal : isDecimal d = true := hy.whole.2 d (by simp [hwhole])
      have hd : d ≠ '-' := by
        rintro rfl
        rw [isDecimal_minus] at hdecimal
        contradiction
      simp [hwhole, readSign, hd]

/-- The fraction that is read is at least as long as any other that could follow the digits. -/
theorem length_fractionText_le {fraction : Option (List Char)} {cs : List Char}
    (hdigits : ∀ digits, fraction = some digits → IsDigits digits)
    (hfront : fractionText fraction <+: cs) :
    (fractionText fraction).length ≤ (fractionText (readFraction cs).1).length := by
  cases fraction with
  | none => simp [fractionText]
  | some digits =>
      obtain ⟨rest, rfl⟩ := hfront
      have hrun := hdigits digits rfl
      have hthere : digits <+: digits ++ rest := List.prefix_append digits rest
      have hlength := (isPrefix_takeWhile hrun.2 hthere).length_le
      simp only [fractionText, List.cons_append, readFraction,
        readDigits?_of_isPrefix hrun hthere, List.length_cons]
      omega

/-- Whenever some numeral stands at the front of a text one is read, and it is no shorter. -/
theorem exists_read?_of_isPrefix {y : Numeral} {cs : List Char} (hy : y.WellFormed)
    (hfront : y.text <+: cs) :
    ∃ x rest, read? cs = some (x, rest) ∧ y.text.length ≤ x.text.length := by
  obtain ⟨hsign, hunsigned⟩ := readSign_of_isPrefix hy hfront
  generalize hcut : (readSign cs).2 = unsigned at hunsigned
  have hthere : y.whole <+: unsigned := (List.prefix_append _ _).trans hunsigned
  have hrun := isPrefix_takeWhile hy.whole.2 hthere
  refine ⟨⟨y.negative, unsigned.takeWhile isDecimal,
    (readFraction (unsigned.dropWhile isDecimal)).1⟩,
    (readFraction (unsigned.dropWhile isDecimal)).2, ?_, ?_⟩
  · simp [read?, readWhole?, hcut, hsign, readDigits?_of_isPrefix hy.whole hthere]
  · rw [text_eq, text_eq]
    simp only [List.length_append]
    -- A fraction of `y` ends the run of digits, so the runs agree before it.
    have htail : (y.whole ++ fractionText y.fraction).length ≤
        (unsigned.takeWhile isDecimal).length +
          (fractionText (readFraction (unsigned.dropWhile isDecimal)).1).length := by
      cases hfraction : y.fraction with
      | none =>
          have := hrun.length_le
          simp only [fractionText, List.append_nil]
          omega
      | some digits =>
          obtain ⟨rest, rfl⟩ := hunsigned
          have hsame : (y.whole ++ fractionText y.fraction ++ rest).takeWhile isDecimal =
              y.whole := by
            rw [List.append_assoc, hfraction]
            apply takeWhile_digits hy.whole.2
            rintro c tail ⟨⟩
            exact isDecimal_dot
          have hdrop : (y.whole ++ fractionText y.fraction ++ rest).dropWhile isDecimal =
              fractionText y.fraction ++ rest := by
            have hboth := List.takeWhile_append_dropWhile (p := isDecimal)
              (l := y.whole ++ fractionText y.fraction ++ rest)
            rw [hsame, List.append_assoc] at hboth
            simpa using hboth
          have hlength := length_fractionText_le hy.fraction
            (List.prefix_append (fractionText y.fraction) rest)
          rw [hsame, hdrop, ← hfraction, List.length_append]
          omega
    rw [List.length_append] at htail
    omega

/-- Two numerals with the same text are the same. -/
theorem eq_of_text_eq {x y : Numeral} (hx : x.WellFormed) (hy : y.WellFormed)
    (htext : x.text = y.text) : x = y := by
  obtain ⟨hxsign, -⟩ := readSign_of_isPrefix hx (List.prefix_refl x.text)
  obtain ⟨hysign, -⟩ := readSign_of_isPrefix hy (List.prefix_refl y.text)
  have hsign : x.negative = y.negative := by rw [← hxsign, ← hysign, htext]
  have hrest : x.whole ++ fractionText x.fraction = y.whole ++ fractionText y.fraction := by
    rw [text_eq, text_eq, hsign] at htext
    exact List.append_cancel_left htext
  have hstop : ∀ fraction c tail, fractionText fraction = c :: tail → isDecimal c = false := by
    intro fraction c tail hcons
    cases fraction with
    | none => cases hcons
    | some digits =>
        cases hcons
        exact isDecimal_dot
  have hwhole : x.whole = y.whole := by
    rw [← takeWhile_digits hx.whole.2 (hstop x.fraction),
      ← takeWhile_digits hy.whole.2 (hstop y.fraction), hrest]
  have hfraction : x.fraction = y.fraction := by
    rw [hwhole] at hrest
    have htail := List.append_cancel_left hrest
    cases hfx : x.fraction <;> cases hfy : y.fraction <;> simp_all [fractionText]
  cases x
  cases y
  simp_all

/-- Reading returns a numeral exactly when it is the longest one at the front of the text. -/
theorem read?_eq_some_iff {cs rest : List Char} {x : Numeral} :
    read? cs = some (x, rest) ↔ cs = x.text ++ rest ∧ x.Longest rest := by
  constructor
  · intro hread
    obtain ⟨hshape, hsplit⟩ := wellFormed_of_read? hread
    refine ⟨hsplit, hshape, ?_⟩
    intro y hy hfront
    rw [← hsplit] at hfront
    obtain ⟨z, tail, hz, hle⟩ := exists_read?_of_isPrefix hy hfront
    rw [hread] at hz
    cases hz
    exact hle
  · rintro ⟨rfl, hlongest⟩
    obtain ⟨z, tail, hz, hle⟩ :=
      exists_read?_of_isPrefix hlongest.wellFormed (List.prefix_append x.text rest)
    obtain ⟨hshape, hsplit⟩ := wellFormed_of_read? hz
    have hge := hlongest.maximal z hshape (hsplit ▸ List.prefix_append z.text tail)
    obtain ⟨htext, rfl⟩ := List.append_inj hsplit (by omega)
    rw [hz, eq_of_text_eq hlongest.wellFormed hshape htext]

/-- Reading returns nothing exactly when no numeral stands at the front of the text. -/
theorem read?_eq_none_iff {cs : List Char} :
    read? cs = none ↔ ∀ x : Numeral, x.WellFormed → ¬ x.text <+: cs := by
  constructor
  · intro hread x hx hfront
    obtain ⟨z, rest, hz, -⟩ := exists_read?_of_isPrefix hx hfront
    rw [hread] at hz
    contradiction
  · intro hnone
    cases hread : read? cs with
    | none => rfl
    | some read =>
        obtain ⟨hshape, hsplit⟩ := wellFormed_of_read? hread
        exact absurd (hsplit ▸ List.prefix_append _ _) (hnone read.1 hshape)

/-- The dot of a number stands before its decimal places. -/
theorem isDigits_after_dot {x : Numeral} (hx : x.WellFormed) {front back : List Char}
    (hsplit : x.text = front ++ '.' :: back) : IsDigits back := by
  rw [text_eq, ← List.append_assoc] at hsplit
  have hbody : '.' ∉ (if x.negative then ['-'] else []) ++ x.whole := by
    intro hdot
    rcases List.mem_append.mp hdot with hsign | hwhole
    · cases hneg : x.negative <;> simp [hneg] at hsign
    · simpa [isDecimal_dot] using hx.whole.2 '.' hwhole
  cases hfraction : x.fraction with
  | none =>
      rw [hfraction, fractionText, List.append_nil] at hsplit
      exact absurd (by simp [hsplit]) hbody
  | some digits =>
      have hdigits := hx.fraction digits hfraction
      have hplaces : '.' ∉ digits := by
        intro hdot
        simpa [isDecimal_dot] using hdigits.2 '.' hdot
      rw [hfraction, fractionText, List.append_cons_inj_of_notMem hbody hplaces] at hsplit
      rwa [← hsplit.2.2]

end Numeral

end CyclePattern
