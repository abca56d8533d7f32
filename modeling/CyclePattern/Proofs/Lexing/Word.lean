/-
# Separators and words

What separates items and where a word ends is said here by looking at a text, without a scanner: a
word is a run of characters none of which stops it, before the first character that does. The
scanners of the program are then shown to cut exactly these runs.

A stop may depend on the character after it, because a dot before a digit belongs to a number.
The last section says when the text after a run may be exchanged: it may end there, or go on with
the closer of a group, or with a space or a comma where no parenthesis is open.
-/

import CyclePattern.Pattern.Token

namespace CyclePattern

open Text

/-- A text that starts with an ASCII digit. -/
def StartsWithDigit (cs : List Char) : Prop :=
  ∃ d rest, cs = d :: rest ∧ '0' ≤ d ∧ d ≤ '9'

/-- A character that separates items when `after` follows it. -/
def IsSeparator (c : Char) (after : List Char) : Prop :=
  c = ' ' ∨ c = '\t' ∨ c = '\n' ∨ c = '\r' ∨ (c = '.' ∧ ¬ StartsWithDigit after)

/-- A character before which a word ends when `depth` parentheses of the word are open. -/
def Stops (depth : Nat) (c : Char) (after : List Char) : Prop :=
  c ∈ groupBreaks ∨ (depth = 0 ∧ (IsSeparator c after ∨ c = ',' ∨ c = ')'))

/-- Parentheses that are open after a text, when `depth` were open before it. -/
def openAfter (depth : Nat) (cs : List Char) : Nat :=
  depth + cs.count '(' - cs.count ')'

/-- A run of characters up to the first one that stops it. -/
structure Run (depth : Nat) (word after : List Char) : Prop where
  unstopped : ∀ front c back, word = front ++ c :: back →
    ¬ Stops (openAfter depth front) c (back ++ after)
  stopped : ∀ c rest, after = c :: rest → Stops (openAfter depth word) c rest

/-- A word of a pattern before the text `after`. -/
def IsWord (word after : List Char) : Prop :=
  word ≠ [] ∧ Run 0 word after

theorem isDecimalDot_iff (after : List Char) :
    isDecimalDot ('.' :: after) = true ↔ StartsWithDigit after := by
  cases after with
  | nil => simp [isDecimalDot, StartsWithDigit]
  | cons d rest => simp [isDecimalDot, StartsWithDigit, isAsciiDigit]

theorem startsSeparator_iff (c : Char) (after : List Char) :
    startsSeparator (c :: after) = true ↔ IsSeparator c after := by
  by_cases hdot : c = '.'
  · subst hdot
    have hdigit := isDecimalDot_iff after
    cases hcase : isDecimalDot ('.' :: after) <;>
      simp_all [startsSeparator, isSeparatorDot, IsSeparator, whitespace]
  · simp [startsSeparator, isSeparatorDot, IsSeparator, whitespace, hdot]

/-- A character that stands in brackets separates nothing. -/
theorem not_isSeparator_of_mem_groupBreaks {c : Char} (hc : c ∈ groupBreaks) (after : List Char) :
    ¬ IsSeparator c after := by
  simp only [groupBreaks, List.mem_cons, List.not_mem_nil, or_false] at hc
  rcases hc with rfl | rfl | rfl | rfl | rfl | rfl <;> simp [IsSeparator]

theorem Bracket.opener_mem_groupBreaks (b : Bracket) : b.opener ∈ groupBreaks := by
  cases b <;> decide

theorem Bracket.closer_mem_groupBreaks (b : Bracket) : b.closer ∈ groupBreaks := by
  cases b <;> decide

/-- A digit neither ends a word nor separates items. -/
theorem not_stops_of_digit {d : Char} (hlow : '0' ≤ d) (hhigh : d ≤ '9') (depth : Nat)
    (after : List Char) : ¬ Stops depth d after := by
  have hne : ∀ c : Char, ('9' < c ∨ c < '0') → d ≠ c := by
    rintro c hc rfl
    rcases hc with hc | hc
    · exact absurd hhigh (Char.not_le.mpr hc)
    · exact absurd hlow (Char.not_le.mpr hc)
  simp [Stops, IsSeparator, groupBreaks, hne]

/-- Parentheses open after one more character of a word. -/
def openAfterChar (depth : Nat) (c : Char) : Nat :=
  if c = '(' then depth + 1 else if c = ')' then depth - 1 else depth

theorem openAfter_nil (depth : Nat) : openAfter depth [] = depth := by
  simp [openAfter]

/-- Counting from the left is counting all at once, because a parenthesis that closes nothing
stops the word. -/
theorem openAfter_cons {depth : Nat} {c : Char} {after : List Char} (hc : ¬ Stops depth c after)
    (word : List Char) :
    openAfter depth (c :: word) = openAfter (openAfterChar depth c) word := by
  have hpositive : c = ')' → 0 < depth := by
    rintro rfl
    apply Nat.pos_of_ne_zero
    intro hzero
    exact hc (.inr ⟨hzero, .inr (.inr rfl)⟩)
  unfold openAfter openAfterChar
  by_cases hopen : c = '('
  · subst hopen
    simp
    omega
  · by_cases hclose : c = ')'
    · subst hclose
      have := hpositive rfl
      simp
      omega
    · simp [hopen, hclose]

theorem run_nil_iff {depth : Nat} {after : List Char} :
    Run depth [] after ↔ ∀ c rest, after = c :: rest → Stops depth c rest := by
  constructor
  · intro hrun c rest hafter
    simpa [openAfter_nil] using hrun.stopped c rest hafter
  · intro hstop
    refine ⟨fun front c back hsplit => by simp at hsplit, ?_⟩
    intro c rest hafter
    simpa [openAfter_nil] using hstop c rest hafter

theorem run_cons_iff {depth : Nat} {c : Char} {word after : List Char} :
    Run depth (c :: word) after ↔
      ¬ Stops depth c (word ++ after) ∧ Run (openAfterChar depth c) word after := by
  constructor
  · intro hrun
    have hc : ¬ Stops depth c (word ++ after) := by
      simpa [openAfter_nil] using hrun.unstopped [] c word rfl
    refine ⟨hc, ?_, ?_⟩
    · intro front d back hsplit
      rw [← openAfter_cons hc]
      exact hrun.unstopped (c :: front) d back (by rw [hsplit, List.cons_append])
    · intro d rest hafter
      rw [← openAfter_cons hc]
      exact hrun.stopped d rest hafter
  · rintro ⟨hc, hrun⟩
    constructor
    · intro front d back hsplit
      cases front with
      | nil =>
          cases hsplit
          rwa [openAfter_nil]
      | cons e front =>
          cases hsplit
          rw [openAfter_cons hc]
          exact hrun.unstopped front d back rfl
    · intro d rest hafter
      rw [openAfter_cons hc]
      exact hrun.stopped d rest hafter

theorem stops_iff (depth : Nat) (c : Char) (after : List Char) :
    (groupBreaks.contains c ||
      (depth == 0 && (c == ')' || c == ',' || startsSeparator (c :: after)))) = true ↔
      Stops depth c after := by
  simp only [Bool.or_eq_true, Bool.and_eq_true, beq_iff_eq, List.contains_iff_mem,
    startsSeparator_iff, Stops]
  apply or_congr_right
  apply and_congr_right
  intro _
  rw [or_comm, or_comm (a := c = ')')]

/-- The scanner cuts off the run at the front of a text and nothing else. -/
theorem spanWord_eq_iff {depth : Nat} {cs word after : List Char} :
    spanWord depth cs = (word, after) ↔ cs = word ++ after ∧ Run depth word after := by
  induction cs generalizing depth word after with
  | nil =>
      constructor
      · rintro ⟨⟩
        exact ⟨rfl, run_nil_iff.mpr (by simp)⟩
      · rintro ⟨hsplit, -⟩
        obtain ⟨rfl, rfl⟩ := List.append_eq_nil_iff.mp hsplit.symm
        rfl
  | cons c rest ih =>
      have hstop := stops_iff depth c rest
      rw [spanWord]
      by_cases hends : Stops depth c rest
      · rw [if_pos (hstop.mpr hends)]
        constructor
        · rintro ⟨⟩
          refine ⟨rfl, run_nil_iff.mpr ?_⟩
          rintro _ _ ⟨⟩
          exact hends
        · rintro ⟨hsplit, hrun⟩
          cases word with
          | nil => rw [hsplit, List.nil_append]
          | cons d word =>
              cases hsplit
              exact absurd hends (run_cons_iff.mp hrun).1
      · rw [if_neg (fun h => hends (hstop.mp h))]
        change ((c :: (spanWord (openAfterChar depth c) rest).1,
          (spanWord (openAfterChar depth c) rest).2) = (word, after)) ↔ _
        constructor
        · rintro ⟨⟩
          obtain ⟨hsplit, hrun⟩ := ih.mp (Prod.ext rfl rfl)
          rw [List.cons_append, ← hsplit]
          exact ⟨rfl, run_cons_iff.mpr ⟨by rwa [← hsplit], hrun⟩⟩
        · rintro ⟨hsplit, hrun⟩
          cases word with
          | nil =>
              rw [List.nil_append] at hsplit
              exact absurd (run_nil_iff.mp hrun c rest hsplit.symm) hends
          | cons d word =>
              cases hsplit
              rw [ih.mpr ⟨rfl, (run_cons_iff.mp hrun).2⟩]

theorem Run.not_mem_groupBreaks {depth : Nat} {word after : List Char} (hrun : Run depth word after)
    {c : Char} (hc : c ∈ word) : c ∉ groupBreaks := by
  intro hbreak
  obtain ⟨front, back, rfl⟩ := List.append_of_mem hc
  exact hrun.unstopped front c back rfl (.inl hbreak)

/-- A text that is empty or goes on with the closer of a group. -/
def StartsWithCloser (cs : List Char) : Prop :=
  ∀ c rest, cs = c :: rest → ∃ b : Bracket, c = b.closer

/-- A space, a comma or a bracket: a character of no number and no operator, by which a word ends
where no parenthesis is open. -/
def CutsApart (c : Char) : Prop :=
  c = ' ' ∨ c = ',' ∨ c ∈ groupBreaks

/-- A text that is empty or goes on with a character that cuts it off. -/
def StartsApart (cs : List Char) : Prop :=
  ∀ c rest, cs = c :: rest → CutsApart c

theorem StartsWithCloser.startsApart {cs : List Char} (hcs : StartsWithCloser cs) :
    StartsApart cs := by
  intro c rest hcons
  obtain ⟨b, rfl⟩ := hcs c rest hcons
  exact .inr (.inr b.closer_mem_groupBreaks)

theorem CutsApart.startsApart {c : Char} (hc : CutsApart c) (cs : List Char) :
    StartsApart (c :: cs) := by
  rintro _ _ ⟨⟩
  exact hc

/-- A closer stops a word at any depth. -/
theorem StartsWithCloser.stops {cs : List Char} (hcs : StartsWithCloser cs) (depth : Nat)
    (c : Char) (rest : List Char) (hcons : cs = c :: rest) : Stops depth c rest := by
  obtain ⟨b, rfl⟩ := hcs c rest hcons
  exact .inl b.closer_mem_groupBreaks

theorem CutsApart.stops {c : Char} (hc : CutsApart c) (rest : List Char) : Stops 0 c rest := by
  rcases hc with rfl | rfl | hbreak
  · exact .inr ⟨rfl, .inl (.inl rfl)⟩
  · exact .inr ⟨rfl, .inr (.inl rfl)⟩
  · exact .inl hbreak

theorem StartsApart.not_startsWithDigit {cs : List Char} (hcs : StartsApart cs) :
    ¬ StartsWithDigit cs := by
  rintro ⟨d, rest, hcons, hlow, hhigh⟩
  exact not_stops_of_digit hlow hhigh 0 rest ((hcs d rest hcons).stops rest)

theorem startsWithDigit_of_append {front old new : List Char} (hnew : StartsApart new)
    (hdigit : StartsWithDigit (front ++ new)) : StartsWithDigit (front ++ old) := by
  cases front with
  | nil => exact absurd hdigit hnew.not_startsWithDigit
  | cons c front =>
      obtain ⟨d, rest, hcons, hrange⟩ := hdigit
      cases hcons
      exact ⟨c, front ++ old, rfl, hrange⟩

/-- What comes after a separator matters only to a dot, and only by a digit at its front. -/
theorem IsSeparator.of_imp {c : Char} {old new : List Char}
    (hdigit : StartsWithDigit new → StartsWithDigit old) (hc : IsSeparator c old) :
    IsSeparator c new := by
  rcases hc with rfl | rfl | rfl | rfl | ⟨rfl, hdot⟩
  · simp [IsSeparator]
  · simp [IsSeparator]
  · simp [IsSeparator]
  · simp [IsSeparator]
  · simpa [IsSeparator] using fun hnew => hdot (hdigit hnew)

/-- A separator stays one when the text after it is cut off, and goes on apart. -/
theorem IsSeparator.exchange {c : Char} {front old new : List Char} (hnew : StartsApart new)
    (hc : IsSeparator c (front ++ old)) : IsSeparator c (front ++ new) :=
  hc.of_imp (startsWithDigit_of_append hnew)

theorem Stops.exchange {depth : Nat} {c : Char} {front old new : List Char}
    (hnew : StartsApart new) (hc : Stops depth c (front ++ old)) :
    Stops depth c (front ++ new) := by
  rcases hc with hbreak | ⟨hdepth, hseparator | hrest⟩
  · exact .inl hbreak
  · exact .inr ⟨hdepth, .inl (hseparator.exchange hnew)⟩
  · exact .inr ⟨hdepth, .inr hrest⟩

/-- A run stays one when the text after it is cut off, and goes on apart with what stops it. The old
text did not start with a digit, or else the run would have gone on, so a dot at its end separates
in neither. -/
theorem Run.exchange {depth : Nat} {word front old new : List Char} (hnew : StartsApart new)
    (hend : front = [] → ∀ c rest, new = c :: rest → Stops (openAfter depth word) c rest)
    (hrun : Run depth word (front ++ old)) : Run depth word (front ++ new) := by
  have hold : ¬ StartsWithDigit (front ++ old) := by
    rintro ⟨d, rest, hcons, hlow, hhigh⟩
    exact not_stops_of_digit hlow hhigh _ rest (hrun.stopped d rest hcons)
  constructor
  · intro before c back hsplit hstop
    apply hrun.unstopped before c back hsplit
    rcases hstop with hbreak | ⟨hdepth, hseparator | hrest⟩
    · exact .inl hbreak
    · refine .inr ⟨hdepth, .inl (hseparator.of_imp ?_)⟩
      rintro ⟨d, rest, hcons, hrange⟩
      cases back with
      | nil => exact absurd ⟨d, rest, hcons, hrange⟩ hold
      | cons e back =>
          cases hcons
          exact ⟨d, back ++ (front ++ new), rfl, hrange⟩
    · exact .inr ⟨hdepth, .inr hrest⟩
  · intro c rest hcons
    cases front with
    | nil => exact hend rfl c rest hcons
    | cons d front =>
        cases hcons
        exact (hrun.stopped c (front ++ old) rfl).exchange hnew

theorem IsWord.exchange {word front old new : List Char} (hnew : StartsApart new)
    (hend : front = [] → ∀ c rest, new = c :: rest → Stops (openAfter 0 word) c rest)
    (hword : IsWord word (front ++ old)) : IsWord word (front ++ new) :=
  ⟨hword.1, hword.2.exchange hnew hend⟩

end CyclePattern
