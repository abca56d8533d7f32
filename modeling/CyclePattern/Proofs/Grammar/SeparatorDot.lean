/-
# Dots that separate items

A dot that no ASCII digit follows separates items as a space does: with a space in its place the
text has the same tokens at the same offsets, up to the character of one separator, and the reading
comes to the same. This holds of every text, whether it can be read or not.

Two places are left out. Inside the parentheses of a word a dot is a character like any other. And
the number after a group takes a dot with a digit of any script after it, so there a dot may belong
to a number although no ASCII digit follows; words end at such a dot. With a space in this place the
group ends earlier, and the tree is never the same.
-/

import CyclePattern.Proofs.Grammar.Presence

namespace CyclePattern

open Text

namespace Token

variable {t : Token} {ts before later : List Token} {i k : Nat}

/-- The token that a character belongs to, and the place of the character in it. -/
def at? : List Token → Nat → Option (Token × Nat)
  | [], _ => none
  | t :: ts, i => if i < t.text.length then some (t, i) else at? ts (i - t.text.length)

theorem exists_of_at? (hat : at? ts i = some (t, k)) :
    ∃ before later, ts = before ++ t :: later ∧ i = (textOf before).length + k ∧
      k < t.text.length := by
  induction ts generalizing i with
  | nil => cases hat
  | cons u ts ih =>
      rw [at?] at hat
      split at hat
      · next hhead =>
          cases hat
          exact ⟨[], ts, rfl, by simp, hhead⟩
      · next hlater =>
          obtain ⟨before, later, rfl, hplace, hk⟩ := ih hat
          refine ⟨u :: before, later, rfl, ?_, hk⟩
          rw [textOf_cons, List.length_append]
          omega

/-- Every character belongs to a token. -/
theorem exists_at? (hi : i < (textOf ts).length) : ∃ t k, at? ts i = some (t, k) := by
  induction ts generalizing i with
  | nil => cases hi
  | cons t ts ih =>
      by_cases hhead : i < t.text.length
      · exact ⟨t, i, if_pos hhead⟩
      · rw [textOf_cons, List.length_append] at hi
        obtain ⟨u, k, hat⟩ := ih (i := i - t.text.length) (by omega)
        exact ⟨u, k, by rw [at?, if_neg hhead, hat]⟩

/-- From a character on, a text goes on with the rest of its token, and the text of those after it,
before which the token stands. -/
theorem drop_eq_of_at? {cs : List Char} (hat : at? (tokens cs) i = some (t, k)) :
    ∃ before later, tokens cs = before ++ t :: later ∧ i = (textOf before).length + k ∧
      k < t.text.length ∧ cs.drop i = t.text.drop k ++ textOf later ∧
      t.Stands (textOf later) := by
  obtain ⟨htext, hlegible⟩ := tokens_eq_iff.mp (rfl : tokens cs = tokens cs)
  obtain ⟨before, later, htokens, rfl, hk⟩ := exists_of_at? hat
  refine ⟨before, later, htokens, rfl, hk, ?_, ?_⟩
  · conv_lhs => rw [← htext, htokens]
    rw [textOf_append, textOf_cons, List.drop_length_add_append]
    exact List.drop_append_of_le_length hk.le
  · rw [htokens] at hlegible
    obtain ⟨-, ht, -⟩ := legible_append_iff.mp hlegible
    rwa [List.append_nil] at ht

end Token

open Token

/-- Whether the character stands inside parentheses of a word. -/
def InsideParentheses (cs : List Char) (i : Nat) : Prop :=
  ∃ word k, at? (tokens cs) i = some (.word word, k) ∧ 0 < openAfter 0 (word.take k)

/-- Whether the character belongs to the operator or the number after a group. -/
def InsideGroupNumber (cs : List Char) (i : Nat) : Prop :=
  ∃ b m k, at? (tokens cs) i = some (.closing b m, k) ∧ 0 < k

theorem exists_cons_of_lt_length {cs : List Char} {k : Nat} (hk : k < cs.length) :
    ∃ c back, cs.drop k = c :: back ∧ cs = cs.take k ++ c :: back := by
  have hdrop := List.drop_eq_getElem_cons hk
  exact ⟨cs[k], cs.drop (k + 1), hdrop, by rw [← hdrop, List.take_append_drop]⟩

/-- Which character separates items makes no difference. -/
theorem Reading.ofTokens_separator (limit : Int) (depth : Nat) (p : Progress) (c d : Char)
    (before later : List Token) :
    ofTokens limit depth p (before ++ .separator c :: later) =
      ofTokens limit depth p (before ++ .separator d :: later) := by
  induction before generalizing p with
  | nil => rfl
  | cons t before ih =>
      simp only [List.cons_append, ofTokens]
      cases p.step limit depth t with
      | ok next => exact ih next
      | error stop => rfl

/-- A word before a separator has no parenthesis open. -/
theorem openAfter_eq_zero_of_separator {c : Char} {word rest : List Char} {ts : List Token}
    (hc : IsSeparator c rest) (hlast : ts.getLast? = some (.word word))
    (hts : Legible (c :: rest) ts) : openAfter 0 word = 0 := by
  obtain ⟨front, rfl⟩ := List.getLast?_eq_some_iff.mp hlast
  obtain ⟨-, ⟨-, hrun⟩, -⟩ := legible_append_iff.mp hts
  rcases hrun.stopped c rest rfl with hbreak | ⟨hzero, -⟩
  · exact absurd hc (not_isSeparator_of_mem_groupBreaks hbreak rest)
  · exact hzero

/-- A separator in a word stands inside its parentheses. -/
theorem Run.openAfter_pos {depth : Nat} {c : Char} {word front back after : List Char}
    (hrun : Run depth word after) (hword : word = front ++ c :: back)
    (hc : IsSeparator c (back ++ after)) : 0 < openAfter depth front := by
  apply Nat.pos_of_ne_zero
  intro hzero
  exact hrun.unstopped front c back hword (.inr ⟨hzero, .inl hc⟩)

/-- A space may take the place of a separator. -/
theorem tokens_set_separator {cs : List Char} {before later : List Token} {c : Char}
    (htokens : tokens cs = before ++ .separator c :: later) :
    tokens (cs.set (textOf before).length ' ') = before ++ .separator ' ' :: later := by
  obtain ⟨rfl, hlegible⟩ := tokens_eq_iff.mp htokens
  obtain ⟨hbefore, hc, hlater⟩ := legible_append_iff.mp hlegible
  apply tokens_eq_iff.mpr
  constructor
  · simp [text]
  · refine legible_append_iff.mpr ⟨?_, .inl rfl, hlater⟩
    apply hbefore.exchange_apart (.inl rfl)
    intro word hlast
    exact openAfter_eq_zero_of_separator hc hlast hbefore

theorem isSeparatorDot_iff (cs : List Char) :
    isSeparatorDot cs = true ↔ ∃ rest, cs = '.' :: rest ∧ ¬ StartsWithDigit rest := by
  unfold isSeparatorDot
  split
  · next rest =>
      have hdecimal := isDecimalDot_iff rest
      cases hcase : isDecimalDot ('.' :: rest) <;> simp_all
  · next hnone =>
      refine iff_of_false Bool.false_ne_true ?_
      rintro ⟨rest, rfl, -⟩
      exact hnone rest rfl

/-- Outside parentheses and outside the numbers after groups, a dot that no digit follows is a
separator. -/
theorem exists_separator_of_isSeparatorDot {cs : List Char} {i : Nat}
    (hdot : isSeparatorDot (cs.drop i) = true) (hparenthesis : ¬ InsideParentheses cs i)
    (hnumber : ¬ InsideGroupNumber cs i) :
    ∃ before later, tokens cs = before ++ .separator '.' :: later ∧
      i = (textOf before).length := by
  obtain ⟨rest, hdrop, hdigit⟩ := (isSeparatorDot_iff _).mp hdot
  have hi : i < (textOf (tokens cs)).length := by
    rw [(tokens_eq_iff.mp rfl).1]
    exact List.length_lt_of_drop_ne_nil (by simp [hdrop])
  obtain ⟨t, k, hat⟩ := exists_at? hi
  obtain ⟨before, later, htokens, rfl, hk, hplace, ht⟩ := drop_eq_of_at? hat
  rw [hdrop] at hplace
  cases t with
  | separator c =>
      obtain rfl : k = 0 := by simpa [text] using hk
      obtain ⟨rfl, -⟩ : c = '.' ∧ _ := by simpa [text, eq_comm] using hplace
      exact ⟨before, later, htokens, rfl⟩
  | word word =>
      -- A dot that ends words where no parenthesis is open is not in one.
      have hlength : k < word.length := hk
      have hopen : 0 < openAfter 0 (word.take k) := by
        obtain ⟨d, back, hback, hsplit⟩ := exists_cons_of_lt_length hlength
        obtain ⟨rfl, rfl⟩ : '.' = d ∧ rest = back ++ textOf later := by
          simpa [text, hback] using hplace
        exact ht.2.openAfter_pos hsplit (.inr (.inr (.inr (.inr ⟨rfl, hdigit⟩))))
      exact absurd ⟨word, k, hat, hopen⟩ hparenthesis
  | opening b =>
      obtain rfl : k = 0 := by simpa [text] using hk
      cases b <;> simp [text, Bracket.opener] at hplace
  | closing b m =>
      rcases Nat.eq_zero_or_pos k with rfl | hpos
      · cases b <;> simp [text, Bracket.closer] at hplace
      · exact absurd ⟨b, m, k, hat, hpos⟩ hnumber
  | comma =>
      obtain rfl : k = 0 := by simpa [text] using hk
      simp [text] at hplace
  | strayParenthesis =>
      obtain rfl : k = 0 := by simpa [text] using hk
      simp [text] at hplace

/-- A dot in the number after a group stands before a decimal digit. One that separates items by its
looks stands there before a digit that is not ASCII. -/
theorem InsideGroupNumber.exists_digit {cs rest : List Char} {i : Nat}
    (hnumber : InsideGroupNumber cs i) (hdrop : cs.drop i = '.' :: rest) :
    ∃ d back, rest = d :: back ∧ isDecimal d = true := by
  obtain ⟨b, m, k, hat, hpos⟩ := hnumber
  obtain ⟨before, later, -, rfl, hplace, hrest, ht⟩ := drop_eq_of_at? hat
  rw [hdrop] at hrest
  cases m with
  | none =>
      simp only [text, List.length_singleton] at hplace
      omega
  | some m =>
      obtain ⟨place, rfl⟩ := Nat.exists_eq_succ_of_ne_zero hpos.ne'
      cases place with
      | zero =>
          obtain ⟨hoperator, -⟩ : '.' = m.operator ∧ _ := by
            simpa [text, GroupModifier.text] using hrest
          rcases Bracket.operator_of_mem ht.operator with hother | hother | hother <;>
            simp [hother] at hoperator
      | succ n =>
          have hn : n < m.number.text.length := by
            simpa [text, GroupModifier.text] using hplace
          obtain ⟨d, back, hback, hsplit⟩ := exists_cons_of_lt_length hn
          obtain ⟨rfl, rfl⟩ : '.' = d ∧ rest = back ++ textOf later := by
            simpa [text, GroupModifier.text, hback] using hrest
          obtain ⟨hne, hdigits⟩ := Numeral.isDigits_after_dot ht.number.wellFormed hsplit
          obtain ⟨e, tail, rfl⟩ := List.exists_cons_of_ne_nil hne
          exact ⟨e, tail ++ textOf later, rfl, hdigits e List.mem_cons_self⟩

theorem Placed.framed {cs : List Char} {b : Bracket} {groups : List (List (Node Float))}
    {settings : GroupSettings} {span : Span} (hplaced : Placed cs (groupNode b groups settings span)) :
    ∃ s c, Framed cs b (groupNode b groups settings span) s c := by
  cases b
  all_goals
    obtain ⟨s, c, hframed, -⟩ := hplaced
    exact ⟨s, c, hframed⟩

theorem span?_groupNode (b : Bracket) (groups : List (List (Node Float)))
    (settings : GroupSettings) (span : Span) :
    (groupNode b groups settings span).span? = some span := by
  cases b <;> rfl

theorem mem_slice {cs : List Char} {i start stop : Nat} {c : Char} (hc : cs[i]? = some c)
    (hstart : start ≤ i) (hstop : i < stop) : c ∈ slice cs start stop := by
  apply List.mem_of_getElem? (i := i - start)
  rw [slice, List.getElem?_take_of_lt (by omega), List.getElem?_drop, Nat.add_sub_cancel' hstart]
  exact hc

/-- No group ends where a closer and its modifier did, once a space stands in the modifier. The space
is in no modifier, and nothing else in the modifier is a closer. -/
theorem not_delimits_of_space {cs : List Char} {b other : Bracket} {m : GroupModifier}
    {o i s c : Nat} (hm : m.WellFormed b)
    (hslice : slice cs (o + 1) (o + 1 + m.text.length) = m.text) (hlow : o < i)
    (hhigh : i < o + 1 + m.text.length) :
    ¬ Delimits (cs.set i ' ') other s c (o + 1 + m.text.length) := by
  rintro ⟨-, hcloser, ⟨-, hend, hlength⟩, found, hfound, hfits⟩
  rw [List.length_set] at hlength
  have hspace : (cs.set i ' ')[i]? = some ' ' := List.getElem?_set_self (by omega)
  rcases Nat.lt_trichotomy c i with hbefore | rfl | hafter
  · have hmem := mem_slice hspace hbefore hhigh
    rw [hfound] at hmem
    cases found with
    | none => cases hmem
    | some x => exact GroupModifier.not_cutsApart (hfits x rfl).wellFormed hmem (.inl rfl)
  · rw [hspace] at hcloser
    cases other <;> cases hcloser
  · rw [List.getElem?_set_ne (by omega)] at hcloser
    have hmem := mem_slice hcloser (by omega : o + 1 ≤ c) hend
    rw [hslice] at hmem
    exact GroupModifier.not_mem_groupBreaks hm hmem other.closer_mem_groupBreaks

theorem Token.Occur.slice_modifier {cs : List Char} {b : Bracket} {m : GroupModifier} {o : Nat}
    (hoccur : Occur cs o [.closing b (some m)]) :
    slice cs (o + 1) (o + 1 + m.text.length) = m.text ∧ m.WellFormed b := by
  obtain ⟨hdrop, hstands, -⟩ := hoccur.drop_eq
  refine ⟨?_, hstands.wellFormed⟩
  have htail := congrArg List.tail hdrop
  rw [List.tail_drop] at htail
  rw [slice, Nat.add_sub_cancel_left, htail]
  simp [text]

namespace Reading

/-- A dot that separates items may be replaced by a space: the reading comes to the same, with the
same offsets. -/
theorem ofText_set_separatorDot {cs : List Char} {i : Nat} (limit : Int) (depth offset : Nat)
    (hdot : isSeparatorDot (cs.drop i) = true) (hparenthesis : ¬ InsideParentheses cs i)
    (hnumber : ¬ InsideGroupNumber cs i) :
    ofText limit depth offset (cs.set i ' ') = ofText limit depth offset cs := by
  obtain ⟨before, later, htokens, rfl⟩ :=
    exists_separator_of_isSeparatorDot hdot hparenthesis hnumber
  rw [ofText, ofText, tokens_set_separator htokens, htokens]
  exact ofTokens_separator limit depth (.start offset) ' ' '.' before later

/-- A space in the number after a group changes the tree: the group ends somewhere else. -/
theorem result_set_of_insideGroupNumber {limit : Int} {cs : List Char} {i : Nat}
    {items : List (Node Float)} (hresult : (ofText limit 0 0 cs).result = .ok items)
    (hnumber : InsideGroupNumber cs i) : (ofText limit 0 0 (cs.set i ' ')).result ≠ .ok items := by
  intro hsame
  obtain ⟨b, m, k, hat, hpos⟩ := hnumber
  obtain ⟨before, later, htokens, rfl, hk, -, -⟩ := drop_eq_of_at? hat
  obtain ⟨groups, settings, start, hholds⟩ := exists_holds_of_closing hresult htokens
  obtain ⟨s, c, hframed⟩ := (placed_of_result hsame hholds).framed
  obtain ⟨e, hspan, hdelimits⟩ := hframed.delimits
  rw [span?_groupNode] at hspan
  obtain ⟨-, rfl⟩ := Piece.between_injective hspan
  cases m with
  | none =>
      simp only [text, List.length_singleton] at hk
      omega
  | some m =>
      have hoccur : Occur cs (textOf before).length [.closing b (some m)] :=
        ⟨before, later, htokens, rfl⟩
      obtain ⟨hslice, hm⟩ := hoccur.slice_modifier
      have hlength : (Token.closing b (some m)).text.length = 1 + m.text.length := by
        simp [text, Nat.add_comm]
      rw [hlength] at hk
      rw [hlength, ← Nat.add_assoc] at hdelimits
      exact not_delimits_of_space hm hslice (by omega) (by omega) hdelimits

/-- In a text that is read, a dot that no ASCII digit follows may be replaced by a space outside
parentheses: the tree is the same, offsets included. This fails just where the dot belongs to the
number after a group. -/
theorem result_set_separatorDot_iff {limit : Int} {cs : List Char} {i : Nat}
    {items : List (Node Float)} (hresult : (ofText limit 0 0 cs).result = .ok items)
    (hdot : isSeparatorDot (cs.drop i) = true) (hparenthesis : ¬ InsideParentheses cs i) :
    (ofText limit 0 0 (cs.set i ' ')).result = .ok items ↔ ¬ InsideGroupNumber cs i := by
  constructor
  · intro hsame hnumber
    exact result_set_of_insideGroupNumber hresult hnumber hsame
  · intro hnumber
    rw [ofText_set_separatorDot limit 0 0 hdot hparenthesis hnumber]
    exact hresult

/-- After the count of a group a dot before a letter is as good as a space. -/
theorem result_set_separatorDot_iff_of_letter :
    (ofText 64 0 0 ['[', 'a', ']', '*', '2', ' ', 'b']).result =
      (ofText 64 0 0 ['[', 'a', ']', '*', '2', '.', 'b']).result ∧
    ∃ items, (ofText 64 0 0 ['[', 'a', ']', '*', '2', '.', 'b']).result = .ok items := by
  have htokens : tokens ['[', 'a', ']', '*', '2', '.', 'b'] =
      [.opening .square, .word ['a'],
        .closing .square (some ⟨'*', .repeats, ⟨false, ['2'], none⟩⟩), .separator '.',
        .word ['b']] := by
    decide +kernel
  have hat : at? (tokens ['[', 'a', ']', '*', '2', '.', 'b']) 5 = some (.separator '.', 0) := by
    rw [htokens]
    rfl
  have hparenthesis : ¬ InsideParentheses ['[', 'a', ']', '*', '2', '.', 'b'] 5 := by
    rintro ⟨word, k, hword, -⟩
    cases hat.symm.trans hword
  have hnumber : ¬ InsideGroupNumber ['[', 'a', ']', '*', '2', '.', 'b'] 5 := by
    intro hinside
    obtain ⟨d, back, hrest, hdigit⟩ := hinside.exists_digit rfl
    cases hrest
    exact absurd hdigit (by decide)
  have hresult : (ofText 64 0 0 ['[', 'a', ']', '*', '2', '.', 'b']).result =
      .ok [.subdivision (.sequence [(Word.read ['a'] 1).value]) (some 2) none none (.between 0 5),
        (Word.read ['b'] 6).value] := by
    rw [ofText, htokens]
    simp (disch := decide) only [ofTokens, Progress.step_word]
    rfl
  refine ⟨?_, _, hresult⟩
  rw [hresult]
  exact (result_set_separatorDot_iff hresult (by decide) hparenthesis).mpr hnumber

/-- The group `[a]*2.٣` takes the dot into its number, since a digit that is not ASCII follows. With
a space in place of the dot there are two items and not one. -/
theorem ofText_set_dot_of_number :
    isSeparatorDot (['[', 'a', ']', '*', '2', '.', '٣'].drop 5) = true ∧
      ¬ InsideParentheses ['[', 'a', ']', '*', '2', '.', '٣'] 5 ∧
      ∃ items, (ofText 64 0 0 ['[', 'a', ']', '*', '2', '.', '٣']).result = .ok items ∧
        (ofText 64 0 0 (['[', 'a', ']', '*', '2', '.', '٣'].set 5 ' ')).result ≠ .ok items := by
  have htokens : tokens ['[', 'a', ']', '*', '2', '.', '٣'] =
      [.opening .square, .word ['a'],
        .closing .square (some ⟨'*', .repeats, ⟨false, ['2'], some ['٣']⟩⟩)] := by
    decide +kernel
  have hspaced : tokens ['[', 'a', ']', '*', '2', ' ', '٣'] =
      [.opening .square, .word ['a'],
        .closing .square (some ⟨'*', .repeats, ⟨false, ['2'], none⟩⟩), .separator ' ',
        .word ['٣']] := by
    decide +kernel
  refine ⟨by decide, ?_, ?_⟩
  · rintro ⟨word, k, hword, -⟩
    rw [htokens] at hword
    cases hword
  · refine ⟨[.subdivision (.sequence [(Word.read ['a'] 1).value]) none none none
      (.between 0 7)], ?_, ?_⟩
    · rw [ofText, htokens]
      simp (disch := decide) only [ofTokens, Progress.step_word]
      rfl
    · show (ofText 64 0 0 ['[', 'a', ']', '*', '2', ' ', '٣']).result ≠ _
      rw [ofText, hspaced]
      intro hsame
      have hlength := congrArg (fun result => result.toOption.map List.length) hsame
      exact absurd hlength (by decide +kernel)

end Reading

end CyclePattern
