/-
# Tokens as a relation to the text

A list of tokens is legible when each token may stand where it stands, given the text of those
after it. The main statement says that cutting a text into tokens finds the one legible list whose
text it is: nothing is lost, and no other way to cut the text exists.

Legibility looks ahead, since a word, a dot and a number after a closer all end by what follows
them. Cutting a legible list off and going on with the closers of groups, or with a space or a
comma, keeps it legible.
-/

import CyclePattern.Proofs.Lexing.Numeral
import CyclePattern.Proofs.Lexing.Word

namespace CyclePattern

open Text

/-- An operator that the bracket takes, with a number directly after it. -/
structure GroupModifier.WellFormed (b : Bracket) (m : GroupModifier) : Prop where
  operator : (m.operator, m.field) ∈ b.operators
  number : m.number.WellFormed

/-- A modifier whose number is the longest one before the text `after`. -/
structure GroupModifier.Fits (b : Bracket) (m : GroupModifier) (after : List Char) : Prop where
  operator : (m.operator, m.field) ∈ b.operators
  number : m.number.Longest after

theorem GroupModifier.Fits.wellFormed {b : Bracket} {m : GroupModifier} {after : List Char}
    (hfits : m.Fits b after) : m.WellFormed b :=
  ⟨hfits.operator, hfits.number.wellFormed⟩

theorem Bracket.lookup_operators_iff {b : Bracket} {c : Char} {field : GroupField} :
    b.operators.lookup c = some field ↔ (c, field) ∈ b.operators := by
  cases b <;> simp only [operators, List.lookup_cons, List.lookup_nil, List.mem_cons,
    Prod.mk.injEq, List.not_mem_nil]
  all_goals grind

theorem Bracket.operator_of_mem {b : Bracket} {c : Char} {field : GroupField}
    (hc : (c, field) ∈ b.operators) : c = '*' ∨ c = '/' ∨ c = '%' := by
  cases b <;> simp only [operators, List.mem_cons, Prod.mk.injEq, List.not_mem_nil] at hc
  all_goals grind

/-- Only digits, the sign and the point stand in a number. -/
theorem Numeral.not_mem_text {x : Numeral} (hx : x.WellFormed) {c : Char}
    (hdigit : isDecimal c = false) (hminus : c ≠ '-') (hdot : c ≠ '.') : c ∉ x.text := by
  intro hc
  have hdigits : ∀ digits, IsDigits digits → c ∉ digits := by
    intro digits hall hmem
    simpa [hdigit] using hall.2 c hmem
  rw [text_eq] at hc
  simp only [List.mem_append] at hc
  rcases hc with hsign | hwhole | hfraction
  · cases hneg : x.negative <;> simp [hneg, hminus] at hsign
  · exact hdigits _ hx.whole hwhole
  · cases hcase : x.fraction with
    | none => simp [hcase, fractionText] at hfraction
    | some digits =>
        simp only [hcase, fractionText, List.mem_cons, hdot, false_or] at hfraction
        exact hdigits _ (hx.fraction digits hcase) hfraction

/-- No character of a number cuts it off. -/
theorem Numeral.not_cutsApart {x : Numeral} (hx : x.WellFormed) {c : Char} (hc : c ∈ x.text) :
    ¬ CutsApart c := by
  intro hcuts
  have hplain : isDecimal c = false ∧ c ≠ '-' ∧ c ≠ '.' := by
    simp only [CutsApart, groupBreaks, List.mem_cons, List.not_mem_nil, or_false] at hcuts
    rcases hcuts with rfl | rfl | rfl | rfl | rfl | rfl | rfl | rfl <;> decide
  exact not_mem_text hx hplain.1 hplain.2.1 hplain.2.2 hc

/-- No character of a modifier cuts it off. -/
theorem GroupModifier.not_cutsApart {b : Bracket} {m : GroupModifier} (hm : m.WellFormed b)
    {c : Char} (hc : c ∈ m.text) : ¬ CutsApart c := by
  rw [text, List.mem_cons] at hc
  rcases hc with rfl | hnumber
  · rcases Bracket.operator_of_mem hm.operator with hoperator | hoperator | hoperator
    all_goals
      rw [hoperator]
      simp [CutsApart, groupBreaks]
  · exact Numeral.not_cutsApart hm.number hnumber

theorem GroupModifier.not_mem_groupBreaks {b : Bracket} {m : GroupModifier}
    (hm : m.WellFormed b) {c : Char} (hc : c ∈ m.text) : c ∉ groupBreaks :=
  fun hbreak => not_cutsApart hm hc (.inr (.inr hbreak))

/-- Text at the front of another one ends before a character that it does not have. -/
theorem isPrefix_of_not_mem {cs front new : List Char}
    (hnew : ∀ c rest, new = c :: rest → c ∉ cs) (hfront : cs <+: front ++ new) : cs <+: front := by
  obtain ⟨rest, hsplit⟩ := hfront
  rcases List.append_eq_append_iff.mp hsplit with ⟨tail, rfl, -⟩ | ⟨tail, rfl, htail⟩
  · exact List.prefix_append cs tail
  · cases tail with
    | nil => simp
    | cons c tail => exact absurd (by simp) (hnew c (tail ++ rest) htail)

/-- A text that nothing cuts, at the front of another one, ends before what stands apart. -/
theorem isPrefix_of_startsApart {cs front new : List Char} (hnew : StartsApart new)
    (hcs : ∀ c ∈ cs, ¬ CutsApart c) (hfront : cs <+: front ++ new) : cs <+: front :=
  isPrefix_of_not_mem (fun c rest hcons hc => hcs c hc (hnew c rest hcons)) hfront

/-- A number stays the longest one when the text after it is cut off, and goes on apart. -/
theorem Numeral.Longest.exchange {x : Numeral} {front old new : List Char}
    (hnew : StartsApart new) (hx : x.Longest (front ++ old)) : x.Longest (front ++ new) := by
  refine ⟨hx.wellFormed, ?_⟩
  intro y hy hfront
  apply hx.maximal y hy
  rw [← List.append_assoc] at hfront ⊢
  have hshort := isPrefix_of_startsApart hnew (fun c hc => Numeral.not_cutsApart hy hc) hfront
  exact hshort.trans (List.prefix_append _ old)

namespace Token

/-- What is read after a closer is the modifier with the longest number, if one stands there. -/
theorem readGroupModifier_eq_some_iff {b : Bracket} {m : GroupModifier} {cs rest : List Char} :
    readGroupModifier b cs = (some m, rest) ↔ cs = m.text ++ rest ∧ m.Fits b rest := by
  constructor
  · intro hread
    cases cs with
    | nil => cases hread
    | cons c tail =>
        simp only [readGroupModifier] at hread
        split at hread
        · cases hread
        · next field hfield =>
            rw [Bracket.lookup_operators_iff] at hfield
            split at hread
            · cases hread
            · next number after hnumber =>
                cases hread
                obtain ⟨rfl, hlongest⟩ := Numeral.read?_eq_some_iff.mp hnumber
                exact ⟨rfl, hfield, hlongest⟩
  · rintro ⟨rfl, hfits⟩
    show readGroupModifier b (m.operator :: (m.number.text ++ rest)) = (some m, rest)
    simp only [readGroupModifier, Bracket.lookup_operators_iff.mpr hfits.operator,
      Numeral.read?_eq_some_iff.mpr ⟨rfl, hfits.number⟩]

/-- Nothing is read after a closer exactly when no modifier stands there. -/
theorem readGroupModifier_eq_none_iff {b : Bracket} {cs rest : List Char} :
    readGroupModifier b cs = (none, rest) ↔
      rest = cs ∧ ∀ m : GroupModifier, m.WellFormed b → ¬ m.text <+: cs := by
  have hnone : ∀ after, readGroupModifier b cs = (none, after) →
      after = cs ∧ ∀ m : GroupModifier, m.WellFormed b → ¬ m.text <+: cs := by
    intro after hread
    cases cs with
    | nil =>
        cases hread
        exact ⟨rfl, by simp [GroupModifier.text]⟩
    | cons c tail =>
        simp only [readGroupModifier] at hread
        split at hread
        · next hlookup =>
            cases hread
            refine ⟨rfl, ?_⟩
            intro m hm hfront
            obtain ⟨rfl, -⟩ := List.cons_prefix_cons.mp hfront
            rw [Bracket.lookup_operators_iff.mpr hm.operator] at hlookup
            contradiction
        · split at hread
          · next hnumber =>
              cases hread
              refine ⟨rfl, ?_⟩
              intro m hm hfront
              exact Numeral.read?_eq_none_iff.mp hnumber m.number hm.number
                (List.cons_prefix_cons.mp hfront).2
          · cases hread
  constructor
  · exact hnone rest
  · rintro ⟨rfl, habsent⟩
    cases hread : readGroupModifier b rest with
    | mk modifier after =>
        cases modifier with
        | none => rw [(hnone after hread).1]
        | some m =>
            obtain ⟨hsplit, hfits⟩ := readGroupModifier_eq_some_iff.mp hread
            exact absurd (hsplit ▸ List.prefix_append m.text after) (habsent m hfits.wellFormed)

/-- Whether a token may stand before the text `after`. A closer without a modifier may not stand
before one. -/
def Stands (after : List Char) : Token → Prop
  | separator c => IsSeparator c after
  | word cs => IsWord cs after
  | opening _ => True
  | closing b none => ∀ m : GroupModifier, m.WellFormed b → ¬ m.text <+: after
  | closing b (some m) => m.Fits b after
  | comma => True
  | strayParenthesis => True

/-- The characters of some tokens. -/
def textOf (ts : List Token) : List Char :=
  ts.flatMap text

/-- Whether every token may stand before the text of those after it, and then `after`. -/
def Legible (after : List Char) : List Token → Prop
  | [] => True
  | t :: ts => t.Stands (textOf ts ++ after) ∧ Legible after ts

@[simp]
theorem textOf_nil : textOf [] = [] :=
  rfl

@[simp]
theorem textOf_cons (t : Token) (ts : List Token) : textOf (t :: ts) = t.text ++ textOf ts :=
  rfl

@[simp]
theorem textOf_append (ts us : List Token) : textOf (ts ++ us) = textOf ts ++ textOf us := by
  simp [textOf]

theorem legible_append_iff {after : List Char} {ts us : List Token} :
    Legible after (ts ++ us) ↔ Legible (textOf us ++ after) ts ∧ Legible after us := by
  induction ts with
  | nil => simp [Legible]
  | cons t ts ih => simp [Legible, ih, and_assoc]

/-- Each of some legible tokens stands before something. -/
theorem Legible.stands_of_mem {after : List Char} {t : Token} {ts : List Token}
    (hts : Legible after ts) (ht : t ∈ ts) : ∃ next, t.Stands next := by
  induction ts with
  | nil => cases ht
  | cons u us ih =>
      rcases List.mem_cons.mp ht with rfl | hrest
      · exact ⟨_, hts.1⟩
      · exact ih hts.2 hrest

theorem text_ne_nil_of_stands {t : Token} {after : List Char} (ht : t.Stands after) :
    t.text ≠ [] := by
  cases t with
  | word cs => exact ht.1
  | _ => simp [text]

/-! ## Cutting a text into tokens -/

theorem ofOpener?_opener (b : Bracket) : Bracket.ofOpener? b.opener = some b := by
  cases b <;> decide

theorem ofOpener?_closer (b : Bracket) : Bracket.ofOpener? b.closer = none := by
  cases b <;> decide

theorem ofCloser?_closer (b : Bracket) : Bracket.ofCloser? b.closer = some b := by
  cases b <;> decide

theorem opener_of_ofOpener? {c : Char} {b : Bracket} (hc : Bracket.ofOpener? c = some b) :
    c = b.opener := by
  have hfound := List.find?_some hc
  exact (beq_iff_eq.mp hfound).symm

theorem closer_of_ofCloser? {c : Char} {b : Bracket} (hc : Bracket.ofCloser? c = some b) :
    c = b.closer := by
  have hfound := List.find?_some hc
  exact (beq_iff_eq.mp hfound).symm

/-- A character that is in no bracket is neither an opener nor a closer. -/
theorem not_mem_groupBreaks_iff {c : Char} :
    c ∉ groupBreaks ↔ Bracket.ofOpener? c = none ∧ Bracket.ofCloser? c = none := by
  simp only [groupBreaks, Bracket.ofOpener?, Bracket.ofCloser?, Bracket.all, List.find?_eq_none,
    List.mem_cons, List.not_mem_nil, or_false, not_or, forall_eq_or_imp, forall_eq, beq_iff_eq,
    Bracket.opener, Bracket.closer]
  grind

/-- Parentheses that are open after the first character of a word. -/
theorem openAfterChar_zero (c : Char) : openAfterChar 0 c = if c = '(' then 1 else 0 := by
  by_cases hopen : c = '(' <;> simp [openAfterChar, hopen]

/-- What stands first is no separator if it is a comma, a parenthesis or a bracket. -/
theorem startsSeparator_eq_false {c : Char} (hc : c = ',' ∨ c = ')' ∨ c ∈ groupBreaks)
    (rest : List Char) : startsSeparator (c :: rest) = false := by
  rw [← Bool.not_eq_true, startsSeparator_iff]
  rcases hc with rfl | rfl | hbreak
  · simp [IsSeparator]
  · simp [IsSeparator]
  · exact not_isSeparator_of_mem_groupBreaks hbreak rest

/-- What is read may stand at the front of the text. -/
theorem stands_of_readFrom {c : Char} {rest after : List Char} {t : Token}
    (hread : readFrom c rest = (t, after)) : c :: rest = t.text ++ after ∧ t.Stands after := by
  unfold readFrom at hread
  split at hread
  · next hseparator =>
      cases hread
      exact ⟨rfl, (startsSeparator_iff c rest).mp hseparator⟩
  next hseparator =>
  split at hread
  · next hcomma =>
      cases hread
      exact ⟨by rw [hcomma]; rfl, trivial⟩
  next hcomma =>
  split at hread
  · next hparenthesis =>
      cases hread
      exact ⟨by rw [hparenthesis]; rfl, trivial⟩
  next hparenthesis =>
  split at hread
  · next b hopener =>
      cases hread
      exact ⟨by rw [opener_of_ofOpener? hopener]; rfl, trivial⟩
  next hopener =>
  split at hread
  · next b hcloser =>
      cases hmodifier : readGroupModifier b rest with
      | mk modifier tail =>
          rw [hmodifier] at hread
          cases hread
          rw [closer_of_ofCloser? hcloser]
          cases modifier with
          | none =>
              obtain ⟨rfl, habsent⟩ := readGroupModifier_eq_none_iff.mp hmodifier
              exact ⟨rfl, habsent⟩
          | some m =>
              obtain ⟨rfl, hfits⟩ := readGroupModifier_eq_some_iff.mp hmodifier
              exact ⟨rfl, hfits⟩
  · next hcloser =>
      cases hspan : spanWord (if c = '(' then 1 else 0) rest with
      | mk tail remaining =>
          rw [hspan] at hread
          cases hread
          obtain ⟨rfl, hrun⟩ := spanWord_eq_iff.mp hspan
          refine ⟨rfl, by simp, run_cons_iff.mpr ⟨?_, by rwa [openAfterChar_zero]⟩⟩
          rintro (hbreak | ⟨-, hstop | hstop | hstop⟩)
          · exact not_mem_groupBreaks_iff.mpr ⟨hopener, hcloser⟩ hbreak
          · exact hseparator ((startsSeparator_iff _ _).mpr hstop)
          · exact hcomma hstop
          · exact hparenthesis hstop

/-- What may stand at the front of the text is read. -/
theorem readFrom_of_stands {c : Char} {rest after : List Char} {t : Token}
    (hsplit : c :: rest = t.text ++ after) (ht : t.Stands after) :
    readFrom c rest = (t, after) := by
  unfold readFrom
  cases t with
  | separator d =>
      simp only [text, List.singleton_append, List.cons.injEq] at hsplit
      obtain ⟨rfl, rfl⟩ := hsplit
      rw [if_pos ((startsSeparator_iff c rest).mpr ht)]
  | word cs =>
      obtain ⟨hne, hrun⟩ := ht
      cases cs with
      | nil => contradiction
      | cons d tail =>
          simp only [text, List.cons_append, List.cons.injEq] at hsplit
          obtain ⟨rfl, rfl⟩ := hsplit
          obtain ⟨hc, htail⟩ := run_cons_iff.mp hrun
          rw [openAfterChar_zero] at htail
          have hseparator : ¬ startsSeparator (c :: (tail ++ after)) = true := fun h =>
            hc (.inr ⟨rfl, .inl ((startsSeparator_iff _ _).mp h)⟩)
          have hcomma : c ≠ ',' := fun h => hc (.inr ⟨rfl, .inr (.inl h)⟩)
          have hparenthesis : c ≠ ')' := fun h => hc (.inr ⟨rfl, .inr (.inr h)⟩)
          obtain ⟨hopener, hcloser⟩ := not_mem_groupBreaks_iff.mp fun h => hc (.inl h)
          rw [if_neg hseparator, if_neg hcomma, if_neg hparenthesis, hopener, hcloser]
          simp only [spanWord_eq_iff.mpr ⟨rfl, htail⟩]
  | opening b =>
      simp only [text, List.singleton_append, List.cons.injEq] at hsplit
      obtain ⟨rfl, rfl⟩ := hsplit
      rw [startsSeparator_eq_false (.inr (.inr b.opener_mem_groupBreaks)),
        if_neg Bool.false_ne_true, if_neg (by cases b <;> decide), if_neg (by cases b <;> decide),
        ofOpener?_opener]
  | closing b modifier =>
      have hread : c = b.closer ∧ readGroupModifier b rest = (modifier, after) := by
        simp only [text, List.cons_append, List.cons.injEq] at hsplit
        refine ⟨hsplit.1, ?_⟩
        cases modifier with
        | none => exact readGroupModifier_eq_none_iff.mpr ⟨hsplit.2.symm, hsplit.2 ▸ ht⟩
        | some m => exact readGroupModifier_eq_some_iff.mpr ⟨hsplit.2, ht⟩
      obtain ⟨rfl, hread⟩ := hread
      rw [startsSeparator_eq_false (.inr (.inr b.closer_mem_groupBreaks)),
        if_neg Bool.false_ne_true, if_neg (by cases b <;> decide), if_neg (by cases b <;> decide),
        ofOpener?_closer, ofCloser?_closer]
      simp only [hread]
  | comma =>
      simp only [text, List.singleton_append, List.cons.injEq] at hsplit
      obtain ⟨rfl, rfl⟩ := hsplit
      rw [startsSeparator_eq_false (.inl rfl), if_neg Bool.false_ne_true, if_pos rfl]
  | strayParenthesis =>
      simp only [text, List.singleton_append, List.cons.injEq] at hsplit
      obtain ⟨rfl, rfl⟩ := hsplit
      rw [startsSeparator_eq_false (.inr (.inl rfl)), if_neg Bool.false_ne_true,
        if_neg (by decide), if_pos rfl]

/-- A token may stand where the text after it is cut off, and goes on apart with what ends it. -/
theorem Stands.exchange {t : Token} {front old new : List Char} (hnew : StartsApart new)
    (hend : ∀ cs, t = word cs → front = [] →
      ∀ c rest, new = c :: rest → Stops (openAfter 0 cs) c rest)
    (ht : t.Stands (front ++ old)) : t.Stands (front ++ new) := by
  cases t with
  | separator c => exact IsSeparator.exchange hnew ht
  | word cs => exact IsWord.exchange hnew (hend cs rfl) ht
  | opening b => trivial
  | closing b modifier =>
      cases modifier with
      | none =>
          intro m hm hfront
          have hshort := isPrefix_of_startsApart hnew
            (fun c hc => GroupModifier.not_cutsApart hm hc) hfront
          exact ht m hm (hshort.trans (List.prefix_append front old))
      | some m => exact ⟨ht.operator, ht.number.exchange hnew⟩
  | comma => trivial
  | strayParenthesis => trivial

/-- Tokens stay legible when the text after them is cut off, and goes on apart with what ends
them. -/
theorem Legible.exchange_of_stops {ts : List Token} {old new : List Char} (hnew : StartsApart new)
    (hend : ∀ cs, ts.getLast? = some (word cs) →
      ∀ c rest, new = c :: rest → Stops (openAfter 0 cs) c rest)
    (hts : Legible old ts) : Legible new ts := by
  induction ts with
  | nil => trivial
  | cons t ts ih =>
      obtain ⟨ht, hrest⟩ := hts
      cases ts with
      | nil =>
          refine ⟨Stands.exchange hnew ?_ ht, trivial⟩
          rintro cs rfl -
          exact hend cs rfl
      | cons u us =>
          have hnonempty : textOf (u :: us) ≠ [] := by
            rw [textOf_cons]
            exact List.append_ne_nil_of_left_ne_nil (text_ne_nil_of_stands hrest.1) _
          refine ⟨Stands.exchange hnew ?_ ht, ih ?_ hrest⟩
          · exact fun cs _ hempty => absurd hempty hnonempty
          · intro cs hlast
            exact hend cs (by rwa [List.getLast?_cons_cons])

/-- Tokens stay legible when the text after them is cut off before a closer. -/
theorem Legible.exchange {ts : List Token} {old new : List Char} (hnew : StartsWithCloser new)
    (hts : Legible old ts) : Legible new ts :=
  hts.exchange_of_stops hnew.startsApart fun cs _ => hnew.stops (openAfter 0 cs)

/-- Tokens stay legible when the text after them is cut off before a space or a comma, unless they
end in a word that has a parenthesis open. -/
theorem Legible.exchange_apart {ts : List Token} {old : List Char} {c : Char} (hc : CutsApart c)
    (new : List Char) (hclosed : ∀ cs, ts.getLast? = some (word cs) → openAfter 0 cs = 0)
    (hts : Legible old ts) : Legible (c :: new) ts := by
  refine hts.exchange_of_stops (hc.startsApart new) ?_
  rintro cs hlast _ rest ⟨⟩
  rw [hclosed cs hlast]
  exact hc.stops new

end Token

open Token

/-- The tokens of a text are the one legible list whose text it is. -/
theorem tokens_eq_iff {cs : List Char} {ts : List Token} :
    tokens cs = ts ↔ textOf ts = cs ∧ Legible [] ts := by
  induction ts generalizing cs with
  | nil =>
      cases cs with
      | nil => simp [tokens, Legible]
      | cons c rest => simp [tokens]
  | cons t ts ih =>
      cases cs with
      | nil =>
          simp only [tokens, reduceCtorEq, textOf_cons, Legible, List.append_eq_nil_iff, false_iff]
          rintro ⟨⟨hempty, -⟩, hstands, -⟩
          exact text_ne_nil_of_stands hstands hempty
      | cons c rest =>
          rw [tokens, List.cons.injEq, ih, textOf_cons, Legible, List.append_nil]
          constructor
          · rintro ⟨hhead, hrest, hlegible⟩
            obtain ⟨hsplit, hstands⟩ := stands_of_readFrom (Prod.ext hhead hrest.symm)
            exact ⟨hsplit.symm, hstands, hlegible⟩
          · rintro ⟨hsplit, hstands, hlegible⟩
            rw [readFrom_of_stands hsplit.symm hstands]
            exact ⟨rfl, rfl, hlegible⟩

end CyclePattern
