/-
# The tokens of a derivation

A derivation and the tokens of its text say the same thing in two ways. The derivation asks of each
piece that it fits before what follows; the tokens ask that they are legible. What the tokens do
not see, that groups hold what they may and that items are spaced, is the shape of the derivation.

Brackets nest in one way only, so the tokens determine the derivation. With the one way to cut a
text into tokens this makes derivations unique.
-/

import CyclePattern.Proofs.Grammar.Derivation

namespace CyclePattern

open Text

namespace Piece

mutual

/-- The tokens of a piece. -/
def tokens : Piece → List Token
  | separator c => [.separator c]
  | word cs => [.word cs]
  | group b earlier last m =>
    .opening b :: (tokensOfEarlier earlier ++ (tokensOf last ++ [.closing b m]))

/-- The tokens of a sequence. -/
def tokensOf : List Piece → List Token
  | [] => []
  | p :: ps => p.tokens ++ tokensOf ps

/-- The tokens of sequences that a comma ends. -/
def tokensOfEarlier : List (List Piece) → List Token
  | [] => []
  | s :: rest => tokensOf s ++ .comma :: tokensOfEarlier rest

end

@[simp]
theorem tokensOf_append (ps qs : List Piece) :
    tokensOf (ps ++ qs) = tokensOf ps ++ tokensOf qs := by
  induction ps with
  | nil => rfl
  | cons p ps ih => simp [tokensOf, ih]

@[simp]
theorem tokensOfEarlier_append (ss us : List (List Piece)) :
    tokensOfEarlier (ss ++ us) = tokensOfEarlier ss ++ tokensOfEarlier us := by
  induction ss with
  | nil => rfl
  | cons s ss ih => simp [tokensOfEarlier, ih]

theorem text_closing (b : Bracket) (m : Option GroupModifier) :
    (Token.closing b m).text = b.closer :: modifierText m := by
  cases m <;> rfl

mutual

/-- The characters of the tokens are those of the piece. -/
theorem textOf_tokens : ∀ p : Piece, Token.textOf p.tokens = p.text
  | separator c => by simp [tokens, text, Token.text]
  | word cs => by simp [tokens, text, Token.text]
  | group b earlier last m => by
      simp only [tokens, text, Token.textOf_cons, Token.textOf_append, Token.textOf_nil,
        text_closing, textOf_tokensOf last, textOf_tokensOfEarlier earlier, List.append_nil]
      rfl

@[simp]
theorem textOf_tokensOf : ∀ ps : List Piece, Token.textOf (tokensOf ps) = textOf ps
  | [] => rfl
  | p :: ps => by
      rw [tokensOf, Token.textOf_append, textOf_tokens p, textOf_tokensOf ps, textOf]

@[simp]
theorem textOf_tokensOfEarlier :
    ∀ ss : List (List Piece), Token.textOf (tokensOfEarlier ss) = textOfEarlier ss
  | [] => rfl
  | s :: ss => by
      calc
        _ = Token.textOf (tokensOf s) ++ (',' :: Token.textOf (tokensOfEarlier ss)) := by
          rw [tokensOfEarlier, Token.textOf_append, Token.textOf_cons]
          rfl
        _ = textOf s ++ (',' :: textOfEarlier ss) := by
          rw [textOf_tokensOf s, textOf_tokensOfEarlier ss]
        _ = textOfEarlier (s :: ss) := rfl

end

attribute [simp] textOf_tokens

/-- What the rules ask of a group without looking at characters: an alternation holds one
sequence, and the items of each sequence are spaced. -/
def GroupShaped : Piece → Prop
  | group b earlier last _ =>
    (b.holdsGroups = false → earlier = []) ∧ (∀ s ∈ earlier, Spaced s) ∧ Spaced last
  | _ => True

/-- Whether all groups of a piece have the shape that the rules ask for. -/
def Shaped (p : Piece) : Prop :=
  ∀ q, p.Contains q → q.GroupShaped

theorem shaped_separator (c : Char) : Shaped (separator c) := by
  intro q hq
  cases hq
  trivial

theorem shaped_word (cs : List Char) : Shaped (word cs) := by
  intro q hq
  cases hq
  trivial

theorem shaped_group_iff {b : Bracket} {earlier : List (List Piece)} {last : List Piece}
    {m : Option GroupModifier} :
    Shaped (group b earlier last m) ↔
      (b.holdsGroups = false → earlier = []) ∧
        (∀ s ∈ earlier, Spaced s ∧ ∀ p ∈ s, p.Shaped) ∧ Spaced last ∧ ∀ p ∈ last, p.Shaped := by
  unfold Shaped
  rw [forall_contains_group_iff]
  constructor
  · intro ⟨⟨hone, hspaced, hend⟩, hearlier, hlast⟩
    exact ⟨hone, fun s hs => ⟨hspaced s hs, hearlier s hs⟩, hend, hlast⟩
  · intro ⟨hone, hearlier, hend, hlast⟩
    exact ⟨⟨hone, fun s hs => (hearlier s hs).1, hend⟩, fun s hs => (hearlier s hs).2, hlast⟩

/-- What may come directly after an item: nothing, or a character that ends a word. -/
def EndsItem (after : List Char) : Prop :=
  ∀ c rest, after = c :: rest → Stops 0 c rest

theorem endsItem_cons_of_mem {c : Char} (hc : c ∈ groupBreaks) (rest : List Char) :
    EndsItem (c :: rest) := by
  rintro _ _ ⟨⟩
  exact .inl hc

theorem endsItem_comma (rest : List Char) : EndsItem (',' :: rest) := by
  rintro _ _ ⟨⟩
  exact .inr ⟨rfl, .inr (.inl rfl)⟩

/-- No operator may come directly after an item, so a group without a modifier has none. -/
theorem EndsItem.not_isPrefix {after : List Char} (hafter : EndsItem after) {b : Bracket}
    {m : GroupModifier} (hm : m.WellFormed b) : ¬ m.text <+: after := by
  rintro ⟨rest, hsplit⟩
  have hstop := hafter m.operator (m.number.text ++ rest) (by rw [← hsplit]; rfl)
  rcases Bracket.operator_of_mem hm.operator with hoperator | hoperator | hoperator
  all_goals
    rw [hoperator] at hstop
    simp [Stops, IsSeparator, groupBreaks] at hstop

/-- What follows an item in a sequence whose pieces fit may come directly after it. -/
theorem endsItem_of_fitsAll {p : Piece} {ps : List Piece} {after : List Char}
    (hafter : EndsItem after) (hspaced : Spaced (p :: ps)) (hp : p.isItem = true)
    (hps : FitsAll after ps) : EndsItem (textOf ps ++ after) := by
  cases ps with
  | nil => simpa [textOf] using hafter
  | cons q qs =>
      have hq := (spaced_cons_iff.mp hspaced).1 hp q (by simp)
      cases q with
      | separator c =>
          rintro _ _ ⟨⟩
          exact .inr ⟨rfl, .inl hps.1⟩
      | word cs => cases hq
      | group b earlier last m => exact endsItem_cons_of_mem b.opener_mem_groupBreaks _

mutual

theorem legible_of_fits : ∀ (p : Piece) (after : List Char),
    (p.isItem = true → EndsItem after) → p.Fits after →
      Token.Legible after p.tokens ∧ p.Shaped
  | separator c, after, _, hfits => ⟨⟨hfits, trivial⟩, shaped_separator c⟩
  | word cs, after, _, hfits => ⟨⟨hfits, trivial⟩, shaped_word cs⟩
  | group b earlier last m, after, hafter, hfits => by
      obtain ⟨hone, hearlier, hspaced, hlast, hmodifier⟩ := hfits
      have hcloser := endsItem_cons_of_mem b.closer_mem_groupBreaks (modifierText m ++ after)
      obtain ⟨hlegible, hshaped⟩ := legible_of_fitsAll last _ hcloser hspaced hlast
      obtain ⟨hlegibles, hshapes⟩ := legible_of_fitsEarlier earlier _ hearlier
      have hclosing : (Token.closing b m).Stands after := by
        cases m with
        | none => exact fun x hx => (hafter rfl).not_isPrefix hx
        | some x => exact hmodifier x rfl
      refine ⟨?_, shaped_group_iff.mpr ⟨hone, hshapes, hspaced, hshaped⟩⟩
      simp only [tokens, Token.Legible, Token.legible_append_iff, Token.textOf_append,
        Token.textOf_cons, Token.textOf_nil, List.append_nil, List.append_assoc, text_closing,
        textOf_tokensOf, List.cons_append, List.nil_append]
      exact ⟨trivial, hlegibles, hlegible, hclosing, trivial⟩

theorem legible_of_fitsAll : ∀ (ps : List Piece) (after : List Char), EndsItem after → Spaced ps →
    FitsAll after ps → Token.Legible after (tokensOf ps) ∧ ∀ p ∈ ps, p.Shaped
  | [], _, _, _, _ => ⟨trivial, by simp⟩
  | p :: ps, after, hafter, hspaced, hfits => by
      obtain ⟨hp, hps⟩ := hfits
      obtain ⟨hhead, hshaped⟩ := legible_of_fits p _
        (fun hitem => endsItem_of_fitsAll hafter hspaced hitem hps) hp
      obtain ⟨htail, hshapes⟩ :=
        legible_of_fitsAll ps after hafter (spaced_cons_iff.mp hspaced).2 hps
      rw [tokensOf, Token.legible_append_iff, textOf_tokensOf]
      exact ⟨⟨hhead, htail⟩, List.forall_mem_cons.mpr ⟨hshaped, hshapes⟩⟩

theorem legible_of_fitsEarlier : ∀ (ss : List (List Piece)) (after : List Char),
    FitsEarlier after ss →
      Token.Legible after (tokensOfEarlier ss) ∧ ∀ s ∈ ss, Spaced s ∧ ∀ p ∈ s, p.Shaped
  | [], _, _ => ⟨trivial, by simp⟩
  | s :: ss, after, hfits => by
      obtain ⟨hspaced, hs, hss⟩ := hfits
      obtain ⟨hhead, hshaped⟩ := legible_of_fitsAll s _ (endsItem_comma _) hspaced hs
      obtain ⟨htail, hshapes⟩ := legible_of_fitsEarlier ss after hss
      rw [tokensOfEarlier, Token.legible_append_iff, Token.textOf_cons, textOf_tokensOfEarlier]
      exact ⟨⟨hhead, trivial, htail⟩, List.forall_mem_cons.mpr ⟨⟨hspaced, hshaped⟩, hshapes⟩⟩

end

mutual

theorem fits_of_legible : ∀ (p : Piece) (after : List Char),
    Token.Legible after p.tokens → p.Shaped → p.Fits after
  | separator _, _, hlegible, _ => hlegible.1
  | word _, _, hlegible, _ => hlegible.1
  | group b earlier last m, after, hlegible, hshaped => by
      obtain ⟨hone, hshapes, hspaced, hshape⟩ := shaped_group_iff.mp hshaped
      simp only [tokens, Token.Legible, Token.legible_append_iff, Token.textOf_append,
        Token.textOf_cons, Token.textOf_nil, List.append_nil, List.append_assoc, text_closing,
        textOf_tokensOf, List.cons_append, List.nil_append] at hlegible
      obtain ⟨-, hearlier, hlast, hclosing, -⟩ := hlegible
      refine ⟨hone, fitsEarlier_of_legible earlier _ hearlier hshapes, hspaced,
        fitsAll_of_legible last _ hlast hshape, ?_⟩
      rintro x rfl
      exact hclosing

theorem fitsAll_of_legible : ∀ (ps : List Piece) (after : List Char),
    Token.Legible after (tokensOf ps) → (∀ p ∈ ps, p.Shaped) → FitsAll after ps
  | [], _, _, _ => trivial
  | p :: ps, after, hlegible, hshaped => by
      rw [tokensOf, Token.legible_append_iff, textOf_tokensOf] at hlegible
      obtain ⟨hp, hps⟩ := List.forall_mem_cons.mp hshaped
      exact ⟨fits_of_legible p _ hlegible.1 hp, fitsAll_of_legible ps after hlegible.2 hps⟩

theorem fitsEarlier_of_legible : ∀ (ss : List (List Piece)) (after : List Char),
    Token.Legible after (tokensOfEarlier ss) → (∀ s ∈ ss, Spaced s ∧ ∀ p ∈ s, p.Shaped) →
      FitsEarlier after ss
  | [], _, _, _ => trivial
  | s :: ss, after, hlegible, hshaped => by
      rw [tokensOfEarlier, Token.legible_append_iff, Token.textOf_cons, textOf_tokensOfEarlier]
        at hlegible
      obtain ⟨⟨hspaced, hs⟩, hss⟩ := List.forall_mem_cons.mp hshaped
      exact ⟨hspaced, fitsAll_of_legible s _ hlegible.1 hs,
        fitsEarlier_of_legible ss after hlegible.2.2 hss⟩

end

/-- A derivation of a text is what has the tokens of the text and the right shape. -/
theorem derives_iff {ps : List Piece} {cs : List Char} :
    Derives ps cs ↔ CyclePattern.tokens cs = tokensOf ps ∧ Spaced ps ∧ ∀ p ∈ ps, p.Shaped := by
  constructor
  · rintro ⟨htext, hspaced, hfits⟩
    obtain ⟨hlegible, hshaped⟩ := legible_of_fitsAll ps [] (by rintro _ _ ⟨⟩) hspaced hfits
    exact ⟨tokens_eq_iff.mpr ⟨by rw [textOf_tokensOf, htext], hlegible⟩, hspaced, hshaped⟩
  · rintro ⟨htokens, hspaced, hshaped⟩
    obtain ⟨htext, hlegible⟩ := tokens_eq_iff.mp htokens
    rw [textOf_tokensOf] at htext
    exact ⟨htext, hspaced, fitsAll_of_legible ps [] hlegible hshaped⟩

/-- Tokens after a sequence: there are none, or the first one ends the sequence. -/
def EndsSequence (ts : List Token) : Prop :=
  ∀ t rest, ts = t :: rest → t = .comma ∨ ∃ b m, t = .closing b m

theorem endsSequence_comma (ts : List Token) : EndsSequence (.comma :: ts) := by
  intro t rest hcons
  cases hcons
  exact .inl rfl

theorem endsSequence_closing (b : Bracket) (m : Option GroupModifier) (ts : List Token) :
    EndsSequence (.closing b m :: ts) := by
  intro t rest hcons
  cases hcons
  exact .inr ⟨b, m, rfl⟩

/-- Nothing that ends a sequence starts a piece. -/
theorem not_endsSequence_tokens (p : Piece) (ts : List Token) :
    ¬ EndsSequence (p.tokens ++ ts) := by
  intro hends
  cases p with
  | separator c => simpa using hends (.separator c) ts rfl
  | word cs => simpa using hends (.word cs) ts rfl
  | group b earlier last m => simpa using hends (.opening b) _ rfl

/-- The piece can be told from its tokens, whatever comes after them. -/
def Determined (p : Piece) : Prop :=
  ∀ (q : Piece) (ts us : List Token), p.tokens ++ ts = q.tokens ++ us → p = q ∧ ts = us

/-- Where a sequence ends can be told from the tokens, and so can its pieces. -/
theorem determined_tokensOf {ps : List Piece} (hps : ∀ p ∈ ps, p.Determined) {qs : List Piece}
    {ts us : List Token} (hts : EndsSequence ts) (hus : EndsSequence us)
    (hsame : tokensOf ps ++ ts = tokensOf qs ++ us) : ps = qs ∧ ts = us := by
  induction ps generalizing qs with
  | nil =>
      cases qs with
      | nil => exact ⟨rfl, hsame⟩
      | cons q qs =>
          simp only [tokensOf, List.nil_append, List.append_assoc] at hsame
          exact absurd (hsame ▸ hts) (not_endsSequence_tokens q _)
  | cons p ps ih =>
      obtain ⟨hp, hrest⟩ := List.forall_mem_cons.mp hps
      cases qs with
      | nil =>
          simp only [tokensOf, List.nil_append, List.append_assoc] at hsame
          exact absurd (hsame ▸ hus) (not_endsSequence_tokens p _)
      | cons q qs =>
          simp only [tokensOf, List.append_assoc] at hsame
          obtain ⟨rfl, htail⟩ := hp q _ _ hsame
          obtain ⟨rfl, hend⟩ := ih hrest htail
          exact ⟨rfl, hend⟩

/-- The sequences of a group can be told from the tokens up to its closer. -/
theorem determined_group {earlier : List (List Piece)} {last : List Piece}
    (hearlier : ∀ s ∈ earlier, ∀ p ∈ s, p.Determined) (hlast : ∀ p ∈ last, p.Determined)
    {others : List (List Piece)} {final : List Piece} {b c : Bracket}
    {m n : Option GroupModifier} {ts us : List Token}
    (hsame : tokensOfEarlier earlier ++ (tokensOf last ++ .closing b m :: ts) =
      tokensOfEarlier others ++ (tokensOf final ++ .closing c n :: us)) :
    earlier = others ∧ last = final ∧ Token.closing b m = .closing c n ∧ ts = us := by
  induction earlier generalizing others with
  | nil =>
      cases others with
      | nil =>
          obtain ⟨rfl, hend⟩ := determined_tokensOf hlast (endsSequence_closing b m ts)
            (endsSequence_closing c n us) hsame
          obtain ⟨hclosing, rfl⟩ := List.cons.inj hend
          exact ⟨rfl, rfl, hclosing, rfl⟩
      | cons s others =>
          simp only [tokensOfEarlier, List.nil_append, List.append_assoc] at hsame
          obtain ⟨-, hend⟩ := determined_tokensOf hlast (endsSequence_closing b m ts)
            (endsSequence_comma _) hsame
          cases hend
  | cons s earlier ih =>
      obtain ⟨hs, hrest⟩ := List.forall_mem_cons.mp hearlier
      cases others with
      | nil =>
          simp only [tokensOfEarlier, List.nil_append, List.append_assoc] at hsame
          obtain ⟨-, hend⟩ := determined_tokensOf hs (endsSequence_comma _)
            (endsSequence_closing c n us) hsame
          cases hend
      | cons u others =>
          simp only [tokensOfEarlier, List.append_assoc] at hsame
          obtain ⟨rfl, hend⟩ :=
            determined_tokensOf hs (endsSequence_comma _) (endsSequence_comma _) hsame
          obtain ⟨rfl, hfinal⟩ := ih hrest (List.cons.inj hend).2
          exact ⟨rfl, hfinal⟩

theorem determined (p : Piece) : p.Determined := by
  induction p with
  | separator c =>
      intro q ts us hsame
      cases q <;> simp_all [tokens]
  | word cs =>
      intro q ts us hsame
      cases q <;> simp_all [tokens]
  | group b earlier last m hearlier hlast =>
      intro q ts us hsame
      cases q with
      | separator c => simp [tokens] at hsame
      | word cs => simp [tokens] at hsame
      | group c others final n =>
          simp only [tokens, List.cons_append, List.append_assoc, List.nil_append,
            List.cons.injEq, Token.opening.injEq] at hsame
          obtain ⟨rfl, hinner⟩ := hsame
          obtain ⟨rfl, rfl, hclosing, rfl⟩ := determined_group hearlier hlast hinner
          cases hclosing
          exact ⟨rfl, rfl⟩

/-- A text has at most one derivation. -/
theorem Derives.unique {ps qs : List Piece} {cs : List Char} (hps : Derives ps cs)
    (hqs : Derives qs cs) : ps = qs := by
  have hsame : tokensOf ps ++ [] = tokensOf qs ++ [] := by
    rw [← (derives_iff.mp hps).1, ← (derives_iff.mp hqs).1]
  have hend : EndsSequence [] := by
    intro t rest hcons
    cases hcons
  exact (determined_tokensOf (fun p _ => determined p) hend hend hsame).1

end Piece

end CyclePattern
