/-
# Where problems are reported

A problem is reported at the end of a text that could still have become a pattern: the text before
it, with the closers of the brackets that are open there, can be read under the same limit. For a
group that is not closed this is the whole text, and the problem points at the opener.

The brackets that are open are counted in the characters alone. That they are the groups of the
draft is what the tokens of the text before the problem say.
-/

import CyclePattern.Proofs.Grammar.Language
import CyclePattern.Proofs.Lexing.Place

namespace CyclePattern

open Piece

theorem Bracket.opener_ne_closer (b c : Bracket) : b.opener ≠ c.closer := by
  cases b <;> cases c <;> decide

theorem Bracket.closer_injective : Function.Injective Bracket.closer := by
  intro b c
  cases b <;> cases c <;> decide

/-- The brackets that are open after a character at an offset: an opener opens one, and its closer
closes the innermost. -/
def openedAfter (offset : Nat) (opened : List (Bracket × Nat)) (c : Char) :
    List (Bracket × Nat) :=
  match Bracket.ofOpener? c, opened with
  | some b, opened => (b, offset) :: opened
  | none, (b, start) :: outer => if c = b.closer then outer else (b, start) :: outer
  | none, [] => []

/-- The brackets that are open after some characters from an offset on. -/
def openBracketsFrom (offset : Nat) (opened : List (Bracket × Nat)) :
    List Char → List (Bracket × Nat)
  | [] => opened
  | c :: cs => openBracketsFrom (offset + 1) (openedAfter offset opened c) cs

/-- The brackets that a text opens and does not close, the innermost first, each with its offset. -/
def openBrackets (cs : List Char) : List (Bracket × Nat) :=
  openBracketsFrom 0 [] cs

theorem openBracketsFrom_append (offset : Nat) (opened : List (Bracket × Nat))
    (cs ds : List Char) :
    openBracketsFrom offset opened (cs ++ ds) =
      openBracketsFrom (offset + cs.length) (openBracketsFrom offset opened cs) ds := by
  induction cs generalizing offset opened with
  | nil => rfl
  | cons c cs ih =>
      rw [List.cons_append, openBracketsFrom, ih, openBracketsFrom, List.length_cons]
      congr 1
      omega

/-- Characters that are no brackets open and close nothing. -/
theorem openBracketsFrom_of_not_mem {cs : List Char} (hcs : ∀ c ∈ cs, c ∉ groupBreaks)
    (offset : Nat) (opened : List (Bracket × Nat)) :
    openBracketsFrom offset opened cs = opened := by
  induction cs generalizing offset with
  | nil => rfl
  | cons c cs ih =>
      obtain ⟨hc, hrest⟩ := List.forall_mem_cons.mp hcs
      have hopener := (Token.not_mem_groupBreaks_iff.mp hc).1
      have hsame : openedAfter offset opened c = opened := by
        cases opened with
        | nil => simp [openedAfter, hopener]
        | cons group outer =>
            have hcloser : c ≠ group.1.closer := by
              intro heq
              exact hc (heq ▸ group.1.closer_mem_groupBreaks)
            simp [openedAfter, hopener, hcloser]
      rw [openBracketsFrom, hsame, ih hrest]

/-- How much of a text has been read where a problem is reported at an offset. -/
def Cause.reach (cs : List Char) (p : Nat) : Cause → Nat
  | unterminated _ => cs.length
  | _ => p

/-- What a cause says about the brackets that are open and the character at its offset. -/
def Cause.Explains (limit : Int) (cs : List Char) (p : Nat) (opened : List (Bracket × Nat)) :
    Cause → Prop
  | unterminated b => opened.head? = some (b, p)
  | missingCloser b start => opened.head? = some (b, start) ∧ cs[p]? ≠ some b.closer
  | tooDeep n => n = limit ∧ opened.length = limit.toNat ∧ ∃ b : Bracket, cs[p]? = some b.opener
  | leftover => opened = []

namespace Draft

/-- The brackets of the open groups of a draft. -/
def brackets : List Frame → List (Bracket × Nat)
  | [] => []
  | f :: fs => (f.bracket, startOf 0 f fs) :: brackets fs

variable {limit : Int} {room p : Nat} {d e : Draft} {t : Token} {ts read unread rest : List Token}
  {after : List Char} {cause : Cause}

theorem length_brackets (fs : List Frame) : (brackets fs).length = fs.length := by
  induction fs with
  | nil => rfl
  | cons f fs ih => rw [brackets, List.length_cons, ih, List.length_cons]

/-- A token changes the open brackets as it changes the draft. -/
theorem openBracketsFrom_text (ht : d.Follows room t) (hstands : t.Stands after) :
    openBracketsFrom (Token.textOf d.tokens).length (brackets d.frames) t.text =
      brackets (d.push t).frames := by
  obtain ⟨frames, s⟩ := d
  cases t with
  | separator c =>
      apply openBracketsFrom_of_not_mem
      intro c hc hbreak
      cases List.mem_singleton.mp hc
      exact not_isSeparator_of_mem_groupBreaks hbreak after hstands
  | word cs => exact openBracketsFrom_of_not_mem (fun c hc => hstands.2.not_mem_groupBreaks hc) _ _
  | opening b =>
      simp [Token.text, openBracketsFrom, openedAfter, Token.ofOpener?_opener, push, brackets,
        startOf, length_textOf_tokens]
  | comma =>
      obtain ⟨f, fs, rfl, -⟩ := exists_of_follows_comma ht
      have hcomma : ∀ c ∈ [','], c ∉ groupBreaks := by simp [groupBreaks]
      exact openBracketsFrom_of_not_mem hcomma _ _
  | closing b m =>
      obtain ⟨f, fs, rfl, rfl⟩ := exists_of_follows_closing ht
      have hmodifier : ∀ c ∈ modifierText m, c ∉ groupBreaks := by
        cases m with
        | none => simp [modifierText]
        | some x => exact fun c hc => GroupModifier.not_mem_groupBreaks hstands.wellFormed hc
      rw [text_closing, openBracketsFrom, openBracketsFrom_of_not_mem hmodifier]
      simp [brackets, openedAfter, Token.ofOpener?_closer, push]
  | strayParenthesis => cases ht

/-- The brackets that the text of a draft leaves open are those of its groups. -/
theorem openBracketsFrom_of_reads (hreads : Reads room d ts e) (hlegible : Token.Legible after ts) :
    openBracketsFrom (Token.textOf d.tokens).length (brackets d.frames) (Token.textOf ts) =
      brackets e.frames := by
  induction hreads with
  | nil d => rfl
  | @cons d e t ts ht _ ih =>
      have hrest := ih hlegible.2
      rw [tokens_push ht, Token.textOf_append, Token.textOf_cons, Token.textOf_nil,
        List.append_nil, List.length_append, ← openBracketsFrom_text ht hlegible.1] at hrest
      rw [Token.textOf_cons, openBracketsFrom_append, hrest]

/-- The tokens that close some groups without a modifier. -/
def closings (fs : List Frame) : List Token :=
  fs.map fun f => .closing f.bracket none

theorem textOf_closings (fs : List Frame) :
    Token.textOf (closings fs) = (brackets fs).map (·.1.closer) := by
  induction fs with
  | nil => rfl
  | cons f fs ih =>
      rw [closings, List.map_cons, Token.textOf_cons, brackets, List.map_cons, ← ih]
      rfl

theorem startsWithCloser_closings (fs : List Frame) :
    StartsWithCloser (Token.textOf (closings fs)) := by
  intro c rest hcons
  cases fs with
  | nil => cases hcons
  | cons f fs =>
      cases hcons
      exact ⟨f.bracket, rfl⟩

theorem legible_closings (fs : List Frame) : Token.Legible [] (closings fs) := by
  induction fs with
  | nil => trivial
  | cons f fs ih =>
      refine ⟨?_, ih⟩
      intro m hm hfront
      rw [List.append_nil] at hfront
      have hshort : m.text <+: [] :=
        isPrefix_of_startsApart (startsWithCloser_closings fs).startsApart
          (fun c hc => GroupModifier.not_cutsApart hm hc) hfront
      cases List.prefix_nil.mp hshort

/-- The tokens that were read stay the tokens of their text when closers come after it. -/
theorem tokens_closed (fs : List Frame) (hlegible : Token.Legible after ts) :
    CyclePattern.tokens (Token.textOf ts ++ (brackets fs).map (·.1.closer)) =
      ts ++ closings fs := by
  apply tokens_eq_iff.mpr
  constructor
  · rw [Token.textOf_append, textOf_closings]
  · rw [Token.legible_append_iff, List.append_nil]
    exact ⟨hlegible.exchange (startsWithCloser_closings fs), legible_closings fs⟩

/-- The text of a draft with the closers of its groups has a derivation. -/
theorem derives_closed (hreads : Reads room empty ts e) (hlegible : Token.Legible after ts) :
    Derives (closed e.frames e.current)
        (Token.textOf ts ++ (brackets e.frames).map (·.1.closer)) ∧
      nestingOf (closed e.frames e.current) ≤ room := by
  have hsound := hreads.sound (sound_empty room)
  have hadmissible := admissible_closed hsound.frames hsound.current
  have htokens : e.tokens = ts := hreads.tokens
  refine ⟨derives_iff.mpr ⟨?_, hadmissible.spaced, hadmissible.shaped⟩, hadmissible.room⟩
  rw [tokens_closed e.frames hlegible, tokensOf_closed, ← List.append_assoc, ← htokens]
  rfl

theorem findSome?_fault?_closings (fs : List Frame) :
    (closings fs).findSome? Token.fault? = none := by
  simp [closings, Token.fault?]

/-- Only a closing token begins with a closer. -/
theorem closing_of_head?_text {b : Bracket} (hstands : t.Stands after)
    (hhead : t.text.head? = some b.closer) : ∃ m, t = .closing b m := by
  cases t with
  | separator c =>
      cases hhead
      exact absurd hstands (not_isSeparator_of_mem_groupBreaks b.closer_mem_groupBreaks after)
  | word cs =>
      have hbreak := hstands.2.not_mem_groupBreaks (List.mem_of_head? hhead)
      exact absurd b.closer_mem_groupBreaks hbreak
  | opening other => exact absurd (Option.some.inj hhead) (other.opener_ne_closer b)
  | closing other m => exact ⟨m, by rw [Bracket.closer_injective (Option.some.inj hhead)]⟩
  | comma => exact absurd (Option.some.inj hhead) (by cases b <;> decide)
  | strayParenthesis => exact absurd (Option.some.inj hhead) (by cases b <;> decide)

/-- A problem before a token is reported inside the text, after what was read. -/
theorem reach_of_cons (read rest : List Token) (hstands : t.Stands after) :
    (Token.textOf read).length < (Token.textOf (read ++ t :: rest)).length ∧
      (Token.textOf (read ++ t :: rest)).take (Token.textOf read).length = Token.textOf read := by
  have hne := List.length_pos_iff.mpr (Token.text_ne_nil_of_stands hstands)
  constructor
  · simp only [Token.textOf_append, Token.textOf_cons, List.length_append]
    omega
  · rw [Token.textOf_append, List.take_left]

/-- The characters where a draft meets a problem explain its cause. -/
theorem Meets.explains (hmeets : Meets limit 0 d unread cause p)
    (hreads : Reads limit.toNat empty read d)
    (hend : ∀ t ∈ unread.head?, ¬ d.Follows limit.toNat t)
    (hlegible : Token.Legible [] (read ++ unread)) :
    p < (Token.textOf (read ++ unread)).length ∧
      (Token.textOf (read ++ unread)).take (cause.reach (Token.textOf (read ++ unread)) p) =
        Token.textOf read ∧
      cause.Explains limit (Token.textOf (read ++ unread)) p (brackets d.frames) := by
  have htokens : d.tokens = read := hreads.tokens
  have hunread := (Token.legible_append_iff.mp hlegible).2
  have hoccur : Token.Occur (Token.textOf (read ++ unread)) (Token.textOf read).length unread :=
    ⟨read, [], by rw [tokens_eq_iff.mpr ⟨rfl, hlegible⟩, List.append_nil], rfl⟩
  cases hmeets with
  | unterminated f fs s =>
      have hlength := length_textOf_tokens ⟨f :: fs, s⟩
      rw [htokens, outerLength_cons] at hlength
      refine ⟨?_, ?_, rfl⟩
      · rw [List.append_nil, hlength, startOf]
        omega
      · rw [List.append_nil]
        exact List.take_length
  | @missingCloser f fs s t rest hclosing =>
      rw [htokens, Nat.zero_add]
      obtain ⟨hlt, htake⟩ := reach_of_cons read rest hunread.1
      refine ⟨hlt, htake, rfl, ?_⟩
      intro hcloser
      rw [hoccur.getElem?_eq] at hcloser
      obtain ⟨m, hsame⟩ := closing_of_head?_text hunread.1 hcloser
      exact hclosing m hsame
  | tooDeep d b rest =>
      rw [htokens, Nat.zero_add]
      obtain ⟨hlt, htake⟩ := reach_of_cons read rest hunread.1
      refine ⟨hlt, htake, rfl, ?_, b, ?_⟩
      · have hfull : ¬ d.frames.length < limit.toNat := hend _ rfl
        rw [length_brackets]
        have hroom := (hreads.sound (sound_empty limit.toNat)).frames.length_le
        omega
      · rw [hoccur.getElem?_eq]
        rfl
  | leftover s t rest =>
      rw [htokens, Nat.zero_add]
      obtain ⟨hlt, htake⟩ := reach_of_cons read rest hunread.1
      exact ⟨hlt, htake, rfl⟩

end Draft

namespace Reading

/-- A reading that meets a problem has read some tokens into a draft, and none of them has a
fault. -/
theorem exists_draft_of_problem {limit : Int} {cs : List Char} {cause : Cause} {p : Nat}
    (hresult : (ofText limit 0 0 cs).result = .error (.problem cause p)) :
    ∃ read unread d, cs = Token.textOf (read ++ unread) ∧ Token.Legible [] (read ++ unread) ∧
      Draft.Reads limit.toNat Draft.empty read d ∧
      (∀ t ∈ unread.head?, ¬ d.Follows limit.toNat t) ∧
      Draft.Meets limit 0 d unread cause p ∧ read.findSome? Token.fault? = none := by
  obtain ⟨read, unread, d, hsplit, hreads, hend, hsame⟩ := Draft.exists_result_eq limit 0 0 cs
  rw [hsame] at hresult
  cases hfault : read.findSome? Token.fault? with
  | some fault =>
      rw [hfault] at hresult
      cases hresult
  | none =>
      rw [hfault, Stop.unlessFault_none] at hresult
      rcases Draft.outcome_cases hend with ⟨-, -, hread⟩ | ⟨other, offset, hproblem, hmeets⟩
      · rw [hread] at hresult
        cases hresult
      · rw [hproblem] at hresult
        cases hresult
        obtain ⟨hcs, hlegible⟩ := tokens_eq_iff.mp hsplit
        exact ⟨read, unread, d, hcs.symm, hlegible, hreads, hend, hmeets, hfault⟩

/-- The characters at a problem explain its cause. -/
theorem explains_of_problem {limit : Int} {cs : List Char} {cause : Cause} {p : Nat}
    (hresult : (ofText limit 0 0 cs).result = .error (.problem cause p)) :
    p < cs.length ∧
      cause.Explains limit cs p (openBrackets (cs.take (cause.reach cs p))) := by
  obtain ⟨read, unread, d, rfl, hlegible, hreads, hend, hmeets, -⟩ :=
    exists_draft_of_problem hresult
  obtain ⟨hlt, htake, hexplains⟩ := hmeets.explains hreads hend hlegible
  have hread := (Token.legible_append_iff.mp hlegible).1
  have hopened : openBrackets (Token.textOf read) = Draft.brackets d.frames :=
    Draft.openBracketsFrom_of_reads hreads hread
  rw [htake, hopened]
  exact ⟨hlt, hexplains⟩

/-- What was read before a problem is completed by the closers of its open brackets. -/
theorem exists_result_before_problem {limit : Int} {cs : List Char} {cause : Cause} {p : Nat}
    (hresult : (ofText limit 0 0 cs).result = .error (.problem cause p)) :
    ∃ items, (ofText limit 0 0 (cs.take (cause.reach cs p) ++
      (openBrackets (cs.take (cause.reach cs p))).map (·.1.closer))).result = .ok items := by
  obtain ⟨read, unread, d, rfl, hlegible, hreads, hend, hmeets, hfault⟩ :=
    exists_draft_of_problem hresult
  obtain ⟨-, htake, -⟩ := hmeets.explains hreads hend hlegible
  have hread := (Token.legible_append_iff.mp hlegible).1
  have hopened : openBrackets (Token.textOf read) = Draft.brackets d.frames :=
    Draft.openBracketsFrom_of_reads hreads hread
  rw [htake, hopened]
  obtain ⟨hderives, hroom⟩ := Draft.derives_closed hreads hread
  have hlimit : nestingOf (Draft.closed d.frames d.current) ≤ limit.toNat - 0 := hroom
  have hclosed := result_of_derives 0 hderives hlimit
  rw [Draft.tokens_closed d.frames hread, List.findSome?_append, hfault,
    Draft.findSome?_fault?_closings] at hclosed
  exact ⟨_, hclosed⟩

/-- A problem is reported at the end of a text that its open brackets' closers complete. -/
theorem viable_before_problem {limit : Int} {cs : List Char} {cause : Cause} {p : Nat}
    (hresult : (ofText limit 0 0 cs).result = .error (.problem cause p)) :
    p < cs.length ∧
      (∃ items, (ofText limit 0 0 (cs.take (cause.reach cs p) ++
        (openBrackets (cs.take (cause.reach cs p))).map (·.1.closer))).result = .ok items) ∧
      cause.Explains limit cs p (openBrackets (cs.take (cause.reach cs p))) := by
  obtain ⟨hlt, hexplains⟩ := explains_of_problem hresult
  exact ⟨hlt, exists_result_before_problem hresult, hexplains⟩

/-- The closers of both groups complete a text that ends inside a word with a parenthesis. -/
theorem viable_before_problem_in_word :
    (ofText 2 0 0 ['<', 'a', ' ', '[', 'b', '(']).result =
        .error (.problem (.unterminated .square) 3) ∧
      ∃ items, (ofText 2 0 0 ['<', 'a', ' ', '[', 'b', '(', ']', '>']).result = .ok items := by
  have htokens : tokens ['<', 'a', ' ', '[', 'b', '('] =
      [.opening .angle, .word ['a'], .separator ' ', .opening .square, .word ['b', '(']] := by
    decide +kernel
  have hresult : (ofText 2 0 0 ['<', 'a', ' ', '[', 'b', '(']).result =
      .error (.problem (.unterminated .square) 3) := by
    rw [ofText, htokens]
    simp (disch := decide) only [ofTokens, Progress.step_word]
    rfl
  exact ⟨hresult, (viable_before_problem hresult).2.1⟩

/-- Below a negative limit no group may open, and the brackets that are open are none and not as
many as the limit says. -/
theorem length_openBrackets_ne_negative_limit :
    ¬ ∀ (limit : Int) (cs : List Char) (p : Nat),
      (ofText limit 0 0 cs).result = .error (.problem (.tooDeep limit) p) →
        ((openBrackets (cs.take p)).length : Int) = limit := by
  intro hall
  have htokens : tokens ['[', 'a', ']'] =
      [.opening .square, .word ['a'], .closing .square none] := by
    decide +kernel
  have hresult : (ofText (-1) 0 0 ['[', 'a', ']']).result =
      .error (.problem (.tooDeep (-1)) 0) := by
    rw [ofText, htokens]
    rfl
  have hlength := hall (-1) ['[', 'a', ']'] 0 hresult
  contradiction

end Reading

end CyclePattern
