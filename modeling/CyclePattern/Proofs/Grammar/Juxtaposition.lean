/-
# Patterns side by side

A pattern that was read has no group open, so a space and another pattern may follow it. The two are
then read as if each stood alone: the items of the second come after those of the first, with their
offsets moved on, and a problem in the second is the same problem further along.

What the second pattern leads to is a draft, and the draft of the two together is the same one with
the pieces of the first in front of its outermost sequence. One step keeps this, and so does a run.
-/

import CyclePattern.Proofs.Grammar.Locality

namespace CyclePattern

open Piece

/-- The cause in a text that stands further along by some characters. -/
def Cause.shift (k : Nat) : Cause → Cause
  | .missingCloser bracket start => .missingCloser bracket (start + k)
  | cause => cause

/-- The stop in a text that stands further along by some characters. -/
def Stop.shift (k : Nat) : Stop → Stop
  | .problem cause offset => .problem (cause.shift k) (offset + k)
  | .number fault => .number fault

/-- A text that ends inside a word with a parenthesis that is not closed. -/
def EndsInParenthesis (cs : List Char) : Prop :=
  ∃ word, (tokens cs).getLast? = some (.word word) ∧ 0 < openAfter 0 word

theorem openAfter_eq_zero {cs : List Char} (hclosed : ¬ EndsInParenthesis cs) {word : List Char}
    (hword : (tokens cs).getLast? = some (.word word)) : openAfter 0 word = 0 := by
  by_contra hopen
  exact hclosed ⟨word, hword, Nat.pos_of_ne_zero hopen⟩

/-- A space cuts two texts apart, unless it continues the word that the first one ends in. -/
theorem tokens_append_space {cs : List Char} (hclosed : ¬ EndsInParenthesis cs) (ds : List Char) :
    tokens (cs ++ ' ' :: ds) = tokens cs ++ .separator ' ' :: tokens ds := by
  obtain ⟨hfirst, hlegible⟩ := tokens_eq_iff.mp (rfl : tokens cs = tokens cs)
  obtain ⟨hsecond, hrest⟩ := tokens_eq_iff.mp (rfl : tokens ds = tokens ds)
  apply tokens_eq_iff.mpr
  constructor
  · rw [Token.textOf_append, Token.textOf_cons, hfirst, hsecond]
    rfl
  · rw [Token.legible_append_iff, Token.textOf_cons, hsecond, List.append_nil]
    have hcut := hlegible.exchange_apart (.inl rfl) ds fun _ => openAfter_eq_zero hclosed
    exact ⟨hcut, .inl rfl, hrest⟩

namespace Draft

/-- Pieces that stand in front where no group is open, and nothing inside a group. -/
def inFront (front : List Piece) : List Frame → List Piece
  | [] => front
  | _ :: _ => []

@[simp]
theorem inFront_cons (front : List Piece) (f : Frame) (fs : List Frame) :
    inFront front (f :: fs) = [] :=
  rfl

/-- Open groups with some pieces in front of the outermost. -/
def framesAfter (front : List Piece) : List Frame → List Frame
  | [] => []
  | f :: fs => { f with before := inFront front fs ++ f.before } :: framesAfter front fs

/-- The draft with some pieces in front of its outermost sequence. -/
def after (front : List Piece) (d : Draft) : Draft :=
  ⟨framesAfter front d.frames, inFront front d.frames ++ d.current⟩

variable {limit : Int} {room : Nat} {front : List Piece} {d e : Draft} {t : Token}
  {ts unread : List Token} {fs : List Frame}

@[simp]
theorem after_empty (front : List Piece) : empty.after front = ⟨[], front⟩ := by
  simp [after, empty, framesAfter, inFront]

@[simp]
theorem length_framesAfter (front : List Piece) (fs : List Frame) :
    (framesAfter front fs).length = fs.length := by
  induction fs with
  | nil => rfl
  | cons f fs ih => rw [framesAfter, List.length_cons, ih, List.length_cons]

theorem endsWithItem_append {front : List Piece} (hfront : endsWithItem front = false)
    (s : List Piece) : endsWithItem (front ++ s) = endsWithItem s := by
  cases hlast : s.getLast? with
  | none =>
      rw [List.getLast?_eq_none_iff.mp hlast, List.append_nil, hfront, endsWithItem_nil]
  | some p => simp [endsWithItem, List.getLast?_append, hlast]

theorem endsWithItem_inFront (hfront : endsWithItem front = false) (fs : List Frame) :
    endsWithItem (inFront front fs) = false := by
  cases fs with
  | nil => exact hfront
  | cons f fs => rfl

/-- The same tokens may follow a draft wherever it stands, if no item touches it. -/
theorem follows_after_iff (hfront : endsWithItem front = false) :
    (d.after front).Follows room t ↔ d.Follows room t := by
  obtain ⟨frames, s⟩ := d
  cases t with
  | word cs =>
      simp only [Follows, after, endsWithItem_append (endsWithItem_inFront hfront frames)]
  | opening b => simp only [Follows, after, length_framesAfter]
  | comma => cases frames <;> simp [Follows, after, framesAfter]
  | closing b m => cases frames <;> simp [Follows, after, framesAfter]
  | separator c => exact Iff.rfl
  | strayParenthesis => exact Iff.rfl

theorem push_after (front : List Piece) (d : Draft) (t : Token) :
    (d.after front).push t = (d.push t).after front := by
  obtain ⟨frames, s⟩ := d
  cases t with
  | separator c => simp [push, after]
  | word cs => simp [push, after]
  | opening b => simp [push, after, framesAfter, inFront]
  | comma => cases frames <;> simp [push, after, framesAfter, inFront]
  | closing b m => cases frames <;> simp [push, after, framesAfter, inFront]
  | strayParenthesis => rfl

theorem Reads.after (hfront : endsWithItem front = false) (hreads : Reads room d ts e) :
    Reads room (d.after front) ts (e.after front) := by
  induction hreads with
  | nil d => exact .nil _
  | cons ht _ ih =>
      rw [← push_after] at ih
      exact .cons ((follows_after_iff hfront).mpr ht) ih

/-- Where the groups of a draft begin moves on by the length of what stands in front. -/
theorem outerLength_framesAfter (front : List Piece) (fs : List Frame) :
    outerLength (framesAfter front fs) + (textOf (inFront front fs)).length =
      outerLength fs + (textOf front).length := by
  induction fs with
  | nil => rfl
  | cons f fs ih =>
      rw [framesAfter, outerLength_cons, outerLength_cons]
      simp only [inFront_cons, textOf_append, List.length_append, textOf, List.length_nil]
      omega

theorem startOf_after (front : List Piece) (f : Frame) (fs : List Frame) :
    startOf 0 { f with before := inFront front fs ++ f.before } (framesAfter front fs) =
      startOf 0 f fs + (textOf front).length := by
  have hlength := outerLength_framesAfter front fs
  rw [startOf, startOf, textOf_append, List.length_append]
  omega

theorem length_tokens_after (front : List Piece) (d : Draft) :
    (Token.textOf (d.after front).tokens).length =
      (Token.textOf d.tokens).length + (textOf front).length := by
  have hlength := outerLength_framesAfter front d.frames
  rw [length_textOf_tokens, length_textOf_tokens]
  simp only [after, textOf_append, List.length_append]
  omega

/-- How a draft stops before a token is how it stops there further along. -/
theorem refusal_after (front : List Piece) (d : Draft) (t : Token) :
    (d.after front).refusal limit 0 t = (d.refusal limit 0 t).shift (textOf front).length := by
  have hoffset := length_tokens_after front d
  have hblocked : ((d.after front).progress 0 []).blocked =
      ((d.progress 0 []).blocked).shift (textOf front).length := by
    obtain ⟨frames, s⟩ := d
    cases frames with
    | nil =>
        simp only [after, framesAfter, Progress.blocked, progress, openedOf, Stop.shift,
          Cause.shift] at hoffset ⊢
        rw [hoffset, Nat.zero_add, Nat.zero_add]
    | cons f fs =>
        simp only [after, framesAfter, Progress.blocked, progress, openedOf, openGroupOf,
          Stop.shift, Cause.shift, startOf_after] at hoffset ⊢
        rw [hoffset, Nat.zero_add, Nat.zero_add]
  cases t with
  | opening b =>
      simp only [refusal, progress, Stop.shift, Cause.shift]
      rw [hoffset, Nat.zero_add, Nat.zero_add]
  | _ => exact hblocked

/-- What a reading comes to at a draft is what it comes to further along, with the items of the
pieces in front. -/
theorem outcome_after (front : List Piece) (d : Draft) (unread : List Token) :
    (d.after front).outcome limit 0 unread =
      ((d.outcome limit 0 unread).map fun later =>
        nodesOf 0 front ++ later.map (Node.shift (textOf front).length)).mapError
          (Stop.shift (textOf front).length) := by
  cases unread with
  | cons t rest =>
      rw [outcome, outcome, refusal_after]
      rfl
  | nil =>
      obtain ⟨frames, s⟩ := d
      cases frames with
      | nil =>
          have hitems : nodesOf (0 + (textOf front).length) s =
              (nodesOf 0 s).map (Node.shift (textOf front).length) :=
            nodesOf_add (textOf front).length (fun p _ o => node?_add p _ o) 0
          rw [Nat.zero_add] at hitems
          simp [outcome, after, framesAfter, inFront, Progress.finish, progress, openedOf,
            outerLength, outerTokens, Except.map, Except.mapError, hitems]
      | cons f fs =>
          simp [outcome, after, framesAfter, Progress.finish, progress, openedOf, openGroupOf,
            startOf_after, Except.map, Except.mapError, Stop.shift, Cause.shift]

end Draft

namespace Reading

/-- A pattern that was read, a space and a second pattern are read as the two side by side: the
second has the result that it has alone, further along and after the items of the first. -/
theorem result_append_space {limit : Int} {cs : List Char} {items : List (Node Float)}
    (hresult : (ofText limit 0 0 cs).result = .ok items) (hclosed : ¬ EndsInParenthesis cs)
    (ds : List Char) :
    (ofText limit 0 0 (cs ++ ' ' :: ds)).result =
      ((ofText limit 0 0 ds).result.map fun later =>
        items ++ later.map (Node.shift (cs.length + 1 : Nat))).mapError
          (Stop.shift (cs.length + 1)) := by
  obtain ⟨ps, hderives, hroom, rfl⟩ := exists_derives_of_result hresult
  have hfirst := Draft.reads_iff_derives.mpr ⟨hderives, hroom⟩
  obtain ⟨read, unread, e, hsplit, hreads, hend, hsame⟩ := Draft.exists_result_eq limit 0 0 ds
  -- The space ends the last item of the first pattern, so no item touches the second.
  have hapart : endsWithItem (ps ++ [.separator ' ']) = false := by
    rw [endsWithItem_append_singleton]
    rfl
  have hspace : Draft.Reads (limit.toNat - 0) ⟨[], ps⟩ [.separator ' ']
      ⟨[], ps ++ [.separator ' ']⟩ := .cons trivial (.nil _)
  have hsecond := hreads.after hapart
  rw [Draft.after_empty] at hsecond
  have htokens : tokens (cs ++ ' ' :: ds) =
      tokens cs ++ [.separator ' '] ++ read ++ unread := by
    rw [tokens_append_space hclosed, hsplit]
    simp
  have hstuck : ∀ t ∈ unread.head?,
      ¬ (e.after (ps ++ [.separator ' '])).Follows (limit.toNat - 0) t :=
    fun t ht => mt (Draft.follows_after_iff hapart).mp (hend t ht)
  have hfaults : (tokens cs ++ [Token.separator ' '] ++ read).findSome? Token.fault? =
      read.findSome? Token.fault? := by
    rw [List.findSome?_append, List.findSome?_append, findSome?_fault?_of_result hresult]
    rfl
  have hlength : (textOf (ps ++ [.separator ' '])).length = cs.length + 1 := by
    rw [textOf_append, List.length_append, hderives.text]
    rfl
  have hitems : nodesOf 0 (ps ++ [.separator ' ']) = nodesOf 0 ps := by
    rw [nodesOf_append]
    simp [nodesOf, node?]
  rw [Draft.result_eq_of_reads limit 0 0 htokens ((hfirst.trans hspace).trans hsecond) hstuck,
    hfaults, hsame, Draft.outcome_after, hlength, hitems]
  cases read.findSome? Token.fault? <;> rfl

/-- A dot that ends `[a].` stays a separator, and the problem in `[b>` is met five characters
later. -/
theorem result_append_space_after_dot :
    (ofText 1 0 0 ['[', 'a', ']', '.']).result =
        .ok [groupNode .square [[(Word.read ['a'] 1).value]] .none (.between 0 3)] ∧
      ¬ EndsInParenthesis ['[', 'a', ']', '.'] ∧
      (ofText 1 0 0 ['[', 'b', '>']).result = .error (.problem (.missingCloser .square 0) 2) ∧
      (ofText 1 0 0 ['[', 'a', ']', '.', ' ', '[', 'b', '>']).result =
        .error (.problem (.missingCloser .square 5) 7) := by
  have hfirst : tokens ['[', 'a', ']', '.'] =
      [.opening .square, .word ['a'], .closing .square none, .separator '.'] := by
    decide +kernel
  have hsecond : tokens ['[', 'b', '>'] =
      [.opening .square, .word ['b'], .closing .angle none] := by
    decide +kernel
  have hresult : (ofText 1 0 0 ['[', 'a', ']', '.']).result =
      .ok [groupNode .square [[(Word.read ['a'] 1).value]] .none (.between 0 3)] := by
    rw [ofText, hfirst]
    simp (disch := decide) only [ofTokens, Progress.step_word]
    rfl
  have hproblem : (ofText 1 0 0 ['[', 'b', '>']).result =
      .error (.problem (.missingCloser .square 0) 2) := by
    rw [ofText, hsecond]
    simp (disch := decide) only [ofTokens, Progress.step_word]
    rfl
  have hclosed : ¬ EndsInParenthesis ['[', 'a', ']', '.'] := by
    rintro ⟨word, hword, -⟩
    rw [hfirst] at hword
    cases hword
  refine ⟨hresult, hclosed, hproblem, ?_⟩
  have htogether := result_append_space hresult hclosed ['[', 'b', '>']
  rw [hproblem] at htogether
  exact htogether

end Reading

end CyclePattern
