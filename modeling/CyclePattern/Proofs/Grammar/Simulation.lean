/-
# Reading is extending a draft

The progress of a reading holds the tree of a draft. Each step takes a token exactly when it may
follow the draft, and then holds the tree of the draft with that token; otherwise it stops, and why
can be read off the draft. One case stands apart: a word or a closer may follow and still stop the
reading, when there is a number in it that cannot be computed with.

So a reading runs along the draft until a token may not follow, and everything about its result can
be said of that draft.
-/

import CyclePattern.Proofs.Grammar.Draft
import CyclePattern.Proofs.Lexing.Conversion

namespace CyclePattern

open Piece

/-- The fault of a number in the token, if it has one. -/
def Token.fault? : Token → Option NumberFault
  | .word cs => Word.fault? cs
  | .closing _ m => m.bind GroupModifier.fault?
  | _ => none

/-- A word of few characters is taken without a look at its numbers. -/
theorem Progress.step_word {limit : Int} {depth : Nat} {p : Progress} {text : List Char}
    (htext : text.length ≤ digitLimit) :
    p.step limit depth (.word text) =
      if p.afterItem then .error p.blocked
      else .ok (p.takeWord text (Word.read text p.offset)) := by
  rw [step, Word.node_of_length_le htext]

/-- A result that stands unless a number before it has a fault. -/
def Stop.unlessFault {α : Type} (fault : Option NumberFault) (result : Except Stop α) :
    Except Stop α :=
  match fault with
  | some fault => .error (.number fault)
  | none => result

@[simp]
theorem Stop.unlessFault_none {α : Type} (result : Except Stop α) :
    unlessFault none result = result :=
  rfl

@[simp]
theorem Stop.unlessFault_some {α : Type} (fault : NumberFault) (result : Except Stop α) :
    unlessFault (some fault) result = .error (.number fault) :=
  rfl

theorem Stop.unlessFault_eq_ok_iff {α : Type} {fault : Option NumberFault} {result : Except Stop α}
    {value : α} : unlessFault fault result = .ok value ↔ fault = none ∧ result = .ok value := by
  cases fault <;> simp

namespace Draft

/-- Length of the text before the innermost sequence. -/
def outerLength (fs : List Frame) : Nat :=
  (Token.textOf (outerTokens fs)).length

/-- Offset of the opener of an open group inside others, in a draft that starts at an offset. -/
def startOf (offset : Nat) (f : Frame) (fs : List Frame) : Nat :=
  offset + outerLength fs + (textOf f.before).length

/-- An open group inside others, as a reading holds it. -/
def openGroupOf (offset : Nat) (f : Frame) (fs : List Frame) : OpenGroup where
  bracket := f.bracket
  start := startOf offset f fs
  finished := (groupsOf (startOf offset f fs + 1) f.finished).reverse
  before := (nodesOf (offset + outerLength fs) f.before).reverse

/-- The groups of a draft that starts at an offset, as a reading holds them. -/
def openedOf (offset : Nat) : List Frame → List OpenGroup
  | [] => []
  | f :: fs => openGroupOf offset f fs :: openedOf offset fs

/-- A draft that starts at an offset, as a reading holds it. -/
def progress (offset : Nat) (d : Draft) (notices : List Notice) : Progress where
  offset := offset + (Token.textOf d.tokens).length
  opened := openedOf offset d.frames
  items := (nodesOf (offset + outerLength d.frames) d.current).reverse
  afterItem := endsWithItem d.current
  notices := notices

theorem length_textOf_tokens (d : Draft) :
    (Token.textOf d.tokens).length = outerLength d.frames + (textOf d.current).length := by
  simp [tokens, outerLength]

theorem outerLength_cons (f : Frame) (fs : List Frame) :
    outerLength (f :: fs) =
      outerLength fs + (textOf f.before).length + 1 + (textOfEarlier f.finished).length := by
  simp [outerLength, outerTokens, Token.text]
  omega

theorem length_openedOf (offset : Nat) (fs : List Frame) :
    (openedOf offset fs).length = fs.length := by
  induction fs with
  | nil => rfl
  | cons f fs ih => simp [openedOf, ih]

variable {limit : Int} {depth offset : Nat} {d e : Draft} {t : Token} {ts : List Token}

theorem progress_takeWord (offset : Nat) (d : Draft) (cs : List Char) (notices : List Notice) :
    ∃ later, (d.progress offset notices).takeWord cs
        (Word.read cs (d.progress offset notices).offset) =
      (d.push (.word cs)).progress offset later := by
  refine ⟨((d.progress offset notices).takeWord cs
    (Word.read cs (d.progress offset notices).offset)).notices, ?_⟩
  simp [Progress.takeWord, progress, push, length_textOf_tokens, text, nodesOf, node?, isItem,
    Nat.add_assoc]

theorem progress_openGroup (d : Draft) (b : Bracket) (notices : List Notice) :
    (d.progress offset notices).openGroup b = (d.push (.opening b)).progress offset notices := by
  simp [Progress.openGroup, progress, push, length_textOf_tokens, outerLength_cons, openedOf,
    openGroupOf, startOf, textOf, textOfEarlier, groupsOf, nodesOf, Nat.add_assoc]

theorem progress_endSequence (f : Frame) (fs : List Frame) (s : List Piece)
    (notices : List Notice) :
    (progress offset ⟨f :: fs, s⟩ notices).endSequence (openGroupOf offset f fs)
        (openedOf offset fs) =
      (push ⟨f :: fs, s⟩ .comma).progress offset notices := by
  simp [Progress.endSequence, progress, push, length_textOf_tokens, outerLength_cons, openedOf,
    openGroupOf, startOf, textOf, textOfEarlier, groupsOf, nodesOf, Nat.add_assoc, Nat.add_comm 1]

theorem progress_closeGroup (f : Frame) (fs : List Frame) (s : List Piece)
    (m : Option GroupModifier) (notices later : List Notice) :
    (progress offset ⟨f :: fs, s⟩ notices).closeGroup (openGroupOf offset f fs)
        (openedOf offset fs) (Piece.settings m) later (Token.closing f.bracket m).text.length =
      (push ⟨f :: fs, s⟩ (.closing f.bracket m)).progress offset (later ++ notices) := by
  simp [Progress.closeGroup, progress, push, length_textOf_tokens, outerLength_cons, openGroupOf,
    startOf, text_closing, text, nodesOf, node?, isItem, Nat.add_assoc, Nat.add_comm 1]

theorem settingsOf_fst (group : OpenGroup) (m : Option GroupModifier) :
    (Progress.settingsOf group m).1 = Piece.settings m := by
  cases m with
  | none => rfl
  | some m =>
      simp only [Progress.settingsOf, Piece.settings]
      cases GroupSettings.ofNumber? m.field m.number <;> rfl

/-- A token that may follow is taken, unless a number in it has a fault. -/
theorem step_of_follows (offset : Nat) (ht : d.Follows (limit.toNat - depth) t)
    (notices : List Notice) :
    ∃ later, (d.progress offset notices).step limit depth t =
      Stop.unlessFault t.fault? (.ok ((d.push t).progress offset later)) := by
  obtain ⟨frames, s⟩ := d
  cases t with
  | separator c =>
      refine ⟨notices, ?_⟩
      simp [Progress.step, Token.fault?, progress, push, length_textOf_tokens, text, nodesOf,
        node?, isItem, Nat.add_assoc]
  | word cs =>
      have happart : (progress offset ⟨frames, s⟩ notices).afterItem = false := ht
      obtain ⟨later, htake⟩ := progress_takeWord offset ⟨frames, s⟩ cs notices
      refine ⟨later, ?_⟩
      simp only [Progress.step, happart, if_false, Bool.false_eq_true, Token.fault?]
      cases hfault : Word.fault? cs with
      | some fault =>
          rw [Word.node_of_fault?_eq_some hfault]
          rfl
      | none =>
          rw [Word.node_of_fault?_eq_none hfault, ← htake]
          rfl
  | opening b =>
      have hroom : frames.length < limit.toNat - depth := ht
      have hlt : ¬ limit ≤
          ((depth + (progress offset ⟨frames, s⟩ notices).opened.length : Nat) : Int) := by
        simp only [progress, length_openedOf]
        omega
      refine ⟨notices, ?_⟩
      rw [Progress.step, if_neg hlt, progress_openGroup]
      rfl
  | comma =>
      obtain ⟨f, fs, rfl, hholds⟩ := exists_of_follows_comma ht
      refine ⟨notices, ?_⟩
      rw [← progress_endSequence f fs s notices]
      simp [Progress.step, progress, openedOf, openGroupOf, hholds, Token.fault?]
  | closing b m =>
      obtain ⟨f, fs, rfl, rfl⟩ := exists_of_follows_closing ht
      refine ⟨(Progress.settingsOf (openGroupOf offset f fs) m).2 ++ notices, ?_⟩
      rw [← progress_closeGroup f fs s m notices]
      simp only [Progress.step, progress, openedOf, openGroupOf, if_true, settingsOf_fst]
      rfl
  | strayParenthesis => cases ht

/-- How the reading stops before a token that may not follow. -/
def refusal (limit : Int) (offset : Nat) (d : Draft) : Token → Stop
  | .opening _ => .problem (.tooDeep limit) (d.progress offset []).offset
  | _ => (d.progress offset []).blocked

theorem step_of_not_follows (ht : ¬ d.Follows (limit.toNat - depth) t) (notices : List Notice) :
    (d.progress offset notices).step limit depth t = .error (d.refusal limit offset t) := by
  obtain ⟨frames, s⟩ := d
  cases t with
  | separator c => exact absurd trivial ht
  | word cs =>
      have htouches : endsWithItem s = true := by simpa [Follows] using ht
      simp only [Progress.step, progress, htouches, if_true]
      rfl
  | opening b =>
      have hfull : ¬ frames.length < limit.toNat - depth := ht
      have hle : limit ≤
          ((depth + (progress offset ⟨frames, s⟩ notices).opened.length : Nat) : Int) := by
        simp only [progress, length_openedOf]
        omega
      rw [Progress.step, if_pos hle]
      rfl
  | comma =>
      cases frames with
      | nil => rfl
      | cons f fs =>
          have hone : f.bracket.holdsGroups = false := by simpa [Follows] using ht
          simp only [Progress.step, progress, openedOf, openGroupOf, hone]
          rfl
  | closing b m =>
      cases frames with
      | nil => rfl
      | cons f fs =>
          have hother : ¬ f.bracket = b := by simpa [Follows] using ht
          simp only [Progress.step, progress, openedOf, openGroupOf, if_neg hother]
          rfl
  | strayParenthesis => rfl

/-- The reading runs along a draft. -/
theorem ofTokens_of_reads (offset : Nat) (hreads : Reads (limit.toNat - depth) d ts e)
    (notices : List Notice) :
    ∃ later, ∀ rest,
      (Reading.ofTokens limit depth (d.progress offset notices) (ts ++ rest)).result =
        Stop.unlessFault (ts.findSome? Token.fault?)
          (Reading.ofTokens limit depth (e.progress offset later) rest).result := by
  induction hreads generalizing notices with
  | nil d => exact ⟨notices, fun _ => rfl⟩
  | @cons d e t ts ht _ ih =>
      obtain ⟨middle, hstep⟩ := step_of_follows offset ht notices
      obtain ⟨later, hrest⟩ := ih middle
      refine ⟨later, ?_⟩
      intro rest
      rw [List.cons_append, Reading.ofTokens, hstep, List.findSome?_cons]
      cases t.fault? with
      | some fault => rfl
      | none => exact hrest rest

/-- Some tokens at the front extend a draft, and the next one may not follow. -/
theorem exists_reads (room : Nat) (d : Draft) (ts : List Token) :
    ∃ read unread e, ts = read ++ unread ∧ Reads room d read e ∧
      ∀ t ∈ unread.head?, ¬ e.Follows room t := by
  induction ts generalizing d with
  | nil => exact ⟨[], [], d, rfl, .nil d, by simp⟩
  | cons t ts ih =>
      by_cases ht : d.Follows room t
      · obtain ⟨read, unread, e, hsplit, hreads, hend⟩ := ih (d.push t)
        exact ⟨t :: read, unread, e, by rw [hsplit, List.cons_append], .cons ht hreads, hend⟩
      · exact ⟨[], t :: ts, d, rfl, .nil d, by simpa using ht⟩

/-- What a reading comes to where a draft cannot be extended. -/
def outcome (limit : Int) (offset : Nat) (d : Draft) : List Token → Except Stop (List (Node Float))
  | [] => (d.progress offset []).finish
  | t :: _ => .error (d.refusal limit offset t)

/-- How a draft looks where the reading meets a problem before the tokens that are left. -/
inductive Meets (limit : Int) (offset : Nat) : Draft → List Token → Cause → Nat → Prop
  | unterminated (f : Frame) (fs : List Frame) (s : List Piece) :
      Meets limit offset ⟨f :: fs, s⟩ [] (.unterminated f.bracket) (startOf offset f fs)
  | missingCloser (f : Frame) (fs : List Frame) (s : List Piece) {t : Token} (rest : List Token)
      (hclosing : ∀ m, t ≠ .closing f.bracket m) :
      Meets limit offset ⟨f :: fs, s⟩ (t :: rest) (.missingCloser f.bracket (startOf offset f fs))
        (offset + (Token.textOf (tokens ⟨f :: fs, s⟩)).length)
  | tooDeep (d : Draft) (b : Bracket) (rest : List Token) :
      Meets limit offset d (.opening b :: rest) (.tooDeep limit)
        (offset + (Token.textOf d.tokens).length)
  | leftover (s : List Piece) (t : Token) (rest : List Token) :
      Meets limit offset ⟨[], s⟩ (t :: rest) .leftover
        (offset + (Token.textOf (tokens ⟨[], s⟩)).length)

/-- A draft that cannot be extended is complete, or the reading meets a problem. -/
theorem outcome_cases {unread : List Token}
    (hend : ∀ t ∈ unread.head?, ¬ d.Follows (limit.toNat - depth) t) :
    (unread = [] ∧ d.frames = [] ∧
      d.outcome limit offset unread = .ok (nodesOf offset d.current)) ∨
    ∃ cause p, d.outcome limit offset unread = .error (.problem cause p) ∧
      Meets limit offset d unread cause p := by
  obtain ⟨frames, s⟩ := d
  cases unread with
  | nil =>
      cases frames with
      | nil =>
          refine .inl ⟨rfl, rfl, ?_⟩
          simp [outcome, Progress.finish, progress, openedOf, outerLength, outerTokens]
      | cons f fs => exact .inr ⟨_, _, rfl, .unterminated f fs s⟩
  | cons t rest =>
      have hnot := hend t rfl
      right
      cases t with
      | opening b => exact ⟨_, _, rfl, .tooDeep _ b rest⟩
      | separator c => exact absurd trivial hnot
      | _ =>
          cases frames with
          | nil => exact ⟨_, _, rfl, .leftover s _ rest⟩
          | cons f fs =>
              refine ⟨_, _, rfl, .missingCloser f fs s rest ?_⟩
              intro m hclosing
              cases hclosing <;> exact hnot ⟨f, rfl, rfl⟩

/-- The result of a reading is told by a draft that its tokens lead to and that the next one may not
follow. -/
theorem result_eq_of_reads (limit : Int) (depth offset : Nat) {cs : List Char}
    {read unread : List Token} {e : Draft} (hsplit : CyclePattern.tokens cs = read ++ unread)
    (hreads : Reads (limit.toNat - depth) empty read e)
    (hend : ∀ t ∈ unread.head?, ¬ e.Follows (limit.toNat - depth) t) :
    (Reading.ofText limit depth offset cs).result =
      Stop.unlessFault (read.findSome? Token.fault?) (e.outcome limit offset unread) := by
  obtain ⟨later, hresult⟩ := ofTokens_of_reads offset hreads []
  rw [Reading.ofText, hsplit]
  have hstart : Progress.start offset = empty.progress offset [] := rfl
  rw [hstart, hresult unread]
  congr 1
  cases unread with
  | nil => rfl
  | cons t rest => rw [Reading.ofTokens, step_of_not_follows (hend t rfl), outcome]

/-- The result of a reading is told by the draft where it ends. -/
theorem exists_result_eq (limit : Int) (depth offset : Nat) (cs : List Char) :
    ∃ read unread e, CyclePattern.tokens cs = read ++ unread ∧
      Reads (limit.toNat - depth) empty read e ∧
      (∀ t ∈ unread.head?, ¬ e.Follows (limit.toNat - depth) t) ∧
      (Reading.ofText limit depth offset cs).result =
        Stop.unlessFault (read.findSome? Token.fault?) (e.outcome limit offset unread) := by
  obtain ⟨read, unread, e, hsplit, hreads, hend⟩ :=
    exists_reads (limit.toNat - depth) empty (CyclePattern.tokens cs)
  exact ⟨read, unread, e, hsplit, hreads, hend,
    result_eq_of_reads limit depth offset hsplit hreads hend⟩

end Draft

end CyclePattern
