/-
# Drafts

While a pattern is read, its derivation is known up to some point. Some groups are open, each with
the pieces before it and the sequences that a comma has ended, and the innermost sequence has some
pieces. Such a draft is extended by tokens that may follow it.

The drafts that can be reached with no group open are exactly the derivations, and a draft with
open groups becomes a derivation when they are closed.
-/

import CyclePattern.Proofs.Grammar.Tokens

namespace CyclePattern

/-- Whether an item comes last in a sequence. -/
def Piece.endsWithItem (s : List Piece) : Bool :=
  s.getLast?.any isItem

open Piece

@[simp]
theorem endsWithItem_nil : endsWithItem [] = false :=
  rfl

@[simp]
theorem endsWithItem_append_singleton (s : List Piece) (p : Piece) :
    endsWithItem (s ++ [p]) = p.isItem := by
  simp [endsWithItem]

/-- Group of a derivation that is not closed yet. -/
structure Frame where
  bracket : Bracket
  /-- Pieces before the group in the sequence that it stands in. -/
  before : List Piece
  /-- Its sequences that a comma has ended. -/
  finished : List (List Piece)

/-- Derivation up to some point. -/
structure Draft where
  /-- Groups that are open, the innermost first. -/
  frames : List Frame
  /-- Pieces of the innermost sequence. -/
  current : List Piece

namespace Draft

/-- The draft before anything is read. -/
def empty : Draft :=
  ⟨[], []⟩

/-- The tokens before the innermost sequence. -/
def outerTokens : List Frame → List Token
  | [] => []
  | f :: fs =>
    outerTokens fs ++ (tokensOf f.before ++ .opening f.bracket :: tokensOfEarlier f.finished)

/-- The tokens of a draft. -/
def tokens (d : Draft) : List Token :=
  outerTokens d.frames ++ tokensOf d.current

/-- Whether a token may come next, with room for some number of open groups. -/
def Follows (room : Nat) (d : Draft) : Token → Prop
  | .separator _ => True
  | .word _ => endsWithItem d.current = false
  | .opening _ => d.frames.length < room
  | .comma => ∃ f ∈ d.frames.head?, f.bracket.holdsGroups = true
  | .closing b _ => ∃ f ∈ d.frames.head?, f.bracket = b
  | .strayParenthesis => False

/-- The draft with one token more. -/
def push (d : Draft) : Token → Draft
  | .separator c => ⟨d.frames, d.current ++ [.separator c]⟩
  | .word cs => ⟨d.frames, d.current ++ [.word cs]⟩
  | .opening b => ⟨⟨b, d.current, []⟩ :: d.frames, []⟩
  | .comma =>
    match d.frames with
    | f :: fs => ⟨{ f with finished := f.finished ++ [d.current] } :: fs, []⟩
    | [] => d
  | .closing _ m =>
    match d.frames with
    | f :: fs => ⟨fs, f.before ++ [.group f.bracket f.finished d.current m]⟩
    | [] => d
  | .strayParenthesis => d

/-- One draft extends another by tokens each of which may come next. -/
inductive Reads (room : Nat) : Draft → List Token → Draft → Prop
  | nil (d : Draft) : Reads room d [] d
  | cons {d e : Draft} {t : Token} {ts : List Token} (ht : d.Follows room t)
      (hts : Reads room (d.push t) ts e) : Reads room d (t :: ts) e

variable {room : Nat} {d e : Draft} {t : Token} {ts : List Token} {f : Frame} {fs : List Frame}
  {s : List Piece}

/-- A comma ends a sequence of an open group that holds several. -/
theorem exists_of_follows_comma (ht : Follows room ⟨fs, s⟩ .comma) :
    ∃ f outer, fs = f :: outer ∧ f.bracket.holdsGroups = true := by
  obtain ⟨f, hf, hholds⟩ := ht
  cases fs with
  | nil => cases hf
  | cons g outer =>
      cases hf
      exact ⟨f, outer, rfl, hholds⟩

/-- A closer closes an open group of its bracket. -/
theorem exists_of_follows_closing {b : Bracket} {m : Option GroupModifier}
    (ht : Follows room ⟨fs, s⟩ (.closing b m)) : ∃ f outer, fs = f :: outer ∧ f.bracket = b := by
  obtain ⟨f, hf, hb⟩ := ht
  cases fs with
  | nil => cases hf
  | cons g outer =>
      cases hf
      exact ⟨f, outer, rfl, hb⟩

theorem tokens_push (ht : d.Follows room t) : (d.push t).tokens = d.tokens ++ [t] := by
  obtain ⟨frames, current⟩ := d
  cases t with
  | separator c => simp [push, tokens, tokensOf, Piece.tokens]
  | word cs => simp [push, tokens, tokensOf, Piece.tokens]
  | opening b => simp [push, tokens, outerTokens, tokensOf, tokensOfEarlier]
  | comma =>
      obtain ⟨f, fs, rfl, -⟩ := exists_of_follows_comma ht
      simp [push, tokens, outerTokens, tokensOf, tokensOfEarlier]
  | closing b m =>
      obtain ⟨f, fs, rfl, rfl⟩ := exists_of_follows_closing ht
      simp [push, tokens, outerTokens, tokensOf, Piece.tokens]
  | strayParenthesis => cases ht

theorem Reads.tokens (hreads : Reads room d ts e) : e.tokens = d.tokens ++ ts := by
  induction hreads with
  | nil d => simp
  | cons ht _ ih => rw [ih, tokens_push ht, List.append_assoc, List.singleton_append]

/-- A sequence that may stand where there is room for some number of groups inside one another. -/
structure Admissible (room : Nat) (s : List Piece) : Prop where
  spaced : Spaced s
  shaped : ∀ p ∈ s, p.Shaped
  room : nestingOf s ≤ room

/-- Whether all sequences of open groups may stand where they do. -/
def SoundFrames (room : Nat) : List Frame → Prop
  | [] => True
  | f :: fs =>
    Admissible (room - fs.length) f.before ∧
    (f.bracket.holdsGroups = false → f.finished = []) ∧
    (∀ s ∈ f.finished, Admissible (room - (fs.length + 1)) s) ∧
    fs.length < room ∧ SoundFrames room fs

/-- Whether all sequences of a draft may stand where they do. -/
structure Sound (room : Nat) (d : Draft) : Prop where
  frames : SoundFrames room d.frames
  current : Admissible (room - d.frames.length) d.current

theorem SoundFrames.tail (hframes : SoundFrames room (f :: fs)) : SoundFrames room fs := by
  obtain ⟨-, -, -, -, hrest⟩ := hframes
  exact hrest

theorem SoundFrames.length_le (hframes : SoundFrames room fs) : fs.length ≤ room := by
  cases fs with
  | nil => exact Nat.zero_le room
  | cons f fs =>
      obtain ⟨-, -, -, hroom, -⟩ := hframes
      exact hroom

theorem admissible_nil (room : Nat) : Admissible room [] :=
  ⟨.nil, by simp, Nat.zero_le _⟩

theorem sound_empty (room : Nat) : empty.Sound room :=
  ⟨trivial, admissible_nil _⟩

theorem spaced_append_singleton {s : List Piece} {p : Piece} (hs : Spaced s)
    (hp : endsWithItem s = true → p.isWord = false) : Spaced (s ++ [p]) := by
  unfold Spaced at hs ⊢
  rw [List.isChain_append]
  refine ⟨hs, .singleton p, ?_⟩
  intro last hlast next hnext hitem
  cases hnext
  apply hp
  rw [endsWithItem, Option.mem_def.mp hlast]
  exact hitem

theorem Admissible.append_singleton {s : List Piece} {p : Piece} (hs : Admissible room s)
    (hword : endsWithItem s = true → p.isWord = false) (hshaped : p.Shaped)
    (hroom : p.nesting ≤ room) : Admissible room (s ++ [p]) := by
  refine ⟨spaced_append_singleton hs.spaced hword, ?_, ?_⟩
  · simpa [or_imp, forall_and] using ⟨hs.shaped, hshaped⟩
  · have hall := nestingOf_le_iff.mp hs.room
    apply nestingOf_le_iff.mpr
    simpa [or_imp, forall_and] using ⟨hall, hroom⟩

/-- A group of sequences that may stand inside it may stand where it does. -/
theorem Admissible.append_group {f : Frame} {fs : List Frame} {s : List Piece}
    {m : Option GroupModifier} (hframes : SoundFrames room (f :: fs))
    (hs : Admissible (room - (fs.length + 1)) s) :
    Admissible (room - fs.length) (f.before ++ [.group f.bracket f.finished s m]) := by
  obtain ⟨hbefore, hholds, hfinished, hroom, -⟩ := hframes
  apply hbefore.append_singleton (fun _ => rfl)
  · exact shaped_group_iff.mpr
      ⟨hholds, fun u hu => ⟨(hfinished u hu).spaced, (hfinished u hu).shaped⟩, hs.spaced, hs.shaped⟩
  · have hinner := nestingOfEarlier_le_iff.mpr fun u hu => (hfinished u hu).room
    have hlast := hs.room
    rw [nesting]
    omega

theorem Sound.push (hd : d.Sound room) (ht : d.Follows room t) : (d.push t).Sound room := by
  obtain ⟨frames, current⟩ := d
  obtain ⟨hframes, hcurrent⟩ := hd
  cases t with
  | separator c =>
      exact ⟨hframes, hcurrent.append_singleton (fun _ => rfl) (shaped_separator c)
        (Nat.zero_le _)⟩
  | word cs =>
      have happart : endsWithItem current = false := ht
      exact ⟨hframes, hcurrent.append_singleton (by simp [happart]) (shaped_word cs)
        (Nat.zero_le _)⟩
  | opening b => exact ⟨⟨hcurrent, fun _ => rfl, by simp, ht, hframes⟩, admissible_nil _⟩
  | comma =>
      obtain ⟨f, fs, rfl, hholds⟩ := exists_of_follows_comma ht
      obtain ⟨hbefore, -, hfinished, hroom, hrest⟩ := hframes
      refine ⟨⟨hbefore, by simp [hholds], ?_, hroom, hrest⟩, admissible_nil _⟩
      simpa [or_imp, forall_and] using ⟨hfinished, hcurrent⟩
  | closing b m =>
      obtain ⟨f, fs, rfl, -⟩ := exists_of_follows_closing ht
      exact ⟨hframes.tail, Admissible.append_group hframes hcurrent⟩
  | strayParenthesis => cases ht

theorem Reads.sound (hreads : Reads room d ts e) (hd : d.Sound room) : e.Sound room := by
  induction hreads with
  | nil d => exact hd
  | cons ht _ ih => exact ih (hd.push ht)

theorem Reads.trans {d e f : Draft} {ts us : List Token} (hfirst : Reads room d ts e)
    (hsecond : Reads room e us f) : Reads room d (ts ++ us) f := by
  induction hfirst with
  | nil d => exact hsecond
  | cons ht _ ih => exact .cons ht (ih hsecond)

/-- The tokens of a piece may come next where it has room and does not touch an item. -/
def Taken (room : Nat) (p : Piece) : Prop :=
  ∀ fs s, fs.length + p.nesting ≤ room → (p.isWord = true → endsWithItem s = false) →
    Reads room ⟨fs, s⟩ p.tokens ⟨fs, s ++ [p]⟩

theorem reads_pieces {s : List Piece} (hs : ∀ p ∈ s, Taken room p) (hspaced : Spaced s)
    {fs : List Frame} {front : List Piece} (hroom : fs.length + nestingOf s ≤ room)
    (hfront : endsWithItem front = true → ∀ p ∈ s.head?, p.isWord = false) :
    Reads room ⟨fs, front⟩ (tokensOf s) ⟨fs, front ++ s⟩ := by
  induction s generalizing front with
  | nil => simpa [tokensOf] using @Reads.nil room ⟨fs, front⟩
  | cons p s ih =>
      obtain ⟨hp, hrest⟩ := List.forall_mem_cons.mp hs
      obtain ⟨hnext, hspaced⟩ := spaced_cons_iff.mp hspaced
      rw [nestingOf] at hroom
      have hhead : Reads room ⟨fs, front⟩ p.tokens ⟨fs, front ++ [p]⟩ := by
        apply hp fs front (by omega)
        intro hword
        by_contra hitem
        simpa [hword] using hfront (by simpa using hitem) p
      have htail : Reads room ⟨fs, front ++ [p]⟩ (tokensOf s) ⟨fs, front ++ [p] ++ s⟩ :=
        ih hrest hspaced (by omega) (by simpa using hnext)
      simpa [tokensOf] using hhead.trans htail

theorem reads_earlier {ss : List (List Piece)} (hss : ∀ s ∈ ss, ∀ p ∈ s, Taken room p)
    (hspaced : ∀ s ∈ ss, Spaced s) {f : Frame} {fs : List Frame}
    (hholds : f.bracket.holdsGroups = false → ss = [])
    (hroom : fs.length + 1 + nestingOfEarlier ss ≤ room) :
    Reads room ⟨f :: fs, []⟩ (tokensOfEarlier ss)
      ⟨{ f with finished := f.finished ++ ss } :: fs, []⟩ := by
  induction ss generalizing f with
  | nil => simpa [tokensOfEarlier] using @Reads.nil room ⟨f :: fs, []⟩
  | cons s ss ih =>
      obtain ⟨hs, hrest⟩ := List.forall_mem_cons.mp hss
      obtain ⟨hspaced, hspaceds⟩ := List.forall_mem_cons.mp hspaced
      rw [nestingOfEarlier] at hroom
      have htrue : f.bracket.holdsGroups = true := by
        by_contra hfalse
        cases hholds (by simpa using hfalse)
      have hsequence : Reads room ⟨f :: fs, []⟩ (tokensOf s) ⟨f :: fs, s⟩ :=
        reads_pieces hs hspaced (by simp only [List.length_cons]; omega) (by simp)
      have hcomma : Reads room ⟨f :: fs, s⟩ [.comma]
          ⟨{ f with finished := f.finished ++ [s] } :: fs, []⟩ :=
        .cons ⟨f, rfl, htrue⟩ (.nil _)
      have htail : Reads room ⟨{ f with finished := f.finished ++ [s] } :: fs, []⟩
          (tokensOfEarlier ss) ⟨{ f with finished := f.finished ++ [s] ++ ss } :: fs, []⟩ :=
        ih hrest hspaceds (by simp [htrue]) (by omega)
      simpa [tokensOfEarlier] using (hsequence.trans hcomma).trans htail

theorem taken (p : Piece) (hshaped : p.Shaped) : Taken room p := by
  induction p with
  | separator c => exact fun fs s _ _ => .cons trivial (.nil _)
  | word cs => exact fun fs s _ happart => .cons (happart rfl) (.nil _)
  | group b earlier last m hearlier hlast =>
      intro fs s hroom _
      obtain ⟨hholds, hshapes, hspaced, hshape⟩ := shaped_group_iff.mp hshaped
      rw [nesting] at hroom
      have hopen : Reads room ⟨fs, s⟩ [.opening b] ⟨⟨b, s, []⟩ :: fs, []⟩ :=
        .cons (show fs.length < room by omega) (.nil _)
      have hinside : Reads room ⟨⟨b, s, []⟩ :: fs, []⟩ (tokensOfEarlier earlier)
          ⟨⟨b, s, [] ++ earlier⟩ :: fs, []⟩ := reads_earlier
        (fun u hu p hp => hearlier u hu p hp ((hshapes u hu).2 p hp))
        (fun u hu => (hshapes u hu).1) hholds (by omega)
      have hend : Reads room ⟨⟨b, s, earlier⟩ :: fs, []⟩ (tokensOf last)
          ⟨⟨b, s, earlier⟩ :: fs, last⟩ :=
        reads_pieces (fun p hp => hlast p hp (hshape p hp)) hspaced
          (by simp only [List.length_cons]; omega) (by simp)
      have hclose : Reads room ⟨⟨b, s, earlier⟩ :: fs, last⟩ [.closing b m]
          ⟨fs, s ++ [group b earlier last m]⟩ :=
        .cons ⟨_, rfl, rfl⟩ (.nil _)
      simpa [Piece.tokens] using ((hopen.trans hinside).trans hend).trans hclose

/-- The drafts without open groups that the tokens of a text lead to are its derivations. -/
theorem reads_iff_derives {ps : List Piece} {cs : List Char} :
    Reads room empty (CyclePattern.tokens cs) ⟨[], ps⟩ ↔ Derives ps cs ∧ nestingOf ps ≤ room := by
  rw [derives_iff]
  constructor
  · intro hreads
    have hcurrent := (hreads.sound (sound_empty room)).current
    exact ⟨⟨hreads.tokens.symm, hcurrent.spaced, hcurrent.shaped⟩, hcurrent.room⟩
  · intro ⟨⟨htokens, hspaced, hshaped⟩, hroom⟩
    rw [htokens]
    exact reads_pieces (fun p hp => taken p (hshaped p hp)) hspaced
      (by simpa using hroom) (by simp)

/-- The sequence that is left when each group is closed without a modifier. -/
def closed : List Frame → List Piece → List Piece
  | [], s => s
  | f :: fs, s => closed fs (f.before ++ [.group f.bracket f.finished s none])

theorem tokensOf_closed (fs : List Frame) (s : List Piece) :
    tokensOf (closed fs s) =
      outerTokens fs ++ (tokensOf s ++ fs.map fun f => .closing f.bracket none) := by
  induction fs generalizing s with
  | nil => simp [closed, outerTokens]
  | cons f fs ih => simp [closed, outerTokens, ih, tokensOf, Piece.tokens]

theorem admissible_closed {fs : List Frame} {s : List Piece} (hframes : SoundFrames room fs)
    (hs : Admissible (room - fs.length) s) : Admissible room (closed fs s) := by
  induction fs generalizing s with
  | nil => exact hs
  | cons f fs ih => exact ih hframes.tail (Admissible.append_group hframes hs)

end Draft

end CyclePattern
