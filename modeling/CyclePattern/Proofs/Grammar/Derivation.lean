/-
# Derivations

A derivation lays a pattern out as the rules of the notation read it: a sequence is a list of
pieces, and a piece is one separator, a word, or a group that holds sequences of its own. It is
plain data, so that two derivations of one text can be compared. Which data are derivations is a
predicate: a piece may depend on the text after it, and an item must not touch the word after it.

The tree of a derivation says what each piece stands for; nothing in it depends on how a pattern
is read.
-/

import CyclePattern.Pattern.Reading
import CyclePattern.Proofs.Lexing.Token
import Mathlib.Data.List.Chain

namespace CyclePattern

open Text

/-- Piece of a derivation. A group holds sequences that a comma ends, and a last one. -/
inductive Piece
  | separator (c : Char)
  | word (text : List Char)
  | group (bracket : Bracket) (earlier : List (List Piece)) (last : List Piece)
      (modifier : Option GroupModifier)

/-- The characters of a modifier that may be absent. -/
def modifierText : Option GroupModifier → List Char
  | none => []
  | some m => m.text

namespace Piece

/-- Whether the piece is an item of its sequence. -/
def isItem : Piece → Bool
  | separator _ => false
  | _ => true

/-- Whether the piece is a word. -/
def isWord : Piece → Bool
  | word _ => true
  | _ => false

/-- No word directly follows an item: between the two stands a separator, while a group needs
none. -/
def Spaced (pieces : List Piece) : Prop :=
  pieces.IsChain fun p next => p.isItem = true → next.isWord = false

mutual

/-- The characters of a piece. -/
def text : Piece → List Char
  | separator c => [c]
  | word cs => cs
  | group b earlier last m =>
    b.opener :: (textOfEarlier earlier ++ (textOf last ++ b.closer :: modifierText m))

/-- The characters of a sequence. -/
def textOf : List Piece → List Char
  | [] => []
  | p :: ps => p.text ++ textOf ps

/-- The characters of sequences that a comma ends. -/
def textOfEarlier : List (List Piece) → List Char
  | [] => []
  | s :: rest => textOf s ++ ',' :: textOfEarlier rest

end

mutual

/-- Whether a piece may stand before the text `after`. -/
def Fits (after : List Char) : Piece → Prop
  | separator c => IsSeparator c after
  | word cs => IsWord cs after
  | group b earlier last m =>
    (b.holdsGroups = false → earlier = []) ∧
    FitsEarlier (textOf last ++ b.closer :: (modifierText m ++ after)) earlier ∧
    Spaced last ∧ FitsAll (b.closer :: (modifierText m ++ after)) last ∧
    ∀ x, m = some x → x.Fits b after

/-- Whether every piece may stand before the text of those after it, and then `after`. -/
def FitsAll (after : List Char) : List Piece → Prop
  | [] => True
  | p :: ps => p.Fits (textOf ps ++ after) ∧ FitsAll after ps

/-- Whether sequences that a comma ends may stand one after the other before `after`. -/
def FitsEarlier (after : List Char) : List (List Piece) → Prop
  | [] => True
  | s :: rest =>
    Spaced s ∧ FitsAll (',' :: (textOfEarlier rest ++ after)) s ∧ FitsEarlier after rest

end

/-- The pieces are a derivation of the text. -/
structure Derives (pieces : List Piece) (cs : List Char) : Prop where
  text : textOf pieces = cs
  spaced : Spaced pieces
  fits : FitsAll [] pieces

mutual

/-- Number of groups inside one another. -/
def nesting : Piece → Nat
  | group _ earlier last _ => max (nestingOfEarlier earlier) (nestingOf last) + 1
  | _ => 0

/-- Number of groups inside one another in a sequence. -/
def nestingOf : List Piece → Nat
  | [] => 0
  | p :: ps => max p.nesting (nestingOf ps)

/-- Number of groups inside one another in some sequences. -/
def nestingOfEarlier : List (List Piece) → Nat
  | [] => 0
  | s :: rest => max (nestingOf s) (nestingOfEarlier rest)

end

/-- What a modifier sets. A number out of range sets nothing. -/
def settings : Option GroupModifier → GroupSettings
  | none => .none
  | some m => (GroupSettings.ofNumber? m.field m.number).getD .none

mutual

/-- What a piece that starts at an offset stands for in the tree. -/
def node? (offset : Nat) : Piece → Option (Node Float)
  | separator _ => none
  | word cs => some (Word.read cs offset).value
  | group b earlier last m =>
    some (groupNode b
      (groupsOf (offset + 1) earlier ++ [nodesOf (offset + 1 + (textOfEarlier earlier).length) last])
      (settings m) (.between offset (offset + (text (group b earlier last m)).length : Nat)))

/-- The items of a sequence that starts at an offset. -/
def nodesOf (offset : Nat) : List Piece → List (Node Float)
  | [] => []
  | p :: ps => (p.node? offset).toList ++ nodesOf (offset + p.text.length) ps

/-- The items of sequences that a comma ends, from an offset on. -/
def groupsOf (offset : Nat) : List (List Piece) → List (List (Node Float))
  | [] => []
  | s :: rest => nodesOf offset s :: groupsOf (offset + (textOf s).length + 1) rest

end

/-- A piece and the pieces inside it. -/
inductive Contains : Piece → Piece → Prop
  | refl (p : Piece) : Contains p p
  | earlier {b : Bracket} {earlier : List (List Piece)} {last : List Piece}
      {m : Option GroupModifier} {s : List Piece} {p q : Piece} (hs : s ∈ earlier) (hp : p ∈ s)
      (hq : Contains p q) : Contains (group b earlier last m) q
  | last {b : Bracket} {earlier : List (List Piece)} {last : List Piece}
      {m : Option GroupModifier} {p q : Piece} (hp : p ∈ last) (hq : Contains p q) :
      Contains (group b earlier last m) q

/-- To prove something of every piece, prove it of a group whose pieces all have it. -/
@[elab_as_elim, induction_eliminator]
theorem induction {motive : Piece → Prop} (separator : ∀ c, motive (separator c))
    (word : ∀ cs, motive (word cs))
    (group : ∀ b earlier last m, (∀ s ∈ earlier, ∀ p ∈ s, motive p) → (∀ p ∈ last, motive p) →
      motive (group b earlier last m)) : ∀ p, motive p
  | .separator c => separator c
  | .word cs => word cs
  | .group b earlier last m =>
      group b earlier last m
        (fun s _hs p _hp => induction separator word group p)
        (fun p _hp => induction separator word group p)
termination_by p => sizeOf p
decreasing_by
  · have := List.sizeOf_lt_of_mem _hs
    have := List.sizeOf_lt_of_mem _hp
    simp only [Piece.group.sizeOf_spec]
    omega
  · have := List.sizeOf_lt_of_mem _hp
    simp only [Piece.group.sizeOf_spec]
    omega

@[simp]
theorem textOf_append (ps qs : List Piece) : textOf (ps ++ qs) = textOf ps ++ textOf qs := by
  induction ps with
  | nil => rfl
  | cons p ps ih => simp [textOf, ih]

@[simp]
theorem textOf_singleton (p : Piece) : textOf [p] = p.text := by
  simp [textOf]

@[simp]
theorem textOfEarlier_append (ss us : List (List Piece)) :
    textOfEarlier (ss ++ us) = textOfEarlier ss ++ textOfEarlier us := by
  induction ss with
  | nil => rfl
  | cons s ss ih => simp [textOfEarlier, ih]

@[simp]
theorem nodesOf_append (offset : Nat) (ps qs : List Piece) :
    nodesOf offset (ps ++ qs) = nodesOf offset ps ++ nodesOf (offset + (textOf ps).length) qs := by
  induction ps generalizing offset with
  | nil => simp [nodesOf, textOf]
  | cons p ps ih => simp [nodesOf, textOf, ih, Nat.add_assoc]

@[simp]
theorem groupsOf_append (offset : Nat) (ss us : List (List Piece)) :
    groupsOf offset (ss ++ us) =
      groupsOf offset ss ++ groupsOf (offset + (textOfEarlier ss).length) us := by
  induction ss generalizing offset with
  | nil => simp [groupsOf, textOfEarlier]
  | cons s ss ih => simp [groupsOf, textOfEarlier, ih, Nat.add_assoc, Nat.add_comm 1]

theorem nestingOf_le_iff {n : Nat} {ps : List Piece} :
    nestingOf ps ≤ n ↔ ∀ p ∈ ps, p.nesting ≤ n := by
  induction ps with
  | nil => simp [nestingOf]
  | cons p ps ih => rw [nestingOf, Nat.max_le, ih, List.forall_mem_cons]

theorem nestingOfEarlier_le_iff {n : Nat} {ss : List (List Piece)} :
    nestingOfEarlier ss ≤ n ↔ ∀ s ∈ ss, nestingOf s ≤ n := by
  induction ss with
  | nil => simp [nestingOfEarlier]
  | cons s ss ih => rw [nestingOfEarlier, Nat.max_le, ih, List.forall_mem_cons]

theorem spaced_cons_iff {p : Piece} {ps : List Piece} :
    Spaced (p :: ps) ↔
      (p.isItem = true → ∀ q ∈ ps.head?, q.isWord = false) ∧ Spaced ps := by
  unfold Spaced
  rw [List.isChain_cons]
  grind

/-- What holds of everything inside a group holds of everything in its sequences. -/
theorem forall_contains_group_iff {P : Piece → Prop} {b : Bracket} {earlier : List (List Piece)}
    {last : List Piece} {m : Option GroupModifier} :
    (∀ q, (group b earlier last m).Contains q → P q) ↔
      P (group b earlier last m) ∧ (∀ s ∈ earlier, ∀ p ∈ s, ∀ q, p.Contains q → P q) ∧
        ∀ p ∈ last, ∀ q, p.Contains q → P q := by
  constructor
  · intro hall
    exact ⟨hall _ (.refl _), fun s hs p hp q hq => hall q (.earlier hs hp hq),
      fun p hp q hq => hall q (.last hp hq)⟩
  · rintro ⟨hself, hearlier, hlast⟩ q hq
    cases hq with
    | refl => exact hself
    | earlier hs hp hq => exact hearlier _ hs _ hp q hq
    | last hp hq => exact hlast _ hp q hq

end Piece

end CyclePattern
