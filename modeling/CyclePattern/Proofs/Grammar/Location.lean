/-
# Where the nodes of a derivation come from

Every node that was written as an item comes from a piece, and the tokens of the piece stand in the
text where the span of the node says. So what is shown of pieces in their place holds of all nodes
of a tree.
-/

import CyclePattern.Proofs.Grammar.Language
import CyclePattern.Proofs.Lexing.Place
import CyclePattern.Proofs.Tree.WordNode

namespace CyclePattern

open Token (Occur)

namespace Piece

/-- The node of a piece that stands at an offset of a text, with room for some number of groups
inside one another. -/
structure Locates (cs : List Char) (room : Nat) (p : Piece) (o : Nat) (n : Node Float) : Prop where
  occur : Occur cs o p.tokens
  shaped : p.Shaped
  nesting : p.nesting ≤ room
  node : p.node? o = some n

variable {cs : List Char} {room o : Nat} {p : Piece} {n m : Node Float} {g : List (Node Float)}

theorem occur_cons {ps : List Piece} (hoccur : Occur cs o (tokensOf (p :: ps))) :
    Occur cs o p.tokens ∧ Occur cs (o + p.text.length) (tokensOf ps) := by
  rw [tokensOf] at hoccur
  have hnext := hoccur.right
  rw [textOf_tokens] at hnext
  exact ⟨hoccur.left, hnext⟩

theorem exists_of_mem_nodesOf {ps : List Piece} (hoccur : Occur cs o (tokensOf ps))
    (hn : n ∈ nodesOf o ps) : ∃ p ∈ ps, ∃ s, Occur cs s p.tokens ∧ p.node? s = some n := by
  induction ps generalizing o with
  | nil => cases hn
  | cons p ps ih =>
      obtain ⟨hplace, hnext⟩ := occur_cons hoccur
      rw [nodesOf, List.mem_append] at hn
      rcases hn with hhead | hrest
      · exact ⟨p, by simp, o, hplace, by simpa using hhead⟩
      · obtain ⟨q, hq, s, hfound⟩ := ih hnext hrest
        exact ⟨q, List.mem_cons_of_mem p hq, s, hfound⟩

theorem exists_of_mem_groupsOf {ss : List (List Piece)} (hoccur : Occur cs o (tokensOfEarlier ss))
    (hg : g ∈ groupsOf o ss) :
    ∃ s ∈ ss, ∃ place, Occur cs place (tokensOf s) ∧ nodesOf place s = g := by
  induction ss generalizing o with
  | nil => cases hg
  | cons s ss ih =>
      rw [tokensOfEarlier] at hoccur
      rw [groupsOf, List.mem_cons] at hg
      rcases hg with rfl | hrest
      · exact ⟨s, by simp, o, hoccur.left, rfl⟩
      · have hnext := hoccur.right.tail
        rw [textOf_tokensOf] at hnext
        obtain ⟨u, hu, place, hfound⟩ := ih hnext hrest
        exact ⟨u, List.mem_cons_of_mem s hu, place, hfound⟩

/-- The sequences of a group that starts at an offset. -/
def sequencesOf (o : Nat) (earlier : List (List Piece)) (last : List Piece) :
    List (List (Node Float)) :=
  groupsOf (o + 1) earlier ++ [nodesOf (o + 1 + (textOfEarlier earlier).length) last]

/-- Where the parts of a group stand. -/
theorem occur_group {b : Bracket} {earlier : List (List Piece)} {last : List Piece}
    {m : Option GroupModifier} (hoccur : Occur cs o (group b earlier last m).tokens) :
    Occur cs (o + 1) (tokensOfEarlier earlier) ∧
      Occur cs (o + 1 + (textOfEarlier earlier).length) (tokensOf last) ∧
      Occur cs (o + 1 + (textOfEarlier earlier).length + (textOf last).length) [.closing b m] := by
  rw [Piece.tokens] at hoccur
  have hinner := hoccur.tail
  have hafter := hinner.right
  have hcloser := hafter.right
  rw [textOf_tokensOfEarlier] at hafter hcloser
  rw [textOf_tokensOf] at hcloser
  exact ⟨hinner.left, hafter.left, hcloser⟩

theorem exists_of_mem_sequencesOf {b : Bracket} {earlier : List (List Piece)} {last : List Piece}
    {m : Option GroupModifier} (hoccur : Occur cs o (group b earlier last m).tokens)
    (hg : g ∈ sequencesOf o earlier last) :
    ∃ s, (s ∈ earlier ∨ s = last) ∧ ∃ place, Occur cs place (tokensOf s) ∧ nodesOf place s = g := by
  obtain ⟨hearlier, hlast, -⟩ := occur_group hoccur
  rw [sequencesOf, List.mem_append, List.mem_singleton] at hg
  rcases hg with hg | rfl
  · obtain ⟨s, hs, hfound⟩ := exists_of_mem_groupsOf hearlier hg
    exact ⟨s, .inl hs, hfound⟩
  · exact ⟨last, .inr rfl, _, hlast, rfl⟩

/-- An item of a located group is a located piece of its own. -/
theorem locates_of_mem_sequencesOf {b : Bracket} {earlier : List (List Piece)} {last : List Piece}
    {m : Option GroupModifier} (hgroup : Locates cs room (group b earlier last m) o n)
    (hg : g ∈ sequencesOf o earlier last) {item : Node Float} (hitem : item ∈ g) :
    ∃ p s, ((∃ s ∈ earlier, p ∈ s) ∨ p ∈ last) ∧ Locates cs room p s item := by
  obtain ⟨s, hs, place, hoccur, rfl⟩ := exists_of_mem_sequencesOf hgroup.occur hg
  obtain ⟨p, hp, start, hplace, hnode⟩ := exists_of_mem_nodesOf hoccur hitem
  obtain ⟨-, hshapes, -, hshape⟩ := shaped_group_iff.mp hgroup.shaped
  have hnesting := hgroup.nesting
  rw [nesting] at hnesting
  rcases hs with hs | rfl
  · have hinner : p.nesting ≤ nestingOfEarlier earlier :=
      nestingOf_le_iff.mp (nestingOfEarlier_le_iff.mp (Nat.le_refl _) s hs) p hp
    exact ⟨p, start, .inl ⟨s, hs, hp⟩, hplace, (hshapes s hs).2 p hp, by omega, hnode⟩
  · have hinner : p.nesting ≤ nestingOf s := nestingOf_le_iff.mp (Nat.le_refl _) p hp
    exact ⟨p, start, .inr hp, hplace, hshape p hp, by omega, hnode⟩

/-- To prove something of every located piece, prove it of words, and of groups whose items have
it. -/
@[elab_as_elim]
theorem Locates.induction {motive : ∀ p o n, Locates cs room p o n → Prop}
    (word : ∀ w o n (hp : Locates cs room (word w) o n), motive (word w) o n hp)
    (group : ∀ b earlier last m o n (hp : Locates cs room (group b earlier last m) o n),
      (∀ g ∈ sequencesOf o earlier last, ∀ item ∈ g,
        ∃ q s, ∃ hq : Locates cs room q s item, motive q s item hq) →
      motive (group b earlier last m) o n hp)
    (p : Piece) (o : Nat) (n : Node Float) (hp : Locates cs room p o n) : motive p o n hp := by
  induction p generalizing o n with
  | separator c => cases hp.node
  | word w => exact word w o n hp
  | group b earlier last m hearlier hlast =>
      apply group
      intro g hg item hitem
      obtain ⟨q, s, hplace, hq⟩ := locates_of_mem_sequencesOf hp hg hitem
      refine ⟨q, s, hq, ?_⟩
      rcases hplace with ⟨u, hu, hmem⟩ | hmem
      · exact hearlier u hu q hmem s item hq
      · exact hlast q hmem s item hq

theorem node?_group (o : Nat) (b : Bracket) (earlier : List (List Piece)) (last : List Piece)
    (m : Option GroupModifier) :
    (group b earlier last m).node? o =
      some (groupNode b (sequencesOf o earlier last) (settings m)
        (.between o (o + (group b earlier last m).text.length : Nat))) :=
  rfl

theorem holds_sequence (hholds : (Node.sequence g).Holds m) :
    m = .sequence g ∨ ∃ item ∈ g, item.Holds m := by
  cases hholds with
  | refl => exact .inl rfl
  | child hc hm => exact .inr ⟨_, hc, hm⟩

theorem holds_of_mem_sequences {groups : List (List (Node Float))} {c : Node Float}
    (hc : c ∈ groups.map Node.sequence) (hholds : c.Holds m) :
    (∃ g ∈ groups, m = .sequence g) ∨ ∃ g ∈ groups, ∃ item ∈ g, item.Holds m := by
  obtain ⟨g, hg, rfl⟩ := List.mem_map.mp hc
  rcases holds_sequence hholds with hself | hitem
  · exact .inl ⟨g, hg, hself⟩
  · exact .inr ⟨g, hg, hitem⟩

/-- What stands inside square brackets: one sequence by itself, or a stack of several. -/
def innerOf (groups : List (List (Node Float))) : Node Float :=
  match groups with
  | [single] => .sequence single
  | _ => .stack (groups.map .sequence)

theorem innerOf_cases (groups : List (List (Node Float))) :
    (∃ single, groups = [single] ∧ innerOf groups = .sequence single) ∨
      innerOf groups = .stack (groups.map .sequence) := by
  cases groups with
  | nil => exact .inr rfl
  | cons first others =>
      cases others with
      | nil => exact .inl ⟨first, rfl, rfl⟩
      | cons second others => exact .inr rfl

theorem groupNode_square (groups : List (List (Node Float))) (settings : GroupSettings)
    (span : Span) :
    groupNode .square groups settings span =
      .subdivision (innerOf groups) settings.repeats settings.division settings.ratio span :=
  rfl

/-- What the children of a group node hold is the stack inside it, its sequences, or what their items
hold. -/
theorem holds_child_groupNode {b : Bracket} {groups : List (List (Node Float))}
    {settings : GroupSettings} {span : Span} {c : Node Float}
    (hc : c ∈ (groupNode b groups settings span).children) (hholds : c.Holds m) :
    (m = .stack (groups.map .sequence) ∧ innerOf groups = m) ∨ (∃ g ∈ groups, m = .sequence g) ∨
      ∃ g ∈ groups, ∃ item ∈ g, item.Holds m := by
  cases b with
  | square =>
      have hinner : c = innerOf groups := List.mem_singleton.mp hc
      rw [hinner] at hholds
      rcases innerOf_cases groups with ⟨single, rfl, hsingle⟩ | hstack
      · rw [hsingle] at hholds
        exact .inr (holds_of_mem_sequences (List.mem_singleton.mpr rfl) hholds)
      · rw [hstack] at hholds
        cases hholds with
        | refl => exact .inl ⟨rfl, hstack⟩
        | child hc hm => exact .inr (holds_of_mem_sequences hc hm)
  | angle =>
      obtain ⟨hflat, -⟩ := List.mem_filter.mp hc
      obtain ⟨g, hg, hitem⟩ := List.mem_flatten.mp hflat
      exact .inr (.inr ⟨g, hg, c, hitem, hholds⟩)
  | curly => exact .inr (holds_of_mem_sequences hc hholds)

/-- What a group node holds is the node itself, the stack inside it, its sequences, or what their
items hold. -/
theorem holds_groupNode {b : Bracket} {groups : List (List (Node Float))}
    {settings : GroupSettings} {span : Span}
    (hholds : (groupNode b groups settings span).Holds m) :
    m = groupNode b groups settings span ∨
      (m = .stack (groups.map .sequence) ∧ innerOf groups = m) ∨
      (∃ g ∈ groups, m = .sequence g) ∨ ∃ g ∈ groups, ∃ item ∈ g, item.Holds m := by
  cases hholds with
  | refl => exact .inl rfl
  | child hc hm => exact .inr (holds_child_groupNode hc hm)

/-- No piece of a text is empty. -/
theorem text_ne_nil_of_occur (hoccur : Occur cs o p.tokens) : p.text ≠ [] := by
  rw [← textOf_tokens]
  have hlegible := hoccur.drop_eq.2
  cases htokens : p.tokens with
  | nil => cases p <;> simp [Piece.tokens] at htokens
  | cons t ts =>
      rw [htokens] at hlegible
      rw [Token.textOf_cons]
      exact List.append_ne_nil_of_left_ne_nil (Token.text_ne_nil_of_stands hlegible.1) _

/-- The span of the node of a piece is the stretch of its characters. -/
theorem span?_of_node? (hnode : p.node? o = some n) :
    n.span? = some (.between o (o + p.text.length : Nat)) ∧ p.isItem = true := by
  cases p with
  | separator c => cases hnode
  | word cs =>
      cases hnode
      exact ⟨Word.span?_read cs o, rfl⟩
  | group b earlier last m =>
      rw [node?_group] at hnode
      cases hnode
      refine ⟨?_, rfl⟩
      cases b <;> rfl

end Piece

end CyclePattern
