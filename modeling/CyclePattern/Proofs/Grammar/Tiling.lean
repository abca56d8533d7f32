/-
# Every character is accounted for

The spans of a tree tile its text. Items of a sequence stand one after the other with separators
between them; a group starts at its opener, holds everything before its closer, and ends with the
modifier after it; sequences of a group have one comma between two of them; and the options of a
choice have bars between them. Only an alternation leaves more out: the elongation marks that it
drops.
-/

import CyclePattern.Proofs.Grammar.Locality

namespace CyclePattern

open Text
open Token (Occur)

/-- Whether a separator stands at a place of a text. -/
def SeparatorAt (cs : List Char) (i : Nat) : Prop :=
  ∃ c, cs[i]? = some c ∧ IsSeparator c (cs.drop (i + 1))

/-- Whether a word may start at a place of an alternation: after its opener or a separator. -/
def FreeAt (cs : List Char) (i : Nat) : Prop :=
  ∃ j, i = j + 1 ∧ (cs[j]? = some Bracket.angle.opener ∨ SeparatorAt cs j)

/-- Whether an elongation mark stands at a place of an alternation as a word of its own. -/
def MarkAt (cs : List Char) (i : Nat) : Prop :=
  FreeAt cs i ∧ cs[i]? = some '_' ∧ IsWord elongationMark (cs.drop (i + 1))

namespace Piece

variable {cs : List Char} {room o : Nat} {p : Piece} {ps : List Piece} {n d : Node Float}

theorem separatorAt_of_occur {c : Char} (hoccur : Occur cs o (separator c).tokens) :
    SeparatorAt cs o := by
  refine ⟨c, hoccur.getElem?_eq, ?_⟩
  exact hoccur.drop_eq.2.1

theorem exists_separator_of_node? (hnode : p.node? o = none) : ∃ c, p = separator c := by
  cases p with
  | separator c => exact ⟨c, rfl⟩
  | word cs => cases hnode
  | group b earlier last m => cases hnode

/-- The items of a sequence tile its stretch, with separators between them. -/
theorem tiles_nodesOf (hoccur : Occur cs o (tokensOf ps)) :
    Node.Tiles (SeparatorAt cs) o (o + (textOf ps).length) (nodesOf o ps) := by
  induction ps generalizing o with
  | nil => exact ⟨Nat.le_refl o, fun i hlow hhigh => absurd hhigh (by simpa [textOf] using hlow)⟩
  | cons p ps ih =>
      obtain ⟨hplace, hnext⟩ := occur_cons hoccur
      have hrest := ih hnext
      rw [textOf, List.length_append, ← Nat.add_assoc, nodesOf]
      cases hnode : p.node? o with
      | none =>
          obtain ⟨c, rfl⟩ := exists_separator_of_node? hnode
          exact hrest.of_gap (separatorAt_of_occur hplace)
      | some n =>
          have hpositive := List.length_pos_iff.mpr (text_ne_nil_of_occur hplace)
          exact hrest.cons (span?_of_node? hnode).1 (by omega)

/-- An item whose node is an elongation is the mark of one. -/
theorem eq_word_of_isElongation (hnode : p.node? o = some n) (hn : n.isElongation = true) :
    p = word elongationMark := by
  cases p with
  | separator c => cases hnode
  | word cs =>
      cases hnode
      rw [Word.eq_elongationMark_of_isElongation hn]
  | group b earlier last m =>
      rw [node?_group] at hnode
      cases hnode
      cases b <;> cases hn

/-- The options of an alternation tile its stretch, with separators and marks between them. -/
theorem tiles_options (hoccur : Occur cs o (tokensOf ps)) (hspaced : Spaced ps)
    (hfree : ∀ p ∈ ps.head?, p.isWord = true → FreeAt cs o) :
    Node.Tiles (fun i => SeparatorAt cs i ∨ MarkAt cs i) o (o + (textOf ps).length)
      ((nodesOf o ps).filter fun option => !option.isElongation) := by
  induction ps generalizing o with
  | nil => exact ⟨Nat.le_refl o, fun i hlow hhigh => absurd hhigh (by simpa [textOf] using hlow)⟩
  | cons p ps ih =>
      obtain ⟨hplace, hnext⟩ := occur_cons hoccur
      obtain ⟨happart, hspacedRest⟩ := spaced_cons_iff.mp hspaced
      rw [textOf, List.length_append, ← Nat.add_assoc, nodesOf, List.filter_append]
      cases hnode : p.node? o with
      | none =>
          obtain ⟨c, rfl⟩ := exists_separator_of_node? hnode
          have hseparator := separatorAt_of_occur hplace
          have hrest := ih hnext hspacedRest fun q _ _ => ⟨o, rfl, .inr hseparator⟩
          exact hrest.of_gap (.inl hseparator)
      | some n =>
          obtain ⟨hspan, hitem⟩ := span?_of_node? hnode
          have hrest := ih hnext hspacedRest fun q hq hword =>
            absurd hword (by simp [happart hitem q hq])
          by_cases helongation : n.isElongation = true
          · cases eq_word_of_isElongation hnode helongation
            have hmark : MarkAt cs o :=
              ⟨hfree _ rfl rfl, hplace.getElem?_eq, hplace.drop_eq.2.1⟩
            simpa [helongation] using hrest.of_gap (.inr hmark)
          · have hpositive := List.length_pos_iff.mpr (text_ne_nil_of_occur hplace)
            simpa [helongation] using hrest.cons hspan (by omega)

/-- Offset of the closer of a group that starts at an offset. -/
def closerOf (o : Nat) (earlier : List (List Piece)) (last : List Piece) : Nat :=
  o + 1 + (textOfEarlier earlier).length + (textOf last).length

theorem tiles_groupsOf {ss : List (List Piece)} {last : List Piece}
    (hoccur : Occur cs o (tokensOfEarlier ss ++ tokensOf last)) :
    Node.TilesWithCommas cs (SeparatorAt cs) o
      (o + (textOfEarlier ss).length + (textOf last).length)
      (groupsOf o ss ++ [nodesOf (o + (textOfEarlier ss).length) last]) := by
  induction ss generalizing o with
  | nil => exact tiles_nodesOf hoccur
  | cons s ss ih =>
      rw [tokensOfEarlier, List.append_assoc, List.cons_append] at hoccur
      have hnext := hoccur.right
      rw [textOf_tokensOf] at hnext
      have hrest := ih hnext.tail
      have hlength : o + (textOfEarlier (s :: ss)).length =
          o + (textOf s).length + 1 + (textOfEarlier ss).length := by
        rw [textOfEarlier, List.length_append, List.length_cons]
        omega
      rw [hlength, groupsOf, List.cons_append]
      exact .cons hnext.getElem?_eq (tiles_nodesOf hoccur.left) hrest

theorem tiles_sequencesOf {b : Bracket} {earlier : List (List Piece)} {last : List Piece}
    {m : Option GroupModifier} (hoccur : Occur cs o (group b earlier last m).tokens) :
    Node.TilesWithCommas cs (SeparatorAt cs) (o + 1) (closerOf o earlier last)
      (sequencesOf o earlier last) := by
  rw [Piece.tokens, ← List.append_assoc] at hoccur
  exact tiles_groupsOf hoccur.tail.left

end Piece

/-- A group stands in a text: its opener, its closer, and a modifier or nothing between the closer
and the end. -/
structure Delimits (cs : List Char) (b : Bracket) (s c e : Nat) : Prop where
  opener : cs[s]? = some b.opener
  closer : cs[c]? = some b.closer
  ordered : s < c ∧ c < e ∧ e ≤ cs.length
  modifier : ∃ m : Option GroupModifier, slice cs (c + 1) e = modifierText m ∧
    ∀ x, m = some x → x.Fits b (cs.drop e)

namespace Piece

variable {cs : List Char} {room o : Nat} {p : Piece} {ps : List Piece} {n d : Node Float}

theorem delimits_group {b : Bracket} {earlier : List (List Piece)} {last : List Piece}
    {m : Option GroupModifier} (hoccur : Occur cs o (group b earlier last m).tokens) :
    Delimits cs b o (closerOf o earlier last) (o + (group b earlier last m).text.length) := by
  have hclosing : Occur cs (closerOf o earlier last) [.closing b m] := (occur_group hoccur).2.2
  have hlength : o + (group b earlier last m).text.length =
      closerOf o earlier last + 1 + (modifierText m).length := by
    simp only [text, closerOf, List.length_cons, List.length_append]
    omega
  have hstop := hoccur.le_length
  rw [textOf_tokens] at hstop
  have htext : Token.textOf [Token.closing b m] = b.closer :: modifierText m := by
    simp [text_closing]
  obtain ⟨hdrop, hstands, -⟩ := hclosing.drop_eq
  rw [htext, List.length_cons] at hdrop hstands
  have hafter : closerOf o earlier last + ((modifierText m).length + 1) =
      o + (group b earlier last m).text.length := by omega
  rw [hafter] at hdrop hstands
  refine ⟨hoccur.getElem?_eq, hclosing.getElem?_eq, ?_, m, ?_, ?_⟩
  · have hlt : o < closerOf o earlier last := by
      rw [closerOf]
      omega
    omega
  · rw [slice, hlength, Nat.add_sub_cancel_left, ← List.drop_drop, hdrop]
    exact List.take_left
  · intro x hx
    subst hx
    exact hstands

theorem between_injective {s e a z : Nat}
    (hsame : some (Span.between s e) = some (.between a z)) : s = a ∧ e = z := by
  simp only [Span.between, Option.some.injEq, Span.mk.injEq] at hsame
  omega

/-- Whether the span of a node, if it has one, stands in a stretch of text. -/
def SpanIn (start stop : Nat) (n : Node Float) : Prop :=
  ∀ span, n.span? = some span → ∃ a z : Nat, span = .between a z ∧ start ≤ a ∧ a < z ∧ z ≤ stop

theorem SpanIn.mono {start stop first last : Nat} (hn : SpanIn start stop n)
    (hstart : first ≤ start)
    (hstop : stop ≤ last) : SpanIn first last n := by
  intro span hspan
  obtain ⟨a, z, hfound, hlow, hlt, hhigh⟩ := hn span hspan
  exact ⟨a, z, hfound, by omega, hlt, by omega⟩

/-- What the children of a group hold stands between its opener and its closer, if what its items
hold stands in their stretches. -/
theorem spanIn_of_holds_child {b : Bracket} {earlier : List (List Piece)} {last : List Piece}
    {m : Option GroupModifier} (hp : Locates cs room (group b earlier last m) o n)
    (hitems : ∀ g ∈ sequencesOf o earlier last, ∀ item ∈ g,
      ∃ q s, ∃ _ : Locates cs room q s item, item.Holds d → SpanIn s (s + q.text.length) d)
    {c : Node Float} (hc : c ∈ n.children) (hholds : c.Holds d) :
    SpanIn (o + 1) (closerOf o earlier last) d := by
  have hnode := hp.node
  rw [node?_group] at hnode
  cases hnode
  rcases holds_child_groupNode hc hholds with ⟨rfl, -⟩ | ⟨g, hg, rfl⟩ | ⟨g, hg, item, hitem, hrest⟩
  · intro span hspan
    cases hspan
  · intro span hspan
    cases hspan
  · obtain ⟨q, s, hq, hinside⟩ := hitems g hg item hitem
    obtain ⟨first, final, hlow, hhigh, htiles⟩ := (tiles_sequencesOf hp.occur).of_mem hg
    obtain ⟨a, z, hspan, hstart, -, hstop⟩ := htiles.of_mem hitem
    rw [(span?_of_node? hq.node).1] at hspan
    obtain ⟨rfl, rfl⟩ := between_injective hspan
    exact (hinside hrest).mono (by omega) (by omega)

/-- The options of a choice tile its word, with bars between them. -/
theorem tiles_choice {w : List Char} (hoccur : Occur cs o (word w).tokens) :
    Node.Tiles (fun i => cs[i]? = some '|') o (o + w.length)
      (Word.optionNodes o (splitTopLevel '|' w)) := by
  have hjoined := Word.joined_splitTexts '|' 0 w
  have hdrop : cs.drop (o + 0) =
      Word.joined '|' (splitTexts '|' 0 w) ++ cs.drop (o + w.length) := by
    have hall := hoccur.drop_eq.1
    rw [textOf_tokens] at hall
    rw [hjoined]
    exact hall
  have htiles := Word.tiles_optionNodes o (Word.splitTexts_ne_nil '|' 0 w) hdrop
  rw [hjoined] at htiles
  exact htiles

/-- What the node of a word holds stands in the word. -/
theorem spanIn_of_holds_read {w : List Char} (hoccur : Occur cs o (word w).tokens)
    (hholds : (Word.read w o).value.Holds d) : SpanIn o (o + w.length) d := by
  have hpositive := List.length_pos_iff.mpr (text_ne_nil_of_occur hoccur)
  have hself : SpanIn o (o + w.length) (Word.read w o).value := by
    intro span hspan
    rw [Word.span?_read] at hspan
    cases hspan
    exact ⟨o, o + w.length, rfl, Nat.le_refl o, Nat.lt_add_of_pos_right hpositive, Nat.le_refl _⟩
  rcases Word.read_cases w o with ⟨hleaf, -, -⟩ | hchoice
  · rw [hholds.eq_of_isLeaf hleaf]
    exact hself
  · rw [hchoice] at hholds hself
    cases hholds with
    | refl => exact hself
    | child hc hm =>
        rw [hm.eq_of_isLeaf (Word.isLeaf_of_mem_optionNodes hc).1]
        intro span hspan
        obtain ⟨a, z, hfound, hbounds⟩ := (tiles_choice hoccur).of_mem hc
        rw [hfound] at hspan
        cases hspan
        exact ⟨a, z, rfl, hbounds⟩

/-- What the node of a piece holds stands in the stretch of the piece. -/
theorem spanIn_of_holds (hp : Locates cs room p o n) (hholds : n.Holds d) :
    SpanIn o (o + p.text.length) d := by
  induction p, o, n, hp using Locates.induction with
  | word w o n hp =>
      cases hp.node
      exact spanIn_of_holds_read hp.occur hholds
  | group b earlier last m o n hp hitems =>
      have hordered := (delimits_group hp.occur).ordered
      cases hholds with
      | refl =>
          intro span hspan
          rw [(span?_of_node? hp.node).1] at hspan
          cases hspan
          exact ⟨o, o + (group b earlier last m).text.length, rfl, Nat.le_refl o, by omega,
            Nat.le_refl _⟩
      | child hc hm =>
          have hinner := spanIn_of_holds_child hp hitems hc hm
          exact hinner.mono (by omega) (by omega)

end Piece

/-- A group node stands in a text from its opener on, with its closer at a place: what it holds
stands between the two, and its span ends after the modifier. -/
structure Framed (cs : List Char) (b : Bracket) (n : Node Float) (s c : Nat) : Prop where
  delimits : ∃ e : Nat, n.span? = some (.between s e) ∧ Delimits cs b s c e
  inside : ∀ child ∈ n.children, ∀ d, child.Holds d → Piece.SpanIn (s + 1) c d

/-- Whether a node stands in a text as its kind does. -/
def Placed (cs : List Char) (n : Node Float) : Prop :=
  match n with
  | .empty => True
  | .atom _ _ | .rest _ | .elongation _ | .harmony _ _ _ => Piece.SpanIn 0 cs.length n
  | .sequence children => ∃ start stop, Node.Tiles (SeparatorAt cs) start stop children
  | .stack _ => True
  | .subdivision inner _ _ _ _ =>
    ∃ s c, Framed cs .square n s c ∧
      ∃ groups, Node.TilesWithCommas cs (SeparatorAt cs) (s + 1) c groups ∧
        inner = Piece.innerOf groups
  | .alternation options _ _ _ =>
    ∃ s c, Framed cs .angle n s c ∧
      Node.Tiles (fun i => SeparatorAt cs i ∨ MarkAt cs i) (s + 1) c options
  | .polymetric groups _ _ =>
    ∃ s c, Framed cs .curly n s c ∧
      ∃ sequences, Node.TilesWithCommas cs (SeparatorAt cs) (s + 1) c sequences ∧
        groups = sequences.map .sequence
  | .choice options _ =>
    ∃ s e : Nat, n.span? = some (.between s e) ∧ e ≤ cs.length ∧
      Node.Tiles (fun i => cs[i]? = some '|') s e options

namespace Piece

theorem framed_group {b : Bracket} {earlier : List (List Piece)} {last : List Piece}
    {m : Option GroupModifier} (hp : Locates cs room (group b earlier last m) o n) :
    Framed cs b n o (closerOf o earlier last) where
  delimits := ⟨_, (span?_of_node? hp.node).1, delimits_group hp.occur⟩
  inside _ hc d hm := by
    refine spanIn_of_holds_child hp ?_ hc hm
    intro g hg item hitem
    obtain ⟨q, s, -, hq⟩ := locates_of_mem_sequencesOf hp hg hitem
    exact ⟨q, s, hq, spanIn_of_holds hq⟩

/-- The node of a group stands as its kind does. -/
theorem placed_group {b : Bracket} {earlier : List (List Piece)} {last : List Piece}
    {m : Option GroupModifier} (hp : Locates cs room (group b earlier last m) o n) :
    Placed cs n := by
  have hframed := framed_group hp
  have htiles := tiles_sequencesOf hp.occur
  have hnode := hp.node
  rw [node?_group] at hnode
  cases hnode
  cases b with
  | square => exact ⟨o, closerOf o earlier last, hframed, _, htiles, rfl⟩
  | angle =>
      have hone : earlier = [] := (shaped_group_iff.mp hp.shaped).1 rfl
      subst hone
      have hspaced := (shaped_group_iff.mp hp.shaped).2.2.1
      have hopener : FreeAt cs (o + 1) := ⟨o, rfl, .inl hp.occur.getElem?_eq⟩
      have hoptions := tiles_options (occur_group hp.occur).2.1 hspaced fun _ _ _ => hopener
      refine ⟨o, closerOf o [] last, hframed, ?_⟩
      simpa [closerOf, sequencesOf, groupsOf, textOfEarlier] using hoptions
  | curly => exact ⟨o, closerOf o earlier last, hframed, _, htiles, rfl⟩

theorem placed_of_isLeaf (hleaf : n.IsLeaf) (hspan : SpanIn 0 cs.length n) : Placed cs n := by
  cases n <;> first | exact hspan | cases hleaf

/-- The node of a word and its options stand as their kinds do. -/
theorem placed_of_holds_read {w : List Char} (hoccur : Occur cs o (word w).tokens)
    (hholds : (Word.read w o).value.Holds d) : Placed cs d := by
  have hlength := hoccur.le_length
  rw [textOf_tokens] at hlength
  have hspan : SpanIn 0 cs.length d :=
    (spanIn_of_holds_read hoccur hholds).mono (Nat.zero_le o) hlength
  rcases Word.read_cases w o with ⟨hleaf, -, -⟩ | hchoice
  · cases hholds.eq_of_isLeaf hleaf
    exact placed_of_isLeaf hleaf hspan
  · rw [hchoice] at hholds
    cases hholds with
    | refl => exact ⟨o, o + w.length, rfl, hlength, tiles_choice hoccur⟩
    | child hc hm =>
        have hleaf := (Word.isLeaf_of_mem_optionNodes hc).1
        cases hm.eq_of_isLeaf hleaf
        exact placed_of_isLeaf hleaf hspan

/-- Everything that the node of a piece holds stands as its kind does. -/
theorem placed_of_holds (hp : Locates cs room p o n) (hholds : n.Holds d) : Placed cs d := by
  induction p, o, n, hp using Locates.induction with
  | word w o n hp =>
      cases hp.node
      exact placed_of_holds_read hp.occur hholds
  | group b earlier last m o n hp hitems =>
      have hplaced := placed_group hp
      have hnode := hp.node
      rw [node?_group] at hnode
      cases hnode
      rcases holds_groupNode hholds with rfl | ⟨rfl, -⟩ | ⟨g, hg, rfl⟩ | ⟨g, hg, item, hitem, hrest⟩
      · exact hplaced
      · trivial
      · obtain ⟨first, final, -, -, htiles⟩ := (tiles_sequencesOf hp.occur).of_mem hg
        exact ⟨first, final, htiles⟩
      · obtain ⟨q, s, hq, hinside⟩ := hitems g hg item hitem
        exact hinside hrest

end Piece

namespace Reading

open Piece

variable {limit : Int} {cs : List Char} {items : List (Node Float)}

/-- The items of a tree that was read leave only separators of the text between them. -/
theorem tiles_items_of_result (hresult : (ofText limit 0 0 cs).result = .ok items) :
    Node.Tiles (SeparatorAt cs) 0 cs.length items := by
  obtain ⟨ps, hderives, -, rfl⟩ := exists_derives_of_result hresult
  have hoccur : Occur cs 0 (tokensOf ps) := (derives_iff.mp hderives).1 ▸ Token.occur_tokens cs
  have hall := tiles_nodesOf hoccur
  rwa [hderives.text, Nat.zero_add] at hall

theorem placed_of_result {n : Node Float} (hresult : (ofText limit 0 0 cs).result = .ok items)
    (hholds : (Node.sequence items).Holds n) : Placed cs n := by
  rcases holds_sequence hholds with rfl | ⟨item, hitem, hrest⟩
  · exact ⟨0, cs.length, tiles_items_of_result hresult⟩
  · obtain ⟨q, s, hq⟩ := locates_of_result hresult hitem
    exact placed_of_holds hq hrest

/-- The spans of a tree that was read tile the text, and everything in it stands as its kind
does. -/
theorem tiles_of_result (hresult : (ofText limit 0 0 cs).result = .ok items) :
    Node.Tiles (SeparatorAt cs) 0 cs.length items ∧
      ∀ n, (Node.sequence items).Holds n → Placed cs n :=
  ⟨tiles_items_of_result hresult, fun _ => placed_of_result hresult⟩

/-- The mark that `<a _>` drops is a gap between its option and its closer. -/
theorem tiles_of_result_of_mark :
    (ofText 1 0 0 ['<', 'a', ' ', '_', '>']).result =
        .ok [groupNode .angle [[(Word.read ['a'] 1).value, (Word.read ['_'] 3).value]] .none
          (.between 0 5)] ∧
      Placed ['<', 'a', ' ', '_', '>']
        (groupNode .angle [[(Word.read ['a'] 1).value, (Word.read ['_'] 3).value]] .none
          (.between 0 5)) := by
  have htokens : tokens ['<', 'a', ' ', '_', '>'] =
      [.opening .angle, .word ['a'], .separator ' ', .word ['_'], .closing .angle none] := by
    decide +kernel
  have hresult : (ofText 1 0 0 ['<', 'a', ' ', '_', '>']).result =
      .ok [groupNode .angle [[(Word.read ['a'] 1).value, (Word.read ['_'] 3).value]] .none
        (.between 0 5)] := by
    rw [ofText, htokens]
    simp (disch := decide) only [ofTokens, Progress.step_word]
    rfl
  exact ⟨hresult, (tiles_of_result hresult).2 _ (.child (List.mem_singleton.mpr rfl) (.refl _))⟩

end Reading

end CyclePattern
