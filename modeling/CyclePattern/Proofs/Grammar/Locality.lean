/-
# Reading an item by itself

No rule of the notation looks past the text of an item in a way that matters. The characters of an
item, read by themselves, give the same item; only its offsets start again from zero.
-/

import CyclePattern.Proofs.Grammar.Location

namespace CyclePattern

open Text
open Token (Occur)

namespace Piece

variable {cs : List Char} {room o : Nat} {n parent item : Node Float}

theorem innerOf_shift (k : Int) (groups : List (List (Node Float))) :
    (innerOf groups).shift k = innerOf (groups.map fun g => g.map (Node.shift k)) := by
  cases groups with
  | nil => rfl
  | cons first others =>
      cases others with
      | nil => simp [innerOf, Node.shift]
      | cons second others => simp [innerOf, Node.shift, Function.comp_def]

/-- Moving the sequences of a group moves the group. -/
theorem groupNode_shift (k : Int) (b : Bracket) (groups : List (List (Node Float)))
    (settings : GroupSettings) (span : Span) :
    (groupNode b groups settings span).shift k =
      groupNode b (groups.map fun g => g.map (Node.shift k)) settings (span.shift k) := by
  have hsequences : (groups.map Node.sequence).map (Node.shift k) =
      (groups.map fun g => g.map (Node.shift k)).map Node.sequence := by
    simp [Function.comp_def, Node.shift]
  cases b with
  | square =>
      rw [groupNode_square, groupNode_square, Node.shift, innerOf_shift]
  | angle =>
      simp only [groupNode, Node.shift, Node.shiftAll_eq_map]
      rw [← List.map_flatten, List.filter_map]
      simp [Function.comp_def]
  | curly =>
      simp only [groupNode, Node.shift, Node.shiftAll_eq_map]
      rw [hsequences]

theorem nodesOf_add {ps : List Piece} (k : Nat)
    (hps : ∀ p ∈ ps, ∀ o, p.node? (o + k) = (p.node? o).map (Node.shift k)) (o : Nat) :
    nodesOf (o + k) ps = (nodesOf o ps).map (Node.shift k) := by
  induction ps generalizing o with
  | nil => rfl
  | cons p ps ih =>
      obtain ⟨hp, hrest⟩ := List.forall_mem_cons.mp hps
      rw [nodesOf, nodesOf, hp, List.map_append, Nat.add_right_comm, ih hrest]
      cases p.node? o <;> rfl

theorem groupsOf_add {ss : List (List Piece)} (k : Nat)
    (hss : ∀ s ∈ ss, ∀ p ∈ s, ∀ o, p.node? (o + k) = (p.node? o).map (Node.shift k)) (o : Nat) :
    groupsOf (o + k) ss = (groupsOf o ss).map fun g => g.map (Node.shift k) := by
  induction ss generalizing o with
  | nil => rfl
  | cons s ss ih =>
      obtain ⟨hs, hrest⟩ := List.forall_mem_cons.mp hss
      rw [groupsOf, groupsOf, nodesOf_add k hs, List.map_cons]
      have hstart : o + k + (textOf s).length + 1 = o + (textOf s).length + 1 + k := by omega
      rw [hstart, ih hrest]

/-- A piece that starts further along has the same node further along. -/
theorem node?_add (p : Piece) (k o : Nat) : p.node? (o + k) = (p.node? o).map (Node.shift k) := by
  induction p generalizing o with
  | separator c => rfl
  | word cs =>
      have hread := Word.read_add cs o k
      simpa [node?] using hread
  | group b earlier last m hearlier hlast =>
      have hsequences : sequencesOf (o + k) earlier last =
          (sequencesOf o earlier last).map fun g => g.map (Node.shift k) := by
        calc
          _ = groupsOf (o + 1 + k) earlier ++
                [nodesOf (o + 1 + (textOfEarlier earlier).length + k) last] := by
            rw [sequencesOf, Nat.add_right_comm, Nat.add_right_comm (o + 1)]
          _ = ((groupsOf (o + 1) earlier).map fun g => g.map (Node.shift k)) ++
                [(nodesOf (o + 1 + (textOfEarlier earlier).length) last).map (Node.shift k)] := by
            rw [groupsOf_add k hearlier, nodesOf_add k hlast]
          _ = (sequencesOf o earlier last).map fun g => g.map (Node.shift k) := by
            rw [sequencesOf, List.map_append, List.map_singleton]
      rw [node?_group, node?_group, hsequences, Option.map_some, groupNode_shift,
        Span.shift_between]
      congr 3
      push_cast
      omega

/-- The node of a word holds nothing that was written as an item of its own. -/
theorem writtenItems_of_holds_read {word : List Char} {start : Int}
    (hholds : (Word.read word start).value.Holds parent) : parent.writtenItems = [] := by
  have hnone : ∀ leaf : Node Float, leaf.IsLeaf → leaf.writtenItems = [] := by
    intro leaf hleaf
    cases leaf <;> first | rfl | cases hleaf
  rcases Word.read_cases word start with ⟨hleaf, -, -⟩ | hchoice
  · rw [hholds.eq_of_isLeaf hleaf]
    exact hnone _ hleaf
  · rw [hchoice] at hholds
    cases hholds with
    | refl => rfl
    | child hc hm =>
        have hleaf := (Word.isLeaf_of_mem_optionNodes hc).1
        rw [hm.eq_of_isLeaf hleaf]
        exact hnone _ hleaf

/-- What was written as an item inside a piece is a piece of its own. -/
theorem locates_of_holds {p : Piece} (hp : Locates cs room p o n) (hholds : n.Holds parent)
    (hitem : item ∈ parent.writtenItems) : ∃ q s, Locates cs room q s item := by
  induction p, o, n, hp using Locates.induction with
  | word w o n hp =>
      cases hp.node
      rw [writtenItems_of_holds_read hholds] at hitem
      cases hitem
  | group b earlier last m o n hp hitems =>
      have hnode := hp.node
      rw [node?_group] at hnode
      cases hnode
      rcases holds_groupNode hholds with
        rfl | ⟨rfl, -⟩ | ⟨g, hg, rfl⟩ | ⟨g, hg, inner, hinner, hrest⟩
      · -- Only an alternation lists what it holds itself: its options, taken from its sequence.
        cases b with
        | square => cases hitem
        | curly => cases hitem
        | angle =>
            obtain ⟨hflat, -⟩ := List.mem_filter.mp hitem
            obtain ⟨g, hg, hmem⟩ := List.mem_flatten.mp hflat
            obtain ⟨q, s, hq, -⟩ := hitems g hg item hmem
            exact ⟨q, s, hq⟩
      · cases hitem
      · obtain ⟨q, s, hq, -⟩ := hitems g hg item hitem
        exact ⟨q, s, hq⟩
      · obtain ⟨q, s, hq, hinside⟩ := hitems g hg inner hinner
        exact hinside hrest

end Piece

namespace Reading

open Piece

variable {limit : Int} {cs : List Char} {items : List (Node Float)} {parent item : Node Float}

/-- The items of a pattern that was read are pieces in their place. -/
theorem locates_of_result (hresult : (ofText limit 0 0 cs).result = .ok items)
    (hitem : item ∈ items) : ∃ q s, Locates cs limit.toNat q s item := by
  obtain ⟨ps, hderives, hroom, rfl⟩ := exists_derives_of_result hresult
  obtain ⟨htokens, -, hshaped⟩ := derives_iff.mp hderives
  have hoccur : Occur cs 0 (tokensOf ps) := htokens ▸ Token.occur_tokens cs
  obtain ⟨q, hq, s, hplace, hnode⟩ := exists_of_mem_nodesOf hoccur hitem
  exact ⟨q, s, hplace, hshaped q hq, nestingOf_le_iff.mp hroom q hq, hnode⟩

/-- The characters of a located piece, read by themselves, give its node from offset zero on. -/
theorem reread_of_locates {q : Piece} {s : Nat} (hq : Locates cs limit.toNat q s item)
    (hfaults : (tokens cs).findSome? Token.fault? = none) :
    (ofText limit 0 0 q.text).result = .ok [item.shift (-s)] := by
  have htokens : tokens q.text = tokensOf [q] := by
    rw [← textOf_tokens, hq.occur.tokens_textOf, tokensOf, tokensOf, List.append_nil]
  have hderives : Derives [q] q.text :=
    derives_iff.mpr ⟨htokens, List.isChain_singleton q, by simpa using hq.shaped⟩
  have hroom : nestingOf [q] ≤ limit.toNat - 0 := by
    simpa [nestingOf] using hq.nesting
  have hnone : (tokens q.text).findSome? Token.fault? = none := by
    rw [List.findSome?_eq_none_iff] at hfaults ⊢
    intro t ht
    rw [htokens, tokensOf, tokensOf, List.append_nil] at ht
    exact hfaults t (hq.occur.mem ht)
  have hnode : q.node? 0 = some (item.shift (-s)) := by
    have hmoved := node?_add q s 0
    rw [Nat.zero_add, hq.node] at hmoved
    obtain ⟨first, hfirst, hshift⟩ := Option.map_eq_some_iff.mp hmoved.symm
    rw [hfirst, ← hshift, Node.shift_neg]
  rw [result_of_derives 0 hderives hroom, hnone]
  simp [nodesOf, hnode]

/-- Every item of a sequence and every option of an alternation can be read by itself: its stretch
of the text gives the same item, with offsets from zero on. -/
theorem reread_item (hresult : (ofText limit 0 0 cs).result = .ok items)
    (hholds : (Node.sequence items).Holds parent) (hitem : item ∈ parent.writtenItems) :
    ∃ s e : Nat, item.span? = some (.between s e) ∧ s < e ∧ e ≤ cs.length ∧
      (ofText limit 0 0 (slice cs s e)).result = .ok [item.shift (-s)] := by
  have hlocated : ∃ q s, Locates cs limit.toNat q s item := by
    rcases holds_sequence hholds with rfl | ⟨outer, houter, hrest⟩
    · exact locates_of_result hresult hitem
    · obtain ⟨q, s, hq⟩ := locates_of_result hresult houter
      exact locates_of_holds hq hrest hitem
  obtain ⟨q, s, hq⟩ := hlocated
  obtain ⟨hspan, hitem⟩ := span?_of_node? hq.node
  have hlength := hq.occur.le_length
  have hslice := hq.occur.slice_eq
  rw [textOf_tokens] at hlength hslice
  refine ⟨s, s + q.text.length, hspan, ?_, hlength, ?_⟩
  · have hpositive := List.length_pos_iff.mpr (text_ne_nil_of_occur hq.occur)
    omega
  · rw [hslice]
    exact reread_of_locates hq (findSome?_fault?_of_result hresult)

/-- The word in `[a]` is read again from its one character. -/
theorem reread_item_of_group :
    (ofText 1 0 0 ['[', 'a', ']']).result =
        .ok [groupNode .square [[(Word.read ['a'] 1).value]] .none (.between 0 3)] ∧
      ∃ s e : Nat, (Word.read ['a'] 1).value.span? = some (.between s e) ∧ s < e ∧ e ≤ 3 ∧
        (ofText 1 0 0 (slice ['[', 'a', ']'] s e)).result =
          .ok [(Word.read ['a'] 1).value.shift (-s)] := by
  have htokens : tokens ['[', 'a', ']'] =
      [.opening .square, .word ['a'], .closing .square none] := by
    decide +kernel
  have hresult : (ofText 1 0 0 ['[', 'a', ']']).result =
      .ok [groupNode .square [[(Word.read ['a'] 1).value]] .none (.between 0 3)] := by
    rw [ofText, htokens]
    simp (disch := decide) only [ofTokens, Progress.step_word]
    rfl
  have hholds : (Node.sequence
      [groupNode .square [[(Word.read ['a'] 1).value]] .none (.between 0 3)]).Holds
        (.sequence [(Word.read ['a'] 1).value]) :=
    .child (List.mem_singleton.mpr rfl) (.child (List.mem_singleton.mpr rfl) (.refl _))
  exact ⟨hresult, reread_item hresult hholds (List.mem_singleton.mpr rfl)⟩

end Reading

end CyclePattern
