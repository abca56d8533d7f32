/-
# What was read stays in the tree

A reading drops nothing that it has read but the elongation marks of an alternation. An item moves
from the sequence that is being read into the group around it, and at last into the tree. So every
group that is closed on the way is a node of the tree, and its span ends where its closer and the
number after it do.
-/

import CyclePattern.Proofs.Grammar.Tiling

namespace CyclePattern

/-- A group node holds what its items hold, unless the item is an elongation. -/
theorem holds_groupNode_of_mem {b : Bracket} {groups : List (List (Node Float))}
    {settings : GroupSettings} {span : Span} {g : List (Node Float)} {item n : Node Float}
    (hg : g ∈ groups) (hitem : item ∈ g) (helongation : item.isElongation = false)
    (hholds : item.Holds n) : (groupNode b groups settings span).Holds n := by
  have hsequence : (Node.sequence g).Holds n := .child hitem hholds
  cases b with
  | square =>
      rw [Piece.groupNode_square]
      refine .child (List.mem_singleton.mpr rfl) ?_
      rcases Piece.innerOf_cases groups with ⟨single, rfl, hinner⟩ | hinner
      · rw [hinner, ← List.mem_singleton.mp hg]
        exact hsequence
      · rw [hinner]
        exact .child (List.mem_map_of_mem hg) hsequence
  | angle =>
      refine .child (List.mem_filter.mpr ⟨List.mem_flatten.mpr ⟨g, hg, hitem⟩, ?_⟩) hholds
      rw [helongation]
      rfl
  | curly => exact .child (List.mem_map_of_mem hg) hsequence

theorem isElongation_groupNode (b : Bracket) (groups : List (List (Node Float)))
    (settings : GroupSettings) (span : Span) :
    (groupNode b groups settings span).isElongation = false := by
  cases b <;> rfl

/-- Whether an open group keeps an item that was read before it, or in a sequence of its own that a
comma has ended. -/
def OpenGroup.Keeps (group : OpenGroup) (item : Node Float) : Prop :=
  item ∈ group.before ∨ ∃ g ∈ group.finished, item ∈ g

namespace Progress

variable {limit : Int} {depth : Nat} {p next : Progress} {t : Token} {n item : Node Float}

/-- What a step may do, when it takes its token. -/
inductive Steps (p : Progress) : Token → Progress → Prop
  | separator (c : Char) :
      Steps p (.separator c) { p with offset := p.offset + 1, afterItem := false }
  | word (text : List Char) : Steps p (.word text) (p.takeWord text (Word.read text p.offset))
  | opening (b : Bracket) : Steps p (.opening b) (p.openGroup b)
  | comma {group : OpenGroup} {outer : List OpenGroup} (hopened : p.opened = group :: outer) :
      Steps p .comma (p.endSequence group outer)
  | closing {group : OpenGroup} {outer : List OpenGroup} (m : Option GroupModifier)
      (hopened : p.opened = group :: outer) :
      Steps p (.closing group.bracket m)
        (p.closeGroup group outer (settingsOf group m).1 (settingsOf group m).2
          (Token.closing group.bracket m).text.length)

theorem steps_of_step (hstep : p.step limit depth t = .ok next) : p.Steps t next := by
  cases t with
  | separator c =>
      cases hstep
      exact .separator c
  | word text =>
      simp only [step] at hstep
      split at hstep
      · cases hstep
      cases hfault : Word.fault? text with
      | some fault =>
          rw [Word.node_of_fault?_eq_some hfault] at hstep
          cases hstep
      | none =>
          rw [Word.node_of_fault?_eq_none hfault] at hstep
          cases hstep
          exact .word text
  | opening b =>
      simp only [step] at hstep
      split at hstep
      · cases hstep
      · cases hstep
        exact .opening b
  | comma =>
      simp only [step] at hstep
      split at hstep
      · next group outer hopened =>
          split at hstep
          · cases hstep
            exact .comma hopened
          · cases hstep
      · cases hstep
  | closing b m =>
      simp only [step] at hstep
      split at hstep
      · next group outer hopened =>
          split at hstep
          · next hbracket =>
              split at hstep
              · cases hstep
              · cases hstep
                subst hbracket
                exact .closing m hopened
          · cases hstep
      · cases hstep
  | strayParenthesis => cases hstep

/-- A step moves past the characters of its token. -/
theorem Steps.offset_eq (hsteps : p.Steps t next) : next.offset = p.offset + t.text.length := by
  cases hsteps <;> rfl

/-- Whether an item that has been read is kept: in the innermost sequence, or by an open group. -/
def Keeps (p : Progress) (item : Node Float) : Prop :=
  item ∈ p.items ∨ ∃ group ∈ p.opened, group.Keeps item

/-- Whether an item that is kept, and is no elongation, holds a node. -/
def Holds (p : Progress) (n : Node Float) : Prop :=
  ∃ item, p.Keeps item ∧ item.isElongation = false ∧ item.Holds n

theorem Keeps.takeWord (hitem : p.Keeps item) (text : List Char) (read : Noted (Node Float)) :
    (p.takeWord text read).Keeps item :=
  hitem.imp_left (List.mem_cons_of_mem _)

theorem Keeps.openGroup (hitem : p.Keeps item) (b : Bracket) : (p.openGroup b).Keeps item := by
  right
  rcases hitem with hitem | ⟨group, hgroup, hitem⟩
  · exact ⟨_, List.mem_cons_self, .inl hitem⟩
  · exact ⟨group, List.mem_cons_of_mem _ hgroup, hitem⟩

theorem Keeps.endSequence {group : OpenGroup} {outer : List OpenGroup} (hitem : p.Keeps item)
    (hopened : p.opened = group :: outer) : (p.endSequence group outer).Keeps item := by
  right
  rw [Keeps, hopened] at hitem
  rcases hitem with hitem | ⟨other, hother, hitem⟩
  · exact ⟨_, List.mem_cons_self, .inr ⟨_, List.mem_cons_self, List.mem_reverse.mpr hitem⟩⟩
  · rcases List.mem_cons.mp hother with rfl | houter
    · refine ⟨_, List.mem_cons_self, hitem.imp_right ?_⟩
      rintro ⟨g, hg, hmem⟩
      exact ⟨g, List.mem_cons_of_mem _ hg, hmem⟩
    · exact ⟨other, List.mem_cons_of_mem _ houter, hitem⟩

/-- The node of a group that is closed takes over the items of the group. -/
theorem Holds.closeGroup {group : OpenGroup} {outer : List OpenGroup} (hn : p.Holds n)
    (hopened : p.opened = group :: outer) (settings : GroupSettings) (notices : List Notice)
    (length : Nat) : (p.closeGroup group outer settings notices length).Holds n := by
  obtain ⟨item, hitem, helongation, hholds⟩ := hn
  have hinside : ∀ g ∈ (p.items.reverse :: group.finished).reverse, item ∈ g →
      (p.closeGroup group outer settings notices length).Holds n := by
    intro g hg hmem
    exact ⟨_, .inl List.mem_cons_self, isElongation_groupNode _ _ _ _,
      holds_groupNode_of_mem hg hmem helongation hholds⟩
  rw [Keeps, hopened] at hitem
  rcases hitem with hitem | ⟨other, hother, hitem⟩
  · exact hinside p.items.reverse (by simp) (List.mem_reverse.mpr hitem)
  · rcases List.mem_cons.mp hother with rfl | houter
    · rcases hitem with hbefore | ⟨g, hg, hmem⟩
      · exact ⟨item, .inl (List.mem_cons_of_mem _ hbefore), helongation, hholds⟩
      · exact hinside g (by simp [hg]) hmem
    · exact ⟨item, .inr ⟨other, houter, hitem⟩, helongation, hholds⟩

theorem holds_closeGroup (p : Progress) (group : OpenGroup) (outer : List OpenGroup)
    (settings : GroupSettings) (notices : List Notice) (length : Nat) :
    (p.closeGroup group outer settings notices length).Holds
      (groupNode group.bracket (p.items.reverse :: group.finished).reverse settings
        (.between group.start (p.offset + length : Nat))) :=
  ⟨_, .inl List.mem_cons_self, isElongation_groupNode _ _ _ _, .refl _⟩

/-- A step keeps what has been read. -/
theorem Holds.step (hn : p.Holds n) (hsteps : p.Steps t next) : next.Holds n := by
  obtain ⟨item, hitem, helongation, hholds⟩ := id hn
  cases hsteps with
  | separator c => exact ⟨item, hitem, helongation, hholds⟩
  | word text => exact ⟨item, hitem.takeWord text _, helongation, hholds⟩
  | opening b => exact ⟨item, hitem.openGroup b, helongation, hholds⟩
  | comma hopened => exact ⟨item, hitem.endSequence hopened, helongation, hholds⟩
  | closing m hopened => exact hn.closeGroup hopened _ _ _

end Progress

namespace Reading

open Token (textOf)

variable {limit : Int} {depth : Nat} {p : Progress} {n : Node Float} {items : List (Node Float)}
  {before later ts : List Token} {t : Token}

/-- A run that comes to an end takes its first token. -/
theorem exists_step_of_result (hresult : (ofTokens limit depth p (t :: ts)).result = .ok items) :
    ∃ next, p.Steps t next ∧ (ofTokens limit depth next ts).result = .ok items := by
  rw [ofTokens] at hresult
  split at hresult
  · next next hstep => exact ⟨next, Progress.steps_of_step hstep, hresult⟩
  · cases hresult

/-- A run that comes to an end comes to each of its tokens. -/
theorem exists_steps_of_result
    (hresult : (ofTokens limit depth p (before ++ t :: later)).result = .ok items) :
    ∃ q next : Progress, q.offset = p.offset + (textOf before).length ∧ q.Steps t next ∧
      (ofTokens limit depth next later).result = .ok items := by
  induction before generalizing p with
  | nil =>
      obtain ⟨next, hsteps, hrest⟩ := exists_step_of_result hresult
      exact ⟨p, next, rfl, hsteps, hrest⟩
  | cons u before ih =>
      obtain ⟨middle, hsteps, hrest⟩ := exists_step_of_result hresult
      obtain ⟨q, next, hoffset, hfound, hend⟩ := ih hrest
      refine ⟨q, next, ?_, hfound, hend⟩
      rw [hoffset, hsteps.offset_eq, Token.textOf_cons, List.length_append, Nat.add_assoc]

/-- What has been read is in the tree at the end. -/
theorem holds_of_result (hresult : (ofTokens limit depth p ts).result = .ok items)
    (hn : p.Holds n) : (Node.sequence items).Holds n := by
  induction ts generalizing p with
  | nil =>
      obtain ⟨item, hitem, -, hholds⟩ := hn
      simp only [ofTokens, Progress.finish] at hresult
      split at hresult
      · next hopened =>
          cases hresult
          rw [Progress.Keeps, hopened] at hitem
          have hmem : item ∈ p.items := hitem.resolve_right (by simp)
          exact .child (List.mem_reverse.mpr hmem) hholds
      · cases hresult
  | cons t ts ih =>
      obtain ⟨next, hsteps, hrest⟩ := exists_step_of_result hresult
      exact ih hrest (hn.step hsteps)

/-- A group whose closer is among the tokens is in the tree, with a span that ends where the closer
and the number after it do. -/
theorem exists_holds_of_closing {cs : List Char} {b : Bracket} {m : Option GroupModifier}
    (hresult : (ofText limit depth 0 cs).result = .ok items)
    (htokens : tokens cs = before ++ .closing b m :: later) :
    ∃ groups settings, ∃ start : Nat, (Node.sequence items).Holds
      (groupNode b groups settings
        (.between start ((textOf before).length + (Token.closing b m).text.length : Nat))) := by
  rw [ofText, htokens] at hresult
  obtain ⟨q, next, hoffset, hsteps, hrest⟩ := exists_steps_of_result hresult
  rw [Progress.start, Nat.zero_add] at hoffset
  cases hsteps with
  | closing m hopened =>
      rw [← hoffset]
      exact ⟨_, _, _, holds_of_result hrest (Progress.holds_closeGroup q _ _ _ _ _)⟩

end Reading

end CyclePattern
