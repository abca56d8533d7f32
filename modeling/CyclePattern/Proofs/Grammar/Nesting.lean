/-
# How deep groups go

A limit on the groups that may be open decides which patterns are read and changes nothing of their
trees. How deep the groups of a pattern go is seen in its characters alone: it is the most by which
the openers at the front of the pattern outnumber the closers there. Below that depth the reading
stops at the first opener that is one too many.
-/

import CyclePattern.Proofs.Grammar.Problems
import CyclePattern.Proofs.Grammar.Location
import Mathlib.Order.Bounds.Basic

namespace CyclePattern

open Piece

namespace Node

variable {α : Type}

mutual

/-- Number of groups inside one another. -/
def groupDepth : Node α → Nat
  | .sequence children => groupDepthOf children
  | .stack groups => groupDepthOf groups
  | .subdivision inner _ _ _ _ => inner.groupDepth + 1
  | .alternation options _ _ _ => groupDepthOf options + 1
  | .polymetric groups _ _ => groupDepthOf groups + 1
  | .choice options _ => groupDepthOf options
  | _ => 0

/-- Number of groups inside one another in some nodes. -/
def groupDepthOf : List (Node α) → Nat
  | [] => 0
  | n :: ns => max n.groupDepth (groupDepthOf ns)

end

theorem groupDepthOf_append (ns ms : List (Node α)) :
    groupDepthOf (ns ++ ms) = max (groupDepthOf ns) (groupDepthOf ms) := by
  induction ns with
  | nil => simp [groupDepthOf]
  | cons n ns ih => rw [List.cons_append, groupDepthOf, ih, groupDepthOf, Nat.max_assoc]

theorem groupDepth_of_isLeaf {n : Node α} (hleaf : n.IsLeaf) : n.groupDepth = 0 := by
  cases n <;> first | rfl | cases hleaf

theorem groupDepthOf_of_isLeaf {ns : List (Node α)} (hleaves : ∀ n ∈ ns, n.IsLeaf) :
    groupDepthOf ns = 0 := by
  induction ns with
  | nil => rfl
  | cons n ns ih =>
      obtain ⟨hn, hrest⟩ := List.forall_mem_cons.mp hleaves
      rw [groupDepthOf, groupDepth_of_isLeaf hn, ih hrest, Nat.max_self]

/-- Elongations hold no groups. -/
theorem groupDepthOf_filter_isElongation (ns : List (Node α)) :
    groupDepthOf (ns.filter fun n => !n.isElongation) = groupDepthOf ns := by
  induction ns with
  | nil => rfl
  | cons n ns ih =>
      rw [List.filter_cons, groupDepthOf]
      split
      · rw [groupDepthOf, ih]
      · next helongation =>
          have hdepth : n.groupDepth = 0 := by
            cases n <;> first | rfl | exact absurd rfl helongation
          rw [ih, hdepth, Nat.zero_max]

theorem groupDepthOf_flatten (groups : List (List (Node α))) :
    groupDepthOf groups.flatten = groupDepthOf (groups.map .sequence) := by
  induction groups with
  | nil => rfl
  | cons g groups ih =>
      calc
        _ = max (groupDepthOf g) (groupDepthOf groups.flatten) := by
          rw [List.flatten_cons, groupDepthOf_append]
        _ = max (groupDepthOf g) (groupDepthOf (groups.map .sequence)) := by rw [ih]
        _ = groupDepthOf ((g :: groups).map .sequence) := by
          rw [List.map_cons, groupDepthOf, groupDepth]

end Node

open Node

/-- A group is one deeper than the sequences inside it. -/
theorem groupDepth_groupNode (b : Bracket) (groups : List (List (Node Float)))
    (settings : GroupSettings) (span : Span) :
    (groupNode b groups settings span).groupDepth = groupDepthOf (groups.map .sequence) + 1 := by
  cases b with
  | square =>
      rw [groupNode_square, groupDepth]
      rcases innerOf_cases groups with ⟨single, rfl, hsingle⟩ | hstack
      · simp [hsingle, groupDepthOf]
      · rw [hstack, groupDepth]
  | angle => rw [groupNode, groupDepth, groupDepthOf_filter_isElongation, groupDepthOf_flatten]
  | curly => rw [groupNode, groupDepth]

theorem groupDepth_read (word : List Char) (start : Int) :
    (Word.read word start).value.groupDepth = 0 := by
  rcases Word.read_cases word start with ⟨hleaf, -, -⟩ | hchoice
  · exact groupDepth_of_isLeaf hleaf
  · rw [hchoice, groupDepth]
    exact groupDepthOf_of_isLeaf fun n hn => (Word.isLeaf_of_mem_optionNodes hn).1

namespace Piece

theorem groupDepthOf_nodesOf {ps : List Piece}
    (hps : ∀ p ∈ ps, ∀ o, groupDepthOf (p.node? o).toList = p.nesting) (o : Nat) :
    groupDepthOf (nodesOf o ps) = nestingOf ps := by
  induction ps generalizing o with
  | nil => rfl
  | cons p ps ih =>
      obtain ⟨hp, hrest⟩ := List.forall_mem_cons.mp hps
      rw [nodesOf, groupDepthOf_append, hp, ih hrest, nestingOf]

theorem groupDepthOf_groupsOf {ss : List (List Piece)}
    (hss : ∀ s ∈ ss, ∀ o, groupDepthOf (nodesOf o s) = nestingOf s) (o : Nat) :
    groupDepthOf ((groupsOf o ss).map .sequence) = nestingOfEarlier ss := by
  induction ss generalizing o with
  | nil => rfl
  | cons s ss ih =>
      obtain ⟨hs, hrest⟩ := List.forall_mem_cons.mp hss
      rw [groupsOf, List.map_cons, groupDepthOf, groupDepth, hs, ih hrest, nestingOfEarlier]

/-- The node of a piece goes as deep as the piece. -/
theorem groupDepthOf_node? (p : Piece) (o : Nat) :
    groupDepthOf (p.node? o).toList = p.nesting := by
  induction p generalizing o with
  | separator c => rfl
  | word cs => simp [node?, groupDepthOf, groupDepth_read, nesting]
  | group b earlier last m hearlier hlast =>
      have hinner := groupDepthOf_groupsOf
        (fun s hs => groupDepthOf_nodesOf fun p hp o => hearlier s hs p hp o) (o + 1)
      have hend := groupDepthOf_nodesOf (fun p hp o => hlast p hp o)
        (o + 1 + (textOfEarlier earlier).length)
      simp [node?_group, groupDepthOf, groupDepth_groupNode, sequencesOf, groupDepthOf_append,
        groupDepth, hinner, hend, nesting]

end Piece

/-- By how many the openers of a text outnumber its closers. -/
def surplus (cs : List Char) : Int :=
  (cs.countP fun c => (Bracket.ofOpener? c).isSome : Nat) -
    (cs.countP fun c => (Bracket.ofCloser? c).isSome : Nat)

@[simp]
theorem surplus_nil : surplus [] = 0 :=
  rfl

@[simp]
theorem surplus_append (cs ds : List Char) : surplus (cs ++ ds) = surplus cs + surplus ds := by
  simp only [surplus, List.countP_append]
  omega

theorem surplus_cons (c : Char) (cs : List Char) : surplus (c :: cs) = surplus [c] + surplus cs :=
  surplus_append [c] cs

@[simp]
theorem surplus_opener (b : Bracket) : surplus [b.opener] = 1 := by
  cases b <;> decide

@[simp]
theorem surplus_closer (b : Bracket) : surplus [b.closer] = -1 := by
  cases b <;> decide

/-- Characters that are no brackets leave the surplus as it is. -/
theorem surplus_of_not_mem {cs : List Char} (hcs : ∀ c ∈ cs, c ∉ groupBreaks) :
    surplus cs = 0 := by
  have hopeners : cs.countP (fun c => (Bracket.ofOpener? c).isSome) = 0 := by
    apply List.countP_eq_zero.mpr
    intro c hc
    simp [(Token.not_mem_groupBreaks_iff.mp (hcs c hc)).1]
  have hclosers : cs.countP (fun c => (Bracket.ofCloser? c).isSome) = 0 := by
    apply List.countP_eq_zero.mpr
    intro c hc
    simp [(Token.not_mem_groupBreaks_iff.mp (hcs c hc)).2]
  rw [surplus, hopeners, hclosers]
  rfl

/-- What stands at the front of two texts ends in the first, or goes on into the second. -/
theorem isPrefix_append_cases {front cs ds : List Char} (hfront : front <+: cs ++ ds) :
    front <+: cs ∨ ∃ rest, rest <+: ds ∧ front = cs ++ rest := by
  obtain ⟨tail, hsplit⟩ := hfront
  rcases List.append_eq_append_iff.mp hsplit with ⟨rest, rfl, -⟩ | ⟨rest, rfl, hrest⟩
  · exact .inl (List.prefix_append front rest)
  · exact .inr ⟨rest, ⟨tail, hrest.symm⟩, rfl⟩

/-- What stands at the front of a bracketed text is nothing, all of it, or the opener and something
from the front of the inside. -/
theorem isPrefix_brackets_cases {front cs : List Char} {b : Bracket}
    (hfront : front <+: b.opener :: (cs ++ [b.closer])) :
    front = [] ∨ front = b.opener :: (cs ++ [b.closer]) ∨
      ∃ inner, inner <+: cs ∧ front = b.opener :: inner := by
  cases front with
  | nil => exact .inl rfl
  | cons c inner =>
      obtain ⟨rfl, htail⟩ := List.cons_prefix_cons.mp hfront
      rcases List.prefix_concat_iff.mp htail with rfl | hinner
      · exact .inr (.inl rfl)
      · exact .inr (.inr ⟨inner, hinner, rfl⟩)

theorem openedAfter_opener (offset : Nat) (opened : List (Bracket × Nat)) (b : Bracket) :
    openedAfter offset opened b.opener = (b, offset) :: opened := by
  simp [openedAfter, Token.ofOpener?_opener]

theorem openedAfter_closer (offset start : Nat) (opened : List (Bracket × Nat)) (b : Bracket) :
    openedAfter offset ((b, start) :: opened) b.closer = opened := by
  simp [openedAfter, Token.ofOpener?_closer]

/-- The text closes the brackets that it opens. On the way through it as many are open as the
surplus says, which is some number at the most. -/
structure Encloses (cs : List Char) (n : Nat) : Prop where
  closes : ∀ offset opened, openBracketsFrom offset opened cs = opened
  length_eq : ∀ front, front <+: cs → ∀ offset opened,
    ((openBracketsFrom offset opened front).length : Int) = opened.length + surplus front
  le : ∀ front, front <+: cs → surplus front ≤ n
  exists_eq : ∃ front, front <+: cs ∧ surplus front = n

namespace Encloses

variable {cs ds : List Char} {m n : Nat}

theorem surplus_eq (hcs : Encloses cs n) : surplus cs = 0 := by
  have hlength := hcs.length_eq cs (List.prefix_refl cs) 0 []
  rw [hcs.closes 0 []] at hlength
  simpa using hlength.symm

/-- A text without brackets encloses nothing. -/
theorem of_not_mem (hcs : ∀ c ∈ cs, c ∉ groupBreaks) : Encloses cs 0 := by
  have hplain : ∀ front, front <+: cs → ∀ c ∈ front, c ∉ groupBreaks :=
    fun front hfront c hc => hcs c (hfront.subset hc)
  refine ⟨openBracketsFrom_of_not_mem hcs, ?_, ?_, [], List.nil_prefix, rfl⟩
  · intro front hfront offset opened
    rw [openBracketsFrom_of_not_mem (hplain front hfront), surplus_of_not_mem (hplain front hfront)]
    omega
  · intro front hfront
    rw [surplus_of_not_mem (hplain front hfront)]
    omega

theorem append (hcs : Encloses cs m) (hds : Encloses ds n) : Encloses (cs ++ ds) (max m n) := by
  have hflat := hcs.surplus_eq
  refine ⟨?_, ?_, ?_, ?_⟩
  · intro offset opened
    rw [openBracketsFrom_append, hcs.closes, hds.closes]
  · intro front hfront offset opened
    rcases isPrefix_append_cases hfront with hfirst | ⟨rest, hrest, rfl⟩
    · exact hcs.length_eq front hfirst offset opened
    · rw [openBracketsFrom_append, hcs.closes, hds.length_eq rest hrest, surplus_append, hflat]
      omega
  · intro front hfront
    rcases isPrefix_append_cases hfront with hfirst | ⟨rest, hrest, rfl⟩
    · have hle := hcs.le front hfirst
      omega
    · have hle := hds.le rest hrest
      rw [surplus_append, hflat]
      omega
  · rcases Nat.le_total m n with hmn | hnm
    · obtain ⟨rest, hrest, heq⟩ := hds.exists_eq
      refine ⟨cs ++ rest, (List.prefix_append_right_inj cs).mpr hrest, ?_⟩
      rw [surplus_append, hflat, heq, Nat.max_eq_right hmn, Int.zero_add]
    · obtain ⟨front, hfront, heq⟩ := hcs.exists_eq
      exact ⟨front, hfront.trans (List.prefix_append cs ds), by rw [heq, Nat.max_eq_left hnm]⟩

/-- A pair of brackets around a text encloses one more. -/
theorem brackets (hcs : Encloses cs n) (b : Bracket) :
    Encloses (b.opener :: (cs ++ [b.closer])) (n + 1) := by
  have hall : ∀ offset opened,
      openBracketsFrom offset opened (b.opener :: (cs ++ [b.closer])) = opened := by
    intro offset opened
    calc
      _ = openBracketsFrom (offset + 1) ((b, offset) :: opened) (cs ++ [b.closer]) := by
        rw [openBracketsFrom, openedAfter_opener]
      _ = openBracketsFrom (offset + 1 + cs.length) ((b, offset) :: opened) [b.closer] := by
        rw [openBracketsFrom_append, hcs.closes]
      _ = opened := by
        rw [openBracketsFrom, openedAfter_closer, openBracketsFrom]
  have hflat : surplus (b.opener :: (cs ++ [b.closer])) = 0 := by
    rw [surplus_cons, surplus_append, surplus_opener, surplus_closer, hcs.surplus_eq]
    omega
  refine ⟨hall, ?_, ?_, ?_⟩
  · intro front hfront offset opened
    rcases isPrefix_brackets_cases hfront with rfl | rfl | ⟨inner, hinner, rfl⟩
    · simp [openBracketsFrom]
    · rw [hall, hflat, Int.add_zero]
    · rw [openBracketsFrom, openedAfter_opener, hcs.length_eq inner hinner, surplus_cons,
        surplus_opener, List.length_cons]
      omega
  · intro front hfront
    rcases isPrefix_brackets_cases hfront with rfl | rfl | ⟨inner, hinner, rfl⟩
    · rw [surplus_nil]
      omega
    · rw [hflat]
      omega
    · have hle := hcs.le inner hinner
      rw [surplus_cons, surplus_opener]
      omega
  · obtain ⟨front, hfront, heq⟩ := hcs.exists_eq
    refine ⟨b.opener :: front, ?_, ?_⟩
    · exact List.cons_prefix_cons.mpr ⟨rfl, hfront.trans (List.prefix_append cs _)⟩
    · rw [surplus_cons, surplus_opener, heq]
      omega

end Encloses

namespace Piece

theorem encloses_textOf {ps : List Piece} (hps : ∀ p ∈ ps, Encloses p.text p.nesting) :
    Encloses (textOf ps) (nestingOf ps) := by
  induction ps with
  | nil => exact .of_not_mem (by simp [textOf])
  | cons p ps ih =>
      obtain ⟨hp, hrest⟩ := List.forall_mem_cons.mp hps
      exact hp.append (ih hrest)

theorem encloses_textOfEarlier {ss : List (List Piece)}
    (hss : ∀ s ∈ ss, Encloses (textOf s) (nestingOf s)) :
    Encloses (textOfEarlier ss) (nestingOfEarlier ss) := by
  induction ss with
  | nil => exact .of_not_mem (by simp [textOfEarlier])
  | cons s ss ih =>
      obtain ⟨hs, hrest⟩ := List.forall_mem_cons.mp hss
      have hcomma : Encloses [','] 0 := .of_not_mem (by simp [groupBreaks])
      have hothers := hcomma.append (ih hrest)
      rw [Nat.zero_max] at hothers
      exact hs.append hothers

theorem mem_tokensOf {p : Piece} {ps : List Piece} {t : Token} (hp : p ∈ ps) (ht : t ∈ p.tokens) :
    t ∈ tokensOf ps := by
  induction ps with
  | nil => cases hp
  | cons q ps ih =>
      rw [tokensOf, List.mem_append]
      rcases List.mem_cons.mp hp with rfl | hrest
      · exact .inl ht
      · exact .inr (ih hrest)

theorem mem_tokensOfEarlier {s : List Piece} {ss : List (List Piece)} {t : Token} (hs : s ∈ ss)
    (ht : t ∈ tokensOf s) : t ∈ tokensOfEarlier ss := by
  induction ss with
  | nil => cases hs
  | cons u ss ih =>
      rw [tokensOfEarlier, List.mem_append, List.mem_cons]
      rcases List.mem_cons.mp hs with rfl | hrest
      · exact .inl ht
      · exact .inr (.inr (ih hrest))

/-- The brackets of a piece are those of its groups. -/
theorem encloses_text (p : Piece) (hstands : ∀ t ∈ p.tokens, ∃ after, t.Stands after) :
    Encloses p.text p.nesting := by
  induction p with
  | separator c =>
      obtain ⟨after, hc⟩ := hstands (.separator c) (by simp [Piece.tokens])
      apply Encloses.of_not_mem
      intro d hd hbreak
      cases List.mem_singleton.mp hd
      exact not_isSeparator_of_mem_groupBreaks hbreak after hc
  | word cs =>
      obtain ⟨after, hcs⟩ := hstands (.word cs) (by simp [Piece.tokens])
      exact .of_not_mem fun c hc => hcs.2.not_mem_groupBreaks hc
  | group b earlier last m hearlier hlast =>
      rw [Piece.tokens] at hstands
      have hfront : Encloses (textOfEarlier earlier) (nestingOfEarlier earlier) := by
        apply encloses_textOfEarlier
        intro s hs
        apply encloses_textOf
        intro p hp
        refine hearlier s hs p hp fun t ht => hstands t ?_
        simp [mem_tokensOfEarlier hs (mem_tokensOf hp ht)]
      have hback : Encloses (textOf last) (nestingOf last) := by
        apply encloses_textOf
        intro p hp
        refine hlast p hp fun t ht => hstands t ?_
        simp [mem_tokensOf hp ht]
      have hmodifier : Encloses (modifierText m) 0 := by
        obtain ⟨after, hcloser⟩ := hstands (.closing b m) (by simp)
        apply Encloses.of_not_mem
        cases m with
        | none => simp [modifierText]
        | some x => exact fun c hc => GroupModifier.not_mem_groupBreaks hcloser.wellFormed hc
      have hgroup := ((hfront.append hback).brackets b).append hmodifier
      simpa [text, nesting] using hgroup

/-- The brackets of a text with a derivation are those of its groups. -/
theorem Derives.encloses {ps : List Piece} {cs : List Char} (hderives : Derives ps cs) :
    Encloses cs (nestingOf ps) := by
  obtain ⟨htokens, -, -⟩ := derives_iff.mp hderives
  obtain ⟨-, hlegible⟩ := tokens_eq_iff.mp htokens
  rw [← hderives.text]
  apply encloses_textOf
  intro p hp
  apply encloses_text
  intro t ht
  exact hlegible.stands_of_mem (mem_tokensOf hp ht)

end Piece

/-! ## Reading under another limit -/

namespace Draft

variable {room less : Nat} {d e f : Draft} {t : Token} {ts us : List Token}

/-- Tokens that are read with less room lead to the same draft, so the rest is read from there. -/
theorem Reads.rest (hread : Reads less d ts e) (hall : Reads room d (ts ++ us) f) :
    Reads room e us f := by
  induction hread with
  | nil d => exact hall
  | cons _ _ ih =>
      cases hall with
      | cons _ hrest => exact ih hrest

/-- Only an opener needs room. -/
theorem eq_opening_of_follows (ht : d.Follows room t) (hless : ¬ d.Follows less t) :
    ∃ b, t = .opening b := by
  cases t with
  | opening b => exact ⟨b, rfl⟩
  | _ => exact absurd ht hless

end Draft

namespace Reading

variable {limit : Int} {cs : List Char} {items : List (Node Float)}

/-- A text that closes its groups is refused under a limit that is too low for them, and for no
other reason. -/
theorem exists_tooDeep (limit : Int) {ps : List Piece} (hderives : Derives ps cs)
    (hfaults : (tokens cs).findSome? Token.fault? = none) (hdeep : limit.toNat < nestingOf ps) :
    ∃ p, (ofText limit 0 0 cs).result = .error (.problem (.tooDeep limit) p) := by
  obtain ⟨read, unread, e, hsplit, hreads, hend, hsame⟩ := Draft.exists_result_eq limit 0 0 cs
  have hall := Draft.reads_iff_derives.mpr ⟨hderives, Nat.le_refl (nestingOf ps)⟩
  rw [hsplit] at hall
  have hrest := Draft.Reads.rest hreads hall
  rw [hsplit, List.findSome?_append, Option.or_eq_none_iff] at hfaults
  rw [hsame, hfaults.1, Stop.unlessFault_none]
  cases unread with
  | nil =>
      cases hrest
      rw [List.append_nil] at hsplit
      rw [← hsplit] at hreads
      have hroom := (Draft.reads_iff_derives.mp hreads).2
      omega
  | cons t rest =>
      cases hrest with
      | cons ht _ =>
          obtain ⟨b, rfl⟩ := Draft.eq_opening_of_follows ht (hend t rfl)
          exact ⟨_, rfl⟩

theorem groupDepth_sequence_nodesOf (ps : List Piece) (o : Nat) :
    (Node.sequence (nodesOf o ps)).groupDepth = nestingOf ps :=
  groupDepthOf_nodesOf (fun p _ => groupDepthOf_node? p) o

/-- The groups of a tree that was read go as deep as the brackets of its text. -/
theorem encloses_of_result (hresult : (ofText limit 0 0 cs).result = .ok items) :
    Encloses cs (Node.sequence items).groupDepth ∧
      (Node.sequence items).groupDepth ≤ limit.toNat := by
  obtain ⟨ps, hderives, hroom, rfl⟩ := exists_derives_of_result hresult
  rw [groupDepth_sequence_nodesOf]
  exact ⟨hderives.encloses, hroom⟩

/-- Where a reading under a limit stops at an opener, no opener before it had so many groups open.
The text as a whole can be read under another limit. -/
theorem le_of_tooDeep {room p q : Nat} {n : Nat} {b : Bracket} (hencloses : Encloses cs n)
    (hproblem : (ofText room 0 0 cs).result = .error (.problem (.tooDeep room) p))
    (hq : cs[q]? = some b.opener) (hopened : (openBrackets (cs.take q)).length = room) : p ≤ q := by
  by_contra hbefore
  obtain ⟨later, hviable⟩ := exists_result_before_problem hproblem
  -- The text up to the problem can be completed under the same limit.
  obtain ⟨hfront, hroom⟩ := encloses_of_result hviable
  have hcount := hencloses.length_eq (cs.take q) (List.take_prefix q cs) 0 []
  have hnext : cs.take (q + 1) = cs.take q ++ [b.opener] := by
    rw [List.take_add_one, hq]
    rfl
  have hinitial : cs.take (q + 1) <+: cs.take p :=
    List.take_prefix_take_left (by omega)
  have hle := hfront.le (cs.take (q + 1)) (hinitial.trans (List.prefix_append _ _))
  rw [openBrackets] at hopened
  rw [hopened, List.length_nil] at hcount
  rw [hnext, surplus_append, surplus_opener] at hle
  simp only [Int.toNat_natCast] at hroom
  omega

/-- The depth of a tree that was read is the greatest surplus of openers at the front of its text.
A limit that is not below gives the same tree, and a lower one is passed at the first opener before
which as many groups are open as the limit allows. -/
theorem result_of_limit (hresult : (ofText limit 0 0 cs).result = .ok items) :
    IsGreatest {k : Int | ∃ front, front <+: cs ∧ surplus front = k}
        (Node.sequence items).groupDepth ∧
      ∀ room : Nat,
        ((Node.sequence items).groupDepth ≤ room → (ofText room 0 0 cs).result = .ok items) ∧
        (room < (Node.sequence items).groupDepth →
          ∃ p, (ofText room 0 0 cs).result = .error (.problem (.tooDeep room) p) ∧
            IsLeast {q : Nat | (∃ b : Bracket, cs[q]? = some b.opener) ∧
              (openBrackets (cs.take q)).length = room} p) := by
  have hencloses := (encloses_of_result hresult).1
  have hfaults := findSome?_fault?_of_result hresult
  obtain ⟨ps, hderives, -, rfl⟩ := exists_derives_of_result hresult
  rw [groupDepth_sequence_nodesOf] at hencloses ⊢
  refine ⟨⟨hencloses.exists_eq, ?_⟩, ?_⟩
  · rintro k ⟨front, hfront, rfl⟩
    exact hencloses.le front hfront
  · intro room
    constructor
    · intro hroom
      have hlimit : nestingOf ps ≤ (room : Int).toNat - 0 := hroom
      rw [result_of_derives 0 hderives hlimit, hfaults]
      rfl
    · intro hroom
      obtain ⟨p, hproblem⟩ := exists_tooDeep room hderives hfaults hroom
      obtain ⟨-, -, hlength, hopener⟩ := explains_of_problem hproblem
      refine ⟨p, hproblem, ⟨hopener, hlength⟩, ?_⟩
      rintro q ⟨⟨b, hq⟩, hopened⟩
      exact le_of_tooDeep hencloses hproblem hq hopened

/-- The groups of `[<a> b]` are two deep, and under a limit of one the second opener is refused. -/
theorem result_of_limit_of_two :
    (ofText 2 0 0 ['[', '<', 'a', '>', ' ', 'b', ']']).result =
        .ok [groupNode .square
          [[groupNode .angle [[(Word.read ['a'] 2).value]] .none (.between 1 4),
            (Word.read ['b'] 5).value]] .none (.between 0 7)] ∧
      ∃ p, (ofText 1 0 0 ['[', '<', 'a', '>', ' ', 'b', ']']).result =
          .error (.problem (.tooDeep 1) p) ∧
        IsLeast {q : Nat |
          (∃ b : Bracket, ['[', '<', 'a', '>', ' ', 'b', ']'][q]? = some b.opener) ∧
            (openBrackets (['[', '<', 'a', '>', ' ', 'b', ']'].take q)).length = 1} p := by
  have htokens : tokens ['[', '<', 'a', '>', ' ', 'b', ']'] =
      [.opening .square, .opening .angle, .word ['a'], .closing .angle none, .separator ' ',
        .word ['b'], .closing .square none] := by
    decide +kernel
  have hresult : (ofText 2 0 0 ['[', '<', 'a', '>', ' ', 'b', ']']).result =
      .ok [groupNode .square
        [[groupNode .angle [[(Word.read ['a'] 2).value]] .none (.between 1 4),
          (Word.read ['b'] 5).value]] .none (.between 0 7)] := by
    rw [ofText, htokens]
    simp (disch := decide) only [ofTokens, Progress.step_word]
    rfl
  have hdepth : 1 < (Node.sequence [groupNode .square
      [[groupNode .angle [[(Word.read ['a'] 2).value]] .none (.between 1 4),
        (Word.read ['b'] 5).value]] .none (.between 0 7)]).groupDepth := by
    simp [groupDepth, groupDepthOf, groupDepth_groupNode]
  exact ⟨hresult, ((result_of_limit hresult).2 1).2 hdepth⟩

end Reading

end CyclePattern
