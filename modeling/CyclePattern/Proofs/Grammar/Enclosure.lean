/-
# Patterns in brackets

Patterns that were read may stand in one pair of brackets, with commas between them. A comma and a
closer end whatever a pattern ends in, be it a word, a number or a dot; only a word with an open
parenthesis goes on past a comma. So the group holds the items of each pattern, moved to where the
pattern stands, and is one level deeper than the deepest of them.
-/

import CyclePattern.Proofs.Grammar.Juxtaposition

namespace CyclePattern

open Piece

/-- The items of some patterns that stand one comma apart, from an offset on. -/
def placedItems (offset : Nat) (texts : List (List Char)) (read : List (List (Node Float))) :
    List (List (Node Float)) :=
  ((placeSegments offset texts).zip read).map fun placed =>
    placed.2.map (Node.shift placed.1.offset)

namespace Piece

variable {ps last : List Piece} {earlier : List (List Piece)} {cs : List Char} {b : Bracket}

/-- The pieces of a text fit before whatever its tokens are legible before. -/
theorem Derives.fitsAll {new : List Char} (hderives : Derives ps cs)
    (hlegible : Token.Legible new (CyclePattern.tokens cs)) : FitsAll new ps := by
  obtain ⟨htokens, -, hshaped⟩ := derives_iff.mp hderives
  rw [htokens] at hlegible
  exact fitsAll_of_legible ps new hlegible hshaped

theorem legible_tokens (cs : List Char) : Token.Legible [] (CyclePattern.tokens cs) :=
  (tokens_eq_iff.mp rfl).2

theorem Derives.fitsAll_comma (hderives : Derives ps cs) (hclosed : ¬ EndsInParenthesis cs)
    (rest : List Char) : FitsAll (',' :: rest) ps :=
  hderives.fitsAll ((legible_tokens cs).exchange_apart (.inr (.inl rfl)) rest
    fun _ => openAfter_eq_zero hclosed)

theorem startsWithCloser_closer (b : Bracket) (rest : List Char) :
    StartsWithCloser (b.closer :: rest) := by
  rintro _ _ ⟨⟩
  exact ⟨b, rfl⟩

theorem Derives.fitsAll_closer (hderives : Derives ps cs) (b : Bracket) (rest : List Char) :
    FitsAll (b.closer :: rest) ps :=
  hderives.fitsAll ((legible_tokens cs).exchange (startsWithCloser_closer b rest))

theorem fitsEarlier_of_derives (hearlier : ∀ ps ∈ earlier, Derives ps (textOf ps))
    (hclosed : ∀ ps ∈ earlier, ¬ EndsInParenthesis (textOf ps)) (after : List Char) :
    FitsEarlier after earlier := by
  induction earlier with
  | nil => trivial
  | cons ps rest ih =>
      obtain ⟨hfirst, hrest⟩ := List.forall_mem_cons.mp hearlier
      obtain ⟨hends, hothers⟩ := List.forall_mem_cons.mp hclosed
      exact ⟨hfirst.spaced, hfirst.fitsAll_comma hends _, ih hrest hothers⟩

/-- A group of patterns is a derivation of their texts in brackets. -/
theorem derives_group (hearlier : ∀ ps ∈ earlier, Derives ps (textOf ps))
    (hclosed : ∀ ps ∈ earlier, ¬ EndsInParenthesis (textOf ps))
    (hlast : Derives last (textOf last)) (hholds : b.holdsGroups = true) :
    Derives [group b earlier last none] (group b earlier last none).text where
  text := textOf_singleton _
  spaced := List.isChain_singleton _
  fits := by
    refine ⟨⟨?_, fitsEarlier_of_derives hearlier hclosed _, hlast.spaced,
      hlast.fitsAll_closer b _, ?_⟩, trivial⟩
    · intro hone
      rw [hholds] at hone
      cases hone
    · intro m hm
      cases hm

theorem findSome?_fault?_tokensOfEarlier
    (hearlier : ∀ ps ∈ earlier, (tokensOf ps).findSome? Token.fault? = none) :
    (tokensOfEarlier earlier).findSome? Token.fault? = none := by
  induction earlier with
  | nil => rfl
  | cons ps rest ih =>
      obtain ⟨hfirst, hrest⟩ := List.forall_mem_cons.mp hearlier
      rw [tokensOfEarlier, List.findSome?_append, hfirst, List.findSome?_cons, ih hrest]
      rfl

/-- A group without a number has no fault of its own. -/
theorem findSome?_fault?_group
    (hearlier : ∀ ps ∈ earlier, (tokensOf ps).findSome? Token.fault? = none)
    (hlast : (tokensOf last).findSome? Token.fault? = none) :
    (tokensOf [group b earlier last none]).findSome? Token.fault? = none := by
  rw [tokensOf, tokensOf, Piece.tokens, List.append_nil, List.findSome?_cons,
    List.findSome?_append, List.findSome?_append, findSome?_fault?_tokensOfEarlier hearlier, hlast]
  rfl

/-- The items of a group are those of its patterns, each moved to its place. -/
theorem groupsOf_eq_place (o : Nat) (earlier : List (List Piece)) (last : List Piece) :
    groupsOf o earlier ++ [nodesOf (o + (textOfEarlier earlier).length) last] =
      placedItems o ((earlier ++ [last]).map textOf) ((earlier ++ [last]).map (nodesOf 0)) := by
  have hmoved : ∀ (ps : List Piece) (o : Nat),
      nodesOf o ps = (nodesOf 0 ps).map (Node.shift o) := by
    intro ps o
    rw [← nodesOf_add o (fun p _ => p.node?_add o) 0, Nat.zero_add]
  induction earlier generalizing o with
  | nil => simp [groupsOf, textOfEarlier, placedItems, placeSegments, hmoved last o]
  | cons ps rest ih =>
      have hplace : o + (textOfEarlier (ps :: rest)).length =
          o + (textOf ps).length + 1 + (textOfEarlier rest).length := by
        simp only [textOfEarlier, List.length_append, List.length_cons]
        omega
      rw [groupsOf, List.cons_append, hplace, ih, hmoved ps o]
      rfl

theorem intercalate_textOf (earlier : List (List Piece)) (last : List Piece) :
    [','].intercalate ((earlier ++ [last]).map textOf) = textOfEarlier earlier ++ textOf last := by
  induction earlier with
  | nil => simp [textOfEarlier]
  | cons ps rest ih =>
      have hrest : (rest ++ [last]).map textOf ≠ [] := by simp
      rw [List.cons_append, List.map_cons, List.intercalate_cons_of_ne_nil hrest, ih, textOfEarlier]
      simp

end Piece

namespace Reading

variable {limit : Int} {texts : List (List Char)} {read : List (List (Node Float))} {b : Bracket}

/-- The text of some patterns in a pair of brackets. -/
def enclosed (b : Bracket) (texts : List (List Char)) : List Char :=
  b.opener :: ([','].intercalate texts ++ [b.closer])

/-- Texts that were read have derivations. -/
theorem exists_derivations {room : Int}
    (hread : List.Forall₂ (fun cs items => (ofText room 0 0 cs).result = .ok items) texts read) :
    ∃ pss : List (List Piece), texts = pss.map textOf ∧ read = pss.map (nodesOf 0) ∧
      ∀ ps ∈ pss, Derives ps (textOf ps) ∧ nestingOf ps ≤ room.toNat ∧
        (tokensOf ps).findSome? Token.fault? = none := by
  induction hread with
  | nil => exact ⟨[], rfl, rfl, by simp⟩
  | cons hfirst _ ih =>
      obtain ⟨pss, rfl, rfl, hall⟩ := ih
      have hnone := findSome?_fault?_of_result hfirst
      obtain ⟨ps, hderives, hroom, rfl⟩ := exists_derives_of_result hfirst
      obtain rfl := hderives.text
      rw [(derives_iff.mp hderives).1] at hnone
      exact ⟨ps :: pss, rfl, rfl, List.forall_mem_cons.mpr ⟨⟨hderives, hroom, hnone⟩, hall⟩⟩

/-- Patterns in brackets are read into one group, which holds the items of each in its place. -/
theorem result_enclosed (hlimit : 1 ≤ limit) (hholds : b.holdsGroups = true)
    (hread : List.Forall₂ (fun cs items => (ofText (limit - 1) 0 0 cs).result = .ok items)
      texts read)
    (hsome : texts ≠ []) (hclosed : ∀ cs ∈ texts.dropLast, ¬ EndsInParenthesis cs) :
    (ofText limit 0 0 (enclosed b texts)).result =
      .ok [groupNode b (placedItems 1 texts read) .none
        (.between 0 (enclosed b texts).length)] := by
  obtain ⟨pss, rfl, rfl, hall⟩ := exists_derivations hread
  rcases List.eq_nil_or_concat pss with rfl | ⟨earlier, last, rfl⟩
  · exact absurd rfl hsome
  rw [List.concat_eq_append] at hclosed hall ⊢
  have hopen : ∀ ps ∈ earlier, ¬ EndsInParenthesis (textOf ps) := by
    intro ps hps
    apply hclosed
    rw [List.map_append, List.map_singleton, List.dropLast_concat]
    exact List.mem_map_of_mem hps
  obtain ⟨hearlier, hlast⟩ := List.forall_mem_append.mp hall
  obtain ⟨hderived, hdepth, hnone⟩ := List.forall_mem_singleton.mp hlast
  have htext : (group b earlier last none).text = enclosed b ((earlier ++ [last]).map textOf) := by
    rw [text, enclosed, intercalate_textOf, List.append_assoc]
    rfl
  have hderives := derives_group (fun ps hps => (hearlier ps hps).1) hopen hderived hholds
  have hroom : nestingOf [group b earlier last none] ≤ limit.toNat - 0 := by
    have hdepths := nestingOfEarlier_le_iff.mpr fun ps hps => (hearlier ps hps).2.1
    simp only [nestingOf, nesting]
    omega
  have hfaults := findSome?_fault?_group (b := b) (fun ps hps => (hearlier ps hps).2.2) hnone
  rw [← (derives_iff.mp hderives).1] at hfaults
  have hresult := result_of_derives 0 hderives hroom
  rw [hfaults, htext] at hresult
  have hnodes : nodesOf 0 [group b earlier last none] =
      [groupNode b (placedItems 1 ((earlier ++ [last]).map textOf)
        ((earlier ++ [last]).map (nodesOf 0))) .none
        (.between 0 (enclosed b ((earlier ++ [last]).map textOf)).length)] := by
    rw [nodesOf, nodesOf, node?, Nat.zero_add, groupsOf_eq_place, htext, Nat.zero_add]
    rfl
  rw [hresult, Stop.unlessFault_none, hnodes]

end Reading

end CyclePattern
