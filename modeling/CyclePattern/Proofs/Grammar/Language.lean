/-
# The language of patterns

A text is read to a tree exactly when it has a derivation of that tree with room for its groups, and
no number in it has a fault. No text has two derivations. A number has a fault when it has too many
digits to be converted, or when it is a factor after a group that is beyond every float.
-/

import CyclePattern.Proofs.Grammar.Simulation

namespace CyclePattern

open Piece

/-- Why a token cannot be computed with: a word has no node, or the number after a group is too long
to be converted, or is a factor that no float comes near. -/
inductive Token.HasFault : Token → NumberFault → Prop
  | word {cs : List Char} {start : Int} {fault : NumberFault}
      (hnode : Word.node cs start = .error fault) : HasFault (.word cs) fault
  | long {b : Bracket} {m : GroupModifier} (hlong : m.number.IsTooLong) :
      HasFault (.closing b (some m)) (.tooLong m.number.whole.length)
  | large {b : Bracket} {m : GroupModifier} (hfactor : m.field = .division ∨ m.field = .ratio)
      (hshort : ¬ m.number.IsTooLong) (hwhole : m.number.fraction = none)
      (hlarge : binary64Overflow ≤ m.number.wholeValue.natAbs) :
      HasFault (.closing b (some m)) .tooLarge

theorem GroupModifier.isTooLarge_iff {m : GroupModifier} :
    m.isTooLarge = true ↔ (m.field = .division ∨ m.field = .ratio) ∧ m.number.fraction = none ∧
      binary64Overflow ≤ m.number.wholeValue.natAbs := by
  obtain ⟨c, field, x⟩ := m
  cases field <;> simp [isTooLarge, Numeral.isWhole, Measure.fits]

theorem GroupModifier.fault?_eq_some_iff {m : GroupModifier} {fault : NumberFault} :
    m.fault? = some fault ↔
      (m.number.IsTooLong ∧ fault = .tooLong m.number.whole.length) ∨
        ¬ m.number.IsTooLong ∧ m.isTooLarge = true ∧ fault = .tooLarge := by
  rw [fault?]
  cases hlong : m.number.tooLong? with
  | some found =>
      obtain ⟨hshape, rfl⟩ := Numeral.tooLong?_eq_some_iff.mp hlong
      simp [hshape, eq_comm (a := fault)]
  | none =>
      have hshort := Numeral.tooLong?_eq_none_iff.mp hlong
      simp [hshort, eq_comm (a := fault)]

/-- The fault that the reading finds in a token is the one that the token has. -/
theorem Token.hasFault_iff {t : Token} {fault : NumberFault} :
    t.HasFault fault ↔ t.fault? = some fault := by
  constructor
  · intro hfault
    cases hfault with
    | word hnode => exact Word.node_eq_error_iff.mp hnode
    | long hlong => exact GroupModifier.fault?_eq_some_iff.mpr (.inl ⟨hlong, rfl⟩)
    | large hfactor hshort hwhole hlarge =>
        exact GroupModifier.fault?_eq_some_iff.mpr
          (.inr ⟨hshort, GroupModifier.isTooLarge_iff.mpr ⟨hfactor, hwhole, hlarge⟩, rfl⟩)
  · intro hfault
    cases t with
    | word cs =>
        have hnode : Word.node cs 0 = .error fault := Word.node_eq_error_iff.mpr hfault
        exact .word hnode
    | closing b m =>
        obtain ⟨m, rfl, hm⟩ := Option.bind_eq_some_iff.mp hfault
        rcases GroupModifier.fault?_eq_some_iff.mp hm with ⟨hlong, rfl⟩ | ⟨hshort, hlarge, rfl⟩
        · exact .long hlong
        · obtain ⟨hfactor, hwhole, hlarge⟩ := GroupModifier.isTooLarge_iff.mp hlarge
          exact .large hfactor hshort hwhole hlarge
    | _ => cases hfault

/-- The first fault of some tokens. -/
def Token.FirstFault (ts : List Token) (fault : NumberFault) : Prop :=
  ∃ before t after, ts = before ++ t :: after ∧ t.HasFault fault ∧
    ∀ u ∈ before, ∀ other, ¬ u.HasFault other

theorem Token.findSome?_fault?_eq_some_iff {ts : List Token} {fault : NumberFault} :
    ts.findSome? fault? = some fault ↔ FirstFault ts fault := by
  simp only [List.findSome?_eq_some_iff, FirstFault, hasFault_iff,
    Option.eq_none_iff_forall_ne_some, ne_eq]

theorem Token.findSome?_fault?_eq_none_iff {ts : List Token} :
    ts.findSome? fault? = none ↔ ∀ t ∈ ts, ∀ fault, ¬ t.HasFault fault := by
  rw [List.findSome?_eq_none_iff]
  simp only [hasFault_iff, Option.eq_none_iff_forall_ne_some, ne_eq]

namespace Reading

variable {limit : Int} {depth offset : Nat} {cs : List Char} {fault : NumberFault}

/-- The result for a text with a derivation. -/
theorem result_of_derives {ps : List Piece} (offset : Nat) (hderives : Derives ps cs)
    (hroom : nestingOf ps ≤ limit.toNat - depth) :
    (ofText limit depth offset cs).result =
      Stop.unlessFault ((tokens cs).findSome? Token.fault?) (.ok (nodesOf offset ps)) := by
  have hreads := Draft.reads_iff_derives.mpr ⟨hderives, hroom⟩
  obtain ⟨later, hresult⟩ := Draft.ofTokens_of_reads offset hreads []
  have hall := hresult []
  rw [List.append_nil] at hall
  show (ofTokens limit depth (Draft.empty.progress offset []) (tokens cs)).result = _
  rw [hall]
  simp [ofTokens, Progress.finish, Draft.progress, Draft.openedOf, Draft.outerLength,
    Draft.outerTokens]

/-- A tree that is read has a derivation. -/
theorem exists_derives_of_result {items : List (Node Float)}
    (hresult : (ofText limit depth offset cs).result = .ok items) :
    ∃ ps, Derives ps cs ∧ nestingOf ps ≤ limit.toNat - depth ∧ nodesOf offset ps = items := by
  obtain ⟨read, unread, ⟨frames, s⟩, hsplit, hreads, hend, hsame⟩ :=
    Draft.exists_result_eq limit depth offset cs
  rw [hsame, Stop.unlessFault_eq_ok_iff] at hresult
  replace hresult := hresult.2
  rcases Draft.outcome_cases hend with ⟨hall, hclosed, hread⟩ | ⟨cause, p, hproblem, -⟩
  · rw [hread] at hresult
    have hitems : nodesOf offset s = items := by simpa using hresult
    have hframes : frames = [] := hclosed
    rw [hframes] at hreads
    rw [hall, List.append_nil] at hsplit
    rw [← hsplit] at hreads
    obtain ⟨hderives, hroom⟩ := Draft.reads_iff_derives.mp hreads
    exact ⟨s, hderives, hroom, hitems⟩
  · rw [hproblem] at hresult
    cases hresult

/-- No token of a text that is read has a fault. -/
theorem findSome?_fault?_of_result {items : List (Node Float)}
    (hresult : (ofText limit depth offset cs).result = .ok items) :
    (tokens cs).findSome? Token.fault? = none := by
  obtain ⟨ps, hderives, hroom, -⟩ := exists_derives_of_result hresult
  rw [result_of_derives offset hderives hroom] at hresult
  exact (Stop.unlessFault_eq_ok_iff.mp hresult).1

/-- A reading comes to a fault exactly when it is the first one of the tokens at the front that can
be read. -/
theorem result_eq_number_iff :
    (ofText limit depth offset cs).result = .error (.number fault) ↔
      ∃ read unread d, tokens cs = read ++ unread ∧
        Draft.Reads (limit.toNat - depth) .empty read d ∧ Token.FirstFault read fault := by
  constructor
  · intro hresult
    obtain ⟨read, unread, d, hsplit, hreads, hend, hsame⟩ :=
      Draft.exists_result_eq limit depth offset cs
    rw [hsame] at hresult
    cases hfault : read.findSome? Token.fault? with
    | some found =>
        rw [hfault] at hresult
        cases hresult
        exact ⟨read, unread, d, hsplit, hreads, Token.findSome?_fault?_eq_some_iff.mp hfault⟩
    | none =>
        rw [hfault] at hresult
        rcases Draft.outcome_cases hend with ⟨-, -, hread⟩ | ⟨cause, p, hproblem, -⟩
        · rw [hread] at hresult
          cases hresult
        · rw [hproblem] at hresult
          cases hresult
  · intro ⟨read, unread, d, hsplit, hreads, hfirst⟩
    obtain ⟨later, hresult⟩ := Draft.ofTokens_of_reads offset hreads []
    rw [ofText, hsplit]
    show (ofTokens limit depth (Draft.empty.progress offset []) (read ++ unread)).result = _
    rw [hresult unread, Token.findSome?_fault?_eq_some_iff.mpr hfirst, Stop.unlessFault_some]

/-- Only a token with a fault can make a reading come to one. -/
theorem exists_hasFault_of_result
    (hresult : (ofText limit depth offset cs).result = .error (.number fault)) :
    ∃ t ∈ tokens cs, t.HasFault fault := by
  obtain ⟨read, unread, d, hsplit, -, before, t, after, rfl, ht, -⟩ :=
    result_eq_number_iff.mp hresult
  exact ⟨t, by simp [hsplit], ht⟩

/-- Reading accepts the texts with a derivation in which no token has a fault, each with the tree of
its only derivation. A text with a derivation in which a token has one comes to the first of them,
and no other text comes to a fault that none of its tokens has. -/
theorem result_eq_ok_iff_derives (limit : Nat) (cs : List Char) :
    (∀ ps qs, Derives ps cs → Derives qs cs → ps = qs) ∧
    (∀ items, (ofText limit 0 0 cs).result = .ok items ↔
      (∃ ps, Derives ps cs ∧ nestingOf ps ≤ limit ∧ nodesOf 0 ps = items) ∧
        ∀ t ∈ tokens cs, ∀ fault, ¬ t.HasFault fault) ∧
    (∀ ps fault, Derives ps cs → nestingOf ps ≤ limit →
      ((ofText limit 0 0 cs).result = .error (.number fault) ↔
        Token.FirstFault (tokens cs) fault)) ∧
    ∀ fault, (ofText limit 0 0 cs).result = .error (.number fault) →
      ∃ t ∈ tokens cs, t.HasFault fault := by
  have hresult : ∀ ps, Derives ps cs → nestingOf ps ≤ limit → (ofText limit 0 0 cs).result =
      Stop.unlessFault ((tokens cs).findSome? Token.fault?) (.ok (nodesOf 0 ps)) := by
    intro ps hderives hroom
    exact result_of_derives 0 hderives (by simpa using hroom)
  refine ⟨fun ps qs => Derives.unique, ?_, ?_, fun fault => exists_hasFault_of_result⟩
  · intro items
    rw [← Token.findSome?_fault?_eq_none_iff]
    constructor
    · intro hread
      exact ⟨by simpa using exists_derives_of_result hread, findSome?_fault?_of_result hread⟩
    · rintro ⟨⟨ps, hderives, hroom, rfl⟩, hnone⟩
      rw [hresult ps hderives hroom, hnone, Stop.unlessFault_none]
  · intro ps fault hderives hroom
    rw [hresult ps hderives hroom, ← Token.findSome?_fault?_eq_some_iff]
    cases (tokens cs).findSome? Token.fault? <;> simp

end Reading

/-- A group that holds a single letter, with an operator and a number after it. -/
def letterGroup (b : Bracket) (c : Char) (x : Numeral) : List Char :=
  b.opener :: 'x' :: b.closer :: c :: x.text

variable {b : Bracket} {c : Char} {field : GroupField} {x : Numeral}

theorem isWord_letter (b : Bracket) (rest : List Char) : IsWord ['x'] (b.closer :: rest) := by
  refine ⟨List.cons_ne_nil _ _, run_cons_iff.mpr ⟨?_, run_nil_iff.mpr ?_⟩⟩
  · simp [Stops, IsSeparator, groupBreaks]
  · rintro _ _ ⟨⟩
    exact .inl b.closer_mem_groupBreaks

theorem longest_nil (hx : x.WellFormed) : x.Longest [] := by
  refine ⟨hx, ?_⟩
  intro y _ hfront
  simpa using hfront.length_le

theorem derives_letterGroup (hc : (c, field) ∈ b.operators) (hx : x.WellFormed) :
    Derives [.group b [] [.word ['x']] (some ⟨c, field, x⟩)] (letterGroup b c x) := by
  refine ⟨?_, .singleton _, ⟨?_, trivial⟩⟩
  · simp [letterGroup, textOf, Piece.text, textOfEarlier, modifierText, GroupModifier.text]
  · refine ⟨fun _ => rfl, trivial, .singleton _, ⟨isWord_letter b _, trivial⟩, ?_⟩
    rintro _ ⟨⟩
    exact ⟨hc, longest_nil hx⟩

theorem tokens_letterGroup (hc : (c, field) ∈ b.operators) (hx : x.WellFormed) :
    tokens (letterGroup b c x) =
      [.opening b, .word ['x'], .closing b (some ⟨c, field, x⟩)] := by
  apply tokens_eq_iff.mpr
  refine ⟨?_, trivial, isWord_letter b _, ⟨hc, longest_nil hx⟩, trivial⟩
  simp [letterGroup, Token.text, GroupModifier.text]

/-- The letter has no fault, so a group with it has the fault of its number. -/
theorem findSome?_fault?_letterGroup (hc : (c, field) ∈ b.operators) (hx : x.WellFormed) :
    (tokens (letterGroup b c x)).findSome? Token.fault? =
      GroupModifier.fault? ⟨c, field, x⟩ := by
  have hletter : Word.fault? ['x'] = none := Word.fault?_eq_none_of_length_le (by decide)
  rw [tokens_letterGroup hc hx]
  cases hfault : GroupModifier.fault? ⟨c, field, x⟩ <;>
    simp [Token.fault?, hletter, hfault, List.findSome?_cons]

theorem nestingOf_letterGroup : nestingOf [.group b [] [.word ['x']] (some ⟨c, field, x⟩)] = 1 :=
  rfl

namespace Reading

/-- The group is read unless its number has a fault. -/
theorem result_letterGroup {limit : Int} (hlimit : 1 ≤ limit) (hc : (c, field) ∈ b.operators)
    (hx : x.WellFormed) :
    (ofText limit 0 0 (letterGroup b c x)).result =
      Stop.unlessFault (GroupModifier.fault? ⟨c, field, x⟩)
        (.ok [groupNode b [[(Word.read ['x'] 1).value]] (Piece.settings (some ⟨c, field, x⟩))
          (.between 0 (letterGroup b c x).length)]) := by
  have hderives := derives_letterGroup hc hx
  have hroom : nestingOf [.group b [] [.word ['x']] (some ⟨c, field, x⟩)] ≤ limit.toNat - 0 := by
    rw [nestingOf_letterGroup]
    omega
  rw [result_of_derives 0 hderives hroom, findSome?_fault?_letterGroup hc hx]
  simp [nodesOf, node?, groupsOf, textOfEarlier, Piece.text, textOf, modifierText,
    GroupModifier.text, letterGroup]

/-- The group `<x>*n` has a derivation and is not read when `n` is a negative number of 4301
digits. -/
theorem number_of_derives_of_long_count :
    ∃ ps, Derives ps (letterGroup .angle '*' (.ones true 4301)) ∧ nestingOf ps ≤ 64 ∧
      (ofText 64 0 0 (letterGroup .angle '*' (.ones true 4301))).result =
        .error (.number (.tooLong 4301)) := by
  have hoperator : ('*', GroupField.repeats) ∈ Bracket.angle.operators := by
    simp [Bracket.operators]
  have hformed := Numeral.wellFormed_ones true (by decide : 0 < 4301)
  have hlong := Numeral.isTooLong_ones true (by decide : digitLimit < 4301)
  have hfault : GroupModifier.fault? ⟨'*', .repeats, .ones true 4301⟩ = some (.tooLong _) :=
    GroupModifier.fault?_eq_some_iff.mpr (.inl ⟨hlong, rfl⟩)
  refine ⟨_, derives_letterGroup hoperator hformed, by rw [nestingOf_letterGroup]; decide, ?_⟩
  rw [result_letterGroup (by decide) hoperator hformed, hfault, Stop.unlessFault_some,
    Numeral.length_whole_ones]

end Reading

end CyclePattern
