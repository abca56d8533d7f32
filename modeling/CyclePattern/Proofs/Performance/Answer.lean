/-
# Answers to a pattern

A caller with a nesting limit in range gets an answer: a value, or an error in the pattern. Only
numbers keep a text from being answered: one in it that has a fault, which is found while the text is
read, and a count that a window has to be divided by and that is beyond every float, which is found
while the tree is played. A fault of a number with fewer digits than are converted is that of a whole
number after a group that multiplies or divides it.
-/

import CyclePattern.Cycle
import CyclePattern.Proofs.Grammar.WellFormed
import CyclePattern.Proofs.Performance.Faults

namespace CyclePattern

variable {cs : List Char} {limit : Int} {fault : NumberFault}

/-- Whether one of the tokens at the front of the text that can be read has the fault. -/
def ReadsFault (cs : List Char) (limit : Int) (fault : NumberFault) : Prop :=
  ∃ read unread d, tokens cs = read ++ unread ∧ Draft.Reads limit.toNat .empty read d ∧
    ∃ t ∈ read, t.HasFault fault

/-- Whether the text is read to a tree in which a node is played that divides its window by a count
beyond every float. -/
def HasLargeCount (cs : List Char) (limit : Int) : Prop :=
  ∃ tree, (readTree cs limit).result = .ok (.ok tree) ∧
    ∃ n, tree.Plays wholeCycle n ∧ n.HasLargeCount

theorem readTree_result (cs : List Char) (limit : Int) :
    (readTree cs limit).result =
      match (Reading.ofText limit 0 0 cs).result with
      | .ok items => .ok (.ok (.sequence items))
      | .error (.problem cause offset) => .ok (.error (.ofCause cs cause offset))
      | .error (.number fault) => .error (.number fault) :=
  rfl

/-- The tree of a text is the sequence of what was read from it. -/
theorem exists_items_of_readTree {tree : Node Float}
    (htree : (readTree cs limit).result = .ok (.ok tree)) :
    ∃ items, (Reading.ofText limit 0 0 cs).result = .ok items ∧ tree = .sequence items := by
  rw [readTree_result] at htree
  split at htree
  · next items hresult =>
      cases htree
      exact ⟨items, hresult, rfl⟩
  · cases htree
  · cases htree

theorem wellFormed_of_readTree {tree n : Node Float}
    (htree : (readTree cs limit).result = .ok (.ok tree)) (hn : tree.Holds n) : n.WellFormed := by
  obtain ⟨items, hresult, rfl⟩ := exists_items_of_readTree htree
  exact Reading.forall_wellFormed hresult n hn

/-- A number has too many digits only where these digits stand in the token. -/
theorem Token.HasFault.exists_digits {t : Token} {after : List Char} {count : Nat}
    (ht : t.Stands after) (hfault : t.HasFault (.tooLong count)) :
    ∃ digits, Numeral.IsDigits digits ∧ digits <:+: t.text ∧ digits.length = count ∧
      digitLimit < count := by
  cases hfault with
  | @word cs start _ hnode =>
      obtain ⟨x, hx, hlong, hcount⟩ :=
        Word.exists_isTooLong_of_fault? (Word.node_eq_error_iff.mp hnode)
      cases hcount
      obtain ⟨hdigits, hinside⟩ := Word.isDigits_of_mem_wholes hx
      exact ⟨x.whole, hdigits, hinside, rfl, hlong.long⟩
  | @long b m hlong =>
      refine ⟨m.number.whole, ht.wellFormed.number.whole, ?_, rfl, hlong.long⟩
      refine ⟨[b.closer, m.operator] ++ (if m.number.negative then ['-'] else []), [], ?_⟩
      simp [text, GroupModifier.text, Numeral.text_of_fraction_eq_none hlong.whole]

/-- Only a number with more digits than are converted is too long. -/
theorem ReadsFault.exists_digits {count : Nat} (hfault : ReadsFault cs limit (.tooLong count)) :
    ∃ digits, Numeral.IsDigits digits ∧ digits <:+: cs ∧ digits.length = count ∧
      digitLimit < count := by
  obtain ⟨read, unread, d, hsplit, -, t, ht, hfault⟩ := hfault
  obtain ⟨rfl, hlegible⟩ := tokens_eq_iff.mp hsplit
  have hmem : t ∈ read ++ unread := List.mem_append_left unread ht
  obtain ⟨rest, hstands⟩ := hlegible.stands_of_mem hmem
  obtain ⟨digits, hdigits, hinside, hcount⟩ := hfault.exists_digits hstands
  obtain ⟨before, later, hparts⟩ := List.append_of_mem hmem
  refine ⟨digits, hdigits, hinside.trans ⟨Token.textOf before, Token.textOf later, ?_⟩, hcount⟩
  rw [hparts]
  simp

/-- A text whose tree comes to a fault reads it. -/
theorem exists_readsFault_of_readTree {other : Fault}
    (hresult : (readTree cs limit).result = .error other) :
    ∃ fault, other = .number fault ∧ ReadsFault cs limit fault := by
  rw [readTree_result] at hresult
  split at hresult
  · cases hresult
  · cases hresult
  · next fault hstop =>
      cases hresult
      obtain ⟨read, unread, d, hsplit, hreads, before, t, after, rfl, ht, -⟩ :=
        Reading.result_eq_number_iff.mp hstop
      exact ⟨fault, rfl, _, unread, d, hsplit, hreads, t, by simp, ht⟩

/-- A fault that is read is never passed over. -/
theorem ReadsFault.fails (hfault : ReadsFault cs limit fault) :
    Fails (readTree cs limit).result := by
  obtain ⟨read, unread, d, hsplit, hreads, t, ht, hfault⟩ := hfault
  cases hfirst : read.findSome? Token.fault? with
  | none => exact absurd hfault (Token.findSome?_fault?_eq_none_iff.mp hfirst t ht fault)
  | some first =>
      have hstop : (Reading.ofText limit 0 0 cs).result = .error (.number first) :=
        Reading.result_eq_number_iff.mpr
          ⟨read, unread, d, hsplit, hreads, Token.findSome?_fault?_eq_some_iff.mp hfirst⟩
      rw [readTree_result, hstop]
      exact ⟨.number first, rfl⟩

/-- Without a number that is too long, only a factor keeps a text from being read. -/
theorem faultsOnly_readTree (hshort : ∀ count, ¬ ReadsFault cs limit (.tooLong count)) :
    FaultsOnly (ReadsFault cs limit .tooLarge) (readTree cs limit).result := by
  intro other hother
  obtain ⟨fault, rfl, hfault⟩ := exists_readsFault_of_readTree hother
  cases fault with
  | tooLarge => exact ⟨rfl, hfault⟩
  | tooLong count => exact absurd hfault (hshort count)

/-- A cycle is played from the tree of its text. -/
theorem readCycle_result (cs : List Char) (limit : Int) :
    (readCycle cs limit).result =
      (readTree cs limit).result >>= fun
        | .error error => .ok (.error error)
        | .ok tree => (tree.perform wholeCycle).map fun events => .ok (Timeline.ofEvents events) := by
  rcases htree : (readTree cs limit).result with fault | (error | tree)
  · simp only [readCycle, htree]
    rfl
  · simp only [readCycle, htree]
    rfl
  · simp only [readCycle, htree]
    show _ = (tree.perform wholeCycle).map fun events => Except.ok (Timeline.ofEvents events)
    cases tree.perform wholeCycle with
    | error fault => rfl
    | ok events => rfl

/-- Only a count makes a tree that was read too large to be played. -/
theorem faultsOnly_played {outcome : Except PatternError (Node Float)}
    (houtcome : (readTree cs limit).result = .ok outcome) :
    FaultsOnly (HasLargeCount cs limit)
      (match outcome with
      | .error error => .ok (.error error)
      | .ok tree =>
        (tree.perform wholeCycle).map fun events =>
          (.ok (Timeline.ofEvents events) : Except PatternError (List (Event Float)))) := by
  cases outcome with
  | error error => exact .of_ok _ _
  | ok tree =>
      apply FaultsOnly.map
      apply Node.faultsOnly_perform
      · intro n hn
        exact wellFormed_of_readTree houtcome hn
      · intro n hn hlarge
        exact ⟨tree, houtcome, n, hn, hlarge⟩

/-- A text whose cycle comes to a fault reads it, or has a count that is too large. -/
theorem exists_readsFault_of_readCycle {other : Fault}
    (hresult : (readCycle cs limit).result = .error other) :
    (∃ fault, other = .number fault ∧ ReadsFault cs limit fault) ∨
      other = .number .tooLarge ∧ HasLargeCount cs limit := by
  rw [readCycle_result] at hresult
  cases houtcome : (readTree cs limit).result with
  | error found =>
      rw [houtcome] at hresult
      cases hresult
      exact .inl (exists_readsFault_of_readTree houtcome)
  | ok outcome =>
      rw [houtcome] at hresult
      exact .inr (faultsOnly_played houtcome other hresult)

/-- Without a number that is too long, only a factor or a count keeps a text from being played. -/
theorem faultsOnly_readCycle (hshort : ∀ count, ¬ ReadsFault cs limit (.tooLong count)) :
    FaultsOnly (ReadsFault cs limit .tooLarge ∨ HasLargeCount cs limit)
      (readCycle cs limit).result := by
  rw [readCycle_result]
  apply FaultsOnly.bind ((faultsOnly_readTree hshort).mono Or.inl)
  intro outcome houtcome
  exact (faultsOnly_played houtcome).mono Or.inr

theorem fails_readCycle_of_readsFault (hfault : ReadsFault cs limit fault) :
    Fails (readCycle cs limit).result := by
  rw [readCycle_result]
  exact hfault.fails.bind _

/-- A count that is too large keeps the whole cycle from being played. -/
theorem fails_readCycle_of_hasLargeCount (hcount : HasLargeCount cs limit) :
    Fails (readCycle cs limit).result := by
  rw [readCycle_result]
  obtain ⟨tree, htree, n, hplays, hcount⟩ := hcount
  rw [htree]
  have hformed : ∀ m, tree.Holds m → m.WellFormed := fun m hm => wellFormed_of_readTree htree hm
  exact (Node.fails_perform_of_plays hplays hformed hcount).map _

/-- A request with a nesting limit in range is answered with a sequence, or with events, or with an
error in the pattern, unless a number that is read has a fault or a count is beyond every float.
Unless a number has more digits than are converted, the fault is that of a factor or a count that is
beyond every float. -/
theorem result_eq_error_iff_of_isDepth (text : String) (hlimit : isDepth limit = true) :
    (∃ answer, parseTree text limit = .ok answer ∧
      (∀ tree, answer.result = .ok (.ok tree) → tree.IsSequence) ∧
      (∀ other, answer.result = .error other →
        ∃ fault, other = .number fault ∧ ReadsFault text.toList limit fault) ∧
      (∀ fault, ReadsFault text.toList limit fault → ∃ other, answer.result = .error other) ∧
      ((∀ count, ¬ ReadsFault text.toList limit (.tooLong count)) →
        ∀ fault, answer.result = .error fault ↔
          fault = .number .tooLarge ∧ ReadsFault text.toList limit .tooLarge)) ∧
    (∃ answer, parseCycle text limit = .ok answer ∧
      (∀ other, answer.result = .error other →
        (∃ fault, other = .number fault ∧ ReadsFault text.toList limit fault) ∨
          other = .number .tooLarge ∧ HasLargeCount text.toList limit) ∧
      (∀ fault, ReadsFault text.toList limit fault ∨ HasLargeCount text.toList limit →
        ∃ other, answer.result = .error other) ∧
      ((∀ count, ¬ ReadsFault text.toList limit (.tooLong count)) →
        ∀ fault, answer.result = .error fault ↔
          fault = .number .tooLarge ∧
            (ReadsFault text.toList limit .tooLarge ∨ HasLargeCount text.toList limit))) ∧
    ∀ count, ReadsFault text.toList limit (.tooLong count) →
      ∃ digits, Numeral.IsDigits digits ∧ digits <:+: text.toList ∧ digits.length = count ∧
        digitLimit < count := by
  refine ⟨⟨readTree text.toList limit, if_pos hlimit, ?_, ?_, ?_, ?_⟩,
    ⟨readCycle text.toList limit, if_pos hlimit, ?_, ?_, ?_⟩, fun count => ReadsFault.exists_digits⟩
  · intro tree htree
    obtain ⟨items, -, rfl⟩ := exists_items_of_readTree htree
    trivial
  · exact fun other => exists_readsFault_of_readTree
  · exact fun fault => ReadsFault.fails
  · intro hshort
    exact (faultsOnly_readTree hshort).eq_error_iff ReadsFault.fails
  · exact fun other => exists_readsFault_of_readCycle
  · rintro fault (hfault | hcount)
    · exact fails_readCycle_of_readsFault hfault
    · exact fails_readCycle_of_hasLargeCount hcount
  · intro hshort
    apply (faultsOnly_readCycle hshort).eq_error_iff
    rintro (hfactor | hcount)
    · exact fails_readCycle_of_readsFault hfactor
    · exact fails_readCycle_of_hasLargeCount hcount

/-- No number of the group `[a]/2` has a fault, so its tree is read without one. -/
theorem result_eq_error_iff_of_isDepth_of_group :
    isDepth 64 = true ∧
      ∃ answer, parseTree (String.ofList ['[', 'a', ']', '/', '2']) 64 = .ok answer ∧
        ∀ fault, answer.result ≠ .error fault := by
  have hdepth : isDepth 64 = true := rfl
  have hnone : (tokens (String.ofList ['[', 'a', ']', '/', '2']).toList).findSome? Token.fault? =
      none := by
    rw [String.toList_ofList]
    decide +kernel
  obtain ⟨⟨answer, hanswer, -, hfaults, -⟩, -⟩ := result_eq_error_iff_of_isDepth _ hdepth
  refine ⟨hdepth, answer, hanswer, ?_⟩
  intro other hother
  obtain ⟨fault, -, read, unread, d, hsplit, -, t, ht, hfault⟩ := hfaults other hother
  have hmem : t ∈ tokens (String.ofList ['[', 'a', ']', '/', '2']).toList :=
    hsplit ▸ List.mem_append_left unread ht
  exact Token.findSome?_fault?_eq_none_iff.mp hnone t hmem fault hfault

/-- A number with a fault stops the reading of its group. -/
theorem result_group_of_fault? {m : GroupModifier} (hm : m.fault? = some fault) :
    (Reading.ofTokens 64 0 (.start 0)
      [.opening .square, .word ['a'], .closing .square (some m)]).result =
        .error (.number fault) := by
  simp (disch := decide) [Reading.ofTokens, Progress.step, Progress.start, Progress.openGroup,
    Progress.takeWord, Word.node_of_length_le, hm]

/-- The group `[a]/n` is not answered when `n` is a one followed by 309 zeros. -/
theorem numberTooLarge_of_group_factor :
    isDepth 64 = true ∧
      ∃ answer, parseTree
          (String.ofList (['[', 'a', ']', '/', '1'] ++ List.replicate 309 '0')) 64 = .ok answer ∧
        answer.result = .error (.number .tooLarge) := by
  refine ⟨rfl, _, rfl, ?_⟩
  have htokens : tokens (['[', 'a', ']', '/', '1'] ++ List.replicate 309 '0') =
      [.opening .square, .word ['a'],
        .closing .square (some ⟨'/', .division, ⟨false, '1' :: List.replicate 309 '0', none⟩⟩)] := by
    decide +kernel
  have hfault : GroupModifier.fault?
      ⟨'/', .division, ⟨false, '1' :: List.replicate 309 '0', none⟩⟩ = some .tooLarge := by
    decide +kernel
  rw [String.toList_ofList, readTree_result, Reading.ofText, htokens,
    result_group_of_fault? hfault]

end CyclePattern
