/-
# Trees that were read are safe to play

The player divides by weights, counts and ratios without looking at them, and takes items of a group
by number. A tree that was read is well formed, so none of this can go wrong: the one thing that
keeps it from being played is a count that no number of its kind comes near. Exact numbers come near
every count, so with them such a tree is always played.
-/

import CyclePattern.Proofs.Grammar.WellFormed
import CyclePattern.Proofs.Performance.Faults
import CyclePattern.Proofs.Performance.Slots
import CyclePattern.Proofs.Tree.Exact

namespace CyclePattern

variable {α : Type}

namespace Node

/-- A tree of well-formed nodes is not played exactly when a count on the way is beyond every
measure. -/
theorem perform_eq_error_iff [Measure α] [LT α] [OfNat α 0] [LawfulMeasure α] [LE α] [OfNat α 1]
    {n : Node α} (hn : ∀ m, n.Holds m → m.WellFormed) (window : Window α) (fault : Fault) :
    n.perform window = .error fault ↔
      fault = .number .tooLarge ∧ ∃ m, n.Holds m ∧ n.Plays window m ∧ m.HasLargeCount := by
  apply FaultsOnly.eq_error_iff
  · apply faultsOnly_perform hn
    intro m hplays hlarge
    rcases hplays.holds_or_eq_rest with hholds | ⟨span, rfl⟩
    · exact ⟨m, hholds, hplays, hlarge⟩
    · obtain ⟨count, hcount, -⟩ := hlarge
      cases hcount
  · intro ⟨m, _, hplays, hlarge⟩
    exact fails_perform_of_plays hplays hn hlarge

/-- With exact numbers a tree of well-formed nodes is always played. -/
theorem exists_perform {n : Node Rat} (hn : ∀ m, n.Holds m → m.WellFormed) (window : Window Rat) :
    ∃ events, n.perform window = .ok events := by
  cases hevents : n.perform window with
  | ok events => exact ⟨events, rfl⟩
  | error fault =>
      obtain ⟨-, m, -, -, count, -, hlarge⟩ := (perform_eq_error_iff hn window fault).mp hevents
      cases hlarge

end Node

namespace Node

variable [Measure α] [LT α] [OfNat α 0] [LawfulMeasure α] {n m : Node α}

/-- A sequence with a single item has it for its only part. -/
theorem parts_single (hitem : n.asItem = n) (hweight : n.ownWeight = Measure.one)
    (window : Window α) :
    (sequence [n]).parts window =
      .ok (layout (Measure.sum [Measure.one]) window.duration window.start [(n, Measure.one)]) := by
  have hnonzero : Measure.isZero (Measure.sum [(Measure.one : α)]) = false := by
    apply LawfulMeasure.isZero_eq_false
    apply Measure.sum_pos
    · exact List.cons_ne_nil _ _
    · intro x hx
      cases List.mem_singleton.mp hx
      exact Measure.one_pos
  have hitems : weightedItems [n] = [(n, Measure.one)] := by
    simp [weightedItems, hold, hitem, hweight]
  simp [parts, sequenceParts, hitems, hnonzero]

/-- A sequence with a single item plays it. -/
theorem plays_single (hitem : n.asItem = n) (hweight : n.ownWeight = Measure.one)
    (hplays : ∀ window, n.Plays window m) (window : Window α) :
    (sequence [n]).Plays window m :=
  .part (parts_single hitem hweight window) List.mem_cons_self (hplays _)

end Node

theorem GroupSettings.ofNumber?_repeats {number : Numeral} {n : Int}
    (hnumber : number.toInt? = some n) (hn : 1 ≤ n) :
    ofNumber? .repeats number = some { none with repeats := some n } := by
  simp [ofNumber?, ofNumber?.count?, hnumber, hn]

namespace Word

/-- A single letter is read as a sound without modifiers. -/
theorem read_letter (start : Int) :
    (read ['a'] start).value = .atom (.ofModifiers ['a'] .none []) (span ['a'] start) := by
  have hsegments : splitTopLevel '|' ['a'] = [⟨['a'], 0⟩] := by decide +kernel
  have hname : spanSoundName ['a'] = (['a'], []) := by decide +kernel
  have hharmony : Harmony.ofWord? ['a'] = none := rfl
  have hsound : sound? ['a'] = some (['a'], .none) := by
    simp [sound?, hname, Modifiers.read?]
  simp [read, restMark, elongationMark, hharmony, hsegments, sound, hsound]

end Word

namespace Reading

variable {limit : Int} {cs : List Char} {items : List (Node Float)}

/-- A tree that was read is not played exactly when the copies of a sound, the repeats of a group,
the steps of a rhythm or the steps of a group, somewhere on the way, are beyond every float. Items
that are taken by number are always there. -/
theorem perform_eq_error_iff_of_result (hresult : (ofText limit 0 0 cs).result = .ok items)
    (window : Window Float) :
    (∀ fault, (Node.sequence items).perform window = .error fault ↔
      fault = .number .tooLarge ∧ ∃ n, (Node.sequence items).Holds n ∧
        (Node.sequence items).Plays window n ∧ n.HasLargeCount) ∧
    ∀ groups steps span, (Node.sequence items).Holds (.polymetric groups (some steps) span) →
      ∀ group ∈ groups, group.items ≠ [] → ∀ i < steps.toNat,
        ∃ item, group.items[i % group.items.length]? = some item ∧
          (Node.fill group.items steps.toNat)[i]? = some item := by
  constructor
  · intro fault
    exact Node.perform_eq_error_iff (forall_wellFormed hresult) window fault
  · intro groups steps span _ group _ hitems i hi
    exact Node.exists_getElem?_fill hitems hi

/-- A count after a group in square brackets repeats it. -/
theorem result_repeated_group {m : GroupModifier} {n : Int} (hfield : m.field = .repeats)
    (hfault : m.fault? = none) (hnumber : m.number.toInt? = some n) (hn : 1 ≤ n) :
    (ofTokens 1 0 (.start 0) [.opening .square, .word ['a'], .closing .square (some m)]).result =
      .ok [.subdivision (.sequence [(Word.read ['a'] 1).value]) (some n) none none
        (.between 0 (3 + m.text.length : Nat))] := by
  have hsettings : GroupSettings.ofNumber? m.field m.number =
      some { GroupSettings.none with repeats := some n } := by
    rw [hfield]
    exact GroupSettings.ofNumber?_repeats hnumber hn
  have hlength : 2 + (m.text.length + 1) = 3 + m.text.length := by omega
  simp (disch := decide) [ofTokens, Progress.step, Progress.start, Progress.openGroup,
    Progress.takeWord, Progress.closeGroup, Progress.finish, Progress.settingsOf,
    Word.node_of_length_le, hfault, hsettings, groupNode, GroupSettings.none, Token.text, hlength]

/-- The group `[a]*n` is not played when `n` is a one followed by 309 zeros. -/
theorem perform_eq_error_iff_of_result_of_repeats :
    ∃ items, (ofText 1 0 0 (['[', 'a', ']', '*', '1'] ++ List.replicate 309 '0')).result =
        .ok items ∧
      (Node.sequence items).perform ⟨0, 1⟩ = .error (.number .tooLarge) := by
  have htokens : tokens (['[', 'a', ']', '*', '1'] ++ List.replicate 309 '0') =
      [.opening .square, .word ['a'],
        .closing .square (some ⟨'*', .repeats, ⟨false, '1' :: List.replicate 309 '0', none⟩⟩)] := by
    decide +kernel
  have hnumber : (⟨false, '1' :: List.replicate 309 '0', none⟩ : Numeral).toInt? =
      some (10 ^ 309) := by
    decide +kernel
  have hlarge : Measure.fits Float (countOf (some (10 ^ 309))) = false := by
    decide +kernel
  have hresult := result_repeated_group
    (m := ⟨'*', .repeats, ⟨false, '1' :: List.replicate 309 '0', none⟩⟩) rfl (by decide +kernel)
    hnumber (by decide +kernel)
  rw [← htokens] at hresult
  refine ⟨_, hresult, ?_⟩
  apply ((perform_eq_error_iff_of_result hresult ⟨0, 1⟩).1 _).mpr
  exact ⟨rfl, _, .child List.mem_cons_self (.refl _),
    Node.plays_single rfl rfl (fun window => .refl _ window) _, _, List.mem_cons_self, hlarge⟩

theorem wellFormed_exact_of_result (hresult : (ofText limit 0 0 cs).result = .ok items)
    (hfinite : (Node.sequence items).IsFinite) {m : Node Rat}
    (hm : (Node.sequence items).exact.Holds m) : m.WellFormed :=
  Node.wellFormed_of_holds_exact (forall_wellFormed hresult) hfinite hm

/-- With exact numbers a tree that was read is always played. -/
theorem exists_perform_exact (hresult : (ofText limit 0 0 cs).result = .ok items)
    (hfinite : (Node.sequence items).IsFinite) (window : Window Rat) :
    ∃ events, (Node.sequence items).exact.perform window = .ok events :=
  Node.exists_perform (fun _ hm => wellFormed_exact_of_result hresult hfinite hm) window

/-- The items of `{a _ ^5}%4`: a long sound and a short degree. -/
def steppedItems : List (Node Float) :=
  [.atom (.ofModifiers ['a'] .none []) (Word.span ['a'] 1), .elongation (.between 3 4),
    .harmony (.degree 5) "^5" (.between 5 7)]

/-- Four slots are enough for both items, and for a start of the first one. -/
def steppedGroup : Node Float :=
  .polymetric [.sequence steppedItems] (some 4) (.between 0 10)

theorem result_stepped_group :
    (ofText 1 0 0 ['{', 'a', ' ', '_', ' ', '^', '5', '}', '%', '4']).result =
      .ok [steppedGroup] := by
  have htokens : tokens ['{', 'a', ' ', '_', ' ', '^', '5', '}', '%', '4'] =
      [.opening .curly, .word ['a'], .separator ' ', .word ['_'], .separator ' ', .word ['^', '5'],
        .closing .curly (some ⟨'%', .steps, ⟨false, ['4'], none⟩⟩)] := by
    decide +kernel
  rw [ofText, htokens, steppedGroup, steppedItems, ← Word.read_letter]
  simp (disch := decide) only [ofTokens, Progress.step_word]
  rfl

/-- The nodes of the group, from the outermost one on. -/
theorem eq_of_holds_stepped_group {m : Node Float} (hm : (Node.sequence [steppedGroup]).Holds m) :
    m = .sequence [steppedGroup] ∨ m = steppedGroup ∨ m = .sequence steppedItems ∨
      m ∈ steppedItems := by
  cases hm with
  | refl => exact .inl rfl
  | child hc hm =>
  cases List.mem_singleton.mp hc
  cases hm with
  | refl => exact .inr (.inl rfl)
  | child hc hm =>
  cases List.mem_singleton.mp hc
  cases hm with
  | refl => exact .inr (.inr (.inl rfl))
  | child hc hm =>
      have hitem : ∀ item ∈ steppedItems, item.IsLeaf := by simp [steppedItems, Node.IsLeaf]
      rw [hm.eq_of_isLeaf (hitem _ hc)]
      exact .inr (.inr (.inr hc))

theorem isFinite_stepped_group : (Node.sequence [steppedGroup]).IsFinite := by
  have hone : (Measure.one : Float).isFinite = true := by decide +kernel
  have hitems : ∀ item ∈ steppedItems, ∀ x ∈ item.numbers, x.isFinite = true := by
    simp [steppedItems, Node.numbers, Atom.ofModifiers, Modifiers.none, hone]
  intro m hm
  rcases eq_of_holds_stepped_group hm with rfl | rfl | rfl | hitem
  · simp [Node.numbers]
  · simp [Node.numbers, steppedGroup]
  · simp [Node.numbers]
  · exact hitems m hitem

end Reading

end CyclePattern
