/-
# Readings come to an end

The descent through a pattern is bounded by nothing but the pattern: a sequence goes on while items
follow, and a group while commas do. It ends because every item takes something. Where no separator
is next and no sequence ends, a group starts or a word does, and such a word is never empty.

The runs below are the rules of the descent without any bound. Each call has exactly one run, and
what it finds is no more than what it took.
-/

import CyclePattern.Proofs.Grammar.WrittenCount
import CyclePattern.Proofs.Performance.Answer
import CyclePattern.Proofs.Session.Descent

namespace CyclePattern

open Node

namespace Session

variable {session next inside : Session} {b : Bracket}

theorem offset_lt_of_length_remaining_lt (honward : Onward session next)
    (hshorter : next.remaining.length < session.remaining.length) :
    session.offset < next.offset := by
  rw [remaining, remaining, honward.text, List.length_drop, List.length_drop] at hshorter
  omega

/-- An item that is read where a sequence goes on moves the session. -/
theorem offset_lt_of_readItem {item : Node Float} (hseparator : session.atSeparator = false)
    (hend : session.atSequenceEnd = false) (hitem : session.readItem = (.ok item, next)) :
    session.offset < next.offset := by
  have honward := onward_readItem session
  rw [hitem] at honward
  exact offset_lt_of_length_remaining_lt honward
    (length_remaining_readItem_lt hseparator hend hitem)

/-- What comes of a group after its sequences were read: its closer and the number after it are
taken. -/
def finishGroup (inside : Session) (b : Bracket) (start : Nat)
    (groups : List (List (Node Float))) : Except Stop (Node Float) × Session :=
  match inside.takeCloser b start with
  | (.error stop, last) => (.error stop, last.leave)
  | (.ok (), last) =>
    match last.leave.takeSettings b with
    | (.error stop, next) => (.error stop, next)
    | (.ok settings, next) => (.ok (groupNode b groups settings (.between start next.offset)), next)

mutual

/-- Runs of a sequence: items are read while they follow. -/
inductive SequenceRun : Session → Except Stop (List (Node Float)) → Session → Prop
  | ended {session : Session} (hend : session.skipSeparators.2.atSequenceEnd = true) :
      SequenceRun session (.ok []) session.skipSeparators.2
  | stopped {session next : Session} {stop : Stop}
      (hgoes : session.skipSeparators.2.atSequenceEnd = false)
      (hitem : ItemRun session.skipSeparators.2 (.error stop) next) :
      SequenceRun session (.error stop) next
  | single {session next : Session} {item : Node Float}
      (hgoes : session.skipSeparators.2.atSequenceEnd = false)
      (hitem : ItemRun session.skipSeparators.2 (.ok item) next) (hlast : next.continues = false) :
      SequenceRun session (.ok [item]) next
  | more {session next last : Session} {item : Node Float}
      {others : Except Stop (List (Node Float))}
      (hgoes : session.skipSeparators.2.atSequenceEnd = false)
      (hitem : ItemRun session.skipSeparators.2 (.ok item) next) (hmore : next.continues = true)
      (hothers : SequenceRun next others last) :
      SequenceRun session (others.map (item :: ·)) last

/-- Runs of an item: a word is taken as a whole, also when a number in it cannot be converted, and a
group is entered. -/
inductive ItemRun : Session → Except Stop (Node Float) → Session → Prop
  | word {session : Session} (hopens : session.opens? = none) :
      ItemRun session
        (((Word.node session.takeWord.1 session.offset).map Noted.value).mapError Stop.number)
        session.takeWord.2
  | tooDeep {session : Session} {b : Bracket} (hopens : session.opens? = some b)
      (hdeep : session.limit ≤ session.depth) :
      ItemRun session (.error (.problem (.tooDeep session.limit) session.offset)) session
  | stopped {session inside : Session} {b : Bracket} {stop : Stop}
      (hopens : session.opens? = some b) (hroom : ¬ session.limit ≤ session.depth)
      (hgroups : GroupsRun session.enter b (.error stop) inside) :
      ItemRun session (.error stop) inside.leave
  | group {session inside : Session} {b : Bracket} {groups : List (List (Node Float))}
      (hopens : session.opens? = some b) (hroom : ¬ session.limit ≤ session.depth)
      (hgroups : GroupsRun session.enter b (.ok groups) inside) :
      ItemRun session (inside.finishGroup b session.offset groups).1
        (inside.finishGroup b session.offset groups).2

/-- Runs of the inside of a group: sequences are read while commas follow that may. -/
inductive GroupsRun : Session → Bracket → Except Stop (List (List (Node Float))) → Session → Prop
  | stopped {session next : Session} {b : Bracket} {stop : Stop}
      (hfirst : SequenceRun session (.error stop) next) : GroupsRun session b (.error stop) next
  | single {session next : Session} {b : Bracket} {first : List (Node Float)}
      (hfirst : SequenceRun session (.ok first) next)
      (hlast : ¬ (b.holdsGroups = true ∧ next.remaining.head? = some ',')) :
      GroupsRun session b (.ok [first]) next
  | more {session next last : Session} {b : Bracket} {first : List (Node Float)}
      {others : Except Stop (List (List (Node Float)))}
      (hfirst : SequenceRun session (.ok first) next)
      (hmore : b.holdsGroups = true ∧ next.remaining.head? = some ',')
      (hothers : GroupsRun (next.skip 1) b others last) :
      GroupsRun session b (others.map (first :: ·)) last

end

theorem readSequence_of_ended (hend : session.skipSeparators.2.atSequenceEnd = true) :
    session.readSequence = (.ok [], session.skipSeparators.2) := by
  rw [readSequence]
  exact if_pos hend

theorem readSequence_of_error {stop : Stop}
    (hgoes : session.skipSeparators.2.atSequenceEnd = false)
    (hitem : session.skipSeparators.2.readItem = (.error stop, next)) :
    session.readSequence = (.error stop, next) := by
  rw [readSequence, hitem]
  exact if_neg (Bool.eq_false_iff.mp hgoes)

/-- After an item the sequence goes on whenever something follows that may. -/
theorem readSequence_of_ok {item : Node Float}
    (hgoes : session.skipSeparators.2.atSequenceEnd = false)
    (hitem : session.skipSeparators.2.readItem = (.ok item, next)) :
    session.readSequence =
      if next.continues = true then
        (next.readSequence.1.map (item :: ·), next.readSequence.2)
      else (.ok [item], next) := by
  have hshorter := (length_remaining_readItem_lt session.atSeparator_skipSeparators hgoes
    hitem).trans_le session.length_remaining_skipSeparators_le
  rw [readSequence, hitem]
  refine (if_neg (Bool.eq_false_iff.mp hgoes)).trans (if_congr (and_iff_left hshorter) ?_ rfl)
  rcases next.readSequence with ⟨stop | items, last⟩ <;> rfl

theorem readItem_of_tooDeep (hopens : session.opens? = some b)
    (hdeep : session.limit ≤ session.depth) :
    session.readItem = (.error (.problem (.tooDeep session.limit) session.offset), session) := by
  rw [readItem_of_opens hopens]
  exact if_pos hdeep

theorem readItem_of_groups_error {stop : Stop} (hopens : session.opens? = some b)
    (hroom : ¬ session.limit ≤ session.depth)
    (hgroups : session.enter.readGroups b = (.error stop, inside)) :
    session.readItem = (.error stop, inside.leave) := by
  rw [readItem_of_opens hopens, hgroups]
  exact if_neg hroom

theorem readItem_of_groups {groups : List (List (Node Float))} (hopens : session.opens? = some b)
    (hroom : ¬ session.limit ≤ session.depth)
    (hgroups : session.enter.readGroups b = (.ok groups, inside)) :
    session.readItem = inside.finishGroup b session.offset groups := by
  rw [readItem_of_opens hopens, hgroups]
  exact if_neg hroom

theorem readGroups_of_error {stop : Stop} (hfirst : session.readSequence = (.error stop, next)) :
    session.readGroups b = (.error stop, next) := by
  rw [readGroups, hfirst]

/-- After a sequence the group goes on whenever a comma follows that may. -/
theorem readGroups_of_ok {first : List (Node Float)}
    (hfirst : session.readSequence = (.ok first, next)) :
    session.readGroups b =
      if b.holdsGroups = true ∧ next.remaining.head? = some ',' then
        (((next.skip 1).readGroups b).1.map (first :: ·), ((next.skip 1).readGroups b).2)
      else (.ok [first], next) := by
  have hle := length_remaining_le (onward_readSequence session)
  rw [hfirst] at hle
  rw [readGroups, hfirst]
  have hguard : ((b.holdsGroups = true ∧ next.remaining.head? = some ',') ∧
      (next.skip 1).remaining.length < session.remaining.length) ↔
      b.holdsGroups = true ∧ next.remaining.head? = some ',' := by
    refine and_iff_left_of_imp ?_
    rintro ⟨-, hcomma⟩
    obtain ⟨rest, hremaining⟩ := List.head?_eq_some_iff.mp hcomma
    rw [remaining_skip_one hremaining]
    rw [hremaining, List.length_cons] at hle
    exact hle
  refine if_congr hguard ?_ rfl
  rcases (next.skip 1).readGroups b with ⟨stop | others, last⟩ <;> rfl

theorem sequenceRun_of_item
    (hitem : ItemRun session.skipSeparators.2 session.skipSeparators.2.readItem.1
      session.skipSeparators.2.readItem.2)
    (hrest : ∀ next : Session, next.remaining.length < session.remaining.length →
      SequenceRun next next.readSequence.1 next.readSequence.2) :
    SequenceRun session session.readSequence.1 session.readSequence.2 := by
  cases hend : session.skipSeparators.2.atSequenceEnd with
  | true =>
      rw [readSequence_of_ended hend]
      exact .ended hend
  | false =>
      rcases hread : session.skipSeparators.2.readItem with ⟨stop | item, next⟩
      · rw [hread] at hitem
        rw [readSequence_of_error hend hread]
        exact .stopped hend hitem
      · rw [hread] at hitem
        have hshorter := (length_remaining_readItem_lt session.atSeparator_skipSeparators hend
          hread).trans_le session.length_remaining_skipSeparators_le
        rw [readSequence_of_ok hend hread]
        cases hmore : next.continues with
        | true => exact .more hend hitem hmore (hrest next hshorter)
        | false => exact .single hend hitem hmore

theorem itemRun_of_groups (hgroups : ∀ b, session.opens? = some b →
    GroupsRun session.enter b (session.enter.readGroups b).1 (session.enter.readGroups b).2) :
    ItemRun session session.readItem.1 session.readItem.2 := by
  cases hopens : session.opens? with
  | none =>
      rw [readItem_of_word hopens]
      exact .word hopens
  | some b =>
      have hinside := hgroups b hopens
      by_cases hdeep : session.limit ≤ session.depth
      · rw [readItem_of_tooDeep hopens hdeep]
        exact .tooDeep hopens hdeep
      · rcases hread : session.enter.readGroups b with ⟨stop | groups, inside⟩
        · rw [hread] at hinside
          rw [readItem_of_groups_error hopens hdeep hread]
          exact .stopped hopens hdeep hinside
        · rw [hread] at hinside
          rw [readItem_of_groups hopens hdeep hread]
          exact .group hopens hdeep hinside

theorem groupsRun_of_sequence
    (hsequence : SequenceRun session session.readSequence.1 session.readSequence.2)
    (hrest : ∀ next : Session, next.remaining.length < session.remaining.length →
      GroupsRun next b (next.readGroups b).1 (next.readGroups b).2) :
    GroupsRun session b (session.readGroups b).1 (session.readGroups b).2 := by
  have hle := length_remaining_le (onward_readSequence session)
  rcases hread : session.readSequence with ⟨stop | first, next⟩
  · rw [hread] at hsequence
    rw [readGroups_of_error hread]
    exact .stopped hsequence
  · rw [hread] at hsequence hle
    rw [readGroups_of_ok hread]
    split
    · next hmore =>
        obtain ⟨rest, hremaining⟩ := List.head?_eq_some_iff.mp hmore.2
        have hshorter : (next.skip 1).remaining.length < session.remaining.length := by
          rw [remaining_skip_one hremaining]
          rw [hremaining, List.length_cons] at hle
          exact hle
        exact .more hsequence hmore (hrest (next.skip 1) hshorter)
    · next hlast => exact .single hsequence hlast

mutual

/-- The reading of a sequence comes to an end: it is a run. -/
theorem sequenceRun_readSequence (session : Session) :
    SequenceRun session session.readSequence.1 session.readSequence.2 :=
  sequenceRun_of_item (itemRun_readItem session.skipSeparators.2) fun next _shorter =>
    sequenceRun_readSequence next
termination_by (session.remaining.length, 1)
decreasing_by
  · exact Prod.Lex.right' _ session.length_remaining_skipSeparators_le (by decide)
  · exact Prod.Lex.left _ _ _shorter

theorem itemRun_readItem (session : Session) :
    ItemRun session session.readItem.1 session.readItem.2 :=
  itemRun_of_groups fun b _opens => groupsRun_readGroups session.enter b
termination_by (session.remaining.length, 0)
decreasing_by exact Prod.Lex.left _ _ (length_remaining_enter_lt _opens)

theorem groupsRun_readGroups (session : Session) (b : Bracket) :
    GroupsRun session b (session.readGroups b).1 (session.readGroups b).2 :=
  groupsRun_of_sequence (sequenceRun_readSequence session) fun next _shorter =>
    groupsRun_readGroups next b
termination_by (session.remaining.length, 2)
decreasing_by
  · exact Prod.Lex.right _ (by decide)
  · exact Prod.Lex.left _ _ _shorter

end

mutual

theorem SequenceRun.readSequence_eq {session next : Session}
    {outcome : Except Stop (List (Node Float))} (hrun : SequenceRun session outcome next) :
    session.readSequence = (outcome, next) := by
  match hrun with
  | .ended hend => exact readSequence_of_ended hend
  | .stopped hgoes hitem => exact readSequence_of_error hgoes hitem.readItem_eq
  | .single hgoes hitem hlast =>
      rw [readSequence_of_ok hgoes hitem.readItem_eq, hlast]
      rfl
  | .more hgoes hitem hmore hothers =>
      rw [readSequence_of_ok hgoes hitem.readItem_eq, if_pos hmore, hothers.readSequence_eq]

theorem ItemRun.readItem_eq {session next : Session} {outcome : Except Stop (Node Float)}
    (hrun : ItemRun session outcome next) : session.readItem = (outcome, next) := by
  match hrun with
  | .word hopens => exact readItem_of_word hopens
  | .tooDeep hopens hdeep => exact readItem_of_tooDeep hopens hdeep
  | .stopped hopens hroom hgroups =>
      exact readItem_of_groups_error hopens hroom (GroupsRun.readGroups_eq hgroups)
  | .group hopens hroom hgroups =>
      exact readItem_of_groups hopens hroom (GroupsRun.readGroups_eq hgroups)

theorem GroupsRun.readGroups_eq {session next : Session} {b : Bracket}
    {outcome : Except Stop (List (List (Node Float)))}
    (hrun : GroupsRun session b outcome next) : session.readGroups b = (outcome, next) := by
  match hrun with
  | .stopped hfirst => exact readGroups_of_error hfirst.readSequence_eq
  | .single hfirst hlast => rw [readGroups_of_ok hfirst.readSequence_eq, if_neg hlast]
  | .more hfirst hmore hothers =>
      rw [readGroups_of_ok hfirst.readSequence_eq, if_pos hmore, GroupsRun.readGroups_eq hothers]

end

/-- A group that was finished took its closer, and counts one more than what stands in it. -/
theorem offset_lt_of_finishGroup {start : Nat} {groups : List (List (Node Float))}
    {node : Node Float} (hnode : (inside.finishGroup b start groups).1 = .ok node) :
    inside.offset < (inside.finishGroup b start groups).2.offset ∧
      node.writtenCount ≤ writtenCountOf groups.flatten + 1 := by
  unfold finishGroup at hnode ⊢
  split at hnode
  · cases hnode
  next last hcloser =>
  obtain ⟨rfl, -⟩ := of_takeCloser hcloser
  have honward := onward_takeSettings (inside.skip 1).leave b
  split at hnode
  · cases hnode
  next settings after hsettings =>
  rw [hsettings] at honward
  cases hnode
  exact ⟨honward.le, writtenCount_groupNode_le b groups settings _⟩

mutual

/-- The items of a sequence are no more than the characters it took. -/
theorem SequenceRun.offset_add_le {session next : Session}
    {outcome : Except Stop (List (Node Float))} (hrun : SequenceRun session outcome next)
    {items : List (Node Float)} (hitems : outcome = .ok items) :
    session.offset + writtenCountOf items ≤ next.offset := by
  have hstart := (onward_skipSeparators session).le
  have hseparator := session.atSeparator_skipSeparators
  match hrun with
  | .ended hend =>
      cases hitems
      exact hstart
  | .stopped hgoes hitem => cases hitems
  | .single hgoes hitem hlast =>
      cases hitems
      have hfirst := hitem.offset_add_le hseparator hgoes rfl
      simp only [writtenCountOf]
      omega
  | .more hgoes hitem hmore hothers =>
      obtain ⟨others, hfound, rfl⟩ := Node.exists_of_map_eq_ok hitems
      have hfirst := hitem.offset_add_le hseparator hgoes rfl
      have hrest := hothers.offset_add_le hfound
      simp only [writtenCountOf]
      omega

/-- An item is no more than the characters it took. -/
theorem ItemRun.offset_add_le {session next : Session} {outcome : Except Stop (Node Float)}
    (hrun : ItemRun session outcome next) (hseparator : session.atSeparator = false)
    (hend : session.atSequenceEnd = false) {item : Node Float} (hitem : outcome = .ok item) :
    session.offset + item.writtenCount ≤ next.offset := by
  match hrun with
  | .word hopens =>
      obtain ⟨hword, -⟩ := isWord_takeWord hseparator hopens hend
      cases hnode : Word.node session.takeWord.1 session.offset with
      | error fault =>
          rw [hnode] at hitem
          cases hitem
      | ok found =>
          obtain ⟨-, rfl⟩ := Word.node_eq_ok_iff.mp hnode
          rw [hnode] at hitem
          cases hitem
          exact Nat.add_le_add_left (Word.writtenCount_read_le hword _) _
  | .tooDeep hopens hdeep => cases hitem
  | .stopped hopens hroom hgroups => cases hitem
  | .group hopens hroom hgroups =>
      obtain ⟨hcloser, hgroup⟩ := offset_lt_of_finishGroup hitem
      have hinside := GroupsRun.offset_add_le hgroups rfl
      change session.offset + 1 + _ ≤ _ at hinside
      omega

/-- The sequences of a group are no more than the characters they took. -/
theorem GroupsRun.offset_add_le {session next : Session} {b : Bracket}
    {outcome : Except Stop (List (List (Node Float)))} (hrun : GroupsRun session b outcome next)
    {groups : List (List (Node Float))} (hgroups : outcome = .ok groups) :
    session.offset + writtenCountOf groups.flatten ≤ next.offset := by
  match hrun with
  | .stopped hfirst => cases hgroups
  | .single hfirst hlast =>
      cases hgroups
      rw [List.flatten_singleton]
      exact hfirst.offset_add_le rfl
  | .more hfirst hmore hothers =>
      obtain ⟨others, hfound, rfl⟩ := Node.exists_of_map_eq_ok hgroups
      have hsequence := hfirst.offset_add_le rfl
      have hrest := GroupsRun.offset_add_le hothers hfound
      change _ + 1 + _ ≤ _ at hrest
      rw [List.flatten_cons, writtenCountOf_append]
      omega

end

/-- A tree that was read is no more than the characters from where its reading started. -/
theorem offset_add_writtenCount_le {tree : Node Float}
    (htree : session.readPattern = (.ok tree, next)) :
    session.offset + tree.writtenCount ≤ next.offset := by
  have hrun := sequenceRun_readSequence session
  unfold readPattern at htree
  rcases hread : session.readSequence with ⟨stop | items, last⟩
  · rw [hread] at htree
    cases htree
  · rw [hread] at htree hrun
    have hitems : session.offset + writtenCountOf items ≤ last.offset := hrun.offset_add_le rfl
    have hlast := (onward_skipSeparators last).le
    dsimp only at htree
    split at htree
    · cases htree
      rw [writtenCount]
      omega
    · cases htree

/-- Wherever a walk has come to, reading from there makes progress. An item that a sequence goes on
with is a group or a word of some length, and moves the session when it is read. So the descent,
which nothing else bounds, has one run and no other from there, and the words, groups and options of
a tree are no more than the characters of its text. -/
theorem readSequence_progresses (session : Session) :
    (session.skipSeparators.2.atSequenceEnd = false →
        (session.skipSeparators.2.opens? = none → session.skipSeparators.2.takeWord.1 ≠ []) ∧
        ∀ item next, session.skipSeparators.2.readItem = (.ok item, next) →
          session.skipSeparators.2.offset < next.offset) ∧
      (∀ outcome next,
        SequenceRun session outcome next ↔ session.readSequence = (outcome, next)) ∧
      (∀ tree next, session.readPattern = (.ok tree, next) →
        session.offset + tree.writtenCount ≤ next.offset) ∧
      ∀ tree, (readTree session.text session.limit).result = .ok (.ok tree) →
        tree.writtenCount ≤ session.text.length := by
  have hseparator := session.atSeparator_skipSeparators
  refine ⟨?_, ?_, fun _ _ => offset_add_writtenCount_le, ?_⟩
  · intro hgoes
    refine ⟨?_, fun item next => offset_lt_of_readItem hseparator hgoes⟩
    intro hopens
    exact (isWord_takeWord hseparator hopens hgoes).1
  · intro outcome next
    refine ⟨SequenceRun.readSequence_eq, ?_⟩
    intro hread
    have hrun := sequenceRun_readSequence session
    rwa [hread] at hrun
  · intro tree htree
    obtain ⟨items, hresult, rfl⟩ := exists_items_of_readTree htree
    obtain ⟨hread, -⟩ := readPattern_eq (ofText session.text session.limit)
    change _ = (Reading.ofText session.limit 0 0 session.text).result.map Node.sequence at hread
    rw [hresult] at hread
    have hcount := offset_add_writtenCount_le (Prod.ext hread rfl)
    have honward := onward_readPattern (ofText session.text session.limit)
    have hlast := honward.le_length (Nat.zero_le _)
    rw [honward.text] at hlast
    change _ ≤ session.text.length at hlast
    change 0 + _ ≤ _ at hcount
    rw [Nat.zero_add] at hcount
    exact hcount.trans hlast

/-- A group of a rest and a choice of two rests is read in one run. It counts five, with seven
characters. -/
theorem readSequence_progresses_of_group :
    let session := ofText "[~ ~|_]".toList 1
    session.skipSeparators.2.atSequenceEnd = false ∧
      (∃ outcome next, SequenceRun session outcome next) ∧
      ∃ tree, (readTree session.text session.limit).result = .ok (.ok tree) ∧
        tree.writtenCount = 5 ∧ tree.writtenCount ≤ session.text.length := by
  intro session
  have htokens : tokens session.text =
      [.opening .square, .word ['~'], .separator ' ', .word ['~', '|', '_'],
        .closing .square none] := by
    decide +kernel
  have hresult : (readTree session.text session.limit).result = .ok (.ok (.sequence
      [groupNode .square [[(Word.read ['~'] 1).value, (Word.read ['~', '|', '_'] 3).value]] .none
        (.between 0 7)])) := by
    rw [readTree_result, Reading.ofText, htokens]
    simp (disch := decide) only [Reading.ofTokens, Progress.step_word]
    rfl
  have hsplit : splitTopLevel '|' ['~', '|', '_'] = [⟨['~'], 0⟩, ⟨['_'], 2⟩] := by decide +kernel
  have hchoice : (Word.read ['~', '|', '_'] 3).value.writtenCount = 3 := by
    rw [Word.read_eq_piped hsplit, Word.piped, if_neg (by decide +kernel)]
    rfl
  obtain ⟨-, hruns, -, hcount⟩ := readSequence_progresses session
  refine ⟨by decide +kernel, ⟨_, _, (hruns _ _).mpr rfl⟩, _, hresult, ?_, hcount _ hresult⟩
  show 1 + ((Word.read ['~', '|', '_'] 3).value.writtenCount + 0) + 1 + 0 = 5
  rw [hchoice]

end Session

end CyclePattern
