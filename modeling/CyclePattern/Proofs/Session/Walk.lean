/-
# Walks go onward

No step of a walk goes back, and none leaves the text. A step that only looks stays where it is, and
a step that takes something finds the text that it goes past. Between two steps no group is open:
a reading enters groups and leaves each of them, also when it stops inside.

The reading by descent is followed rule by rule. Each rule goes onward, with as many groups open
after it as before, because the rules that it calls do, and so it does not matter how they end.
-/

import CyclePattern.Pattern.Session
import CyclePattern.Proofs.Lexing.Place

namespace CyclePattern

open Text

theorem spanSeparators_append (cs : List Char) :
    (spanSeparators cs).1 ++ (spanSeparators cs).2 = cs := by
  induction cs with
  | nil => rfl
  | cons c rest ih =>
      rw [spanSeparators]
      split
      · rw [List.cons_append, ih]
      · rfl

theorem spanWord_append (depth : Nat) (cs : List Char) :
    (spanWord depth cs).1 ++ (spanWord depth cs).2 = cs :=
  (spanWord_eq_iff.mp rfl).1.symm

namespace Session

variable {session before middle after : Session}

/-- A session of the same text, at least as far along and not beyond the end, with as many groups
open. -/
structure Onward (before after : Session) : Prop where
  text : after.text = before.text
  limit : after.limit = before.limit
  depth : after.depth = before.depth
  le : before.offset ≤ after.offset
  le_length : before.offset ≤ before.text.length → after.offset ≤ after.text.length

theorem onward_refl (session : Session) : Onward session session :=
  ⟨rfl, rfl, rfl, Nat.le_refl _, id⟩

theorem Onward.trans (hbefore : Onward before middle) (hafter : Onward middle after) :
    Onward before after where
  text := hafter.text.trans hbefore.text
  limit := hafter.limit.trans hbefore.limit
  depth := hafter.depth.trans hbefore.depth
  le := hbefore.le.trans hafter.le
  le_length := fun hle => hafter.le_length (hbefore.le_length hle)

theorem onward_skip {count : Nat} (hcount : count ≤ session.remaining.length) :
    Onward session (session.skip count) := by
  refine ⟨rfl, rfl, rfl, Nat.le_add_right _ _, ?_⟩
  intro hle
  rw [remaining, List.length_drop] at hcount
  show session.offset + count ≤ session.text.length
  omega

theorem onward_skip_of_append {cs rest : List Char} (hsplit : cs ++ rest = session.remaining) :
    Onward session (session.skip cs.length) := by
  apply onward_skip
  rw [← hsplit, List.length_append]
  exact Nat.le_add_right _ _

theorem onward_skip_of_comma (hcomma : session.remaining.head? = some ',') :
    Onward session (session.skip 1) := by
  obtain ⟨rest, hremaining⟩ := List.head?_eq_some_iff.mp hcomma
  apply onward_skip
  rw [hremaining]
  simp

theorem onward_skipSeparators (session : Session) : Onward session session.skipSeparators.2 :=
  onward_skip_of_append (spanSeparators_append session.remaining)

theorem onward_takeWord (session : Session) : Onward session session.takeWord.2 :=
  onward_skip_of_append (spanWord_append 0 session.remaining)

theorem onward_takeCloser (session : Session) (bracket : Bracket) (start : Nat) :
    Onward session (session.takeCloser bracket start).2 := by
  unfold takeCloser
  split
  · exact onward_refl session
  · next c rest hremaining =>
      split
      · apply onward_skip
        rw [hremaining]
        simp
      · exact onward_refl session

theorem onward_takeSettings (session : Session) (bracket : Bracket) :
    Onward session (session.takeSettings bracket).2 := by
  unfold takeSettings
  split
  · exact onward_refl session
  · next modifier hmodifier =>
      have hread : Token.readGroupModifier bracket session.remaining =
          (some modifier, (Token.readGroupModifier bracket session.remaining).2) :=
        Prod.ext hmodifier rfl
      have honward := onward_skip_of_append (Token.readGroupModifier_eq_some_iff.mp hread).1.symm
      split
      · exact honward
      · exact honward

/-- A group that is left again was on the way. -/
theorem onward_of_enter {bracket : Bracket} (hopens : session.opens? = some bracket)
    (hinside : Onward session.enter after) : Onward session after.leave := by
  have hskip : Onward session (session.skip 1) := by
    apply onward_skip
    have hshorter := length_remaining_enter_lt hopens
    omega
  have hdepth : after.depth = session.depth + 1 := hinside.depth
  refine ⟨hinside.text, hinside.limit, ?_, hskip.le.trans hinside.le, ?_⟩
  · show after.depth - 1 = session.depth
    omega
  · intro hle
    exact hinside.le_length (hskip.le_length hle)

/-- A word is taken, whether it has a node or a number in it cannot be converted. -/
theorem readItem_of_word (hopens : session.opens? = none) :
    session.readItem =
      (((Word.node session.takeWord.1 session.offset).map Noted.value).mapError Stop.number,
        session.takeWord.2) := by
  rw [readItem]
  split
  · generalize session.takeWord = taken
    obtain ⟨word, next⟩ := taken
    dsimp only
    cases Word.node word session.offset <;> rfl
  · next bracket hbracket =>
      rw [hopens] at hbracket
      cases hbracket

theorem readItem_of_opens {bracket : Bracket} (hopens : session.opens? = some bracket) :
    session.readItem =
      if session.limit ≤ session.depth then
        (.error (.problem (.tooDeep session.limit) session.offset), session)
      else
        match session.enter.readGroups bracket with
        | (.error stop, inside) => (.error stop, inside.leave)
        | (.ok groups, inside) =>
          match inside.takeCloser bracket session.offset with
          | (.error stop, last) => (.error stop, last.leave)
          | (.ok (), last) =>
            match last.leave.takeSettings bracket with
            | (.error stop, next) => (.error stop, next)
            | (.ok settings, next) =>
              (.ok (groupNode bracket groups settings (.between session.offset next.offset)),
                next) := by
  rw [readItem]
  split
  · next hnone =>
      rw [hopens] at hnone
      cases hnone
  · next other hother =>
      rw [hopens] at hother
      cases hother
      rfl

/-- A sequence goes onward if its first item and the items after it do. -/
theorem onward_sequence
    (hitem : Onward session.skipSeparators.2 session.skipSeparators.2.readItem.2)
    (hrest : ∀ next : Session, next.remaining.length < session.remaining.length →
      Onward next next.readSequence.2) : Onward session session.readSequence.2 := by
  have hfirst := (onward_skipSeparators session).trans hitem
  rw [readSequence]
  split
  · exact onward_skipSeparators session
  rcases hread : session.skipSeparators.2.readItem with ⟨stop | item, next⟩
  · rwa [hread] at hfirst
  rw [hread] at hfirst
  dsimp only
  split
  · next hmore =>
      have hlast := hfirst.trans (hrest next hmore.2)
      rcases hothers : next.readSequence with ⟨stop | items, last⟩
      · rwa [hothers] at hlast
      · rwa [hothers] at hlast
  · exact hfirst

/-- An item goes onward if the inside of its group does. -/
theorem onward_item (hgroups : ∀ bracket, session.opens? = some bracket →
    Onward session.enter (session.enter.readGroups bracket).2) :
    Onward session session.readItem.2 := by
  cases hopens : session.opens? with
  | none =>
      rw [readItem_of_word hopens]
      exact onward_takeWord session
  | some bracket =>
      have hinside := hgroups bracket hopens
      rw [readItem_of_opens hopens]
      split
      · exact onward_refl session
      rcases hread : session.enter.readGroups bracket with ⟨stop | groups, inside⟩
      · rw [hread] at hinside
        exact onward_of_enter hopens hinside
      rw [hread] at hinside
      dsimp only
      have hclosed := hinside.trans (onward_takeCloser inside bracket session.offset)
      rcases hcloser : inside.takeCloser bracket session.offset with ⟨stop | _, last⟩
      · rw [hcloser] at hclosed
        exact onward_of_enter hopens hclosed
      rw [hcloser] at hclosed
      dsimp only
      have hset := (onward_of_enter hopens hclosed).trans (onward_takeSettings last.leave bracket)
      rcases hsettings : last.leave.takeSettings bracket with ⟨stop | settings, next⟩
      · rwa [hsettings] at hset
      · rwa [hsettings] at hset

/-- The inside of a group goes onward if its first sequence and those after a comma do. -/
theorem onward_groups {bracket : Bracket} (hsequence : Onward session session.readSequence.2)
    (hrest : ∀ next : Session, next.remaining.length < session.remaining.length →
      Onward next (next.readGroups bracket).2) :
    Onward session (session.readGroups bracket).2 := by
  rw [readGroups]
  rcases hread : session.readSequence with ⟨stop | first, next⟩
  · rwa [hread] at hsequence
  rw [hread] at hsequence
  dsimp only
  split
  · next hmore =>
      have hlast := (hsequence.trans (onward_skip_of_comma hmore.1.2)).trans
        (hrest (next.skip 1) hmore.2)
      rcases hothers : (next.skip 1).readGroups bracket with ⟨stop | others, last⟩
      · rwa [hothers] at hlast
      · rwa [hothers] at hlast
  · exact hsequence

mutual

/-- Reading a sequence goes onward, whether it succeeds or fails. -/
theorem onward_readSequence (session : Session) : Onward session session.readSequence.2 :=
  onward_sequence (onward_readItem session.skipSeparators.2) fun next _shorter =>
    onward_readSequence next
termination_by (session.remaining.length, 1)
decreasing_by
  · exact Prod.Lex.right' _ session.length_remaining_skipSeparators_le (by decide)
  · exact Prod.Lex.left _ _ _shorter

theorem onward_readItem (session : Session) : Onward session session.readItem.2 :=
  onward_item fun bracket _opens => onward_readGroups session.enter bracket
termination_by (session.remaining.length, 0)
decreasing_by exact Prod.Lex.left _ _ (length_remaining_enter_lt _opens)

theorem onward_readGroups (session : Session) (bracket : Bracket) :
    Onward session (session.readGroups bracket).2 :=
  onward_groups (onward_readSequence session) fun next _shorter => onward_readGroups next bracket
termination_by (session.remaining.length, 2)
decreasing_by
  · exact Prod.Lex.right _ (by decide)
  · exact Prod.Lex.left _ _ _shorter

end

theorem onward_readPattern (session : Session) : Onward session session.readPattern.2 := by
  have hsequence := onward_readSequence session
  rw [readPattern]
  rcases hread : session.readSequence with ⟨outcome, next⟩
  rw [hread] at hsequence
  cases outcome with
  | error stop => exact hsequence
  | ok items =>
      have hlast := hsequence.trans (onward_skipSeparators next)
      show Onward session (if _ then _ else _ : Except Stop (Node Float) × Session).2
      split
      · exact hlast
      · exact hlast

/-- What is taken from the front of the remaining text is the text up to the new offset. -/
theorem slice_skip_of_append {cs rest : List Char} (hsplit : cs ++ rest = session.remaining) :
    slice session.text session.offset (session.skip cs.length).offset = cs := by
  show (session.text.drop session.offset).take (session.offset + cs.length - session.offset) = cs
  rw [Nat.add_sub_cancel_left]
  change session.remaining.take cs.length = cs
  rw [← hsplit, List.take_left]

theorem onward_advance (session : Session) (count : Int) :
    Onward session (session.advance count).2 :=
  onward_skip_of_append (List.take_append_drop _ session.remaining)

theorem slice_advance (session : Session) (count : Int) :
    slice session.text session.offset (session.advance count).2.offset =
      (session.advance count).1 :=
  slice_skip_of_append (List.take_append_drop _ session.remaining)

theorem slice_takeWord (session : Session) :
    slice session.text session.offset session.takeWord.2.offset = session.takeWord.1 :=
  slice_skip_of_append (spanWord_append 0 session.remaining)

/-- A step that looks at the text and takes nothing. -/
def Step.Looks : Step → Prop
  | .peek _ | .atEnd | .atSeparator | .remaining | .matchShape _ => True
  | .advance _ | .skipSeparators | .takeWord | .readPattern => False

/-- A step that takes characters and finds them. -/
def Step.Takes : Step → Prop
  | .advance _ | .takeWord => True
  | _ => False

/-- What a step may do to a session between two steps. -/
structure Kept (before : Session) (step : Step) (found : Finding) (after : Session) : Prop where
  text : after.text = before.text
  le : before.offset ≤ after.offset
  le_length : after.offset ≤ after.text.length
  depth : after.depth = 0
  looks : step.Looks → after.offset = before.offset
  takes : step.Takes → found = .text (slice before.text before.offset after.offset)

/-- Every step of a walk finds something and is kept, also after a step that was refused or
stopped. -/
inductive KeptAlong : Session → List Step → List (Finding × Session) → Prop
  | nil {before : Session} : KeptAlong before [] []
  | cons {before after : Session} {step : Step} {found : Finding} {steps : List Step}
      {rest : List (Finding × Session)} (hstep : Kept before step found after)
      (hrest : KeptAlong after steps rest) :
      KeptAlong before (step :: steps) ((found, after) :: rest)

theorem onward_take (session : Session) (step : Step) : Onward session (session.take step).2 := by
  cases step with
  | peek ahead =>
      rw [take]
      split <;> exact onward_refl session
  | advance count => exact onward_advance session count
  | atEnd => exact onward_refl session
  | atSeparator => exact onward_refl session
  | skipSeparators => exact onward_skipSeparators session
  | remaining => exact onward_refl session
  | takeWord => exact onward_takeWord session
  | matchShape shape => exact onward_refl session
  | readPattern =>
      have hread := onward_readPattern session
      rw [take]
      split
      · next hok => rwa [hok] at hread
      · next herror => rwa [herror] at hread

theorem eq_of_looks {step : Step} (hlooks : step.Looks) : (session.take step).2 = session := by
  cases step with
  | peek ahead =>
      rw [take]
      split <;> rfl
  | atEnd => rfl
  | atSeparator => rfl
  | remaining => rfl
  | matchShape shape => rfl
  | _ => exact hlooks.elim

theorem found_of_takes {step : Step} (htakes : step.Takes) :
    (session.take step).1 =
      .text (slice session.text session.offset (session.take step).2.offset) := by
  cases step with
  | advance count => exact congrArg Finding.text (slice_advance session count).symm
  | takeWord => exact congrArg Finding.text (slice_takeWord session).symm
  | _ => exact htakes.elim

/-- Between two steps a session is inside its text with no group open. -/
theorem kept_take (step : Step) (hle : session.offset ≤ session.text.length)
    (hdepth : session.depth = 0) :
    Kept session step (session.take step).1 (session.take step).2 where
  text := (onward_take session step).text
  le := (onward_take session step).le
  le_length := (onward_take session step).le_length hle
  depth := (onward_take session step).depth.trans hdepth
  looks := fun hlooks => congrArg Session.offset (eq_of_looks hlooks)
  takes := found_of_takes

theorem keptAlong_walk_of_le (steps : List Step) (hle : session.offset ≤ session.text.length)
    (hdepth : session.depth = 0) : KeptAlong session steps (session.walk steps) := by
  induction steps generalizing session with
  | nil => exact .nil
  | cons step steps ih =>
      have hstep := kept_take step hle hdepth
      exact .cons hstep (ih hstep.le_length hstep.depth)

/-- However a walk through a text goes on, no step leaves the text, goes back or leaves a group
open, and a step that takes characters finds those that it went past. -/
theorem keptAlong_walk (text : List Char) (limit : Int) (steps : List Step) :
    KeptAlong (ofText text limit) steps ((ofText text limit).walk steps) :=
  keptAlong_walk_of_le steps (Nat.zero_le _) rfl

end Session

end CyclePattern
