/-
# Descent and open groups

What is left of a pattern is read by descent, where the open groups are the calls that have not
returned. The reading from token to token keeps them in a list instead. Both find the same tree or
the same problem, and both stop at the same place.

A call that fails fails as the reading does from where the call started. A call that returns brings
the reading to where it ended, with the same groups open and with the items that it found.
-/

import CyclePattern.Proofs.Grammar.Simulation
import CyclePattern.Proofs.Session.Walk

namespace CyclePattern

open Text Token

variable {limit : Int} {base : Nat} {p q : Progress} {t : Token} {after : List Char}

theorem tokens_append (ht : t.Stands after) :
    tokens (t.text ++ after) = t :: tokens after := by
  obtain ⟨htext, hlegible⟩ := tokens_eq_iff.mp (rfl : tokens after = tokens after)
  refine tokens_eq_iff.mpr ⟨by rw [textOf_cons, htext], ?_, hlegible⟩
  rwa [htext, List.append_nil]

namespace Progress

/-- What the reading of some text comes to, and where it stops. -/
def outcomeOf (limit : Int) (base : Nat) (p : Progress) (cs : List Char) :
    Except Stop (List (Node Float)) × Nat :=
  ((Reading.ofTokens limit base p (tokens cs)).result,
    (Reading.ofTokens limit base p (tokens cs)).stop)

theorem outcomeOf_nil : p.outcomeOf limit base [] = (p.finish, p.offset) := by
  simp [outcomeOf, tokens, Reading.ofTokens]

theorem outcomeOf_of_ok (ht : t.Stands after) (hstep : p.step limit base t = .ok q) :
    p.outcomeOf limit base (t.text ++ after) = q.outcomeOf limit base after := by
  simp only [outcomeOf, tokens_append ht, Reading.ofTokens, hstep]

theorem outcomeOf_of_error {stop : Stop} (ht : t.Stands after)
    (hstep : p.step limit base t = .error stop) :
    p.outcomeOf limit base (t.text ++ after) = (.error stop, Reading.stopAt p t stop) := by
  simp only [outcomeOf, tokens_append ht, Reading.ofTokens, hstep]

theorem stopAt_blocked (p : Progress) (t : Token) : Reading.stopAt p t p.blocked = p.offset := by
  unfold blocked
  split <;> rfl

/-- Separators move the reading on. -/
theorem outcomeOf_spanSeparators (limit : Int) (base : Nat) (p : Progress) (cs : List Char) :
    ∃ q : Progress, p.outcomeOf limit base cs = q.outcomeOf limit base (spanSeparators cs).2 ∧
      q.offset = p.offset + (spanSeparators cs).1.length ∧ q.opened = p.opened ∧
      q.items = p.items ∧
      (q.afterItem = true → p.afterItem = true ∧ (spanSeparators cs).1 = []) := by
  induction cs generalizing p with
  | nil => exact ⟨p, rfl, rfl, rfl, rfl, fun hafter => ⟨hafter, rfl⟩⟩
  | cons c cs ih =>
      rw [spanSeparators]
      split
      · next hstarts =>
          have hseparator : (separator c).Stands cs := (startsSeparator_iff c cs).mp hstarts
          obtain ⟨q, hrest, hoffset, hopened, hitems, hafter⟩ :=
            ih { p with offset := p.offset + 1, afterItem := false }
          refine ⟨q, ?_, ?_, hopened, hitems, ?_⟩
          · rw [← hrest]
            exact outcomeOf_of_ok hseparator rfl
          · change q.offset = p.offset + 1 + (spanSeparators cs).1.length at hoffset
            rw [hoffset, List.length_cons]
            omega
          · intro htrue
            cases (hafter htrue).1
      · exact ⟨p, rfl, rfl, rfl, rfl, fun hafter => ⟨hafter, rfl⟩⟩

end Progress

namespace Session

variable {session middle next : Session} {b : Bracket} {c : Char} {cs rest : List Char}

/-- The reading has come to where the session is, with as many groups open. -/
structure Reached (base : Nat) (p : Progress) (session : Session) : Prop where
  offset : p.offset = session.offset
  depth : base + p.opened.length = session.depth

/-- What the reading comes to from where the session is, and where it stops. -/
def outcome (base : Nat) (p : Progress) (session : Session) :
    Except Stop (List (Node Float)) × Nat :=
  p.outcomeOf session.limit base session.remaining

/-- A call fails as the reading does, or brings it to where the call ended. -/
def Agrees {α : Type} (base : Nat) (p : Progress) (session : Session)
    (Found : α → Progress → Session → Prop) : Except Stop α × Session → Prop
  | (.error stop, next) => session.outcome base p = (.error stop, next.offset)
  | (.ok value, next) => ∃ q, Reached base q next ∧ session.outcome base p = next.outcome base q ∧
      Found value q next

/-- Nothing comes next with which a sequence could go on. -/
structure Ended (afterItem : Bool) (session : Session) : Prop where
  separator : session.atSeparator = false
  opens : session.opens? = none
  ends : session.atSequenceEnd = true ∨ afterItem = true

theorem remaining_skip_of_append (hsplit : cs ++ rest = session.remaining) :
    (session.skip cs.length).remaining = rest := by
  rw [remaining_skip, ← hsplit, List.drop_left]

theorem remaining_skip_one (hremaining : session.remaining = c :: rest) :
    (session.skip 1).remaining = rest :=
  remaining_skip_of_append (show [c] ++ rest = session.remaining from hremaining.symm)

theorem remaining_skipSeparators (session : Session) :
    session.skipSeparators.2.remaining = (spanSeparators session.remaining).2 :=
  remaining_skip_of_append (spanSeparators_append session.remaining)

theorem remaining_takeWord (session : Session) :
    session.remaining = session.takeWord.1 ++ session.takeWord.2.remaining := by
  have hsplit := spanWord_append 0 session.remaining
  have hrest : session.takeWord.2.remaining = _ := remaining_skip_of_append hsplit
  rw [hrest]
  exact hsplit.symm

theorem startsSeparator_spanSeparators (cs : List Char) :
    startsSeparator (spanSeparators cs).2 = false := by
  induction cs with
  | nil => rfl
  | cons c cs ih =>
      rw [spanSeparators]
      split
      · exact ih
      · next hstarts => simpa using hstarts

theorem atSeparator_skipSeparators (session : Session) :
    session.skipSeparators.2.atSeparator = false := by
  rw [atSeparator, remaining_skipSeparators]
  exact startsSeparator_spanSeparators session.remaining

theorem skipSeparators_of_not_atSeparator (hseparator : session.atSeparator = false) :
    session.skipSeparators.2 = session := by
  have hnone : (spanSeparators session.remaining).1 = [] := by
    rw [atSeparator] at hseparator
    cases hremaining : session.remaining with
    | nil => rfl
    | cons c rest =>
        rw [hremaining] at hseparator
        rw [spanSeparators, hseparator]
        rfl
  rw [skipSeparators, hnone]
  rfl

theorem remaining_of_opens (hopens : session.opens? = some b) :
    session.remaining = b.opener :: session.enter.remaining := by
  cases hremaining : session.remaining with
  | nil => simp [opens?, hremaining] at hopens
  | cons c rest =>
      have hc : Bracket.ofOpener? c = some b := by simpa [opens?, hremaining] using hopens
      rw [opener_of_ofOpener? hc]
      exact congrArg _ (remaining_skip_one hremaining).symm

theorem opens_of_atSequenceEnd (hend : session.atSequenceEnd = true) : session.opens? = none := by
  unfold atSequenceEnd at hend
  split at hend
  · next hremaining => simp [opens?, hremaining]
  · next c rest hremaining =>
      have hopens : session.opens? = Bracket.ofOpener? c := by simp [opens?, hremaining]
      rw [hopens]
      simp only [Bool.or_eq_true, beq_iff_eq, Option.isSome_iff_exists] at hend
      rcases hend with (⟨other, hcloser⟩ | rfl) | rfl
      · rw [closer_of_ofCloser? hcloser, ofOpener?_closer]
      · decide
      · decide

/-- A word ends before a separator, where a group starts and where a sequence ends. -/
theorem stops_iff_of_remaining (hremaining : session.remaining = c :: rest) :
    Stops 0 c rest ↔ session.atSeparator = true ∨ session.opens?.isSome = true ∨
      session.atSequenceEnd = true := by
  have hseparator : session.atSeparator = true ↔ IsSeparator c rest := by
    rw [atSeparator, hremaining, startsSeparator_iff]
  have hopens : session.opens? = Bracket.ofOpener? c := by simp [opens?, hremaining]
  have hend : session.atSequenceEnd = true ↔
      (Bracket.ofCloser? c).isSome = true ∨ c = ',' ∨ c = ')' := by
    rw [atSequenceEnd, hremaining]
    simp [or_assoc]
  have hbreak : c ∈ groupBreaks ↔
      (Bracket.ofOpener? c).isSome = true ∨ (Bracket.ofCloser? c).isSome = true := by
    rw [← not_iff_not, not_mem_groupBreaks_iff]
    simp
  rw [hseparator, hopens, hend, Stops, hbreak]
  grind

/-- Where no sequence ends and no group starts, a word is next. -/
theorem isWord_takeWord (hseparator : session.atSeparator = false) (hopens : session.opens? = none)
    (hend : session.atSequenceEnd = false) :
    IsWord session.takeWord.1 session.takeWord.2.remaining := by
  have hsplit := session.remaining_takeWord
  have hrest : session.takeWord.2.remaining = (spanWord 0 session.remaining).2 :=
    remaining_skip_of_append (spanWord_append 0 session.remaining)
  have hspan : spanWord 0 session.remaining = (session.takeWord.1, session.takeWord.2.remaining) :=
    Prod.ext rfl hrest.symm
  obtain ⟨-, hrun⟩ := spanWord_eq_iff.mp hspan
  refine ⟨?_, hrun⟩
  intro hempty
  rw [hempty, List.nil_append] at hsplit
  rw [hempty, ← hsplit] at hrun
  cases hremaining : session.remaining with
  | nil => simp [atSequenceEnd, hremaining] at hend
  | cons c rest =>
      have hstops := (stops_iff_of_remaining hremaining).mp (hrun.stopped c rest hremaining)
      simp [hseparator, hopens, hend] at hstops

theorem Agrees.of_outcome_eq {α : Type} {Found : α → Progress → Session → Prop}
    {call : Except Stop α × Session} (houtcome : session.outcome base p = middle.outcome base q)
    (hcall : Agrees base q middle Found call) : Agrees base p session Found call := by
  obtain ⟨outcome | value, next⟩ := call
  · exact houtcome.trans hcall
  · obtain ⟨r, hreached, hnext, hfound⟩ := hcall
    exact ⟨r, hreached, houtcome.trans hnext, hfound⟩

/-- Separators move the reading on, and no item comes last after one. -/
theorem Reached.skipSeparators (hreached : Reached base p session) :
    ∃ q, Reached base q session.skipSeparators.2 ∧
      session.outcome base p = session.skipSeparators.2.outcome base q ∧ q.opened = p.opened ∧
      q.items = p.items ∧
      (q.afterItem = true → p.afterItem = true ∧ session.skipSeparators.2 = session) := by
  obtain ⟨q, houtcome, hoffset, hopened, hitems, hafter⟩ :=
    p.outcomeOf_spanSeparators session.limit base session.remaining
  refine ⟨q, ⟨?_, ?_⟩, ?_, hopened, hitems, ?_⟩
  · rw [hoffset, hreached.offset]
    rfl
  · rw [hopened]
    exact hreached.depth
  · rw [outcome, houtcome, ← remaining_skipSeparators]
    rfl
  · intro htrue
    obtain ⟨hbefore, hnone⟩ := hafter htrue
    refine ⟨hbefore, ?_⟩
    rw [Session.skipSeparators, hnone]
    rfl

/-- Where a sequence has ended, the reading stops unless its group goes on or is closed there. -/
theorem outcome_of_ended (hreached : Reached base p session) (hended : Ended p.afterItem session)
    (hremaining : session.remaining = c :: rest)
    (hcloser : ∀ g ∈ p.opened.head?, c ≠ g.bracket.closer)
    (hcomma : ∀ g ∈ p.opened.head?, c = ',' → g.bracket.holdsGroups = false) :
    session.outcome base p = (.error p.blocked, session.offset) := by
  generalize hread : readFrom c rest = read
  obtain ⟨t, after⟩ := read
  obtain ⟨hsplit, hstands⟩ := stands_of_readFrom hread
  have hstep : p.step session.limit base t = .error p.blocked := by
    cases t with
    | separator d =>
        obtain ⟨rfl, rfl⟩ := List.cons.inj hsplit
        have hseparator := hended.separator
        rw [atSeparator, hremaining, (startsSeparator_iff _ _).mpr hstands] at hseparator
        cases hseparator
    | word cs =>
        have hend : session.atSequenceEnd = false := by
          obtain ⟨hne, hrun⟩ := hstands
          obtain ⟨d, tail, rfl⟩ := List.exists_cons_of_ne_nil hne
          cases hsplit
          by_contra htrue
          rw [Bool.not_eq_false] at htrue
          exact (run_cons_iff.mp hrun).1 ((stops_iff_of_remaining hremaining).mpr
            (.inr (.inr htrue)))
        have hafter : p.afterItem = true := by simpa [hend] using hended.ends
        rw [Progress.step, if_pos hafter]
    | opening b =>
        cases hsplit
        have hopens := hended.opens
        rw [opens?, hremaining] at hopens
        change Bracket.ofOpener? b.opener = none at hopens
        rw [ofOpener?_opener] at hopens
        cases hopens
    | closing b m =>
        have hc : c = b.closer := (List.cons.inj hsplit).1
        cases hopened : p.opened with
        | nil => simp only [Progress.step, hopened]
        | cons g outer =>
            have hother : ¬ g.bracket = b := by
              rintro rfl
              exact hcloser g (by rw [hopened]; rfl) hc
            simp only [Progress.step, hopened, if_neg hother]
    | comma =>
        have hc : c = ',' := (List.cons.inj hsplit).1
        cases hopened : p.opened with
        | nil => simp only [Progress.step, hopened]
        | cons g outer =>
            have hone := hcomma g (by rw [hopened]; rfl) hc
            simp only [Progress.step, hopened, hone]
            rfl
    | strayParenthesis => rfl
  rw [outcome, hremaining, hsplit, Progress.outcomeOf_of_error hstands hstep,
    Progress.stopAt_blocked, hreached.offset]

theorem outcome_of_ok (hremaining : session.remaining = t.text ++ after) (ht : t.Stands after)
    (hstep : p.step session.limit base t = .ok q) (hnext : next.remaining = after)
    (hlimit : next.limit = session.limit) : session.outcome base p = next.outcome base q := by
  rw [outcome, outcome, hremaining, Progress.outcomeOf_of_ok ht hstep, hnext, hlimit]

theorem outcome_of_error {stop : Stop} (hremaining : session.remaining = t.text ++ after)
    (ht : t.Stands after) (hstep : p.step session.limit base t = .error stop) :
    session.outcome base p = (.error stop, Reading.stopAt p t stop) := by
  rw [outcome, hremaining, Progress.outcomeOf_of_error ht hstep]

/-- A word is taken whether or not its numbers are converted. -/
theorem agrees_word {Found : Node Float → Progress → Session → Prop}
    (hreached : Reached base p session) (hseparator : session.atSeparator = false)
    (hopens : session.opens? = none) (hend : session.atSequenceEnd = false)
    (hafter : p.afterItem = false)
    (hfound : ∀ read : Noted (Node Float),
      Found read.value (p.takeWord session.takeWord.1 read) session.takeWord.2) :
    Agrees base p session Found session.readItem := by
  have hword := isWord_takeWord hseparator hopens hend
  have hstop : p.offset + session.takeWord.1.length = session.takeWord.2.offset := by
    rw [hreached.offset]
    rfl
  rw [readItem_of_word hopens, ← hreached.offset]
  cases hnode : Word.node session.takeWord.1 p.offset with
  | error fault =>
      have hstep : p.step session.limit base (.word session.takeWord.1) =
          .error (.number fault) := by
        simp [Progress.step, hafter, hnode]
      have herror := outcome_of_error (t := .word session.takeWord.1) session.remaining_takeWord
        hword hstep
      exact herror.trans (congrArg _ hstop)
  | ok read =>
      have hstep : p.step session.limit base (.word session.takeWord.1) =
          .ok (p.takeWord session.takeWord.1 read) := by
        simp [Progress.step, hafter, hnode]
      have hgoes : session.outcome base p =
          session.takeWord.2.outcome base (p.takeWord session.takeWord.1 read) :=
        outcome_of_ok (t := .word session.takeWord.1) session.remaining_takeWord hword hstep
          rfl rfl
      exact ⟨p.takeWord session.takeWord.1 read, ⟨hstop, hreached.depth⟩, hgoes, hfound read⟩

theorem stands_closing {modifier : Option GroupModifier}
    (hread : readGroupModifier b cs = (modifier, after)) :
    (closing b modifier).Stands after ∧ cs = modifierText modifier ++ after := by
  cases modifier with
  | none =>
      obtain ⟨rfl, habsent⟩ := readGroupModifier_eq_none_iff.mp hread
      exact ⟨habsent, rfl⟩
  | some m =>
      obtain ⟨rfl, hfits⟩ := readGroupModifier_eq_some_iff.mp hread
      exact ⟨hfits, rfl⟩

theorem takeSettings_eq {modifier : Option GroupModifier}
    (hread : readGroupModifier b session.remaining = (modifier, after)) :
    session.takeSettings b =
      match modifier.bind GroupModifier.fault? with
      | some fault => (.error (.number fault), session.skip (modifierText modifier).length)
      | none => (.ok (Piece.settings modifier), session.skip (modifierText modifier).length) := by
  unfold takeSettings
  rw [hread]
  cases modifier with
  | none => rfl
  | some m => rfl

/-- A closer ends the innermost group, with the settings that follow it. -/
theorem agrees_takeSettings {g : OpenGroup} {outer : List OpenGroup}
    (hreached : Reached base p session) (hopened : p.opened = g :: outer)
    (hremaining : session.remaining = g.bracket.closer :: rest) :
    Agrees base p session (fun settings q next => q.opened = outer ∧ q.afterItem = true ∧
        q.items = groupNode g.bracket (p.items.reverse :: g.finished).reverse settings
          (.between g.start next.offset) :: g.before)
      ((session.skip 1).leave.takeSettings g.bracket) := by
  have hrest : (session.skip 1).leave.remaining = rest := remaining_skip_one hremaining
  generalize hread : readGroupModifier g.bracket rest = read
  obtain ⟨modifier, after⟩ := read
  obtain ⟨hstands, hsplit⟩ := stands_closing hread
  have htext : session.remaining = (closing g.bracket modifier).text ++ after := by
    rw [hremaining, hsplit, Piece.text_closing]
    rfl
  have hstop : p.offset + (closing g.bracket modifier).text.length =
      session.offset + 1 + (modifierText modifier).length := by
    rw [hreached.offset, Piece.text_closing, List.length_cons]
    omega
  rw [takeSettings_eq (hrest ▸ hread)]
  cases hfault : modifier.bind GroupModifier.fault? with
  | some fault =>
      have hstep : p.step session.limit base (.closing g.bracket modifier) =
          .error (.number fault) := by
        simp [Progress.step, hopened, hfault]
      exact (outcome_of_error htext hstands hstep).trans (congrArg _ hstop)
  | none =>
      have hstep : p.step session.limit base (.closing g.bracket modifier) =
          .ok (p.closeGroup g outer (Piece.settings modifier) (Progress.settingsOf g modifier).2
            (closing g.bracket modifier).text.length) := by
        rw [← Draft.settingsOf_fst g modifier]
        simp [Progress.step, hopened, hfault]
      refine ⟨_, ⟨hstop, ?_⟩, outcome_of_ok htext hstands hstep ?_ rfl, rfl, rfl, ?_⟩
      · show base + outer.length = session.depth - 1
        have hdepth := hreached.depth
        rw [hopened, List.length_cons] at hdepth
        omega
      · rw [remaining_skip, hrest, hsplit, List.drop_left]
      · show groupNode _ _ _ (.between g.start (p.offset + _ : Nat)) :: _ = _
        rw [hstop]
        rfl

/-- Items of a sequence that was read. -/
def FoundItems (p : Progress) (items : List (Node Float)) (q : Progress) (next : Session) : Prop :=
  q.opened = p.opened ∧ q.items = items.reverse ++ p.items ∧ Ended q.afterItem next

/-- An item that was read. -/
def FoundItem (p : Progress) (item : Node Float) (q : Progress) (_ : Session) : Prop :=
  q.opened = p.opened ∧ q.items = item :: p.items ∧ q.afterItem = true

/-- Sequences of the innermost group that were read. The last one was not ended by a comma. -/
def FoundGroups (g : OpenGroup) (outer : List OpenGroup) (groups : List (List (Node Float)))
    (q : Progress) (next : Session) : Prop :=
  Ended q.afterItem next ∧
  (g.bracket.holdsGroups = true → next.remaining.head? ≠ some ',') ∧
  ∃ finished, q.opened = { g with finished := finished } :: outer ∧
    (q.items.reverse :: finished).reverse = g.finished.reverse ++ groups

/-- The first item of a sequence is read where its separators end. -/
theorem agrees_firstItem (hreached : Reached base p session)
    (hcontinues : p.afterItem = true → session.continues = true)
    (hitem : ∀ q, Reached base q session.skipSeparators.2 →
      (q.afterItem = true → session.skipSeparators.2.opens?.isSome = true) →
      Agrees base q session.skipSeparators.2 (FoundItem q) session.skipSeparators.2.readItem) :
    Agrees base p session (FoundItem p) session.skipSeparators.2.readItem := by
  obtain ⟨q, hstart, houtcome, hopened, hitems, hafter⟩ := hreached.skipSeparators
  have hopens : q.afterItem = true → session.skipSeparators.2.opens?.isSome = true := by
    intro htrue
    obtain ⟨hbefore, hsame⟩ := hafter htrue
    have hseparator := session.atSeparator_skipSeparators
    have hgoes := hcontinues hbefore
    rw [hsame] at hseparator ⊢
    simpa [continues, hseparator] using hgoes
  have hagrees := (hitem q hstart hopens).of_outcome_eq houtcome
  unfold FoundItem at hagrees ⊢
  rwa [hopened, hitems] at hagrees

theorem length_remaining_le (honward : Onward session next) :
    next.remaining.length ≤ session.remaining.length := by
  rw [remaining, remaining, honward.text, List.length_drop, List.length_drop]
  exact Nat.sub_le_sub_left honward.le _

/-- An item takes something, so the guards of the descent are idle. -/
theorem length_remaining_readItem_lt {item : Node Float} (hseparator : session.atSeparator = false)
    (hend : session.atSequenceEnd = false) (hitem : session.readItem = (.ok item, next)) :
    next.remaining.length < session.remaining.length := by
  cases hopens : session.opens? with
  | none =>
      obtain ⟨hne, -⟩ := isWord_takeWord hseparator hopens hend
      have hpos := List.length_pos_iff.mpr hne
      rw [readItem_of_word hopens] at hitem
      obtain ⟨-, rfl⟩ := Prod.mk.inj hitem
      rw [session.remaining_takeWord, List.length_append]
      exact Nat.lt_add_of_pos_left hpos
  | some b =>
      have henter := length_remaining_enter_lt hopens
      rw [readItem_of_opens hopens] at hitem
      split at hitem
      · cases hitem
      split at hitem
      · cases hitem
      next groups inside hgroups =>
        split at hitem
        · cases hitem
        next last hcloser =>
          split at hitem
          · cases hitem
          next settings after hsettings =>
            cases hitem
            have hinside := onward_readGroups session.enter b
            have hlast := onward_takeCloser inside b session.offset
            have hnext := onward_takeSettings last.leave b
            rw [hgroups] at hinside
            rw [hcloser] at hlast
            rw [hsettings] at hnext
            calc
              _ ≤ last.leave.remaining.length := length_remaining_le hnext
              _ = last.remaining.length := rfl
              _ ≤ inside.remaining.length := length_remaining_le hlast
              _ ≤ session.enter.remaining.length := length_remaining_le hinside
              _ < session.remaining.length := henter

theorem Reached.enter (hreached : Reached base p session) (hopens : session.opens? = some b)
    (hroom : ¬ session.limit ≤ session.depth) :
    Reached base (p.openGroup b) session.enter ∧
      session.outcome base p = session.enter.outcome base (p.openGroup b) := by
  have hstep : p.step session.limit base (.opening b) = .ok (p.openGroup b) := by
    rw [Progress.step, hreached.depth, if_neg hroom]
  refine ⟨⟨?_, ?_⟩,
    outcome_of_ok (t := .opening b) (remaining_of_opens hopens) trivial hstep rfl rfl⟩
  · show p.offset + 1 = session.offset + 1
    rw [hreached.offset]
  · show base + (p.opened.length + 1) = session.depth + 1
    rw [← hreached.depth]
    omega

theorem outcome_of_tooDeep (hreached : Reached base p session) (hopens : session.opens? = some b)
    (hdeep : session.limit ≤ session.depth) :
    session.outcome base p = (.error (.problem (.tooDeep session.limit) session.offset),
      session.offset) := by
  have hstep : p.step session.limit base (.opening b) =
      .error (.problem (.tooDeep session.limit) session.offset) := by
    rw [Progress.step, hreached.depth, if_pos hdeep, hreached.offset]
  have hstands : (opening b).Stands session.enter.remaining := trivial
  have herror := Progress.outcomeOf_of_error hstands hstep
  rw [outcome, remaining_of_opens hopens]
  exact herror.trans (congrArg _ hreached.offset)

/-- A group whose closer is missing stops the reading. -/
theorem outcome_of_takeCloser {g : OpenGroup} {outer : List OpenGroup}
    {groups : List (List (Node Float))} {stop : Stop} (hreached : Reached base p session)
    (hfound : FoundGroups g outer groups p session)
    (hcloser : session.takeCloser g.bracket g.start = (.error stop, next)) :
    session.outcome base p = (.error stop, next.offset) := by
  obtain ⟨hended, hcomma, finished, hopened, -⟩ := hfound
  unfold takeCloser at hcloser
  split at hcloser
  · next hremaining =>
      cases hcloser
      rw [outcome, hremaining, Progress.outcomeOf_nil, Progress.finish, hopened, hreached.offset]
  · next c rest hremaining =>
      split at hcloser
      · cases hcloser
      next hother =>
        cases hcloser
        rw [outcome_of_ended hreached hended hremaining, Progress.blocked, hopened, hreached.offset]
        · rw [hopened]
          rintro _ ⟨⟩
          exact hother
        · rw [hopened]
          rintro _ ⟨⟩ rfl
          simpa [hremaining] using hcomma

theorem of_takeCloser {start : Nat} (hcloser : session.takeCloser b start = (.ok (), next)) :
    next = session.skip 1 ∧ session.remaining = b.closer :: next.remaining := by
  unfold takeCloser at hcloser
  split at hcloser
  · cases hcloser
  · next c rest hremaining =>
      split at hcloser
      · next hc =>
          cases hcloser
          rw [remaining_skip_one hremaining, hremaining, hc]
          exact ⟨rfl, rfl⟩
      · cases hcloser

theorem Reached.comma {g : OpenGroup} {outer : List OpenGroup} (hreached : Reached base p session)
    (hopened : p.opened = g :: outer) (hholds : g.bracket.holdsGroups = true)
    (hcomma : session.remaining.head? = some ',') :
    Reached base (p.endSequence g outer) (session.skip 1) ∧
      session.outcome base p = (session.skip 1).outcome base (p.endSequence g outer) := by
  obtain ⟨rest, hremaining⟩ := List.head?_eq_some_iff.mp hcomma
  have hstep : p.step session.limit base .comma = .ok (p.endSequence g outer) := by
    simp only [Progress.step, hopened, if_pos hholds]
  refine ⟨⟨?_, ?_⟩, outcome_of_ok (t := .comma) hremaining trivial hstep
    (remaining_skip_one hremaining) rfl⟩
  · show p.offset + 1 = session.offset + 1
    rw [hreached.offset]
  · show base + (outer.length + 1) = session.depth
    rw [← hreached.depth, hopened]
    rfl

/-- Reading a sequence agrees with the reading from token to token, where an item may follow. -/
def SequenceAgrees (session : Session) : Prop :=
  ∀ base p, Reached base p session → (p.afterItem = true → session.continues = true) →
    Agrees base p session (FoundItems p) session.readSequence

/-- Reading an item agrees with it where an item starts. -/
def ItemAgrees (session : Session) : Prop :=
  ∀ base p, Reached base p session → session.atSeparator = false →
    session.atSequenceEnd = false → (p.afterItem = true → session.opens?.isSome = true) →
    Agrees base p session (FoundItem p) session.readItem

/-- Reading sequences of a group agrees with it where one of them starts. -/
def GroupsAgree (session : Session) (b : Bracket) : Prop :=
  ∀ base p g outer, Reached base p session → p.opened = g :: outer → g.bracket = b →
    p.items = [] → p.afterItem = false →
    Agrees base p session (FoundGroups g outer) (session.readGroups b)

theorem sequenceAgrees_of_items (hitem : ItemAgrees session.skipSeparators.2)
    (hrest : ∀ next : Session, next.remaining.length < session.remaining.length →
      SequenceAgrees next) : SequenceAgrees session := by
  intro base p hreached hcontinues
  rw [readSequence]
  split
  · next hend =>
      obtain ⟨q, hstart, houtcome, hopened, hitems, -⟩ := hreached.skipSeparators
      exact ⟨q, hstart, houtcome, hopened, hitems, session.atSeparator_skipSeparators,
        opens_of_atSequenceEnd hend, .inl hend⟩
  next hgoes =>
  have hseparator := session.atSeparator_skipSeparators
  have hend := Bool.eq_false_iff.mpr hgoes
  have hfirst := agrees_firstItem hreached hcontinues fun q hstart hopens =>
    hitem base q hstart hseparator hend hopens
  rcases hread : session.skipSeparators.2.readItem with ⟨stop | item, next⟩
  · rwa [hread] at hfirst
  rw [hread] at hfirst
  obtain ⟨q, hnext, houtcome, hopened, hitems, hafter⟩ := hfirst
  have hshorter := (length_remaining_readItem_lt hseparator hend hread).trans_le
    session.length_remaining_skipSeparators_le
  dsimp only
  split
  · next hmore =>
      have hothers := hrest next hshorter base q hnext (fun _ => hmore.1)
      rcases hreadOthers : next.readSequence with ⟨stop | items, last⟩
      · rw [hreadOthers] at hothers
        exact houtcome.trans hothers
      rw [hreadOthers] at hothers
      obtain ⟨r, hlast, houtcomeLast, hopenedLast, hitemsLast, hended⟩ := hothers
      refine ⟨r, hlast, houtcome.trans houtcomeLast, hopenedLast.trans hopened, ?_, hended⟩
      rw [hitemsLast, hitems, List.reverse_cons, List.append_assoc, List.singleton_append]
  · next halone =>
      have hstops : next.atSeparator = false ∧ next.opens? = none := by
        simpa [continues, hshorter] using halone
      exact ⟨q, hnext, houtcome, hopened, hitems, hstops.1, hstops.2, .inr hafter⟩

theorem itemAgrees_of_groups (hgroups : ∀ b, session.opens? = some b →
    GroupsAgree session.enter b) : ItemAgrees session := by
  intro base p hreached hseparator hend hafter
  cases hopens : session.opens? with
  | none =>
      have hapart : p.afterItem = false := by
        by_contra htouches
        rw [Bool.not_eq_false] at htouches
        simpa [hopens] using hafter htouches
      exact agrees_word hreached hseparator hopens hend hapart fun _ => ⟨rfl, rfl, rfl⟩
  | some b =>
      rw [readItem_of_opens hopens]
      split
      · next hdeep => exact outcome_of_tooDeep hreached hopens hdeep
      next hroom =>
      obtain ⟨henter, houtcome⟩ := hreached.enter hopens hroom
      have hinside := hgroups b hopens base _ _ _ henter rfl rfl rfl rfl
      rcases hread : session.enter.readGroups b with ⟨stop | groups, inside⟩
      · rw [hread] at hinside
        exact houtcome.trans hinside
      rw [hread] at hinside
      obtain ⟨q, hreachedInside, houtcomeInside, hfound⟩ := hinside
      dsimp only
      rcases hcloser : inside.takeCloser b session.offset with ⟨stop | _, last⟩
      · calc
          _ = session.enter.outcome base (p.openGroup b) := houtcome
          _ = inside.outcome base q := houtcomeInside
          _ = (.error stop, last.offset) :=
            outcome_of_takeCloser hreachedInside hfound (hreached.offset ▸ hcloser)
      obtain ⟨-, -, finished, hopened, hsequences⟩ := hfound
      obtain ⟨rfl, hremaining⟩ := of_takeCloser hcloser
      have hclosed := agrees_takeSettings hreachedInside hopened hremaining
      dsimp only at hclosed ⊢
      rcases hsettings : (inside.skip 1).leave.takeSettings b with ⟨stop | settings, next⟩
      · rw [hsettings] at hclosed
        calc
          _ = session.enter.outcome base (p.openGroup b) := houtcome
          _ = inside.outcome base q := houtcomeInside
          _ = (.error stop, next.offset) := hclosed
      rw [hsettings] at hclosed
      obtain ⟨r, hnext, houtcomeNext, hopenedNext, hafterNext, hitems⟩ := hclosed
      refine ⟨r, hnext, (houtcome.trans houtcomeInside).trans houtcomeNext, hopenedNext, ?_,
        hafterNext⟩
      rw [hitems, hsequences, hreached.offset]
      rfl

theorem groupsAgree_of_sequences {b : Bracket} (hsequence : SequenceAgrees session)
    (hrest : ∀ next : Session, next.remaining.length < session.remaining.length →
      GroupsAgree next b) : GroupsAgree session b := by
  intro base p g outer hreached hopened hb hitems hapart
  have hfirst := hsequence base p hreached (by simp [hapart])
  have hle := length_remaining_le (onward_readSequence session)
  rw [readGroups]
  rcases hread : session.readSequence with ⟨stop | first, next⟩
  · rwa [hread] at hfirst
  rw [hread] at hfirst hle
  obtain ⟨q, hnext, houtcome, hopenedNext, hitemsNext, hended⟩ := hfirst
  have hq : q.opened = g :: outer := hopenedNext.trans hopened
  dsimp only
  split
  · next hmore =>
      obtain ⟨hcomma, houtcomeComma⟩ := hnext.comma hq (hb ▸ hmore.1.1) hmore.1.2
      have hothers := hrest (next.skip 1) hmore.2 base _ _ _ hcomma rfl hb rfl rfl
      rcases hreadOthers : (next.skip 1).readGroups b with ⟨stop | others, last⟩
      · rw [hreadOthers] at hothers
        calc
          _ = next.outcome base q := houtcome
          _ = (next.skip 1).outcome base (q.endSequence g outer) := houtcomeComma
          _ = (.error stop, last.offset) := hothers
      rw [hreadOthers] at hothers
      obtain ⟨r, hlast, houtcomeLast, hendedLast, hcommaLast, finished, hopenedLast,
        hsequences⟩ := hothers
      refine ⟨r, hlast, (houtcome.trans houtcomeComma).trans houtcomeLast, hendedLast, hcommaLast,
        finished, hopenedLast, ?_⟩
      rw [hsequences, hitemsNext, hitems]
      simp
  · next halone =>
      refine ⟨q, hnext, houtcome, hended, ?_, g.finished, hq, ?_⟩
      · intro hholds hhead
        obtain ⟨rest, hremaining⟩ := List.head?_eq_some_iff.mp hhead
        refine halone ⟨⟨hb ▸ hholds, hhead⟩, ?_⟩
        rw [remaining_skip_one hremaining]
        change next.remaining.length ≤ session.remaining.length at hle
        rw [hremaining, List.length_cons] at hle
        exact hle
      · rw [hitemsNext, hitems]
        simp

mutual

theorem sequenceAgrees (session : Session) : SequenceAgrees session :=
  sequenceAgrees_of_items (itemAgrees session.skipSeparators.2) fun next _shorter =>
    sequenceAgrees next
termination_by (session.remaining.length, 1)
decreasing_by
  · exact Prod.Lex.right' _ session.length_remaining_skipSeparators_le (by decide)
  · exact Prod.Lex.left _ _ _shorter

theorem itemAgrees (session : Session) : ItemAgrees session :=
  itemAgrees_of_groups fun b _opens => groupsAgree session.enter b
termination_by (session.remaining.length, 0)
decreasing_by exact Prod.Lex.left _ _ (length_remaining_enter_lt _opens)

theorem groupsAgree (session : Session) (b : Bracket) : GroupsAgree session b :=
  groupsAgree_of_sequences (sequenceAgrees session) fun next _shorter => groupsAgree next b
termination_by (session.remaining.length, 2)
decreasing_by
  · exact Prod.Lex.right _ (by decide)
  · exact Prod.Lex.left _ _ _shorter

end

theorem atEnd_iff : session.atEnd = true ↔ session.remaining = [] := by
  rw [atEnd, decide_eq_true_eq, remaining, List.drop_eq_nil_iff]

/-- Reading what is left of a session is reading its text from token to token: the tree or the
problem is the same, and so is the place where the reading stops. -/
theorem readPattern_eq (session : Session) :
    session.readPattern.1 =
        (Reading.ofText session.limit session.depth session.offset
          session.remaining).result.map .sequence ∧
      session.readPattern.2.offset =
        (Reading.ofText session.limit session.depth session.offset session.remaining).stop := by
  have hstart : Reached session.depth (.start session.offset) session := ⟨rfl, rfl⟩
  have hagrees := sequenceAgrees session session.depth _ hstart (by simp [Progress.start])
  have hreading : session.outcome session.depth (.start session.offset) =
      ((Reading.ofText session.limit session.depth session.offset session.remaining).result,
        (Reading.ofText session.limit session.depth session.offset session.remaining).stop) := rfl
  rw [readPattern]
  rcases hsequence : session.readSequence with ⟨stop | items, next⟩
  · rw [hsequence] at hagrees
    have herror := hreading.symm.trans hagrees
    simp only [Prod.mk.injEq] at herror
    rw [herror.1, herror.2]
    exact ⟨rfl, rfl⟩
  · rw [hsequence] at hagrees
    obtain ⟨q, hnext, houtcome, hopened, hitems, hended⟩ := hagrees
    have hlast := hreading.symm.trans houtcome
    simp only [skipSeparators_of_not_atSeparator hended.separator]
    cases hremaining : next.remaining with
    | nil =>
        have hfinish : q.finish = .ok items := by
          simp [Progress.finish, hopened, hitems, Progress.start]
        rw [outcome, hremaining, Progress.outcomeOf_nil, hfinish, hnext.offset,
          Prod.mk.injEq] at hlast
        rw [if_pos (atEnd_iff.mpr hremaining), hlast.1, hlast.2]
        exact ⟨rfl, rfl⟩
    | cons c rest =>
        have hgoes : ¬ next.atEnd = true := by simp [atEnd_iff, hremaining]
        have hnone : q.opened = [] := hopened
        have hblocked : q.blocked = .problem .leftover next.offset := by
          rw [Progress.blocked, hnone, hnext.offset]
        have hstop := outcome_of_ended hnext hended hremaining (by simp [hnone]) (by simp [hnone])
        rw [hstop, hblocked, Prod.mk.injEq] at hlast
        rw [if_neg hgoes, hlast.1, hlast.2]
        exact ⟨rfl, rfl⟩

end Session

end CyclePattern
