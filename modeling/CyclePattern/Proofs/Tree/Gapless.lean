/-
# Trees that leave no time out

A tree sounds one thing at a time when none of its groups has parts side by side. It leaves no time
out when nothing that is played is silent: no rest, no elongation with nothing before it, no step of
a rhythm without an onset, no choice without a sound. The options of a choice are not played
themselves, so a rest may stand among them.

Other numbers in the same tree make no difference to either.
-/

import CyclePattern.Proofs.Tree.Exact

namespace CyclePattern.Node

variable {α β : Type}

/-- Whether the node has a sound of its own. -/
def HasSound : Node α → Prop
  | .atom _ _ | .harmony _ _ _ => True
  | _ => False

/-- Whether the parts of the node sound one after the other and never together. -/
def SoundsAlone : Node α → Prop
  | .stack _ => False
  | .polymetric groups _ _ => groups.length ≤ 1
  | _ => True

/-- Whether the node takes up all of its window when its parts take up theirs. An alternation with a
single option plays that option, whatever it is. -/
def IsSolid : Node α → Prop
  | .atom sound _ => ∀ rhythm ∈ sound.euclid, ¬ rhythm.pulses < rhythm.steps
  | .sequence children => ∃ first rest, children = first :: rest ∧ first.isElongation = false
  | .alternation options _ _ _ =>
    options ≠ [] ∧ (1 < options.length → ∃ option ∈ options, option.HasSound)
  | .choice options _ => ∃ option ∈ options, option.HasSound
  | _ => True

/-- The children of a node, except for the options of a choice and of an alternation with several
options. -/
def playedChildren : Node α → List (Node α)
  | .alternation [option] _ _ _ => [option]
  | .alternation _ _ _ _ => []
  | .choice _ _ => []
  | n => n.children

/-- A node and the nodes inside it that do not stand among options. -/
inductive Exposes : Node α → Node α → Prop
  | refl (n : Node α) : Exposes n n
  | child {n c m : Node α} (hc : c ∈ n.playedChildren) (hm : Exposes c m) : Exposes n m

/-- Whether a tree leaves no time out. -/
structure IsGapless (n : Node α) : Prop where
  solid : ∀ m, n.Holds m → m.IsSolid
  sounding : ∀ m, n.Exposes m → m.isRest = false

theorem mem_children_of_mem_playedChildren {n c : Node α} (hc : c ∈ n.playedChildren) :
    c ∈ n.children := by
  unfold playedChildren at hc
  split at hc
  · exact hc
  · cases hc
  · cases hc
  · exact hc

theorem mem_playedChildren_of_mem_items {n item : Node α} (hitem : item ∈ n.items) :
    item ∈ n.playedChildren := by
  cases n with
  | sequence children => exact hitem
  | _ => cases hitem

theorem Exposes.holds {n m : Node α} (hexposes : n.Exposes m) : n.Holds m := by
  induction hexposes with
  | refl n => exact .refl n
  | child hc _ ih => exact .child (mem_children_of_mem_playedChildren hc) ih

theorem Exposes.trans {n m d : Node α} (hexposes : n.Exposes m) (hd : m.Exposes d) :
    n.Exposes d := by
  induction hexposes with
  | refl => exact hd
  | child hc _ ih => exact .child hc (ih hd)

/-- What is exposed in a tree without gaps is such a tree. -/
theorem IsGapless.of_exposes {n m : Node α} (hn : n.IsGapless) (hexposes : n.Exposes m) :
    m.IsGapless where
  solid d hd := hn.solid d (hexposes.holds.trans hd)
  sounding d hd := hn.sounding d (hexposes.trans hd)

section

variable (f : α → β)

theorem hasSound_map (n : Node α) : (n.map f).HasSound ↔ n.HasSound := by
  cases n <;> exact Iff.rfl

theorem exists_hasSound_map (options : List (Node α)) :
    (∃ option ∈ options.map (map f), option.HasSound) ↔ ∃ option ∈ options, option.HasSound := by
  simp [hasSound_map]

theorem soundsAlone_map (n : Node α) : (n.map f).SoundsAlone ↔ n.SoundsAlone := by
  cases n with
  | polymetric groups steps span => simp [map, SoundsAlone]
  | _ => exact Iff.rfl

theorem isSolid_map {n : Node α} (hn : n.IsSolid) : (n.map f).IsSolid := by
  cases n with
  | sequence children =>
      obtain ⟨first, rest, rfl, hfirst⟩ := hn
      exact ⟨first.map f, mapAll f rest, rfl, by rwa [isElongation_map]⟩
  | alternation options repeats division span =>
      obtain ⟨hsome, hsound⟩ := hn
      rw [map, mapAll_eq_map, IsSolid, exists_hasSound_map, List.length_map]
      exact ⟨by simpa using hsome, hsound⟩
  | choice options span =>
      rw [map, mapAll_eq_map, IsSolid, exists_hasSound_map]
      exact hn
  | _ => exact hn

theorem playedChildren_map (n : Node α) :
    (n.map f).playedChildren = n.playedChildren.map (map f) := by
  cases n with
  | alternation options repeats division span =>
      rcases options with _ | ⟨option, _ | ⟨second, others⟩⟩
      · rfl
      · rfl
      · rfl
  | choice options span => rfl
  | _ => simp [map, playedChildren, children]

end

theorem exists_of_exposes_map {f : α → β} {n : Node α} {m : Node β}
    (hexposes : (n.map f).Exposes m) : ∃ k, n.Exposes k ∧ m = k.map f := by
  generalize hn : n.map f = d at hexposes
  induction hexposes generalizing n with
  | refl => exact ⟨n, .refl n, hn.symm⟩
  | child hc _ ih =>
      subst hn
      rw [playedChildren_map] at hc
      obtain ⟨child, hchild, hsame⟩ := List.mem_map.mp hc
      obtain ⟨k, hk, hm⟩ := ih hsame
      exact ⟨k, .child hchild hk, hm⟩

theorem isGapless_map (f : α → β) {n : Node α} (hn : n.IsGapless) : (n.map f).IsGapless where
  solid m hm := by
    obtain ⟨k, hk, rfl⟩ := exists_of_holds_map hm
    exact isSolid_map f (hn.solid k hk)
  sounding m hm := by
    obtain ⟨k, hk, rfl⟩ := exists_of_exposes_map hm
    rw [isRest_map]
    exact hn.sounding k hk

end CyclePattern.Node
