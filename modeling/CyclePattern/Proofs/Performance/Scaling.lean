/-
# What groups do to the events inside them

A group with a division multiplies the division of every event inside it, and a group with a ratio
divides the speed. Groups inside one another act in turn, the innermost first. So an event is known
from the one that its node plays, the divisions and the ratios around it; it differs from that one
in two controls at most.
-/

import CyclePattern.Proofs.Performance.Playing

namespace CyclePattern

variable {α : Type}

namespace Controls

/-- Whether a control is left alone by all groups. -/
def isPlain (control : String × α) : Bool :=
  control.1 != "division" && control.1 != "speed"

theorem filter_set {p : String × α → Bool} {name : String} (hp : ∀ value, p (name, value) = false)
    (controls : Controls α) (value : α) :
    (set controls name value).filter p = controls.filter p := by
  induction controls with
  | nil =>
      rw [set, List.filter_cons_of_neg (by simp [hp])]
  | cons first rest ih =>
      obtain ⟨other, old⟩ := first
      rw [set]
      split
      · next hsame =>
          subst hsame
          rw [List.filter_cons_of_neg (by simp [hp]), List.filter_cons_of_neg (by simp [hp])]
      · rw [List.filter_cons, List.filter_cons, ih]

end Controls

variable [Measure α]

/-- A control after some factors were applied to it in turn. A control that is not set counts as
one, and where there are no factors either it stays so. -/
def scaled (apply : α → α → α) (own : Option α) (factors : List α) : Option α :=
  if own.isSome ∨ factors ≠ [] then some (factors.foldl apply (own.getD Measure.one)) else none

theorem scaled_nil (apply : α → α → α) (own : Option α) : scaled apply own [] = own := by
  cases own <;> rfl

theorem getD_scaled (apply : α → α → α) (own : Option α) (factors : List α) :
    (scaled apply own factors).getD Measure.one = factors.foldl apply (own.getD Measure.one) := by
  by_cases hset : own.isSome ∨ factors ≠ []
  · rw [scaled, if_pos hset, Option.getD_some]
  · obtain ⟨hnone, hempty⟩ := not_or.mp hset
    have hown : own = none := by simpa using hnone
    have hfactors : factors = [] := by simpa using hempty
    rw [hown, hfactors]
    rfl

theorem scaled_append_singleton (apply : α → α → α) (own : Option α) (factors : List α)
    (factor : α) :
    scaled apply own (factors ++ [factor]) =
      some (apply ((scaled apply own factors).getD Measure.one) factor) := by
  have hset : own.isSome = true ∨ factors ++ [factor] ≠ [] := .inr (by simp)
  rw [scaled, if_pos hset, getD_scaled, List.foldl_append]
  rfl

theorem eq_div_of_quotient {x y value : α} (hvalue : quotient x y = .ok value) :
    value = x / y := by
  rw [quotient] at hvalue
  split at hvalue
  · cases hvalue
  · exact (Except.ok.inj hvalue).symm

/-- An event comes of the event that its node plays: divisions and ratios were applied to its
controls in turn, and everything else is as it was. -/
structure Event.Becomes (own : Event α) (divisions ratios : List α) (event : Event α) : Prop where
  same : event.withControls own.controls = own
  division : event.controls.get? "division" =
    scaled (· * ·) (own.controls.get? "division") divisions
  speed : event.controls.get? "speed" = scaled (· / ·) (own.controls.get? "speed") ratios
  plain : event.controls.filter Controls.isPlain = own.controls.filter Controls.isPlain

namespace Event.Becomes

variable {own event changed : Event α} {divisions ratios : List α}

theorem refl (own : Event α) : own.Becomes [] [] own :=
  ⟨rfl, (scaled_nil _ _).symm, (scaled_nil _ _).symm, rfl⟩

theorem divide (hevent : own.Becomes divisions ratios event) (factor : α) :
    own.Becomes (divisions ++ [factor]) ratios (event.divide factor) where
  same := hevent.same
  division := by
    rw [scaled_append_singleton, ← hevent.division]
    exact Controls.get?_set_self _ _ _
  speed := by
    rw [← hevent.speed]
    exact Controls.get?_set_of_ne _ _ (by decide)
  plain := by
    rw [← hevent.plain]
    exact Controls.filter_set (fun _ => rfl) _ _

theorem slow (hevent : own.Becomes divisions ratios event) {ratio : α}
    (hslow : event.slow ratio = .ok changed) :
    own.Becomes divisions (ratios ++ [ratio]) changed := by
  obtain ⟨speed, hspeed, rfl⟩ := Node.exists_of_map_eq_ok hslow
  have hvalue := eq_div_of_quotient hspeed
  exact {
    same := hevent.same
    division := by
      rw [← hevent.division]
      exact Controls.get?_set_of_ne _ _ (by decide)
    speed := by
      rw [scaled_append_singleton, ← hevent.speed, ← hvalue]
      exact Controls.get?_set_self _ _ _
    plain := by
      rw [← hevent.plain]
      exact Controls.filter_set (fun _ => rfl) _ _ }

end Event.Becomes

theorem forall₂_trans {β γ δ : Type} {R : β → γ → Prop} {S : γ → δ → Prop} {T : β → δ → Prop}
    (htrans : ∀ x y z, R x y → S y z → T x z) {xs : List β} {ys : List γ} {zs : List δ}
    (hfirst : List.Forall₂ R xs ys) (hsecond : List.Forall₂ S ys zs) : List.Forall₂ T xs zs := by
  induction hfirst generalizing zs with
  | nil =>
      cases hsecond
      exact .nil
  | cons hxy _ ih =>
      obtain _ | ⟨hyz, hrest⟩ := hsecond
      exact .cons (htrans _ _ _ hxy hyz) (ih hrest)

theorem forall₂_divideAll (division : Option α) (events : List (Event α)) :
    List.Forall₂ (fun event changed => ∀ own divisions ratios,
        Event.Becomes own divisions ratios event →
          own.Becomes (divisions ++ division.toList) ratios changed)
      events (divideAll division events) := by
  cases division with
  | none =>
      rw [divideAll, List.forall₂_same]
      intro event _ own divisions ratios hevent
      rwa [Option.toList_none, List.append_nil]
  | some factor =>
      rw [divideAll, List.forall₂_map_right_iff, List.forall₂_same]
      intro event _ own divisions ratios hevent
      exact hevent.divide factor

theorem forall₂_of_slowAll {ratio : Option α} {events slowed : List (Event α)}
    (hslowed : slowAll ratio events = .ok slowed) :
    List.Forall₂ (fun event changed => ∀ own divisions ratios,
        Event.Becomes own divisions ratios event →
          own.Becomes divisions (ratios ++ ratio.toList) changed)
      events slowed := by
  cases ratio with
  | none =>
      cases hslowed
      rw [List.forall₂_same]
      intro event _ own divisions ratios hevent
      rwa [Option.toList_none, List.append_nil]
  | some factor =>
      exact (forall₂_of_mapM hslowed).imp fun event changed hslow own divisions ratios hevent =>
        hevent.slow hslow

namespace Node

/-- The division that a group sets on everything inside it. -/
def groupDivision : Node α → Option α
  | .subdivision _ _ division _ _ => division
  | .alternation _ _ division _ => division
  | _ => none

/-- The ratio that a group sets on everything inside it. -/
def groupRatio : Node α → Option α
  | .subdivision _ _ _ ratio _ => ratio
  | _ => none

/-- A group adds its division and its ratio to those of the groups inside it. -/
theorem forall₂_of_shape {n : Node α} {events shaped : List (Event α)}
    (hshaped : n.shape events = .ok shaped) :
    List.Forall₂ (fun event changed => ∀ own divisions ratios,
        Event.Becomes own divisions ratios event →
          own.Becomes (divisions ++ n.groupDivision.toList) (ratios ++ n.groupRatio.toList) changed)
      events shaped := by
  cases n with
  | subdivision inner repeats division ratio span =>
      refine forall₂_trans ?_ (forall₂_divideAll division events) (forall₂_of_slowAll hshaped)
      intro event divided changed hdivided hchanged own divisions ratios hevent
      exact hchanged own _ _ (hdivided own _ _ hevent)
  | alternation options repeats division span =>
      cases hshaped
      refine (forall₂_divideAll division events).imp ?_
      intro event changed hchanged own divisions ratios hevent
      simpa [groupDivision, groupRatio] using hchanged own divisions ratios hevent
  | _ =>
      cases hshaped
      rw [List.forall₂_same]
      intro event _ own divisions ratios hevent
      simpa [groupDivision, groupRatio] using hevent

end Node

end CyclePattern
