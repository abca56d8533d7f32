/-
# Distribution comes to an end

Joining goes on for as long as more than one group is left over, and each round uses up groups that
are left over and may leave others. It ends all the same, because a round joins at least one pair:
the groups become fewer. There is always a pair to join, since the leading groups never run out.

So a rhythm is there whenever its numbers make sense, and it has its steps, its pulses and its first
onset.
-/

import CyclePattern.Proofs.Rhythm.Euclidean

namespace CyclePattern.Rhythm

/-- The rounds of joining, and the groups that are there when they end. Whether there is a leading
group to join is not asked. -/
inductive Rounds : List (List Bool) → List (List Bool) → List (List Bool) → Prop
  | last {leading leftOver : List (List Bool)} (hfew : leftOver.length ≤ 1) :
      Rounds leading leftOver (leading ++ leftOver)
  | join {leading leftOver groups : List (List Bool)} (hmany : 1 < leftOver.length)
      (hrest : Rounds (List.zipWith (· ++ ·) leading leftOver)
        (leading.drop leftOver.length ++ leftOver.drop leading.length) groups) :
      Rounds leading leftOver groups

variable {leading leftOver groups : List (List Bool)}

theorem zipWith_append_ne_nil (hleading : leading ≠ []) (hmany : 1 < leftOver.length) :
    List.zipWith (· ++ ·) leading leftOver ≠ [] := by
  cases leading with
  | nil => contradiction
  | cons first rest =>
      cases leftOver with
      | nil => simp at hmany
      | cons other others => simp

/-- Where a group leads, the rounds end, and with the groups of the distribution. -/
theorem rounds_distribute (hleading : leading ≠ []) :
    Rounds leading leftOver (distribute leading leftOver) := by
  fun_induction distribute leading leftOver with
  | case1 leading leftOver more ih =>
      exact .join more.2 (ih (zipWith_append_ne_nil hleading more.2))
  | case2 leading leftOver last =>
      apply Rounds.last
      apply Nat.not_lt.mp
      intro hmany
      exact last ⟨hleading, hmany⟩

/-- What the first leading group starts with stays in front. -/
theorem head?_flatten_distribute {step : Bool} {group : List Bool}
    (hfirst : leading.head? = some group) (hstep : group.head? = some step) :
    (distribute leading leftOver).flatten.head? = some step := by
  fun_induction distribute leading leftOver generalizing group with
  | case1 leading leftOver more ih =>
      cases leading with
      | nil => cases hfirst
      | cons first rest =>
          cases leftOver with
          | nil => simp at more
          | cons other others =>
              cases hfirst
              have hjoined : (List.zipWith (· ++ ·) (group :: rest) (other :: others)).head? =
                  some (group ++ other) := rfl
              apply ih hjoined
              rw [List.head?_append, hstep, Option.some_or]
  | case2 leading leftOver last =>
      cases leading with
      | nil => cases hfirst
      | cons first rest =>
          cases hfirst
          rw [List.cons_append, List.flatten_cons, List.head?_append, hstep, Option.some_or]

/-- Numbers that no rhythm has: no step at all, pulses below zero, or more pulses than steps. -/
def IsRefused (pulses steps : Int) : Prop :=
  steps ≤ 0 ∨ pulses < 0 ∨ steps < pulses

theorem exists_error_of_isRefused {pulses steps : Int} (hrefused : IsRefused pulses steps) :
    ∃ refusal, euclidean pulses steps = .error refusal := by
  unfold euclidean
  by_cases hsteps : steps ≤ 0
  · exact ⟨.noSteps steps, if_pos hsteps⟩
  · refine ⟨.pulsesOutOfRange pulses steps, ?_⟩
    rw [if_neg hsteps, if_pos (hrefused.resolve_left hsteps)]

/-- A rhythm with a pulse is what the rounds end with, from one group for each pulse and one for each
silent step. -/
theorem euclidean_of_pos {pulses steps : Int} (hpulses : 0 < pulses) (hsteps : pulses ≤ steps) :
    euclidean pulses steps =
      .ok (distribute (List.replicate pulses.toNat [true])
        (List.replicate (steps - pulses).toNat [false])).flatten := by
  rw [euclidean, if_neg (by omega), if_neg (by omega), if_neg (by omega)]

theorem euclidean_zero {steps : Int} (hsteps : 0 < steps) :
    euclidean 0 steps = .ok (List.replicate steps.toNat false) := by
  rw [euclidean, if_neg (by omega), if_neg (by omega), if_pos rfl]

theorem exists_euclidean {pulses steps : Int} (hplayable : ¬ IsRefused pulses steps) :
    ∃ rhythm, euclidean pulses steps = .ok rhythm := by
  simp only [IsRefused, not_or, Int.not_le, Int.not_lt] at hplayable
  obtain ⟨hpositive, hpulses, hsteps⟩ := hplayable
  rcases Int.lt_or_eq_of_le hpulses with hpulse | rfl
  · exact ⟨_, euclidean_of_pos hpulse hsteps⟩
  · exact ⟨_, euclidean_zero hpositive⟩

/-- A rhythm has its steps, and an onset on as many of them as it has pulses. -/
theorem length_and_count_euclidean {pulses steps : Int} {rhythm : List Bool}
    (hplayable : ¬ IsRefused pulses steps) (hrhythm : euclidean pulses steps = .ok rhythm) :
    (rhythm.length : Int) = steps ∧ (rhythm.count true : Int) = pulses := by
  simp only [IsRefused, not_or, Int.not_le, Int.not_lt] at hplayable
  have hperm := euclidean_perm hrhythm
  have hlength := hperm.length_eq
  have hcount := hperm.count_eq true
  simp only [List.length_append, List.length_replicate] at hlength
  simp only [List.count_append, List.count_replicate] at hcount
  simp at hcount
  omega

theorem leading_ne_nil {pulses : Int} (hpulses : 0 < pulses) :
    List.replicate pulses.toNat [true] ≠ [] := by
  intro hnone
  have hlength := congrArg List.length hnone
  rw [List.length_replicate] at hlength
  simp at hlength
  omega

theorem head?_euclidean {pulses steps : Int} {rhythm : List Bool} (hpulses : 0 < pulses)
    (hsteps : pulses ≤ steps) (hrhythm : euclidean pulses steps = .ok rhythm) :
    rhythm.head? = some true := by
  rw [euclidean_of_pos hpulses hsteps] at hrhythm
  cases hrhythm
  have hpositive : pulses.toNat ≠ 0 := by omega
  have hfirst : (List.replicate pulses.toNat [true]).head? = some [true] := by
    rw [List.head?_replicate, if_neg hpositive]
  exact head?_flatten_distribute hfirst rfl

/-- Numbers are refused exactly where they make no sense. Otherwise there is a rhythm with its steps
and its pulses, and if it has a pulse, an onset comes first and the rounds of joining end with it. -/
theorem euclidean_refused_or_played (pulses steps : Int) :
    ((∃ refusal, euclidean pulses steps = .error refusal) ↔
        steps ≤ 0 ∨ pulses < 0 ∨ steps < pulses) ∧
      (¬ (steps ≤ 0 ∨ pulses < 0 ∨ steps < pulses) →
        ∃ rhythm, euclidean pulses steps = .ok rhythm ∧
          (rhythm.length : Int) = steps ∧ (rhythm.count true : Int) = pulses ∧
          (0 < pulses → rhythm.head? = some true ∧
            ∃ groups, Rounds (List.replicate pulses.toNat [true])
                (List.replicate (steps - pulses).toNat [false]) groups ∧
              rhythm = groups.flatten)) := by
  constructor
  · constructor
    · rintro ⟨refusal, herror⟩
      by_contra hplayable
      obtain ⟨rhythm, hrhythm⟩ := exists_euclidean hplayable
      rw [hrhythm] at herror
      cases herror
    · exact exists_error_of_isRefused
  · intro hplayable
    obtain ⟨rhythm, hrhythm⟩ := exists_euclidean hplayable
    obtain ⟨hlength, hcount⟩ := length_and_count_euclidean hplayable hrhythm
    refine ⟨rhythm, hrhythm, hlength, hcount, ?_⟩
    intro hpulses
    have hsteps : pulses ≤ steps := by omega
    refine ⟨head?_euclidean hpulses hsteps hrhythm, ?_⟩
    rw [euclidean_of_pos hpulses hsteps] at hrhythm
    cases hrhythm
    exact ⟨_, rounds_distribute (leading_ne_nil hpulses), rfl⟩

end CyclePattern.Rhythm
