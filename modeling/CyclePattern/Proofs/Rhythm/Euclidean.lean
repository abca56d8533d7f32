/-
# What a Euclidean rhythm is made of

Spreading onsets over steps moves them about and makes none: the rhythm is a rearrangement of its
onsets and its silent steps, and so is every turn of it.
-/

import CyclePattern.Rhythm.Euclidean
import Mathlib.Data.List.Perm.Basic

namespace CyclePattern.Rhythm

variable {α : Type}

/-- Joining groups in pairs and keeping those that are left over keeps all steps. -/
theorem flatten_zipWith_append_perm (leading leftOver : List (List Bool)) :
    (List.zipWith (· ++ ·) leading leftOver ++
        (leading.drop leftOver.length ++ leftOver.drop leading.length)).flatten.Perm
      (leading.flatten ++ leftOver.flatten) := by
  induction leading generalizing leftOver with
  | nil => simp
  | cons first rest ih =>
      cases leftOver with
      | nil => simp
      | cons other others =>
          simp only [List.zipWith_cons_cons, List.length_cons, List.drop_succ_cons,
            List.cons_append, List.flatten_cons, List.append_assoc]
          apply List.Perm.append_left
          have hjoined := (ih others).append_left other
          have hmoved : (other ++ (rest.flatten ++ others.flatten)).Perm
              (rest.flatten ++ (other ++ others.flatten)) := by
            rw [← List.append_assoc, ← List.append_assoc]
            exact List.perm_append_comm.append_right others.flatten
          exact hjoined.trans hmoved

/-- Distribution keeps all steps. -/
theorem flatten_distribute_perm (leading leftOver : List (List Bool)) :
    (distribute leading leftOver).flatten.Perm (leading.flatten ++ leftOver.flatten) := by
  fun_induction distribute leading leftOver with
  | case1 leading leftOver more ih =>
      rw [← List.flatten_append] at ih
      exact ih.trans (flatten_zipWith_append_perm leading leftOver)
  | case2 leading leftOver last => rw [List.flatten_append]

/-- A rhythm has its pulses and, in the other steps, silence. -/
theorem euclidean_perm {pulses steps : Int} {rhythm : List Bool}
    (hrhythm : euclidean pulses steps = .ok rhythm) :
    rhythm.Perm
      (List.replicate pulses.toNat true ++ List.replicate (steps - pulses).toNat false) := by
  unfold euclidean at hrhythm
  split at hrhythm
  · cases hrhythm
  split at hrhythm
  · cases hrhythm
  split at hrhythm
  · next hnone =>
      cases hrhythm
      rw [hnone, Int.sub_zero]
      exact .refl _
  · cases hrhythm
    have hperm := flatten_distribute_perm (List.replicate pulses.toNat [true])
      (List.replicate (steps - pulses).toNat [false])
    rwa [List.flatten_replicate_singleton, List.flatten_replicate_singleton] at hperm

theorem rotate_perm (steps : List α) (turn : Int) : (rotate steps turn).Perm steps := by
  rw [rotate]
  exact List.perm_append_comm.trans (by rw [List.take_append_drop])

theorem rotatedEuclidean_perm {steps pulses rotation : Int} {rhythm : List Bool}
    (hrhythm : rotatedEuclidean steps pulses rotation = .ok rhythm) :
    rhythm.Perm
      (List.replicate pulses.toNat true ++ List.replicate (steps - pulses).toNat false) := by
  unfold rotatedEuclidean at hrhythm
  cases hplain : euclidean pulses steps with
  | error cause =>
      rw [hplain] at hrhythm
      cases hrhythm
  | ok plain =>
      rw [hplain] at hrhythm
      cases hrhythm
      exact (rotate_perm plain rotation).trans (euclidean_perm hplain)

variable {steps pulses rotation : Int} {rhythm : List Bool}

/-- A rhythm is as long as its steps. -/
theorem length_rotatedEuclidean (hpulses : 0 ≤ pulses) (hsteps : pulses ≤ steps)
    (hrhythm : rotatedEuclidean steps pulses rotation = .ok rhythm) :
    rhythm.length = steps.toNat := by
  have hlength := (rotatedEuclidean_perm hrhythm).length_eq
  rw [List.length_append, List.length_replicate, List.length_replicate] at hlength
  omega

/-- A rhythm with as many pulses as steps is never silent. -/
theorem eq_true_of_mem_rotatedEuclidean (hsteps : steps ≤ pulses)
    (hrhythm : rotatedEuclidean steps pulses rotation = .ok rhythm) {isPlayed : Bool}
    (hmem : isPlayed ∈ rhythm) : isPlayed = true := by
  rw [(rotatedEuclidean_perm hrhythm).mem_iff, List.mem_append] at hmem
  rcases hmem with hplayed | hsilent
  · exact List.eq_of_mem_replicate hplayed
  · have hnone : (steps - pulses).toNat = 0 := by omega
    rw [hnone] at hsilent
    cases hsilent

/-- Where no step is silent every step is an onset. -/
theorem onsets_of_forall {isPlayed : List Bool} (hall : ∀ step ∈ isPlayed, step = true) :
    onsets id isPlayed = List.range isPlayed.length := by
  have hfilter : isPlayed.zipIdx.filter (fun step => id step.1) = isPlayed.zipIdx := by
    apply List.filter_eq_self.mpr
    intro step hstep
    exact hall step.1 (List.fst_mem_of_mem_zipIdx hstep)
  rw [onsets, hfilter, List.zipIdx_map_snd, List.range_eq_range']

theorem length_onsets (isPlayed : α → Bool) (steps : List α) :
    (onsets isPlayed steps).length = steps.countP isPlayed := by
  rw [onsets, List.length_map, ← List.countP_eq_length_filter]
  have hcount := List.countP_map (p := isPlayed) (f := Prod.fst) (l := steps.zipIdx)
  rw [List.zipIdx_map_fst] at hcount
  exact hcount.symm

/-- A rhythm has an onset for each of its pulses. -/
theorem length_onsets_rotatedEuclidean {steps pulses rotation : Int} {rhythm : List Bool}
    (hrhythm : rotatedEuclidean steps pulses rotation = .ok rhythm) :
    (onsets id rhythm).length = pulses.toNat := by
  rw [length_onsets, (rotatedEuclidean_perm hrhythm).countP_eq, List.countP_append,
    List.countP_replicate, List.countP_replicate]
  rfl

end CyclePattern.Rhythm
