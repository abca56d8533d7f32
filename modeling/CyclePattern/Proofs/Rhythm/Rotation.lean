/-
# Turning a rhythm

A turn takes every step of a cycle as many places to the left as it says, and those that leave it on
the left come back on the right. So one turn after another is a turn by their sum, and turns by the
whole cycle change nothing. The onsets of a rhythm that is turned are the onsets of the rhythm, each
as many steps earlier, and there are as many of them.
-/

import CyclePattern.Proofs.Rhythm.Distribution
import Mathlib.Data.List.Rotate

namespace CyclePattern.Rhythm

variable {α : Type} {cycle : List α}

/-- Any number of places to the left that agrees with the turn, whole cycles apart, will do. -/
theorem rotate_eq_of_emod_eq {turn : Int} {places : Nat}
    (hplaces : (places : Int) % cycle.length = turn % cycle.length) :
    rotate cycle turn = cycle.rotate places := by
  rw [List.rotate_eq_drop_append_take_mod, rotate, ← hplaces, ← Int.natCast_emod, Int.toNat_natCast]

theorem rotate_eq (hcycle : cycle ≠ []) (turn : Int) :
    rotate cycle turn = cycle.rotate (turn % cycle.length).toNat := by
  have hlength : (cycle.length : Int) ≠ 0 := by simpa using hcycle
  apply rotate_eq_of_emod_eq
  rw [Int.toNat_of_nonneg (Int.emod_nonneg turn hlength), Int.emod_emod]

theorem length_rotate (cycle : List α) (turn : Int) : (rotate cycle turn).length = cycle.length :=
  (rotate_perm cycle turn).length_eq

/-- One turn after another is a turn by their sum. -/
theorem rotate_rotate (cycle : List α) (turn other : Int) :
    rotate (rotate cycle turn) other = rotate cycle (turn + other) := by
  by_cases hcycle : cycle = []
  · subst hcycle
    simp [rotate]
  · have hlength : (cycle.length : Int) ≠ 0 := by simpa using hcycle
    have hturned : rotate cycle turn ≠ [] := by
      rwa [← List.length_pos_iff, length_rotate, List.length_pos_iff]
    rw [rotate_eq hturned, length_rotate, rotate_eq hcycle, List.rotate_rotate]
    symm
    apply rotate_eq_of_emod_eq
    rw [Int.natCast_add, Int.toNat_of_nonneg (Int.emod_nonneg turn hlength),
      Int.toNat_of_nonneg (Int.emod_nonneg other hlength), ← Int.add_emod]

/-- Whole turns change nothing. -/
theorem rotate_of_dvd {turn : Int} (hturn : (cycle.length : Int) ∣ turn) :
    rotate cycle turn = cycle := by
  have hnone : ((0 : Nat) : Int) % cycle.length = turn % cycle.length := by
    rw [Int.emod_eq_zero_of_dvd hturn]
    exact Int.zero_emod _
  rw [rotate_eq_of_emod_eq hnone, List.rotate_zero]

variable {isPlayed : α → Bool} {i : Nat}

theorem mem_onsets : i ∈ onsets isPlayed cycle ↔ ∃ step ∈ cycle[i]?, isPlayed step = true := by
  simp only [onsets, List.mem_map, List.mem_filter, Prod.exists, List.mem_zipIdx_iff_getElem?,
    Option.mem_def]
  constructor
  · rintro ⟨step, index, ⟨hstep, hplayed⟩, rfl⟩
    exact ⟨step, hstep, hplayed⟩
  · rintro ⟨step, hstep, hplayed⟩
    exact ⟨step, i, ⟨hstep, hplayed⟩, rfl⟩

theorem lt_length_of_mem_onsets (hi : i ∈ onsets isPlayed cycle) : i < cycle.length := by
  obtain ⟨step, hstep, -⟩ := mem_onsets.mp hi
  exact (List.getElem?_eq_some_iff.mp hstep).1

/-- Onsets are found from left to right, each once. -/
theorem pairwise_onsets (isPlayed : α → Bool) (cycle : List α) :
    (onsets isPlayed cycle).Pairwise (· < ·) := by
  have hsublist : (onsets isPlayed cycle).Sublist (cycle.zipIdx.map (·.2)) :=
    List.filter_sublist.map _
  rw [List.zipIdx_map_snd] at hsublist
  exact List.Pairwise.sublist hsublist List.pairwise_lt_range'

/-- The step that a turn brings to a place was as many places further to the right. -/
theorem getElem?_rotate (turn : Int) (hi : i < cycle.length) :
    (rotate cycle turn)[i]? = cycle[((i + turn) % cycle.length).toNat]? := by
  have hcycle : cycle ≠ [] := List.ne_nil_of_length_pos (by omega)
  have hlength : (cycle.length : Int) ≠ 0 := by simpa using hcycle
  rw [rotate_eq hcycle, List.getElem?_rotate hi]
  congr 1
  apply Int.ofNat_inj.mp
  rw [Int.natCast_emod, Int.natCast_add, Int.toNat_of_nonneg (Int.emod_nonneg turn hlength),
    Int.toNat_of_nonneg (Int.emod_nonneg _ hlength), Int.add_emod_emod]

/-- An onset is turned to the place as many steps before it. -/
theorem mem_onsets_rotate (turn : Int) :
    i ∈ onsets isPlayed (rotate cycle turn) ↔
      ∃ onset ∈ onsets isPlayed cycle, ((onset : Int) - turn) % cycle.length = i := by
  constructor
  · intro hi
    have hlt := lt_length_of_mem_onsets hi
    rw [length_rotate] at hlt
    have hsource := Int.emod_nonneg (i + turn) (b := cycle.length) (by omega)
    refine ⟨((i + turn) % cycle.length).toNat, ?_, ?_⟩
    · rw [mem_onsets, getElem?_rotate turn hlt] at hi
      exact mem_onsets.mpr hi
    · rw [Int.toNat_of_nonneg hsource, Int.emod_sub_emod, Int.add_sub_cancel]
      exact Int.emod_eq_of_lt (by omega) (by omega)
  · rintro ⟨onset, honset, hplace⟩
    have hlt := lt_length_of_mem_onsets honset
    have hi : i < cycle.length := by
      have hin := Int.emod_lt_of_pos (onset - turn) (b := cycle.length) (by omega)
      omega
    have hsource : ((i + turn) % cycle.length).toNat = onset := by
      rw [← hplace, Int.emod_add_emod, Int.sub_add_cancel, Int.emod_eq_of_lt (by omega) (by omega),
        Int.toNat_natCast]
    rw [mem_onsets, getElem?_rotate turn hi, hsource]
    exact mem_onsets.mp honset

/-- The onsets of a rhythm that is turned stand in order, are as many as its pulses, and are within
its steps. They are those of the rhythm, taken as many steps to the left. Turns add up, and whole
turns change nothing. -/
theorem onsets_turned {pulses steps : Int} (hpulses : 0 ≤ pulses) (hle : pulses ≤ steps)
    (hsteps : 0 < steps) :
    (∀ rotation : Int, ∃ plain turned, euclidean pulses steps = .ok plain ∧
      rotatedEuclidean steps pulses rotation = .ok turned ∧
      (onsets id turned).Pairwise (· < ·) ∧ ((onsets id turned).length : Int) = pulses ∧
      (∀ i ∈ onsets id turned, (i : Int) < steps) ∧
      ∀ place : Int, (∃ i ∈ onsets id turned, (i : Int) = place) ↔
        ∃ onset ∈ onsets id plain, ((onset : Int) - rotation) % steps = place) ∧
    (∀ {β : Type} (cycle : List β) (turn other : Int),
      rotate (rotate cycle turn) other = rotate cycle (turn + other)) ∧
    ∀ {β : Type} (cycle : List β) (turn : Int), (cycle.length : Int) ∣ turn →
      rotate cycle turn = cycle := by
  refine ⟨?_, rotate_rotate, fun _ _ => rotate_of_dvd⟩
  intro rotation
  have hplayable : ¬ IsRefused pulses steps := by
    unfold IsRefused
    omega
  obtain ⟨plain, hplain⟩ := exists_euclidean hplayable
  obtain ⟨hlength, -⟩ := length_and_count_euclidean hplayable hplain
  have hturned : rotatedEuclidean steps pulses rotation = .ok (rotate plain rotation) := by
    rw [rotatedEuclidean, hplain]
    rfl
  refine ⟨plain, rotate plain rotation, hplain, hturned, pairwise_onsets _ _, ?_, ?_, ?_⟩
  · rw [length_onsets_rotatedEuclidean hturned]
    exact Int.toNat_of_nonneg hpulses
  · intro i hi
    have hlt := lt_length_of_mem_onsets hi
    rw [length_rotate] at hlt
    omega
  · intro place
    constructor
    · rintro ⟨i, hi, rfl⟩
      rwa [mem_onsets_rotate, hlength] at hi
    · rintro ⟨onset, honset, rfl⟩
      have hplace := Int.emod_nonneg (onset - rotation) (Int.ne_of_gt hsteps)
      refine ⟨((onset - rotation) % steps).toNat, ?_, Int.toNat_of_nonneg hplace⟩
      rw [mem_onsets_rotate, hlength, Int.toNat_of_nonneg hplace]
      exact ⟨onset, honset, rfl⟩

/-- Three pulses in eight steps are turned two steps to the right. -/
theorem onsets_turned_of_three_in_eight :
    (0 : Int) ≤ 3 ∧ (3 : Int) ≤ 8 ∧ (0 : Int) < 8 ∧
      ∃ plain turned, euclidean 3 8 = .ok plain ∧ rotatedEuclidean 8 3 (-2) = .ok turned ∧
        (onsets id turned).Pairwise (· < ·) ∧ (onsets id turned).length = 3 ∧
        ∀ place : Int, (∃ i ∈ onsets id turned, (i : Int) = place) ↔
          ∃ onset ∈ onsets id plain, ((onset : Int) - -2) % 8 = place := by
  obtain ⟨hturns, -, -⟩ := onsets_turned (show (0 : Int) ≤ 3 by decide)
    (show (3 : Int) ≤ 8 by decide) (show (0 : Int) < 8 by decide)
  obtain ⟨plain, turned, hplain, hturned, hordered, hlength, -, hplaces⟩ := hturns (-2)
  exact ⟨by decide, by decide, by decide, plain, turned, hplain, hturned, hordered,
    Int.ofNat_inj.mp hlength, hplaces⟩

end CyclePattern.Rhythm
