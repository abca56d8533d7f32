/-
# Rhythms are as even as they can be

Compare a rhythm with pulses at a steady pace: every onset puts it ahead of them, every silent step
behind. How far it is ahead after some steps is its drift. Onsets are spread as evenly as they can
be when the drift never spans as much as one onset, and that is what distribution comes to.

While groups are joined, all leading groups are one word and all groups left over are another one.
The first word rises by as much as there are groups left over, and the second one falls by as much
as there are leading groups. When the leading groups are the more, those without a partner become
the groups left over, and the drift is looked at upside down from then on.
-/

import CyclePattern.Proofs.Rhythm.Distribution
import Mathlib.Data.List.Count
import Mathlib.Data.Rat.Floor
import Mathlib.Tactic.Linarith
import Mathlib.Tactic.Ring

namespace CyclePattern.Rhythm

/-- How far some steps rise, by the weight of a silent and of a played step. -/
def drift (weight : Bool → Int) (word : List Bool) : Int :=
  (word.map weight).sum

/-- The drift stays between two bounds, after however many steps. -/
structure Stays (weight : Bool → Int) (low high : Int) (word : List Bool) : Prop where
  low_le : ∀ n, low ≤ drift weight (word.take n)
  le_high : ∀ n, drift weight (word.take n) ≤ high

variable {weight : Bool → Int} {low high : Int} {first second : List Bool}

@[simp]
theorem drift_nil (weight : Bool → Int) : drift weight [] = 0 :=
  rfl

@[simp]
theorem drift_singleton (weight : Bool → Int) (step : Bool) :
    drift weight [step] = weight step := by
  simp [drift]

@[simp]
theorem drift_append (weight : Bool → Int) (first second : List Bool) :
    drift weight (first ++ second) = drift weight first + drift weight second := by
  simp [drift]

theorem drift_flatten_replicate (weight : Bool → Int) (count : Nat) (word : List Bool) :
    drift weight (List.replicate count word).flatten = count * drift weight word := by
  induction count with
  | zero => simp
  | succ count ih =>
      calc
        _ = drift weight word + drift weight (List.replicate count word).flatten := by
          rw [List.replicate_succ, List.flatten_cons, drift_append]
        _ = drift weight word + count * drift weight word := by rw [ih]
        _ = (count + 1 : Nat) * drift weight word := by
          push_cast
          ring

theorem drift_neg (weight : Bool → Int) (word : List Bool) :
    drift (-weight) word = -drift weight word := by
  induction word with
  | nil => rfl
  | cons step rest ih =>
      simp only [drift, List.map_cons, List.sum_cons, Pi.neg_apply] at ih ⊢
      omega

/-- The drift after the first steps of two words in a row is one of the first word, or one of the
second word on top of all of the first. -/
theorem drift_take_append (weight : Bool → Int) (first second : List Bool) (n : Nat) :
    drift weight ((first ++ second).take n) = drift weight (first.take n) ∨
      ∃ m, drift weight ((first ++ second).take n) =
        drift weight first + drift weight (second.take m) := by
  rcases Nat.le_total n first.length with hshort | hlong
  · left
    rw [List.take_append_of_le_length hshort]
  · right
    refine ⟨n - first.length, ?_⟩
    rw [List.take_append, List.take_of_length_le hlong, drift_append]

namespace Stays

theorem mono {low' high' : Int} (hstays : Stays weight low high first) (hlow : low' ≤ low)
    (hhigh : high ≤ high') : Stays weight low' high' first :=
  ⟨fun n => hlow.trans (hstays.low_le n), fun n => (hstays.le_high n).trans hhigh⟩

theorem low_nonpos (hstays : Stays weight low high first) : low ≤ 0 :=
  hstays.low_le 0

theorem high_nonneg (hstays : Stays weight low high first) : 0 ≤ high :=
  hstays.le_high 0

theorem singleton {step : Bool} (hlow : low ≤ 0) (hhigh : 0 ≤ high) (hstep : low ≤ weight step)
    (hstep' : weight step ≤ high) : Stays weight low high [step] := by
  constructor
  · intro n
    cases n <;> simpa
  · intro n
    cases n <;> simpa

theorem append (hfirst : Stays weight low high first)
    (hsecond : Stays weight (low - drift weight first) (high - drift weight first) second) :
    Stays weight low high (first ++ second) := by
  constructor
  · intro n
    rcases drift_take_append weight first second n with hin | ⟨m, hin⟩
    · rw [hin]
      exact hfirst.low_le n
    · have := hsecond.low_le m
      omega
  · intro n
    rcases drift_take_append weight first second n with hin | ⟨m, hin⟩
    · rw [hin]
      exact hfirst.le_high n
    · have := hsecond.le_high m
      omega

/-- No steps in a row rise or fall by more than the bounds are apart. -/
theorem drift_stretch (hstays : Stays weight low high first) (place length : Nat) :
    low - high ≤ drift weight ((first.drop place).take length) ∧
      drift weight ((first.drop place).take length) ≤ high - low := by
  have htake := congrArg (drift weight) (List.take_add (l := first) (i := place) (j := length))
  rw [drift_append] at htake
  have hbefore := And.intro (hstays.low_le place) (hstays.le_high place)
  have hafter := And.intro (hstays.low_le (place + length)) (hstays.le_high (place + length))
  omega

theorem neg (hstays : Stays weight low high first) : Stays (-weight) (-high) (-low) first := by
  constructor
  · intro n
    rw [drift_neg]
    exact Int.neg_le_neg (hstays.le_high n)
  · intro n
    rw [drift_neg]
    exact Int.neg_le_neg (hstays.low_le n)

/-- A word that rises, some times in a row. -/
theorem replicate {rise : Nat} (hstays : Stays weight low (high + rise) first)
    (hrise : drift weight first = rise) (hhigh : 0 ≤ high) (count : Nat) :
    Stays weight low (high + count * rise) (List.replicate count first).flatten := by
  induction count with
  | zero =>
      have hlow := hstays.low_nonpos
      constructor <;> simpa
  | succ count ih =>
      have hrest : (0 : Int) ≤ count * rise := by positivity
      have hsucc : ((count + 1 : Nat) * rise : Int) = count * rise + rise := by
        rw [Nat.cast_succ, Int.add_mul, Int.one_mul]
      rw [List.replicate_succ, List.flatten_cons, hsucc]
      apply append
      · exact hstays.mono (Int.le_refl low) (by omega)
      · rw [hrise]
        exact ih.mono (by omega) (by omega)

end Stays

/-- Groups of two words, so many leading ones and so many left over, that are spread fairly over some
steps. A leading word may rise above the bound that holds where it starts, a word that is left over
may fall below, but no further than to where it ends. -/
structure Fair (weight : Bool → Int) (steps : Int) (leading leftOver : List Bool)
    (lead left : Nat) : Prop where
  rises : drift weight leading = left
  falls : drift weight leftOver = -lead
  bounds : ∃ low high, high - low ≤ steps - lead - left ∧
    Stays weight low (high + left) leading ∧ Stays weight (low - lead) high leftOver

variable {steps : Int} {leading leftOver : List Bool} {lead left : Nat}

/-- When the leading groups are no more than those left over, each takes one of them. -/
theorem Fair.join_of_le (hfair : Fair weight steps leading leftOver lead left)
    (hle : lead ≤ left) :
    Fair weight steps (leading ++ leftOver) leftOver lead (left - lead) := by
  obtain ⟨hrises, hfalls, low, high, hspan, hleading, hleftOver⟩ := hfair
  refine ⟨?_, hfalls, low, high + lead, by omega, ?_, ?_⟩
  · rw [drift_append]
    omega
  · apply Stays.append
    · exact hleading.mono (Int.le_refl low) (by omega)
    · rw [hrises]
      exact hleftOver.mono (by omega) (by omega)
  · exact hleftOver.mono (Int.le_refl _) (by omega)

/-- When the leading groups are more than those left over, the others become the groups left over. -/
theorem Fair.join_of_lt (hfair : Fair weight steps leading leftOver lead left)
    (hlt : left < lead) :
    Fair (-weight) steps (leading ++ leftOver) leading left (lead - left) := by
  obtain ⟨hrises, hfalls, low, high, hspan, hleading, hleftOver⟩ := hfair
  refine ⟨?_, ?_, -(high + left), -low, by omega, ?_, ?_⟩
  · rw [drift_neg, drift_append]
    omega
  · rw [drift_neg, hrises]
  · have hjoined : Stays weight (low - (lead - left)) (high + left) (leading ++ leftOver) := by
      apply Stays.append
      · exact hleading.mono (by omega) (Int.le_refl _)
      · rw [hrises]
        exact hleftOver.mono (by omega) (by omega)
    exact hjoined.neg.mono (Int.le_refl _) (by omega)
  · exact hleading.neg.mono (by omega) (Int.le_refl _)

/-- With at most one group left over, the groups in a row drift by less than the steps. -/
theorem Fair.stays_of_le_one (hfair : Fair weight steps leading leftOver lead left)
    (hlead : 0 < lead) (hfew : left ≤ 1) :
    ∃ low high, high - low < steps ∧
      Stays weight low high
        (List.replicate lead leading ++ List.replicate left leftOver).flatten := by
  obtain ⟨hrises, hfalls, low, high, hspan, hleading, hleftOver⟩ := hfair
  have hrow := hleading.replicate hrises hleftOver.high_nonneg lead
  rw [List.flatten_append]
  rcases Nat.le_one_iff_eq_zero_or_eq_one.mp hfew with rfl | rfl
  · refine ⟨low, high, by omega, ?_⟩
    simpa using hrow
  · have hdrift : drift weight (List.replicate lead leading).flatten = lead := by
      rw [drift_flatten_replicate, hrises, Nat.cast_one, Int.mul_one]
    refine ⟨low, high + lead, by omega, ?_⟩
    apply Stays.append
    · simpa using hrow
    · rw [hdrift]
      simpa using hleftOver

/-- One round of the distribution pairs off as many groups as it can. -/
theorem distribute_replicate {leading leftOver : List Bool} (hlead : 0 < lead) (hmany : 1 < left) :
    distribute (List.replicate lead leading) (List.replicate left leftOver) =
      distribute (List.zipWith (· ++ ·) (List.replicate lead leading)
        (List.replicate left leftOver)) ((List.replicate lead leading).drop left ++
          (List.replicate left leftOver).drop lead) := by
  have hnonempty : List.replicate lead leading ≠ [] := by
    simpa using Nat.ne_of_gt hlead
  rw [distribute, if_pos ⟨hnonempty, by simpa using hmany⟩, List.length_replicate,
    List.length_replicate]

theorem distribute_replicate_of_le (leading leftOver : List Bool) (hlead : 0 < lead)
    (hle : lead ≤ left) (hmany : 1 < left) :
    distribute (List.replicate lead leading) (List.replicate left leftOver) =
      distribute (List.replicate lead (leading ++ leftOver))
        (List.replicate (left - lead) leftOver) := by
  have hnone : (List.replicate lead leading).drop left = [] := by
    rw [List.drop_replicate, Nat.sub_eq_zero_of_le hle, List.replicate_zero]
  calc
    _ = distribute (List.zipWith (· ++ ·) (List.replicate lead leading)
          (List.replicate left leftOver)) ((List.replicate lead leading).drop left ++
            (List.replicate left leftOver).drop lead) := distribute_replicate hlead hmany
    _ = distribute (List.replicate lead (leading ++ leftOver))
          ((List.replicate left leftOver).drop lead) := by
      rw [hnone, List.nil_append, List.zipWith_replicate, Nat.min_eq_left hle]
    _ = distribute (List.replicate lead (leading ++ leftOver))
          (List.replicate (left - lead) leftOver) := by
      rw [List.drop_replicate]

theorem distribute_replicate_of_lt (leading leftOver : List Bool) (hlt : left < lead)
    (hmany : 1 < left) :
    distribute (List.replicate lead leading) (List.replicate left leftOver) =
      distribute (List.replicate left (leading ++ leftOver))
        (List.replicate (lead - left) leading) := by
  have hle : left ≤ lead := Nat.le_of_lt hlt
  have hnone : (List.replicate left leftOver).drop lead = [] := by
    rw [List.drop_replicate, Nat.sub_eq_zero_of_le hle, List.replicate_zero]
  calc
    _ = distribute (List.zipWith (· ++ ·) (List.replicate lead leading)
          (List.replicate left leftOver)) ((List.replicate lead leading).drop left ++
            (List.replicate left leftOver).drop lead) :=
      distribute_replicate (Nat.zero_lt_of_lt hlt) hmany
    _ = distribute (List.replicate left (leading ++ leftOver))
          ((List.replicate lead leading).drop left) := by
      rw [hnone, List.append_nil, List.zipWith_replicate, Nat.min_eq_right hle]
    _ = distribute (List.replicate left (leading ++ leftOver))
          (List.replicate (lead - left) leading) := by
      rw [List.drop_replicate]

theorem distribute_replicate_of_le_one (leading leftOver : List Bool) (lead : Nat)
    (hfew : left ≤ 1) :
    distribute (List.replicate lead leading) (List.replicate left leftOver) =
      List.replicate lead leading ++ List.replicate left leftOver := by
  rw [distribute, if_neg]
  rintro ⟨-, hmany⟩
  rw [List.length_replicate] at hmany
  exact Nat.not_lt.mpr hfew hmany

/-- Groups that are spread fairly come to a word that drifts by less than the steps. -/
theorem Fair.exists_stays (hfair : Fair weight steps leading leftOver lead left)
    (hlead : 0 < lead) :
    ∃ low high, high - low < steps ∧
      Stays weight low high
        (distribute (List.replicate lead leading) (List.replicate left leftOver)).flatten := by
  -- Each round leaves fewer groups, and the words of the next round are spread fairly again.
  induction hgroups : lead + left using Nat.strong_induction_on
    generalizing weight leading leftOver lead left with
  | h groups ih =>
      by_cases hfew : left ≤ 1
      · rw [distribute_replicate_of_le_one leading leftOver lead hfew]
        exact hfair.stays_of_le_one hlead hfew
      have hmany : 1 < left := Nat.not_le.mp hfew
      rcases Nat.lt_or_ge left lead with hlt | hle
      · rw [distribute_replicate_of_lt leading leftOver hlt hmany]
        obtain ⟨low, high, hspan, hstays⟩ :=
          ih (left + (lead - left)) (by omega) (hfair.join_of_lt hlt) (by omega) rfl
        refine ⟨-high, -low, by omega, ?_⟩
        simpa using hstays.neg
      · rw [distribute_replicate_of_le leading leftOver hlead hle hmany]
        exact ih (lead + (left - lead)) (by omega) (hfair.join_of_le hle) hlead rfl

/-- Weights by which a rhythm is compared with pulses at a steady pace. -/
def paceWeight (pulses steps : Int) (isPlayed : Bool) : Int :=
  if isPlayed then steps - pulses else -pulses

theorem drift_paceWeight (pulses steps : Int) (word : List Bool) :
    drift (paceWeight pulses steps) word = word.count true * steps - word.length * pulses := by
  induction word with
  | nil => simp
  | cons isPlayed rest ih =>
      simp only [drift, List.map_cons, List.sum_cons, List.length_cons] at ih ⊢
      rw [ih]
      cases isPlayed <;> simp [paceWeight] <;> ring

/-- The onsets and the silent steps that distribution starts from are spread fairly. -/
theorem fair_start {pulses steps : Int} (hpulses : 0 < pulses) (hsteps : pulses ≤ steps) :
    Fair (paceWeight pulses steps) steps [true] [false] pulses.toNat (steps - pulses).toNat := by
  have hlead : (pulses.toNat : Int) = pulses := Int.toNat_of_nonneg (by omega)
  have hleft : ((steps - pulses).toNat : Int) = steps - pulses := Int.toNat_of_nonneg (by omega)
  have hplayed : paceWeight pulses steps true = steps - pulses := rfl
  have hsilent : paceWeight pulses steps false = -pulses := rfl
  refine ⟨?_, ?_, 0, 0, by omega, ?_, ?_⟩
  · rw [drift_singleton, hplayed, hleft]
  · rw [drift_singleton, hsilent, hlead]
  · apply Stays.singleton <;> omega
  · apply Stays.singleton <;> omega

/-- A rhythm drifts by less than its steps, also when it is played twice. -/
theorem exists_stays_euclidean {pulses steps : Int} {rhythm : List Bool} (hpulses : 0 < pulses)
    (hsteps : pulses ≤ steps) (hrhythm : euclidean pulses steps = .ok rhythm) :
    ∃ low high, high - low < steps ∧
      Stays (paceWeight pulses steps) low high (rhythm ++ rhythm) := by
  have hplayable : ¬ IsRefused pulses steps := by
    unfold IsRefused
    omega
  obtain ⟨hlength, hcount⟩ := length_and_count_euclidean hplayable hrhythm
  rw [euclidean_of_pos hpulses hsteps] at hrhythm
  obtain ⟨low, high, hspan, hstays⟩ :=
    (fair_start hpulses hsteps).exists_stays (by omega)
  rw [Except.ok.inj hrhythm] at hstays
  have hround : drift (paceWeight pulses steps) rhythm = 0 := by
    rw [drift_paceWeight, hlength, hcount, Int.mul_comm, Int.sub_self]
  refine ⟨low, high, hspan, hstays.append ?_⟩
  simpa [hround] using hstays

/-! ## Onsets in a stretch of a rhythm -/

/-- Number of onsets among some steps in a row from a step on, going round at the end of the rhythm.
Any integer names a step. -/
def onsetsFrom (rhythm : List Bool) (start : Int) (length : Nat) : Nat :=
  ((List.range length).map fun i : Nat => rhythm[((start + i) % rhythm.length).toNat]?).count
    (some true)

/-- The step that comes some steps after another one, going round at most once, is found where the
rhythm is written twice. -/
theorem getElem?_twice {rhythm : List Bool} (start : Int) {i : Nat} (hi : i < rhythm.length) :
    (rhythm ++ rhythm)[(start % rhythm.length).toNat + i]? =
      rhythm[((start + i) % rhythm.length).toNat]? := by
  have hpositive : (0 : Int) < rhythm.length := by omega
  have hlow := Int.emod_nonneg start (Int.ne_of_gt hpositive)
  have hhigh := Int.emod_lt_of_pos start hpositive
  rw [Int.add_emod, Int.emod_eq_of_lt (b := rhythm.length) (by omega : (0 : Int) ≤ i) (by omega)]
  generalize start % rhythm.length = place at hlow hhigh
  rcases Int.lt_or_le (place + i) rhythm.length with hin | hround
  · rw [Int.emod_eq_of_lt (by omega) hin, List.getElem?_append_left (by omega)]
    congr 1
    omega
  · rw [← Int.sub_emod_right, Int.emod_eq_of_lt (by omega) (by omega),
      List.getElem?_append_right (by omega)]
    congr 1
    omega

/-- Steps in a row, going round at most once, stand in a row where the rhythm is written twice. -/
theorem onsetsFrom_eq_count {rhythm : List Bool} (start : Int) {length : Nat}
    (hlength : length ≤ rhythm.length) :
    onsetsFrom rhythm start length =
      (((rhythm ++ rhythm).drop (start % rhythm.length).toNat).take length).count true := by
  have hsteps : (((rhythm ++ rhythm).drop (start % rhythm.length).toNat).take length).map some =
      (List.range length).map fun i : Nat => rhythm[((start + i) % rhythm.length).toNat]? := by
    apply List.ext_getElem?
    intro i
    rw [List.getElem?_map, List.getElem?_map, List.getElem?_take]
    by_cases hi : i < length
    · have hin : i < rhythm.length := by omega
      rw [if_pos hi, List.getElem?_drop, getElem?_twice start hin, List.getElem?_range hi]
      have hplace : ((start + i) % rhythm.length).toNat < rhythm.length := by
        have hpositive : (0 : Int) < rhythm.length := by omega
        have hhigh := Int.emod_lt_of_pos (start + i) hpositive
        omega
      simp [List.getElem?_eq_getElem hplace]
    · simp [hi]
  rw [onsetsFrom, ← hsteps, List.count_map_of_injective _ some (Option.some_injective Bool)]

/-- A whole number within one of another number is the other one rounded down or up. -/
theorem eq_floor_or_eq_ceil {n : Int} {x : ℚ} (hlow : x - 1 < n) (hhigh : n < x + 1) :
    n = ⌊x⌋ ∨ n = ⌈x⌉ := by
  rcases le_total (n : ℚ) x with hle | hle
  · left
    exact (Int.floor_eq_iff.mpr ⟨hle, by linarith⟩).symm
  · right
    exact (Int.ceil_eq_iff.mpr ⟨by linarith, hle⟩).symm

/-- Any steps of a rhythm in a row have as many onsets as a steady pace has there, rounded down or
up. -/
theorem onsetsFrom_euclidean {pulses steps : Int} (hpulses : 0 < pulses) (hsteps : pulses ≤ steps) :
    ∃ rhythm, euclidean pulses steps = .ok rhythm ∧
      ∀ (start : Int) (length : Nat), (length : Int) ≤ steps →
        (onsetsFrom rhythm start length : Int) = ⌊(length * pulses : ℚ) / steps⌋ ∨
          (onsetsFrom rhythm start length : Int) = ⌈(length * pulses : ℚ) / steps⌉ := by
  have hplayable : ¬ IsRefused pulses steps := by
    unfold IsRefused
    omega
  obtain ⟨rhythm, hrhythm⟩ := exists_euclidean hplayable
  obtain ⟨hlength, -⟩ := length_and_count_euclidean hplayable hrhythm
  obtain ⟨low, high, hspan, hstays⟩ := exists_stays_euclidean hpulses hsteps hrhythm
  refine ⟨rhythm, hrhythm, ?_⟩
  intro start length hle
  rw [onsetsFrom_eq_count start (by omega)]
  have hpositive : (0 : Int) < rhythm.length := by omega
  have hplace : (start % rhythm.length).toNat < rhythm.length := by
    have hlt := Int.emod_lt_of_pos start hpositive
    omega
  have hdrift := hstays.drift_stretch (start % rhythm.length).toNat length
  generalize hstretch :
    ((rhythm ++ rhythm).drop (start % rhythm.length).toNat).take length = stretch at hdrift ⊢
  have hsize : stretch.length = length := by
    rw [← hstretch, List.length_take, List.length_drop, List.length_append]
    omega
  rw [drift_paceWeight, hsize] at hdrift
  have hpace : (0 : ℚ) < steps := by
    have hpositive : 0 < steps := by omega
    exact_mod_cast hpositive
  have hbehind : length * pulses - steps < stretch.count true * steps := by omega
  have hahead : stretch.count true * steps < length * pulses + steps := by omega
  apply eq_floor_or_eq_ceil
  · rw [div_sub_one hpace.ne', div_lt_iff₀ hpace]
    exact_mod_cast hbehind
  · rw [div_add_one hpace.ne', lt_div_iff₀ hpace]
    exact_mod_cast hahead

theorem onsetsFrom_euclidean_of_three_in_eight :
    (0 : Int) < 3 ∧ (3 : Int) ≤ 8 ∧ ((5 : Nat) : Int) ≤ 8 ∧
      ∃ rhythm, euclidean 3 8 = .ok rhythm ∧
        (onsetsFrom rhythm 6 5 = 1 ∨ onsetsFrom rhythm 6 5 = 2) := by
  refine ⟨by decide, by decide, by decide, ?_⟩
  obtain ⟨rhythm, hrhythm, hstretches⟩ :=
    onsetsFrom_euclidean (show (0 : Int) < 3 by decide) (show (3 : Int) ≤ 8 by decide)
  refine ⟨rhythm, hrhythm, ?_⟩
  have hfloor : ⌊((5 : Nat) * (3 : Int) : ℚ) / (8 : Int)⌋ = 1 := by norm_num
  have hceil : ⌈((5 : Nat) * (3 : Int) : ℚ) / (8 : Int)⌉ = 2 := by norm_num
  have hstretch := hstretches 6 5 (by decide)
  rw [hfloor, hceil] at hstretch
  exact_mod_cast hstretch

end CyclePattern.Rhythm
