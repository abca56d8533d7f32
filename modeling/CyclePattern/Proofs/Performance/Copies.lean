/-
# Repeats and copies

A sound with a number of repeats and a number of copies divides its window at once, into as many
parts as there are copies in all repeats. These are the same parts as those that come of dividing
the window among the repeats first and each repeat among its copies. So it makes no difference
whether a sound has its repeats by itself or stands alone in a group that is repeated, and repeats
and copies can change places. A rhythm is played inside every part, and therefore takes no notice of
how the part came about.
-/

import CyclePattern.Proofs.Performance.Rounds
import CyclePattern.Proofs.Performance.Safety

namespace CyclePattern

theorem range_mul (m n : Nat) :
    List.range (m * n) = (List.range m).flatMap fun i => (List.range n).map (i * n + ·) := by
  induction m with
  | zero => simp
  | succ m ih =>
      calc
        _ = List.range (m * n) ++ (List.range n).map (m * n + ·) := by
          rw [Nat.succ_mul, List.range_add]
        _ = ((List.range m).flatMap fun i => (List.range n).map (i * n + ·)) ++
              (List.range n).map (m * n + ·) := by rw [ih]
        _ = (List.range (m + 1)).flatMap fun i => (List.range n).map (i * n + ·) := by
          rw [List.range_succ, List.flatMap_append, List.flatMap_singleton]

namespace Window

variable {first second : Int}

/-- Parts of the parts of a window are parts of the window. -/
theorem slot_slot (window : Window Rat) (hfirst : 0 < first) (hsecond : 0 < second)
    (part index : Nat) :
    (window.slot (window.duration / first) part).slot (window.duration / first / second) index =
      window.slot (window.duration / (first * second : Int)) (part * second.toNat + index) := by
  have hcount : ((second.toNat : Nat) : Rat) = second := by
    exact_mod_cast Int.toNat_of_nonneg hsecond.le
  have hne : (first : Rat) ≠ 0 := by exact_mod_cast hfirst.ne'
  have hne' : (second : Rat) ≠ 0 := by exact_mod_cast hsecond.ne'
  simp only [slot, Measure.ofInt_rat, mk.injEq]
  push_cast
  rw [hcount]
  constructor
  · field_simp
    ring
  · rw [div_div]

/-- A window that is divided among all copies at once is divided among the repeats, and each of
these among its copies. -/
theorem slots_mul (window : Window Rat) (hfirst : 0 < first) (hsecond : 0 < second) :
    (List.range (first * second).toNat).map
        (window.slot (window.duration / (first * second : Int))) =
      (List.range first.toNat).flatMap fun part => (List.range second.toNat).map
        ((window.slot (window.duration / first) part).slot (window.duration / first / second)) := by
  rw [Int.toNat_mul hfirst.le hsecond.le, range_mul, List.map_flatMap]
  congr 1
  funext part
  rw [List.map_map]
  exact List.map_congr_left fun index _ => (slot_slot window hfirst hsecond part index).symm

end Window

namespace Atom

variable {α : Type}

/-- The sound with other numbers of repeats and copies. -/
def times (sound : Atom α) (repeats copies : Option Int) : Atom α :=
  { sound with repeats := repeats, copies := copies }

theorem inRange_times [LT α] [LE α] [OfNat α 0] [OfNat α 1] {sound : Atom α}
    (hsound : sound.InRange) {repeats copies : Option Int} (hrepeats : ∀ n ∈ repeats, 1 ≤ n)
    (hcopies : ∀ n ∈ copies, 1 ≤ n) : (sound.times repeats copies).InRange :=
  { hsound with repeats := hrepeats, copies := hcopies }

theorem map_times {β : Type} (f : α → β) (sound : Atom α) (repeats copies : Option Int) :
    (sound.times repeats copies).map f = (sound.map f).times repeats copies :=
  rfl

theorem copyCount_times (sound : Atom α) {a b : Int} (ha : 1 ≤ a) (hb : 1 ≤ b) :
    (sound.times (some a) (some b)).copyCount = a * b := by
  rw [copyCount, times, Node.countOf_some ha, Node.countOf_some hb]

theorem copyCount_times_none (sound : Atom α) {b : Int} (hb : 1 ≤ b) :
    (sound.times none (some b)).copyCount = b := by
  rw [copyCount, times, Node.countOf_some hb, countOf, Int.one_mul]

/-- Repeats and copies can change places, whatever the numbers are. -/
theorem events_times_swap [Measure α] (sound : Atom α) (repeats copies : Option Int) (span : Span)
    (window : Window α) :
    (sound.times repeats copies).events span window =
      (sound.times copies repeats).events span window := by
  have hcount : (sound.times repeats copies).copyCount = (sound.times copies repeats).copyCount :=
    Int.mul_comm _ _
  rw [events, events, hcount]
  rfl

/-- A sound is played with its copies in each of its repeats. -/
theorem events_times (sound : Atom Rat) {a b : Int} (ha : 1 ≤ a) (hb : 1 ≤ b) (span : Span)
    (window : Window Rat) :
    (sound.times (some a) (some b)).events span window =
      (List.range a.toNat).flatMapM fun part =>
        (sound.times none (some b)).events span (window.slot (window.duration / a) part) := by
  have hfirst : 0 < a := by omega
  have hsecond : 0 < b := by omega
  rw [events, copyCount_times sound ha hb, Window.split_rat window (Int.mul_pos hfirst hsecond),
    Window.slots_mul window hfirst hsecond]
  show ((List.range a.toNat).flatMap _).flatMapM _ = _
  rw [flatMapM_flatMap]
  apply flatMapM_congr
  intro part _
  rw [events, copyCount_times_none sound hb, Window.split_rat _ hsecond]
  rfl

end Atom

namespace Node

variable {sound : Atom Rat} {a b : Int}

theorem perform_atom {α : Type} [Measure α] (sound : Atom α) (span : Span) (window : Window α) :
    (atom sound span).perform window = sound.events span window := by
  have hparts : (atom sound span).parts window = .ok [] := rfl
  have hown : (atom sound span).ownEvents window = sound.events span window := rfl
  rw [perform_of_parts hparts, hown]
  cases sound.events span window with
  | error fault => rfl
  | ok events => exact congrArg Except.ok (List.append_nil events)

/-- A sound that stands alone has the whole window, whatever it weighs. -/
theorem perform_alone (hweight : 0 < sound.weight) (span : Span) (window : Window Rat) :
    (sequence [atom sound span]).perform window = (atom sound span).perform window := by
  have htotal : Measure.sum [sound.weight] = sound.weight := by
    rw [sum_rat, List.sum_singleton]
  have hnonzero : Measure.isZero sound.weight = false := LawfulMeasure.isZero_eq_false hweight
  have hshare : sound.weight / sound.weight * window.duration = window.duration := by
    rw [div_self hweight.ne', one_mul]
  have hparts : (sequence [atom sound span]).parts window = .ok [(atom sound span, window)] := by
    simp [parts, sequenceParts, weightedItems, hold, ownWeight, asItem, layout, htotal, hnonzero,
      hshare]
  exact perform_of_single hparts rfl fun _ => rfl

/-- A group is played in each of its repeats. -/
theorem perform_repeated (inner : Node Rat) (ha : 1 ≤ a) (span : Span) (window : Window Rat) :
    (subdivision inner (some a) none none span).perform window =
      (List.range a.toNat).flatMapM fun part =>
        inner.perform (window.slot (window.duration / a) part) := by
  have hparts : (subdivision inner (some a) none none span).parts window =
      .ok ((List.range a.toNat).map fun part =>
        (inner, window.slot (window.duration / a) part)) := by
    rw [parts, repeatedParts, countOf_some ha, Window.split_rat window (by omega)]
    simp [Except.map]
  rw [perform_of_plain hparts rfl fun _ => rfl, flatMapM_comp]

/-- A sound that is repeated plays its copies in each of its repeats. -/
theorem perform_times (sound : Atom Rat) (ha : 1 ≤ a) (hb : 1 ≤ b) (span : Span)
    (window : Window Rat) :
    (atom (sound.times (some a) (some b)) span).perform window =
      (List.range a.toNat).flatMapM fun part =>
        (atom (sound.times none (some b)) span).perform
          (window.slot (window.duration / a) part) := by
  rw [perform_atom, Atom.events_times sound ha hb]
  exact flatMapM_congr fun part _ => (perform_atom _ span _).symm

/-- Repeats of a sound are those of a group in which it stands alone. -/
theorem perform_times_eq_group (hweight : 0 < sound.weight) (ha : 1 ≤ a) (hb : 1 ≤ b)
    (span other : Span) (window : Window Rat) :
    (atom (sound.times (some a) (some b)) span).perform window =
      (subdivision (sequence [atom (sound.times none (some b)) span]) (some a) none none
        other).perform window := by
  have hlone : 0 < (sound.times none (some b)).weight := hweight
  rw [perform_times sound ha hb, perform_repeated _ ha]
  exact flatMapM_congr fun part _ => (perform_alone hlone span _).symm

/-- A sound with its numbers in range is played with exact numbers. -/
theorem exists_perform_atom (hsound : sound.InRange) (span : Span) (window : Window Rat) :
    ∃ events, (atom sound span).perform window = .ok events := by
  apply exists_perform
  intro m hm
  rw [hm.eq_of_isLeaf trivial]
  exact hsound

/-- A sound that is repeated and copied is played, and plays the same when the two numbers change
places, when its copies are played in each of its repeats in turn, and when it stands with its
copies alone in a group that is repeated. -/
theorem perform_exact_times {sound : Atom Float} {span : Span} (hsound : sound.InRange)
    (hfinite : (atom sound span).IsFinite) {a b : Int} (ha : 1 ≤ a) (hb : 1 ≤ b)
    (window : Window Rat) (other : Span) :
    ∃ events,
      (atom (sound.times (some a) (some b)) span).exact.perform window = .ok events ∧
      (atom (sound.times (some b) (some a)) span).exact.perform window = .ok events ∧
      ((List.range a.toNat).flatMapM fun i : Nat =>
        (atom (sound.times none (some b)) span).exact.perform
          ⟨window.start + i * window.duration / a, window.duration / a⟩) = .ok events ∧
      (subdivision (sequence [atom (sound.times none (some b)) span]) (some a) none none
        other).exact.perform window = .ok events := by
  have hexact : (sound.map exactValue).InRange := inRange_exact hsound (hfinite _ (.refl _))
  have hatom : ∀ repeats copies, (atom (sound.times repeats copies) span).exact =
      atom ((sound.map exactValue).times repeats copies) span := fun _ _ => rfl
  have hgroup : (subdivision (sequence [atom (sound.times none (some b)) span]) (some a) none none
      other).exact =
        subdivision (sequence [atom ((sound.map exactValue).times none (some b)) span]) (some a)
          none none other := by
    simp [exact, map, Atom.map_times]
  have hpart : ∀ i : Nat, (⟨window.start + i * window.duration / a, window.duration / a⟩ :
      Window Rat) = window.slot (window.duration / a) i := by
    intro i
    rw [mul_div_assoc]
    rfl
  have hcounts : ∀ {n : Int}, 1 ≤ n → ∀ m ∈ some n, 1 ≤ m := by
    rintro n hn m ⟨⟩
    exact hn
  obtain ⟨events, hevents⟩ :=
    exists_perform_atom (Atom.inRange_times hexact (hcounts ha) (hcounts hb)) span window
  simp only [hatom, hgroup, hpart]
  refine ⟨events, hevents, ?_, ?_, ?_⟩
  · rw [perform_atom, Atom.events_times_swap, ← perform_atom, hevents]
  · rw [← perform_times _ ha hb, hevents]
  · rw [← perform_times_eq_group hexact.weight ha hb, hevents]

/-- The sound `a(3,8,1)`. -/
def rhythmicSound : Atom Float :=
  .ofModifiers ['a'] { Modifiers.none with euclid := some ⟨3, 8, 1⟩ } []

/-- The rhythm is played three times in each half of a window, and that is twice in each third. -/
theorem perform_exact_times_of_rhythm :
    ∃ events,
      (atom (rhythmicSound.times (some 2) (some 3)) (.between 0 8)).exact.perform ⟨1 / 2, 1 / 3⟩ =
        .ok events ∧
      (atom (rhythmicSound.times (some 3) (some 2)) (.between 0 8)).exact.perform ⟨1 / 2, 1 / 3⟩ =
        .ok events ∧
      (subdivision (sequence [atom (rhythmicSound.times none (some 3)) (.between 0 8)]) (some 2)
        none none (.between 0 12)).exact.perform ⟨1 / 2, 1 / 3⟩ = .ok events := by
  have hrhythm : (⟨3, 8, 1⟩ : Euclid).InRange := ⟨by decide, by decide⟩
  have hmodifiers : ({ Modifiers.none with euclid := some ⟨3, 8, 1⟩ } : Modifiers).InRange :=
    { Modifiers.inRange_none with euclid := by rintro rhythm ⟨⟩; exact hrhythm }
  have hsound : rhythmicSound.InRange :=
    Atom.inRange_ofModifiers (List.cons_ne_nil _ _) hmodifiers Controls.known_nil
  have hone : (Measure.one : Float).isFinite = true := by decide +kernel
  have hfinite : (atom rhythmicSound (.between 0 8)).IsFinite := by
    intro m hm
    rw [hm.eq_of_isLeaf trivial]
    simp [numbers, rhythmicSound, Atom.ofModifiers, Modifiers.none, hone]
  obtain ⟨events, htimes, hswapped, -, hgroup⟩ := perform_exact_times hsound hfinite
    (show (1 : Int) ≤ 2 by decide) (show (1 : Int) ≤ 3 by decide) ⟨1 / 2, 1 / 3⟩ (.between 0 12)
  exact ⟨events, htimes, hswapped, hgroup⟩

end Node

end CyclePattern
