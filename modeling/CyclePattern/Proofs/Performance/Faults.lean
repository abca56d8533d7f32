/-
# When a tree cannot be played

A well-formed tree gives playing one occasion to fail: a window has to be divided by a count that is
beyond every number of its kind. Weights and ratios are positive, so nothing is divided by zero, and
no rhythm has more pulses than steps.

Faults pass from the parts of a node to the node, and a part that fails takes the whole tree with
it. So what is shown for the steps of playing one node carries over to trees: by induction on their
size that nothing else fails, and along the way to a node that it does fail.
-/

import CyclePattern.Proofs.Number.Positive
import CyclePattern.Proofs.Performance.Plays

namespace CyclePattern

variable {α β γ : Type} {large : Prop}

/-- The computation has no value. -/
def Fails (result : Except Fault β) : Prop :=
  ∃ fault, result = .error fault

namespace Fails

theorem bind {result : Except Fault β} (hresult : Fails result) (next : β → Except Fault γ) :
    Fails (result >>= next) := by
  obtain ⟨fault, rfl⟩ := hresult
  exact ⟨fault, rfl⟩

theorem map {result : Except Fault β} (hresult : Fails result) (f : β → γ) :
    Fails (result.map f) := by
  obtain ⟨fault, rfl⟩ := hresult
  exact ⟨fault, rfl⟩

/-- Where nothing comes of any value, nothing comes of the computation. -/
theorem bind_of_forall {result : Except Fault β} {next : β → Except Fault γ}
    (hnext : ∀ value, result = .ok value → Fails (next value)) : Fails (result >>= next) := by
  cases result with
  | error fault => exact ⟨fault, rfl⟩
  | ok value => exact hnext value rfl

theorem flatMapM_loop {f : β → Except Fault (List γ)} {items : List β} {item : β}
    (hitem : item ∈ items) (hfails : Fails (f item)) (found : List (List γ)) :
    Fails (List.flatMapM.loop f items found) := by
  induction items generalizing found with
  | nil => cases hitem
  | cons first rest ih =>
      rw [List.flatMapM.loop]
      rcases List.mem_cons.mp hitem with rfl | hlater
      · exact hfails.bind _
      · apply bind_of_forall
        intro values _
        exact ih hlater (values :: found)

theorem flatMapM {f : β → Except Fault (List γ)} {items : List β} {item : β}
    (hitem : item ∈ items) (hfails : Fails (f item)) : Fails (items.flatMapM f) :=
  flatMapM_loop hitem hfails []

end Fails

/-- The only fault of a computation is a number that is too large, and there is none unless `large`
holds. -/
def FaultsOnly (large : Prop) (result : Except Fault β) : Prop :=
  ∀ fault, result = .error fault → fault = .number .tooLarge ∧ large

namespace FaultsOnly

theorem of_ok (large : Prop) (value : β) : FaultsOnly large (.ok value) := by
  intro fault hfault
  cases hfault

theorem of_eq_ok {result : Except Fault β} {value : β} (large : Prop)
    (hresult : result = .ok value) : FaultsOnly large result :=
  hresult ▸ of_ok large value

theorem mono {larger : Prop} {result : Except Fault β} (hresult : FaultsOnly large result)
    (himp : large → larger) : FaultsOnly larger result := by
  intro fault hfault
  obtain ⟨htoo, hlarge⟩ := hresult fault hfault
  exact ⟨htoo, himp hlarge⟩

theorem bind {result : Except Fault β} {next : β → Except Fault γ}
    (hresult : FaultsOnly large result)
    (hnext : ∀ value, result = .ok value → FaultsOnly large (next value)) :
    FaultsOnly large (result >>= next) := by
  cases result with
  | error fault =>
      intro other hother
      cases hother
      exact hresult fault rfl
  | ok value => exact hnext value rfl

theorem map {result : Except Fault β} (hresult : FaultsOnly large result) (f : β → γ) :
    FaultsOnly large (result.map f) := by
  cases result with
  | error fault =>
      intro other hother
      cases hother
      exact hresult fault rfl
  | ok value => exact of_ok large (f value)

theorem mapM {f : β → Except Fault γ} {items : List β}
    (hitems : ∀ item ∈ items, FaultsOnly large (f item)) : FaultsOnly large (items.mapM f) := by
  induction items with
  | nil => exact of_ok large []
  | cons first rest ih =>
      obtain ⟨hfirst, hrest⟩ := List.forall_mem_cons.mp hitems
      rw [List.mapM_cons]
      apply hfirst.bind
      intro value _
      apply (ih hrest).bind
      intro values _
      exact of_ok large (value :: values)

theorem flatMapM_loop {f : β → Except Fault (List γ)} {items : List β}
    (hitems : ∀ item ∈ items, FaultsOnly large (f item)) (found : List (List γ)) :
    FaultsOnly large (List.flatMapM.loop f items found) := by
  induction items generalizing found with
  | nil => exact of_ok large _
  | cons first rest ih =>
      obtain ⟨hfirst, hrest⟩ := List.forall_mem_cons.mp hitems
      rw [List.flatMapM.loop]
      apply hfirst.bind
      intro values _
      exact ih hrest (values :: found)

theorem flatMapM {f : β → Except Fault (List γ)} {items : List β}
    (hitems : ∀ item ∈ items, FaultsOnly large (f item)) :
    FaultsOnly large (items.flatMapM f) :=
  flatMapM_loop hitems []

/-- A computation that has to fail where it may fails exactly there. -/
theorem eq_error_iff {result : Except Fault β} (hresult : FaultsOnly large result)
    (hfails : large → Fails result) (fault : Fault) :
    result = .error fault ↔ fault = .number .tooLarge ∧ large := by
  constructor
  · exact hresult fault
  · intro ⟨htoo, hlarge⟩
    obtain ⟨other, hother⟩ := hfails hlarge
    rw [hother, htoo, (hresult other hother).1]

end FaultsOnly

section

variable [Measure α]

namespace Window

theorem fails_partLength (window : Window α) {count : Int}
    (hfits : Measure.fits α count = false) : Fails (window.partLength count) := by
  rw [partLength, hfits]
  exact ⟨.number .tooLarge, rfl⟩

theorem fails_split (window : Window α) {count : Int}
    (hfits : Measure.fits α count = false) : Fails (window.split count) :=
  (window.fails_partLength hfits).map _

end Window

variable [LT α] [LE α] [OfNat α 0] [OfNat α 1]

/-- A sound is not played if its number of copies or the steps of its rhythm are beyond every
measure. -/
theorem Atom.fails_events {sound : Atom α} {span : Span} (hsound : sound.InRange)
    (hlarge : (Node.atom sound span).HasLargeCount) (window : Window α) :
    Fails (sound.events span window) := by
  obtain ⟨count, hcount, hfits⟩ := hlarge
  rw [events]
  rcases List.mem_cons.mp hcount with rfl | hsteps
  · exact (window.fails_split hfits).bind _
  · obtain ⟨rhythm, hrhythm, rfl⟩ := Option.map_eq_some_iff.mp (Option.mem_toList.mp hsteps)
    apply Fails.bind_of_forall
    intro windows hwindows
    -- There is a first copy, and it fails.
    obtain ⟨length, -, rfl⟩ := Node.exists_of_map_eq_ok hwindows
    have hcopies := sound.copyCount_pos hsound
    have hfirst : 0 ∈ List.range sound.copyCount.toNat := List.mem_range.mpr (by omega)
    apply Fails.flatMapM (List.mem_map_of_mem hfirst)
    rw [copyEvents, hrhythm]
    apply Fails.bind_of_forall
    intro steps _
    exact (Window.fails_partLength _ hfits).bind _

namespace Node

/-- A node is not played if a count of its own is beyond every measure. -/
theorem fails_perform_of_hasLargeCount {n : Node α} (hn : n.WellFormed) (hlarge : n.HasLargeCount)
    (window : Window α) : Fails (n.perform window) := by
  rw [perform_eq]
  have ⟨count, hcount, hfits⟩ := hlarge
  cases n with
  | atom sound span =>
      apply Fails.bind_of_forall
      intro parts _
      exact (Atom.fails_events hn hlarge window).bind _
  | subdivision inner repeats division ratio span =>
      rw [List.mem_singleton.mp hcount] at hfits
      exact Fails.bind ((window.fails_split hfits).map _) _
  | alternation options repeats division span =>
      rw [List.mem_singleton.mp hcount] at hfits
      have hsplit := window.fails_split hfits
      cases options with
      | cons first others =>
          cases others with
          | nil => exact (hsplit.map _).bind _
          | cons second others =>
              apply Fails.bind_of_forall
              intro parts _
              exact (hsplit.map _).bind _
      | nil =>
          apply Fails.bind_of_forall
          intro parts _
          exact (hsplit.map _).bind _
  | polymetric groups steps span =>
      cases Option.mem_toList.mp hcount
      exact Fails.bind ((window.fails_partLength hfits).map _) _
  | _ => cases hcount

/-- Playing fails on the way to a node that is not played. -/
theorem fails_perform_of_plays {n m : Node α} {window : Window α} (hplays : n.Plays window m)
    (hn : ∀ d, n.Holds d → d.WellFormed) (hlarge : m.HasLargeCount) :
    Fails (n.perform window) := by
  induction hplays with
  | refl n window => exact fails_perform_of_hasLargeCount (hn n (.refl n)) hlarge window
  | part hfound hpart _ ih =>
      rw [perform_of_parts hfound]
      apply Fails.bind_of_forall
      intro own _
      apply Fails.bind
      apply Fails.flatMapM hpart
      apply ih _ hlarge
      intro d hd
      exact wellFormed_of_mem_parts hn hfound hpart hd

end Node

end

section

variable [Measure α] [LT α] [OfNat α 0] [LawfulMeasure α]

theorem quotient_eq_ok (x : α) {y : α} (hy : 0 < y) : quotient x y = .ok (x / y) := by
  rw [quotient, LawfulMeasure.isZero_eq_false hy]
  rfl

namespace Window

/-- A positive count divides a window if it fits. -/
theorem faultsOnly_partLength (window : Window α) {count : Int} (hcount : 0 < count) :
    FaultsOnly (Measure.fits α count = false) (window.partLength count) := by
  rw [partLength]
  split
  · exact .of_eq_ok _ (quotient_eq_ok window.duration (LawfulMeasure.ofInt_pos hcount))
  · next hfits =>
      intro fault hfault
      cases hfault
      exact ⟨rfl, by simpa using hfits⟩

end Window

namespace Node

variable [LE α] [OfNat α 1] {n : Node α} {count : Int}

theorem faultsOnly_partLength (hn : n.WellFormed) (hcount : count ∈ n.counts)
    (window : Window α) : FaultsOnly n.HasLargeCount (window.partLength count) := by
  apply (window.faultsOnly_partLength (pos_of_mem_counts hn hcount)).mono
  intro hlarge
  exact ⟨count, hcount, hlarge⟩

theorem faultsOnly_split (hn : n.WellFormed) (hcount : count ∈ n.counts)
    (window : Window α) : FaultsOnly n.HasLargeCount (window.split count) :=
  (faultsOnly_partLength hn hcount window).map _

end Node

namespace Measure

theorem one_pos : (0 : α) < Measure.one :=
  LawfulMeasure.ofInt_pos (by decide)

theorem foldl_add_pos {weights : List α} (hweights : ∀ x ∈ weights, 0 < x) {start : α}
    (hstart : 0 < start) : 0 < weights.foldl (· + ·) start := by
  induction weights generalizing start with
  | nil => exact hstart
  | cons x rest ih =>
      obtain ⟨hx, hrest⟩ := List.forall_mem_cons.mp hweights
      exact ih hrest (LawfulMeasure.add_pos hstart hx)

/-- Positive weights have a positive sum. -/
theorem sum_pos {weights : List α} (hne : weights ≠ []) (hweights : ∀ x ∈ weights, 0 < x) :
    0 < Measure.sum weights := by
  cases weights with
  | nil => contradiction
  | cons x rest =>
      obtain ⟨hx, hrest⟩ := List.forall_mem_cons.mp hweights
      exact foldl_add_pos hrest (LawfulMeasure.zero_add_pos hx)

end Measure

theorem hold_pos {weight : α} (hweight : 0 < weight) (nodes : List (Node α)) :
    0 < (Node.hold weight nodes).1 := by
  fun_induction Node.hold weight nodes with
  | case1 weight span tail ih => exact ih (LawfulMeasure.add_pos hweight Measure.one_pos)
  | case2 => exact hweight

variable [LE α] [OfNat α 1]

theorem ownWeight_pos {n : Node α} (hn : n.WellFormed) : 0 < n.ownWeight := by
  cases n with
  | atom sound span => exact hn.weight
  | _ => exact Measure.one_pos

theorem pos_of_mem_weightedItems {children : List (Node α)}
    (hchildren : ∀ child ∈ children, child.WellFormed) {item : Node α × α}
    (hitem : item ∈ Node.weightedItems children) : 0 < item.2 := by
  fun_induction Node.weightedItems children with
  | case1 => cases hitem
  | case2 child tail held ih =>
      obtain ⟨hchild, htail⟩ := List.forall_mem_cons.mp hchildren
      rcases List.mem_cons.mp hitem with rfl | hlater
      · exact hold_pos (ownWeight_pos hchild) tail
      · exact ih (fun other hother => htail other (Node.mem_of_mem_hold hother)) hlater

/-- The weights of a sequence with items do not come to nothing. -/
theorem sum_weights_pos {children : List (Node α)}
    (hchildren : ∀ child ∈ children, child.WellFormed)
    (hitems : Node.weightedItems children ≠ []) :
    0 < Measure.sum ((Node.weightedItems children).map (·.2)) := by
  apply Measure.sum_pos (by simpa using hitems)
  intro x hx
  obtain ⟨item, hitem, rfl⟩ := List.mem_map.mp hx
  exact pos_of_mem_weightedItems hchildren hitem

/-- A sequence always divides its window. -/
theorem faultsOnly_sequenceParts (large : Prop) {children : List (Node α)}
    (hchildren : ∀ child ∈ children, child.WellFormed) (window : Window α) :
    FaultsOnly large (Node.sequenceParts children window) := by
  rw [Node.sequenceParts]
  split
  · exact .of_ok large _
  next hitems =>
  have hsum := sum_weights_pos hchildren (by simpa using hitems)
  rw [LawfulMeasure.isZero_eq_false hsum]
  exact .of_ok large _

theorem exists_rotatedEuclidean {rhythm : Euclid} (hrhythm : rhythm.InRange) :
    ∃ steps, Rhythm.rotatedEuclidean rhythm.steps rhythm.pulses rhythm.rotation = .ok steps := by
  obtain ⟨hpulses, hsteps⟩ := hrhythm
  have hsome : ¬ rhythm.steps ≤ 0 := by omega
  have hrange : ¬ (rhythm.pulses < 0 ∨ rhythm.steps < rhythm.pulses) := by omega
  have hnonzero : ¬ rhythm.pulses = 0 := by omega
  rw [Rhythm.rotatedEuclidean, Rhythm.euclidean, if_neg hsome, if_neg hrange, if_neg hnonzero]
  exact ⟨_, rfl⟩

namespace Atom

variable {sound : Atom α}

theorem faultsOnly_event (large : Prop) (hsound : sound.InRange) (span : Span)
    (window : Window α) : FaultsOnly large (sound.event span window) := by
  apply FaultsOnly.map
  rw [eventControls]
  cases hratio : sound.ratio with
  | none => exact .of_ok large _
  | some ratio =>
      have hpositive := hsound.ratio ratio hratio
      exact (FaultsOnly.of_eq_ok large (quotient_eq_ok Measure.one hpositive)).map _

theorem faultsOnly_copyEvents (hsound : sound.InRange) (span : Span) (window : Window α) :
    FaultsOnly (Node.atom sound span).HasLargeCount (sound.copyEvents span window) := by
  rw [copyEvents]
  cases heuclid : sound.euclid with
  | none => exact (faultsOnly_event _ hsound span window).map _
  | some rhythm =>
      obtain ⟨steps, hsteps⟩ := exists_rotatedEuclidean (hsound.euclid rhythm heuclid)
      have hformed : (Node.atom sound span).WellFormed := hsound
      have hcount : rhythm.steps ∈ (Node.atom sound span).counts := by
        simp [Node.counts, heuclid]
      simp only [hsteps]
      apply (FaultsOnly.of_ok _ steps).bind
      intro _ _
      apply (Node.faultsOnly_partLength hformed hcount window).bind
      intro length _
      apply FaultsOnly.mapM
      intro onset _
      exact faultsOnly_event _ hsound span _

theorem faultsOnly_events (hsound : sound.InRange) (span : Span) (window : Window α) :
    FaultsOnly (Node.atom sound span).HasLargeCount (sound.events span window) := by
  have hformed : (Node.atom sound span).WellFormed := hsound
  have hcount : sound.copyCount ∈ (Node.atom sound span).counts := List.mem_cons_self
  rw [events]
  apply (Node.faultsOnly_split hformed hcount window).bind
  intro windows _
  apply FaultsOnly.flatMapM
  intro part _
  exact faultsOnly_copyEvents hsound span part

end Atom

namespace Node

/-- A node fails to divide its window only by a count of its own. -/
theorem faultsOnly_parts {n : Node α} (hn : n.WellFormed)
    (hchildren : ∀ child ∈ n.children, child.WellFormed) (window : Window α) :
    FaultsOnly n.HasLargeCount (n.parts window) := by
  unfold parts
  split
  · exact faultsOnly_sequenceParts _ hchildren window
  · exact .of_ok _ _
  · exact (faultsOnly_split hn List.mem_cons_self window).map _
  · exact (faultsOnly_split hn List.mem_cons_self window).map _
  · exact .of_ok _ _
  · exact (faultsOnly_partLength hn List.mem_cons_self window).map _
  · exact .of_ok _ _

theorem faultsOnly_ownEvents {n : Node α} (hn : n.WellFormed) (window : Window α) :
    FaultsOnly n.HasLargeCount (n.ownEvents window) := by
  unfold ownEvents
  split
  · exact Atom.faultsOnly_events hn _ window
  · exact .of_ok _ _
  · exact .of_ok _ _
  · exact (faultsOnly_split hn List.mem_cons_self window).map _
  · exact .of_ok _ _
  · exact .of_ok _ _

/-- What a group does to the events inside it never fails. -/
theorem faultsOnly_shape (large : Prop) {n : Node α} (hn : n.WellFormed)
    (events : List (Event α)) : FaultsOnly large (n.shape events) := by
  unfold shape
  split
  · next inner repeats division ratio span =>
      obtain ⟨-, -, -, -, hratio⟩ := hn
      cases ratio with
      | none => exact .of_ok large _
      | some factor =>
          apply FaultsOnly.mapM
          intro event _
          have hpositive := hratio factor rfl
          exact (FaultsOnly.of_eq_ok large (quotient_eq_ok _ hpositive)).map _
  · exact .of_ok large _
  · exact .of_ok large _

/-- A tree of well-formed nodes is played, unless a count on the way is beyond every measure. -/
theorem faultsOnly_perform {large : Prop} {n : Node α} (hn : ∀ m, n.Holds m → m.WellFormed)
    {window : Window α} (hlarge : ∀ m, n.Plays window m → m.HasLargeCount → large) :
    FaultsOnly large (n.perform window) := by
  have hself := hn n (.refl n)
  have hcount := hlarge n (.refl n window)
  have hchildren : ∀ child ∈ n.children, child.WellFormed :=
    fun child hchild => hn child (.child hchild (.refl child))
  rw [perform_eq]
  refine FaultsOnly.bind ((faultsOnly_parts hself hchildren window).mono hcount) ?_
  intro parts hparts
  refine FaultsOnly.bind ((faultsOnly_ownEvents hself window).mono hcount) ?_
  intro own _
  apply FaultsOnly.bind
  · apply FaultsOnly.flatMapM
    intro part hpart
    have hsmaller := sizeOf_lt_of_mem_parts hparts hpart
    apply faultsOnly_perform
    · intro m hm
      exact wellFormed_of_mem_parts hn hparts hpart hm
    · intro m hm
      exact hlarge m (.part hparts hpart hm)
  · intro inner _
    exact faultsOnly_shape large hself (own ++ inner)
termination_by sizeOf n

end Node

end

end CyclePattern
