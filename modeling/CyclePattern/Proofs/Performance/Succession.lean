/-
# Windows one after the other

What a pattern plays one after the other takes up windows that begin where the one before has ended,
or later where time may pass in silence. Both are one relation: `gaps` says whether time may be left
out between two windows. Where it is false the windows take up all of the time.

Runs of windows are put together end to end, and a run is still one when each of its windows is
divided into a run of its own.
-/

import CyclePattern.Proofs.Performance.Placement

namespace CyclePattern

/-- The end of a window. -/
def Window.stop (window : Window Rat) : Rat :=
  window.start + window.duration

/-- Whether one window lies inside another and takes up time. -/
structure Window.Contains (outer inner : Window Rat) : Prop where
  start : outer.start ≤ inner.start
  duration : 0 < inner.duration
  stop : inner.stop ≤ outer.stop

theorem Window.Contains.refl {window : Window Rat} (hduration : 0 < window.duration) :
    window.Contains window :=
  ⟨le_refl _, hduration, le_refl _⟩

theorem Window.Contains.trans {first second third : Window Rat} (houter : first.Contains second)
    (hinner : second.Contains third) : first.Contains third :=
  ⟨houter.start.trans hinner.start, hinner.duration, hinner.stop.trans houter.stop⟩

/-- Whether a time is the next one, or a later one where there may be gaps. -/
def Reaches (gaps : Prop) (first second : Rat) : Prop :=
  first = second ∨ gaps ∧ first ≤ second

/-- Windows that take up time one after the other, from one time to another. -/
def InTurn (gaps : Prop) : Rat → List (Window Rat) → Rat → Prop
  | low, [], high => Reaches gaps low high
  | low, window :: rest, high =>
    Reaches gaps low window.start ∧ 0 < window.duration ∧ InTurn gaps window.stop rest high

variable {gaps : Prop} {low middle high : Rat} {window : Window Rat}
  {windows others : List (Window Rat)}

namespace Reaches

theorem refl (gaps : Prop) (time : Rat) : Reaches gaps time time :=
  .inl rfl

theorem le (hreaches : Reaches gaps low high) : low ≤ high := by
  rcases hreaches with rfl | ⟨-, hle⟩
  · exact le_refl low
  · exact hle

theorem trans (hfirst : Reaches gaps low middle) (hsecond : Reaches gaps middle high) :
    Reaches gaps low high := by
  rcases hfirst with rfl | ⟨hgaps, hle⟩
  · exact hsecond
  · exact .inr ⟨hgaps, hle.trans hsecond.le⟩

end Reaches

namespace InTurn

/-- Where there may be gaps a window may pass in silence. -/
theorem empty (hgaps : gaps) (hduration : 0 < window.duration) :
    InTurn gaps window.start [] window.stop := by
  refine .inr ⟨hgaps, ?_⟩
  rw [Window.stop]
  linarith

/-- A single window. -/
theorem singleton (gaps : Prop) (hduration : 0 < window.duration) :
    InTurn gaps window.start [window] window.stop :=
  ⟨.refl gaps _, hduration, .refl gaps _⟩

theorem of_reaches (hreaches : Reaches gaps low middle) (hturn : InTurn gaps middle windows high) :
    InTurn gaps low windows high := by
  cases windows with
  | nil => exact hreaches.trans hturn
  | cons window rest =>
      obtain ⟨hstart, hduration, hrest⟩ := hturn
      exact ⟨hreaches.trans hstart, hduration, hrest⟩

theorem append (hwindows : InTurn gaps low windows middle)
    (hothers : InTurn gaps middle others high) :
    InTurn gaps low (windows ++ others) high := by
  induction windows generalizing low with
  | nil => exact of_reaches hwindows hothers
  | cons window rest ih =>
      obtain ⟨hstart, hduration, hrest⟩ := hwindows
      exact ⟨hstart, hduration, ih hrest⟩

/-- Windows in turn may each be divided into windows in turn, such as those of events. -/
theorem flatten {α : Type} {span : α → Window Rat} {divided : List (List α)}
    (hturn : InTurn gaps low windows high)
    (hdivided : List.Forall₂ (fun window parts =>
      InTurn gaps window.start (parts.map span) window.stop) windows divided) :
    InTurn gaps low (divided.flatten.map span) high := by
  induction hdivided generalizing low with
  | nil => exact hturn
  | cons hparts _ ih =>
      obtain ⟨hstart, -, hrest⟩ := hturn
      rw [List.flatten_cons, List.map_append]
      exact append (of_reaches hstart hparts) (ih hrest)

theorem le (hturn : InTurn gaps low windows high) : low ≤ high := by
  induction windows generalizing low with
  | nil => exact hturn.le
  | cons window rest ih =>
      obtain ⟨hstart, hduration, hrest⟩ := hturn
      have hnext := ih hrest
      have hfirst := hstart.le
      rw [Window.stop] at hnext
      linarith

/-- Every window of a run takes up time between the ends of the run. -/
theorem bounds (hturn : InTurn gaps low windows high) (hwindow : window ∈ windows) :
    low ≤ window.start ∧ 0 < window.duration ∧ window.stop ≤ high := by
  induction windows generalizing low with
  | nil => cases hwindow
  | cons first rest ih =>
      obtain ⟨hstart, hduration, hrest⟩ := hturn
      have hfirst := hstart.le
      rcases List.mem_cons.mp hwindow with rfl | hlater
      · exact ⟨hfirst, hduration, hrest.le⟩
      · obtain ⟨hlow, hpositive, hhigh⟩ := ih hrest hlater
        rw [Window.stop] at hlow
        exact ⟨by linarith, hpositive, hhigh⟩

theorem contains {outer : Window Rat} (hturn : InTurn gaps outer.start windows outer.stop)
    (hwindow : window ∈ windows) : outer.Contains window := by
  obtain ⟨hstart, hduration, hstop⟩ := hturn.bounds hwindow
  exact ⟨hstart, hduration, hstop⟩

/-- No window of a run begins before one in front of it has ended. -/
theorem pairwise (hturn : InTurn gaps low windows high) :
    windows.Pairwise fun first second => first.stop ≤ second.start := by
  induction windows generalizing low with
  | nil => exact .nil
  | cons window rest ih =>
      obtain ⟨-, -, hrest⟩ := hturn
      exact .cons (fun later hlater => (hrest.bounds hlater).1) (ih hrest)

/-- Without gaps every window begins where the one before it ends. -/
theorem isChain (hturn : InTurn False low windows high) :
    windows.IsChain fun first second => first.stop = second.start := by
  induction windows generalizing low with
  | nil => exact .nil
  | cons window rest ih =>
      obtain ⟨-, -, hrest⟩ := hturn
      cases rest with
      | nil => exact .singleton window
      | cons second others =>
          have hmeets : window.stop = second.start := hrest.1.resolve_right (fun hgap => hgap.1)
          exact .cons_cons hmeets (ih hrest)

theorem exists_head (hturn : InTurn False low windows high) (hlt : low < high) :
    ∃ first, windows.head? = some first ∧ first.start = low := by
  cases windows with
  | nil =>
      have hsame : low = high := hturn.resolve_right (fun hgap => hgap.1)
      exact absurd hsame (ne_of_lt hlt)
  | cons window rest =>
      exact ⟨window, rfl, (hturn.1.resolve_right (fun hgap => hgap.1)).symm⟩

theorem exists_getLast (hturn : InTurn False low windows high) (hlt : low < high) :
    ∃ last, windows.getLast? = some last ∧ last.stop = high := by
  induction windows generalizing low with
  | nil =>
      have hsame : low = high := hturn.resolve_right (fun hgap => hgap.1)
      exact absurd hsame (ne_of_lt hlt)
  | cons window rest ih =>
      obtain ⟨-, -, hrest⟩ := hturn
      cases rest with
      | nil => exact ⟨window, rfl, hrest.resolve_right (fun hgap => hgap.1)⟩
      | cons second others =>
          have hnext : window.stop < high := by
            obtain ⟨hstart, hduration, hlater⟩ := hrest
            have hfirst := hstart.le
            have hlast := hlater.le
            rw [Window.stop] at hlast
            linarith
          obtain ⟨last, hlast, hstop⟩ := ih hrest hnext
          exact ⟨last, by rw [List.getLast?_cons_cons, hlast], hstop⟩

end InTurn

end CyclePattern
