/-
# Euclidean rhythms

A Euclidean rhythm spreads a number of onsets over a number of steps as evenly
as possible. The onsets and the silent steps start as groups of one; as long as
more than one group is left over, each leading group takes one of them at its
end.
-/

namespace CyclePattern.Rhythm

/-- Why no rhythm has the requested numbers. -/
inductive Unplayable
  | noSteps (steps : Int)
  | pulsesOutOfRange (pulses steps : Int)
  deriving DecidableEq, Repr

/-- Wording of the refusal. -/
def Unplayable.message : Unplayable → String
  | .noSteps steps => "Steps (" ++ toString steps ++ ") must be positive"
  | .pulsesOutOfRange pulses steps =>
    "Pulses (" ++ toString pulses ++ ") must be between 0 and steps (" ++
      toString steps ++ ")"

/-- Join leading groups with the groups left over until at most one is left
over. Every round uses up at least one group. -/
def distribute (leading leftOver : List (List Bool)) : List (List Bool) :=
  if leading ≠ [] ∧ 1 < leftOver.length then
    distribute (List.zipWith (· ++ ·) leading leftOver)
      (leading.drop leftOver.length ++ leftOver.drop leading.length)
  else leading ++ leftOver
termination_by leading.length + leftOver.length
decreasing_by
  next more =>
    have := List.length_pos_iff.mpr more.1
    simp only [List.length_zipWith, List.length_append, List.length_drop]
    omega

/-- The rhythm of `pulses` onsets in `steps` steps; the first onset, if there
is any, is on the first step. -/
def euclidean (pulses steps : Int) : Except Unplayable (List Bool) :=
  if steps ≤ 0 then .error (.noSteps steps)
  else if pulses < 0 ∨ steps < pulses then .error (.pulsesOutOfRange pulses steps)
  else if pulses = 0 then .ok (List.replicate steps.toNat false)
  else
    .ok (distribute (List.replicate pulses.toNat [true])
      (List.replicate (steps - pulses).toNat [false])).flatten

/-- Turn a cycle of steps to the left. A negative turn goes to the right, and
whole turns change nothing. -/
def rotate {α : Type} (steps : List α) (turn : Int) : List α :=
  let shift := (turn % steps.length).toNat
  steps.drop shift ++ steps.take shift

/-- A rhythm that starts `rotation` steps late. -/
def rotatedEuclidean (steps pulses rotation : Int) : Except Unplayable (List Bool) :=
  (euclidean pulses steps).map (rotate · rotation)

/-- Positions of the steps that are played. -/
def onsets {α : Type} (isPlayed : α → Bool) (steps : List α) : List Nat :=
  (steps.zipIdx.filter fun step => isPlayed step.1).map (·.2)

end CyclePattern.Rhythm
