/-
# Named controls

A sound carries named numbers such as `gain` or `speed`. They are kept in the
order in which they were first set; setting one again changes its value and
keeps its place.
-/

namespace CyclePattern

/-- Named numbers in order. -/
abbrev Controls (α : Type) :=
  List (String × α)

namespace Controls

variable {α : Type}

/-- Value of a control. -/
def get? : Controls α → String → Option α
  | [], _ => none
  | (other, value) :: rest, name => if other = name then some value else get? rest name

/-- Set one control. -/
def set (controls : Controls α) (name : String) (value : α) : Controls α :=
  match controls with
  | [] => [(name, value)]
  | (other, old) :: rest =>
    if other = name then (name, value) :: rest
    else (other, old) :: Controls.set rest name value

/-- Set the controls of a list one after the other, from none. -/
def ofList (pairs : List (String × α)) : Controls α :=
  pairs.foldl (fun controls pair => Controls.set controls pair.1 pair.2) []

/-- Set a control that may be absent. -/
def setIfGiven (controls : Controls α) (name : String) : Option α → Controls α
  | none => controls
  | some value => Controls.set controls name value

/-- A control that was just set is found with its value. -/
theorem get?_set_self (controls : Controls α) (name : String) (value : α) :
    get? (set controls name value) name = some value := by
  induction controls with
  | nil => simp [set, get?]
  | cons first rest ih =>
    unfold set
    split
    · simp [get?]
    · next other => simpa [get?, other] using ih

/-- Setting one control leaves every other one as it was. -/
theorem get?_set_of_ne (controls : Controls α) {name other : String} (value : α)
    (different : name ≠ other) : get? (set controls name value) other = get? controls other := by
  induction controls with
  | nil => simp [set, get?, different]
  | cons first rest ih =>
    unfold set
    split
    · next same => simp [get?, different, same]
    · simp only [get?, ih]

end Controls

end CyclePattern
