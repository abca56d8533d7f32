/-
# Exported trees lose nothing

A tool that is given the exported data of a tree knows the tree. The name of the type tells the kind
of the node, and the other fields tell everything that a node of this kind holds. Only the controls
of a sound become a record, which keeps one value for each name. So the sounds of a tree must set
each control once, as those of a tree that was read do.
-/

import CyclePattern.Export.Data
import CyclePattern.Proofs.Grammar.WellFormed
import CyclePattern.Proofs.Lexing.Segment

namespace CyclePattern

variable {α : Type}

namespace Data

@[simp]
theorem ofInt?_inj {m n : Option Int} : (ofInt? m : Data α) = ofInt? n ↔ m = n := by
  cases m <;> cases n <;> simp [ofInt?]

@[simp]
theorem ofNumber?_inj {x y : Option α} : ofNumber? x = ofNumber? y ↔ x = y := by
  cases x <;> cases y <;> simp [ofNumber?]

@[simp]
theorem spanFields_inj {s t : Span} :
    (spanFields s : List (String × Data α)) = spanFields t ↔ s = t := by
  cases s
  cases t
  simp [spanFields]

@[simp]
theorem controlFields_inj {controls others : Controls α} :
    controlFields controls = controlFields others ↔ controls = others := by
  have hinjective : Function.Injective fun control : String × α =>
      (control.1, number control.2) := by
    rintro ⟨name, x⟩ ⟨other, y⟩ hsame
    simpa using hsame
  exact (List.map_injective_iff.mpr hinjective).eq_iff

end Data

@[simp]
theorem Euclid.toData_inj {e f : Euclid} : (e.toData : Data α) = f.toData ↔ e = f := by
  cases e
  cases f
  simp [toData]

/-- A rhythm that is set is told from one that is not. -/
@[simp]
theorem Euclid.toData?_inj {e f : Option Euclid} :
    (e.map Euclid.toData).getD (.null : Data α) = (f.map Euclid.toData).getD .null ↔ e = f := by
  have hset : ∀ e : Euclid, (e.toData : Data α) ≠ .null := by
    intro e
    simp [toData]
  cases e with
  | none =>
      cases f with
      | none => simp
      | some f => simpa using (hset f).symm
  | some e =>
      cases f with
      | none => simpa using hset e
      | some f => simp

/-- The type and the value of a harmony leaf together tell what it names. -/
theorem Harmony.eq_of_data_eq {leaf other : Harmony} (htype : leaf.typeName = other.typeName)
    (hvalue : (leaf.valueData : Data α) = other.valueData) : leaf = other := by
  cases leaf <;> cases other <;> simp_all [typeName, valueData]

namespace Controls

theorem set_eq_append {controls : Controls α} {name : String}
    (hname : name ∉ controls.map Prod.fst) (value : α) :
    set controls name value = controls ++ [(name, value)] := by
  induction controls with
  | nil => rfl
  | cons control rest ih =>
      obtain ⟨other, old⟩ := control
      rw [List.map_cons, List.mem_cons, not_or] at hname
      rw [set, if_neg (Ne.symm hname.1), ih hname.2, List.cons_append]

theorem foldl_set_eq_append (controls : Controls α) {others : Controls α}
    (hnodup : ((controls ++ others).map Prod.fst).Nodup) :
    others.foldl (fun controls pair => set controls pair.1 pair.2) controls =
      controls ++ others := by
  induction others generalizing controls with
  | nil => rw [List.foldl_nil, List.append_nil]
  | cons control rest ih =>
      have hname : control.1 ∉ controls.map Prod.fst := by
        rw [List.map_append, List.map_cons] at hnodup
        exact fun hmem => (List.nodup_append.mp hnodup).2.2 _ hmem _ List.mem_cons_self rfl
      rw [List.append_cons] at hnodup ⊢
      rw [List.foldl_cons, set_eq_append hname]
      exact ih _ hnodup

/-- Controls of which no name is set twice are kept as they are. -/
theorem ofList_eq_self {controls : Controls α} (hnodup : (controls.map Prod.fst).Nodup) :
    ofList controls = controls :=
  foldl_set_eq_append [] hnodup

end Controls

/-- Two sounds with the same data are the same. -/
theorem Atom.eq_of_fields_eq {sound other : Atom α} (hsound : (sound.controls.map Prod.fst).Nodup)
    (hother : (other.controls.map Prod.fst).Nodup) (hsame : sound.fields = other.fields) :
    sound = other := by
  cases sound
  cases other
  simp only [fields, Controls.ofList_eq_self hsound, Controls.ofList_eq_self hother] at hsame
  simpa [and_assoc] using hsame

namespace Node

/-- Whether no sound inside the node sets a control twice. -/
def SetsOnce (n : Node α) : Prop :=
  ∀ sound span, n.Holds (.atom sound span) → (sound.controls.map Prod.fst).Nodup

theorem SetsOnce.of_mem_children {n c : Node α} (hn : n.SetsOnce) (hc : c ∈ n.children) :
    c.SetsOnce :=
  fun sound span hholds => hn sound span (.child hc hholds)

/-- Name of the kind of a node. -/
def typeName : Node α → String
  | .empty => "node"
  | .atom _ _ => "atom"
  | .rest _ => "rest"
  | .elongation _ => "elongation"
  | .harmony leaf _ _ => leaf.typeName
  | .sequence _ => "sequence"
  | .stack _ => "stack"
  | .subdivision .. => "subdivision"
  | .alternation .. => "alternation"
  | .polymetric .. => "polymetric"
  | .choice _ _ => "random_choice"

theorem exists_fields_toData (n : Node α) :
    ∃ fields, n.toData = .record (("type", .text n.typeName) :: fields) := by
  cases n <;> rw [toData] <;> exact ⟨_, rfl⟩

theorem typeName_of_toData_eq {m n : Node α} (hsame : m.toData = n.toData) :
    m.typeName = n.typeName := by
  obtain ⟨fields, hm⟩ := exists_fields_toData m
  obtain ⟨others, hn⟩ := exists_fields_toData n
  rw [hm, hn] at hsame
  simp only [Data.record.injEq, List.cons.injEq, Prod.mk.injEq, Data.text.injEq, true_and]
    at hsame
  exact hsame.1

/-- Two nodes of one kind. -/
inductive SameKind : Node α → Node α → Prop
  | empty : SameKind .empty .empty
  | atom (sound other : Atom α) (span place : Span) :
      SameKind (.atom sound span) (.atom other place)
  | rest (span place : Span) : SameKind (.rest span) (.rest place)
  | elongation (span place : Span) : SameKind (.elongation span) (.elongation place)
  | harmony (leaf other : Harmony) (text label : String) (span place : Span) :
      SameKind (.harmony leaf text span) (.harmony other label place)
  | sequence (ms ns : List (Node α)) : SameKind (.sequence ms) (.sequence ns)
  | stack (ms ns : List (Node α)) : SameKind (.stack ms) (.stack ns)
  | subdivision (m n : Node α) (repeats count : Option Int) (division quotient : Option α)
      (ratio factor : Option α) (span place : Span) :
      SameKind (.subdivision m repeats division ratio span)
        (.subdivision n count quotient factor place)
  | alternation (ms ns : List (Node α)) (repeats count : Option Int)
      (division quotient : Option α) (span place : Span) :
      SameKind (.alternation ms repeats division span) (.alternation ns count quotient place)
  | polymetric (ms ns : List (Node α)) (steps count : Option Int) (span place : Span) :
      SameKind (.polymetric ms steps span) (.polymetric ns count place)
  | choice (ms ns : List (Node α)) (span place : Span) :
      SameKind (.choice ms span) (.choice ns place)

/-- The name of the type tells the kind. -/
theorem sameKind_of_typeName_eq {m n : Node α} (htype : m.typeName = n.typeName) :
    SameKind m n := by
  cases m <;> cases n <;>
    first
    | constructor
    | grind [typeName, Harmony.typeName, cases Harmony]

/-- Lists of nodes with the same data are the same, if that holds of their members. -/
theorem eq_of_map_toData_eq {ms ns : List (Node α)}
    (hms : ∀ m ∈ ms, ∀ n ∈ ns, m.toData = n.toData → m = n)
    (hsame : ms.map toData = ns.map toData) : ms = ns := by
  induction ms generalizing ns with
  | nil => simpa using hsame.symm
  | cons m ms ih =>
      cases ns with
      | nil => simp at hsame
      | cons n ns =>
          rw [List.map_cons, List.map_cons, List.cons.injEq] at hsame
          have hhead := hms m List.mem_cons_self n List.mem_cons_self hsame.1
          have htail := ih (fun c hc d hd =>
            hms c (List.mem_cons_of_mem _ hc) d (List.mem_cons_of_mem _ hd)) hsame.2
          rw [hhead, htail]

/-- Two nodes with the same data are the same, if that holds of their children. -/
theorem eq_of_toData_eq_of_children {m n : Node α} (hm : m.SetsOnce) (hn : n.SetsOnce)
    (hchildren : ∀ c ∈ m.children, ∀ d ∈ n.children, c.toData = d.toData → c = d)
    (hsame : m.toData = n.toData) : m = n := by
  cases sameKind_of_typeName_eq (typeName_of_toData_eq hsame) with
  | empty => rfl
  | atom sound other span place =>
      simp only [toData, Data.record.injEq, List.cons_append, List.cons.injEq, true_and] at hsame
      obtain ⟨hfields, hspan⟩ := List.append_inj hsame rfl
      have hsound :=
        Atom.eq_of_fields_eq (hm sound span (.refl _)) (hn other place (.refl _)) hfields
      rw [hsound, Data.spanFields_inj.mp hspan]
  | rest span place => simpa [toData] using hsame
  | elongation span place => simpa [toData] using hsame
  | harmony leaf other text label span place =>
      obtain ⟨htype, hvalue, rfl, rfl⟩ : leaf.typeName = other.typeName ∧
          (leaf.valueData : Data α) = other.valueData ∧ text = label ∧ span = place := by
        simpa [toData] using hsame
      rw [Harmony.eq_of_data_eq htype hvalue]
  | sequence ms ns =>
      have hmaps : ms.map toData = ns.map toData := by simpa [toData] using hsame
      have hmembers : ms = ns := eq_of_map_toData_eq hchildren hmaps
      rw [hmembers]
  | stack ms ns =>
      have hmaps : ms.map toData = ns.map toData := by simpa [toData] using hsame
      have hmembers : ms = ns := eq_of_map_toData_eq hchildren hmaps
      rw [hmembers]
  | subdivision inner other repeats count division quotient ratio factor span place =>
      obtain ⟨hinner, rfl, rfl, rfl, rfl⟩ : inner.toData = other.toData ∧ repeats = count ∧
          division = quotient ∧ ratio = factor ∧ span = place := by
        simpa [toData] using hsame
      rw [hchildren inner (List.mem_singleton.mpr rfl) other (List.mem_singleton.mpr rfl) hinner]
  | alternation ms ns repeats count division quotient span place =>
      obtain ⟨hmaps, rfl, rfl, rfl⟩ : ms.map toData = ns.map toData ∧ repeats = count ∧
          division = quotient ∧ span = place := by
        simpa [toData] using hsame
      have hmembers : ms = ns := eq_of_map_toData_eq hchildren hmaps
      rw [hmembers]
  | polymetric ms ns steps count span place =>
      obtain ⟨hmaps, rfl, rfl⟩ : ms.map toData = ns.map toData ∧ steps = count ∧ span = place := by
        simpa [toData] using hsame
      have hmembers : ms = ns := eq_of_map_toData_eq hchildren hmaps
      rw [hmembers]
  | choice ms ns span place =>
      obtain ⟨hmaps, rfl⟩ : ms.map toData = ns.map toData ∧ span = place := by
        simpa [toData] using hsame
      have hmembers : ms = ns := eq_of_map_toData_eq hchildren hmaps
      rw [hmembers]

/-- Two nodes whose sounds set each control once are the same if their data are. -/
theorem eq_of_toData_eq {m n : Node α} (hm : m.SetsOnce) (hn : n.SetsOnce)
    (hsame : m.toData = n.toData) : m = n := by
  induction m using inductionOn generalizing n with
  | step m ih =>
      refine eq_of_toData_eq_of_children hm hn ?_ hsame
      intro c hc d hd hdata
      exact ih c hc (hm.of_mem_children hc) (hn.of_mem_children hd) hdata

end Node

/-- A sound that was read sets each of its controls once. -/
theorem Reading.setsOnce_of_result {limit : Int} {cs : List Char} {items : List (Node Float)}
    (hresult : (ofText limit 0 0 cs).result = .ok items) : (Node.sequence items).SetsOnce := by
  intro sound span hholds
  have hformed : sound.InRange := forall_wellFormed hresult _ hholds
  exact hformed.controls.nodup

namespace Node

/-- The exported data of a tree tell the tree, unless a sound in it sets a control twice. The trees
that are read have no such sound. -/
theorem toData_tells_tree :
    (∀ {α : Type} {m n : Node α}, m.SetsOnce → n.SetsOnce → m.toData = n.toData → m = n) ∧
      ∀ {limit : Int} {cs : List Char} {items : List (Node Float)},
        (Reading.ofText limit 0 0 cs).result = .ok items → (Node.sequence items).SetsOnce :=
  ⟨eq_of_toData_eq, Reading.setsOnce_of_result⟩

/-- A letter whose gain is written twice, with its pan between, and the sound with both controls. -/
theorem toData_tells_tree_of_controls :
    let cs := "a|gain:3|pan:1|gain:2".toList
    let controls : Controls Float :=
      [("gain", Numeral.toFloat ⟨false, ['2'], none⟩),
        ("pan", Numeral.toFloat ⟨false, ['1'], none⟩)]
    let tree : Node Float := .sequence [.atom (.ofModifiers ['a'] .none controls) (.between 0 21)]
    (Reading.ofText 1 0 0 cs).result = .ok [(Word.read cs 0).value] ∧
      tree.SetsOnce ∧
      (Node.sequence [(Word.read cs 0).value]).toData = tree.toData ∧
      Node.sequence [(Word.read cs 0).value] = tree := by
  intro cs controls tree
  have hresult : (Reading.ofText 1 0 0 cs).result = .ok [(Word.read cs 0).value] := by
    have htokens : tokens cs = [.word cs] := by decide +kernel
    rw [Reading.ofText, htokens]
    simp (disch := decide) only [Reading.ofTokens, Progress.step_word]
    rfl
  have htree : tree.SetsOnce := by
    intro other span hholds
    rcases Piece.holds_sequence hholds with hsame | ⟨item, hitem, hinside⟩
    · cases hsame
    · rw [List.mem_singleton.mp hitem] at hinside
      cases hinside.eq_of_isLeaf trivial
      decide
  have hsplit : splitTopLevel '|' cs =
      [⟨['a'], 0⟩, ⟨['g', 'a', 'i', 'n', ':', '3'], 2⟩, ⟨['p', 'a', 'n', ':', '1'], 9⟩,
        ⟨['g', 'a', 'i', 'n', ':', '2'], 15⟩] := by
    decide +kernel
  have hsound : Word.sound? ['a'] = some (['a'], .none) := by
    simp [Word.sound?, spanSoundName, startsSoundName, Modifiers.read?]
  have hsame : (Node.sequence [(Word.read cs 0).value]).toData = tree.toData := by
    rw [Word.read_eq_piped hsplit, Word.piped, if_pos (by decide +kernel), Word.controlled, hsound]
    rfl
  exact ⟨hresult, htree, hsame, toData_tells_tree.1 (toData_tells_tree.2 hresult) htree hsame⟩

end Node

end CyclePattern
