/-
# Nodes that tile a stretch of text

The nodes that stand in a stretch of text do so one after the other, and what is between them is
accounted for: it is a gap of some kind. Sequences that stand side by side have one comma between
two of them.
-/

import CyclePattern.Proofs.Tree.Position

namespace CyclePattern

namespace Node

variable {α : Type}

/-- The spans of the nodes are not empty and stand one after the other in a stretch of text. What
they leave of it are gaps. -/
def Tiles (gap : Nat → Prop) (start stop : Nat) : List (Node α) → Prop
  | [] => start ≤ stop ∧ ∀ i, start ≤ i → i < stop → gap i
  | n :: ns =>
    ∃ s e : Nat, n.span? = some (.between s e) ∧ start ≤ s ∧ s < e ∧
      (∀ i, start ≤ i → i < s → gap i) ∧ Tiles gap e stop ns

variable {gap : Nat → Prop} {start stop : Nat} {n : Node α} {ns : List (Node α)}

/-- A gap may be added in front. -/
theorem Tiles.of_gap (hgap : gap start) (htiles : Tiles gap (start + 1) stop ns) :
    Tiles gap start stop ns := by
  have hfront : ∀ i, start ≤ i → i < start + 1 → gap i := by
    intro i hlow hhigh
    rwa [show i = start by omega]
  cases ns with
  | nil =>
      obtain ⟨hle, hrest⟩ := htiles
      refine ⟨by omega, ?_⟩
      intro i hlow hhigh
      by_cases hi : i < start + 1
      · exact hfront i hlow hi
      · exact hrest i (by omega) hhigh
  | cons n ns =>
      obtain ⟨s, e, hspan, hle, hlt, hgaps, hrest⟩ := htiles
      refine ⟨s, e, hspan, by omega, hlt, ?_, hrest⟩
      intro i hlow hhigh
      by_cases hi : i < start + 1
      · exact hfront i hlow hi
      · exact hgaps i (by omega) hhigh

/-- A node may be added in front, where the stretch starts. -/
theorem Tiles.cons {e : Nat} (hspan : n.span? = some (.between start e)) (hlt : start < e)
    (htiles : Tiles gap e stop ns) : Tiles gap start stop (n :: ns) :=
  ⟨start, e, hspan, Nat.le_refl start, hlt, fun i hlow hhigh => absurd hlow (by omega), htiles⟩

theorem Tiles.start_le_stop (htiles : Tiles gap start stop ns) : start ≤ stop := by
  induction ns generalizing start with
  | nil => exact htiles.1
  | cons n ns ih =>
      obtain ⟨s, e, -, hle, hlt, -, hrest⟩ := htiles
      have hend := ih hrest
      omega

/-- A node that tiles a stretch with others stands inside the stretch. -/
theorem Tiles.of_mem (htiles : Tiles gap start stop ns) (hn : n ∈ ns) :
    ∃ s e : Nat, n.span? = some (.between s e) ∧ start ≤ s ∧ s < e ∧ e ≤ stop := by
  induction ns generalizing start with
  | nil => cases hn
  | cons m ns ih =>
      obtain ⟨s, e, hspan, hle, hlt, -, hrest⟩ := htiles
      rcases List.mem_cons.mp hn with rfl | htail
      · exact ⟨s, e, hspan, hle, hlt, hrest.start_le_stop⟩
      · obtain ⟨a, z, hfound, hlow, hpositive, hhigh⟩ := ih hrest htail
        exact ⟨a, z, hfound, by omega, hpositive, hhigh⟩

/-- The nodes of several sequences tile a stretch with one comma between two sequences. -/
def TilesWithCommas (cs : List Char) (gap : Nat → Prop) (start stop : Nat) :
    List (List (Node α)) → Prop
  | [] => False
  | [last] => Tiles gap start stop last
  | first :: second :: others =>
    ∃ comma : Nat, cs[comma]? = some ',' ∧ Tiles gap start comma first ∧
      TilesWithCommas cs gap (comma + 1) stop (second :: others)

theorem TilesWithCommas.cons {cs : List Char} {comma : Nat} {groups : List (List (Node α))}
    (hcomma : cs[comma]? = some ',') (hfirst : Tiles gap start comma ns)
    (hrest : TilesWithCommas cs gap (comma + 1) stop groups) :
    TilesWithCommas cs gap start stop (ns :: groups) := by
  cases groups with
  | nil => cases hrest
  | cons second rest => exact ⟨comma, hcomma, hfirst, hrest⟩

theorem TilesWithCommas.start_le_stop {cs : List Char} {groups : List (List (Node α))}
    (htiles : TilesWithCommas cs gap start stop groups) : start ≤ stop := by
  induction groups generalizing start with
  | nil => cases htiles
  | cons first rest ih =>
      cases rest with
      | nil => exact Tiles.start_le_stop htiles
      | cons second rest =>
          obtain ⟨comma, -, hfirst, hrest⟩ := htiles
          have hcomma := hfirst.start_le_stop
          have hend := ih hrest
          omega

/-- A sequence that tiles a stretch with others tiles a stretch inside it. -/
theorem TilesWithCommas.of_mem {cs : List Char} {groups : List (List (Node α))}
    (htiles : TilesWithCommas cs gap start stop groups) (hns : ns ∈ groups) :
    ∃ s e : Nat, start ≤ s ∧ e ≤ stop ∧ Tiles gap s e ns := by
  induction groups generalizing start with
  | nil => cases hns
  | cons first rest ih =>
      cases rest with
      | nil =>
          cases List.mem_singleton.mp hns
          exact ⟨start, stop, Nat.le_refl _, Nat.le_refl _, htiles⟩
      | cons second rest =>
          obtain ⟨comma, -, hfirst, hrest⟩ := htiles
          rcases List.mem_cons.mp hns with rfl | htail
          · have hend := hrest.start_le_stop
            exact ⟨start, comma, Nat.le_refl _, by omega, hfirst⟩
          · obtain ⟨s, e, hlow, hhigh, hinner⟩ := ih hrest htail
            have hcomma := hfirst.start_le_stop
            exact ⟨s, e, by omega, hhigh, hinner⟩

end Node

end CyclePattern
