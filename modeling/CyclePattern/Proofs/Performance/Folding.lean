/-
# Elongations in a sequence

The children of a sequence are items, each with the elongations after it, and before them the
elongations that have nothing to lengthen. They can be told apart in one way only. Each item weighs
one more for every elongation after it, and the elongations at the start make up one rest.

The items come about in one pass over the children. A child that is no elongation is put at the end;
an elongation adds one to the weight of what was put there last, whether that is an item or a rest.
So every child adds its own weight to the total, and in exact numbers nothing of it is lost.
-/

import CyclePattern.Proofs.Performance.Division

namespace CyclePattern

namespace Node

variable {α : Type}

/-- An item of a sequence, with the spans of the elongations after it. -/
structure HeldItem (α : Type) where
  item : Node α
  marks : List Span
  isItem : item.isElongation = false

/-- Children of a sequence told apart: the spans of the elongations at the start, and the items. -/
structure Arrangement (α : Type) where
  lead : List Span
  held : List (HeldItem α)

/-- An item and then its elongations. -/
def HeldItem.children (held : HeldItem α) : List (Node α) :=
  held.item :: held.marks.map .elongation

/-- The children that are told apart, in their order. -/
def Arrangement.children (told : Arrangement α) : List (Node α) :=
  told.lead.map .elongation ++ told.held.flatMap HeldItem.children

theorem exists_arrangement (children : List (Node α)) :
    ∃ told : Arrangement α, told.children = children := by
  induction children with
  | nil => exact ⟨⟨[], []⟩, rfl⟩
  | cons child tail ih =>
      obtain ⟨told, rfl⟩ := ih
      cases child with
      | elongation span => exact ⟨⟨span :: told.lead, told.held⟩, rfl⟩
      | _ => exact ⟨⟨[], ⟨_, told.lead, rfl⟩ :: told.held⟩, rfl⟩

theorem Arrangement.filter_children (told : Arrangement α) :
    told.children.filter (fun child => !child.isElongation) = told.held.map HeldItem.item := by
  have hmarks : ∀ marks : List Span,
      (marks.map elongation).filter (fun child : Node α => !child.isElongation) = [] := by
    simp [List.filter_eq_nil_iff, isElongation]
  obtain ⟨lead, held⟩ := told
  rw [children, List.filter_append, hmarks, List.nil_append]
  induction held with
  | nil => rfl
  | cons one held ih =>
      calc
        _ = one.item :: ((one.marks.map elongation).filter (fun child => !child.isElongation) ++
              (held.flatMap HeldItem.children).filter (fun child => !child.isElongation)) := by
          rw [List.flatMap_cons, HeldItem.children, List.cons_append,
            List.filter_cons_of_pos (by simp [one.isItem]), List.filter_append]
        _ = one.item :: held.map HeldItem.item := by rw [hmarks, List.nil_append, ih]

section Weights

variable [Measure α]

/-- A weight with one added a number of times. -/
def lengthened (weight : α) (times : Nat) : α :=
  (· + Measure.one)^[times] weight

/-- An item with its own weight and one for each of its elongations. -/
def HeldItem.weighted (held : HeldItem α) : Node α × α :=
  (held.item, lengthened held.item.ownWeight held.marks.length)

/-- The rest that elongations at the start make up. It has the span of the first one, and the others
lengthen it. -/
def leadItems : List Span → List (Node α × α)
  | [] => []
  | first :: others => [(.rest first, lengthened Measure.one others.length)]

def Arrangement.weighted (told : Arrangement α) : List (Node α × α) :=
  leadItems told.lead ++ told.held.map HeldItem.weighted

theorem Arrangement.isElongation_of_mem_weighted {told : Arrangement α} {item : Node α × α}
    (hitem : item ∈ told.weighted) : item.1.isElongation = false := by
  obtain ⟨lead, held⟩ := told
  rcases List.mem_append.mp hitem with hlead | hheld
  · cases lead with
    | nil => cases hlead
    | cons first others =>
        cases List.mem_singleton.mp hlead
        rfl
  · obtain ⟨one, -, rfl⟩ := List.mem_map.mp hheld
    exact one.isItem

theorem Arrangement.map_fst_weighted (told : Arrangement α) :
    told.weighted.map Prod.fst =
      ((told.children.take 1).filter isElongation).map asItem ++
        told.children.filter fun child => !child.isElongation := by
  have hheld : (told.held.map HeldItem.weighted).map Prod.fst = told.held.map HeldItem.item := by
    rw [List.map_map]
    rfl
  rw [filter_children, weighted, List.map_append, hheld]
  congr 1
  obtain ⟨lead, held⟩ := told
  cases lead with
  | cons first others => rfl
  | nil =>
      cases held with
      | nil => rfl
      | cons one held => simp [children, HeldItem.children, leadItems, one.isItem]

/-- Items with one more child: an elongation adds one to the weight of the last item, and is a rest
when there is none. -/
def addChild (items : List (Node α × α)) : Node α → List (Node α × α)
  | .elongation span =>
    match items.getLast? with
    | none => [(.rest span, Measure.one)]
    | some (last, weight) => items.dropLast ++ [(last, weight + Measure.one)]
  | child => items ++ [(child, child.ownWeight)]

theorem addChild_elongation (items : List (Node α × α)) (last : Node α) (weight : α)
    (span : Span) :
    addChild (items ++ [(last, weight)]) (.elongation span) =
      items ++ [(last, weight + Measure.one)] := by
  simp [addChild]

theorem addChild_of_item {child : Node α} (hchild : child.isElongation = false)
    (items : List (Node α × α)) : addChild items child = items ++ [(child, child.ownWeight)] := by
  cases child with
  | elongation span => cases hchild
  | _ => rfl

theorem addChild_nil (child : Node α) : addChild [] child = [(child.asItem, child.ownWeight)] := by
  cases child <;> rfl

/-- The last item is kept apart, since the children after it can change its weight and nothing else
of what was put there before. -/
theorem foldl_addChild (items : List (Node α × α)) (last : Node α) (weight : α)
    (children : List (Node α)) :
    children.foldl addChild (items ++ [(last, weight)]) =
      items ++ (last, (hold weight children).1) :: weightedItems (hold weight children).2 := by
  induction children generalizing items last weight with
  | nil => simp [hold, weightedItems]
  | cons child tail ih =>
      rw [List.foldl_cons]
      cases child with
      | elongation span => rw [addChild_elongation, ih, hold]
      | _ =>
          rw [addChild_of_item rfl, ih]
          simp [hold, weightedItems, asItem]

/-- The items of a sequence come about in one pass. -/
theorem weightedItems_eq_foldl (children : List (Node α)) :
    weightedItems children = children.foldl addChild [] := by
  cases children with
  | nil => simp [weightedItems]
  | cons child tail =>
      rw [List.foldl_cons, addChild_nil, ← List.nil_append [(child.asItem, child.ownWeight)],
        foldl_addChild, weightedItems, List.nil_append]

theorem foldl_addChild_marks (items : List (Node α × α)) (last : Node α) (weight : α)
    (marks : List Span) :
    (marks.map elongation).foldl addChild (items ++ [(last, weight)]) =
      items ++ [(last, lengthened weight marks.length)] := by
  induction marks generalizing weight with
  | nil => rfl
  | cons span marks ih =>
      rw [List.map_cons, List.foldl_cons, addChild_elongation, ih]
      rfl

theorem foldl_addChild_lead (lead : List Span) :
    (lead.map elongation).foldl addChild [] = (leadItems lead : List (Node α × α)) := by
  cases lead with
  | nil => rfl
  | cons first others => exact foldl_addChild_marks [] (.rest first) Measure.one others

theorem foldl_addChild_held (items : List (Node α × α)) (held : List (HeldItem α)) :
    (held.flatMap HeldItem.children).foldl addChild items =
      items ++ held.map HeldItem.weighted := by
  induction held generalizing items with
  | nil => simp
  | cons one held ih =>
      calc
        _ = (held.flatMap HeldItem.children).foldl addChild
              ((one.marks.map elongation).foldl addChild
                (items ++ [(one.item, one.item.ownWeight)])) := by
          rw [List.flatMap_cons, List.foldl_append, HeldItem.children, List.foldl_cons,
            addChild_of_item one.isItem]
        _ = (held.flatMap HeldItem.children).foldl addChild (items ++ [one.weighted]) := by
          rw [foldl_addChild_marks]
          rfl
        _ = items ++ (one :: held).map HeldItem.weighted := by
          rw [ih, List.append_assoc, List.singleton_append, List.map_cons]

/-- The pass goes over the elongations at the start and then over one item after the other. -/
theorem Arrangement.weightedItems_children (told : Arrangement α) :
    weightedItems told.children = told.weighted := by
  calc
    _ = (told.held.flatMap HeldItem.children).foldl addChild
          ((told.lead.map elongation).foldl addChild []) := by
      rw [weightedItems_eq_foldl, children, List.foldl_append]
    _ = leadItems told.lead ++ told.held.map HeldItem.weighted := by
      rw [foldl_addChild_lead, foldl_addChild_held]
    _ = told.weighted := rfl

theorem isElongation_of_mem_weightedItems {children : List (Node α)} {item : Node α × α}
    (hitem : item ∈ weightedItems children) : item.1.isElongation = false := by
  obtain ⟨told, rfl⟩ := exists_arrangement children
  rw [told.weightedItems_children] at hitem
  exact Arrangement.isElongation_of_mem_weighted hitem

/-- The items are the children that are no elongations, after the rest for an elongation at the
start. -/
theorem map_fst_weightedItems (children : List (Node α)) :
    (weightedItems children).map Prod.fst =
      ((children.take 1).filter isElongation).map asItem ++
        children.filter fun child => !child.isElongation := by
  obtain ⟨told, rfl⟩ := exists_arrangement children
  rw [told.weightedItems_children, told.map_fst_weighted]

end Weights

/-- Every child adds its own weight to the total, also one that is folded into another item. -/
theorem sum_addChild (items : List (Node Rat × Rat)) (child : Node Rat) :
    ((addChild items child).map (·.2)).sum = (items.map (·.2)).sum + child.ownWeight := by
  cases helongation : child.isElongation with
  | false => simp [addChild_of_item helongation]
  | true =>
      cases child with
      | elongation span =>
          rcases List.eq_nil_or_concat items with rfl | ⟨front, ⟨last, weight⟩, rfl⟩
          · simp [addChild_nil]
          · simp [List.concat_eq_append, addChild_elongation, ownWeight, add_assoc]
      | _ => cases helongation

theorem sum_weightedItems (children : List (Node Rat)) :
    ((weightedItems children).map (·.2)).sum = (children.map ownWeight).sum := by
  have hpass : ∀ items : List (Node Rat × Rat),
      ((children.foldl addChild items).map (·.2)).sum =
        (items.map (·.2)).sum + (children.map ownWeight).sum := by
    induction children with
    | nil => simp
    | cons child tail ih =>
        intro items
        calc
          _ = ((addChild items child).map (·.2)).sum + (tail.map ownWeight).sum := ih _
          _ = (items.map (·.2)).sum + child.ownWeight + (tail.map ownWeight).sum := by
            rw [sum_addChild]
          _ = (items.map (·.2)).sum + ((child :: tail).map ownWeight).sum := by
            rw [List.map_cons, List.sum_cons, add_assoc]
  rw [weightedItems_eq_foldl, hpass, List.map_nil, List.sum_nil, zero_add]

end Node

end CyclePattern
