/-
# Slots that go round

A group with steps fills its slots with its items by number, and starts over when they are used up.
If the slots are a multiple of the items, it goes round a number of times, as a sequence does that
is repeated. An elongation is told from the slots after it in one case, and added to a weight in the
other. Where all weights are one, both hand the same windows to the same items: a slot is the share
of one item in one of the repeats.

An elongation at the start of the items lengthens the last one of the round before, but nothing in a
repeat. So there is none, unless there is a single round.
-/

import CyclePattern.Proofs.Performance.Folding

namespace CyclePattern

namespace Node

section

variable {α : Type} {items : List (Node α)}

theorem fill_length (hitems : items ≠ []) : fill items items.length = items := by
  apply List.ext_getElem (length_fill hitems items.length)
  intro i hi hlength
  simp [fill_eq_map hitems, Nat.mod_eq_of_lt hlength]

/-- One more round takes all items once more. -/
theorem fill_length_add (hitems : items ≠ []) (steps : Nat) :
    fill items (items.length + steps) = items ++ fill items steps := by
  have hround := fill_length hitems
  rw [fill_eq_map hitems] at hround
  rw [fill_eq_map hitems, fill_eq_map hitems, List.range_add, List.map_append, hround, List.map_map]
  congr 2
  funext i
  simp

theorem fill_mul_length (hitems : items ≠ []) (rounds : Nat) :
    fill items (rounds * items.length) = (List.replicate rounds items).flatten := by
  induction rounds with
  | zero => simp [fill]
  | succ rounds ih =>
      calc
        _ = fill items (items.length + rounds * items.length) := by
          rw [Nat.succ_mul, Nat.add_comm]
        _ = items ++ (List.replicate rounds items).flatten := by
          rw [fill_length_add hitems, ih]
        _ = (List.replicate (rounds + 1) items).flatten := by
          rw [List.replicate_succ, List.flatten_cons]

theorem takeWhile_append_of_head? {nodes others : List (Node α)}
    (hothers : ∀ first ∈ others.head?, first.isElongation = false) :
    (nodes ++ others).takeWhile isElongation = nodes.takeWhile isElongation := by
  induction nodes with
  | nil =>
      cases others with
      | nil => rfl
      | cons first rest =>
          exact List.takeWhile_cons_of_neg (by simpa using hothers first rfl)
  | cons n tail ih => rw [List.cons_append, List.takeWhile_cons, List.takeWhile_cons, ih]

/-- Slots before an item that is no elongation are filled without regard to it. -/
theorem slotRuns_append {nodes others : List (Node α)}
    (hothers : ∀ first ∈ others.head?, first.isElongation = false) (index : Nat) :
    slotRuns index (nodes ++ others) =
      slotRuns index nodes ++ slotRuns (index + nodes.length) others := by
  induction nodes generalizing index with
  | nil => rfl
  | cons n tail ih =>
      have hlast : index + 1 + tail.length = index + (n :: tail).length := by
        simp only [List.length_cons]
        omega
      have hnext := ih (index + 1)
      rw [hlast] at hnext
      rw [List.cons_append]
      cases helongation : n.isElongation with
      | true =>
          rw [slotRuns_of_isElongation helongation, slotRuns_of_isElongation helongation, hnext]
      | false =>
          cases hrest : n.isRest with
          | true => rw [slotRuns_of_isRest hrest, slotRuns_of_isRest hrest, hnext]
          | false =>
              rw [slotRuns_of_sounding helongation hrest, slotRuns_of_sounding helongation hrest,
                takeWhile_append_of_head? hothers, hnext, List.cons_append]

theorem slotRuns_dropWhile (index : Nat) (nodes : List (Node α)) :
    slotRuns (index + (nodes.takeWhile isElongation).length) (nodes.dropWhile isElongation) =
      slotRuns index nodes := by
  induction nodes generalizing index with
  | nil => rfl
  | cons n tail ih =>
      cases helongation : n.isElongation with
      | true =>
          have hstart : index + ((tail.takeWhile isElongation).length + 1) =
              index + 1 + (tail.takeWhile isElongation).length := by
            omega
          calc
            _ = slotRuns (index + 1 + (tail.takeWhile isElongation).length)
                  (tail.dropWhile isElongation) := by
              rw [List.takeWhile_cons_of_pos helongation, List.dropWhile_cons_of_pos helongation,
                List.length_cons, hstart]
            _ = slotRuns (index + 1) tail := ih (index + 1)
            _ = slotRuns index (n :: tail) := (slotRuns_of_isElongation helongation index).symm
      | false =>
          rw [List.takeWhile_cons_of_neg (by simp [helongation]),
            List.dropWhile_cons_of_neg (by simp [helongation])]
          rfl

/-- What is played in a number of rounds is played in each of them. -/
theorem slotRuns_rounds {rounds : Nat}
    (hfirst : rounds = 1 ∨ ∀ first ∈ items.head?, first.isElongation = false) :
    slotRuns 0 (List.replicate rounds items).flatten =
      (List.range rounds).flatMap fun round => slotRuns (round * items.length) items := by
  rcases hfirst with rfl | hfirst
  · simp
  · induction rounds with
    | zero => rfl
    | succ rounds ih =>
        have hlast : (List.replicate rounds items).flatten.length = rounds * items.length := by
          simp
        calc
          _ = slotRuns 0 ((List.replicate rounds items).flatten ++ items) := by
            rw [List.replicate_succ', List.flatten_append, List.flatten_singleton]
          _ = slotRuns 0 (List.replicate rounds items).flatten ++
                slotRuns (rounds * items.length) items := by
            rw [slotRuns_append hfirst, Nat.zero_add, hlast]
          _ = (List.range (rounds + 1)).flatMap fun round =>
                slotRuns (round * items.length) items := by
            rw [ih, List.range_succ, List.flatMap_append, List.flatMap_singleton]

end

variable {window : Window Rat} {children : List (Node Rat)} {length : Rat}

theorem hold_eq (weight : Rat) (nodes : List (Node Rat)) :
    hold weight nodes =
      (weight + (nodes.takeWhile isElongation).length, nodes.dropWhile isElongation) := by
  induction nodes generalizing weight with
  | nil => simp [hold]
  | cons n tail ih =>
      cases n with
      | elongation span =>
          rw [hold, ih, List.takeWhile_cons_of_pos rfl, List.dropWhile_cons_of_pos rfl,
            List.length_cons, Measure.one, Measure.ofInt_rat]
          push_cast
          ring_nf
      | _ => simp [hold, isElongation]

/-- An item of weight one weighs as much as it and the elongations after it are. -/
theorem hold_ownWeight {child : Node Rat} (hweight : child.ownWeight = 1) (tail : List (Node Rat)) :
    hold child.ownWeight tail =
      (((1 + (tail.takeWhile isElongation).length : Nat) : Rat), tail.dropWhile isElongation) := by
  rw [hold_eq, hweight, Nat.cast_add, Nat.cast_one]

/-- Whether a part is played at all. -/
def isPlayed (part : Node Rat × Window Rat) : Bool :=
  !part.1.isRest

theorem isRest_asItem {α : Type} (n : Node α) : n.asItem.isRest = (n.isElongation || n.isRest) := by
  cases n <;> rfl

theorem asItem_of_not_isElongation {α : Type} {n : Node α} (hn : n.isElongation = false) :
    n.asItem = n := by
  cases n with
  | elongation span => cases hn
  | _ => rfl

/-- The windows of items that fill some slots. -/
def slotParts (window : Window Rat) (length : Rat) (runs : List (Node Rat × Nat × Nat)) :
    List (Node Rat × Window Rat) :=
  runs.map fun run => (run.1, window.part length run.2.1 run.2.2)

/-- Items in proportion to weights of one take the slots of their numbers. -/
theorem filter_layout {total duration : Rat} (hslot : duration / total = length)
    (hweights : ∀ child ∈ children, child.ownWeight = 1) (index : Nat) :
    (layout total duration (window.edge length index) (weightedItems children)).filter isPlayed =
      slotParts window length (slotRuns index children) := by
  fun_induction weightedItems children generalizing index with
  | case1 => rfl
  | case2 child tail held ih =>
      obtain ⟨hweight, htail⟩ := List.forall_mem_cons.mp hweights
      have hnext := ih fun child hchild => htail child (mem_of_mem_hold hchild)
      simp only [held, hold_ownWeight hweight] at hnext ⊢
      set held := (tail.takeWhile isElongation).length with hheld
      have hsize : ((1 + held : Nat) : Rat) / total * duration = length * (1 + held : Nat) := by
        rw [← hslot]
        ring
      have hcursor : window.edge length index + length * (1 + held : Nat) =
          window.edge length (index + 1 + held) := by
        rw [Window.edge, Window.edge]
        push_cast
        ring
      rw [layout, hsize, hcursor, List.filter_cons, hnext, hheld, slotRuns_dropWhile, isPlayed,
        isRest_asItem]
      cases helongation : child.isElongation with
      | true =>
          rw [slotRuns_of_isElongation helongation]
          rfl
      | false =>
          rw [asItem_of_not_isElongation helongation]
          cases hrest : child.isRest with
          | true =>
              rw [slotRuns_of_isRest hrest]
              rfl
          | false =>
              rw [slotRuns_of_sounding helongation hrest, slotParts, slotParts, List.map_cons]
              rfl

theorem countOf_some {n : Int} (hn : 1 ≤ n) : countOf (some n) = n :=
  if_neg (by omega)

/-- A sequence of items of weight one plays them in the slots of their numbers. -/
theorem perform_sequence_of_weights (hchildren : children ≠ [])
    (hweights : ∀ child ∈ children, child.ownWeight = 1) {part : Window Rat} {index : Nat}
    (hstart : part.start = window.edge length index)
    (hlength : part.duration / children.length = length) :
    (sequence children).perform part =
      (slotParts window length (slotRuns index children)).flatMapM fun part =>
        part.1.perform part.2 := by
  have htotal : Measure.sum ((weightedItems children).map (·.2)) = (children.length : Rat) := by
    rw [sum_rat, sum_weightedItems, List.map_eq_replicate_iff.mpr hweights, List.sum_replicate,
      nsmul_one]
  have hcount : (0 : Rat) < children.length := by
    exact_mod_cast List.length_pos_iff.mpr hchildren
  have hnonzero : Measure.isZero (children.length : Rat) = false :=
    LawfulMeasure.isZero_eq_false hcount
  have hitems : (weightedItems children).isEmpty = false := by
    simpa using weightedItems_ne_nil hchildren
  have hparts : (sequence children).parts part =
      .ok (layout children.length part.duration (window.edge length index)
        (weightedItems children)) := by
    simp [parts, sequenceParts, htotal, hnonzero, hitems, hstart]
  rw [perform_of_plain hparts rfl fun _ => rfl, ← filter_layout hlength hweights,
    flatMapM_filter]
  intro item _ hrest
  exact perform_of_isRest (by simpa [isPlayed] using hrest) item.2

/-- The slots of a group that goes round are those of its rounds, one after the other. -/
theorem parts_rounds (hchildren : children ≠ []) {count : Nat} (hcount : 0 < count)
    (hfirst : count = 1 ∨ ∀ first ∈ children.head?, first.isElongation = false)
    (window : Window Rat) (span : Span) :
    (polymetric [sequence children] (some (count * children.length)) span).parts window =
      .ok (slotParts window (window.duration / (count * children.length))
        ((List.range count).flatMap fun round => slotRuns (round * children.length) children)) := by
  have hlength := List.length_pos_iff.mpr hchildren
  have hsteps : (0 : Int) < count * children.length := by positivity
  have hslots : ((count : Int) * children.length).toNat = count * children.length := by
    rw [← Int.natCast_mul, Int.toNat_natCast]
  have hruns : slotRuns 0 (fill children ((count : Int) * children.length).toNat) =
      (List.range count).flatMap fun round => slotRuns (round * children.length) children :=
    calc
      _ = slotRuns 0 (List.replicate count children).flatten := by
        rw [hslots, fill_mul_length hchildren]
      _ = (List.range count).flatMap fun round => slotRuns (round * children.length) children :=
        slotRuns_rounds hfirst
  rw [parts, steppedParts_rat _ window hsteps, List.flatMap_singleton, items, hruns]
  push_cast
  rfl

/-- A group whose slots go round plays what its items play as a sequence that is repeated. -/
theorem perform_rounds (hchildren : children ≠ [])
    (hweights : ∀ child ∈ children, child.ownWeight = 1) {rounds : Int} (hrounds : 1 ≤ rounds)
    (hfirst : rounds = 1 ∨ ∀ first ∈ children.head?, first.isElongation = false)
    (window : Window Rat) (span other : Span) :
    (polymetric [sequence children] (some (rounds * children.length)) span).perform window =
      (subdivision (sequence children) (some rounds) none none other).perform window := by
  obtain ⟨count, rfl⟩ := Int.eq_ofNat_of_zero_le (by omega : 0 ≤ rounds)
  have hcount : (0 : Int) < count := by omega
  have hone : count = 1 ∨ ∀ first ∈ children.head?, first.isElongation = false :=
    hfirst.imp_left fun hone => by exact_mod_cast hone
  have hslots := parts_rounds hchildren (by omega : 0 < count) hone window span
  have hrepeats : (subdivision (sequence children) (some count) none none other).parts window =
      .ok ((List.range count).map fun round =>
        (sequence children, window.slot (window.duration / count) round)) := by
    rw [parts, repeatedParts, countOf_some (by omega), Window.split_rat window hcount]
    simp [Except.map]
  rw [perform_of_plain hslots rfl fun _ => rfl, perform_of_plain hrepeats rfl fun _ => rfl,
    slotParts, List.map_flatMap, flatMapM_flatMap, flatMapM_comp]
  apply flatMapM_congr
  intro round _
  have hstart : (window.slot (window.duration / count) round).start =
      window.edge (window.duration / (count * children.length)) (round * children.length) := by
    have hne : (children.length : Rat) ≠ 0 := by
      exact_mod_cast (List.length_pos_iff.mpr hchildren).ne'
    have hne' : (count : Rat) ≠ 0 := by exact_mod_cast hcount.ne'
    rw [Window.slot, Window.edge, Measure.ofInt_rat]
    push_cast
    field_simp
  exact (perform_sequence_of_weights hchildren hweights hstart (div_div _ _ _)).symm

/-- A group with steps is played if all its items are. -/
theorem exists_perform_of_items {groups : List (Node Rat)} {steps : Int} (hsteps : 0 < steps)
    (hitems : ∀ group ∈ groups, ∀ item ∈ group.items, ∀ window,
      ∃ events, item.perform window = .ok events)
    (window : Window Rat) (span : Span) :
    ∃ events, (polymetric groups (some steps) span).perform window = .ok events := by
  have hparts : (polymetric groups (some steps) span).parts window = .ok _ :=
    steppedParts_rat groups window hsteps
  rw [perform_of_plain hparts rfl fun _ => rfl]
  apply exists_flatMapM
  intro part hpart
  obtain ⟨group, hgroup, hitem⟩ := exists_item_of_mem_steppedParts hparts hpart
  exact hitems group hgroup part.1 hitem part.2

theorem ownWeight_exact {n : Node Float}
    (hn : ∀ sound span, n = atom sound span → sound.weight = 1) :
    n.exact.ownWeight = 1 := by
  cases n with
  | atom sound span =>
      have hweight : exactValue sound.weight = 1 := by
        rw [hn sound span rfl, exactValue_one]
      exact hweight
  | _ => rfl

end Node

namespace Reading

/-- Whether a node stands in a tree that was read from some text. -/
def WasRead (n : Node Float) : Prop :=
  ∃ limit cs items, (ofText limit 0 0 cs).result = .ok items ∧ (Node.sequence items).Holds n

theorem WasRead.exists_perform {n : Node Float} (hn : WasRead n) (hfinite : n.IsFinite)
    (window : Window Rat) : ∃ events, n.exact.perform window = .ok events := by
  obtain ⟨limit, cs, items, hresult, hholds⟩ := hn
  apply Node.exists_perform
  intro m hm
  exact Node.wellFormed_of_holds_exact
    (fun k hk => forall_wellFormed hresult k (hholds.trans hk)) hfinite hm

/-- A sequence of nodes that were read, with weights of one, plays the same in the slots of a group
that goes round as in a group that is repeated. -/
theorem perform_exact_rounds {children : List (Node Float)}
    (hread : ∀ child ∈ children, WasRead child) (hfinite : (Node.sequence children).IsFinite)
    (hchildren : children ≠ [])
    (hweights : ∀ sound span, .atom sound span ∈ children → sound.weight = 1)
    {rounds : Int} (hrounds : 1 ≤ rounds)
    (hfirst : rounds = 1 ∨ ∀ first ∈ children.head?, first.isElongation = false)
    (window : Window Rat) (span other : Span) :
    ∃ events,
      (Node.polymetric [.sequence children] (some (rounds * children.length)) span).exact.perform
        window = .ok events ∧
      (Node.subdivision (.sequence children) (some rounds) none none other).exact.perform
        window = .ok events := by
  have hslots : (Node.polymetric [.sequence children] (some (rounds * children.length)) span).exact =
      .polymetric [.sequence (children.map Node.exact)]
        (some (rounds * (children.map Node.exact).length)) span := by
    simp [Node.exact, Node.map]
  have hrepeats : (Node.subdivision (.sequence children) (some rounds) none none other).exact =
      .subdivision (.sequence (children.map Node.exact)) (some rounds) none none other := by
    simp [Node.exact, Node.map]
  have hones : ∀ child ∈ children.map Node.exact, child.ownWeight = 1 := by
    intro child hchild
    obtain ⟨n, hn, rfl⟩ := List.mem_map.mp hchild
    exact Node.ownWeight_exact fun sound span hsame => hweights sound span (hsame ▸ hn)
  have hstarts : rounds = 1 ∨
      ∀ first ∈ (children.map Node.exact).head?, first.isElongation = false := by
    refine hfirst.imp_right fun hfirst first hhead => ?_
    rw [List.head?_map] at hhead
    obtain ⟨n, hn, rfl⟩ := Option.map_eq_some_iff.mp hhead
    rw [Node.exact, Node.isElongation_map]
    exact hfirst n hn
  have hplays : ∀ group ∈ [Node.sequence (children.map Node.exact)], ∀ item ∈ group.items,
      ∀ window, ∃ events, item.perform window = .ok events := by
    intro group hgroup item hitem part
    cases List.mem_singleton.mp hgroup
    obtain ⟨n, hn, rfl⟩ := List.mem_map.mp hitem
    exact (hread n hn).exists_perform (fun m hm => hfinite m (.child hn hm)) part
  have hsome : children.map Node.exact ≠ [] := by simpa using hchildren
  have hsteps : 0 < rounds * ((children.map Node.exact).length : Int) := by
    have hlength : 0 < (children.map Node.exact).length := List.length_pos_iff.mpr hsome
    positivity
  rw [hslots, hrepeats]
  obtain ⟨events, hevents⟩ := Node.exists_perform_of_items hsteps hplays window span
  refine ⟨events, hevents, ?_⟩
  rw [← hevents]
  exact (Node.perform_rounds hsome hones hrounds hstarts window span other).symm

/-- The items `a _ ^5` in six slots, and twice in a row. -/
theorem perform_exact_rounds_of_two :
    ∃ events,
      (Node.polymetric [.sequence steppedItems] (some 6) (.between 0 10)).exact.perform ⟨0, 1⟩ =
        .ok events ∧
      (Node.subdivision (.sequence steppedItems) (some 2) none none (.between 0 9)).exact.perform
        ⟨0, 1⟩ = .ok events := by
  have hgroup : (Node.sequence [steppedGroup]).Holds (.sequence steppedItems) :=
    .child List.mem_cons_self (.child List.mem_cons_self (.refl _))
  have hread : ∀ child ∈ steppedItems, WasRead child := fun child hchild =>
    ⟨1, _, _, result_stepped_group, hgroup.trans (.child hchild (.refl child))⟩
  have hfinite : (Node.sequence steppedItems).IsFinite := fun m hm =>
    isFinite_stepped_group m (hgroup.trans hm)
  have hone : (Measure.one : Float) = 1 := by decide +kernel
  have hweights : ∀ sound span, .atom sound span ∈ steppedItems → sound.weight = 1 := by
    simp [steppedItems, Atom.ofModifiers, Modifiers.none, hone]
  have hfirst : ∀ first ∈ steppedItems.head?, first.isElongation = false := by
    simp [steppedItems, Node.isElongation]
  have htwo : (1 : Int) ≤ 2 := by decide
  exact perform_exact_rounds hread hfinite (List.cons_ne_nil _ _) hweights htwo
    (.inr hfirst) ⟨0, 1⟩ (.between 0 10) (.between 0 9)

end Reading

end CyclePattern
