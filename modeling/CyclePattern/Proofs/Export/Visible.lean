/-
# What is written is visible

A report holds visible characters of ASCII and spaces only, as long as it is on one line. Anything
else that stands in a text is escaped there by visible characters.
-/

import CyclePattern.Export.Json
import CyclePattern.Text.Class
import Mathlib.Data.List.Basic

namespace CyclePattern

namespace Text

variable {cs ds : List Char}

/-- A character of ASCII that leaves a mark, or a space. -/
def IsVisible (c : Char) : Prop :=
  0x20 ≤ c.toNat ∧ c.toNat ≤ 0x7e

instance (c : Char) : Decidable (IsVisible c) :=
  inferInstanceAs (Decidable (_ ∧ _))

/-- A text of visible characters. -/
def Visible (cs : List Char) : Prop :=
  ∀ c ∈ cs, IsVisible c

instance (cs : List Char) : Decidable (Visible cs) :=
  List.decidableBAll IsVisible cs

theorem visible_nil : Visible [] :=
  List.forall_mem_nil _

theorem visible_cons {c : Char} : Visible (c :: cs) ↔ IsVisible c ∧ Visible cs :=
  List.forall_mem_cons

theorem visible_append : Visible (cs ++ ds) ↔ Visible cs ∧ Visible ds :=
  List.forall_mem_append

theorem visible_replicate (count : Nat) {c : Char} (hc : IsVisible c) :
    Visible (List.replicate count c) := by
  intro d hd
  rwa [List.eq_of_mem_replicate hd]

theorem Visible.of_subset (hds : Visible ds) (hsubset : cs ⊆ ds) : Visible cs :=
  fun c hc => hds c (hsubset hc)

theorem visible_flatMap {α : Type} {xs : List α} {f : α → List Char}
    (hall : ∀ x ∈ xs, Visible (f x)) : Visible (xs.flatMap f) := by
  intro c hc
  obtain ⟨x, hx, hmem⟩ := List.mem_flatMap.mp hc
  exact hall x hx c hmem

theorem visible_intercalate {lines : List (List Char)} (hcs : Visible cs)
    (hlines : ∀ line ∈ lines, Visible line) : Visible (cs.intercalate lines) := by
  induction lines with
  | nil => exact visible_nil
  | cons line lines ih =>
      obtain ⟨hline, hrest⟩ := List.forall_mem_cons.mp hlines
      cases lines with
      | nil => rwa [List.intercalate_singleton]
      | cons second lines =>
          rw [List.intercalate_cons_cons]
          exact visible_append.mpr ⟨visible_append.mpr ⟨hline, hcs⟩, ih hrest⟩

/-- No line ends within a visible text. -/
theorem Visible.not_mem_feed (hcs : Visible cs) : '\n' ∉ cs := by
  intro hfeed
  exact absurd (hcs _ hfeed) (by decide)

theorem isVisible_digitChar (n : Nat) : IsVisible n.digitChar :=
  match n with
  | 0 | 1 | 2 | 3 | 4 | 5 | 6 | 7 | 8 | 9 | 10 | 11 | 12 | 13 | 14 | 15 => by decide
  | n + 16 => by
    have hstar : (n + 16).digitChar = '*' := Nat.digitChar_eq_star.mpr (Nat.le_add_left _ _)
    rw [hstar]
    decide

theorem visible_toDigits {base : Nat} (hbase : 1 < base) (n : Nat) :
    Visible (Nat.toDigits base n) := by
  induction n using Nat.strongRecOn with
  | ind n ih =>
    rw [Nat.toDigits_eq_if hbase]
    split
    · exact visible_cons.mpr ⟨isVisible_digitChar n, visible_nil⟩
    · next hle =>
        have hlt : n / base < n := Nat.div_lt_self (by omega) hbase
        exact visible_append.mpr
          ⟨ih _ hlt, visible_cons.mpr ⟨isVisible_digitChar _, visible_nil⟩⟩

theorem visible_hexPadded (width n : Nat) : Visible (hexPadded width n) :=
  visible_append.mpr ⟨visible_replicate _ (by decide), visible_toDigits (by decide) n⟩

theorem visible_toString (n : Int) : Visible (toString n).toList := by
  rw [Int.toString_eq_repr]
  cases n with
  | ofNat n =>
      change Visible n.repr.toList
      rw [Nat.toList_repr]
      exact visible_toDigits (by decide) n
  | negSucc n =>
      change Visible ("-" ++ n.succ.repr).toList
      rw [String.toList_append, Nat.toList_repr]
      exact visible_append.mpr ⟨by decide, visible_toDigits (by decide) n.succ⟩

theorem toNat_of_isDigit {c : Char} (hdigit : c.isDigit = true) :
    48 ≤ c.toNat ∧ c.toNat ≤ 57 := by
  simp only [Char.isDigit, Bool.and_eq_true, decide_eq_true_eq, ge_iff_le] at hdigit
  exact ⟨UInt32.le_iff_toNat_le.mp hdigit.1, UInt32.le_iff_toNat_le.mp hdigit.2⟩

theorem isBlank_of_isDigit {c : Char} (hdigit : c.isDigit = true) : isBlank c = false := by
  have hbounds := toNat_of_isDigit hdigit
  simp only [isBlank, Bool.or_eq_false_iff, Bool.and_eq_false_iff, decide_eq_false_iff_not,
    beq_eq_false_iff_ne]
  omega

end Text

open Text

theorem Decimal.visible_digitsOf (n : Nat) : Visible (digitsOf n) :=
  visible_toDigits (by decide) n

/-- A decimal has the digits of a number, without the zeros at its end. -/
theorem Decimal.visible_ofPlace (point : Nat) (place : Int) :
    Visible (ofPlace point place).digits := by
  refine (visible_digitsOf point).of_subset ?_
  intro c hc
  have hreversed := List.mem_reverse.mp hc
  exact List.mem_reverse.mp ((List.dropWhile_sublist _).subset hreversed)

theorem Decimal.visible_shortest (mantissa : Nat) (exponent : Int) :
    Visible (shortest mantissa exponent).digits := by
  unfold shortest
  dsimp only
  split
  · exact visible_ofPlace _ _
  · exact visible_nil

namespace NumberText

theorem visible_signed (negative : Bool) {size : List Char} (hsize : Visible size) :
    Visible (signed negative size) := by
  cases negative with
  | false => exact hsize
  | true => exact visible_cons.mpr ⟨by decide, hsize⟩

theorem visible_exponentText (style : Style) (power : Int) :
    Visible (exponentText style power) := by
  refine visible_cons.mpr ⟨?_, ?_⟩
  · split <;> decide
  · exact visible_append.mpr ⟨visible_replicate _ (by decide), Decimal.visible_digitsOf _⟩

/-- The digits after a point, or a zero if there are none. -/
theorem visible_fraction {digits : List Char} (hdigits : Visible digits) :
    Visible (if digits.isEmpty then ['0'] else digits) := by
  split
  · decide
  · exact hdigits

theorem visible_positional {x : Decimal} (hx : Visible x.digits) : Visible (positional x) := by
  have htake (n : Nat) : Visible (x.digits.take n) := hx.of_subset (List.take_subset _ _)
  have hdrop (n : Nat) : Visible (x.digits.drop n) := hx.of_subset (List.drop_subset _ _)
  have hzeros (n : Nat) : Visible (List.replicate n '0') := visible_replicate n (by decide)
  have hzero : IsVisible '0' := by decide
  have hpoint : IsVisible '.' := by decide
  unfold positional
  split
  · simp only [visible_append, visible_cons]
    exact ⟨⟨hzero, hpoint, hzeros _⟩, hx⟩
  · simp only [visible_append, visible_cons]
    exact ⟨⟨htake _, hzeros _⟩, hpoint, visible_fraction (hdrop _)⟩

theorem visible_scientific (style : Style) {x : Decimal} (hx : Visible x.digits) :
    Visible (scientific style x) := by
  have hfraction : Visible (x.digits.drop 1) := hx.of_subset (List.drop_subset _ _)
  unfold scientific
  simp only [visible_append, visible_cons]
  refine ⟨⟨hx.of_subset (List.take_subset _ _), ?_⟩, by decide, visible_exponentText _ _⟩
  split
  · exact visible_nil
  · exact visible_cons.mpr ⟨by decide, hfraction⟩

/-- A number is visible if the names of what is no number are. -/
theorem visible_plain {style : Style} (hinfinity : Visible style.infinity.toList)
    (hnone : Visible style.notANumber.toList) (x : Float) : Visible (plain style x) := by
  unfold plain
  split
  · exact hnone
  · exact visible_signed _ hinfinity
  · next negative mantissa exponent _ =>
      have hdigits := Decimal.visible_shortest mantissa exponent
      refine visible_signed _ ?_
      split
      · decide
      · unfold positive
        split
        · exact visible_positional hdigits
        · exact visible_scientific style hdigits

theorem visible_fixed (places : Nat) (x : Float) : Visible (fixed places x) := by
  unfold fixed
  split
  · decide
  · exact visible_signed _ (by decide)
  · next negative mantissa exponent _ =>
      have hpadded (width n : Nat) :
          Visible (List.replicate width '0' ++ Decimal.digitsOf n) :=
        visible_append.mpr ⟨visible_replicate width (by decide), Decimal.visible_digitsOf n⟩
      refine visible_signed _ (visible_append.mpr ⟨?_, ?_⟩)
      · exact (hpadded _ _).of_subset (List.take_subset _ _)
      · split
        · exact visible_nil
        · refine visible_cons.mpr ⟨by decide, ?_⟩
          exact (hpadded _ _).of_subset (List.drop_subset _ _)

end NumberText

namespace Json

theorem visible_unitEscape (unit : Nat) : Visible (unitEscape unit) :=
  visible_cons.mpr ⟨by decide, visible_cons.mpr ⟨by decide, visible_hexPadded 4 unit⟩⟩

/-- Each character is written by visible ones. -/
theorem visible_escape (c : Char) : Visible (escape c) := by
  unfold escape
  dsimp only
  split
  · next hquoted =>
      have hc : c = doubleQuote ∨ c = '\\' := by simpa using hquoted
      rcases hc with rfl | rfl <;> decide
  split
  · next hshown =>
      rw [Bool.and_eq_true, decide_eq_true_eq, decide_eq_true_eq] at hshown
      exact visible_cons.mpr ⟨hshown, visible_nil⟩
  split
  · decide
  split
  · decide
  split
  · decide
  split
  · decide
  split
  · decide
  split
  · exact visible_unitEscape _
  · exact visible_append.mpr ⟨visible_unitEscape _, visible_unitEscape _⟩

theorem visible_quote (s : String) : Visible (quote s).toList := by
  rw [quote, String.toList_ofList]
  simp only [visible_append, visible_cons]
  exact ⟨⟨by decide, visible_flatMap fun c _ => visible_escape c⟩, by decide, visible_nil⟩

/-- Items between brackets are visible on one line. -/
theorem visible_enclose (depth : Nat) {opener closer : String} {items : List String}
    (hopener : Visible opener.toList) (hcloser : Visible closer.toList)
    (hitems : ∀ item ∈ items, Visible item.toList) :
    Visible (enclose oneLine depth opener closer items).toList := by
  unfold enclose
  split
  · rw [String.toList_append]
    exact visible_append.mpr ⟨hopener, hcloser⟩
  · simp only [String.toList_append, String.toList_intercalate, visible_append]
    have hedge : Visible "".toList := by decide
    have hgap : Visible (",".toList ++ " ".toList) := by decide
    refine ⟨⟨⟨⟨hopener, hedge⟩, visible_intercalate hgap ?_⟩, hedge⟩, hcloser⟩
    intro line hline
    obtain ⟨item, hitem, rfl⟩ := List.mem_map.mp hline
    exact hitems item hitem

/-- Data on one line is visible, whatever its texts hold. -/
theorem visible_write (depth : Nat) (data : Data Float) :
    Visible (write oneLine depth data).toList := by
  fun_induction write oneLine depth data with
  | case1 => decide
  | case2 depth n => exact visible_toString n
  | case3 depth x =>
      rw [String.toList_ofList]
      exact NumberText.visible_plain (by decide) (by decide) x
  | case4 depth s => exact visible_quote s
  | case5 depth items ih =>
      refine visible_enclose depth (by decide) (by decide) ?_
      intro text htext
      obtain ⟨item, hitem, rfl⟩ := List.mem_map.mp htext
      exact ih item hitem
  | case6 depth fields ih =>
      refine visible_enclose depth (by decide) (by decide) ?_
      intro text htext
      obtain ⟨field, hfield, rfl⟩ := List.mem_map.mp htext
      simp only [String.toList_append, visible_append]
      exact ⟨⟨visible_quote field.1, by decide⟩, ih field hfield⟩

end Json

end CyclePattern
