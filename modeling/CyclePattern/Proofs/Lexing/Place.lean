/-
# Tokens in their place

Some tokens of a text that stand together take up a stretch of it. The stretch by itself has just
these tokens, since what came after it is cut off.
-/

import CyclePattern.Proofs.Lexing.Token
import Mathlib.Data.List.Basic

namespace CyclePattern

/-- The characters from an offset up to another one. -/
def Text.slice (cs : List Char) (start stop : Nat) : List Char :=
  (cs.drop start).take (stop - start)

open Text

namespace Token

/-- The tokens stand together among those of a text, from an offset on. -/
def Occur (cs : List Char) (offset : Nat) (ts : List Token) : Prop :=
  ∃ before later, tokens cs = before ++ (ts ++ later) ∧ (textOf before).length = offset

variable {cs : List Char} {o : Nat} {t : Token} {ts us : List Token}

theorem occur_tokens (cs : List Char) : Occur cs 0 (tokens cs) :=
  ⟨[], [], by simp, rfl⟩

theorem Occur.left (hoccur : Occur cs o (ts ++ us)) : Occur cs o ts := by
  obtain ⟨before, later, htokens, hlength⟩ := hoccur
  exact ⟨before, us ++ later, by rw [htokens, List.append_assoc], hlength⟩

theorem Occur.right (hoccur : Occur cs o (ts ++ us)) : Occur cs (o + (textOf ts).length) us := by
  obtain ⟨before, later, htokens, hlength⟩ := hoccur
  refine ⟨before ++ ts, later, by rw [htokens, List.append_assoc, List.append_assoc], ?_⟩
  rw [textOf_append, List.length_append, hlength]

theorem Occur.tail (hoccur : Occur cs o (t :: ts)) : Occur cs (o + t.text.length) ts := by
  have hsplit : Occur cs o ([t] ++ ts) := hoccur
  simpa using hsplit.right

theorem Occur.mem (hoccur : Occur cs o ts) (ht : t ∈ ts) : t ∈ tokens cs := by
  obtain ⟨before, later, htokens, -⟩ := hoccur
  rw [htokens]
  exact List.mem_append_right before (List.mem_append_left later ht)

/-- The text goes on with the characters of the tokens, which are legible there. -/
theorem Occur.drop_eq (hoccur : Occur cs o ts) :
    cs.drop o = textOf ts ++ cs.drop (o + (textOf ts).length) ∧
      Legible (cs.drop (o + (textOf ts).length)) ts := by
  obtain ⟨before, later, htokens, rfl⟩ := hoccur
  obtain ⟨rfl, hlegible⟩ := tokens_eq_iff.mp htokens
  have hdrop : (textOf (before ++ (ts ++ later))).drop ((textOf before).length + (textOf ts).length) =
      textOf later := by
    rw [textOf_append, textOf_append, ← List.append_assoc, ← List.length_append, List.drop_left]
  rw [hdrop]
  constructor
  · rw [textOf_append, List.drop_left, textOf_append]
  · have hrest := (legible_append_iff.mp hlegible).2
    rw [legible_append_iff, List.append_nil] at hrest
    exact hrest.1

theorem Occur.le_length (hoccur : Occur cs o ts) : o + (textOf ts).length ≤ cs.length := by
  obtain ⟨before, later, htokens, rfl⟩ := hoccur
  obtain ⟨rfl, -⟩ := tokens_eq_iff.mp htokens
  simp only [textOf_append, List.length_append]
  omega

theorem Occur.slice_eq (hoccur : Occur cs o ts) :
    slice cs o (o + (textOf ts).length) = textOf ts := by
  rw [slice, Nat.add_sub_cancel_left, hoccur.drop_eq.1, List.take_left]

/-- The first character of a token stands where the token does. -/
theorem Occur.getElem?_eq (hoccur : Occur cs o (t :: ts)) : cs[o]? = t.text.head? := by
  obtain ⟨hdrop, hstands, -⟩ := hoccur.drop_eq
  rw [← List.head?_drop, hdrop, textOf_cons, List.append_assoc,
    List.head?_append_of_ne_nil _ (text_ne_nil_of_stands hstands)]

/-- The stretch of some tokens has these tokens by itself. -/
theorem Occur.tokens_textOf (hoccur : Occur cs o ts) : tokens (textOf ts) = ts := by
  have hend : StartsWithCloser [] := by
    intro c rest hcons
    cases hcons
  exact tokens_eq_iff.mpr ⟨rfl, hoccur.drop_eq.2.exchange hend⟩

end Token

end CyclePattern
