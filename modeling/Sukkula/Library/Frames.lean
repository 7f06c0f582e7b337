import Mathlib.Data.List.Infix

/-! # Words one after the other

A code in which no word begins another can be written without separators: what was
written so far tells which words they were, and a stream that breaks off inside a
word has lost that word only.
-/

namespace Sukkula.Frames

variable {α β : Type*} {P : α → Prop} {code : α → List β} {as bs : List α} {rest : List β}

/-- No word begins another, among those that are used. -/
structure PrefixCode (P : α → Prop) (code : α → List β) : Prop where
  ne_nil : ∀ a, P a → code a ≠ []
  inj : ∀ a b x y, P a → P b → code a ++ x = code b ++ y → a = b

/-- The words of a stream are the first of those that were written. -/
theorem PrefixCode.isPrefix (hc : PrefixCode P code) (has : ∀ a ∈ as, P a) (hbs : ∀ b ∈ bs, P b)
    (h : as.flatMap code ++ rest <+: bs.flatMap code) : as <+: bs := by
  induction as generalizing bs with
  | nil => exact List.nil_prefix
  | cons a as ih =>
    obtain ⟨z, hz⟩ := h
    rw [List.flatMap_cons, List.append_assoc, List.append_assoc] at hz
    cases bs with
    | nil => exact absurd (List.append_eq_nil_iff.mp hz).1 (hc.ne_nil a (has a (by simp)))
    | cons b bs =>
      rw [List.flatMap_cons] at hz
      obtain rfl := hc.inj a b _ _ (has a (by simp)) (hbs b (by simp)) hz
      have hrest := List.append_cancel_left hz
      apply List.cons_prefix_cons.mpr
      refine ⟨rfl, ih (fun x hx => has x (by simp [hx])) (fun x hx => hbs x (by simp [hx])) ⟨z, ?_⟩⟩
      rw [List.append_assoc]
      exact hrest

/-- Where the words and a rest are all that was written, the rest begins with a word or is
nothing. -/
theorem PrefixCode.eq_or_word (hc : PrefixCode P code) (has : ∀ a ∈ as, P a) (hbs : ∀ b ∈ bs, P b)
    (h : as.flatMap code ++ rest = bs.flatMap code) :
    (as = bs ∧ rest = []) ∨ ∃ b ∈ bs, code b <+: rest := by
  obtain ⟨more, rfl⟩ := hc.isPrefix has hbs ⟨[], by rw [List.append_nil, h]⟩
  rw [List.flatMap_append] at h
  have hrest := List.append_cancel_left h
  cases more with
  | nil => exact Or.inl ⟨by simp, hrest⟩
  | cons b more =>
    refine Or.inr ⟨b, by simp, more.flatMap code, ?_⟩
    rw [hrest, List.flatMap_cons]

end Sukkula.Frames
