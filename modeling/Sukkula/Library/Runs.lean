import Mathlib.Data.List.Infix

/-! # Runs in a list

A run is a part of a list whose elements are all of one kind; some of them
count, and others may stand between these. A list built element by element has
short runs everywhere if the run it ends in is short at every point.
-/

namespace Sukkula.Runs

variable {α : Type*} (member counts : α → Bool) {k : ℕ} {s t : List α} {c : α}

/-- The run at the end has at most `k` elements that count. -/
def EndLe (k : ℕ) (s : List α) : Prop :=
  ∀ r, r <:+ s → (∀ c ∈ r, member c) → r.countP counts ≤ k

def AllLe (k : ℕ) (s : List α) : Prop :=
  ∀ r, r <:+: s → (∀ c ∈ r, member c) → r.countP counts ≤ k

variable {member counts}

theorem EndLe.nil : EndLe member counts k [] := by
  intro r hr _
  rw [List.suffix_nil.mp hr]
  exact Nat.zero_le k

theorem EndLe.mono {l : ℕ} (h : EndLe member counts k s) (hkl : k ≤ l) : EndLe member counts l s :=
  fun r hr hall => (h r hr hall).trans hkl

theorem EndLe.stop (hc : ¬ member c) : EndLe member counts k (s ++ [c]) := by
  intro r hr hall
  rcases List.suffix_concat_iff.mp hr with rfl | ⟨r', rfl, -⟩
  · exact Nat.zero_le k
  · exact absurd (hall c (by simp)) hc

theorem EndLe.count (h : EndLe member counts k s) : EndLe member counts (k + 1) (s ++ [c]) := by
  intro r hr hall
  rcases List.suffix_concat_iff.mp hr with rfl | ⟨r', rfl, hr'⟩
  · exact Nat.zero_le _
  · have hle := h r' hr' fun d hd => hall d (by simp [hd])
    have hone := List.countP_le_length (p := counts) (l := [c])
    rw [List.countP_append]
    exact Nat.add_le_add hle hone

theorem EndLe.pass (h : EndLe member counts k s) (hc : ¬ counts c) :
    EndLe member counts k (s ++ [c]) := by
  intro r hr hall
  rcases List.suffix_concat_iff.mp hr with rfl | ⟨r', rfl, hr'⟩
  · exact Nat.zero_le _
  · have hle := h r' hr' fun d hd => hall d (by simp [hd])
    simpa [List.countP_append, hc] using hle

/-- Where nothing counts in the run at the end, no element that does is the last. -/
theorem EndLe.last (h : EndLe member counts 0 s) (hm : member c) (hc : counts c) :
    s.getLast? ≠ some c := by
  intro hlast
  obtain ⟨r, rfl⟩ := List.getLast?_eq_some_iff.mp hlast
  have := h [c] (List.suffix_append _ _) (by simpa using hm)
  simp [hc] at this

theorem AllLe.nil : AllLe member counts k [] := by
  intro r hr _
  rw [List.infix_nil.mp hr]
  exact Nat.zero_le k

theorem AllLe.concat (h : AllLe member counts k s) (hc : EndLe member counts k (s ++ [c])) :
    AllLe member counts k (s ++ [c]) := by
  intro r hr hall
  rcases List.infix_concat_iff.mp hr with hr | hr
  · exact hc r hr hall
  · exact h r hr hall

theorem AllLe.of_isPrefix (h : AllLe member counts k s) (ht : t <+: s) : AllLe member counts k t :=
  fun r hr hall => h r (hr.trans ht.isInfix) hall

end Sukkula.Runs
