import Mathlib.Data.List.Basic

/-! # Tasks in a list

A state that keeps its tasks in a list moves one of them at a time. What is counted
over them changes by what that one counted, and what holds of each of them is
checked for that one.
-/

namespace Sukkula.Tasks

variable {α : Type*} {l : List α} {i : ℕ} {a b : α}

theorem countP_set_add (p : α → Bool) (b : α) (h : l[i]? = some a) :
    (l.set i b).countP p + (if p a then 1 else 0) = l.countP p + if p b then 1 else 0 := by
  obtain ⟨hi, ha⟩ := List.getElem?_eq_some_iff.mp h
  have hle : (if p a then 1 else 0) ≤ l.countP p := by
    split_ifs with hp
    · exact List.countP_pos_iff.mpr ⟨a, List.mem_of_getElem? h, hp⟩
    · exact Nat.zero_le _
  rw [List.countP_set hi, ha]
  omega

theorem countP_set_le {p : α → Bool} (h : l[i]? = some a) (hp : p b → p a) :
    (l.set i b).countP p ≤ l.countP p := by
  have hadd := countP_set_add p b h
  by_cases hb : p b
  · rw [if_pos hb, if_pos (hp hb)] at hadd
    omega
  · rw [if_neg hb] at hadd
    omega

theorem forall_mem_set {P : α → Prop} (h : ∀ x ∈ l, P x) (hb : P b) : ∀ x ∈ l.set i b, P x := by
  intro x hx
  rcases List.mem_or_eq_of_mem_set hx with hx | rfl
  · exact h x hx
  · exact hb

theorem forall_mem_snoc {P : α → Prop} (h : ∀ x ∈ l, P x) (hb : P b) : ∀ x ∈ l ++ [b], P x := by
  intro x hx
  rcases List.mem_append.mp hx with hx | hx
  · exact h x hx
  · rw [List.mem_singleton.mp hx]
    exact hb

theorem getElem?_set_same (b : α) (h : l[i]? = some a) : (l.set i b)[i]? = some b :=
  List.getElem?_set_self (List.getElem?_eq_some_iff.mp h).1

end Sukkula.Tasks
