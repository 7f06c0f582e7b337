import Mathlib.Data.List.Basic
import Mathlib.Logic.Function.Iterate

/-! # Streams read by the block

A reader takes the front of its input in blocks of `n`, and leaves what is
shorter than one. It can stop anywhere and go on with the rest before what comes
next: the blocks are the same.
-/

namespace Sukkula.Blocks

variable {σ α : Type*} (n : ℕ) (f : σ → List α → σ) (s : σ) (xs ys : List α)

def front (p : σ × List α) : σ × List α := (f p.1 (p.2.take n), p.2.drop n)

/-- All the whole blocks, in order, and what is left. -/
def absorb : σ × List α := (front n f)^[xs.length / n] (s, xs)

variable {n f s xs ys}

theorem absorb_of_lt (h : xs.length < n) : absorb n f s xs = (s, xs) := by
  rw [absorb, Nat.div_eq_of_lt h]
  rfl

theorem absorb_of_le (hn : 0 < n) (h : n ≤ xs.length) :
    absorb n f s xs = absorb n f (f s (xs.take n)) (xs.drop n) := by
  have hdiv : xs.length / n = (xs.length - n) / n + 1 := by
    rw [← Nat.add_div_right _ hn, Nat.sub_add_cancel h]
  rw [absorb, absorb, hdiv, Function.iterate_succ_apply, List.length_drop]
  rfl

theorem length_absorb_lt (hn : 0 < n) (s : σ) (xs : List α) : (absorb n f s xs).2.length < n := by
  induction hk : xs.length using Nat.strongRecOn generalizing s xs with
  | ind k ih =>
    by_cases h : n ≤ xs.length
    · rw [absorb_of_le hn h]
      exact ih _ (by rw [List.length_drop]; omega) _ _ rfl
    · have hlt := Nat.lt_of_not_le h
      rwa [absorb_of_lt hlt]

theorem absorb_append (hn : 0 < n) (s : σ) (xs ys : List α) :
    absorb n f s (xs ++ ys) = absorb n f (absorb n f s xs).1 ((absorb n f s xs).2 ++ ys) := by
  induction hk : xs.length using Nat.strongRecOn generalizing s xs with
  | ind k ih =>
    by_cases h : n ≤ xs.length
    · rw [absorb_of_le hn h, absorb_of_le hn (Nat.le_trans h (by simp)),
        List.take_append_of_le_length h, List.drop_append_of_le_length h]
      exact ih _ (by rw [List.length_drop]; omega) _ _ rfl
    · rw [absorb_of_lt (Nat.lt_of_not_le h)]

theorem absorb_block_append (hn : 0 < n) (h : xs.length = n) :
    absorb n f s (xs ++ ys) = absorb n f (f s xs) ys := by
  rw [absorb_of_le hn (by simp [h]), List.take_left' h, List.drop_left' h]

end Sukkula.Blocks
