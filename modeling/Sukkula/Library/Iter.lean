import Mathlib.Data.List.Induction

/-! # Going through a hash map

The order in which a hash map yields its entries is any order. Searching a list
for its largest or smallest element goes through it once and keeps the last of
equal maxima and the first of equal minima.
-/

namespace Sukkula.Iter

/-- The order in which a hash map is gone through. -/
structure Iteration (κ ν : Type*) where
  order : List (κ × ν) → List (κ × ν)
  perm : ∀ l, (order l).Perm l

variable {α : Type*} {cmp : α → α → Ordering} {l : List α} {m : α}

def maxBy (cmp : α → α → Ordering) : List α → Option α
  | [] => none
  | a :: l => some (l.foldl (fun x y => if cmp x y = .gt then x else y) a)

def minBy (cmp : α → α → Ordering) : List α → Option α
  | [] => none
  | a :: l => some (l.foldl (fun x y => if cmp x y = .gt then y else x) a)

/-- The maximum is an element, and none is above it in any order that the comparison decides. -/
theorem maxBy_spec {r : α → α → Prop} (htrans : ∀ a b c, r a b → r b c → r a c)
    (hrefl : ∀ a, r a a) (hgt : ∀ a b, cmp a b = .gt → r b a) (hle : ∀ a b, cmp a b ≠ .gt → r a b)
    (h : maxBy cmp l = some m) : m ∈ l ∧ ∀ a ∈ l, r a m := by
  cases l with
  | nil => cases h
  | cons a l =>
    obtain rfl := Option.some.inj h
    clear h
    induction l using List.reverseRecOn with
    | nil => simp [hrefl]
    | append_singleton l b ih =>
      rw [List.foldl_append]
      simp only [List.foldl_cons, List.foldl_nil]
      generalize l.foldl (fun x y => if cmp x y = .gt then x else y) a = m at ih ⊢
      obtain ⟨hmem, hall⟩ := ih
      split_ifs with hcmp
      · refine ⟨?_, fun c hc => ?_⟩
        · exact List.mem_append_left [b] hmem
        · rcases List.mem_append.mp (show c ∈ (a :: l) ++ [b] from hc) with hc | hc
          · exact hall c hc
          · rw [List.mem_singleton.mp hc]
            exact hgt m b hcmp
      · refine ⟨by simp, fun c hc => ?_⟩
        rcases List.mem_append.mp (show c ∈ (a :: l) ++ [b] from hc) with hc | hc
        · exact htrans _ _ _ (hall c hc) (hle m b hcmp)
        · rw [List.mem_singleton.mp hc]
          exact hrefl b

theorem maxBy_eq_none (h : maxBy cmp l = none) : l = [] := by
  cases l with
  | nil => rfl
  | cons a l => cases h

theorem minBy_eq_maxBy (l : List α) :
    minBy cmp l = maxBy (fun a b => if cmp a b = .gt then .lt else .gt) l := by
  cases l with
  | nil => rfl
  | cons a l =>
    have hstep : (fun x y => if cmp x y = .gt then y else x) =
        fun x y => if (if cmp x y = .gt then Ordering.lt else .gt) = .gt then x else y := by
      funext x y
      split_ifs <;> simp_all
    rw [minBy, maxBy, hstep]

/-- The minimum is an element, and none is below it in any order that the comparison decides. -/
theorem minBy_spec {r : α → α → Prop} (htrans : ∀ a b c, r a b → r b c → r a c)
    (hrefl : ∀ a, r a a) (hgt : ∀ a b, cmp a b = .gt → r b a) (hle : ∀ a b, cmp a b ≠ .gt → r a b)
    (h : minBy cmp l = some m) : m ∈ l ∧ ∀ a ∈ l, r m a := by
  rw [minBy_eq_maxBy] at h
  refine maxBy_spec (r := fun a b => r b a)
    (fun a b c hab hbc => htrans c b a hbc hab) hrefl ?_ ?_ h
  · intro a b hab
    split_ifs at hab with hcmp
    exact hle a b hcmp
  · intro a b hab
    split_ifs at hab with hcmp
    · exact hgt a b hcmp
    · exact absurd rfl hab

theorem mem_of_minBy (h : minBy cmp l = some m) : m ∈ l :=
  (minBy_spec (r := fun _ _ => True) (fun _ _ _ _ _ => trivial) (fun _ => trivial)
    (fun _ _ _ => trivial) (fun _ _ _ => trivial) h).1

theorem minBy_key {key : α → ℕ} (h : minBy (fun a b => compare (key a) (key b)) l = some m) :
    m ∈ l ∧ ∀ a ∈ l, key m ≤ key a := by
  refine minBy_spec (r := fun a b => key a ≤ key b) ?_ ?_ ?_ ?_ h
  · exact fun a b c => Nat.le_trans
  · exact fun a => Nat.le_refl _
  · exact fun a b hab => Nat.le_of_lt (Nat.compare_eq_gt.mp hab)
  · intro a b hab
    rwa [Ne, Nat.compare_eq_gt, Nat.not_lt] at hab

theorem minBy_eq_none (h : minBy cmp l = none) : l = [] := by
  cases l with
  | nil => rfl
  | cons a l => cases h

end Sukkula.Iter
