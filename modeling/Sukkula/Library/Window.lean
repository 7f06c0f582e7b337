import Mathlib.Algebra.Order.Floor.Div
import Mathlib.Data.List.Count

/-! # Fixed windows that start lazily

Happenings are counted in windows of a fixed length. A window starts with the
first happening that finds none, takes up to a number of them, and is over when
its length has passed. How many fall into an interval that slides over the
windows is bounded from the last window alone.
-/

namespace Sukkula.Window

variable {W N : ℕ}

/-- The happenings of `l` from `a` on. -/
def since (a : ℕ) (l : List ℕ) : ℕ := l.countP (a ≤ ·)

/-- The happenings of `l` in the interval from `a` to before `b`. -/
def within (a b : ℕ) (l : List ℕ) : ℕ := l.countP fun t => a ≤ t ∧ t < b

/-- The happenings so far, newest first; the last window started at `start` and has `c`. -/
structure Windowed (W N : ℕ) (l : List ℕ) (c start : ℕ) : Prop where
  pos : 0 < c
  le : c ≤ N
  after : ∀ a, start < a → since a l < c
  before : ∀ a, a ≤ start → since a l < c + N + N * ((start - a) / W)
  within : ∀ a b, within a b l < N + N * ((b - a) ⌈/⌉ W)

theorem since_cons (a t : ℕ) (l : List ℕ) :
    since a (t :: l) = since a l + if a ≤ t then 1 else 0 := by
  simp [since, List.countP_cons]

theorem within_cons_of_le {a b t : ℕ} {l : List ℕ} (hb : b ≤ t) :
    within a b (t :: l) = within a b l := by
  simp [within, hb]

theorem within_eq_since {a b : ℕ} {l : List ℕ} (h : ∀ t ∈ l, t < b) : within a b l = since a l := by
  refine List.countP_congr fun t ht => ?_
  simp [h t ht]

theorem since_eq_zero {a : ℕ} {l : List ℕ} (h : ∀ t ∈ l, t < a) : since a l = 0 := by
  simpa [since] using h

theorem within_lt {l : List ℕ} {c start t : ℕ} (hW : 0 < W) (hle : c ≤ N)
    (hafter : ∀ a, start < a → since a (t :: l) < c)
    (hbefore : ∀ a, a ≤ start → since a (t :: l) < c + N + N * ((start - a) / W))
    (hwithin : ∀ a b, within a b l < N + N * ((b - a) ⌈/⌉ W)) (ht : ∀ t' ∈ l, t' ≤ t)
    (hs : start ≤ t) (a b : ℕ) : within a b (t :: l) < N + N * ((b - a) ⌈/⌉ W) := by
  rcases Nat.lt_or_ge t b with hb | hb
  · have hall : ∀ t' ∈ t :: l, t' < b := by
      intro t' ht'
      rcases List.mem_cons.mp ht' with rfl | ht'
      · exact hb
      · exact (ht t' ht').trans_lt hb
    rw [within_eq_since hall]
    rcases Nat.lt_or_ge start a with ha | ha
    · exact (hafter a ha).trans_le (hle.trans (Nat.le_add_right _ _))
    · -- The last window started in the interval, so the interval is longer than what precedes it.
      have hceil : (start - a) / W + 1 ≤ (b - a) ⌈/⌉ W := by
        rw [Nat.ceilDiv_eq_add_pred_div, ← Nat.add_div_right _ hW]
        exact Nat.div_le_div_right (by omega)
      calc since a (t :: l) < c + N + N * ((start - a) / W) := hbefore a ha
        _ ≤ N + N * ((start - a) / W + 1) := by rw [Nat.mul_add]; omega
        _ ≤ N + N * ((b - a) ⌈/⌉ W) := Nat.add_le_add_left (Nat.mul_le_mul_left _ hceil) _
  · rw [within_cons_of_le hb]
    exact hwithin a b

theorem Windowed.first (hW : 0 < W) (hN : 0 < N) (t : ℕ) : Windowed W N [t] 1 t := by
  have hafter : ∀ a, t < a → since a [t] < 1 := by
    intro a ha
    simp [since, ha]
  have hbefore : ∀ a, a ≤ t → since a [t] < 1 + N + N * ((t - a) / W) := by
    intro a ha
    have : since a [t] ≤ 1 := List.countP_le_length
    omega
  refine ⟨Nat.one_pos, hN, hafter, hbefore, ?_⟩
  exact within_lt hW hN hafter hbefore (fun _ _ => Nat.add_pos_left hN _) (by simp) le_rfl

namespace Windowed

variable {l : List ℕ} {c start t : ℕ}

theorem join (h : Windowed W N l c start) (hW : 0 < W) (hc : c < N) (hs : start ≤ t)
    (ht : ∀ t' ∈ l, t' ≤ t) : Windowed W N (t :: l) (c + 1) start := by
  have hafter : ∀ a, start < a → since a (t :: l) < c + 1 := by
    intro a ha
    have := h.after a ha
    rw [since_cons]
    split_ifs <;> omega
  have hbefore : ∀ a, a ≤ start → since a (t :: l) < c + 1 + N + N * ((start - a) / W) := by
    intro a ha
    have := h.before a ha
    rw [since_cons]
    split_ifs <;> omega
  exact ⟨Nat.succ_pos c, hc, hafter, hbefore,
    within_lt hW hc hafter hbefore h.within ht hs⟩

theorem start_new (h : Windowed W N l c start) (hW : 0 < W) (hs : start + W ≤ t)
    (ht : ∀ t' ∈ l, t' ≤ t) : Windowed W N (t :: l) 1 t := by
  have hN : 0 < N := h.pos.trans_le h.le
  have hafter : ∀ a, t < a → since a (t :: l) < 1 := by
    intro a ha
    rw [since_eq_zero]
    · exact Nat.one_pos
    · intro t' ht'
      rcases List.mem_cons.mp ht' with rfl | ht'
      · exact ha
      · exact (ht t' ht').trans_lt ha
  have hbefore : ∀ a, a ≤ t → since a (t :: l) < 1 + N + N * ((t - a) / W) := by
    intro a ha
    rw [since_cons, if_pos ha]
    rcases Nat.lt_or_ge start a with hsa | hsa
    · have := h.after a hsa
      have := h.le
      omega
    · have hbound := h.before a hsa
      have hle := h.le
      have hdiv : (start - a) / W + 1 ≤ (t - a) / W := by
        rw [← Nat.add_div_right _ hW]
        exact Nat.div_le_div_right (by omega)
      have hmul : N * ((start - a) / W) + N ≤ N * ((t - a) / W) := by
        have := Nat.mul_le_mul_left N hdiv
        rwa [Nat.mul_add, Nat.mul_one] at this
      omega
  exact ⟨Nat.one_pos, hN, hafter, hbefore,
    within_lt hW hN hafter hbefore h.within ht le_rfl⟩

end Windowed

end Sukkula.Window
