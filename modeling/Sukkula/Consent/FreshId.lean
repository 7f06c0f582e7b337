import Mathlib.Data.List.Nodup
import Mathlib.Data.List.Perm.Subperm
import Mathlib.Data.Nat.ModEq
import Sukkula.Consent.Broker

/-! # Fresh ids

`fresh_id` walks the ids from `next_id` on, wrapping past the largest `u64` to
1. The walk is a rotation of the `2 ^ 64 - 1` positive ids, so a map with fewer
entries than that leaves one free within `pending.len() + 1` rounds.
-/

namespace Sukkula.Consent

theorem nextAfter_pos (id : ℕ) : 1 ≤ nextAfter id := by
  unfold nextAfter; split <;> omega

theorem nextAfter_lt (id : ℕ) : nextAfter id < 2 ^ 64 := by
  unfold nextAfter; split <;> omega

theorem nextAfter_mod (m : ℕ) :
    nextAfter (m % (2 ^ 64 - 1) + 1) = (m + 1) % (2 ^ 64 - 1) + 1 := by
  have hm := Nat.mod_lt m (show 0 < 2 ^ 64 - 1 by omega)
  unfold nextAfter
  split <;> omega

theorem iterate_nextAfter {id : ℕ} (hpos : 1 ≤ id) (hlt : id < 2 ^ 64) (k : ℕ) :
    nextAfter^[k] id = (id - 1 + k) % (2 ^ 64 - 1) + 1 := by
  induction k with
  | zero => rw [Function.iterate_zero_apply, Nat.mod_eq_of_lt (by omega)]; omega
  | succ k ih => rw [Function.iterate_succ_apply', ih, nextAfter_mod]; rfl

theorem freshLoop_range {keys : List ℕ} (fuel : ℕ) {id : ℕ} (hpos : 1 ≤ id)
    (hlt : id < 2 ^ 64) : 1 ≤ freshLoop keys fuel id ∧ freshLoop keys fuel id < 2 ^ 64 := by
  induction fuel generalizing id with
  | zero => exact ⟨hpos, hlt⟩
  | succ fuel ih =>
    unfold freshLoop
    split
    · exact ih (nextAfter_pos _) (nextAfter_lt _)
    · exact ⟨hpos, hlt⟩

theorem freshLoop_mem {keys : List ℕ} {fuel : ℕ} {id : ℕ} (hpos : 1 ≤ id)
    (h : freshLoop keys fuel id ∈ keys) {k : ℕ} (hk : k < fuel) : nextAfter^[k] id ∈ keys := by
  induction fuel generalizing id k with
  | zero => omega
  | succ fuel ih =>
    unfold freshLoop at h
    split at h
    · rename_i hid
      cases k with
      | zero => exact hid.resolve_left (by omega)
      | succ k => exact ih (nextAfter_pos _) h (by omega)
    · rename_i hid
      exact absurd (Or.inr h) hid

theorem freshLoop_not_mem {keys : List ℕ} {id : ℕ} (hlen : keys.length < 2 ^ 64 - 1)
    (hpos : 1 ≤ id) (hlt : id < 2 ^ 64) : freshLoop keys (keys.length + 1) id ∉ keys := by
  intro h
  have hsub : (List.range (keys.length + 1)).map (fun k => nextAfter^[k] id) ⊆ keys := by
    intro i hi
    obtain ⟨k, hk, rfl⟩ := List.mem_map.mp hi
    exact freshLoop_mem hpos h (List.mem_range.mp hk)
  -- The first `keys.length + 1` ids of the walk are different.
  have hnodup : ((List.range (keys.length + 1)).map fun k => nextAfter^[k] id).Nodup := by
    refine List.Nodup.map_on ?_ List.nodup_range
    intro i hi j hj he
    have hi := List.mem_range.mp hi
    have hj := List.mem_range.mp hj
    simp only [iterate_nextAfter hpos hlt] at he
    have hmod : i ≡ j [MOD 2 ^ 64 - 1] := Nat.ModEq.add_left_cancel' (id - 1) (Nat.succ.inj he)
    exact hmod.eq_of_lt_of_lt (by omega) (by omega)
  have := (hnodup.subperm hsub).length_le
  simp only [List.length_map, List.length_range] at this
  omega

variable {Offer : Type} {s : State Offer}

/-- `fresh_id` hands out a positive `u64` that no waiting offer has. -/
theorem State.freshId_spec (hlen : s.pending.length < 2 ^ 64 - 1) (hpos : 1 ≤ s.nextId)
    (hlt : s.nextId < 2 ^ 64) :
    s.freshId ∉ s.keys ∧ 1 ≤ s.freshId ∧ s.freshId < 2 ^ 64 := by
  have hk : s.keys.length = s.pending.length := List.length_map ..
  unfold freshId
  rw [← hk] at hlen ⊢
  exact ⟨freshLoop_not_mem hlen hpos hlt, freshLoop_range _ hpos hlt⟩

end Sukkula.Consent
