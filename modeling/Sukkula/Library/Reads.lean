import Mathlib.Data.List.Basic
import Mathlib.Order.Nat

/-! # Streams read in pieces

A stream is what there is to read, with how much each read gets of it and how it
ends. A read gets something as long as there is something, and not more than it has
room for. What a reader makes of a stream is then to be shown the same however the
stream is cut.
-/

namespace Sukkula.Reads

variable {α : Type*}

/-- A stream that ends with its data, or `failed` where it ends in an error. -/
structure Stream (α : Type*) where
  rest : List α
  -- How much the reads get, one by one, where there is so much and room for it.
  cuts : List ℕ
  failed : Bool

/-- A read with room for `want`. -/
def Stream.read (s : Stream α) (want : ℕ) : Except Unit (List α × Stream α) :=
  if s.rest = [] then if s.failed then .error () else .ok ([], s)
  else
    let n := min want (max 1 (s.cuts.head?.getD want))
    .ok (s.rest.take n, { s with rest := s.rest.drop n, cuts := s.cuts.tail })

/-- Reads until there are `n`. At the end of the stream, what was read is lost. -/
def Stream.readExact (s : Stream α) (n : ℕ) : Option (List α × Stream α) :=
  if n = 0 then some ([], s)
  else
    match s.read n with
    | .error () => none
    | .ok (data, s') =>
      if 0 < data.length then (s'.readExact (n - data.length)).map fun (more, s'') =>
        (data ++ more, s'')
      else none
termination_by n
decreasing_by omega

variable {s : Stream α} {n want : ℕ}

theorem Stream.read_nil (hs : s.rest = []) (want : ℕ) :
    s.read want = if s.failed then .error () else .ok ([], s) := if_pos hs

theorem Stream.exists_read (hs : s.rest ≠ []) (hwant : 0 < want) :
    ∃ n s', 0 < n ∧ n ≤ want ∧ n ≤ s.rest.length ∧ s.read want = .ok (s.rest.take n, s') ∧
      s'.rest = s.rest.drop n := by
  have hpos := List.length_pos_of_ne_nil hs
  refine ⟨min (min want (max 1 (s.cuts.head?.getD want))) s.rest.length,
    ⟨s.rest.drop (min want (max 1 (s.cuts.head?.getD want))), s.cuts.tail,
      s.failed⟩, by omega, by omega, by omega,
    ?_, ?_⟩
  · rw [← List.take_eq_take_min]
    exact if_neg hs
  · exact List.drop_eq_drop_min

theorem Stream.readExact_of_le (h : n ≤ s.rest.length) :
    ∃ s', s.readExact n = some (s.rest.take n, s') ∧ s'.rest = s.rest.drop n := by
  induction n using Nat.strongRecOn generalizing s with
  | _ n ih =>
    rcases Nat.eq_zero_or_pos n with rfl | hn
    · exact ⟨s, by rw [readExact, if_pos rfl, List.take_zero], rfl⟩
    · have hs : s.rest ≠ [] := List.ne_nil_of_length_pos (hn.trans_le h)
      obtain ⟨k, t, hk, hkn, hkl, hread, ht⟩ := exists_read hs hn
      have hlen : (s.rest.take k).length = k := List.length_take_of_le hkl
      obtain ⟨u, hu, hrest⟩ := ih (n - k) (by omega) (s := t) (by rw [ht, List.length_drop]; omega)
      refine ⟨u, ?_, ?_⟩
      · rw [readExact, if_neg hn.ne', hread]
        simp only [hlen, if_pos hk, hu, Option.map_some, ht]
        rw [← List.take_add, Nat.add_sub_cancel' hkn]
      · rw [hrest, ht, List.drop_drop, Nat.add_sub_cancel' hkn]

theorem Stream.readExact_of_lt (h : s.rest.length < n) : s.readExact n = none := by
  induction n using Nat.strongRecOn generalizing s with
  | _ n ih =>
    have hn : 0 < n := by omega
    rw [readExact, if_neg hn.ne']
    by_cases hs : s.rest = []
    · rw [read_nil hs]
      by_cases hf : s.failed <;> simp [hf]
    · obtain ⟨k, t, hk, hkn, hkl, hread, ht⟩ := exists_read hs hn
      have hlen : (s.rest.take k).length = k := List.length_take_of_le hkl
      rw [hread]
      simp only [hlen, if_pos hk]
      rw [ih (n - k) (by omega) (by rw [ht, List.length_drop]; omega), Option.map_none]

end Sukkula.Reads
