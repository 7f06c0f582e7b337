import Mathlib.Tactic.IntervalCases
import Sukkula.Library.Files
import Sukkula.Library.Str

/-! # Bytes in lowercase hex

Two digits for each byte. Every run of an even number of digits is the hex of
some bytes.
-/

namespace Sukkula

def hexEncode (b : Bytes) : Str :=
  b.flatMap fun x => [Nat.digitChar (x.toNat / 16), Nat.digitChar (x.toNat % 16)]

def isLowerHex (c : Char) : Bool := c.isDigit || ('a' ≤ c && c ≤ 'f')

theorem isLowerHex_iff {c : Char} : isLowerHex c ↔ ∃ n < 16, c = Nat.digitChar n := by
  constructor
  · intro h
    have hc : (48 ≤ c.toNat ∧ c.toNat ≤ 57) ∨ (97 ≤ c.toNat ∧ c.toNat ≤ 102) := by
      simp only [isLowerHex, Char.isDigit, Bool.or_eq_true, Bool.and_eq_true,
        decide_eq_true_eq] at h
      exact h
    rw [← Char.ofNat_toNat c]
    generalize c.toNat = u at hc
    rcases hc with ⟨h₁, h₂⟩ | ⟨h₁, h₂⟩
    · exact ⟨u - 48, by omega, by interval_cases u <;> rfl⟩
    · exact ⟨u - 87, by omega, by interval_cases u <;> rfl⟩
  · rintro ⟨n, hn, rfl⟩
    interval_cases n <;> rfl

theorem all_isLowerHex_hexEncode (r : Bytes) : (hexEncode r).all isLowerHex := by
  simp only [hexEncode, List.all_flatMap, List.all_eq_true]
  intro x _ c hc
  have hx := x.toNat_lt
  rcases List.mem_pair.mp hc with rfl | rfl
  · exact isLowerHex_iff.mpr ⟨x.toNat / 16, by omega, rfl⟩
  · exact isLowerHex_iff.mpr ⟨x.toNat % 16, by omega, rfl⟩

theorem length_hexEncode (r : Bytes) : (hexEncode r).length = 2 * r.length := by
  induction r with
  | nil => rfl
  | cons x r ih =>
    rw [hexEncode, List.flatMap_cons, List.length_append]
    simp only [List.length_cons, List.length_nil]
    rw [hexEncode] at ih
    omega

theorem exists_hexEncode (n : ℕ) : ∀ {s : Str}, s.length = 2 * n → s.all isLowerHex →
    ∃ r : Bytes, r.length = n ∧ hexEncode r = s := by
  induction n with
  | zero =>
    intro s hs _
    exact ⟨[], rfl, (List.length_eq_zero_iff.mp hs).symm⟩
  | succ n ih =>
    intro s hs hall
    match s, hs with
    | a :: b :: t, hs =>
      simp only [List.all_cons, Bool.and_eq_true] at hall
      obtain ⟨ha, hb, ht⟩ := hall
      obtain ⟨i, hi, rfl⟩ := isLowerHex_iff.mp ha
      obtain ⟨j, hj, rfl⟩ := isLowerHex_iff.mp hb
      obtain ⟨r, hr, rfl⟩ := ih (by simpa [Nat.mul_succ] using hs) ht
      refine ⟨UInt8.ofNat (16 * i + j) :: r, by rw [List.length_cons, hr], ?_⟩
      have hi' : (16 * i + j) % 256 / 16 = i := by omega
      have hj' : (16 * i + j) % 256 % 16 = j := by omega
      simp only [hexEncode, List.flatMap_cons, UInt8.toNat_ofNat', hi', hj']
      rfl

theorem len_of_isLowerHex {s : Str} (h : s.all isLowerHex) : s.len = s.length := by
  apply Str.len_eq_length
  intro c hc
  obtain ⟨n, hn, rfl⟩ := isLowerHex_iff.mp (List.all_eq_true.mp h c hc)
  interval_cases n <;> rfl

end Sukkula
