import Sukkula.Library.Files
import Mathlib.Data.Nat.ModEq
import Mathlib.Data.Nat.Digits.Defs
import Mathlib.Tactic.Ring

/-! # Big-endian numbers

The number that a string of bytes writes, the highest byte first, and what the
two school methods do to it: a short multiplication from the last byte on and a
short division from the first.
-/

namespace Sukkula.BigEndian

def value (bytes : Bytes) : ℕ := Nat.ofDigits 256 (bytes.reverse.map UInt8.toNat)

@[simp] theorem value_nil : value [] = 0 := rfl

@[simp] theorem value_cons (b : UInt8) (bytes : Bytes) :
    value (b :: bytes) = value bytes + 256 ^ bytes.length * b.toNat := by
  simp [value, Nat.ofDigits_append]

@[simp] theorem value_replicate_zero (n : ℕ) : value (List.replicate n 0) = 0 := by
  induction n with
  | zero => rfl
  | succ n ih => simp [List.replicate_succ, ih]

theorem lt_of_mem (bytes : Bytes) : ∀ d ∈ bytes.reverse.map UInt8.toNat, d < 256 := by
  intro d hd
  obtain ⟨b, -, rfl⟩ := List.mem_map.mp hd
  exact b.toNat_lt

theorem value_lt (bytes : Bytes) : value bytes < 256 ^ bytes.length := by
  have h := Nat.ofDigits_lt_base_pow_length (by decide : 1 < 256) (lt_of_mem bytes)
  simpa [value] using h

/-- Strings of one length that write the same number are the same. -/
theorem value_injective {a b : Bytes} (hlen : a.length = b.length) (h : value a = value b) :
    a = b := by
  have hmap := Nat.ofDigits_inj_of_len_eq (by decide : 1 < 256) (by simpa using hlen)
    (lt_of_mem a) (lt_of_mem b) h
  apply List.reverse_injective
  exact List.map_injective_iff.mpr (fun _ _ => UInt8.toNat_inj.mp) hmap

theorem value_dropWhile (bytes : Bytes) : value (bytes.dropWhile (· = 0)) = value bytes := by
  induction bytes with
  | nil => rfl
  | cons b bytes ih =>
    by_cases hb : b = 0
    · subst hb
      simpa using ih
    · simp [hb]

theorem value_pos {b : UInt8} {bytes : Bytes} (hb : b ≠ 0) : 0 < value (b :: bytes) := by
  have h : 0 < b.toNat := Nat.pos_of_ne_zero fun h => hb (UInt8.toNat_inj.mp h)
  have := Nat.mul_pos (Nat.pow_pos (n := bytes.length) (by decide : 0 < 256)) h
  rw [value_cons]
  omega

theorem foldl_mod (n acc : ℕ) (bytes : Bytes) :
    bytes.foldl (fun acc b => (acc * 256 + b.toNat) % n) (acc % n) =
      (acc * 256 ^ bytes.length + value bytes) % n := by
  induction bytes generalizing acc with
  | nil => simp
  | cons b bytes ih =>
    have hstep : (acc % n * 256 + b.toNat) % n = (acc * 256 + b.toNat) % n :=
      ((Nat.mod_modEq acc n).mul_right 256).add_right b.toNat
    rw [List.foldl_cons, hstep, ih, value_cons, List.length_cons]
    congr 1
    ring

/-- `k` times the number plus `carry`, from the last byte on: the bytes and what is carried out
of them. -/
def mulAdd (k carry : ℕ) : Bytes → Bytes × ℕ
  | [] => ([], carry)
  | b :: bytes =>
    let (out, carry) := mulAdd k carry bytes
    let v := b.toNat * k + carry
    (UInt8.ofNat v :: out, v / 256)

@[simp] theorem length_mulAdd (k carry : ℕ) (bytes : Bytes) :
    (mulAdd k carry bytes).1.length = bytes.length := by
  induction bytes with
  | nil => rfl
  | cons b bytes ih => simp [mulAdd, ih]

theorem value_mulAdd (k carry : ℕ) (bytes : Bytes) :
    value (mulAdd k carry bytes).1 + 256 ^ bytes.length * (mulAdd k carry bytes).2 =
      k * value bytes + carry := by
  induction bytes with
  | nil => simp [mulAdd]
  | cons b bytes ih =>
    simp only [mulAdd, value_cons, length_mulAdd, UInt8.toNat_ofNat', List.length_cons,
      Nat.reducePow]
    set c := (mulAdd k carry bytes).2
    have hv := Nat.mod_add_div (b.toNat * k + c) 256
    calc value (mulAdd k carry bytes).1 + 256 ^ bytes.length * ((b.toNat * k + c) % 256) +
          256 ^ (bytes.length + 1) * ((b.toNat * k + c) / 256)
        = value (mulAdd k carry bytes).1 + 256 ^ bytes.length *
          ((b.toNat * k + c) % 256 + 256 * ((b.toNat * k + c) / 256)) := by ring
      _ = value (mulAdd k carry bytes).1 + 256 ^ bytes.length * c +
          256 ^ bytes.length * (b.toNat * k) := by rw [hv]; ring
      _ = k * (value bytes + 256 ^ bytes.length * b.toNat) + carry := by rw [ih]; ring

/-- The number after `rem` by `k`, from the first byte on: the quotient and the remainder. -/
def divMod (k rem : ℕ) : Bytes → Bytes × ℕ
  | [] => ([], rem)
  | b :: bytes =>
    let cur := rem * 256 + b.toNat
    let (out, rem) := divMod k (cur % k) bytes
    (UInt8.ofNat (cur / k) :: out, rem)

@[simp] theorem length_divMod (k rem : ℕ) (bytes : Bytes) :
    (divMod k rem bytes).1.length = bytes.length := by
  induction bytes generalizing rem with
  | nil => rfl
  | cons b bytes ih => simp [divMod, ih]

theorem divMod_lt {k rem : ℕ} (hrem : rem < k) (bytes : Bytes) : (divMod k rem bytes).2 < k := by
  induction bytes generalizing rem with
  | nil => exact hrem
  | cons b bytes ih => exact ih (Nat.mod_lt _ (by omega))

theorem value_divMod {k rem : ℕ} (hrem : rem < k) (bytes : Bytes) :
    k * value (divMod k rem bytes).1 + (divMod k rem bytes).2 =
      rem * 256 ^ bytes.length + value bytes := by
  induction bytes generalizing rem with
  | nil => simp [divMod]
  | cons b bytes ih =>
    have hb := b.toNat_lt
    -- A remainder below `k` leaves a quotient that fits into its byte.
    have hfit : (rem * 256 + b.toNat) / k < 256 := by
      apply Nat.div_lt_of_lt_mul
      have : (rem + 1) * 256 ≤ k * 256 := Nat.mul_le_mul_right _ hrem
      omega
    have hk : 0 < k := by omega
    have hr := ih (Nat.mod_lt (rem * 256 + b.toNat) hk)
    have hv := Nat.mod_add_div (rem * 256 + b.toNat) k
    simp only [divMod, value_cons, length_divMod, UInt8.toNat_ofNat', List.length_cons]
    rw [Nat.mod_eq_of_lt hfit]
    set cur := rem * 256 + b.toNat with hcur
    calc k * (value (divMod k (cur % k) bytes).1 + 256 ^ bytes.length * (cur / k)) +
          (divMod k (cur % k) bytes).2
        = k * value (divMod k (cur % k) bytes).1 + (divMod k (cur % k) bytes).2 +
          256 ^ bytes.length * (k * (cur / k)) := by ring
      _ = value bytes + 256 ^ bytes.length * (cur % k + k * (cur / k)) := by rw [hr]; ring
      _ = rem * 256 ^ (bytes.length + 1) + (value bytes + 256 ^ bytes.length * b.toNat) := by
        rw [hv, hcur]; ring

theorem value_div {k : ℕ} (hk : 0 < k) (bytes : Bytes) :
    value (divMod k 0 bytes).1 = value bytes / k ∧ (divMod k 0 bytes).2 = value bytes % k := by
  have h := value_divMod hk bytes
  have hlt := divMod_lt hk bytes
  rw [zero_mul, zero_add] at h
  constructor
  · rw [← h, Nat.mul_add_div hk, Nat.div_eq_of_lt hlt, add_zero]
  · rw [← h, Nat.mul_add_mod, Nat.mod_eq_of_lt hlt]

end Sukkula.BigEndian
