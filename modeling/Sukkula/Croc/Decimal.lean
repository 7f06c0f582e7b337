import Sukkula.Library.BigEndian
import Sukkula.Library.Str

/-! # Coordinates in decimal

The messages of the key exchange write coordinates as bare decimal numbers. A
number of thirty-two bytes is read back as the same bytes.
-/

namespace Sukkula.Croc

open BigEndian

def maxDigits : ℕ := 78

def shortest (bytes : Bytes) : Bytes := bytes.dropWhile (· = 0)

@[simp] theorem value_shortest (bytes : Bytes) : value (shortest bytes) = value bytes :=
  value_dropWhile bytes

theorem length_shortest_le (bytes : Bytes) : (shortest bytes).length ≤ bytes.length :=
  (List.dropWhile_suffix _).length_le

@[simp] theorem shortest_shortest (bytes : Bytes) : shortest (shortest bytes) = shortest bytes :=
  List.dropWhile_idempotent _ bytes

theorem shortest_eq_nil_iff (bytes : Bytes) : shortest bytes = [] ↔ value bytes = 0 := by
  rw [← value_shortest]
  constructor
  · rintro h
    simp [h]
  · intro h
    cases hs : shortest bytes with
    | nil => rfl
    | cons b rest =>
      have hb : b ≠ 0 := by
        have := List.head?_dropWhile_not (fun b : UInt8 => decide (b = 0)) bytes
        rw [← shortest, hs] at this
        simpa using this
      rw [hs] at h
      exact absurd h (value_pos hb).ne'

/-- A number below `2 ^ 256`, as thirty-two bytes. Digits only: no sign, point, exponent or
leading zero. -/
def decimalToBytes (digits : Str) : Option Bytes :=
  if digits = [] ∨ maxDigits < digits.len ∨ ¬ digits.all Char.isDigit ∨
      1 < digits.len ∧ digits.head? = some '0' then none
  else
    digits.foldlM (fun out d =>
      let (out, carry) := mulAdd 10 (d.toNat - '0'.toNat) out
      if carry ≠ 0 then none else some out) (List.replicate 32 0)

theorem value_add_length_lt {n : Bytes} (hn : n ≠ []) :
    value (shortest (divMod 10 0 n).1) + (shortest (divMod 10 0 n).1).length <
    value n + n.length := by
  have hout := value_div (by decide : 0 < 10) n
  have hlen := (length_shortest_le (divMod 10 0 n).1).trans_eq (length_divMod 10 0 n)
  simp only [value_shortest, hout.1]
  by_cases hz : value n = 0
  · -- Only zeros are left: none of them stays.
    have hnil : shortest (divMod 10 0 n).1 = [] := by
      rw [shortest_eq_nil_iff, hout.1, hz]
    have : 0 < n.length := List.length_pos_iff.mpr hn
    simp only [hnil, hz, List.length_nil]
    omega
  · omega

/-- The digits of a number that is not zero, the last one first. -/
def divisions (n : Bytes) : Str :=
  if n = [] then []
  else
    Nat.digitChar (divMod 10 0 n).2 :: divisions (shortest (divMod 10 0 n).1)
termination_by value n + n.length
decreasing_by exact value_add_length_lt ‹_›

def bytesToDecimal (bytes : Bytes) : Str :=
  let digits := divisions (shortest bytes)
  if digits = [] then ['0'] else digits.reverse

theorem divisions_eq {n : Bytes} (hn : shortest n = n) (hne : n ≠ []) :
    (divisions n).reverse = Nat.toDigits 10 (value n) := by
  induction hv : value n using Nat.strongRecOn generalizing n with
  | ind v ih =>
    have hout := value_div (by decide : 0 < 10) n
    have hpos : value n ≠ 0 := fun h => hne (hn ▸ (shortest_eq_nil_iff n).mpr h)
    rw [divisions, if_neg hne, List.reverse_cons, hout.2]
    by_cases hnil : shortest (divMod 10 0 n).1 = []
    · have hq : value n / 10 = 0 := by rw [← hout.1, ← value_shortest, hnil, value_nil]
      rw [hnil, divisions, if_pos rfl, ← hv, Nat.toDigits_of_lt_base (by omega),
        Nat.mod_eq_of_lt (by omega)]
      rfl
    · have hq : value n / 10 ≠ 0 := by
        rw [← hout.1]
        exact fun h => hnil ((shortest_eq_nil_iff _).mpr h)
      rw [ih (value n / 10) (by omega) (n := shortest (divMod 10 0 n).1)
        (shortest_shortest _) hnil (by rw [value_shortest, hout.1]), ← hv,
        Nat.toDigits_of_base_le (b := 10) (n := value n) (by omega) (by omega)]

theorem bytesToDecimal_eq (bytes : Bytes) :
    bytesToDecimal bytes = Nat.toDigits 10 (value bytes) := by
  by_cases hnil : shortest bytes = []
  · rw [bytesToDecimal, hnil, (shortest_eq_nil_iff bytes).mp hnil, divisions,
      if_pos rfl, if_pos rfl, Nat.toDigits_zero]
  · have h := divisions_eq (shortest_shortest bytes) hnil
    rw [value_shortest] at h
    have hne : divisions (shortest bytes) ≠ [] := by
      rw [← List.reverse_ne_nil_iff, h]
      exact Nat.toDigits_ne_nil
    rw [bytesToDecimal, if_neg hne, h]

theorem foldlM_digits (digits : Str) (out : Bytes)
    (h : Nat.ofDigitChars 10 digits (value out) < 256 ^ out.length) :
    ∃ bytes, digits.foldlM (fun out d =>
        let (out, carry) := mulAdd 10 (d.toNat - '0'.toNat) out
        if carry ≠ 0 then none else some out) out = some bytes ∧
      bytes.length = out.length ∧ value bytes = Nat.ofDigitChars 10 digits (value out) := by
  induction digits generalizing out with
  | nil => exact ⟨out, rfl, rfl, rfl⟩
  | cons d digits ih =>
    rw [Nat.ofDigitChars_cons] at h ⊢
    set c := d.toNat - '0'.toNat with hc
    have hv := value_mulAdd 10 c out
    -- What is still to be read only makes the number larger.
    have hle : 10 * value out + c ≤ Nat.ofDigitChars 10 digits (10 * value out + c) := by
      rw [Nat.ofDigitChars_eq_ofDigitChars_zero]
      have := Nat.le_mul_of_pos_left (10 * value out + c)
        (Nat.pow_pos (n := digits.length) (by decide : 0 < 10))
      omega
    have hcarry : (mulAdd 10 c out).2 = 0 := by
      by_contra hne
      have := Nat.le_mul_of_pos_right (256 ^ out.length) (Nat.pos_of_ne_zero hne)
      omega
    rw [hcarry, mul_zero, add_zero] at hv
    obtain ⟨bytes, hb, hlen, hval⟩ := ih (mulAdd 10 c out).1 (by
      rwa [hv, length_mulAdd])
    refine ⟨bytes, ?_, by rw [hlen, length_mulAdd], by rw [hval, hv]⟩
    rw [List.foldlM_cons]
    simp only [← hc, hcarry, ne_eq, not_true_eq_false, if_false, Option.bind_eq_bind,
      Option.bind_some]
    exact hb

theorem len_eq_length {s : Str} (h : s.all Char.isDigit) : s.len = s.length := by
  apply Str.len_eq_length
  intro c hc
  have := List.all_eq_true.mp h c hc
  simp only [Char.isDigit, ge_iff_le, Bool.and_eq_true, decide_eq_true_eq] at this
  rw [Char.utf8Size_eq_one_iff]
  exact UInt32.le_trans this.2 (by decide)

theorem head_toDigits {n : ℕ} (h : 1 < (Nat.toDigits 10 n).length) :
    (Nat.toDigits 10 n).head? ≠ some '0' := by
  induction n using Nat.strongRecOn with
  | ind n ih =>
    by_cases hn : n < 10
    · simp [Nat.toDigits_of_lt_base hn] at h
    · rw [Nat.toDigits_of_base_le (by omega) (by omega)]
      by_cases hd : n / 10 < 10
      · rw [Nat.toDigits_of_lt_base hd]
        simp
        omega
      · rw [List.head?_append_of_ne_nil _ Nat.toDigits_ne_nil]
        apply ih (n / 10) (by omega)
        rw [Nat.toDigits_of_base_le (by omega) (by omega), List.length_append]
        have := Nat.length_toDigits_pos (b := 10) (n := n / 10 / 10)
        simp
        omega

theorem all_isDigit_toDigits (n : ℕ) : (Nat.toDigits 10 n).all Char.isDigit := by
  rw [List.all_eq_true]
  intro c hc
  exact Nat.isDigit_of_mem_toDigits (by decide) (by decide) hc

theorem len_toDigits_le {n : ℕ} (h : n < 256 ^ 32) : Str.len (Nat.toDigits 10 n) ≤ maxDigits := by
  rw [len_eq_length (all_isDigit_toDigits _)]
  exact (Nat.length_toDigits_le_iff (by decide) (by decide)).mpr (h.trans (by decide))

theorem len_bytesToDecimal_le {bytes : Bytes} (h : bytes.length = 32) :
    (bytesToDecimal bytes).len ≤ maxDigits := by
  rw [bytesToDecimal_eq]
  exact len_toDigits_le (h ▸ value_lt bytes)

theorem decimalToBytes_toDigits {n : ℕ} (h : n < 256 ^ 32) :
    ∃ bytes, decimalToBytes (Nat.toDigits 10 n) = some bytes ∧ bytes.length = 32 ∧
    value bytes = n := by
  have hall := all_isDigit_toDigits n
  have hlen := len_toDigits_le h
  obtain ⟨out, hout, hl, hv⟩ := foldlM_digits (Nat.toDigits 10 n) (List.replicate 32 0)
    (by rwa [value_replicate_zero, Nat.ofDigitChars_toDigits (by decide) (by decide),
      List.length_replicate])
  rw [value_replicate_zero, Nat.ofDigitChars_toDigits (by decide) (by decide)] at hv
  rw [List.length_replicate] at hl
  refine ⟨out, ?_, hl, hv⟩
  rw [decimalToBytes, if_neg, hout]
  rw [len_eq_length hall] at hlen ⊢
  rintro (hnil | hlong | hnot | ⟨hone, hzero⟩)
  · exact Nat.toDigits_ne_nil hnil
  · omega
  · exact hnot hall
  · exact head_toDigits hone hzero

theorem decimalToBytes_bytesToDecimal {bytes : Bytes} (h : bytes.length = 32) :
    decimalToBytes (bytesToDecimal bytes) = some bytes := by
  obtain ⟨out, hout, hlen, hval⟩ := decimalToBytes_toDigits (h ▸ value_lt bytes)
  rw [bytesToDecimal_eq, hout, value_injective (hlen.trans h.symm) hval]

end Sukkula.Croc
