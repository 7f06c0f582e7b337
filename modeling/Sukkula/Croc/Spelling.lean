import Sukkula.Croc.Decimal

/-! # The spelling of coordinates

The two conversions as they run, in 32 bits that wrap. No carry is lost and no
quotient is cut, so they are the conversions of `Decimal`: what is read is exactly
the spellings of the numbers that fit, and what is written is the spelling of the
number.
-/

namespace Sukkula.Croc

open BigEndian

namespace Machine

def pushDigit (carry : UInt32) : Bytes → Bytes × UInt32
  | [] => ([], carry)
  | b :: bytes =>
    let (out, carry) := pushDigit carry bytes
    let v := b.toUInt32 * 10 + carry
    (v.toUInt8 :: out, v >>> 8)

theorem pushDigit_eq {carry : UInt32} (h : carry.toNat ≤ 9) (bytes : Bytes) :
    (pushDigit carry bytes).1 = (mulAdd 10 carry.toNat bytes).1 ∧
    (pushDigit carry bytes).2.toNat = (mulAdd 10 carry.toNat bytes).2 ∧
    (pushDigit carry bytes).2.toNat ≤ 9 := by
  induction bytes with
  | nil => exact ⟨rfl, rfl, h⟩
  | cons b bytes ih =>
    obtain ⟨hout, hcarry, hle⟩ := ih
    have hb := b.toNat_lt
    set c := (pushDigit carry bytes).2 with hc
    have hv : (b.toUInt32 * 10 + c).toNat = b.toNat * 10 + c.toNat := by
      rw [UInt32.toNat_add, UInt32.toNat_mul, UInt8.toNat_toUInt32]
      have hten : (10 : UInt32).toNat = 10 := rfl
      rw [hten]
      omega
    have hshift : ((b.toUInt32 * 10 + c) >>> 8).toNat = (b.toNat * 10 + c.toNat) / 256 := by
      rw [UInt32.toNat_shiftRight, hv]
      exact Nat.shiftRight_eq_div_pow _ 8
    simp only [pushDigit, mulAdd, ← hc, hshift, hout, ← hcarry]
    refine ⟨?_, trivial, by omega⟩
    congr 1
    apply UInt8.toNat_inj.mp
    rw [UInt32.toNat_toUInt8, hv, UInt8.toNat_ofNat']

def decimalToBytes (digits : Str) : Option Bytes :=
  if digits = [] ∨ maxDigits < digits.len ∨ ¬ digits.all Char.isDigit ∨
      1 < digits.len ∧ digits.head? = some '0' then none
  else
    digits.foldlM (fun out d =>
      let (out, carry) := pushDigit (UInt8.ofNat d.toNat - 48).toUInt32 out
      if carry ≠ 0 then none else some out) (List.replicate 32 0)

def takeDigit (rem : UInt32) : Bytes → Bytes × UInt32
  | [] => ([], rem)
  | b :: bytes =>
    let cur := (rem <<< 8) + b.toUInt32
    let q := cur / 10
    let (out, rem) := takeDigit (cur % 10) bytes
    ((if q.toNat < 256 then q.toUInt8 else 0) :: out, rem)

/-- A remainder is at most 9, and so each quotient fits into its byte. -/
theorem takeDigit_eq {rem : UInt32} (h : rem.toNat < 10) (bytes : Bytes) :
    (takeDigit rem bytes).1 = (divMod 10 rem.toNat bytes).1 ∧
    (takeDigit rem bytes).2.toNat = (divMod 10 rem.toNat bytes).2 := by
  induction bytes generalizing rem with
  | nil => exact ⟨rfl, rfl⟩
  | cons b bytes ih =>
    have hb := b.toNat_lt
    have hcur : ((rem <<< 8) + b.toUInt32).toNat = rem.toNat * 256 + b.toNat := by
      rw [UInt32.toNat_add, UInt32.toNat_shiftLeft, UInt8.toNat_toUInt32]
      have height : (8 : UInt32).toNat % 32 = 8 := rfl
      rw [height, Nat.shiftLeft_eq]
      omega
    set cur := (rem <<< 8) + b.toUInt32 with hc
    have hrem : (cur % 10).toNat = (rem.toNat * 256 + b.toNat) % 10 := by
      rw [UInt32.toNat_mod, hcur]
      rfl
    have hq : (cur / 10).toNat = (rem.toNat * 256 + b.toNat) / 10 := by
      rw [UInt32.toNat_div, hcur]
      rfl
    have hfit : (cur / 10).toNat < 256 := by omega
    obtain ⟨hout, hlast⟩ := @ih (cur % 10) (by omega)
    simp only [takeDigit, divMod, ← hc, if_pos hfit, hout, hlast, hrem]
    refine ⟨?_, trivial⟩
    congr 1
    apply UInt8.toNat_inj.mp
    rw [UInt32.toNat_toUInt8, hq, UInt8.toNat_ofNat']

def divisions (n : Bytes) : Str :=
  if n = [] then []
  else
    Char.ofNat (48 + (takeDigit 0 n).2.toUInt8).toNat :: divisions (shortest (takeDigit 0 n).1)
termination_by value n + n.length
decreasing_by
  rw [(@takeDigit_eq 0 (by decide) n).1]
  exact value_add_length_lt ‹_›

def bytesToDecimal (bytes : Bytes) : Str :=
  let digits := divisions (shortest bytes)
  if digits = [] then ['0'] else digits.reverse

theorem toNat_digit {d : Char} (h : d.isDigit) :
    (UInt8.ofNat d.toNat - 48).toUInt32.toNat = d.toNat - '0'.toNat ∧ d.toNat - '0'.toNat ≤ 9 := by
  have hzero : '0'.toNat = 48 := rfl
  have hnine : '9'.toNat = 57 := rfl
  obtain ⟨hlo, hhi⟩ := Char.isDigit_iff_toNat.mp h
  have hbyte : (UInt8.ofNat d.toNat).toNat = d.toNat := by
    rw [UInt8.toNat_ofNat']
    exact Nat.mod_eq_of_lt (by omega)
  have hsub : (UInt8.ofNat d.toNat - 48).toNat = d.toNat - 48 := by
    rw [UInt8.toNat_sub_of_le _ _ (UInt8.le_iff_toNat_le.mpr (by rw [hbyte]; exact hlo)), hbyte]
    rfl
  rw [UInt8.toNat_toUInt32, hsub]
  omega

theorem foldlM_pushDigit {digits : Str} (h : digits.all Char.isDigit) (out : Bytes) :
    (digits.foldlM (fun out d =>
      let (out, carry) := pushDigit (UInt8.ofNat d.toNat - 48).toUInt32 out
      if carry ≠ 0 then none else some out) out : Option Bytes) =
    digits.foldlM (fun out d =>
      let (out, carry) := mulAdd 10 (d.toNat - '0'.toNat) out
      if carry ≠ 0 then none else some out) out := by
  induction digits generalizing out with
  | nil => rfl
  | cons d digits ih =>
    rw [List.all_cons, Bool.and_eq_true] at h
    obtain ⟨hd, hle⟩ := toNat_digit h.1
    obtain ⟨hout, hcarry, -⟩ := pushDigit_eq (hd ▸ hle) out
    rw [hd] at hout hcarry
    have hzero : (pushDigit (UInt8.ofNat d.toNat - 48).toUInt32 out).2 = 0 ↔
        (mulAdd 10 (d.toNat - '0'.toNat) out).2 = 0 := by
      rw [← UInt32.toNat_inj, hcarry]
      rfl
    simp only [List.foldlM_cons, hout, hzero, ne_eq, ih h.2]

theorem decimalToBytes_eq (digits : Str) : decimalToBytes digits = Croc.decimalToBytes digits := by
  unfold decimalToBytes Croc.decimalToBytes
  split_ifs with h
  · rfl
  · push Not at h
    exact foldlM_pushDigit h.2.2.1 _

theorem ofNat_digit : ∀ r < 10, Char.ofNat (48 + (UInt32.ofNat r).toUInt8).toNat =
    Nat.digitChar r := by
  decide

theorem divisions_eq (n : Bytes) : divisions n = Croc.divisions n := by
  fun_induction Croc.divisions n with
  | case1 => simp [divisions]
  | case2 n hn ih =>
    obtain ⟨hout, hrem⟩ := @takeDigit_eq 0 (by decide) n
    have hzero : (0 : UInt32).toNat = 0 := rfl
    rw [hzero] at hout hrem
    have hlt := divMod_lt (by decide : 0 < 10) n
    have hdigit := ofNat_digit _ hlt
    rw [← hrem, UInt32.ofNat_toNat] at hdigit
    rw [divisions, if_neg hn, hout, ih, hdigit, hrem]

theorem bytesToDecimal_eq (bytes : Bytes) :
    bytesToDecimal bytes = Nat.toDigits 10 (value bytes) := by
  rw [← Croc.bytesToDecimal_eq, bytesToDecimal, Croc.bytesToDecimal, divisions_eq]

end Machine

/-- A spelling: digits, with a zero in front only in zero itself. -/
structure Canonical (s : Str) : Prop where
  ne_nil : s ≠ []
  digits : s.all Char.isDigit
  noLeading : 1 < s.length → s.head? ≠ some '0'

theorem canonical_toDigits (n : ℕ) : Canonical (Nat.toDigits 10 n) :=
  ⟨Nat.toDigits_ne_nil, all_isDigit_toDigits n, head_toDigits⟩

theorem digitChar_sub {d : Char} (h : d.isDigit) : Nat.digitChar (d.toNat - '0'.toNat) = d := by
  obtain ⟨n, hn, rfl⟩ : ∃ n < 10, Nat.digitChar n = d := by
    obtain ⟨hlo, hhi⟩ := Char.isDigit_iff_toNat.mp h
    have hzero : '0'.toNat = 48 := rfl
    have hnine : '9'.toNat = 57 := rfl
    have hall : ∀ n < 10, (Nat.digitChar n).toNat = n + 48 := by decide
    refine ⟨d.toNat - 48, by omega, Char.toNat_inj.mp ?_⟩
    rw [hall _ (by omega)]
    omega
  have hall : ∀ n < 10, Nat.digitChar ((Nat.digitChar n).toNat - '0'.toNat) = Nat.digitChar n := by
    decide
  exact hall n hn

theorem Canonical.toDigits_ofDigitChars {s : Str} (h : Canonical s) :
    Nat.toDigits 10 (Nat.ofDigitChars 10 s 0) = s := by
  induction s using List.reverseRecOn with
  | nil => exact absurd rfl h.ne_nil
  | append_singleton s d ih =>
    have hall := h.digits
    rw [List.all_append, Bool.and_eq_true] at hall
    have hd : d.isDigit := by simpa using hall.2
    have hle := (Machine.toNat_digit hd).2
    rw [Nat.ofDigitChars_append, Nat.ofDigitChars_cons, Nat.ofDigitChars_nil]
    by_cases hs : s = []
    · subst hs
      rw [Nat.ofDigitChars_nil, Nat.toDigits_of_lt_base (by omega), Nat.mul_zero, Nat.zero_add,
        digitChar_sub hd]
      rfl
    · have hlen : 0 < s.length := List.length_pos_iff.mpr hs
      have hhead : s.head? ≠ some '0' := by
        have := h.noLeading (by simp; omega)
        rwa [List.head?_append_of_ne_nil _ hs] at this
      have hs' : Canonical s := ⟨hs, hall.1, fun _ => hhead⟩
      have hval := ih hs'
      set m := Nat.ofDigitChars 10 s 0 with hm
      have hpos : m ≠ 0 := by
        intro h0
        rw [h0, Nat.toDigits_zero] at hval
        exact hhead (by rw [← hval]; rfl)
      rw [Nat.toDigits_of_base_le (by omega) (by omega)]
      have hdiv : (10 * m + (d.toNat - '0'.toNat)) / 10 = m := by omega
      have hmod : (10 * m + (d.toNat - '0'.toNat)) % 10 = d.toNat - '0'.toNat := by omega
      rw [hdiv, hmod, hval, digitChar_sub hd]

theorem value_of_foldlM {digits : Str} {out bytes : Bytes}
    (h : digits.foldlM (fun out d =>
      let (out, carry) := mulAdd 10 (d.toNat - '0'.toNat) out
      if carry ≠ 0 then none else some out) out = some bytes) :
    bytes.length = out.length ∧ value bytes = Nat.ofDigitChars 10 digits (value out) := by
  induction digits generalizing out with
  | nil =>
    obtain rfl := Option.some.inj h
    exact ⟨rfl, rfl⟩
  | cons d digits ih =>
    rw [List.foldlM_cons] at h
    obtain ⟨mid, hmid, hrest⟩ := Option.bind_eq_some_iff.mp h
    dsimp only at hmid
    split_ifs at hmid with hcarry
    obtain rfl := Option.some.inj hmid
    have hv := value_mulAdd 10 (d.toNat - '0'.toNat) out
    rw [not_not.mp hcarry, Nat.mul_zero, Nat.add_zero] at hv
    obtain ⟨hlen, hval⟩ := ih hrest
    rw [length_mulAdd] at hlen
    rw [hv] at hval
    exact ⟨hlen, by rw [hval, Nat.ofDigitChars_cons]⟩

theorem spelling_of_decimalToBytes {s : Str} {b : Bytes} (h : decimalToBytes s = some b) :
    b.length = 32 ∧ s = Nat.toDigits 10 (value b) := by
  unfold decimalToBytes at h
  split_ifs at h with hbad
  push Not at hbad
  obtain ⟨hne, -, hall, hhead⟩ := hbad
  rw [len_eq_length hall] at hhead
  obtain ⟨hlen, hval⟩ := value_of_foldlM h
  rw [value_replicate_zero] at hval
  rw [List.length_replicate] at hlen
  have hs : Canonical s := ⟨hne, hall, hhead⟩
  exact ⟨hlen, by rw [hval, hs.toDigits_ofDigitChars]⟩

/-- What is read is exactly the spellings of the numbers of thirty-two bytes, as these numbers, and
what is written is the spelling of the number. -/
theorem spelling_exact :
    (∀ s b, Machine.decimalToBytes s = some b ↔
      ∃ n < 2 ^ 256, s = Nat.toDigits 10 n ∧ b.length = 32 ∧ value b = n) ∧
    (∀ s, Canonical s ↔ ∃ n, s = Nat.toDigits 10 n) ∧
    (∀ v, Machine.bytesToDecimal v = Nat.toDigits 10 (value v)) ∧
    (∀ b, b.length = 32 → Machine.decimalToBytes (Machine.bytesToDecimal b) = some b) ∧
    ∀ s b, Machine.decimalToBytes s = some b → Machine.bytesToDecimal b = s := by
  refine ⟨?_, ?_, Machine.bytesToDecimal_eq, ?_, ?_⟩
  · intro s b
    rw [Machine.decimalToBytes_eq]
    constructor
    · intro h
      obtain ⟨hlen, hs⟩ := spelling_of_decimalToBytes h
      have hlt := value_lt b
      rw [hlen] at hlt
      exact ⟨value b, hlt, hs, hlen, rfl⟩
    · rintro ⟨n, hn, rfl, hlen, hval⟩
      obtain ⟨out, hout, hlen', hval'⟩ := decimalToBytes_toDigits hn
      rw [hout, value_injective (hlen'.trans hlen.symm) (hval'.trans hval.symm)]
  · intro s
    constructor
    · intro h
      exact ⟨_, h.toDigits_ofDigitChars.symm⟩
    · rintro ⟨n, rfl⟩
      exact canonical_toDigits n
  · intro b hb
    rw [Machine.decimalToBytes_eq, Machine.bytesToDecimal_eq, ← bytesToDecimal_eq]
    exact decimalToBytes_bytesToDecimal hb
  · intro s b h
    rw [Machine.decimalToBytes_eq] at h
    rw [Machine.bytesToDecimal_eq, (spelling_of_decimalToBytes h).2]

end Sukkula.Croc
