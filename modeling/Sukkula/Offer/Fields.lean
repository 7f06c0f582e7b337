import Sukkula.Library.Hex
import Sukkula.Offer.Files

/-! # Digests and MIME types

What `hex::decode_32` and `clean_mime` take, and that what they give is taken
again and comes out the same.
-/

namespace Sukkula.Offer

open Str Name

def isHexDigit (c : Char) : Bool := c.isDigit || ('a' ≤ c && c ≤ 'f') || ('A' ≤ c && c ≤ 'F')

section Hex

variable {s : Str} {c : Char} {d : Bytes}

theorem isSome_nibble : (nibble c).isSome ↔ isHexDigit c := by
  have hdigit : c.isDigit = true ↔ '0' ≤ c ∧ c ≤ '9' := by
    simp only [Char.isDigit, Bool.and_eq_true, decide_eq_true_eq]
    exact Iff.rfl
  unfold nibble isHexDigit
  split_ifs with h₁ h₂ h₃
  · simp [hdigit, h₁]
  · simp [h₂]
  · simp [h₃]
  · simp only [Option.isSome_none, Bool.false_eq_true, Bool.or_eq_true, Bool.and_eq_true,
      decide_eq_true_eq, hdigit, h₁, h₂, h₃, or_self]

theorem utf8Size_of_isHexDigit (h : isHexDigit c) : c.utf8Size = 1 := by
  have hc : c.toNat ≤ 102 := by
    simp only [isHexDigit, Char.isDigit, Bool.or_eq_true, Bool.and_eq_true, decide_eq_true_eq] at h
    rcases h with (⟨-, h⟩ | ⟨-, h⟩) | ⟨-, h⟩
    · exact le_trans (show c.toNat ≤ 57 from h) (by decide)
    · exact h
    · exact le_trans (show c.toNat ≤ 70 from h) (by decide)
  rw [Char.utf8Size_eq_one_iff]
  exact le_trans (show c.toNat ≤ 102 from hc) (by decide)

theorem isSome_decodePairs : (decodePairs s).isSome ↔ s.length % 2 = 0 ∧ s.all isHexDigit := by
  induction s using decodePairs.induct with
  | case1 => simp [decodePairs]
  | case2 hi lo s ih =>
    have hbind : (decodePairs (hi :: lo :: s)).isSome ↔
        (nibble hi).isSome ∧ (nibble lo).isSome ∧ (decodePairs s).isSome := by
      cases hhi : nibble hi <;> cases hlo : nibble lo <;> cases hs : decodePairs s <;>
        simp [decodePairs, hhi, hlo, hs]
    have hmod : (s.length + 1 + 1) % 2 = s.length % 2 := by omega
    rw [hbind, ih, isSome_nibble, isSome_nibble, List.length_cons, List.length_cons, hmod]
    simp only [List.all_cons, Bool.and_eq_true]
    tauto
  | case3 c => simp [decodePairs]

theorem length_decodePairs (h : decodePairs s = some d) : 2 * d.length = s.length := by
  induction s using decodePairs.induct generalizing d with
  | case1 =>
    cases h
    rfl
  | case2 hi lo s ih =>
    simp only [decodePairs, Option.bind_eq_bind, Option.bind_eq_some_iff] at h
    obtain ⟨x, -, y, -, rest, hrest, hd⟩ := h
    cases hd
    rw [List.length_cons, List.length_cons, List.length_cons, ← ih hrest]
    omega
  | case3 => cases h

theorem isSome_decode32 : (decode32 s).isSome ↔ s.length = 64 ∧ s.all isHexDigit := by
  have hlen : s.all isHexDigit → len s = s.length := fun h =>
    len_eq_length fun c hc => utf8Size_of_isHexDigit (List.all_eq_true.mp h c hc)
  unfold decode32
  constructor
  · intro h
    split_ifs at h with hl
    · have hall := (isSome_decodePairs.mp h).2
      exact ⟨(hlen hall).symm.trans hl, hall⟩
    · cases h
  · rintro ⟨hl, hall⟩
    rw [if_pos ((hlen hall).trans hl)]
    exact isSome_decodePairs.mpr ⟨by omega, hall⟩

theorem nibble_digitChar {n : ℕ} (h : n < 16) : nibble (Nat.digitChar n) = some (.ofNat n) := by
  interval_cases n <;> rfl

theorem decodePairs_hexEncode (d : Bytes) : decodePairs (hexEncode d) = some d := by
  induction d with
  | nil => rfl
  | cons x d ih =>
    have hx := x.toNat_lt
    have hval : UInt8.ofNat (x.toNat / 16) * 16 + UInt8.ofNat (x.toNat % 16) = x := by
      apply UInt8.toNat_inj.mp
      simp
      omega
    rw [hexEncode, List.flatMap_cons, ← hexEncode]
    simp only [List.cons_append, List.nil_append, decodePairs]
    rw [nibble_digitChar (by omega), nibble_digitChar (by omega), ih]
    simp [hval]

theorem decode32_hexEncode (h : d.length = 32) : decode32 (hexEncode d) = some d := by
  unfold decode32
  rw [len_of_isLowerHex (all_isLowerHex_hexEncode d), length_hexEncode, h, if_pos (by rfl),
    decodePairs_hexEncode]

theorem length_of_decode32 (h : decode32 s = some d) : d.length = 32 := by
  have hs := (isSome_decode32.mp (by rw [h]; rfl)).1
  unfold decode32 at h
  split_ifs at h
  have := length_decodePairs h
  omega

theorem trim_hexEncode (d : Bytes) : trim (hexEncode d) = hexEncode d := by
  apply trim_of_forall
  intro c hc
  obtain ⟨n, hn, rfl⟩ := isLowerHex_iff.mp (List.all_eq_true.mp (all_isLowerHex_hexEncode d) c hc)
  interval_cases n <;> rfl

end Hex

section Mime

variable {s : Str} {c : Char}

theorem mimeChar_ascii (h : mimeChar c) : c.toNat < 128 := by
  rcases Bool.or_eq_true_iff.mp h with h | h
  · rcases Bool.or_eq_true_iff.mp h with h | h
    · rcases Bool.or_eq_true_iff.mp h with h | h
      · have hrange : c.val ≥ 'A'.val ∧ c.val ≤ 'Z'.val := of_decide_eq_true h
        have hle : c.toNat ≤ 90 := hrange.2
        omega
      · have hrange : (c.val ≥ 'a'.val && c.val ≤ 'z'.val) = true := h
        have hle : c.toNat ≤ 122 := of_decide_eq_true (Bool.and_eq_true_iff.mp hrange).2
        omega
    · have hrange : (c.val ≥ '0'.val && c.val ≤ '9'.val) = true := h
      have hle : c.toNat ≤ 57 := of_decide_eq_true (Bool.and_eq_true_iff.mp hrange).2
      omega
  · have hm : c ∈ "!#$&-^_.+".toList := by simpa using h
    have hall : "!#$&-^_.+".toList.all (·.toNat < 128) := by decide
    exact of_decide_eq_true (List.all_eq_true.mp hall c hm)

/-- What a character of a MIME type is not, and that its lowercase is one too. -/
theorem mimeChar_spec (h : mimeChar c) : c.utf8Size = 1 ∧ c.toLower.utf8Size = 1 ∧
    mimeChar c.toLower ∧ c.toLower.toLower = c.toLower ∧ c.toLower ≠ ';' ∧ c.toLower ≠ '/' ∧
    c ≠ '/' ∧ isWhitespace c.toLower = false := by
  have hall : ∀ n < 128, mimeChar (Char.ofNat n) → (Char.ofNat n).utf8Size = 1 ∧
      (Char.ofNat n).toLower.utf8Size = 1 ∧ mimeChar (Char.ofNat n).toLower ∧
      (Char.ofNat n).toLower.toLower = (Char.ofNat n).toLower ∧ (Char.ofNat n).toLower ≠ ';' ∧
      (Char.ofNat n).toLower ≠ '/' ∧ Char.ofNat n ≠ '/' ∧
      isWhitespace (Char.ofNat n).toLower = false := by decide +kernel
  have hc := hall c.toNat (mimeChar_ascii h)
  rw [Char.ofNat_toNat] at hc
  exact hc h

theorem mimeToken_iff : mimeToken s ↔ s ≠ [] ∧ ∀ c ∈ s, mimeChar c := by
  simp [mimeToken]

theorem mimeToken_toLower (h : mimeToken s) : mimeToken (s.map Char.toLower) := by
  obtain ⟨hne, hall⟩ := mimeToken_iff.mp h
  refine mimeToken_iff.mpr ⟨by simpa using hne, fun c hc => ?_⟩
  obtain ⟨d, hd, rfl⟩ := List.mem_map.mp hc
  exact (mimeChar_spec (hall d hd)).2.2.1

/-- What `clean_mime` gives, from its parts. -/
def lowerMime (ty sub : Str) : Str := ty.map Char.toLower ++ '/' :: sub.map Char.toLower

theorem cleanMime_eq_some {m r : Str} (h : cleanMime m = some r) : ∃ ty sub : Str,
    mimeToken ty ∧ mimeToken sub ∧ len (ty ++ '/' :: sub) ≤ maxMimeBytes ∧
    r = lowerMime ty sub := by
  unfold cleanMime at h
  generalize trim (m.takeWhile (· ≠ ';')) = m' at h
  simp only at h
  split_ifs at h with hm
  split at h
  · cases h
  rename_i ty slash sub hspan
  split_ifs at h with htok
  obtain ⟨hty, hsub⟩ := (Bool.and_eq_true _ _).mp htok
  rw [List.span_eq_takeWhile_dropWhile, Prod.mk.injEq] at hspan
  have hslash : slash = '/' := by
    have := List.head?_dropWhile_not (fun c => decide (c ≠ '/')) m'
    rw [hspan.2] at this
    simpa using this
  have hm' : m' = ty ++ '/' :: sub := by
    rw [← hslash, ← hspan.1, ← hspan.2, List.takeWhile_append_dropWhile]
  refine ⟨ty, sub, hty, hsub, ?_, (Option.some.inj h).symm⟩
  rw [← hm']
  exact Nat.not_lt.mp (not_or.mp hm).2

theorem len_of_mimeToken (h : mimeToken s) : len (s.map Char.toLower) = len s := by
  have hall := (mimeToken_iff.mp h).2
  rw [len_eq_length fun c hc => (mimeChar_spec (hall c hc)).1, len_eq_length, List.length_map]
  intro c hc
  obtain ⟨d, hd, rfl⟩ := List.mem_map.mp hc
  exact (mimeChar_spec (hall d hd)).2.1

theorem toLower_toLower (h : mimeToken s) :
    (s.map Char.toLower).map Char.toLower = s.map Char.toLower := by
  rw [List.map_map]
  exact List.map_congr_left fun c hc => (mimeChar_spec ((mimeToken_iff.mp h).2 c hc)).2.2.2.1

theorem mem_lowerMime {ty sub : Str} (hty : mimeToken ty) (hsub : mimeToken sub)
    (hc : c ∈ lowerMime ty sub) : c ≠ ';' ∧ isWhitespace c = false := by
  have hmap : ∀ {s : Str}, mimeToken s → c ∈ s.map Char.toLower → c ≠ ';' ∧
      isWhitespace c = false := by
    intro s hs hc
    obtain ⟨d, hd, rfl⟩ := List.mem_map.mp hc
    have hd := mimeChar_spec ((mimeToken_iff.mp hs).2 d hd)
    exact ⟨hd.2.2.2.2.1, hd.2.2.2.2.2.2.2⟩
  rcases List.mem_append.mp hc with hc | hc
  · exact hmap hty hc
  · rcases List.mem_cons.mp hc with rfl | hc
    · exact ⟨by decide, by decide⟩
    · exact hmap hsub hc

theorem cleanMime_of_cleanMime {m r : Str} (h : cleanMime m = some r) : cleanMime r = some r := by
  obtain ⟨ty, sub, hty, hsub, hlen, rfl⟩ := cleanMime_eq_some h
  have hwhole : trim ((lowerMime ty sub).takeWhile (· ≠ ';')) = lowerMime ty sub := by
    rw [List.takeWhile_eq_self_iff.mpr fun c hc => by simpa using (mem_lowerMime hty hsub hc).1]
    exact trim_of_forall fun c hc => (mem_lowerMime hty hsub hc).2
  have hfits : ¬ (lowerMime ty sub = [] ∨ maxMimeBytes < len (lowerMime ty sub)) := by
    rw [not_or, Nat.not_lt]
    refine ⟨by simp [lowerMime], ?_⟩
    simpa [lowerMime, len_of_mimeToken hty, len_of_mimeToken hsub] using hlen
  have hspan : (lowerMime ty sub).span (· ≠ '/') =
      (ty.map Char.toLower, '/' :: sub.map Char.toLower) := by
    have hslash : ∀ c ∈ ty.map Char.toLower, decide (c ≠ '/') = true := by
      intro c hc
      obtain ⟨d, hd, rfl⟩ := List.mem_map.mp hc
      simpa using (mimeChar_spec ((mimeToken_iff.mp hty).2 d hd)).2.2.2.2.2.1
    rw [List.span_eq_takeWhile_dropWhile, lowerMime, List.takeWhile_append_of_pos hslash,
      List.dropWhile_append_of_pos hslash]
    simp
  unfold cleanMime
  rw [hwhole, if_neg hfits, hspan]
  simp only [mimeToken_toLower hty, mimeToken_toLower hsub, toLower_toLower hty,
    toLower_toLower hsub]
  rfl

end Mime

end Sukkula.Offer
