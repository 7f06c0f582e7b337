import Mathlib.Algebra.BigOperators.Group.List.Basic
import Mathlib.Algebra.GroupWithZero.Nat
import Mathlib.Data.List.DropRight

/-! # Strings as lists of characters

A string is the list of its Unicode scalar values; its length in bytes is that
of its UTF-8 form. Cuts fall on character boundaries, so slices are prefixes
and suffixes of the list. Trimming and searching from the end are Mathlib's
`rdropWhile` and `rtakeWhile`.
-/

namespace Sukkula

abbrev Str := List Char

instance : LawfulBEq Str := inferInstance

namespace Str

def len (s : Str) : ℕ := (s.map Char.utf8Size).sum

@[simp] theorem len_nil : len [] = 0 := rfl

@[simp] theorem len_cons (c : Char) (s : Str) : len (c :: s) = c.utf8Size + len s := by
  simp [len]

@[simp] theorem len_append (s t : Str) : len (s ++ t) = len s + len t := by
  simp [len]

theorem len_le_of_isPrefix {s t : Str} (h : s <+: t) : len s ≤ len t := by
  obtain ⟨u, rfl⟩ := h
  simp

theorem len_eq_length {s : Str} (h : ∀ c ∈ s, c.utf8Size = 1) : s.len = s.length := by
  induction s with
  | nil => rfl
  | cons c s ih =>
    obtain ⟨hc, hs⟩ := List.forall_mem_cons.mp h
    rw [len_cons, ih hs, hc, List.length_cons]
    omega

theorem len_le_of_length {s : Str} {n : ℕ} (h : s.length ≤ n) : len s ≤ 4 * n := by
  have hall : len s ≤ 4 * s.length := by
    clear h
    induction s with
    | nil => exact Nat.zero_le _
    | cons c s ih =>
      have hc := c.utf8Size_le_four
      rw [len_cons, List.length_cons]
      omega
  exact hall.trans (Nat.mul_le_mul_left 4 h)

/-- The longest prefix of at most `max` bytes that ends on a character boundary. -/
def truncateBytes : Str → ℕ → Str
  | [], _ => []
  | c :: s, max => if c.utf8Size ≤ max then c :: truncateBytes s (max - c.utf8Size) else []

theorem truncateBytes_isPrefix (s : Str) (max : ℕ) : truncateBytes s max <+: s := by
  induction s generalizing max with
  | nil => exact List.prefix_rfl
  | cons c s ih =>
    unfold truncateBytes
    split
    · exact List.cons_prefix_cons.mpr ⟨rfl, ih _⟩
    · exact List.nil_prefix

theorem len_truncateBytes_le (s : Str) (max : ℕ) : len (truncateBytes s max) ≤ max := by
  induction s generalizing max with
  | nil => simp [truncateBytes]
  | cons c s ih =>
    unfold truncateBytes
    split
    · have := ih (max - c.utf8Size)
      simp only [len_cons]
      omega
    · simp

theorem truncateBytes_append {s : Str} {max : ℕ} (h : len s ≤ max) (t : Str) :
    truncateBytes (s ++ t) max = s ++ truncateBytes t (max - len s) := by
  induction s generalizing max with
  | nil => simp
  | cons c s ih =>
    rw [len_cons] at h
    rw [List.cons_append, truncateBytes, if_pos (by omega), ih (by omega), len_cons,
      Nat.sub_sub, List.cons_append]

/-- A cut that falls into the first part does not see the second. -/
theorem truncateBytes_append_of_le {s : Str} {max : ℕ} (h : max ≤ len s) (t : Str) :
    truncateBytes (s ++ t) max = truncateBytes s max := by
  induction s generalizing max with
  | nil =>
    obtain rfl : max = 0 := by simpa using h
    cases t with
    | nil => rfl
    | cons c t =>
      have hc := c.utf8Size_pos
      exact if_neg (by omega)
  | cons c s ih =>
    rw [len_cons] at h
    rw [List.cons_append, truncateBytes, truncateBytes, ih (by omega)]

/-- The characters with the Unicode property `White_Space`. -/
def isWhitespace (c : Char) : Bool :=
  let u := c.toNat
  (0x09 ≤ u && u ≤ 0x0D) || u == 0x20 || u == 0x85 || u == 0xA0 || u == 0x1680 ||
    (0x2000 ≤ u && u ≤ 0x200A) || u == 0x2028 || u == 0x2029 || u == 0x202F || u == 0x205F ||
    u == 0x3000

def trim (s : Str) : Str := (s.dropWhile isWhitespace).rdropWhile isWhitespace

theorem trim_trim (s : Str) : s.trim.trim = s.trim := by
  have hfront : s.trim.dropWhile isWhitespace = s.trim := by
    cases hs : s.trim with
    | nil => rfl
    | cons c t =>
      obtain ⟨u, hu⟩ := List.rdropWhile_prefix isWhitespace (s.dropWhile isWhitespace)
      rw [← trim, hs] at hu
      have hc := List.head?_dropWhile_not isWhitespace s
      rw [← hu] at hc
      exact List.dropWhile_cons_of_neg (by simpa using hc)
  rw [trim, hfront, trim, List.rdropWhile_idempotent]

theorem trim_of_forall {s : Str} (h : ∀ c ∈ s, isWhitespace c = false) : s.trim = s := by
  have hfront : s.dropWhile isWhitespace = s := by
    cases s with
    | nil => rfl
    | cons c s => exact List.dropWhile_cons_of_neg (by simp [h c List.mem_cons_self])
  rw [trim, hfront, List.rdropWhile_eq_self_iff]
  intro hs
  simp [h _ (List.getLast_mem hs)]

/-- The parts before and after the first `c`. -/
def splitOnce (c : Char) : Str → Option (Str × Str)
  | [] => none
  | d :: s => if d = c then some ([], s) else (splitOnce c s).map fun (a, b) => (d :: a, b)

/-- The character index of the last `c`. -/
def rfind (c : Char) : Str → Option ℕ
  | [] => none
  | d :: s =>
    match rfind c s with
    | some i => some (i + 1)
    | none => if d = c then some 0 else none

theorem rfind_eq_none {c : Char} {s : Str} (h : rfind c s = none) : c ∉ s := by
  induction s with
  | nil => simp
  | cons d s ih =>
    unfold rfind at h
    split at h
    · cases h
    · rename_i hn
      have hd : d ≠ c := by simpa using h
      simpa [Ne.symm hd] using ih hn

theorem rfind_eq_some {c : Char} {s : Str} {i : ℕ} (h : rfind c s = some i) :
    s = s.take i ++ c :: s.drop (i + 1) ∧ c ∉ s.drop (i + 1) := by
  induction s generalizing i with
  | nil => cases h
  | cons d s ih =>
    unfold rfind at h
    split at h
    · rename_i j hj
      obtain rfl : j + 1 = i := by simpa using h
      obtain ⟨he, hn⟩ := ih hj
      exact ⟨congrArg (d :: ·) he, hn⟩
    · rename_i hn
      split at h
      · obtain rfl : 0 = i := by simpa using h
        simp_all [rfind_eq_none hn]
      · cases h

theorem rfind_of_not_mem {c : Char} {t : Str} (h : c ∉ t) : rfind c t = none := by
  induction t with
  | nil => rfl
  | cons d t ih =>
    obtain ⟨hd, ht⟩ := not_or.mp (mt List.mem_cons.mpr h)
    rw [rfind, ih ht]
    exact if_neg (Ne.symm hd)

theorem rfind_append {c : Char} {t : Str} (h : c ∉ t) (s : Str) :
    rfind c (s ++ c :: t) = some s.length := by
  induction s with
  | nil =>
    rw [List.nil_append, rfind, rfind_of_not_mem h]
    exact if_pos rfl
  | cons d s ih =>
    rw [List.cons_append, rfind, ih]
    rfl

/-- The parts before and after the last `c`. -/
def rsplitOnce (c : Char) (s : Str) : Option (Str × Str) :=
  (rfind c s).map fun i => (s.take i, s.drop (i + 1))

theorem rsplitOnce_eq_some {c : Char} {s a b : Str} :
    rsplitOnce c s = some (a, b) ↔ s = a ++ c :: b ∧ c ∉ b := by
  constructor
  · intro h
    obtain ⟨i, hi, he⟩ := Option.map_eq_some_iff.mp h
    obtain ⟨rfl, rfl⟩ := Prod.mk.inj he
    exact rfind_eq_some hi
  · rintro ⟨rfl, hb⟩
    rw [rsplitOnce, rfind_append hb]
    simp

/-- What is dropped from the end comes after every character that stays. -/
theorem isPrefix_rdropWhile {a b : Str} {c : Char} {p : Char → Bool} (hc : ¬ p c) :
    a ++ [c] <+: (a ++ [c] ++ b).rdropWhile p := by
  induction b using List.reverseRecOn with
  | nil =>
    rw [List.append_nil]
    exact ⟨[], by rw [List.append_nil, List.rdropWhile_concat_neg p a c hc]⟩
  | append_singleton b d ih =>
    rw [← List.append_assoc, List.rdropWhile_concat]
    split_ifs
    · exact ih
    · simp

theorem rdropWhile_isPrefix {s t : Str} (h : s <+: t) (p : Char → Bool) :
    s.rdropWhile p <+: t.rdropWhile p := by
  by_cases hnil : s.rdropWhile p = []
  · rw [hnil]
    exact List.nil_prefix
  · have hlast := List.rdropWhile_last_not p s hnil
    obtain ⟨r, rfl⟩ := (List.rdropWhile_prefix p s).trans h
    nth_rewrite 2 [← List.dropLast_append_getLast hnil]
    nth_rewrite 1 [← List.dropLast_append_getLast hnil]
    exact isPrefix_rdropWhile hlast

theorem append_cons_inj {c : Char} {a a' b b' : Str} (hb : c ∉ b) (hb' : c ∉ b')
    (h : a ++ c :: b = a' ++ c :: b') : a = a' ∧ b = b' := by
  have h₁ : rsplitOnce c (a ++ c :: b) = some (a, b) := rsplitOnce_eq_some.mpr ⟨rfl, hb⟩
  have h₂ := rsplitOnce_eq_some.mpr ⟨h, hb'⟩
  exact Prod.mk.inj (Option.some.inj (h₁.symm.trans h₂))

end Str

end Sukkula
