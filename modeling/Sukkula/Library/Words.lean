import Sukkula.Library.Files
import Sukkula.Library.Str

/-! # Words of a string

Strings cut by bytes, split at a character or at white space, and joined again.
White space between words is one hyphen's worth, however much of it there is.
-/

namespace Sukkula.Str

variable {c : Char} {s t q run : Str}

section Slices

/-- The string up to and from byte `n`, if that is between two characters. -/
def splitAtByte : Str → ℕ → Option (Str × Str)
  | s, 0 => some ([], s)
  | [], _ + 1 => none
  | c :: s, n + 1 =>
    if c.utf8Size ≤ n + 1 then (splitAtByte s (n + 1 - c.utf8Size)).map fun (a, b) => (c :: a, b)
    else none

/-- `get(..n)` -/
def getTo (s : Str) (n : ℕ) : Option Str := (s.splitAtByte n).map Prod.fst

/-- `get(n..)` -/
def getFrom (s : Str) (n : ℕ) : Option Str := (s.splitAtByte n).map Prod.snd

/-- `get(a..b)` -/
def getRange (s : Str) (a b : ℕ) : Option Str :=
  if a ≤ b then (s.getFrom a).bind fun t => t.getTo (b - a) else none

theorem eq_of_splitAtByte {n : ℕ} {a b : Str} (h : s.splitAtByte n = some (a, b)) : s = a ++ b := by
  induction s generalizing n a with
  | nil =>
    cases n with
    | zero =>
      cases h
      rfl
    | succ n => cases h
  | cons c s ih =>
    cases n with
    | zero =>
      cases h
      rfl
    | succ n =>
      rw [splitAtByte, Option.ite_none_right_eq_some] at h
      obtain ⟨⟨a', b'⟩, hrest, heq⟩ := Option.map_eq_some_iff.mp h.2
      cases heq
      rw [ih hrest, List.cons_append]

theorem mem_of_getTo {n : ℕ} {a : Str} (h : s.getTo n = some a) (hc : c ∈ a) : c ∈ s := by
  obtain ⟨⟨a', b⟩, hsplit, rfl⟩ := Option.map_eq_some_iff.mp h
  rw [eq_of_splitAtByte hsplit]
  exact List.mem_append_left b hc

theorem splitAtByte_append (s t : Str) : (s ++ t).splitAtByte s.len = some (s, t) := by
  induction s with
  | nil => cases t <;> rfl
  | cons c s ih =>
    have hc := c.utf8Size_pos
    obtain ⟨n, hn⟩ : ∃ n, len (c :: s) = n + 1 := ⟨len (c :: s) - 1, by rw [len_cons]; omega⟩
    have hrest : n + 1 - c.utf8Size = len s := by
      rw [← hn, len_cons]
      omega
    have hle : c.utf8Size ≤ n + 1 := by
      rw [← hn, len_cons]
      omega
    rw [hn, List.cons_append, splitAtByte, if_pos hle, hrest, ih]
    rfl

theorem getTo_append (s t : Str) : (s ++ t).getTo s.len = some s := by
  rw [getTo, splitAtByte_append]
  rfl

theorem getFrom_append (s t : Str) : (s ++ t).getFrom s.len = some t := by
  rw [getFrom, splitAtByte_append]
  rfl

theorem getRange_append (s t u : Str) : (s ++ t ++ u).getRange s.len (s.len + t.len) = some t := by
  rw [getRange, if_pos (Nat.le_add_right _ _), List.append_assoc, getFrom_append, Option.bind_some,
    Nat.add_sub_cancel_left, getTo_append]

end Slices

section Join

/-- The words with `c` between them. -/
def join (c : Char) (words : List Str) : Str := [c].intercalate words

@[simp] theorem join_singleton (c : Char) (s : Str) : join c [s] = s := List.intercalate_singleton

theorem join_cons (c : Char) (s : Str) {words : List Str} (h : words ≠ []) :
    join c (s :: words) = s ++ c :: join c words := by
  rw [join, List.intercalate_cons_of_ne_nil h, List.append_assoc]
  rfl

theorem join_append_left (c : Char) (a : List Str) {b : List Str} (hb : b ≠ []) :
    join c (a ++ b) = a.flatMap (· ++ [c]) ++ join c b := by
  induction a with
  | nil => rfl
  | cons s a ih =>
    rw [List.cons_append, join_cons c s (List.append_ne_nil_of_right_ne_nil a hb), ih,
      List.flatMap_cons]
    simp only [List.append_assoc, List.cons_append, List.nil_append]

theorem join_cons_eq_append (c : Char) (s : Str) (words : List Str) :
    join c (s :: words) = s ++ words.flatMap (c :: ·) := by
  induction words generalizing s with
  | nil => rw [join_singleton, List.flatMap_nil, List.append_nil]
  | cons t words ih =>
    rw [join_cons c s (List.cons_ne_nil t words), ih, List.flatMap_cons, List.cons_append]

theorem join_append_right (c : Char) {a : List Str} (ha : a ≠ []) (b : List Str) :
    join c (a ++ b) = join c a ++ b.flatMap (c :: ·) := by
  cases a with
  | nil => exact absurd rfl ha
  | cons s a =>
    rw [List.cons_append, join_cons_eq_append, join_cons_eq_append, List.flatMap_append,
      List.append_assoc]

theorem join_splitOn (c : Char) (s : Str) : join c (s.splitOn c) = s := List.intercalate_splitOn c

theorem splitOn_join {words : List Str} (h : ∀ w ∈ words, c ∉ w) (hne : words ≠ []) :
    (join c words).splitOn c = words := List.splitOn_intercalate c h hne

theorem not_mem_of_mem_splitOn (h : q ∈ s.splitOn c) : c ∉ q := by
  induction s generalizing q with
  | nil =>
    rw [List.splitOn_nil, List.mem_singleton] at h
    simp [h]
  | cons x s ih =>
    obtain ⟨hd, tl, htl⟩ := List.exists_cons_of_ne_nil (List.splitOn_ne_nil c s)
    rw [List.splitOn_cons_eq_if_modifyHead, htl] at h
    rw [htl] at ih
    split_ifs at h with hx
    · rcases List.mem_cons.mp h with rfl | hmem
      · exact List.not_mem_nil
      · exact ih hmem
    · rcases List.mem_cons.mp h with rfl | hmem
      · have hne : c ≠ x := fun heq => hx (by rw [heq, beq_self_eq_true])
        exact List.not_mem_cons_of_ne_of_not_mem hne (ih List.mem_cons_self)
      · exact ih (List.mem_cons_of_mem hd hmem)

theorem splitOn_join_flatMap {words : List Str} (h : words ≠ []) :
    (join c words).splitOn c = words.flatMap (·.splitOn c) := by
  induction words with
  | nil => exact absurd rfl h
  | cons s words ih =>
    by_cases hnil : words = []
    · subst hnil
      rw [join_singleton, List.flatMap_cons, List.flatMap_nil, List.append_nil]
    · rw [join_cons c s hnil, List.splitOn_append_cons_self, ih hnil, List.flatMap_cons]

theorem mem_join {x : Char} {words : List Str} (h : x ∈ join c words) :
    x = c ∨ ∃ w ∈ words, x ∈ w := by
  induction words with
  | nil => exact absurd h List.not_mem_nil
  | cons s words ih =>
    by_cases hnil : words = []
    · subst hnil
      rw [join_singleton] at h
      exact .inr ⟨s, List.mem_cons_self, h⟩
    · rw [join_cons c s hnil, List.mem_append, List.mem_cons] at h
      rcases h with hs | rfl | hrest
      · exact .inr ⟨s, List.mem_cons_self, hs⟩
      · exact .inl rfl
      · exact (ih hrest).imp_right fun ⟨w, hw, hx⟩ => ⟨w, List.mem_cons_of_mem s hw, hx⟩

theorem eq_of_splitOnce {a b : Str} (h : splitOnce c s = some (a, b)) :
    s = a ++ c :: b ∧ c ∉ a := by
  induction s generalizing a with
  | nil => cases h
  | cons x s ih =>
    rw [splitOnce] at h
    split_ifs at h with hx
    · cases h
      exact ⟨by rw [hx, List.nil_append], List.not_mem_nil⟩
    · obtain ⟨⟨a', b'⟩, hsplit, heq⟩ := Option.map_eq_some_iff.mp h
      cases heq
      obtain ⟨rfl, hnot⟩ := ih hsplit
      exact ⟨rfl, List.not_mem_cons_of_ne_of_not_mem (Ne.symm hx) hnot⟩

theorem splitOnce_append {a : Str} (h : c ∉ a) (b : Str) :
    splitOnce c (a ++ c :: b) = some (a, b) := by
  induction a with
  | nil => rw [List.nil_append, splitOnce, if_pos rfl]
  | cons x a ih =>
    obtain ⟨hne, hnot⟩ := not_or.mp (mt List.mem_cons.mpr h)
    rw [List.cons_append, splitOnce, if_neg (Ne.symm hne), ih hnot]
    rfl

theorem len_join (hc : c.utf8Size = 1) {words : List Str} (h : words ≠ []) :
    (join c words).len + 1 = (words.map fun w => w.len + 1).sum := by
  induction words with
  | nil => exact absurd rfl h
  | cons s words ih =>
    by_cases hnil : words = []
    · subst hnil
      simp
    · rw [join_cons c s hnil, len_append, len_cons, hc, List.map_cons, List.sum_cons, ← ih hnil]
      omega

theorem two_mul_length_le {words : List Str} (h : ∀ w ∈ words, w ≠ []) :
    2 * words.length ≤ (words.map fun w => w.len + 1).sum := by
  induction words with
  | nil => rfl
  | cons s words ih =>
    rw [List.forall_mem_cons] at h
    obtain ⟨x, rest, rfl⟩ := List.exists_cons_of_ne_nil h.1
    have hx := x.utf8Size_pos
    have hrest := ih h.2
    rw [List.map_cons, List.sum_cons, len_cons, List.length_cons]
    omega

end Join

section Spaces

def splitWhitespace (s : Str) : List Str := (s.splitOnP isWhitespace).filter (· ≠ [])

/-- Without the spaces, and a hyphen for those between words. -/
def hyphenated (s : Str) : Str := join '-' s.splitWhitespace

theorem splitWhitespace_of_forall (h : ∀ c ∈ s, isWhitespace c = false) (hne : s ≠ []) :
    s.splitWhitespace = [s] := by
  rw [splitWhitespace, List.splitOnP_eq_singleton h]
  simp [hne]

theorem hyphenated_of_forall (h : ∀ c ∈ s, isWhitespace c = false) : s.hyphenated = s := by
  by_cases hne : s = []
  · subst hne
    rfl
  · rw [hyphenated, splitWhitespace_of_forall h hne, join_singleton]

theorem splitWhitespace_append_cons (hc : isWhitespace c) (s t : Str) :
    (s ++ c :: t).splitWhitespace = s.splitWhitespace ++ t.splitWhitespace := by
  rw [splitWhitespace, List.splitOnP_append_cons s t hc, List.filter_append]
  rfl

theorem splitWhitespace_spaces (h : ∀ c ∈ run, isWhitespace c) (t : Str) :
    (run ++ t).splitWhitespace = t.splitWhitespace := by
  induction run with
  | nil => rfl
  | cons c run ih =>
    rw [List.forall_mem_cons] at h
    have hc := splitWhitespace_append_cons h.1 [] (run ++ t)
    rw [List.nil_append] at hc
    rw [List.cons_append, hc, ih h.2]
    rfl

theorem splitWhitespace_around {pre post : Str} (hpre : ∀ c ∈ pre, isWhitespace c)
    (hpost : ∀ c ∈ post, isWhitespace c) (t : Str) :
    (pre ++ t ++ post).splitWhitespace = t.splitWhitespace := by
  rw [List.append_assoc, splitWhitespace_spaces hpre]
  cases post with
  | nil => rw [List.append_nil]
  | cons c post =>
    rw [List.forall_mem_cons] at hpost
    have hrest : splitWhitespace post = [] := by
      rw [← List.append_nil post, splitWhitespace_spaces hpost.2]
      rfl
    rw [splitWhitespace_append_cons hpost.1, hrest, List.append_nil]

theorem mem_of_mem_trim (h : c ∈ s.trim) : c ∈ s :=
  (List.dropWhile_sublist _).subset ((List.rdropWhile_prefix _ _).subset h)

theorem splitWhitespace_trim (s : Str) : s.trim.splitWhitespace = s.splitWhitespace := by
  have hfront : s = s.takeWhile isWhitespace ++ s.dropWhile isWhitespace :=
    List.takeWhile_append_dropWhile.symm
  have hback : s.dropWhile isWhitespace =
      s.trim ++ (s.dropWhile isWhitespace).rtakeWhile isWhitespace :=
    (List.rdropWhile_append_rtakeWhile ..).symm
  conv_rhs => rw [hfront, hback, ← List.append_assoc]
  refine (splitWhitespace_around ?_ ?_ _).symm
  · exact fun c hc => List.mem_takeWhile_imp hc
  · exact fun c hc => List.mem_rtakeWhile_imp hc

theorem hyphenated_trim (s : Str) : s.trim.hyphenated = s.hyphenated := by
  rw [hyphenated, hyphenated, splitWhitespace_trim]

theorem splitWhitespace_gap (hq : ∀ c ∈ q, isWhitespace c = false) (hqne : q ≠ [])
    (hrun : ∀ c ∈ run, isWhitespace c) (hne : run ≠ []) (t : Str) :
    (q ++ run ++ t).splitWhitespace = q :: t.splitWhitespace := by
  cases run with
  | nil => exact absurd rfl hne
  | cons c run =>
    rw [List.forall_mem_cons] at hrun
    rw [List.append_assoc, List.cons_append, splitWhitespace_append_cons hrun.1,
      splitWhitespace_of_forall hq hqne, splitWhitespace_spaces hrun.2]
    rfl

theorem splitOnP_append_of_forall {p : Char → Bool} (h : ∀ c ∈ q, p c = false) (t : Str) :
    (q ++ t).splitOnP p = (t.splitOnP p).modifyHead (q ++ ·) := by
  induction q with
  | nil =>
    obtain ⟨hd, tl, htl⟩ := List.exists_cons_of_ne_nil (List.splitOnP_ne_nil p t)
    rw [List.nil_append, htl]
    rfl
  | cons c q ih =>
    rw [List.forall_mem_cons] at h
    obtain ⟨hd, tl, htl⟩ := List.exists_cons_of_ne_nil (List.splitOnP_ne_nil p t)
    rw [List.cons_append, List.splitOnP_cons_eq_if_modifyHead, h.1, ih h.2, htl]
    rfl

theorem splitWhitespace_cons (hq : ∀ c ∈ q, isWhitespace c = false)
    (hc : isWhitespace c = false) (t : Str) :
    ∃ w ws, splitWhitespace (c :: t) = w :: ws ∧ splitWhitespace (q ++ c :: t) =
    (q ++ w) :: ws := by
  obtain ⟨hd, tl, htl⟩ := List.exists_cons_of_ne_nil (List.splitOnP_ne_nil isWhitespace t)
  have hsplit : (c :: t).splitOnP isWhitespace = (c :: hd) :: tl := by
    rw [List.splitOnP_cons_eq_if_modifyHead, hc, htl]
    rfl
  refine ⟨c :: hd, tl.filter (· ≠ []), ?_, ?_⟩
  · rw [splitWhitespace, hsplit, List.filter_cons_of_pos (by simp)]
  · rw [splitWhitespace, splitOnP_append_of_forall hq, hsplit, List.modifyHead_cons,
      List.filter_cons_of_pos (by simp)]

theorem hyphenated_append (hq : ∀ c ∈ q, isWhitespace c = false)
    (hc : isWhitespace c = false) (t : Str) :
    hyphenated (q ++ c :: t) = q ++ hyphenated (c :: t) := by
  obtain ⟨w, ws, hsplit, happ⟩ := splitWhitespace_cons hq hc t
  rw [hyphenated, hyphenated, hsplit, happ]
  cases ws with
  | nil => rw [join_singleton, join_singleton]
  | cons v ws =>
    have hne : v :: ws ≠ [] := List.cons_ne_nil v ws
    rw [join_cons _ (q ++ w) hne, join_cons _ w hne, List.append_assoc]

end Spaces

section Ascii

theorem toList_of_ascii {w : String} (h : ∀ b ∈ w.toByteArray.data.toList, b.toNat < 128) :
    w.toList = w.toByteArray.data.toList.map fun b => Char.ofNat b.toNat := by
  have hchar : ∀ b : UInt8, b.toNat < 128 → String.utf8EncodeChar (Char.ofNat b.toNat) = [b] := by
    intro b hb
    have hall : ∀ n < 128, String.utf8EncodeChar (Char.ofNat n) = [UInt8.ofNat n] := by
      decide +kernel
    rw [hall b.toNat hb, UInt8.ofNat_toNat]
  have hencode : ∀ bytes : List UInt8, (∀ b ∈ bytes, b.toNat < 128) →
      (bytes.map fun b => Char.ofNat b.toNat).flatMap String.utf8EncodeChar = bytes := by
    intro bytes hbytes
    induction bytes with
    | nil => rfl
    | cons b bytes ih =>
      rw [List.forall_mem_cons] at hbytes
      rw [List.map_cons, List.flatMap_cons, hchar b hbytes.1, ih hbytes.2]
      rfl
  have hsame : w = String.ofList (w.toByteArray.data.toList.map fun b => Char.ofNat b.toNat) := by
    apply String.toByteArray_inj.mp
    rw [String.toByteArray_ofList, List.utf8Encode, hencode _ h]
    apply ByteArray.ext
    rw [List.data_toByteArray]
  conv_lhs => rw [hsame, String.toList_ofList]

def toAsciiLowercase (s : Str) : Str := s.map Char.toLower

theorem toLower_cases (c : Char) :
    (65 ≤ c.toNat ∧ c.toNat ≤ 90 ∧ c.toLower.toNat = c.toNat + 32) ∨
      ((c.toNat < 65 ∨ 90 < c.toNat) ∧ c.toLower = c) := by
  have hall : ∀ n < 91, 65 ≤ n → (Char.ofNat n).toLower.toNat = n + 32 := by decide
  by_cases hc : 65 ≤ c.toNat ∧ c.toNat ≤ 90
  · left
    have hlower := hall c.toNat (by omega) hc.1
    rw [Char.ofNat_toNat] at hlower
    exact ⟨hc.1, hc.2, hlower⟩
  · right
    have hnot : ¬ (c.val ≥ 'A'.val ∧ c.val ≤ 'Z'.val) := by
      intro h
      rw [ge_iff_le, UInt32.le_iff_toNat_le, UInt32.le_iff_toNat_le] at h
      exact hc h
    exact ⟨by omega, dif_neg hnot⟩

theorem toLower_eq_self (h : c.toNat < 65 ∨ 90 < c.toNat) : c.toLower = c := by
  rcases toLower_cases c with hc | hc
  · omega
  · exact hc.2

theorem toLower_eq_of_lt (h : c.toLower.toNat < 97) : c.toLower = c := by
  rcases toLower_cases c with hc | hc
  · omega
  · exact hc.2

theorem utf8Size_toLower (c : Char) : c.toLower.utf8Size = c.utf8Size := by
  have hone : ∀ d : Char, d.toNat < 128 → d.utf8Size = 1 := fun d hd => by
    rw [Char.utf8Size, if_pos]
    rw [UInt32.le_iff_toNat_le]
    exact Nat.le_of_lt_succ hd
  rcases toLower_cases c with ⟨-, hle, hc⟩ | hc
  · rw [hone c (by omega), hone c.toLower (by omega)]
  · rw [hc.2]

theorem len_toAsciiLowercase (s : Str) : len s.toAsciiLowercase = len s := by
  rw [toAsciiLowercase, len, len, List.map_map]
  congr 1
  exact List.map_congr_left fun c _ => utf8Size_toLower c

end Ascii

end Sukkula.Str
