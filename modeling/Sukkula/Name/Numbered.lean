import Sukkula.Name.Extension
import Sukkula.Name.SafeName

/-! # Numbered names

The alternatives of a name keep its extension and end in their numbers, so no
two of them are the same name. Only the plain name can be among them: a name
that already ends in a number, with no room for another, is its own
alternative of that number.
-/

namespace Sukkula.Name

open Str Text

variable {s : Str} {n m : UInt32}

/-- The bytes a numbered name leaves for the stem. -/
def roomFor (s : Str) (n : UInt32) : ℕ :=
  maxNameBytes - len (numberSuffix n) - len (dotted (splitExtension s).2)

theorem numbered_eq (hn : n ≠ 0) : numbered s n =
    numberedStem (splitExtension s).1 (roomFor s n) ++ numberSuffix n ++
    dotted (splitExtension s).2 := by
  have hdot : '.'.utf8Size = 1 := by decide
  unfold numbered roomFor
  rw [if_neg hn]
  split
  · rename_i stem ext h
    simp [h, dotted, hdot, Nat.add_comm]
  · rename_i stem h
    simp [h, dotted]

theorem roomFor_add (s : Str) (n : UInt32) :
    roomFor s n + len (numberSuffix n) + len (dotted (splitExtension s).2) = maxNameBytes := by
  have h₁ := len_numberSuffix_le n
  have h₂ := len_dotted_le s
  unfold roomFor
  simp only [maxNameBytes, maxExtensionBytes] at *
  omega

theorem numberSuffix_eq (n : UInt32) :
    numberSuffix n = ' ' :: '(' :: (decimal n.toNat ++ [')']) := rfl

theorem splitExtension_numberSuffix (stem : Str) (n : UInt32) :
    (splitExtension (stem ++ numberSuffix n)).2 = none := by
  cases h : (splitExtension (stem ++ numberSuffix n)).2 with
  | none => rfl
  | some ext =>
    -- What follows the last dot holds the space of the suffix.
    exfalso
    obtain ⟨hs, -, -, -, hspace, -⟩ := splitExtension_snd h
    have hno : '.' ∉ numberSuffix n := by
      rw [numberSuffix_eq]
      simp only [List.mem_cons, List.mem_append, List.not_mem_nil, or_false, not_or]
      refine ⟨by decide, by decide, fun hc => ?_, by decide⟩
      obtain ⟨d, hd, he⟩ := List.mem_map.mp hc
      have hlt : d < 10 := Nat.digits_lt_base (by decide) (List.mem_reverse.mp hd)
      have hall : ∀ d < 10, Nat.digitChar d ≠ '.' := by decide
      exact hall d hlt he
    rcases List.append_eq_append_iff.mp hs with ⟨r, -, hr⟩ | ⟨r, -, hr⟩
    · exact hno (by rw [hr]; simp)
    · cases r with
      | nil => exact hno (by rw [← List.nil_append (numberSuffix n), ← hr]; simp)
      | cons c r =>
        obtain ⟨-, hr⟩ := List.cons.inj hr
        exact hspace (by rw [hr, numberSuffix_eq]; simp)

theorem numberedStem_ne_nil (stem : Str) (room : ℕ) : numberedStem stem room ≠ [] := by
  dsimp only [numberedStem]
  split_ifs with h
  · decide
  · exact h

theorem splitExtension_numbered (s : Str) (n : UInt32) :
    (splitExtension (numbered s n)).2 = (splitExtension s).2 := by
  by_cases hn : n = 0
  · rw [numbered, if_pos hn]
  rw [numbered_eq hn]
  cases h : (splitExtension s).2 with
  | none => rw [dotted, List.append_nil, splitExtension_numberSuffix]
  | some ext =>
    obtain ⟨-, -, hext, hdot, hspace, hlen⟩ := splitExtension_snd h
    have hne : numberedStem (splitExtension s).1 (roomFor s n) ++ numberSuffix n ≠ [] := by
      simp [numberedStem_ne_nil]
    rw [dotted, splitExtension_eq_some.mpr ⟨rfl, hne, hext, hdot, hspace, hlen⟩]

theorem decimal_injective : Function.Injective decimal := by
  have hback : ∀ n, (decimal n).reverse.map (fun c => c.toNat - '0'.toNat) = Nat.digits 10 n := by
    intro n
    rw [decimal, ← List.map_reverse, List.reverse_reverse, List.map_map]
    refine (List.map_congr_left fun d hd => ?_).trans (List.map_id _)
    have hall : ∀ d < 10, (Nat.digitChar d).toNat - '0'.toNat = d := by decide
    exact hall d (Nat.digits_lt_base (by decide) hd)
  intro n m h
  apply Nat.digits_inj_iff.mp
  rw [← hback n, ← hback m, h]

theorem append_numberSuffix_inj {a b : Str} (h : a ++ numberSuffix n = b ++ numberSuffix m) :
    a = b ∧ n = m := by
  have hno : ∀ n : UInt32, '(' ∉ decimal n.toNat ++ [')'] := by
    intro n hc
    rcases List.mem_append.mp hc with hc | hc
    · obtain ⟨d, hd, he⟩ := List.mem_map.mp hc
      have hall : ∀ d < 10, Nat.digitChar d ≠ '(' := by decide
      exact hall d (Nat.digits_lt_base (by decide) (List.mem_reverse.mp hd)) he
    · exact absurd (List.mem_singleton.mp hc) (by decide)
  rw [numberSuffix_eq, numberSuffix_eq, List.append_cons, List.append_cons b] at h
  obtain ⟨hab, hnm⟩ := append_cons_inj (hno n) (hno m) h
  constructor
  · exact List.append_cancel_right hab
  · exact UInt32.toNat_inj.mp (decimal_injective (List.append_cancel_right hnm))

theorem numbered_inj (hn : n ≠ 0) (hm : m ≠ 0) (h : numbered s n = numbered s m) : n = m := by
  rw [numbered_eq hn, numbered_eq hm] at h
  exact (append_numberSuffix_inj (List.append_cancel_right h)).2

/-- The name ends in this number already, after a character other than a dot, and has no room for
another number. -/
def Taken (s : Str) (n : UInt32) : Prop :=
  maxNameBytes - 1 ≤ len s ∧
    ∃ p c, (splitExtension s).1 = p ++ [c] ++ numberSuffix n ∧ c ≠ '.'

theorem last_numberedStem (stem : Str) (room : ℕ) :
    ∃ p c, numberedStem stem room = p ++ [c] ∧ c ≠ '.' := by
  by_cases h : (truncateBytes stem room).rdropWhile dotOrSpace = []
  · exact ⟨"received-fil".toList, 'e', if_pos h, by decide⟩
  · have hlast := List.rdropWhile_last_not dotOrSpace _ h
    refine ⟨_, _, (if_neg h).trans (List.dropLast_append_getLast h).symm, fun he => hlast ?_⟩
    rw [he]
    rfl

theorem taken_of_eq (h : (splitExtension s).1 = numberedStem (splitExtension s).1 (roomFor s n) ++
    numberSuffix n) : Taken s n := by
  have hroom := roomFor_add s n
  generalize hstem : numberedStem (splitExtension s).1 (roomFor s n) = stem at h
  obtain ⟨p, c, hp, hc⟩ := last_numberedStem (splitExtension s).1 (roomFor s n)
  refine ⟨?_, p, c, by rw [← hp, hstem, h], hc⟩
  -- With two bytes more, the space and the bracket of the number would be kept in the stem.
  by_contra hlen
  have hs := congrArg len (splitExtension_append s)
  rw [h, len_append, len_append] at hs
  have htwo : len stem + 2 ≤ roomFor s n := by
    simp only [maxNameBytes] at *
    omega
  have hcut : truncateBytes (splitExtension s).1 (roomFor s n) = (stem ++ [' ']) ++ ['('] ++
      truncateBytes (decimal n.toNat ++ [')']) (roomFor s n - len (stem ++ [' ', '('])) := by
    have hlen' : len (stem ++ [' ', '(']) ≤ roomFor s n := by
      have : len [' ', '('] = 2 := by decide
      rw [len_append, this]
      exact htwo
    rw [h, numberSuffix_eq, List.append_assoc stem [' '], List.singleton_append,
      ← truncateBytes_append hlen', List.append_assoc]
    rfl
  have hpre :
      stem ++ [' '] ++ ['('] <+: (truncateBytes (splitExtension s).1 (roomFor s n)).rdropWhile
        dotOrSpace := by
    rw [hcut]
    exact isPrefix_rdropWhile (by decide)
  have hkept : numberedStem (splitExtension s).1 (roomFor s n) =
      (truncateBytes (splitExtension s).1 (roomFor s n)).rdropWhile dotOrSpace := by
    refine if_neg fun hnil => ?_
    rw [hnil] at hpre
    simp at hpre
  rw [← hkept, hstem] at hpre
  have := hpre.length_le
  simp at this

theorem eq_of_taken (hsafe : Safe s) (h : Taken s n) :
    (splitExtension s).1 = numberedStem (splitExtension s).1 (roomFor s n) ++ numberSuffix n := by
  obtain ⟨hlen, p, c, hp, hdot⟩ := h
  have hroom := roomFor_add s n
  have hshort := hsafe.short
  have hs := splitExtension_append s
  have hbytes := congrArg len hs
  rw [hp, len_append, len_append] at hbytes
  have hspace : c ≠ ' ' := by
    rintro rfl
    refine hsafe.spaces p ('(' :: (decimal n.toNat ++ [')']) ++ dotted (splitExtension s).2) ?_
    conv_lhs => rw [← hs, hp, numberSuffix_eq]
    simp
  have hc : ¬ dotOrSpace c := by simp [dotOrSpace, hdot, hspace]
  have hkeep : (truncateBytes (splitExtension s).1 (roomFor s n)).rdropWhile dotOrSpace =
      p ++ [c] := by
    rw [hp, truncateBytes_append (by simp only [maxNameBytes] at *; omega)]
    have hrest : roomFor s n - len (p ++ [c]) = 0 ∨ roomFor s n - len (p ++ [c]) = 1 := by
      simp only [maxNameBytes] at *
      omega
    have hzero : truncateBytes (numberSuffix n) 0 = [] := by
      rw [numberSuffix_eq]
      exact if_neg (by decide)
    have hone : truncateBytes (numberSuffix n) 1 = [' '] := by
      have h1 : truncateBytes ('(' :: (decimal n.toNat ++ [')'])) 0 = [] := if_neg (by decide)
      rw [numberSuffix_eq, truncateBytes, if_pos (by decide)]
      exact congrArg (' ' :: ·) h1
    rcases hrest with h | h
    · rw [h, hzero, List.append_nil, List.rdropWhile_concat_neg dotOrSpace p c hc]
    · rw [h, hone, List.rdropWhile_concat_pos dotOrSpace (p ++ [c]) ' ' rfl,
        List.rdropWhile_concat_neg dotOrSpace p c hc]
  have hstem : numberedStem (splitExtension s).1 (roomFor s n) = p ++ [c] := by
    dsimp only [numberedStem]
    rw [hkeep, if_neg (by simp)]
  rw [hstem, hp]

/-- The plain name is its own alternative only where its number is there already. -/
theorem numbered_eq_self_iff (hsafe : Safe s) (hn : n ≠ 0) : numbered s n = s ↔ Taken s n := by
  have hs := splitExtension_append s
  constructor
  · intro h
    rw [numbered_eq hn] at h
    exact taken_of_eq (List.append_cancel_right (hs.trans h.symm))
  · intro h
    rw [numbered_eq hn, ← eq_of_taken hsafe h, hs]

theorem SafeName.numbered_inj_iff (s : SafeName) (n m : UInt32) :
    (n ≠ m → s.numbered n ≠ s.numbered m) ↔
      ¬ (n = 0 ∧ m ≠ 0 ∧ Taken s.val m) ∧ ¬ (m = 0 ∧ n ≠ 0 ∧ Taken s.val n) := by
  have hzero : ∀ k, k ≠ 0 → (s.numbered 0 = s.numbered k ↔ Taken s.val k) := by
    intro k hk
    rw [← numbered_eq_self_iff s.safe hk]
    exact ⟨fun h => (congrArg SafeName.val h).symm, fun h => SafeName.ext h.symm⟩
  by_cases hn : n = 0
  · subst hn
    by_cases hm : m = 0
    · simp [hm]
    · have := hzero m hm
      simp [hm, Ne.symm hm, this]
  · by_cases hm : m = 0
    · subst hm
      have := hzero n hn
      simp [hn, ← this, eq_comm]
    · simp only [hn, hm, false_and, not_false_eq_true, and_self, iff_true]
      exact fun hne h => hne (numbered_inj hn hm (congrArg SafeName.val h))

/-- Every alternative of a name is safe, short and of the same extension, and two of them differ but
where the plain name is one of them; so the names tried for a file are as many as the attempts but
for such a name. -/
theorem numbered_exact (s : SafeName) :
    (∀ n m : UInt32,
      (isSafe (s.numbered n).val = true ∧ len (s.numbered n).val ≤ 200 ∧
        (splitExtension (s.numbered n).val).2 = (splitExtension s.val).2 ∧
        (n ≠ m → s.numbered n ≠ s.numbered m)) ↔
      ¬ (n = 0 ∧ m ≠ 0 ∧ Taken s.val m) ∧ ¬ (m = 0 ∧ n ≠ 0 ∧ Taken s.val n)) ∧
    (((List.range 1000).map fun n => s.numbered (.ofNat n)).Nodup ↔
      ∀ n, 0 < n → n < 1000 → ¬ Taken s.val (.ofNat n)) := by
  constructor
  · intro n m
    have hsafe := (s.numbered n).safe
    rw [← s.numbered_inj_iff n m]
    constructor
    · exact fun h => h.2.2.2
    · exact fun h => ⟨(isSafe_iff_and_sanitize_safe.1 _).mpr hsafe, hsafe.short,
        splitExtension_numbered s.val n, h⟩
  · have hne : ∀ n < 1000, ∀ m < 1000, UInt32.ofNat n = UInt32.ofNat m → n = m := by
      intro n hn m hm h
      have hsize : 1000 ≤ UInt32.size := by decide
      have := congrArg UInt32.toNat h
      rwa [UInt32.toNat_ofNat_of_lt' (by omega), UInt32.toNat_ofNat_of_lt' (by omega)] at this
    rw [List.nodup_map_iff_inj_on List.nodup_range]
    simp only [List.mem_range]
    constructor
    · intro h n hpos hlt htaken
      have hn : UInt32.ofNat n ≠ 0 := fun h0 => Nat.ne_of_gt hpos (hne n hlt 0 (by omega) h0)
      have hself := (numbered_eq_self_iff s.safe hn).mpr htaken
      have := h n hlt 0 (by omega) (SafeName.ext hself)
      omega
    · intro h n hn m hm heq
      by_contra hnm
      refine (s.numbered_inj_iff (.ofNat n) (.ofNat m)).mpr ⟨?_, ?_⟩
        (fun he => hnm (hne n hn m hm he)) heq
      · rintro ⟨-, hm0, htaken⟩
        exact h m (Nat.pos_of_ne_zero fun h0 => hm0 (by rw [h0]; rfl)) hm htaken
      · rintro ⟨-, hn0, htaken⟩
        exact h n (Nat.pos_of_ne_zero fun h0 => hn0 (by rw [h0]; rfl)) hn htaken

/-- A name of 200 bytes that ends in ` (1)`. -/
def copiedName : SafeName := .ofRaw (List.replicate 196 'x' ++ numberSuffix 1)

theorem numbered_repeats : ¬ ∀ (s : SafeName) (n m : UInt32),
    isSafe (s.numbered n).val = true ∧ len (s.numbered n).val ≤ 200 ∧
      (splitExtension (s.numbered n).val).2 = (splitExtension s.val).2 ∧
      (n ≠ m → s.numbered n ≠ s.numbered m) := by
  intro h
  have heq : copiedName.numbered 0 = copiedName.numbered 1 := by decide +kernel
  exact (h copiedName 0 1).2.2.2 (by decide) heq

end Sukkula.Name
