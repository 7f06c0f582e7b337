import Sukkula.Name.Exact

/-! # Extensions

An extension is what follows the last dot of a name, if that dot is not its
first character and what follows is short and has no space. A name is its stem
and its extension, put together again.
-/

namespace Sukkula.Name

open Str Text

variable {s stem ext : Str}

def dotted : Option Str → Str
  | none => []
  | some ext => '.' :: ext

theorem splitExtension_eq_some : splitExtension s = (stem, some ext) ↔
    s = stem ++ '.' :: ext ∧ stem ≠ [] ∧ ext ≠ [] ∧ '.' ∉ ext ∧ ' ' ∉ ext ∧
      len ext ≤ maxExtensionBytes := by
  constructor
  · exact splitExtension_some
  · rintro ⟨rfl, hstem, hext, hdot, hspace, hlen⟩
    have hpos : stem.length ≠ 0 := mt List.length_eq_zero_iff.mp hstem
    unfold splitExtension
    rw [rfind_append hdot]
    split
    · rename_i h
      cases h
    · rename_i h
      exact absurd (Option.some.inj h) hpos
    · rename_i i _ hi
      obtain rfl := Option.some.inj hi
      have htail : (stem ++ '.' :: ext).drop (stem.length + 1) = ext := by simp
      simp only [htail, List.take_left]
      rw [if_neg (by simp [hext, hspace, Nat.not_lt.mpr hlen])]

theorem splitExtension_snd (h : (splitExtension s).2 = some ext) :
    s = (splitExtension s).1 ++ '.' :: ext ∧ (splitExtension s).1 ≠ [] ∧ ext ≠ [] ∧ '.' ∉ ext ∧
      ' ' ∉ ext ∧ len ext ≤ maxExtensionBytes := by
  rw [← splitExtension_eq_some, ← h]

theorem splitExtension_none (h : (splitExtension s).2 = none) : (splitExtension s).1 = s := by
  unfold splitExtension at h ⊢
  split at h
  · rfl
  · rfl
  · dsimp only at h ⊢
    split_ifs at h ⊢
    rfl

theorem splitExtension_append (s : Str) :
    (splitExtension s).1 ++ dotted (splitExtension s).2 = s := by
  cases h : (splitExtension s).2 with
  | none => rw [splitExtension_none h, dotted, List.append_nil]
  | some ext =>
    obtain ⟨hs, -⟩ := splitExtension_snd h
    exact hs.symm

theorem len_dotted_le (s : Str) : len (dotted (splitExtension s).2) ≤ maxExtensionBytes + 1 := by
  cases h : (splitExtension s).2 with
  | none => exact Nat.zero_le _
  | some ext =>
    obtain ⟨-, -, -, -, -, hlen⟩ := splitExtension_snd h
    have hdot : '.'.utf8Size = 1 := by decide
    rw [dotted, len_cons, hdot]
    omega

end Sukkula.Name
