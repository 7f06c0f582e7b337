import Mathlib.Data.Nat.Digits.Lemmas
import Sukkula.Name.Exact

/-! # The type of safe names

A `SafeName` is built by `sanitize` or numbered from another one, so the rules
come with the value.
-/

namespace Sukkula.Name

open Str Text

structure SafeName where
  val : Str
  safe : Safe val

theorem SafeName.ext {a b : SafeName} (h : a.val = b.val) : a = b := by
  cases a
  cases b
  simpa using h

instance : DecidableEq SafeName := fun a b =>
  decidable_of_iff (a.val = b.val) ⟨SafeName.ext, congrArg SafeName.val⟩

def SafeName.ofRaw (raw : Str) : SafeName := ⟨sanitize raw, safe_sanitize raw⟩

theorem SafeName.val_ofRaw (raw : Str) : (SafeName.ofRaw raw).val = sanitize raw := by
  rw [SafeName.ofRaw]

theorem SafeName.ofRaw_val (name : SafeName) : SafeName.ofRaw name.val = name := by
  apply SafeName.ext
  rw [val_ofRaw, sanitize_safe name.safe]

def decimal (n : ℕ) : Str := (Nat.digits 10 n).reverse.map Nat.digitChar

/-- The suffix ` (n)`. -/
def numberSuffix (n : UInt32) : Str := " (".toList ++ decimal n.toNat ++ [')']

/-- The stem that leaves room for the suffix and the extension. -/
def numberedStem (stem : Str) (room : ℕ) : Str :=
  let stem := (truncateBytes stem room).rdropWhile dotOrSpace
  if stem = [] then fallbackName else stem

/-- The `n`th alternative spelling of a name, as a string. -/
def numbered (name : Str) (n : UInt32) : Str :=
  if n = 0 then name
  else
    match splitExtension name with
    | (stem, some ext) =>
      numberedStem stem (maxNameBytes - len (numberSuffix n) - (len ext + 1)) ++ numberSuffix n ++
        '.' :: ext
    | (stem, none) => numberedStem stem (maxNameBytes - len (numberSuffix n)) ++ numberSuffix n

variable {s stem ext : Str} {t : Tail} {n : UInt32} {c : Char}

theorem mem_decimal {n : ℕ} (hc : c ∈ decimal n) :
    c.utf8Size = 1 ∧ classify c = .keep ∧ c ≠ '/' ∧ c ≠ '\\' := by
  obtain ⟨d, hd, rfl⟩ := List.mem_map.mp hc
  have hlt : d < 10 := Nat.digits_lt_base (by decide) (List.mem_reverse.mp hd)
  have hall : ∀ d < 10, (Nat.digitChar d).utf8Size = 1 ∧ classify (Nat.digitChar d) = .keep ∧
      Nat.digitChar d ≠ '/' ∧ Nat.digitChar d ≠ '\\' := by decide +kernel
  exact hall d hlt

theorem len_numberSuffix_le (n : UInt32) : len (numberSuffix n) ≤ 13 := by
  have h : len (decimal n.toNat) ≤ 10 := by
    rw [len_eq_length fun c hc => (mem_decimal hc).1]
    have hlt : n.toNat < 10 ^ 10 := n.toNat_lt.trans (by decide)
    simpa [decimal] using (Nat.digits_length_le_iff (by decide) _).mpr hlt
  have h1 : len " (".toList = 2 := by decide
  have h2 : len [')'] = 1 := by decide
  simp only [numberSuffix, len_append]
  omega

theorem read_numberSuffix (ht : t.Final) : t.read (numberSuffix n) = some .base := by
  have hopen : t.read " (".toList = some .base := by
    cases t with
    | start | dot | space => exact ht.elim
    | base => decide +kernel
    | mark k =>
      refine Tail.read_cons_iff.mpr ⟨.space, .space rfl nofun nofun, ?_⟩
      decide +kernel
  have hclose : ∀ t : Tail, t.read [')'] = some .base := fun t =>
    Tail.read_cons_iff.mpr ⟨.base, .base (by decide +kernel) (by decide) (by decide) (by decide),
      rfl⟩
  obtain ⟨u, hu⟩ := Tail.read_keep (s := decimal n.toNat) (t := .base) nofun fun c hc =>
    (mem_decimal hc).2
  refine Tail.read_append_iff.mpr ⟨u, Tail.read_append_iff.mpr ⟨_, hopen, hu⟩, hclose u⟩

theorem numberedStem_spec (hr : Tail.start.read stem = some t) (room : ℕ) :
    Accepted (numberedStem stem room) ∧
      (len (numberedStem stem room) ≤ room ∨ numberedStem stem room = fallbackName) := by
  dsimp only [numberedStem]
  split_ifs with hnil
  · exact ⟨accepted_fallbackName, Or.inr rfl⟩
  · have hpre := (List.rdropWhile_prefix dotOrSpace _).trans (truncateBytes_isPrefix stem room)
    obtain ⟨v, hv⟩ := Tail.read_isPrefix hpre hr
    refine ⟨⟨v, hv, Tail.final_of_last hv hnil fun c hc => ?_⟩, Or.inl ?_⟩
    · rw [List.getLast?_eq_some_getLast hnil] at hc
      obtain rfl := Option.some.inj hc
      exact List.rdropWhile_last_not _ _ hnil
    · exact (len_le_of_isPrefix (List.rdropWhile_prefix dotOrSpace _)).trans
        (len_truncateBytes_le _ _)

theorem safe_numbered (h : Safe s) (n : UInt32) : Safe (numbered s n) := by
  have hsuf := len_numberSuffix_le n
  have hfall : len fallbackName = 13 := by decide
  have hdot : '.'.utf8Size = 1 := by decide
  obtain ⟨t, hr, hf⟩ := h.accepted
  unfold numbered
  split_ifs with hn
  · exact h
  split
  · rename_i stem ext hext
    obtain ⟨rfl, -, -, -, -, hlen⟩ := splitExtension_some hext
    obtain ⟨u, u', hu, hnext, hread⟩ := Tail.read_cut hr
    obtain rfl : u' = .dot := by cases hnext <;> simp_all
    obtain ⟨⟨v, hv, hvf⟩, hroom⟩ := numberedStem_spec hu
      (maxNameBytes - len (numberSuffix n) - (len ext + 1))
    have hstem := Tail.read_append_iff.mpr ⟨v, hv, read_numberSuffix (n := n) hvf⟩
    refine .of_accepted ⟨t, ?_, hf⟩ ?_
    · exact Tail.read_append_iff.mpr
        ⟨_, hstem, Tail.read_cons_iff.mpr ⟨.dot, .dot rfl nofun, hread⟩⟩
    · simp only [len_append, len_cons, hdot, maxNameBytes, maxExtensionBytes] at *
      rcases hroom with h | h
      · omega
      · rw [h, hfall]
        omega
  · rename_i stem hext
    obtain rfl : s = stem := by
      unfold splitExtension at hext
      split at hext
      · exact (Prod.mk.inj hext).1
      · exact (Prod.mk.inj hext).1
      · dsimp only at hext
        split_ifs at hext
        · exact (Prod.mk.inj hext).1
        · simp at hext
    obtain ⟨⟨v, hv, hvf⟩, hroom⟩ := numberedStem_spec hr (maxNameBytes - len (numberSuffix n))
    refine .of_accepted ⟨.base, Tail.read_append_iff.mpr ⟨v, hv, read_numberSuffix hvf⟩, trivial⟩ ?_
    simp only [len_append, maxNameBytes] at *
    rcases hroom with h | h
    · omega
    · rw [h, hfall]
      omega

/-- The `n`th alternative spelling of a name. -/
def SafeName.numbered (name : SafeName) (n : UInt32) : SafeName :=
  ⟨Name.numbered name.val n, safe_numbered name.safe n⟩

example : numbered "photo.jpg".toList 12 = "photo (12).jpg".toList := by decide +kernel

theorem SafeName.ne_dot_cons (name : SafeName) (s : Str) : name.val ≠ '.' :: s := by
  intro h
  exact (name.safe.first '.' (by rw [h]; rfl)).1 rfl

end Sukkula.Name
