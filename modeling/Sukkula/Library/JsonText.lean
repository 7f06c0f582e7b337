import Sukkula.Library.Str

/-! # JSON as it is written

A value is written as a text without white space: strings with the escapes that
JSON asks for, numbers in decimal, arrays and objects with commas between. What is
proved is how long such a text can be, from how long its parts are.
-/

namespace Sukkula.JsonText

open Str

def hexDigit (n : ℕ) : Char := Nat.digitChar n

/-- A character of a string: `"`, `\` and the control characters are escaped. -/
def escape (c : Char) : Str :=
  if c = '"' then ['\\', '"']
  else if c = '\\' then ['\\', '\\']
  else if 0x20 ≤ c.toNat then [c]
  else if c.toNat = 0x08 then ['\\', 'b']
  else if c.toNat = 0x09 then ['\\', 't']
  else if c.toNat = 0x0a then ['\\', 'n']
  else if c.toNat = 0x0c then ['\\', 'f']
  else if c.toNat = 0x0d then ['\\', 'r']
  else ['\\', 'u', '0', '0', hexDigit (c.toNat / 16), hexDigit (c.toNat % 16)]

def string (s : Str) : Str := '"' :: (s.flatMap escape ++ ['"'])

def number (n : ℕ) : Str := Nat.toDigits 10 n

def bool (b : Bool) : Str := if b then "true".toList else "false".toList

def array (items : List Str) : Str := '[' :: ([','].intercalate items ++ [']'])

def member (m : String × Str) : Str := string m.1.toList ++ ':' :: m.2

def object (members : List (String × Str)) : Str :=
  '\x7b' :: ([','].intercalate (members.map member) ++ ['\x7d'])

/-- A member that is left out where there is none. -/
def optional (key : String) (value : Option Str) : List (String × Str) :=
  (value.map (key, ·)).toList

section Length

variable {s : Str} {c : Char} {items : List Str} {members more : List (String × Str)} {value : Str}
  {b k n : ℕ}

theorem utf8Size_digitChar (h : n < 16) : (Nat.digitChar n).utf8Size = 1 := by
  have hall : ∀ n < 16, (Nat.digitChar n).utf8Size = 1 := by decide
  exact hall n h

theorem len_escape_le (c : Char) : len (escape c) ≤ 6 * c.utf8Size := by
  have hpos := c.utf8Size_pos
  have htwo : ∀ d : Char, d.utf8Size = 1 → len ['\\', d] ≤ 6 * c.utf8Size := by
    intro d hd
    have hslash : '\\'.utf8Size = 1 := rfl
    simp only [len_cons, len_nil, hd, hslash]
    omega
  unfold escape
  iterate 2
    split
    · exact htwo _ rfl
  split
  · simp only [len_cons, len_nil]
    omega
  iterate 5
    split
    · exact htwo _ rfl
  · have hslash : '\\'.utf8Size = 1 := rfl
    have hu : 'u'.utf8Size = 1 := rfl
    have hzero : '0'.utf8Size = 1 := rfl
    simp only [len_cons, len_nil, hslash, hu, hzero, hexDigit]
    rw [utf8Size_digitChar (by omega), utf8Size_digitChar (by omega)]
    omega

/-- Text without control characters but line breaks is at most doubled. -/
def Plain (c : Char) : Prop := 0x20 ≤ c.toNat ∨ c = '\n'

theorem Plain.len_escape_le (h : Plain c) : len (escape c) ≤ 2 * c.utf8Size := by
  have hpos := c.utf8Size_pos
  by_cases hquote : c = '"'
  · subst hquote
    decide
  by_cases hslash : c = '\\'
  · subst hslash
    decide
  rcases h with h | rfl
  · rw [escape, if_neg hquote, if_neg hslash, if_pos h, len_cons, len_nil]
    omega
  · decide

theorem len_flatMap_le (h : ∀ c ∈ s, len (escape c) ≤ k * c.utf8Size) :
    len (s.flatMap escape) ≤ k * len s := by
  induction s with
  | nil => exact Nat.zero_le _
  | cons c s ih =>
    obtain ⟨hc, hs⟩ := List.forall_mem_cons.mp h
    rw [List.flatMap_cons, len_append, len_cons, Nat.mul_add]
    exact Nat.add_le_add hc (ih hs)

theorem len_string (s : Str) : len (string s) = len (s.flatMap escape) + 2 := by
  have hquote : '"'.utf8Size = 1 := rfl
  rw [string, len_cons, len_append, len_cons, len_nil, hquote]
  omega

theorem len_string_le (s : Str) : len (string s) ≤ 6 * len s + 2 := by
  rw [len_string]
  exact Nat.add_le_add_right (len_flatMap_le fun c _ => len_escape_le c) 2

theorem len_string_le_of_plain (h : ∀ c ∈ s, Plain c) : len (string s) ≤ 2 * len s + 2 := by
  rw [len_string]
  exact Nat.add_le_add_right (len_flatMap_le fun c hc => (h c hc).len_escape_le) 2

theorem len_number_le (hk : 0 < k) (h : n < 10 ^ k) : len (number n) ≤ k := by
  have hdigits : ∀ c ∈ number n, c.utf8Size = 1 := by
    intro c hc
    have hdigit := Nat.isDigit_of_mem_toDigits (by decide) (by decide) hc
    simp only [Char.isDigit, Bool.and_eq_true, decide_eq_true_eq] at hdigit
    exact Char.utf8Size_eq_one_iff.mpr (UInt32.le_trans hdigit.2 (by decide))
  rw [len_eq_length hdigits]
  exact (Nat.length_toDigits_le_iff (by decide) hk).mpr h

theorem len_intercalate_le (items : List Str) :
    len ([','].intercalate items) ≤ (items.map fun t => len t + 1).sum := by
  have hcomma : ','.utf8Size = 1 := rfl
  induction items with
  | nil => exact Nat.le_refl 0
  | cons t items ih =>
    cases items with
    | nil => simp [List.intercalate]
    | cons u items =>
      rw [List.intercalate_cons_cons, len_append, len_append, List.map_cons, List.sum_cons,
        len_cons, len_nil, hcomma]
      omega

theorem len_array_le (h : ∀ t ∈ items, len t ≤ b) (hn : items.length ≤ n) :
    len (array items) ≤ 2 + n * (b + 1) := by
  have hsum : (items.map fun t => len t + 1).sum ≤ items.length * (b + 1) := by
    clear hn
    induction items with
    | nil => exact Nat.zero_le _
    | cons t items ih =>
      obtain ⟨ht, hitems⟩ := List.forall_mem_cons.mp h
      rw [List.map_cons, List.sum_cons, List.length_cons, Nat.succ_mul]
      have := ih hitems
      omega
  have hopen : '['.utf8Size = 1 := rfl
  have hclose : ']'.utf8Size = 1 := rfl
  have hitems := (len_intercalate_le items).trans (hsum.trans (Nat.mul_le_mul_right _ hn))
  rw [array, len_cons, len_append, len_cons, len_nil, hopen, hclose]
  omega

def cost (members : List (String × Str)) : ℕ := (members.map fun m => len (member m) + 1).sum

theorem len_object_le (h : cost members ≤ b) : len (object members) ≤ 2 + b := by
  have hopen : '\x7b'.utf8Size = 1 := rfl
  have hclose : '\x7d'.utf8Size = 1 := rfl
  have hmembers := len_intercalate_le (members.map member)
  rw [List.map_map] at hmembers
  have hcost : len ([','].intercalate (members.map member)) ≤ b := hmembers.trans h
  rw [object, len_cons, len_append, len_cons, len_nil, hopen, hclose]
  omega

theorem cost_nil_le : cost [] ≤ 0 := Nat.le_refl 0

theorem len_member (m : String × Str) : len (member m) = len (string m.1.toList) + 1 + len m.2 := by
  have hcolon : ':'.utf8Size = 1 := rfl
  rw [member, len_append, len_cons, hcolon]
  omega

theorem cost_cons_le {k : String} (hkey : len (string k.toList) ≤ 20) (hvalue : len value ≤ b)
    (h : cost members ≤ n) :
    cost ((k, value) :: members) ≤ b + 22 + n := by
  have hmember : len (member (k, value)) = len (string k.toList) + 1 + len value := len_member _
  change len (member (k, value)) + 1 + cost members ≤ _
  omega

theorem cost_append_le (h : cost members ≤ b) (hmore : cost more ≤ n) :
    cost (members ++ more) ≤ b + n := by
  rw [cost, List.map_append, List.sum_append]
  exact Nat.add_le_add h hmore

theorem cost_optional_le {k : String} {value : Option Str} (hkey : len (string k.toList) ≤ 20)
    (hvalue : ∀ v ∈ value, len v ≤ b) : cost (optional k value) ≤ b + 22 := by
  cases value with
  | none => exact Nat.zero_le _
  | some v => exact cost_cons_le hkey (hvalue v rfl) cost_nil_le

end Length

end Sukkula.JsonText
