import Mathlib.Data.List.Basic
import Sukkula.Library.Checks
import Sukkula.Library.Hex

/-! # The names of a store

A file of the store has a plain lowercase name, and is written under a temporary
name first. Only such a name is swept, however many dots the name of the file
has, and it is never the name of a file of the store.
-/

namespace Sukkula.Store

inductive StoreError
  | directory (text : String)
  | badName
  | malformed (name : Str) (text : String)
  | io (text : String)
  deriving DecidableEq, Repr

/-- `to_string` -/
def StoreError.text : StoreError → String
  | directory text => "the data directory is unusable: " ++ text
  | badName => "invalid store file name"
  | malformed name text => String.ofList name ++ " is malformed: " ++ text
  | io text => "i/o error: " ++ text

def maxStoreName : ℕ := 64

def tmpRandomBytes : ℕ := 8

/-- `is_ascii_lowercase`, `is_ascii_digit` or one of `._-` -/
def isNameByte (c : Char) : Bool := c.isLower || c.isDigit || ['.', '_', '-'].contains c

/-- The test of `check_name`. -/
def NameOk (name : Str) : Prop :=
  name ≠ [] ∧ name.len ≤ maxStoreName ∧ name.head? ≠ some '.' ∧ name.all isNameByte

instance (name : Str) : Decidable (NameOk name) := by unfold NameOk; infer_instance

def checkName (name : Str) : Except StoreError Unit := ensure (NameOk name) .badName

/-- `.tmp` -/
def tmpSuffix : Str := ['.', 't', 'm', 'p']

def temporaryName (name : Str) (random : Bytes) : Str :=
  '.' :: name ++ '.' :: hexEncode random ++ tmpSuffix

def isTemporary (name : Str) : Bool :=
  match ((name.dropPrefix? ['.']).bind (·.dropSuffix? tmpSuffix)).bind (Str.rsplitOnce '.') with
  | some (storeName, random) =>
    random.len == tmpRandomBytes * 2 && random.all isLowerHex && (checkName storeName).isOk
  | none => false

theorem checkName_eq_ok {name : Str} : checkName name = .ok () ↔ NameOk name := ensure_eq_ok

theorem isOk_checkName {name : Str} : (checkName name).isOk ↔ NameOk name := by
  unfold checkName ensure
  split_ifs with h
  · exact iff_of_true rfl h
  · exact iff_of_false (by simp [Except.isOk, Except.toBool]) h

theorem isTemporary_cases {s : Str} : isTemporary s ↔
    ∃ m random : Str, s = '.' :: m ++ '.' :: random ++ tmpSuffix ∧ '.' ∉ random ∧
      random.len = tmpRandomBytes * 2 ∧ random.all isLowerHex ∧ NameOk m := by
  unfold isTemporary
  constructor
  · intro h
    split at h
    · rename_i m random hs
      obtain ⟨rest, hrest, hsplit⟩ := Option.bind_eq_some_iff.mp hs
      obtain ⟨t, hpre, hsuf⟩ := Option.bind_eq_some_iff.mp hrest
      obtain ⟨p, rfl, hp⟩ := List.dropPrefix?_eq_some_iff.mp hpre
      obtain ⟨q, rfl, hq⟩ := List.dropSuffix?_eq_some_iff.mp hsuf
      obtain ⟨rfl, hdot⟩ := Str.rsplitOnce_eq_some.mp hsplit
      obtain rfl := eq_of_beq hp
      obtain rfl := eq_of_beq hq
      simp only [Bool.and_eq_true, beq_iff_eq, isOk_checkName] at h
      exact ⟨m, random, by simp, hdot, h.1.1, h.1.2, h.2⟩
    · cases h
  · rintro ⟨m, random, rfl, hdot, hlen, hall, hm⟩
    have hpre : ('.' :: m ++ '.' :: random ++ tmpSuffix).dropPrefix? ['.'] =
        some (m ++ '.' :: random ++ tmpSuffix) :=
      List.dropPrefix?_eq_some_iff.mpr ⟨['.'], by simp, by simp⟩
    have hsuf : (m ++ '.' :: random ++ tmpSuffix).dropSuffix? tmpSuffix =
        some (m ++ '.' :: random) :=
      List.dropSuffix?_eq_some_iff.mpr ⟨tmpSuffix, rfl, by simp⟩
    have hsplit : Str.rsplitOnce '.' (m ++ '.' :: random) = some (m, random) :=
      Str.rsplitOnce_eq_some.mpr ⟨rfl, hdot⟩
    rw [hpre, Option.bind_some, hsuf, Option.bind_some, hsplit]
    simp [hlen, hall, isOk_checkName.mpr hm]

theorem isTemporary_iff {s : Str} : isTemporary s ↔
    ∃ m r, checkName m = .ok () ∧ r.length = tmpRandomBytes ∧ s = temporaryName m r := by
  rw [isTemporary_cases]
  constructor
  · rintro ⟨m, random, rfl, -, hlen, hall, hm⟩
    rw [len_of_isLowerHex hall, Nat.mul_comm] at hlen
    obtain ⟨r, hr, rfl⟩ := exists_hexEncode _ hlen hall
    exact ⟨m, r, checkName_eq_ok.mpr hm, hr, rfl⟩
  · rintro ⟨m, r, hm, hr, rfl⟩
    have hall := all_isLowerHex_hexEncode r
    refine ⟨m, hexEncode r, rfl, ?_, ?_, hall, checkName_eq_ok.mp hm⟩
    · intro hdot
      exact absurd (List.all_eq_true.mp hall _ hdot) (by decide)
    · rw [len_of_isLowerHex hall, length_hexEncode, hr, Nat.mul_comm]

theorem not_nameOk_of_isTemporary {s : Str} (h : isTemporary s) : ¬ NameOk s := by
  obtain ⟨m, r, -, -, rfl⟩ := isTemporary_iff.mp h
  rintro ⟨-, -, hdot, -⟩
  exact hdot rfl

/-- The middle may look like another temporary name. -/
example : isTemporary ".a.0123456789abcdef.tmp.0123456789abcdef.tmp".toList = true := by
  decide +kernel

end Sukkula.Store
