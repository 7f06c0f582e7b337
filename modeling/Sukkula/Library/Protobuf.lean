import Mathlib.Algebra.Group.Int.Defs
import Mathlib.Algebra.GroupWithZero.Nat
import Sukkula.Library.Files

/-! # Protobuf messages

A message is a string of fields, each with its number. A value is a number, in
digits of base 128 with the lowest one first, or bytes with their count before
them. What is encoded decodes to the same, and is not much longer than the bytes
in it. Values of a fixed width and groups are left out.
-/

namespace Sukkula.Protobuf

def varint (n : ℕ) : Bytes := go n n
where
  go : ℕ → ℕ → Bytes
    | 0, n => [.ofNat n]
    | fuel + 1, n => if n < 128 then [.ofNat n] else .ofNat (n % 128 + 128) :: go fuel (n / 128)

/-- A number from the front, and what is left. -/
def readVarint : Bytes → Option (ℕ × Bytes)
  | [] => none
  | b :: rest =>
    if b < 128 then some (b.toNat, rest)
    else (readVarint rest).map fun r => (b.toNat - 128 + 128 * r.1, r.2)

theorem readVarint_go (fuel n : ℕ) (h : n ≤ fuel) (rest : Bytes) :
    readVarint (varint.go fuel n ++ rest) = some (n, rest) := by
  have hsmall {n : ℕ} (h : n < 128) : readVarint (UInt8.ofNat n :: rest) = some (n, rest) := by
    have hn : (UInt8.ofNat n).toNat = n := UInt8.toNat_ofNat_of_lt' (by unfold UInt8.size; omega)
    have hlt : UInt8.ofNat n < 128 := by
      rw [UInt8.lt_iff_toNat_lt, hn]
      exact h
    rw [readVarint, if_pos hlt, hn]
  induction fuel generalizing n with
  | zero => exact hsmall (by omega)
  | succ fuel ih =>
    rw [varint.go]
    split_ifs with hn
    · exact hsmall hn
    · have hd : (UInt8.ofNat (n % 128 + 128)).toNat = n % 128 + 128 :=
        UInt8.toNat_ofNat_of_lt' (by unfold UInt8.size; omega)
      have hle : ¬UInt8.ofNat (n % 128 + 128) < 128 := by
        rw [UInt8.lt_iff_toNat_lt, hd]
        simp
      rw [List.cons_append, readVarint, if_neg hle, ih (n / 128) (by omega), hd]
      simp only [Option.map_some, Option.some.injEq, Prod.mk.injEq, and_true]
      omega

@[simp] theorem readVarint_varint (n : ℕ) (rest : Bytes) :
    readVarint (varint n ++ rest) = some (n, rest) :=
  readVarint_go n n (Nat.le_refl n) rest

theorem length_varint_go (fuel : ℕ) {k n : ℕ} (h : n < 128 ^ (k + 1)) :
    (varint.go fuel n).length ≤ k + 1 := by
  induction fuel generalizing k n with
  | zero => simp [varint.go]
  | succ fuel ih =>
    rw [varint.go]
    split_ifs with hn
    · simp
    · cases k with
      | zero => omega
      | succ k =>
        have hdiv : n / 128 < 128 ^ (k + 1) := by
          rw [Nat.div_lt_iff_lt_mul (by decide), ← Nat.pow_succ]
          exact h
        simpa using ih hdiv

theorem length_varint {k n : ℕ} (h : n < 128 ^ (k + 1)) : (varint n).length ≤ k + 1 :=
  length_varint_go n h

inductive Value
  | num (n : ℕ)
  | bytes (b : Bytes)
  deriving DecidableEq, Repr

def encodeField : ℕ × Value → Bytes
  | (tag, .num n) => varint (8 * tag) ++ varint n
  | (tag, .bytes b) => varint (8 * tag + 2) ++ (varint b.length ++ b)

def encodeFields (fs : List (ℕ × Value)) : Bytes := fs.flatMap encodeField

def readField (bs : Bytes) : Option ((ℕ × Value) × Bytes) :=
  match readVarint bs with
  | none => none
  | some (key, bs) =>
    match readVarint bs with
    | none => none
    | some (n, bs) =>
      if key % 8 = 0 then some ((key / 8, .num n), bs)
      else if key % 8 = 2 ∧ n ≤ bs.length then some ((key / 8, .bytes (bs.take n)), bs.drop n)
      else none

@[simp] theorem readField_encodeField (f : ℕ × Value) (rest : Bytes) :
    readField (encodeField f ++ rest) = some (f, rest) := by
  obtain ⟨tag, n | b⟩ := f
  · simp [readField, encodeField]
  · have hkey : (8 * tag + 2) / 8 = tag := by omega
    simp [readField, encodeField, hkey]

def readFields : ℕ → Bytes → Option (List (ℕ × Value))
  | _, [] => some []
  | 0, _ => none
  | fuel + 1, bs =>
    match readField bs with
    | none => none
    | some (f, rest) => (readFields fuel rest).map (f :: ·)

theorem varint_ne_nil (n : ℕ) : varint n ≠ [] := by
  unfold varint
  cases n with
  | zero => simp [varint.go]
  | succ n =>
    rw [varint.go]
    split_ifs <;> simp

theorem encodeField_ne_nil (f : ℕ × Value) : encodeField f ≠ [] := by
  obtain ⟨tag, n | b⟩ := f <;> simp [encodeField, varint_ne_nil]

theorem readFields_encodeFields (fuel : ℕ) (fs : List (ℕ × Value)) (h : fs.length ≤ fuel) :
    readFields fuel (encodeFields fs) = some fs := by
  induction fuel generalizing fs with
  | zero =>
    obtain rfl : fs = [] := by simpa using h
    rfl
  | succ fuel ih =>
    cases fs with
    | nil => rfl
    | cons f fs =>
      obtain ⟨b, bs, hb⟩ := List.exists_cons_of_ne_nil (encodeField_ne_nil f)
      have hne : encodeFields (f :: fs) = b :: (bs ++ encodeFields fs) := by
        simp [encodeFields, hb]
      have hread := readField_encodeField f (encodeFields fs)
      rw [hb, List.cons_append] at hread
      rw [hne, readFields, hread]
      · simp only [ih fs (by simpa using h), Option.map_some]
      · exact List.cons_ne_nil _ _

theorem length_le_encodeFields (fs : List (ℕ × Value)) : fs.length ≤ (encodeFields fs).length := by
  induction fs with
  | nil => rfl
  | cons f fs ih =>
    have := List.length_pos_of_ne_nil (encodeField_ne_nil f)
    simp only [encodeFields, List.flatMap_cons, List.length_append, List.length_cons] at ih ⊢
    omega

def decodeFields (bs : Bytes) : Option (List (ℕ × Value)) := readFields bs.length bs

@[simp] theorem decodeFields_encodeFields (fs : List (ℕ × Value)) :
    decodeFields (encodeFields fs) = some fs :=
  readFields_encodeFields _ fs (length_le_encodeFields fs)

section Length

@[simp] theorem encodeFields_nil : encodeFields [] = [] := rfl

@[simp] theorem length_encodeFields_cons (f : ℕ × Value) (fs : List (ℕ × Value)) :
    (encodeFields (f :: fs)).length = (encodeField f).length + (encodeFields fs).length := by
  simp [encodeFields]

theorem length_num {t k n : ℕ} (ht : t < 16) (h : n < 128 ^ (k + 1)) :
    (encodeField (t, .num n)).length ≤ k + 2 := by
  have hkey := length_varint (k := 0) (n := 8 * t) (by omega)
  have hnum := length_varint h
  simp only [encodeField, List.length_append]
  omega

theorem length_bytes {t k : ℕ} {b : Bytes} (ht : t < 15) (h : b.length < 128 ^ (k + 1)) :
    (encodeField (t, .bytes b)).length ≤ b.length + k + 2 := by
  have hkey := length_varint (k := 0) (n := 8 * t + 2) (by omega)
  have hnum := length_varint h
  simp only [encodeField, List.length_append]
  omega

theorem length_repeated {α : Type} {t n : ℕ} {v : α → Bytes} {l : List α}
    (h : ∀ a ∈ l, (encodeField (t, .bytes (v a))).length ≤ n) :
    (encodeFields (l.map fun a => (t, .bytes (v a)))).length ≤ n * l.length := by
  induction l with
  | nil => simp
  | cons a l ih =>
    have ha := h a (by simp)
    have hrest := ih fun b hb => h b (by simp [hb])
    simp only [List.map_cons, length_encodeFields_cons, List.length_cons, Nat.mul_add, Nat.mul_one]
    omega

end Length

section Reading

variable {α : Type}

/-- A number of 64 bits with a sign, or of fewer. -/
def int (i : ℤ) : Value := .num (i % 2 ^ 64).toNat

def Value.int : Value → Option ℤ
  | .num n => some (Int.bmod n (2 ^ 64))
  | .bytes _ => none

def Value.blob : Value → Option Bytes
  | .num _ => none
  | .bytes b => some b

/-- The values with this number. A value of another kind is no message. -/
def repeated (tag : ℕ) (value : Value → Option α) (fs : List (ℕ × Value)) : Option (List α) :=
  (fs.filter fun f => f.1 = tag).mapM fun f => value f.2

def single (tag : ℕ) (value : Value → Option α) (fs : List (ℕ × Value)) : Option (Option α) :=
  (repeated tag value fs).map List.getLast?

/-- A message inside the message; what is given twice is merged. -/
def embedded (tag : ℕ) (fs : List (ℕ × Value)) : Option (Option Bytes) :=
  (repeated tag Value.blob fs).map fun bs => if bs = [] then none else some bs.flatten

variable {tag tag' : ℕ} {value : Value → Option α} {fs gs : List (ℕ × Value)}

theorem repeated_append : repeated tag value (fs ++ gs) =
    (repeated tag value fs).bind fun as => (repeated tag value gs).bind fun bs =>
      some (as ++ bs) := by
  rw [repeated, List.filter_append, List.mapM_append]
  rfl

theorem repeated_map {items : List α} {write : α → Value}
    (h : ∀ a ∈ items, value (write a) = some a) :
    repeated tag value (items.map fun a => (tag, write a)) = some items := by
  have hall : (items.map fun a => (tag, write a)).filter (fun f => f.1 = tag) =
      items.map fun a => (tag, write a) := by
    rw [List.filter_eq_self]
    intro f hf
    obtain ⟨a, -, rfl⟩ := List.mem_map.mp hf
    exact decide_eq_true rfl
  rw [repeated, hall]
  induction items with
  | nil => rfl
  | cons a items ih =>
    have hrest := ih (fun b hb => h b (by simp [hb])) (by simp)
    simp [h a, hrest]

theorem repeated_map_ne {β : Type} {items : List β} {write : β → Value} (h : tag' ≠ tag) :
    repeated tag value (items.map fun a => (tag', write a)) = some [] := by
  have hnone : (items.map fun a => (tag', write a)).filter (fun f => f.1 = tag) = [] := by
    rw [List.filter_eq_nil_iff]
    intro f hf
    obtain ⟨a, -, rfl⟩ := List.mem_map.mp hf
    simpa using h
  rw [repeated, hnone]
  rfl

@[simp] theorem int_int {i : ℤ} (h : 0 ≤ i ∧ i < 2 ^ 63) : (int i).int = some i := by
  have hmod : i % 2 ^ 64 = i := Int.emod_eq_of_lt h.1 (by omega)
  have hnat : ((i % 2 ^ 64).toNat : ℤ) = i := by rw [hmod, Int.toNat_of_nonneg h.1]
  have hb : Int.bmod i (2 ^ 64) = i := Int.bmod_eq_of_le_mul_two (by omega) (by omega)
  rw [int, Value.int, hnat, hb]

theorem length_int {t : ℕ} (ht : t < 16) (i : ℤ) : (encodeField (t, int i)).length ≤ 11 := by
  refine length_num (k := 9) ht ?_
  omega

end Reading

end Sukkula.Protobuf
