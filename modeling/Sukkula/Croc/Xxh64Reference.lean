import Mathlib.Tactic.FinCases
import Sukkula.Croc.Serve
import Sukkula.Library.BigEndian

/-! # XXH64 as it is specified

The reference: words of 64 bits, a seed, and every lane read at its position in the
whole string. A hash that was fed the string in pieces ends in the same number,
written big-endian.
-/

namespace Sukkula.Croc

namespace Reference

abbrev Word := BitVec 64

def PRIME64_1 : Word := 0x9E3779B185EBCA87#64

def PRIME64_2 : Word := 0xC2B2AE3D27D4EB4F#64

def PRIME64_3 : Word := 0x165667B19E3779F9#64

def PRIME64_4 : Word := 0x85EBCA77C2B2AE63#64

def PRIME64_5 : Word := 0x27D4EB2F165667C5#64

/-- The little-endian number in `w` bytes from position `i` on. -/
def lane (w : ℕ) (data : Bytes) (i : ℕ) : Word :=
  BitVec.ofNat 64 ((List.range w).map fun k => (data.getD (i + k) 0).toNat * 256 ^ k).sum

def round (acc lane : Word) : Word := (acc + lane * PRIME64_2).rotateLeft 31 * PRIME64_1

def mergeAccumulator (acc accN : Word) : Word := (acc ^^^ round 0 accN) * PRIME64_1 + PRIME64_4

def initial (seed : Word) : Fin 4 → Word
  | 0 => seed + PRIME64_1 + PRIME64_2
  | 1 => seed + PRIME64_2
  | 2 => seed
  | 3 => seed - PRIME64_1

/-- Step 2: an accumulator after the first stripes. -/
def accumulator (seed : Word) (data : Bytes) (j : Fin 4) : ℕ → Word
  | 0 => initial seed j
  | n + 1 => round (accumulator seed data j n) (lane 8 data (32 * n + 8 * j))

def convergence (acc : Fin 4 → Word) : Word :=
  let h :=
    (acc 0).rotateLeft 1 + (acc 1).rotateLeft 7 + (acc 2).rotateLeft 12 + (acc 3).rotateLeft 18
  mergeAccumulator (mergeAccumulator (mergeAccumulator (mergeAccumulator h (acc 0)) (acc 1))
    (acc 2))
    (acc 3)

/-- Step 5: `n` words of eight bytes from position `i` on. -/
def words (data : Bytes) (i : ℕ) (acc : Word) : ℕ → Word
  | 0 => acc
  | n + 1 =>
    (words data i acc n ^^^ round 0 (lane 8 data (i + 8 * n))).rotateLeft 27 * PRIME64_1 + PRIME64_4

/-- A word of four bytes at position `i`, if there is one. -/
def half (data : Bytes) (i : ℕ) (acc : Word) : Word :=
  if 4 ≤ data.length - i then
    (acc ^^^ lane 4 data i * PRIME64_1).rotateLeft 23 * PRIME64_2 + PRIME64_3
  else acc

/-- `n` single bytes from position `i` on. -/
def singles (data : Bytes) (i : ℕ) (acc : Word) : ℕ → Word
  | 0 => acc
  | n + 1 => (singles data i acc n ^^^ lane 1 data (i + n) * PRIME64_5).rotateLeft 11 * PRIME64_1

def avalanche (acc : Word) : Word :=
  let acc := (acc ^^^ acc >>> 33) * PRIME64_2
  let acc := (acc ^^^ acc >>> 29) * PRIME64_3
  acc ^^^ acc >>> 32

def xxh64 (seed : Word) (data : Bytes) : Word :=
  let stripes := data.length / 32
  let acc := if data.length < 32 then seed + PRIME64_5
    else convergence fun j => accumulator seed data j stripes
  let acc := acc + BitVec.ofNat 64 data.length
  let i := 32 * stripes
  let n := (data.length - i) / 8
  let acc := words data i acc n
  let i := i + 8 * n
  let acc := half data i acc
  let i := if 4 ≤ data.length - i then i + 4 else i
  avalanche (singles data i acc (data.length - i))

example : xxh64 0 [] = 0xEF46DB3751D8E999#64 := by decide

end Reference

open Reference (Word)

section Words

theorem toBitVec_primes : prime1.toBitVec = Reference.PRIME64_1 ∧ prime2.toBitVec =
    Reference.PRIME64_2 ∧ prime3.toBitVec = Reference.PRIME64_3 ∧ prime4.toBitVec =
    Reference.PRIME64_4 ∧
    prime5.toBitVec = Reference.PRIME64_5 := by decide

theorem toBitVec_rotateLeft (x : UInt64) {r : UInt64} (h : r.toNat < 64) (hpos : 0 < r.toNat) :
    (rotateLeft x r).toBitVec = x.toBitVec.rotateLeft r.toNat := by
  have hle : r ≤ 64 := UInt64.le_iff_toNat_le.mpr (Nat.le_of_lt h)
  have hsub : (64 - r).toNat = 64 - r.toNat := UInt64.toNat_sub_of_le _ _ hle
  have hr : (r % 64).toNat = r.toNat := by
    rw [UInt64.toNat_mod]
    exact Nat.mod_eq_of_lt h
  have hr' : ((64 - r) % 64).toNat = 64 - r.toNat := by
    rw [UInt64.toNat_mod, hsub]
    exact Nat.mod_eq_of_lt (by have : (64 : UInt64).toNat = 64 := rfl; omega)
  rw [BitVec.rotateLeft_def, Nat.mod_eq_of_lt h, rotateLeft, UInt64.toBitVec_or,
    UInt64.toBitVec_shiftLeft, UInt64.toBitVec_shiftRight]
  congr 1
  · exact congrArg (fun n : ℕ => x.toBitVec <<< n) hr
  · exact congrArg (fun n : ℕ => x.toBitVec >>> n) hr'

theorem toBitVec_round (acc lane : UInt64) :
    (round acc lane).toBitVec = Reference.round acc.toBitVec lane.toBitVec := by
  rw [round, UInt64.toBitVec_mul, toBitVec_rotateLeft _ (by decide) (by decide),
    UInt64.toBitVec_add, UInt64.toBitVec_mul, toBitVec_primes.1, toBitVec_primes.2.1]
  rfl

theorem toBitVec_merge (acc v : UInt64) :
    (merge acc v).toBitVec = Reference.mergeAccumulator acc.toBitVec v.toBitVec := by
  rw [merge, UInt64.toBitVec_add, UInt64.toBitVec_mul, UInt64.toBitVec_xor, toBitVec_round,
    toBitVec_primes.1, toBitVec_primes.2.2.2.1]
  rfl

theorem toBitVec_avalanche (h : UInt64) :
    (avalanche h).toBitVec = Reference.avalanche h.toBitVec := by
  simp only [avalanche, UInt64.toBitVec_xor, UInt64.toBitVec_mul, UInt64.toBitVec_shiftRight,
    toBitVec_primes]
  rfl

/-- The accumulators of the running hash as a function of their number. -/
def Lanes.get (v : Lanes) : Fin 4 → Word
  | 0 => v.v1.toBitVec
  | 1 => v.v2.toBitVec
  | 2 => v.v3.toBitVec
  | 3 => v.v4.toBitVec

theorem get_init : Lanes.init.get = Reference.initial 0 := by
  have h : ∀ j, Lanes.init.get j = Reference.initial 0 j := by decide
  exact funext h

theorem toBitVec_converge (v : Lanes) : v.converge.toBitVec = Reference.convergence v.get := by
  simp only [Lanes.converge, List.foldl_cons, List.foldl_nil, toBitVec_merge, UInt64.toBitVec_add]
  rw [toBitVec_rotateLeft _ (by decide) (by decide), toBitVec_rotateLeft _ (by decide) (by decide),
    toBitVec_rotateLeft _ (by decide) (by decide), toBitVec_rotateLeft _ (by decide) (by decide)]
  rfl

/-- Bytes that are read one after the other are the number that they write. -/
theorem foldr_lane (bytes : Bytes) :
    (bytes.foldr (fun b acc => acc * 256 + b.toUInt64) (0 : UInt64)) =
    UInt64.ofNat (fromLeBytes bytes) := by
  induction bytes with
  | nil => rfl
  | cons b bytes ih =>
    have hcons : fromLeBytes (b :: bytes) = fromLeBytes bytes * 256 + b.toNat := rfl
    rw [List.foldr_cons, ih, hcons, UInt64.ofNat_add, UInt64.ofNat_mul]
    congr 1
    apply UInt64.toNat_inj.mp
    rw [UInt8.toNat_toUInt64, UInt64.toNat_ofNat']
    have := b.toNat_lt
    omega

theorem fromLeBytes_take (data : Bytes) {i w : ℕ} (h : i + w ≤ data.length) :
    fromLeBytes ((data.drop i).take w) =
      ((List.range w).map fun k => (data.getD (i + k) 0).toNat * 256 ^ k).sum := by
  induction w generalizing i with
  | zero => simp [fromLeBytes]
  | succ w ih =>
    have hi : i < data.length := by omega
    have hget : data.getD (i + 0) 0 = data[i] := by simp [hi]
    have hcons : fromLeBytes (data[i] :: (data.drop (i + 1)).take w) =
        fromLeBytes ((data.drop (i + 1)).take w) * 256 + data[i].toNat := rfl
    have htail : ∀ k, (data.getD (i + (k + 1)) 0).toNat * 256 ^ (k + 1) =
        (data.getD (i + 1 + k) 0).toNat * 256 ^ k * 256 := by
      intro k
      have hk : i + (k + 1) = i + 1 + k := by omega
      rw [hk, Nat.pow_succ, Nat.mul_assoc]
    rw [List.drop_eq_getElem_cons hi, List.take_succ_cons, hcons, ih (i := i + 1) (by omega),
      List.range_succ_eq_map, List.map_cons, List.sum_cons, List.map_map, hget,
      Nat.pow_zero, Nat.mul_one, Nat.add_comm, ← List.sum_map_mul_right]
    simp only [Function.comp_def, Nat.succ_eq_add_one, htail]

theorem toBitVec_lane {data : Bytes} {i w : ℕ} (hw : w ≤ 8) (h : i + w ≤ data.length) :
    (lane ((data.drop i).take w)).toBitVec = Reference.lane w data i := by
  rw [lane, List.take_take, Nat.min_eq_right hw, foldr_lane, UInt64.toBitVec_ofNat', Reference.lane,
    fromLeBytes_take data h]

end Words

section Steps

variable (data : Bytes)

/-- After `n` stripes the accumulators are those of the reference, and the rest is there to be
read. -/
theorem iterate_stripe {n : ℕ} (h : 32 * n ≤ data.length) :
    ((Blocks.front 32 Lanes.stripe)^[n] (Lanes.init, data)).1.get =
      (fun j => Reference.accumulator 0 data j n) ∧
    ((Blocks.front 32 Lanes.stripe)^[n] (Lanes.init, data)).2 = data.drop (32 * n) := by
  induction n with
  | zero =>
    exact ⟨get_init, rfl⟩
  | succ n ih =>
    obtain ⟨hget, hrest⟩ := ih (by omega)
    rw [Function.iterate_succ_apply']
    set p := (Blocks.front 32 Lanes.stripe)^[n] (Lanes.init, data)
    constructor
    · have hlane : ∀ k ≤ 24, (lane (((data.drop (32 * n)).take 32).drop k)).toBitVec =
          Reference.lane 8 data (32 * n + k) := by
        intro k hk
        rw [← toBitVec_lane (le_refl 8) (by omega), lane, lane, List.take_take, List.drop_take,
          List.take_take, List.drop_drop]
        congr 3
        omega
      funext j
      have hj := congrFun hget j
      have hzero := hlane 0 (by omega)
      rw [List.drop_zero] at hzero
      fin_cases j <;>
        simp only [Blocks.front, Lanes.stripe, Lanes.get, hrest, toBitVec_round,
          Reference.accumulator,
          ← hj, hlane _ (by decide : 8 ≤ 24), hlane _ (by decide : 16 ≤ 24),
          hlane _ (le_refl 24), hzero]
    · rw [Blocks.front, hrest, List.drop_drop]
      congr 1

theorem iterate_words (i : ℕ) (h : UInt64) {n : ℕ} (hn : i + 8 * n ≤ data.length) :
    ((Blocks.front 8 fun h w => rotateLeft (h ^^^ round 0 (lane w)) 27 * prime1 + prime4)^[n]
        (h, data.drop i)).1.toBitVec = Reference.words data i h.toBitVec n ∧
    ((Blocks.front 8 fun h w => rotateLeft (h ^^^ round 0 (lane w)) 27 * prime1 + prime4)^[n]
        (h, data.drop i)).2 = data.drop (i + 8 * n) := by
  induction n with
  | zero => exact ⟨rfl, rfl⟩
  | succ n ih =>
    obtain ⟨hword, hrest⟩ := ih (by omega)
    rw [Function.iterate_succ_apply']
    constructor
    · rw [Blocks.front, hrest, UInt64.toBitVec_add, UInt64.toBitVec_mul,
        toBitVec_rotateLeft _ (by decide) (by decide), UInt64.toBitVec_xor, hword, toBitVec_round,
        toBitVec_lane (le_refl 8) (by omega), toBitVec_primes.1, toBitVec_primes.2.2.2.1]
      rfl
    · rw [Blocks.front, hrest, List.drop_drop]
      congr 1

theorem foldl_singles (i : ℕ) (h : UInt64) {n : ℕ} (hn : i + n ≤ data.length) :
    (((data.drop i).take n).foldl (fun h b => rotateLeft (h ^^^ b.toUInt64 * prime5) 11 * prime1)
      h).toBitVec = Reference.singles data i h.toBitVec n := by
  induction n with
  | zero => rfl
  | succ n ih =>
    have hlt : i + n < data.length := by omega
    have hget : (data.drop i)[n]? = some data[i + n] := by
      rw [List.getElem?_drop, List.getElem?_eq_getElem hlt]
    have hbyte : data[i + n].toUInt64.toBitVec = Reference.lane 1 data (i + n) := by
      have hone : data[i + n].toUInt64 = UInt64.ofNat (fromLeBytes [data[i + n]]) := by
        apply UInt64.toNat_inj.mp
        rw [UInt8.toNat_toUInt64, UInt64.toNat_ofNat']
        have := data[i + n].toNat_lt
        simp only [fromLeBytes, List.foldr_cons, List.foldr_nil]
        omega
      rw [hone, UInt64.toBitVec_ofNat', Reference.lane, ← fromLeBytes_take data (by omega),
        List.drop_eq_getElem_cons hlt]
      rfl
    rw [List.take_add_one, hget, Option.toList_some, List.foldl_append, List.foldl_cons,
      List.foldl_nil,
      UInt64.toBitVec_mul, toBitVec_rotateLeft _ (by decide) (by decide), UInt64.toBitVec_xor,
      ih (by omega), UInt64.toBitVec_mul, hbyte, toBitVec_primes.1, toBitVec_primes.2.2.2.2]
    rfl

theorem toBitVec_tail (i : ℕ) (h : UInt64) (hi : i ≤ data.length) :
    let n := (data.length - i) / 8
    let j := i + 8 * n
    let k := if 4 ≤ data.length - j then j + 4 else j
    (tail h (data.drop i)).toBitVec =
      Reference.singles data k (Reference.half data j (Reference.words data i h.toBitVec n))
        (data.length - k) := by
  intro n j k
  have hn : i + 8 * n ≤ data.length := by omega
  obtain ⟨hword, hrest⟩ := iterate_words data i h hn
  unfold tail Blocks.absorb
  rw [List.length_drop]
  set p := (Blocks.front 8 fun h w => rotateLeft (h ^^^ round 0 (lane w)) 27 * prime1 + prime4)^[n]
    (h, data.drop i) with hp
  have hpair : p = (p.1, data.drop j) := Prod.ext rfl hrest
  rw [hpair]
  dsimp only
  rw [List.length_drop, ← hword, Reference.half]
  have hall : ∀ l, (data.drop l).take (data.length - l) = data.drop l := fun l =>
    List.take_of_length_le (by simp)
  by_cases hfour : 4 ≤ data.length - j
  · simp only [if_pos hfour, k]
    rw [List.drop_drop, ← hall (j + 4), foldl_singles data _ _ (by omega), UInt64.toBitVec_add,
      UInt64.toBitVec_mul, toBitVec_rotateLeft _ (by decide) (by decide), UInt64.toBitVec_xor,
      UInt64.toBitVec_mul, toBitVec_lane (by decide) (by omega), toBitVec_primes.1,
      toBitVec_primes.2.1, toBitVec_primes.2.2.1]
    rfl
  · simp only [if_neg hfour, k]
    rw [← hall j, foldl_singles data _ _ (by omega)]

end Steps

theorem value_toBeBytes (h : UInt64) :
    (toBeBytes h).length = 8 ∧ BigEndian.value (toBeBytes h) = h.toNat := by
  have hrev : toBeBytes h = (toLeBytes h.toNat).reverse := by
    have hrange : (List.range 8).reverse = (List.range 8).map (7 - ·) := by decide
    rw [toBeBytes, toLeBytes, ← List.map_reverse, hrange, List.map_map]
    apply List.map_congr_left
    intro i hi
    have hall : ∀ i < 8, (56 - 8 * UInt64.ofNat i).toNat % 64 = 8 * (7 - i) := by decide
    have hshift := hall i (List.mem_range.mp hi)
    apply UInt8.toNat_inj.mp
    have hpow : 2 ^ (8 * (7 - i)) = 256 ^ (7 - i) := pow_mul 2 8 (7 - i)
    rw [UInt64.toNat_toUInt8, UInt64.toNat_shiftRight, hshift, Nat.shiftRight_eq_div_pow, hpow,
      Function.comp_apply, UInt8.toNat_ofNat']
  have hvalue : ∀ bytes : Bytes, BigEndian.value bytes.reverse = fromLeBytes bytes := by
    intro bytes
    rw [BigEndian.value, List.reverse_reverse]
    induction bytes with
    | nil => rfl
    | cons b bytes ih =>
      rw [List.map_cons, Nat.ofDigits_cons, ih]
      simp only [fromLeBytes, List.foldr_cons]
      omega
  rw [hrev, List.length_reverse, length_toLeBytes, hvalue, fromLeBytes_toLeBytes h.toNat_lt]
  exact ⟨rfl, rfl⟩

theorem toNat_xxh64 (data : Bytes) :
    ∃ h : UInt64, xxh64 data = toBeBytes h ∧ h.toBitVec = Reference.xxh64 0 data := by
  obtain ⟨hget, hrest⟩ := iterate_stripe data (n := data.length / 32) (by omega)
  have hacc : (if 32 ≤ data.length then
        ((Blocks.front 32 Lanes.stripe)^[data.length / 32] (Lanes.init, data)).1.converge
      else prime5).toBitVec = if data.length < 32 then 0 + Reference.PRIME64_5
        else Reference.convergence fun j => Reference.accumulator 0 data j (data.length / 32) := by
    by_cases hlt : data.length < 32
    · rw [if_neg (by omega), if_pos hlt, toBitVec_primes.2.2.2.2]
      exact (BitVec.zero_add _).symm
    · rw [if_pos (by omega), if_neg hlt, toBitVec_converge, hget]
  refine ⟨_, rfl, ?_⟩
  rw [toBitVec_avalanche, hrest, toBitVec_tail data _ _ (by omega), UInt64.toBitVec_add, hacc,
    UInt64.toBitVec_ofNat']
  rfl

/-- However a string is cut into pieces, the running hash ends in its XXH64, eight bytes
big-endian. -/
theorem finish_reference (pieces : List Bytes) (hlen : pieces.flatten.length < 2 ^ 64) :
    (pieces.foldl Xxh64.update Xxh64.new).finish.length = 8 ∧
    BigEndian.value (pieces.foldl Xxh64.update Xxh64.new).finish =
      (Reference.xxh64 0 pieces.flatten).toNat := by
  have hfed : ∀ (pieces : List Bytes) (h : Xxh64) (data : Bytes), h.Fed data →
      (pieces.foldl Xxh64.update h).Fed (data ++ pieces.flatten) := by
    intro pieces
    induction pieces with
    | nil =>
      intro h data hf
      simpa using hf
    | cons piece pieces ih =>
      intro h data hf
      rw [List.foldl_cons, List.flatten_cons, ← List.append_assoc]
      exact ih _ _ (hf.update piece)
  rw [(hfed pieces _ _ Xxh64.fed_new).finish (by simpa using hlen), List.nil_append]
  obtain ⟨h, heq, hval⟩ := toNat_xxh64 pieces.flatten
  obtain ⟨hlength, hvalue⟩ := value_toBeBytes h
  rw [heq, ← hval]
  exact ⟨hlength, hvalue⟩

/-- Three pieces, one of them empty. -/
theorem finish_reference_pieces :
    BigEndian.value ([[1], [], [2, 3]].foldl Xxh64.update Xxh64.new).finish =
      (Reference.xxh64 0 [1, 2, 3]).toNat :=
  (finish_reference [[1], [], [2, 3]] (by decide)).2

end Sukkula.Croc
