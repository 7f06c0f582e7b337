import Mathlib.Algebra.GroupWithZero.Nat
import Sukkula.Library.Blocks
import Sukkula.Library.Files

/-! # XXH64

The hash that croc's senders announce, with seed 0 and written out big-endian.
It is computed as a file comes in, in pieces of any length; the pieces do not
show in it.
-/

namespace Sukkula.Croc

/-- `P1` -/
def prime1 : UInt64 := 11400714785074694791

/-- `P2` -/
def prime2 : UInt64 := 14029467366897019727

/-- `P3` -/
def prime3 : UInt64 := 1609587929392839161

/-- `P4` -/
def prime4 : UInt64 := 9650029242287828579

/-- `P5` -/
def prime5 : UInt64 := 2870177450012600261

def rotateLeft (x r : UInt64) : UInt64 := (x <<< r) ||| (x >>> (64 - r))

def round (acc lane : UInt64) : UInt64 := rotateLeft (acc + lane * prime2) 31 * prime1

def merge (acc v : UInt64) : UInt64 := (acc ^^^ round 0 v) * prime1 + prime4

/-- The first eight bytes, little-endian; those that are not there are zero. -/
def lane (bytes : Bytes) : UInt64 := (bytes.take 8).foldr (fun b acc => acc * 256 + b.toUInt64) 0

structure Lanes where
  v1 : UInt64
  v2 : UInt64
  v3 : UInt64
  v4 : UInt64
  deriving DecidableEq, Repr

namespace Lanes

def init : Lanes := ⟨prime1 + prime2, prime2, 0, 0 - prime1⟩

def stripe (v : Lanes) (s : Bytes) : Lanes :=
  ⟨round v.v1 (lane s), round v.v2 (lane (s.drop 8)), round v.v3 (lane (s.drop 16)),
    round v.v4 (lane (s.drop 24))⟩

def converge (v : Lanes) : UInt64 :=
  [v.v1, v.v2, v.v3, v.v4].foldl merge
    (rotateLeft v.v1 1 + rotateLeft v.v2 7 + rotateLeft v.v3 12 + rotateLeft v.v4 18)

end Lanes

/-- The bytes after the last whole stripe: by eight, then four, then one. -/
def tail (h : UInt64) (rest : Bytes) : UInt64 :=
  let (h, rest) := Blocks.absorb 8
    (fun h w => rotateLeft (h ^^^ round 0 (lane w)) 27 * prime1 + prime4) h rest
  let (h, rest) := if 4 ≤ rest.length then
      (rotateLeft (h ^^^ lane (rest.take 4) * prime1) 23 * prime2 + prime3, rest.drop 4)
    else (h, rest)
  rest.foldl (fun h b => rotateLeft (h ^^^ b.toUInt64 * prime5) 11 * prime1) h

def avalanche (h : UInt64) : UInt64 :=
  let h := (h ^^^ h >>> 33) * prime2
  let h := (h ^^^ h >>> 29) * prime3
  h ^^^ h >>> 32

def toBeBytes (h : UInt64) : Bytes :=
  (List.range 8).map fun i => (h >>> (56 - 8 * UInt64.ofNat i)).toUInt8

/-- XXH64 of a whole string of bytes, as its specification has it. -/
def xxh64 (data : Bytes) : Bytes :=
  let (v, rest) := Blocks.absorb 32 Lanes.stripe .init data
  let h := if 32 ≤ data.length then v.converge else prime5
  toBeBytes (avalanche (tail (h + UInt64.ofNat data.length) rest))

example : xxh64 [] = [0xef, 0x46, 0xdb, 0x37, 0x51, 0xd8, 0xe9, 0x99] := by decide +kernel

example :
    xxh64 ("Nobody inspects the spammish repetition".toList.map fun c => UInt8.ofNat c.toNat) =
    [0xfb, 0xce, 0xa8, 0x3c, 0x8a, 0x37, 0x8b, 0xf1] := by decide +kernel

/-- A running XXH64. `held` are the first bytes of the buffer. -/
structure Xxh64 where
  v : Lanes
  held : Bytes
  total : UInt64
  held_lt : held.length < 32

namespace Xxh64

/-- `default` -/
def new : Xxh64 := ⟨.init, [], 0, by decide⟩

/-- The whole stripes of `data`; the rest is held. -/
def stripes (v : Lanes) (total : UInt64) (data : Bytes) : Xxh64 where
  v := (Blocks.absorb 32 Lanes.stripe v data).1
  held := (Blocks.absorb 32 Lanes.stripe v data).2
  total := total
  held_lt := Blocks.length_absorb_lt (by decide) v data

/-- Adds `data`. -/
def update (h : Xxh64) (data : Bytes) : Xxh64 :=
  let total := h.total + UInt64.ofNat data.length
  if 0 < h.held.length then
    let take := min (32 - h.held.length) data.length
    let buf := h.held ++ data.take take
    if hb : buf.length < 32 then ⟨h.v, buf, total, hb⟩
    else stripes (h.v.stripe buf) total (data.drop take)
  else stripes h.v total data

def finish (h : Xxh64) : Bytes :=
  let acc := if 32 ≤ h.total then h.v.converge else prime5
  toBeBytes (avalanche (tail (acc + h.total) h.held))

/-- It has had exactly the bytes `data`. -/
structure Fed (h : Xxh64) (data : Bytes) : Prop where
  v : h.v = (Blocks.absorb 32 Lanes.stripe .init data).1
  held : h.held = (Blocks.absorb 32 Lanes.stripe .init data).2
  total : h.total = UInt64.ofNat data.length

theorem fed_new : Fed new [] := ⟨rfl, rfl, rfl⟩

/-- The bytes that were held, filled up to a stripe if there are enough, and the whole stripes after
them. -/
theorem update_eq (h : Xxh64) (data : Bytes) :
    (h.update data).v = (Blocks.absorb 32 Lanes.stripe h.v (h.held ++ data)).1 ∧
    (h.update data).held = (Blocks.absorb 32 Lanes.stripe h.v (h.held ++ data)).2 := by
  have hlt := h.held_lt
  unfold update
  split_ifs with hpos
  · rcases Nat.lt_or_ge data.length (32 - h.held.length) with hd | hd
    · have htake : data.take (min (32 - h.held.length) data.length) = data :=
        List.take_of_length_le (by omega)
      have hshort : (h.held ++ data).length < 32 := by
        rw [List.length_append]
        omega
      simp only [htake]
      rw [dif_pos hshort, Blocks.absorb_of_lt hshort]
      exact ⟨rfl, rfl⟩
    · have hmin : min (32 - h.held.length) data.length = 32 - h.held.length := by omega
      have hfull : (h.held ++ data.take (32 - h.held.length)).length = 32 := by
        rw [List.length_append, List.length_take]
        omega
      have hsplit : h.held ++ data =
          (h.held ++ data.take (32 - h.held.length)) ++ data.drop (32 - h.held.length) := by
        rw [List.append_assoc, List.take_append_drop]
      simp only [hmin]
      rw [dif_neg (by omega), hsplit, Blocks.absorb_block_append (by decide) hfull]
      exact ⟨rfl, rfl⟩
  · have hnil : h.held = [] := List.length_eq_zero_iff.mp (by omega)
    rw [hnil]
    exact ⟨rfl, rfl⟩

theorem total_update (h : Xxh64) (data : Bytes) :
    (h.update data).total = h.total + UInt64.ofNat data.length := by
  unfold update
  dsimp only
  split_ifs <;> rfl

theorem Fed.update {h : Xxh64} {data : Bytes} (hf : Fed h data) (more : Bytes) :
    Fed (h.update more) (data ++ more) := by
  obtain ⟨hv, hheld⟩ := h.update_eq more
  rw [hf.v, hf.held, ← Blocks.absorb_append (by decide)] at hv hheld
  refine ⟨hv, hheld, ?_⟩
  rw [total_update, hf.total, List.length_append, UInt64.ofNat_add]

/-- What is announced for a file of fewer than 2⁶⁴ bytes is its XXH64. -/
theorem Fed.finish {h : Xxh64} {data : Bytes} (hf : Fed h data) (hlen : data.length < 2 ^ 64) :
    h.finish = xxh64 data := by
  have htotal : 32 ≤ h.total ↔ 32 ≤ data.length := by
    rw [hf.total, UInt64.le_iff_toNat_le, UInt64.toNat_ofNat_of_lt' hlen]
    rfl
  simp only [Xxh64.finish, xxh64, htotal, hf.v, hf.held]
  rw [hf.total]

end Xxh64

end Sukkula.Croc
