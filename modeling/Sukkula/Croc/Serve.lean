import Sukkula.Croc.Message

/-! # Sending a file over the rooms

The chunks of a file as the sender frames them, and the deal of the chunks that
were asked for over its rooms: chunk `k` over room `k mod n`.
-/

namespace Sukkula.Croc

open LocalSend (ErrorInfo)

def toLeBytes (n : ℕ) : Bytes := (List.range 8).map fun i => UInt8.ofNat (n / 256 ^ i)

/-- Where chunks come from: a file and the size it had when it was opened, or a text. -/
inductive Chunks
  | file (content : Bytes) (size : ℕ)
  | text (bytes : Bytes)

namespace Chunks

def size : Chunks → ℕ
  | .file _ size => size
  | .text bytes => bytes.length

def content : Chunks → Bytes
  | .file content _ => content
  | .text bytes => bytes

/-- The error of a read that finds too little. -/
def short : Chunks → ErrorInfo
  | .file .. => ⟨.badFile, "the file shrank while sending"⟩
  | .text _ => ⟨.badFile, "the file cannot be read"⟩

/-- Chunk `k`: its position, then its bytes. -/
def read (c : Chunks) (k : ℕ) : Except ErrorInfo Bytes :=
  let pos := k * chunkBytes
  let len := min (c.size - pos) chunkBytes
  if 2 ^ 64 ≤ pos then .error ⟨.badFile, "the file cannot be read"⟩
  else if c.content.length < pos + len then .error c.short
  else .ok (toLeBytes pos ++ (c.content.drop pos).take len)

end Chunks

/-- The chunks of each of `n` rooms, in order. -/
def deal (n : ℕ) (chunks : List ℕ) (i : ℕ) : List ℕ :=
  if i < n then chunks.filter fun k => k % n = i else []

/-- Chunk `k` of a file. -/
def chunk (data : Bytes) (k : ℕ) : Bytes :=
  (data.drop (chunkBytes * k)).take chunkBytes

theorem length_chunk (data : Bytes) (k : ℕ) :
    (chunk data k).length = chunkLength data.length k := by
  simp [chunk, chunkLength]

theorem fromLeBytes_digits (w n : ℕ) :
    fromLeBytes ((List.range w).map fun i => UInt8.ofNat (n / 256 ^ i)) = n % 256 ^ w := by
  induction w generalizing n with
  | zero => exact (Nat.mod_one n).symm
  | succ w ih =>
    -- The digits above the lowest one are the digits of `n / 256`.
    have htail : ∀ i, n / 256 ^ (i + 1) = n / 256 / 256 ^ i := fun i => by
      rw [Nat.div_div_eq_div_mul, Nat.pow_succ']
    have hcons : fromLeBytes ((List.range (w + 1)).map fun i => UInt8.ofNat (n / 256 ^ i)) =
        fromLeBytes ((List.range w).map fun i => UInt8.ofNat (n / 256 / 256 ^ i)) *
        256 + n % 256 := by
      simp only [List.range_succ_eq_map, List.map_cons, List.map_map, fromLeBytes, List.foldr_cons,
        Function.comp_def, Nat.succ_eq_add_one, htail, Nat.pow_zero, Nat.div_one,
        UInt8.toNat_ofNat']
    rw [hcons, ih, Nat.pow_succ', Nat.mod_mul]
    omega

theorem fromLeBytes_toLeBytes {n : ℕ} (h : n < 2 ^ 64) : fromLeBytes (toLeBytes n) = n := by
  rw [toLeBytes, fromLeBytes_digits]
  exact Nat.mod_eq_of_lt h

theorem length_toLeBytes (n : ℕ) : (toLeBytes n).length = 8 := by simp [toLeBytes]

theorem mul_lt_of_lt_count {size k : ℕ} (hsize : size < 2 ^ 64) (hk : k < count size) :
    k * chunkBytes < 2 ^ 64 := by
  unfold count chunkBytes at *
  omega

/-- A frame with the position and the bytes of a chunk is read as that chunk. -/
theorem chunkOf_of_open {ses : Session} {frame data : Bytes} {k : ℕ}
    (hplain : ses.compressed = false)
    (hopen : ses.openSealed frame = some (toLeBytes (k * chunkBytes) ++ data))
    (hk : k * chunkBytes < 2 ^ 64) : ses.chunkOf frame = .ok (k, data) := by
  have htake : (toLeBytes (k * chunkBytes) ++ data).take 8 = toLeBytes (k * chunkBytes) :=
    List.take_left' (length_toLeBytes _)
  have hdrop : (toLeBytes (k * chunkBytes) ++ data).drop 8 = data :=
    List.drop_left' (length_toLeBytes _)
  have hlen : ¬ (toLeBytes (k * chunkBytes) ++ data).length < 8 := by
    rw [List.length_append, length_toLeBytes]
    omega
  have hmod : k * chunkBytes % chunkBytes = 0 := Nat.mul_mod_left k chunkBytes
  have hdiv : k * chunkBytes / chunkBytes = k := Nat.mul_div_cancel k (by decide)
  unfold Session.chunkOf
  simp only [hopen, hplain, Bool.false_eq_true, if_false, hlen, htake,
    fromLeBytes_toLeBytes hk, hmod, ne_eq, not_true_eq_false, hdiv, hdrop]
  rfl

/-- Every chunk of a source that has not changed is read, with its position. -/
theorem read_eq {c : Chunks} (hsize : c.content.length = c.size) (hlt : c.size < 2 ^ 64) {k : ℕ}
    (hk : k < count c.size) : c.read k = .ok (toLeBytes (k * chunkBytes) ++ chunk c.content k) := by
  have hpos := mul_lt_of_lt_count hlt hk
  have hle : k * chunkBytes ≤ c.size := by
    unfold count chunkBytes at *
    omega
  unfold Chunks.read
  rw [if_neg (by omega), if_neg (by omega)]
  congr 2
  rw [chunk, Nat.mul_comm chunkBytes k, ← hsize]
  rcases Nat.le_total chunkBytes (c.content.length - k * chunkBytes) with h | h
  · rw [Nat.min_eq_right h]
  · rw [Nat.min_eq_left h, List.take_of_length_le (by simp),
      List.take_of_length_le (by simpa using h)]

end Sukkula.Croc
