import Sukkula.Croc.Merge

/-! # Control messages and file requests

What the peers say to each other once they have a key. A request names a file of
the sender's list and the chunks that are asked for; what is taken names only
chunks that the file has, each once and in order.
-/

namespace Sukkula.Croc

inductive Kind
  | pake | pakeConfirm | externalIp | fileInfo | recipientReady | closeSender | closeRecipient
  | finished | error
  | other
  deriving DecidableEq, Repr

structure RequestWire where
  ranges : Option (List ℤ) := none
  index : ℤ := 0
  machine : Str := []
  reconnect : ℤ := 0
  deriving DecidableEq

/-- A request for the whole of file `index`. -/
def writeRequest (index : ℕ) : RequestWire where
  ranges := some []
  index := min index (2 ^ 63 - 1)

structure Request where
  index : ℕ
  chunks : List ℕ
  deriving DecidableEq, Repr

/-- The chunks of `[start, count, …]`, after those of the ranges before. -/
def readRanges (count : ℕ) (chunks : List ℕ) : List ℤ → Option (List ℕ)
  | start :: n :: pairs =>
    if 0 ≤ start ∧ 0 ≤ n ∧ start % chunkBytes = 0 ∧ n ≠ 0 then
      let first := start.toNat / chunkBytes
      if count < first + n.toNat ∨ ∃ l ∈ chunks.getLast?, first ≤ l then none
      else readRanges count (chunks ++ List.range' first n.toNat) pairs
    else none
  | _ => some chunks

/-- A receiver's request against our list of `sizes`. -/
def readRequest (wire : RequestWire) (sizes : List ℕ) : Option Request := do
  guard (0 ≤ wire.index)
  let size ← sizes[wire.index.toNat]?
  guard (size ≠ 0)
  match wire.ranges.getD [] with
  | [] => return ⟨wire.index.toNat, List.range (count size)⟩
  | first :: pairs =>
    guard (first = chunkBytes ∧ pairs ≠ [] ∧ pairs.length % 2 = 0)
    return ⟨wire.index.toNat, ← readRanges (count size) [] pairs⟩

section Requests

variable {wire : RequestWire} {sizes : List ℕ} {r : Request}

/-- Chunks of a file of `count`, each once and in order. -/
def InOrder (count : ℕ) (chunks : List ℕ) : Prop :=
  chunks.Pairwise (· < ·) ∧ ∀ k ∈ chunks, k < count

theorem inOrder_range (n : ℕ) : InOrder n (List.range n) :=
  ⟨List.pairwise_lt_range, fun _ hk => List.mem_range.mp hk⟩

theorem InOrder.append {n first len : ℕ} {chunks : List ℕ} (h : InOrder n chunks)
    (hn : first + len ≤ n) (hlast : ∀ l ∈ chunks.getLast?, l < first) :
    InOrder n (chunks ++ List.range' first len) := by
  have hlt : ∀ k ∈ chunks, k < first := by
    intro k hk
    rcases List.eq_nil_or_concat chunks with rfl | ⟨init, l, rfl⟩
    · cases hk
    · have hl : l < first := hlast l (by simp)
      rw [List.concat_eq_append] at h hk
      rcases List.mem_append.mp hk with hk | hk
      · have := (List.pairwise_append.mp h.1).2.2 k hk l (List.mem_singleton_self l)
        omega
      · rwa [List.mem_singleton.mp hk]
  constructor
  · refine List.pairwise_append.mpr ⟨h.1, List.pairwise_lt_range', fun a ha b hb => ?_⟩
    have := (List.mem_range'_1.mp hb).1
    have := hlt a ha
    omega
  · intro k hk
    rcases List.mem_append.mp hk with hk | hk
    · exact h.2 k hk
    · have := (List.mem_range'_1.mp hk).2
      omega

theorem inOrder_readRanges {n : ℕ} (pairs : List ℤ) : ∀ {chunks out : List ℕ}, InOrder n chunks →
    readRanges n chunks pairs = some out → InOrder n out := by
  intro chunks out h hr
  fun_induction readRanges n chunks pairs with
  | case1 => cases hr
  | case2 chunks start len pairs hpair first hlast ih =>
    push Not at hlast
    exact ih (h.append hlast.1 fun l hl => hlast.2 l hl) hr
  | case3 => cases hr
  | case4 => exact Option.some.inj hr ▸ h

theorem readRequest_inOrder (h : readRequest wire sizes = some r) :
    ∃ size, sizes[r.index]? = some size ∧ size ≠ 0 ∧ InOrder (count size) r.chunks := by
  unfold readRequest at h
  obtain ⟨-, -, h⟩ := Option.bind_eq_some_iff.mp h
  obtain ⟨size, hsize, h⟩ := Option.bind_eq_some_iff.mp h
  obtain ⟨_, hne, h⟩ := Option.bind_eq_some_iff.mp h
  have hne : size ≠ 0 := by
    by_contra h0
    simp [h0] at hne
  split at h
  · obtain rfl := Option.some.inj h
    exact ⟨size, hsize, hne, inOrder_range _⟩
  · obtain ⟨-, -, h⟩ := Option.bind_eq_some_iff.mp h
    obtain ⟨chunks, hchunks, h⟩ := Option.bind_eq_some_iff.mp h
    obtain rfl := Option.some.inj h
    exact ⟨size, hsize, hne, inOrder_readRanges _ ⟨List.Pairwise.nil, by simp⟩ hchunks⟩

theorem readRequest_writeRequest {index size : ℕ} (hsize : sizes[index]? = some size)
    (hne : size ≠ 0) (hlen : index < 2 ^ 63) :
    readRequest (writeRequest index) sizes = some ⟨index, List.range (count size)⟩ := by
  have hmin : min (index : ℤ) 9223372036854775807 = index := by omega
  simp [readRequest, writeRequest, hmin, hsize, hne, guard]

end Requests

end Sukkula.Croc
