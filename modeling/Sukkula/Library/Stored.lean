import Sukkula.Library.Files

/-! # Stored blocks

The part of DEFLATE (RFC 1951) that does not compress: each block is a header, the
length of its content, the complement of that length, and the content. The lowest
bit of a header marks the last block, the next two are zero. A stored block ends on
a byte, so the next header is a byte of its own.
-/

namespace Sukkula.Stored

inductive Block (final : Bool) (content : Bytes) : Bytes → Prop
  | mk (header l₀ l₁ n₀ n₁ : UInt8) (hfinal : header.toNat % 2 = final.toNat)
      (htype : header.toNat / 2 % 4 = 0) (hlen : l₀.toNat + 256 * l₁.toNat = content.length)
      (hcomplement : n₀ = ~~~l₀ ∧ n₁ = ~~~l₁) :
      Block final content (header :: l₀ :: l₁ :: n₀ :: n₁ :: content)

/-- A whole stream, with its content: only the last block is marked final. -/
inductive Stream : Bytes → Bytes → Prop
  | last {block content : Bytes} (h : Block true content block) : Stream block content
  | more {block content rest contents : Bytes} (h : Block false content block)
      (hrest : Stream rest contents) : Stream (block ++ rest) (content ++ contents)

def decode : ℕ → Bytes → Option Bytes
  | fuel + 1, header :: l₀ :: l₁ :: n₀ :: n₁ :: rest =>
    let len := l₀.toNat + 256 * l₁.toNat
    if header.toNat / 2 % 4 = 0 ∧ n₀ = ~~~l₀ ∧ n₁ = ~~~l₁ ∧ len ≤ rest.length then
      if header.toNat % 2 = 1 then if rest.length = len then some rest else none
      else (decode fuel (rest.drop len)).map (rest.take len ++ ·)
    else none
  | _, _ => none

theorem decode_of_stream {s content : Bytes} (h : Stream s content) (fuel : ℕ)
    (hf : s.length ≤ fuel) : decode fuel s = some content := by
  induction h generalizing fuel with
  | last h =>
    cases h with
    | mk header l₀ l₁ n₀ n₁ hfinal htype hlen hcomplement =>
      obtain ⟨n, rfl⟩ : ∃ n, fuel = n + 1 := ⟨fuel - 1, by simp at hf; omega⟩
      have hone : header.toNat % 2 = 1 := hfinal
      simp only [decode, hlen, htype, hcomplement, hone, le_refl, and_self, if_true]
  | @more block content rest contents h hrest ih =>
    cases h with
    | mk header l₀ l₁ n₀ n₁ hfinal htype hlen hcomplement =>
      simp only [List.cons_append, List.length_cons, List.length_append] at hf
      obtain ⟨n, rfl⟩ : ∃ n, fuel = n + 1 := ⟨fuel - 1, by omega⟩
      have hzero : header.toNat % 2 = 0 := hfinal
      have hle : content.length ≤ (content ++ rest).length := by simp
      simp only [List.cons_append, decode, hlen, htype, hcomplement, hzero, hle, and_self, if_true,
        List.drop_left' rfl, List.take_left' rfl, ih n (by omega), Option.map_some,
        Nat.zero_ne_one, if_false]

theorem Block.length_lt {final : Bool} {content block : Bytes} (h : Block final content block) :
    content.length < block.length := by
  cases h
  simp
  omega

theorem Stream.length_lt {s content : Bytes} (h : Stream s content) :
    content.length < s.length := by
  induction h with
  | last h => exact h.length_lt
  | more h _ ih =>
    have := h.length_lt
    rw [List.length_append, List.length_append]
    omega

end Sukkula.Stored
