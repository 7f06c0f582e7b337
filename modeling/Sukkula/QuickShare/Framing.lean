import Sukkula.Library.BigEndian
import Sukkula.Library.Frames
import Sukkula.Library.Transition
import Sukkula.QuickShare.Outbound

/-! # The frames of a Quick Share connection

`FrameReader` puts frames together from whatever pieces the stream gives. A call of
`read_frame` has a limit of its own and may be given up while it waits; what came so far
stays for the next one. What was returned and what was read is written down, for the
statements.
-/

namespace Sukkula.QuickShare

open Transition Frames

def readChunk : ℕ := 64 * 1024

/-- `u32::to_be_bytes` -/
def toBeBytes32 (n : ℕ) : Bytes :=
  [.ofNat (n / 2 ^ 24), .ofNat (n / 2 ^ 16), .ofNat (n / 2 ^ 8), .ofNat n]

def wireFrame (data : Bytes) : Bytes := toBeBytes32 data.length ++ data

/-- `write_frame`: what is written, where the write comes to its end. -/
def writeFrame (data : Bytes) : Option Bytes :=
  if data.length < 2 ^ 32 then some (wireFrame data) else none

namespace FrameReader

inductive Error
  | overLimit (len : ℕ)
  | empty
  | closed
  | io
  deriving DecidableEq, Repr

/-- The length the prefix announces, once all four bytes are in. -/
def frameLen (buf : Bytes) (max : ℕ) : Except Error (Option ℕ) :=
  if buf.length < 4 then .ok none
  else
    let len := BigEndian.value (buf.take 4)
    if min max saneFrameLength < len then .error (.overLimit len)
    else if len = 0 then .error .empty
    else .ok (some len)

/-- The frame, if all of it is there, and the buffer after it. -/
def takeFrame (buf : Bytes) (max : ℕ) : Except Error (Option Bytes × Bytes) :=
  match frameLen buf max with
  | .error e => .error e
  | .ok none => .ok (none, buf)
  | .ok (some len) => if buf.length < len + 4 then .ok (none, buf) else .ok (some (buf.drop 4), [])

def wanted (buf : Bytes) (max : ℕ) : Except Error ℕ :=
  match frameLen buf max with
  | .error e => .error e
  | .ok none => .ok (4 - buf.length)
  | .ok (some len) => .ok (len + 4 - buf.length)

end FrameReader

structure FrameReader where
  buf : Bytes := []
  -- The call that waits for the stream: its limit, and how much it asks for.
  call : Option (ℕ × ℕ) := none
  read : Bytes := []
  -- What the calls returned, each with its limit.
  returned : List (ℕ × Except FrameReader.Error Bytes) := []
  deriving DecidableEq

namespace FrameReader

inductive Act
  | call (max : ℕ)
  -- The stream gives these bytes; none at its end.
  | got (piece : Bytes)
  | failed
  | dropped
  deriving DecidableEq, Repr

variable (r : FrameReader)

def finish (max : ℕ) (result : Except Error Bytes) : FrameReader :=
  { r with call := none, returned := r.returned ++ [(max, result)] }

/-- `read_frame`'s loop, to its next read or its end. -/
def turn (max : ℕ) : FrameReader :=
  match takeFrame r.buf max with
  | .error e => r.finish max (.error e)
  | .ok (some frame, buf) => { r with buf }.finish max (.ok frame)
  | .ok (none, buf) =>
    match wanted buf max with
    | .error e => { r with buf }.finish max (.error e)
    | .ok want => { r with buf, call := some (max, min want readChunk) }

def step : Act → Option FrameReader
  | .call max => if r.call.isSome then none else some (r.turn max)
  | .got piece =>
    match r.call with
    | none => none
    | some (max, want) =>
      if want < piece.length then none
      else if piece = [] then some (r.finish max (.error .closed))
      else some ({ r with buf := r.buf ++ piece, read := r.read ++ piece }.turn max)
  | .failed => r.call.map fun c => r.finish c.1 (.error .io)
  | .dropped => if r.call.isSome then some { r with call := none } else none

def frames : List Bytes := r.returned.filterMap fun a => a.2.toOption

end FrameReader

section Bytes

variable {n : ℕ} {b p x y rest : Bytes}

@[simp] theorem length_toBeBytes32 (n : ℕ) : (toBeBytes32 n).length = 4 := rfl

theorem value_toBeBytes32 (h : n < 2 ^ 32) : BigEndian.value (toBeBytes32 n) = n := by
  simp only [toBeBytes32, BigEndian.value_cons, BigEndian.value_nil, List.length_cons,
    List.length_nil, UInt8.toNat_ofNat']
  omega

theorem toBeBytes32_value (h : b.length = 4) : toBeBytes32 (BigEndian.value b) = b := by
  have hlt := BigEndian.value_lt b
  rw [h] at hlt
  apply BigEndian.value_injective
  · rw [length_toBeBytes32, h]
  · exact value_toBeBytes32 hlt

theorem value_take_lt (b : Bytes) : BigEndian.value (b.take 4) < 2 ^ 32 := by
  have hlt := BigEndian.value_lt (b.take 4)
  have hle : 256 ^ (b.take 4).length ≤ 256 ^ 4 :=
    Nat.pow_le_pow_right (by decide) (List.length_take_le 4 b)
  omega

theorem announced_inj {m : ℕ} (hm : m < 2 ^ 32) (hn : n < 2 ^ 32)
    (h : toBeBytes32 m ++ x = toBeBytes32 n ++ y) : m = n ∧ x = y := by
  obtain ⟨hlen, hxy⟩ := List.append_inj h ((length_toBeBytes32 m).trans (length_toBeBytes32 n).symm)
  refine ⟨?_, hxy⟩
  rw [← value_toBeBytes32 hm, hlen, value_toBeBytes32 hn]

theorem length_lt_of_writeFrame (h : writeFrame p = some b) : p.length < 2 ^ 32 := by
  by_contra hlt
  rw [writeFrame, if_neg hlt] at h
  cases h

theorem prefixCode_wireFrame : PrefixCode (fun p : Bytes => p.length < 2 ^ 32) wireFrame where
  ne_nil a _ := by simp [wireFrame, toBeBytes32]
  inj a b x y ha hb h := by
    rw [wireFrame, wireFrame, List.append_assoc, List.append_assoc] at h
    obtain ⟨hlen, hrest⟩ := announced_inj ha hb h
    exact (List.append_inj hrest hlen).1

end Bytes

namespace FrameReader

variable {r r' : FrameReader} {max M : ℕ} {buf : Bytes}

def announced (buf : Bytes) : ℕ := BigEndian.value (buf.take 4)

inductive Turn (r : FrameReader) (max : ℕ) : FrameReader → Prop
  | begins (h : r.buf.length < 4) :
  Turn r max { r with call := some (max, min (4 - r.buf.length) readChunk) }
  | refuses (h : 4 ≤ r.buf.length) (hlen : min max saneFrameLength < announced r.buf) :
    Turn r max (r.finish max (.error (.overLimit (announced r.buf))))
  | empty (h : 4 ≤ r.buf.length) (hlen : announced r.buf = 0) :
    Turn r max (r.finish max (.error .empty))
  | goesOn (h : 4 ≤ r.buf.length) (hpos : 0 < announced r.buf) (hlen : announced r.buf ≤
    min max saneFrameLength)
    (hlt : r.buf.length < announced r.buf + 4) :
    Turn r max { r with call := some (max, min (announced r.buf + 4 - r.buf.length) readChunk) }
  | returns (hpos : 0 < announced r.buf) (hlen : announced r.buf ≤ min max saneFrameLength)
    (hle : announced r.buf + 4 ≤ r.buf.length) :
    Turn r max ({ r with buf := [] }.finish max (.ok (r.buf.drop 4)))

theorem turn_spec (r : FrameReader) (max : ℕ) : Turn r max (r.turn max) := by
  by_cases hshort : r.buf.length < 4
  · have hlen : frameLen r.buf max = .ok none := if_pos hshort
    simp only [turn, takeFrame, wanted, hlen]
    exact .begins hshort
  by_cases hover : min max saneFrameLength < announced r.buf
  · have hlen : frameLen r.buf max = .error (.overLimit (announced r.buf)) := by
      rw [frameLen, if_neg hshort]
      exact if_pos hover
    simp only [turn, takeFrame, hlen]
    exact .refuses (by omega) hover
  by_cases hzero : announced r.buf = 0
  · have hlen : frameLen r.buf max = .error .empty := by
      rw [frameLen, if_neg hshort]
      exact (if_neg hover).trans (if_pos hzero)
    simp only [turn, takeFrame, hlen]
    exact .empty (by omega) hzero
  have hlen : frameLen r.buf max = .ok (some (announced r.buf)) := by
    rw [frameLen, if_neg hshort]
    exact (if_neg hover).trans (if_neg hzero)
  by_cases hlt : r.buf.length < announced r.buf + 4
  · simp only [turn, takeFrame, wanted, hlen, if_pos hlt]
    exact .goesOn (by omega) (by omega) (by omega) hlt
  · simp only [turn, takeFrame, hlen, if_neg hlt]
    exact .returns (by omega) (by omega) (by omega)

/-- The buffer holds no whole frame, and nothing past the one that is read. -/
def Part (buf : Bytes) : Prop :=
  4 < buf.length → 0 < announced buf ∧ announced buf ≤ saneFrameLength ∧ buf.length <
    announced buf + 4

/-- Before a turn the frame may be whole, if its call wants it. -/
def Ready (max : ℕ) (buf : Bytes) : Prop :=
  4 < buf.length → 0 < announced buf ∧ announced buf ≤ saneFrameLength ∧ buf.length ≤
    announced buf + 4 ∧ (buf.length = announced buf + 4 → announced buf ≤ min max saneFrameLength)

/-- What is asked for does not go past the prefix, or past the frame. -/
def Asks (max want : ℕ) (buf : Bytes) : Prop :=
  buf.length + want ≤ 4 ∨
    (4 ≤ buf.length ∧ 0 < announced buf ∧ announced buf ≤ min max saneFrameLength ∧
      buf.length + want ≤ announced buf + 4)

/-- Frames of the stream came before this length. -/
def Met (read : Bytes) (len : ℕ) : Prop :=
  len < 2 ^ 32 ∧ ∃ fs : List Bytes, (∀ f ∈ fs, f.length < 2 ^ 32) ∧
    fs.flatMap wireFrame ++ toBeBytes32 len <+: read

/-- What holds of a reader that was called with limits up to `M`, the buffer aside. -/
structure Kept (M : ℕ) (r : FrameReader) : Prop where
  read_eq : r.read = r.frames.flatMap wireFrame ++ r.buf
  le : r.buf.length ≤ 4 + min M saneFrameLength
  fits : ∀ max f, (max, .ok f) ∈ r.returned → 0 < f.length ∧ f.length ≤ min max saneFrameLength
  refused : ∀ max len, (max, .error (.overLimit len)) ∈ r.returned → min max saneFrameLength < len ∧
    Met r.read len
  empty : ∀ max, (max, .error .empty) ∈ r.returned → Met r.read 0

structure Inv (M : ℕ) (r : FrameReader) : Prop extends Kept M r where
  part : Part r.buf
  call : ∀ max want, r.call = some (max, want) → max ≤ M ∧ 0 < want ∧ want ≤ readChunk ∧
    Asks max want r.buf

theorem frames_finish_ok (r : FrameReader) (max : ℕ) (f : Bytes) :
    (r.finish max (.ok f)).frames = r.frames ++ [f] := by
  simp [frames, finish, Except.toOption]

theorem frames_finish_error (r : FrameReader) (max : ℕ) (e : Error) :
    (r.finish max (.error e)).frames = r.frames := by
  simp [frames, finish, Except.toOption]

theorem mem_finish {m : ℕ} {x result : Except Error Bytes}
    (h : (m, x) ∈ (r.finish max result).returned) : (m, x) ∈ r.returned ∨ m = max ∧ x = result := by
  rcases List.mem_append.mp h with h | h
  · exact Or.inl h
  · exact Or.inr (Prod.mk.inj (List.mem_singleton.mp h))

theorem Kept.frames_lt (h : Kept M r) : ∀ f ∈ r.frames, f.length < 2 ^ 32 := by
  intro f hf
  obtain ⟨⟨max, result⟩, hmem, hsome⟩ := List.mem_filterMap.mp hf
  cases result with
  | error e => cases hsome
  | ok g =>
    obtain rfl := Option.some.inj hsome
    have := (h.fits max g hmem).2
    have : saneFrameLength < 2 ^ 32 := by decide
    omega

theorem Kept.met (h : Kept M r) (hlen : 4 ≤ r.buf.length) : Met r.read (announced r.buf) := by
  refine ⟨value_take_lt r.buf, r.frames, h.frames_lt, ?_⟩
  have htake : toBeBytes32 (announced r.buf) = r.buf.take 4 :=
    toBeBytes32_value (by rw [List.length_take]; omega)
  rw [h.read_eq, htake]
  exact (List.prefix_append_right_inj _).mpr (List.take_prefix 4 r.buf)

theorem Kept.finish_error (h : Kept M r) {e : Error} (hover : ∀ len, e = .overLimit len →
    min max saneFrameLength < len ∧ Met r.read len) (hempty : e = .empty → Met r.read 0) :
    Kept M (r.finish max (.error e)) where
  read_eq := by
    rw [frames_finish_error]
    exact h.read_eq
  le := h.le
  fits := by
    intro m f hmem
    rcases mem_finish hmem with hmem | ⟨-, heq⟩
    · exact h.fits m f hmem
    · cases heq
  refused := by
    intro m len hmem
    rcases mem_finish hmem with hmem | ⟨rfl, heq⟩
    · exact h.refused m len hmem
    · exact hover len (Except.error.inj heq).symm
  empty := by
    intro m hmem
    rcases mem_finish hmem with hmem | ⟨-, heq⟩
    · exact h.empty m hmem
    · exact hempty (Except.error.inj heq).symm

theorem Inv.finish_error (h : Kept M r) (hpart : Part r.buf) {e : Error}
    (hover : ∀ len, e = .overLimit len → min max saneFrameLength < len ∧ Met r.read len)
    (hempty : e = .empty → Met r.read 0) : Inv M (r.finish max (.error e)) where
  toKept := h.finish_error hover hempty
  part := hpart
  call := by
    intro m want hcall
    cases hcall

theorem eq_wireFrame (hready : Ready max buf) (hpos : 0 < announced buf)
    (hle : announced buf + 4 ≤ buf.length) :
    buf = wireFrame (buf.drop 4) ∧ (buf.drop 4).length = announced buf := by
  have hlen := (hready (by omega)).2.2.1
  have hdrop : (buf.drop 4).length = announced buf := by rw [List.length_drop]; omega
  refine ⟨?_, hdrop⟩
  rw [wireFrame, hdrop, announced, toBeBytes32_value (by rw [List.length_take]; omega),
    List.take_append_drop]

theorem Inv.turn (h : Kept M r) (hmax : max ≤ M) (hready : Ready max r.buf) :
    Inv M (r.turn max) := by
  have hchunk : 0 < readChunk := by decide
  have hturn := turn_spec r max
  generalize r.turn max = t at hturn
  cases hturn with
  | begins hlt =>
    refine ⟨⟨h.read_eq, h.le, h.fits, h.refused, h.empty⟩, fun h4 => absurd h4 (by simp; omega), ?_⟩
    intro m want hcall
    obtain ⟨rfl, rfl⟩ := Prod.mk.inj (Option.some.inj hcall)
    exact ⟨hmax, by omega, Nat.min_le_right _ _, Or.inl (by simp only; omega)⟩
  | refuses h4 hover =>
    apply Inv.finish_error h
    · intro hlt
      obtain ⟨hpos, hsane, hle, hwhole⟩ := hready hlt
      exact ⟨hpos, hsane, Nat.lt_of_le_of_ne hle fun heq => absurd (hwhole heq) (by omega)⟩
    · intro len heq
      cases heq
      exact ⟨hover, h.met h4⟩
    · intro heq
      cases heq
  | empty h4 hzero =>
    apply Inv.finish_error h
    · intro hlt
      exact absurd (hready hlt).1 (by omega)
    · intro len heq
      cases heq
    · intro _
      exact hzero ▸ h.met h4
  | goesOn h4 hpos hlen hlt =>
    have hsane : announced r.buf ≤ saneFrameLength := by omega
    refine ⟨⟨h.read_eq, h.le, h.fits, h.refused, h.empty⟩, fun _ => ⟨hpos, hsane, hlt⟩, ?_⟩
    intro m want hcall
    obtain ⟨rfl, rfl⟩ := Prod.mk.inj (Option.some.inj hcall)
    exact ⟨hmax, by omega, Nat.min_le_right _ _, Or.inr ⟨h4, hpos, hlen, by simp only; omega⟩⟩
  | returns hpos hlen hle =>
    obtain ⟨hbuf, hdrop⟩ := eq_wireFrame hready hpos hle
    refine ⟨⟨?_, Nat.zero_le _, ?_, ?_, ?_⟩, fun h4 => absurd h4 (by simp [finish]),
      fun m want hcall => by cases hcall⟩
    · have hflat : ({ r with buf := [] }.finish max (.ok (r.buf.drop 4))).frames.flatMap wireFrame =
          r.frames.flatMap wireFrame ++ r.buf := by
        rw [frames_finish_ok, List.flatMap_append, List.flatMap_singleton, ← hbuf]
        rfl
      rw [hflat]
      exact h.read_eq.trans (List.append_nil _).symm
    · intro m f hmem
      rcases mem_finish hmem with hmem | ⟨rfl, heq⟩
      · exact h.fits m f hmem
      · obtain rfl := Except.ok.inj heq
        rw [hdrop]
        exact ⟨hpos, hlen⟩
    · intro m len hmem
      rcases mem_finish hmem with hmem | ⟨-, heq⟩
      · exact h.refused m len hmem
      · cases heq
    · intro m hmem
      rcases mem_finish hmem with hmem | ⟨-, heq⟩
      · exact h.empty m hmem
      · cases heq

theorem Kept.got (h : Kept M r) {piece : Bytes} {want : ℕ} (hmax : max ≤ M)
    (hasks : Asks max want r.buf) (hle : piece.length ≤ want) :
    Kept M { r with buf := r.buf ++ piece, read := r.read ++ piece } ∧
    Ready max (r.buf ++ piece) := by
  have hmet {len : ℕ} (hm : Met r.read len) : Met (r.read ++ piece) len := by
    obtain ⟨hlt, fs, hfs, hpre⟩ := hm
    exact ⟨hlt, fs, hfs, hpre.trans (List.prefix_append _ _)⟩
  have hsize : (r.buf ++ piece).length ≤ 4 + min M saneFrameLength := by
    rw [List.length_append]
    rcases hasks with hshort | ⟨-, -, hlen, hend⟩ <;> omega
  refine ⟨⟨?_, hsize, h.fits, ?_, ?_⟩, ?_⟩
  · simp only [h.read_eq, List.append_assoc]
    rfl
  · intro m len hmem
    obtain ⟨hover, hm⟩ := h.refused m len hmem
    exact ⟨hover, hmet hm⟩
  · intro m hmem
    exact hmet (h.empty m hmem)
  · intro h4
    rw [List.length_append] at h4
    rcases hasks with hshort | ⟨hfour, hpos, hlen, hend⟩
    · omega
    · have hsame : announced (r.buf ++ piece) = announced r.buf := by
        rw [announced, announced, List.take_append_of_le_length hfour]
      rw [hsame, List.length_append]
      exact ⟨hpos, by omega, by omega, fun _ => hlen⟩

theorem Inv.ready (h : Inv M r) (max : ℕ) : Ready max r.buf := by
  intro h4
  obtain ⟨hpos, hsane, hlt⟩ := h.part h4
  exact ⟨hpos, hsane, hlt.le, fun heq => absurd heq hlt.ne⟩

theorem Inv.step {a : Act} (h : Inv M r) (hM : ∀ max, a = .call max → max ≤ M)
    (hs : r.step a = some r') : Inv M r' := by
  cases a with
  | call max =>
    simp only [FrameReader.step, Option.ite_none_left_eq_some, Option.some.injEq] at hs
    rw [← hs.2]
    exact Inv.turn h.toKept (hM max rfl) (h.ready max)
  | got piece =>
    cases hcall : r.call with
    | none =>
      simp only [FrameReader.step, hcall] at hs
      cases hs
    | some c =>
      obtain ⟨max, want⟩ := c
      obtain ⟨hmax, -, -, hasks⟩ := h.call max want hcall
      simp only [FrameReader.step, hcall] at hs
      split_ifs at hs with hlong hnil
      · rw [← Option.some.inj hs]
        exact Inv.finish_error h.toKept h.part (fun len heq => by cases heq)
          (fun heq => by cases heq)
      · rw [← Option.some.inj hs]
        obtain ⟨hkept, hready⟩ := h.toKept.got hmax hasks (Nat.le_of_not_lt hlong)
        rw [hcall] at hkept
        exact Inv.turn hkept hmax hready
  | failed =>
    obtain ⟨c, -, rfl⟩ := Option.map_eq_some_iff.mp hs
    exact Inv.finish_error h.toKept h.part (fun len heq => by cases heq) (fun heq => by cases heq)
  | dropped =>
    simp only [FrameReader.step, Option.ite_none_right_eq_some, Option.some.injEq] at hs
    rw [← hs.2]
    exact ⟨⟨h.read_eq, h.le, h.fits, h.refused, h.empty⟩, h.part, fun _ _ hcall => by cases hcall⟩

theorem inv_new (M : ℕ) : Inv M {} where
  read_eq := rfl
  le := Nat.zero_le _
  fits := by simp
  refused := by simp
  empty := by simp
  part := fun h4 => absurd h4 (by simp)
  call := fun _ _ hcall => by cases hcall

theorem Part.not_prefix (h : Part buf) {p : Bytes} (hpos : 0 < p.length) (hlt : p.length < 2 ^ 32) :
    ¬ wireFrame p <+: buf := by
  rintro ⟨z, rfl⟩
  have hann : announced (wireFrame p ++ z) = p.length := by
    rw [announced, wireFrame, List.append_assoc, List.take_left' (length_toBeBytes32 _),
      value_toBeBytes32 hlt]
  have hlen : (wireFrame p ++ z).length = 4 + p.length + z.length := by
    rw [List.length_append, wireFrame, List.length_append, length_toBeBytes32]
  have := (h (by omega)).2.2
  omega

/-- A length that was met among the frames of some payloads is that of one of them. -/
theorem Met.exists_length {read : Bytes} {len : ℕ} (h : Met read len) {ps : List Bytes}
    (hps : ∀ p ∈ ps, p.length < 2 ^ 32) (hread : read <+: ps.flatMap wireFrame) :
    ∃ p ∈ ps, p.length = len := by
  obtain ⟨hlen, fs, hfs, hpre⟩ := h
  have hall := hpre.trans hread
  obtain ⟨more, rfl⟩ := prefixCode_wireFrame.isPrefix hfs hps hall
  rw [List.flatMap_append] at hall
  obtain ⟨z, hz⟩ := (List.prefix_append_right_inj _).mp hall
  cases more with
  | nil => simp [toBeBytes32] at hz
  | cons p more =>
    have hmem : p ∈ fs ++ p :: more := by simp
    rw [List.flatMap_cons, wireFrame, List.append_assoc] at hz
    exact ⟨p, hmem, (announced_inj hlen (hps p hmem) hz).1.symm⟩

/-- In every run of calls with limits up to `M`, whatever pieces the stream gives and whichever
calls are given up while they wait: what was read is the returned frames, in their order, and the
buffer, which holds less than a frame and never more than `M` bytes and a prefix. A call returns no
empty frame and none over its limit, asks for something, and for nothing past the frame it reads. Of
a stream of whole frames the calls return the first ones, all of them once all was read, refuse only
a length that is over the limit, and never call one empty. -/
theorem frames_reassembled {as : List Act} (hM : ∀ max, Act.call max ∈ as → max ≤ M)
    (h : exec FrameReader.step {} as = some r) :
    (r.read = r.frames.flatMap wireFrame ++ r.buf ∧ Part r.buf ∧ r.buf.length ≤
      4 + min M saneFrameLength) ∧
    (∀ max f, (max, .ok f) ∈ r.returned → 0 < f.length ∧ f.length ≤ min max saneFrameLength) ∧
    (∀ max want, r.call = some (max, want) → 0 < want ∧ want ≤ readChunk ∧ Asks max want r.buf) ∧
    ∀ ps : List Bytes, (∀ p ∈ ps, 0 < p.length ∧ writeFrame p = some (wireFrame p)) →
      r.read <+: ps.flatMap wireFrame →
      r.frames <+: ps ∧ (r.read = ps.flatMap wireFrame → r.frames = ps ∧ r.buf = []) ∧
      (∀ max len, (max, .error (.overLimit len)) ∈ r.returned →
        min max saneFrameLength < len ∧ ∃ p ∈ ps, p.length = len) ∧
      ∀ max, (max, .error .empty) ∉ r.returned := by
  have hinv : Inv M r := by
    refine exec_invariant_along (G := fun _ a => ∀ max, a = .call max → max ≤ M) ?_ (inv_new M) ?_ h
    · exact fun s a s' hs hG hstep => hs.step hG hstep
    · exact along_of_forall fun a ha max heq => hM max (heq ▸ ha)
  refine ⟨⟨hinv.read_eq, hinv.part, hinv.le⟩, hinv.fits,
    fun max want hcall => (hinv.call max want hcall).2, ?_⟩
  intro ps hps hread
  have hlt : ∀ p ∈ ps, p.length < 2 ^ 32 := fun p hp => length_lt_of_writeFrame (hps p hp).2
  refine ⟨?_, ?_, ?_, ?_⟩
  · exact prefixCode_wireFrame.isPrefix hinv.frames_lt hlt (hinv.read_eq ▸ hread)
  · intro hall
    rcases prefixCode_wireFrame.eq_or_word hinv.frames_lt hlt
      (hinv.read_eq.symm.trans hall) with heq | ⟨p, hp, hpre⟩
    · exact heq
    · exact absurd hpre (hinv.part.not_prefix (hps p hp).1 (hlt p hp))
  · intro max len hmem
    obtain ⟨hover, hmet⟩ := hinv.refused max len hmem
    exact ⟨hover, hmet.exists_length hlt hread⟩
  · intro max hmem
    obtain ⟨p, hp, hzero⟩ := (hinv.empty max hmem).exists_length hlt hread
    exact absurd hzero (hps p hp).1.ne'

/-- Two frames in pieces, over calls that were given up inside the first, in its prefix and after
it. -/
def inPieces : List Act :=
  [.call 16, .got [0, 0], .dropped, .call 8, .got [0, 2], .got [7], .dropped, .call 8, .got [9],
    .call 8, .got [0, 0, 0, 1], .got [5]]

theorem frames_reassembled_pieces : ∃ r, exec FrameReader.step {} inPieces = some r ∧
    r.frames = [[7, 9], [5]] ∧ r.buf = [] := by
  have hrun : (exec FrameReader.step {} inPieces).any
      (fun r => r.read = [[7, 9], [5]].flatMap wireFrame) = true := by decide +kernel
  obtain ⟨r, hr, hread⟩ := (Option.any_eq_true ..).mp hrun
  have hall : r.read = [[7, 9], [5]].flatMap wireFrame := of_decide_eq_true hread
  have hM : ∀ max, Act.call max ∈ inPieces → max ≤ 16 := by simp [inPieces]
  obtain ⟨-, -, -, hps⟩ := frames_reassembled hM hr
  obtain ⟨-, hwhole, -⟩ := hps [[7, 9], [5]] (by decide) (hall ▸ List.prefix_refl _)
  exact ⟨r, hr, hwhole hall⟩

end FrameReader

end Sukkula.QuickShare
