import Mathlib.Data.List.Induction
import Sukkula.Library.Assoc
import Sukkula.Library.Files

/-! # Byte payloads

Sharing frames and texts come in chunks, each of which says to which payload it
belongs, how long that is and where the chunk starts. Chunks of a few payloads
may be mixed. A payload is handed over with its last chunk and forgotten, and so
is one of which a chunk is refused.
-/

namespace Sukkula.QuickShare

open Assoc

def maxPendingBytePayloads : ℕ := 2

structure PayloadChunk where
  offset : ℤ
  flags : ℤ
  body : Bytes
  deriving DecidableEq, Repr

def PayloadChunk.last (c : PayloadChunk) : Bool := c.flags % 2 = 1

structure BytePayload where
  declared : ℕ
  data : Bytes
  deriving DecidableEq, Repr

inductive Misfit
  | negative
  | tooLarge
  | tooMany
  | changed
  | offset
  | longer
  | shorter
  deriving DecidableEq, Repr

def assembleInner (buffers : Table ℤ BytePayload) (id totalSize max : ℤ) (chunk : PayloadChunk) :
    Except Misfit (Option Bytes) × Table ℤ BytePayload :=
  if totalSize < 0 then (.error .negative, buffers)
  else if max < totalSize then (.error .tooLarge, buffers)
  else if buffers.lookup id = none ∧ maxPendingBytePayloads ≤ buffers.size then
    (.error .tooMany, buffers)
  else
    let declared := totalSize.toNat
    -- the entry is made here, whatever becomes of the chunk
    let buffer := (buffers.lookup id).getD ⟨declared, []⟩
    if buffer.declared ≠ declared then (.error .changed, buffers.set id buffer)
    else if chunk.offset ≠ buffer.data.length then (.error .offset, buffers.set id buffer)
    else
      let data := buffer.data ++ chunk.body
      if buffer.declared < data.length then (.error .longer, buffers.set id buffer)
      else if chunk.last then
        if data.length ≠ buffer.declared then (.error .shorter, buffers.set id { buffer with data })
        else (.ok (some data), buffers.set id { buffer with data := [] })
      else (.ok none, buffers.set id { buffer with data })

def assemble (buffers : Table ℤ BytePayload) (id totalSize max : ℤ) (chunk : PayloadChunk) :
    Except Misfit (Option Bytes) × Table ℤ BytePayload :=
  match assembleInner buffers id totalSize max chunk with
  | (.ok none, buffers) => (.ok none, buffers)
  | (r, buffers) => (r, buffers.remove id)

namespace Payload

/-- A call of `assemble`. -/
structure Call where
  id : ℤ
  totalSize : ℤ
  max : ℤ
  chunk : PayloadChunk
  deriving DecidableEq, Repr

/-- The payloads after calls that are made one after the other. -/
def after (calls : List Call) : Table ℤ BytePayload :=
  calls.foldl (fun t c => (assemble t c.id c.totalSize c.max c.chunk).2) .empty

def returned (calls : List Call) (c : Call) : Except Misfit (Option Bytes) :=
  (assemble (after calls) c.id c.totalSize c.max c.chunk).1

theorem after_snoc (calls : List Call) (c : Call) :
    after (calls ++ [c]) = (assemble (after calls) c.id c.totalSize c.max c.chunk).2 := by
  simp [after]

/-- The chunk goes on with a payload of `declared` bytes of which `data` is there. -/
structure Continues (declared : ℕ) (data : Bytes) (c : Call) : Prop where
  totalSize : c.totalSize = declared
  max : c.totalSize ≤ c.max
  offset : c.chunk.offset = data.length
  fits : data.length + c.chunk.body.length ≤ declared

/-- Calls that put together the beginning of a payload. -/
inductive Fed (declared : ℕ) : List Call → Bytes → Prop
  | nil : Fed declared [] []
  | snoc {calls : List Call} {data : Bytes} {c : Call} : Fed declared calls data →
    Continues declared data c → c.chunk.last = false →
    Fed declared (calls ++ [c]) (data ++ c.chunk.body)

def Sends (payload : Bytes) (calls : List Call) : Prop :=
  ∃ (front : List Call) (c : Call) (data : Bytes), calls = front ++ [c] ∧
    Fed payload.length front data ∧ Continues payload.length data c ∧ c.chunk.last = true ∧
    data ++ c.chunk.body = payload

variable {t : Table ℤ BytePayload} {c : Call} {calls : List Call} {id : ℤ} {b : BytePayload}

/-- What there is of the payload when its chunk comes: new payloads need a place. -/
def Found (t : Table ℤ BytePayload) (c : Call) (b : BytePayload) : Prop :=
  t.lookup c.id = some b ∨ t.lookup c.id = none ∧ t.size < maxPendingBytePayloads ∧
    b = ⟨c.totalSize.toNat, []⟩

/-- What a call does: the chunk is added, or is the last of its payload, or is refused. -/
inductive Assembles (t : Table ℤ BytePayload) (c : Call) :
    Except Misfit (Option Bytes) × Table ℤ BytePayload → Prop
  | more {b : BytePayload} {t' : Table ℤ BytePayload} :
    Found t c b → Continues b.declared b.data c → c.chunk.last = false →
    (∀ k, t'.lookup k = if k = c.id then some ⟨b.declared, b.data ++ c.chunk.body⟩
      else t.lookup k) →
    t'.size ≤ max t.size maxPendingBytePayloads → Assembles t c (.ok none, t')
  | done {b : BytePayload} {t' : Table ℤ BytePayload} :
    Found t c b → Continues b.declared b.data c →
    c.chunk.last = true → (b.data ++ c.chunk.body).length = b.declared →
    (∀ k, t'.lookup k = if k = c.id then none else t.lookup k) → t'.size ≤ t.size →
    Assembles t c (.ok (some (b.data ++ c.chunk.body)), t')
  | refused {e : Misfit} {t' : Table ℤ BytePayload} :
    (∀ b, Found t c b → Continues b.declared b.data c →
      c.chunk.last = true ∧ (b.data ++ c.chunk.body).length ≠ b.declared) →
    (∀ k, t'.lookup k = if k = c.id then none else t.lookup k) → t'.size ≤ t.size →
    Assembles t c (.error e, t')

theorem lookup_remove_set (t : Table ℤ BytePayload) (id : ℤ) (b : BytePayload) (k : ℤ) :
    ((t.set id b).remove id).lookup k = if k = id then none else t.lookup k := by
  simp only [Table.lookup_remove, Table.lookup_set]
  split_ifs <;> rfl

theorem size_remove_set_le (t : Table ℤ BytePayload) (id : ℤ) (b : BytePayload) :
    ((t.set id b).remove id).size ≤ t.size := by
  have hlt : ((t.set id b).remove id).size < (t.set id b).size := Table.size_remove_lt (by simp)
  exact Nat.le_of_lt_succ (hlt.trans_le Table.size_set_le)

theorem size_set_found (h : Found t c b) (b' : BytePayload) :
    (t.set c.id b').size ≤ max t.size maxPendingBytePayloads := by
  rcases h with h | ⟨-, hlt, -⟩
  · exact Nat.le_trans (Table.size_set_of_lookup (by simp [h])) (Nat.le_max_left ..)
  · exact Nat.le_trans (Table.size_set_le.trans hlt) (Nat.le_max_right ..)

theorem Found.unique {b' : BytePayload} (h : Found t c b) (h' : Found t c b') : b' = b := by
  rcases h with h | ⟨h, -, rfl⟩ <;> rcases h' with h' | ⟨h', -, rfl⟩
  · exact Option.some.inj (h'.symm.trans h)
  · simp [h] at h'
  · simp [h] at h'
  · rfl

theorem assembles_assemble (t : Table ℤ BytePayload) (c : Call) :
    Assembles t c (assemble t c.id c.totalSize c.max c.chunk) := by
  have hgone {e : Misfit} (h : ∀ b, Found t c b → ¬ Continues b.declared b.data c) :
      Assembles t c (.error e, t.remove c.id) :=
    .refused (fun b hf hc => absurd hc (h b hf)) (fun k => Table.lookup_remove) Table.size_remove_le
  unfold assemble assembleInner
  by_cases hneg : c.totalSize < 0
  · rw [if_pos hneg]
    exact hgone fun b _ hc => by have := hc.totalSize; omega
  by_cases hmax : c.max < c.totalSize
  · rw [if_neg hneg, if_pos hmax]
    exact hgone fun b _ hc => by have := hc.max; omega
  by_cases hmany : t.lookup c.id = none ∧ maxPendingBytePayloads ≤ t.size
  · rw [if_neg hneg, if_neg hmax, if_pos hmany]
    refine hgone fun b hf => ?_
    rcases hf with hf | ⟨-, hlt, -⟩
    · simp [hmany.1] at hf
    · exact absurd hlt (Nat.not_lt.mpr hmany.2)
  obtain ⟨b, hb⟩ : ∃ b, (t.lookup c.id).getD ⟨c.totalSize.toNat, []⟩ = b := ⟨_, rfl⟩
  have hfound : Found t c b := by
    cases hl : t.lookup c.id with
    | some b' => exact Or.inl (hl.trans (by simpa [hl] using hb))
    | none =>
      refine Or.inr ⟨hl, ?_, by simpa [hl] using hb.symm⟩
      exact Nat.lt_of_not_le fun hle => hmany ⟨hl, hle⟩
  have hforget {e : Misfit} (b' : BytePayload)
      (h : Continues b.declared b.data c → c.chunk.last = true ∧
        (b.data ++ c.chunk.body).length ≠ b.declared) :
      Assembles t c (.error e, (t.set c.id b').remove c.id) :=
    .refused (fun _ hf hc => hfound.unique hf ▸ h (hfound.unique hf ▸ hc))
      (lookup_remove_set t c.id b')
      (size_remove_set_le t c.id b')
  rw [if_neg hneg, if_neg hmax, if_neg hmany]
  simp only [hb]
  by_cases hdecl : b.declared ≠ c.totalSize.toNat
  · rw [if_pos hdecl]
    exact hforget _ fun hc => by have := hc.totalSize; omega
  by_cases hoff : c.chunk.offset ≠ b.data.length
  · rw [if_neg hdecl, if_pos hoff]
    exact hforget _ fun hc => absurd hc.offset hoff
  by_cases hlong : b.declared < (b.data ++ c.chunk.body).length
  · rw [if_neg hdecl, if_neg hoff, if_pos hlong]
    exact hforget _ fun hc => by have := hc.fits; simp at hlong; omega
  rw [if_neg hdecl, if_neg hoff, if_neg hlong]
  have hcont : Continues b.declared b.data c :=
    ⟨by omega, by omega, not_not.mp hoff, by simpa using hlong⟩
  cases hlast : c.chunk.last with
  | false => exact .more hfound hcont hlast (fun k => Table.lookup_set) (size_set_found hfound _)
  | true =>
    by_cases hshort : (b.data ++ c.chunk.body).length ≠ b.declared
    · simp only [if_true, if_pos hshort]
      exact hforget _ fun _ => ⟨hlast, hshort⟩
    · simp only [if_true, if_neg hshort]
      exact .done hfound hcont hlast (not_not.mp hshort) (lookup_remove_set t _ _)
        (size_remove_set_le ..)

theorem lookup_other {r : Except Misfit (Option Bytes) × Table ℤ BytePayload} (h : Assembles t c r)
    (hid : id ≠ c.id) : r.2.lookup id = t.lookup id := by
  cases h with
  | more _ _ _ hl _ => exact (hl id).trans (if_neg hid)
  | done _ _ _ _ hl _ => exact (hl id).trans (if_neg hid)
  | refused _ hl _ => exact (hl id).trans (if_neg hid)

def of (id : ℤ) (calls : List Call) : List Call := calls.filter (·.id = id)

theorem of_snoc_self (calls : List Call) (c : Call) :
    of c.id (calls ++ [c]) = of c.id calls ++ [c] := by
  simp [of]

theorem of_snoc_ne (hid : c.id ≠ id) : of id (calls ++ [c]) = of id calls := by
  simp [of, hid]

/-- Few payloads are pending, and what is there of each came in its last chunks. -/
structure Inv (calls : List Call) (t : Table ℤ BytePayload) : Prop where
  size : t.size ≤ maxPendingBytePayloads
  fed : ∀ id b, t.lookup id = some b → ∃ earlier block, of id calls =
    earlier ++ block ∧ block ≠ [] ∧ Fed b.declared block b.data

theorem Inv.found (h : Inv calls t) (hf : Found t c b) :
    ∃ earlier block, of c.id calls = earlier ++ block ∧ Fed b.declared block b.data := by
  rcases hf with hf | ⟨-, -, rfl⟩
  · obtain ⟨earlier, block, hof, -, hfed⟩ := h.fed _ _ hf
    exact ⟨earlier, block, hof, hfed⟩
  · exact ⟨of c.id calls, [], by simp, .nil⟩

theorem Inv.keep {t' : Table ℤ BytePayload} (h : Inv calls t) (hid : id ≠ c.id)
    (hl : t'.lookup id = t.lookup id) (hb : t'.lookup id = some b) :
    ∃ earlier block, of id (calls ++ [c]) = earlier ++ block ∧ block ≠ [] ∧
    Fed b.declared block b.data := by
  rw [of_snoc_ne hid.symm]
  exact h.fed id b (hl ▸ hb)

theorem Inv.snoc (h : Inv calls t) {r : Except Misfit (Option Bytes) × Table ℤ BytePayload}
    (hr : Assembles t c r) : Inv (calls ++ [c]) r.2 := by
  constructor
  · cases hr with
    | more _ _ _ _ hsize => exact hsize.trans (Nat.max_le.mpr ⟨h.size, le_rfl⟩)
    | done _ _ _ _ _ hsize => exact hsize.trans h.size
    | refused _ _ hsize => exact hsize.trans h.size
  · intro id b hb
    by_cases hid : id = c.id
    · subst hid
      cases hr with
      | more hf hc hlast hl _ =>
        rw [hl, if_pos rfl] at hb
        obtain rfl := Option.some.inj hb
        obtain ⟨earlier, block, hof, hfed⟩ := h.found hf
        refine ⟨earlier, block ++ [c], ?_, by simp, hfed.snoc hc hlast⟩
        rw [of_snoc_self, hof, List.append_assoc]
      | done _ _ _ _ hl _ => simp [hl] at hb
      | refused _ hl _ => simp [hl] at hb
    · exact h.keep hid (lookup_other hr hid) hb

theorem inv_after (calls : List Call) : Inv calls (after calls) := by
  induction calls using List.reverseRecOn with
  | nil => exact ⟨Nat.zero_le _, fun id b hb => by cases hb⟩
  | append_singleton calls c ih =>
    rw [after_snoc]
    exact ih.snoc (assembles_assemble ..)

theorem Fed.of_snoc {n : ℕ} {data : Bytes} (h : Fed n (calls ++ [c]) data) :
    ∃ front, Fed n calls front ∧ Continues n front c ∧ c.chunk.last = false ∧
    data = front ++ c.chunk.body := by
  generalize hs : calls ++ [c] = snoc at h
  cases h with
  | nil => simp at hs
  | snoc hfed hc hlast =>
    obtain ⟨rfl, h⟩ := List.append_inj' hs rfl
    obtain rfl := List.singleton_inj.mp h
    exact ⟨_, hfed, hc, hlast, rfl⟩

theorem Fed.length_le {n : ℕ} {data : Bytes} (h : Fed n calls data) : data.length ≤ n := by
  cases h with
  | nil => exact Nat.zero_le n
  | snoc _ hc _ => simpa using hc.fits

theorem Fed.exists_max {n : ℕ} {data : Bytes} (h : Fed n calls data) (hne : calls ≠ []) :
    ∃ d ∈ calls, n ≤ d.max := by
  cases h with
  | nil => exact absurd rfl hne
  | @snoc _ _ d _ hd _ => exact ⟨d, by simp, hd.totalSize ▸ hd.max⟩

theorem Fed.of_append {n : ℕ} {l l' : List Call} {data : Bytes} (h : Fed n (l ++ l') data) :
    ∃ front, Fed n l front := by
  induction l' using List.reverseRecOn generalizing data with
  | nil => exact ⟨data, by simpa using h⟩
  | append_singleton l' c ih =>
    rw [← List.append_assoc] at h
    obtain ⟨front, hfront, -⟩ := h.of_snoc
    exact ih hfront

section After

variable {earlier later : List Call} {n : ℕ} {data : Bytes}

theorem found_of_lookup (hnew : (after earlier).lookup c.id = none)
    (hroom : (after earlier).size < maxPendingBytePayloads) (hfed : Fed n (of c.id later) data)
    (htotal : c.totalSize = n) (h : later ≠ [] → (after (earlier ++ later)).lookup c.id =
      some ⟨n, data⟩) :
    Found (after (earlier ++ later)) c ⟨n, data⟩ := by
  by_cases hnil : later = []
  · subst hnil
    have hdata : data = [] := by
      generalize ho : of c.id [] = o at hfed
      cases hfed with
      | nil => rfl
      | snoc => simp [of] at ho
    rw [List.append_nil]
    refine Or.inr ⟨hnew, hroom, ?_⟩
    rw [hdata, htotal, Int.toNat_natCast]
  · exact Or.inl (h hnil)

/-- Chunks that fit are added one after the other, whatever comes of other payloads between them. -/
theorem lookup_after (hnew : (after earlier).lookup id = none)
    (hroom : (after earlier).size < maxPendingBytePayloads) (hhead : ∀ d ∈ later.head?, d.id = id)
    (hfed : Fed n (of id later) data) (hne : later ≠ []) :
    (after (earlier ++ later)).lookup id = some ⟨n, data⟩ := by
  induction later using List.reverseRecOn generalizing data with
  | nil => exact absurd rfl hne
  | append_singleton later c ih =>
    have hhead' : ∀ d ∈ later.head?, d.id = id := fun d hd =>
      hhead d (by simp [List.head?_append, Option.mem_def.mp hd])
    rw [← List.append_assoc, after_snoc]
    have hr := assembles_assemble (after (earlier ++ later)) c
    by_cases hid : c.id = id
    · subst hid
      rw [of_snoc_self] at hfed
      obtain ⟨front, hfront, hc, hlast, rfl⟩ := hfed.of_snoc
      have hfound := found_of_lookup hnew hroom hfront hc.totalSize (ih hhead' hfront)
      generalize assemble _ _ _ _ _ = r at hr ⊢
      cases hr with
      | more hf _ _ hl _ =>
        obtain rfl := hfound.unique hf
        simpa using hl c.id
      | done _ _ hl => simp [hlast] at hl
      | refused hno => simp [(hno _ hfound hc).1] at hlast
    · have hne' : later ≠ [] := by
        rintro rfl
        exact hid (hhead c rfl)
      rw [lookup_other hr (Ne.symm hid)]
      exact ih hhead' (of_snoc_ne hid ▸ hfed) hne'

theorem returned_eq (hfound : Found (after calls) c ⟨n, data⟩) (hc : Continues n data c)
    (hlen : c.chunk.last = true → (data ++ c.chunk.body).length = n) :
    returned calls c = .ok (if c.chunk.last then some (data ++ c.chunk.body) else none) := by
  have hr := assembles_assemble (after calls) c
  unfold returned
  generalize assemble _ _ _ _ _ = r at hr ⊢
  cases hr with
  | more _ _ hlast _ _ => simp [hlast]
  | done hf _ hlast _ _ _ =>
    obtain rfl := hfound.unique hf
    simp [hlast]
  | refused hno =>
    obtain ⟨hlast, hne⟩ := hno _ hfound hc
    exact absurd (hlen hlast) hne

end After

/-- A payload in two chunks, the second of them empty. -/
def inTwo (payload : Bytes) : List PayloadChunk := [⟨0, 0, payload⟩, ⟨payload.length, 1, []⟩]

theorem sends_inTwo (payload : Bytes) (id max : ℤ) (h : payload.length ≤ max) :
    Sends payload ((inTwo payload).map (⟨id, payload.length, max, ·⟩)) := by
  refine ⟨[⟨id, payload.length, max, ⟨0, 0, payload⟩⟩], _, payload, rfl, ?_, ?_, rfl, by simp⟩
  · exact Fed.snoc .nil ⟨rfl, h, rfl, by simp⟩ rfl
  · exact ⟨rfl, h, rfl, by simp⟩

/-- A payload in two chunks, to one who has none: it is handed over, and forgotten. -/
theorem assemble_inTwo (payload : Bytes) (id max : ℤ) (h : payload.length ≤ max) :
    ∃ t, assemble .empty id payload.length max ⟨0, 0, payload⟩ = (.ok none, t) ∧
      assemble t id payload.length max ⟨payload.length, 1, []⟩ = (.ok (some payload), .empty) := by
  have hmax : ¬ max < payload.length := not_lt.mpr h
  have hpos : ¬ (payload.length : ℤ) < 0 := by omega
  have hempty (b b' : BytePayload) :
      (((Table.empty : Table ℤ BytePayload).set id b).set id b').remove id = .empty := by
    simp [Table.set, Table.remove, Table.empty]
  refine ⟨Table.empty.set id ⟨payload.length, payload⟩, ?_, ?_⟩
  · have hroom : ¬ maxPendingBytePayloads ≤ (Table.empty : Table ℤ BytePayload).size := by decide
    simp [assemble, assembleInner, PayloadChunk.last, hmax, hpos, hroom]
  · simp [assemble, assembleInner, PayloadChunk.last, hmax, hpos, hempty]

/-- Whatever chunks come, at most two payloads are kept, each no longer than its chunks were allowed
to declare. A payload that is handed over is what its last chunks hold, of the size they all
declare, one after the other; and where there is room, the chunks of a payload are handed over
whole, whatever chunks of others come between them. -/
theorem assembled_exactly (calls : List Call) (c : Call) :
    ((after calls).size ≤ 2 ∧ ∀ id b, (after calls).lookup id = some b →
      b.data.length ≤ b.declared ∧ ∃ d ∈ calls, d.id = id ∧ b.declared ≤ d.max) ∧
    (∀ payload, returned calls c = .ok (some payload) → (after (calls ++ [c])).lookup c.id = none ∧
      ∃ earlier block, of c.id (calls ++ [c]) = earlier ++ block ∧ Sends payload block) ∧
    (∀ payload earlier later, calls = earlier ++ later → (after earlier).lookup c.id = none →
      (after earlier).size < 2 → (∀ d ∈ later.head?, d.id = c.id) →
      Sends payload (of c.id (later ++ [c])) → returned calls c = .ok (some payload) ∧
      ∀ front d back, later = front ++ d :: back → d.id = c.id →
      returned (earlier ++ front) d = .ok none) ∧
    (∀ payload id max, payload.length ≤ max →
      Sends payload ((inTwo payload).map (⟨id, payload.length, max, ·⟩))) := by
  have hinv := inv_after calls
  refine ⟨⟨hinv.size, ?_⟩, ?_, ?_, fun payload id max h => sends_inTwo payload id max h⟩
  · intro id b hb
    obtain ⟨earlier, block, hof, hne, hfed⟩ := hinv.fed id b hb
    obtain ⟨d, hd, hmax⟩ := hfed.exists_max hne
    have hmem : d ∈ of id calls := by simp [hof, hd]
    obtain ⟨hd', hid⟩ := List.mem_filter.mp hmem
    exact ⟨hfed.length_le, d, hd', of_decide_eq_true hid, hmax⟩
  · intro payload hret
    have hr := assembles_assemble (after calls) c
    rw [after_snoc]
    unfold returned at hret
    generalize assemble _ _ _ _ _ = r at hr hret ⊢
    cases hr with
    | more => simp at hret
    | refused => simp at hret
    | @done b t' hf hc hlast hlen hl _ =>
      obtain rfl := Option.some.inj (Except.ok.inj hret)
      obtain ⟨earlier, block, hof, hfed⟩ := hinv.found hf
      refine ⟨by simp [hl], earlier, block ++ [c], ?_, block, c, b.data, rfl, ?_, ?_, hlast, rfl⟩
      · rw [of_snoc_self, hof, List.append_assoc]
      · exact hlen ▸ hfed
      · exact hlen ▸ hc
  · rintro payload earlier later rfl hnew hroom hhead ⟨front, c', data, heq, hfed, hc, hlast, rfl⟩
    rw [of_snoc_self] at heq
    obtain ⟨rfl, h⟩ := List.append_inj' heq rfl
    obtain rfl := List.singleton_inj.mp h
    constructor
    · have hfound :=
        found_of_lookup hnew hroom hfed hc.totalSize (lookup_after hnew hroom hhead hfed)
      rw [returned_eq hfound hc fun _ => rfl, if_pos hlast]
    · rintro front d back rfl hd
      have hsplit : of c.id (front ++ d :: back) = (of c.id front ++ [d]) ++ of c.id back := by
        simp [of, hd]
      rw [hsplit] at hfed
      obtain ⟨data', hfed'⟩ := hfed.of_append
      obtain ⟨data'', hfed'', hd', hlast', -⟩ := hfed'.of_snoc
      have hhead' : ∀ e ∈ front.head?, e.id = c.id := fun e he =>
        hhead e (by simp [List.head?_append, Option.mem_def.mp he])
      rw [← hd] at hfed'' hnew hhead'
      have hfound :=
        found_of_lookup hnew hroom hfed'' hd'.totalSize (lookup_after hnew hroom hhead' hfed'')
      rw [returned_eq hfound hd' (by simp [hlast']), hlast']
      rfl

end Payload

end Sukkula.QuickShare
