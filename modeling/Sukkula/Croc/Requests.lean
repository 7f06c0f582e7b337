import Sukkula.Croc.Message
import Sukkula.Croc.Pake
import Sukkula.Library.Json

/-! # What is asked for

A file request off the wire: its JSON, in 64 bits, and exactly which ranges of
chunks are taken. Nothing in it can make a number too large.
-/

namespace Sukkula.Croc

open Json

namespace RequestWire

def rangesKey : Str := "CurrentFileChunkRanges".toList

def indexKey : Str := "FilesToTransferCurrentNum".toList

def machineKey : Str := "MachineID".toList

def reconnectKey : Str := "ReconnectVersion".toList

def read (v : Json) : Option RequestWire :=
  (openFields [rangesKey, indexKey, machineKey, reconnectKey] v).bind fun get => do
    let ranges ← field get rangesKey (readOption (readList readI64)) none
    let index ← field get indexKey readI64 0
    let machine ← field get machineKey readString []
    let reconnect ← field get reconnectKey readI64 0
    return ⟨ranges, index, machine, reconnect⟩

def entries (w : RequestWire) : List (Str × Json) :=
  [(rangesKey, (w.ranges.map fun r => Json.array (r.map .integer)).getD .null),
    (indexKey, .integer w.index), (machineKey, .string w.machine),
    (reconnectKey, .integer w.reconnect)]

def toJson (w : RequestWire) : Json := .object w.entries

structure Fits (w : RequestWire) : Prop where
  index : -2 ^ 63 ≤ w.index ∧ w.index < 2 ^ 63
  ranges : ∀ r ∈ w.ranges, ∀ i ∈ r, -2 ^ 63 ≤ i ∧ i < 2 ^ 63
  reconnect : -2 ^ 63 ≤ w.reconnect ∧ w.reconnect < 2 ^ 63

end RequestWire

theorem readI64_eq_some {v : Json} {i : ℤ} (h : readI64 v = some i) : -2 ^ 63 ≤ i ∧ i < 2 ^ 63 := by
  unfold readI64 at h
  split at h
  · split_ifs at h with hi
    obtain rfl := Option.some.inj h
    exact hi
  · cases h

theorem readI64_of_fits {i : ℤ} (h : -2 ^ 63 ≤ i ∧ i < 2 ^ 63) : readI64 (.integer i) = some i :=
  if_pos h

theorem readRanges_fits {v : Json} {r : Option (List ℤ)}
    (h : readOption (readList readI64) v = some r) :
    ∀ l ∈ r, ∀ i ∈ l, -2 ^ 63 ≤ i ∧ i < 2 ^ 63 := by
  intro l hl i hi
  unfold readOption at h
  split at h
  · obtain rfl := Option.some.inj h
    cases hl
  · obtain ⟨l', hread, rfl⟩ := Option.map_eq_some_iff.mp h
    obtain rfl := Option.some.inj hl
    obtain ⟨item, hitem⟩ := mem_of_readList hread i hi
    exact readI64_eq_some hitem

theorem field_eq_some {α : Type} {get : Str → Option Json} {name : Str} {read : Json → Option α}
    {default a : α} (h : field get name read default = some a) :
    a = default ∨ ∃ v, read v = some a := by
  unfold field at h
  split at h
  · exact Or.inl (Option.some.inj h).symm
  · exact Or.inr ⟨_, h⟩

theorem RequestWire.fits_of_read {v : Json} {w : RequestWire} (h : read v = some w) : w.Fits := by
  obtain ⟨get, -, h⟩ := Option.bind_eq_some_iff.mp h
  obtain ⟨ranges, hranges, h⟩ := Option.bind_eq_some_iff.mp h
  obtain ⟨index, hindex, h⟩ := Option.bind_eq_some_iff.mp h
  obtain ⟨machine, -, h⟩ := Option.bind_eq_some_iff.mp h
  obtain ⟨reconnect, hreconnect, h⟩ := Option.bind_eq_some_iff.mp h
  obtain rfl := Option.some.inj h
  have hint : ∀ {name : Str} {i : ℤ}, field get name readI64 0 = some i → -2 ^ 63 ≤ i ∧
      i < 2 ^ 63 := by
    intro name i hi
    rcases field_eq_some hi with rfl | ⟨v, hv⟩
    · decide
    · exact readI64_eq_some hv
  refine ⟨hint hindex, ?_, hint hreconnect⟩
  rcases field_eq_some hranges with rfl | ⟨v, hv⟩
  · simp
  · exact readRanges_fits hv

theorem mapM_readI64 {l : List ℤ} (h : ∀ i ∈ l, -2 ^ 63 ≤ i ∧ i < 2 ^ 63) :
    (l.map Json.integer).mapM readI64 = some l := by
  induction l with
  | nil => rfl
  | cons i l ih =>
    rw [List.forall_mem_cons] at h
    rw [List.map_cons, List.mapM_cons, readI64_of_fits h.1, ih h.2]
    rfl

theorem RequestWire.read_toJson {w : RequestWire} (h : w.Fits) : read w.toJson = some w := by
  have hkeys : (w.entries.map Prod.fst).Nodup := by
    have : ([rangesKey, indexKey, machineKey, reconnectKey] : List Str).Nodup := by decide +kernel
    exact this
  have hranges : readOption (readList readI64)
      ((w.ranges.map fun r => Json.array (r.map .integer)).getD .null) =
        some w.ranges := by
    cases hr : w.ranges with
    | none => rfl
    | some r =>
      have := mapM_readI64 (h.ranges r hr)
      simp only [Option.map_some, Option.getD_some, readOption, readList, this]
  rw [read, toJson, openFields_object hkeys (by simp [entries])]
  have hne : indexKey ≠ rangesKey ∧ machineKey ≠ rangesKey ∧ machineKey ≠ indexKey ∧
      reconnectKey ≠ rangesKey ∧ reconnectKey ≠ indexKey ∧ reconnectKey ≠ machineKey := by
    decide +kernel
  simp only [Option.bind_some, field, entries, List.lookup_cons, beq_self_eq_true,
    beq_eq_false_iff_ne.mpr hne.1, beq_eq_false_iff_ne.mpr hne.2.1,
    beq_eq_false_iff_ne.mpr hne.2.2.1, beq_eq_false_iff_ne.mpr hne.2.2.2.1,
    beq_eq_false_iff_ne.mpr hne.2.2.2.2.1, beq_eq_false_iff_ne.mpr hne.2.2.2.2.2, hranges,
    readI64_of_fits h.index, readI64_of_fits h.reconnect, readString, Option.bind_eq_bind]
  rfl

section Checked

/-- A result that does not fit into 64 bits, or a division by zero. -/
inductive Overflow | overflow
  deriving DecidableEq, Repr

def checkedAdd (a b : ℕ) : Except Overflow ℕ :=
  if a + b < 2 ^ 64 then .ok (a + b) else .error .overflow

def checkedDiv (a b : ℕ) : Except Overflow ℕ := if b = 0 then .error .overflow else .ok (a / b)

def divCeil (a b : ℕ) : Except Overflow ℕ := do
  let d ← checkedDiv a b
  if a % b = 0 then return d else checkedAdd d 1

/-- `readRanges` in 64 bits. -/
def readRangesChecked (count : ℕ) (chunks : List ℕ) : List ℤ → Except Overflow (Option (List ℕ))
  | start :: n :: pairs =>
    if start < 0 ∨ n < 0 ∨ start.toNat % chunkBytes ≠ 0 ∨ n.toNat = 0 then .ok none
    else do
      let first ← checkedDiv start.toNat chunkBytes
      let last ← checkedAdd first n.toNat
      if count < last ∨ ∃ l ∈ chunks.getLast?, first ≤ l then return none
      else readRangesChecked count (chunks ++ List.range' first (last - first)) pairs
  | _ => .ok (some chunks)

/-- `readRequest` in 64 bits. -/
def readRequestChecked (wire : RequestWire) (sizes : List ℕ) : Except Overflow (Option Request) :=
  if wire.index < 0 then .ok none
  else match sizes[wire.index.toNat]? with
  | none => .ok none
  | some size =>
    if size = 0 then .ok none
    else do
      let count ← divCeil size chunkBytes
      match wire.ranges.getD [] with
      | [] => return some ⟨wire.index.toNat, List.range count⟩
      | first :: pairs =>
        if first ≠ chunkBytes ∨ pairs = [] ∨ pairs.length % 2 ≠ 0 then return none
        else
          let chunks ← readRangesChecked count [] pairs
          return chunks.map fun chunks => ⟨wire.index.toNat, chunks⟩

theorem checkedAdd_eq {a b : ℕ} (h : a + b < 2 ^ 64) : checkedAdd a b = .ok (a + b) := if_pos h

theorem divCeil_eq {size : ℕ} (h : size < 2 ^ 64) : divCeil size chunkBytes = .ok (count size) := by
  have hdiv : checkedDiv size chunkBytes = .ok (size / chunkBytes) := if_neg (by decide)
  rw [divCeil, hdiv]
  change (if size % chunkBytes = 0 then Except.ok (size / chunkBytes) else _) = _
  unfold count chunkBytes
  split_ifs with hmod
  · congr 1
    omega
  · rw [checkedAdd_eq (by omega)]
    congr 1
    omega

/-- A start and a count that can be meant are added as they are. -/
theorem readRangesChecked_cons (count : ℕ) (chunks : List ℕ) {start n : ℤ} (pairs : List ℤ)
    (hpair : 0 ≤ start ∧ 0 ≤ n ∧ start % chunkBytes = 0 ∧ n ≠ 0) (hstart : start < 2 ^ 63)
    (hn : n < 2 ^ 63) :
    readRangesChecked count chunks (start :: n :: pairs) =
      let first := start.toNat / chunkBytes
      if count < first + n.toNat ∨ ∃ l ∈ chunks.getLast?, first ≤ l then .ok none
      else readRangesChecked count (chunks ++ List.range' first n.toNat) pairs := by
  have hdiv : checkedDiv start.toNat chunkBytes = .ok (start.toNat / chunkBytes) :=
    if_neg (by decide)
  have hfit : start.toNat / chunkBytes + n.toNat < 2 ^ 64 := by
    have := Nat.div_le_self start.toNat chunkBytes
    omega
  have hgood : ¬ (start < 0 ∨ n < 0 ∨ start.toNat % chunkBytes ≠ 0 ∨ n.toNat = 0) := by
    unfold chunkBytes at *
    omega
  rw [readRangesChecked, if_neg hgood, hdiv]
  change (checkedAdd _ _ >>= fun last => _) = _
  rw [checkedAdd_eq hfit]
  change ite _ _ (readRangesChecked _ (_ ++ List.range' _ (_ + _ - _)) _) = _
  rw [Nat.add_sub_cancel_left]
  rfl

theorem readRangesChecked_eq (count : ℕ) (chunks : List ℕ) {pairs : List ℤ}
    (h : ∀ i ∈ pairs, -2 ^ 63 ≤ i ∧ i < 2 ^ 63) :
    readRangesChecked count chunks pairs = .ok (readRanges count chunks pairs) := by
  fun_induction readRanges count chunks pairs with
  | case1 chunks start n pairs hpair first hbad =>
    rw [List.forall_mem_cons, List.forall_mem_cons] at h
    rw [readRangesChecked_cons count chunks pairs hpair h.1.2 h.2.1.2]
    exact if_pos hbad
  | case2 chunks start n pairs hpair first hlast ih =>
    rw [List.forall_mem_cons, List.forall_mem_cons] at h
    rw [readRangesChecked_cons count chunks pairs hpair h.1.2 h.2.1.2]
    exact (if_neg hlast).trans (ih h.2.2)
  | case3 chunks start n pairs hpair =>
    have hbad : start < 0 ∨ n < 0 ∨ start.toNat % chunkBytes ≠ 0 ∨ n.toNat = 0 := by
      unfold chunkBytes at *
      omega
    rw [readRangesChecked, if_pos hbad]
  | case4 chunks pairs hpairs =>
    unfold readRangesChecked
    split
    · rename_i start n pairs
      exact absurd rfl (hpairs start n pairs)
    · rfl

theorem readRequestChecked_eq {wire : RequestWire} (hwire : wire.Fits) {sizes : List ℕ}
    (hsizes : ∀ size ∈ sizes, size < 2 ^ 64) :
    readRequestChecked wire sizes = .ok (readRequest wire sizes) := by
  unfold readRequestChecked readRequest
  by_cases hindex : wire.index < 0
  · rw [if_pos hindex, guard, if_neg (by omega)]
    rfl
  rw [if_neg hindex, guard, if_pos (by omega)]
  cases hsize : sizes[wire.index.toNat]? with
  | none => rfl
  | some size =>
    by_cases hzero : size = 0
    · subst hzero
      rfl
    have hlt := hsizes size (List.mem_of_getElem? hsize)
    dsimp only
    rw [if_neg hzero, divCeil_eq hlt]
    simp only [Option.pure_def, Option.bind_eq_bind, Option.bind_some, guard, ne_eq, hzero,
      not_false_eq_true, if_true]
    change (match wire.ranges.getD [] with | [] => _ | first :: pairs => _) = _
    cases hranges : wire.ranges.getD [] with
    | nil => rfl
    | cons first pairs =>
      have hfits : ∀ i ∈ pairs, -2 ^ 63 ≤ i ∧ i < 2 ^ 63 := by
        cases hr : wire.ranges with
        | none => simp [hr] at hranges
        | some r =>
          rw [hr, Option.getD_some] at hranges
          intro i hi
          exact hwire.ranges r hr i (hranges ▸ List.mem_cons_of_mem _ hi)
      dsimp only
      rw [readRangesChecked_eq _ _ hfits]
      by_cases hfirst : first = chunkBytes ∧ pairs ≠ [] ∧ pairs.length % 2 = 0
      · rw [if_neg (by tauto), if_pos hfirst]
        cases readRanges (count size) [] pairs <;> rfl
      · rw [if_pos (by tauto), if_neg hfirst]
        rfl

end Checked

section Ranges

/-- Ranges of chunks of a file of `count`, as a first chunk and a number of chunks: none empty, none
past the end, each after the one before. -/
structure Ranges (count : ℕ) (rs : List (ℕ × ℕ)) : Prop where
  pos : ∀ r ∈ rs, 1 ≤ r.2
  within : ∀ r ∈ rs, r.1 + r.2 ≤ count
  apart : rs.IsChain fun a b => a.1 + a.2 ≤ b.1

/-- The ranges as a request lists them, by position. -/
def spell (rs : List (ℕ × ℕ)) : List ℤ := rs.flatMap fun r => [(r.1 * chunkBytes : ℕ), r.2]

def chunksOf (rs : List (ℕ × ℕ)) : List ℕ := rs.flatMap fun r => List.range' r.1 r.2

theorem length_spell (rs : List (ℕ × ℕ)) : (spell rs).length % 2 = 0 := by
  induction rs with
  | nil => rfl
  | cons r rs ih =>
    rw [spell, List.flatMap_cons, List.length_append]
    rw [spell] at ih
    simp only [List.length_cons, List.length_nil]
    omega

theorem getLast?_append_range' (chunks : List ℕ) {first n : ℕ} (hn : 1 ≤ n) :
    (chunks ++ List.range' first n).getLast? = some (first + n - 1) := by
  obtain ⟨m, rfl⟩ : ∃ m, n = m + 1 := ⟨n - 1, by omega⟩
  rw [List.range'_concat, ← List.append_assoc, List.getLast?_concat]
  simp

theorem readRanges_spell (n : ℕ) (rs : List (ℕ × ℕ)) (h : Ranges n rs) (chunks : List ℕ)
    (hlast : ∀ l ∈ chunks.getLast?, ∀ r ∈ rs.head?, l < r.1) :
    readRanges n chunks (spell rs) = some (chunks ++ chunksOf rs) := by
  induction rs generalizing chunks with
  | nil => simp [spell, chunksOf, readRanges]
  | cons r rs ih =>
    obtain ⟨hpos, hwithin, hapart⟩ := h
    rw [List.forall_mem_cons] at hpos hwithin
    rw [List.isChain_cons] at hapart
    have hpair : (0 : ℤ) ≤ (r.1 * chunkBytes : ℕ) ∧ (0 : ℤ) ≤ r.2 ∧
        ((r.1 * chunkBytes : ℕ) : ℤ) % chunkBytes = 0 ∧ (r.2 : ℤ) ≠ 0 := by
      refine ⟨by omega, by omega, ?_, by omega⟩
      exact_mod_cast Nat.mul_mod_left r.1 chunkBytes
    have hfirst : r.1 * chunkBytes / chunkBytes = r.1 := Nat.mul_div_cancel r.1 (by decide)
    have hgood : ¬ (n < r.1 + r.2 ∨ ∃ l ∈ chunks.getLast?, r.1 ≤ l) := by
      rintro (hlt | ⟨l, hl, hle⟩)
      · exact absurd hwithin.1 (by omega)
      · exact absurd (hlast l hl r rfl) (by omega)
    have hnext : ∀ l ∈ (chunks ++ List.range' r.1 r.2).getLast?, ∀ r' ∈ rs.head?, l < r'.1 := by
      intro l hl r' hr'
      rw [getLast?_append_range' chunks hpos.1] at hl
      obtain rfl := Option.some.inj hl
      have := hapart.1 r' hr'
      omega
    rw [spell, List.flatMap_cons, List.cons_append, List.cons_append, List.nil_append, readRanges,
      if_pos hpair]
    simp only [Int.toNat_natCast, hfirst]
    rw [if_neg hgood]
    have hrest := ih ⟨hpos.2, hwithin.2, hapart.2⟩ (chunks ++ List.range' r.1 r.2) hnext
    rw [spell] at hrest
    rw [hrest, chunksOf, chunksOf, List.flatMap_cons, List.append_assoc]

/-- What is taken is a list of ranges, each after the chunks before it. -/
theorem ranges_of_readRanges {n : ℕ} {chunks out : List ℕ} {pairs : List ℤ}
    (heven : pairs.length % 2 = 0) (h : readRanges n chunks pairs = some out) :
    ∃ rs, Ranges n rs ∧ pairs = spell rs ∧ ∀ l ∈ chunks.getLast?, ∀ r ∈ rs.head?, l < r.1 := by
  fun_induction readRanges n chunks pairs with
  | case1 => cases h
  | case2 chunks start len pairs hpair first hgood ih =>
    push Not at hgood
    obtain ⟨hwithin, hlast⟩ := hgood
    obtain ⟨rs, hrs, rfl, hnext⟩ :=
      ih (by rw [List.length_cons, List.length_cons] at heven; omega) h
    obtain ⟨hstart, hlen, hmod, hne⟩ := hpair
    have hpos : 1 ≤ len.toNat := by omega
    refine ⟨(first, len.toNat) :: rs, ⟨?_, ?_, ?_⟩, ?_, ?_⟩
    · exact List.forall_mem_cons.mpr ⟨hpos, hrs.pos⟩
    · exact List.forall_mem_cons.mpr ⟨hwithin, hrs.within⟩
    · refine List.isChain_cons.mpr ⟨fun r hr => ?_, hrs.apart⟩
      have := hnext _ (getLast?_append_range' chunks hpos) r hr
      dsimp only
      omega
    · have hspell : spell ((first, len.toNat) :: rs) =
          ((first * chunkBytes : ℕ) : ℤ) :: ((len.toNat : ℕ) : ℤ) :: spell rs := rfl
      have hfirst : ((first * chunkBytes : ℕ) : ℤ) = start := by
        have hle : start.toNat % chunkBytes = 0 := by
          unfold chunkBytes at *
          omega
        have := Nat.div_add_mod start.toNat chunkBytes
        have hcomm : first * chunkBytes = chunkBytes * (start.toNat / chunkBytes) :=
          Nat.mul_comm _ _
        omega
      have hcount : ((len.toNat : ℕ) : ℤ) = len := by omega
      rw [hspell, hfirst, hcount]
    · intro l hl r hr
      obtain rfl := Option.some.inj hr
      exact hlast l hl
  | case3 => cases h
  | case4 pairs chunks hpairs =>
    cases pairs with
    | nil => exact ⟨[], ⟨by simp, by simp, .nil⟩, rfl, by simp⟩
    | cons start rest =>
      cases rest with
      | nil => simp at heven
      | cons len rest => exact absurd rfl (hpairs start len rest)

theorem spell_ne_nil {rs : List (ℕ × ℕ)} : spell rs ≠ [] ↔ rs ≠ [] := by
  cases rs <;> simp [spell]

theorem spell_injective {rs ts : List (ℕ × ℕ)} (h : spell rs = spell ts) : rs = ts := by
  have hcons : ∀ (r : ℕ × ℕ) rs, spell (r :: rs) = ((r.1 * chunkBytes : ℕ) : ℤ) ::
      (r.2 : ℤ) :: spell rs :=
    fun _ _ => rfl
  induction rs generalizing ts with
  | nil =>
    cases ts with
    | nil => rfl
    | cons t ts => cases h
  | cons r rs ih =>
    cases ts with
    | nil => cases h
    | cons t ts =>
      rw [hcons, hcons] at h
      simp only [List.cons.injEq, Nat.cast_inj] at h
      obtain ⟨hfirst, hlen, hrest⟩ := h
      rw [ih hrest, Prod.ext (Nat.eq_of_mul_eq_mul_right (by decide) hfirst) hlen]

theorem readRanges_eq_some {n : ℕ} {pairs : List ℤ} (heven : pairs.length % 2 = 0) {out : List ℕ} :
    readRanges n [] pairs = some out ↔ ∃ rs, Ranges n rs ∧ pairs = spell rs ∧
    out = chunksOf rs := by
  constructor
  · intro h
    obtain ⟨rs, hrs, rfl, -⟩ := ranges_of_readRanges heven h
    rw [readRanges_spell n rs hrs [] (by simp)] at h
    exact ⟨rs, hrs, rfl, (Option.some.inj h).symm⟩
  · rintro ⟨rs, hrs, rfl, rfl⟩
    exact readRanges_spell n rs hrs [] (by simp)

variable {wire : RequestWire} {sizes : List ℕ} {size : ℕ} {r : Request}

def Names (wire : RequestWire) (sizes : List ℕ) (size : ℕ) : Prop :=
  0 ≤ wire.index ∧ sizes[wire.index.toNat]? = some size ∧ 0 < size

def Unranged (wire : RequestWire) : Prop := wire.ranges = none ∨ wire.ranges = some []

/-- They are the size of a chunk, and then these ranges. -/
def Ranged (wire : RequestWire) (rs : List (ℕ × ℕ)) : Prop :=
  rs ≠ [] ∧ wire.ranges = some ((chunkBytes : ℤ) :: spell rs)

theorem unranged_iff : Unranged wire ↔ wire.ranges.getD [] = [] := by
  unfold Unranged
  cases wire.ranges <;> simp

theorem readRequest_eq_some : readRequest wire sizes = some r ↔
    ∃ size, Names wire sizes size ∧ r.index = wire.index.toNat ∧
      (Unranged wire ∧ r.chunks = List.range (count size) ∨
        ∃ rs, Ranged wire rs ∧ Ranges (count size) rs ∧ r.chunks = chunksOf rs) := by
  have hguard : ∀ {p : Prop} [Decidable p] {u : Unit}, guard (f := Option) p = some u ↔ p := by
    intro p _ u
    unfold guard
    split_ifs with hp <;> simp [hp]
  unfold readRequest
  simp only [Option.bind_eq_bind, Option.bind_eq_some_iff, hguard, exists_const]
  constructor
  · rintro ⟨hindex, size, hsize, hne, h⟩
    refine ⟨size, ⟨hindex, hsize, Nat.pos_of_ne_zero hne⟩, ?_⟩
    split at h
    · rename_i hranges
      obtain rfl := Option.some.inj h
      exact ⟨rfl, Or.inl ⟨unranged_iff.mpr hranges, rfl⟩⟩
    · rename_i first pairs hranges
      obtain ⟨_, hg, h⟩ := Option.bind_eq_some_iff.mp h
      obtain ⟨hfirst, hpairs, heven⟩ := hguard.mp hg
      obtain ⟨chunks, hchunks, h⟩ := Option.bind_eq_some_iff.mp h
      obtain rfl := Option.some.inj h
      obtain ⟨rs, hrs, rfl, rfl⟩ := (readRanges_eq_some heven).mp hchunks
      refine ⟨rfl, Or.inr ⟨rs, ⟨spell_ne_nil.mp hpairs, ?_⟩, hrs, rfl⟩⟩
      cases hr : wire.ranges with
      | none => simp [hr] at hranges
      | some l => rw [hr, Option.getD_some] at hranges; rw [hranges, hfirst]
  · rintro ⟨size, ⟨hindex, hsize, hpos⟩, hi, h⟩
    refine ⟨hindex, size, hsize, Nat.pos_iff_ne_zero.mp hpos, ?_⟩
    obtain ⟨i, chunks⟩ := r
    obtain rfl : i = wire.index.toNat := hi
    rcases h with ⟨hun, rfl⟩ | ⟨rs, ⟨hne, hranges⟩, hrs, rfl⟩
    · rw [unranged_iff.mp hun]
      rfl
    · rw [hranges, Option.getD_some]
      dsimp only
      rw [(hguard (u := ())).mpr ⟨rfl, spell_ne_nil.mpr hne, length_spell rs⟩, Option.bind_some,
        (readRanges_eq_some (length_spell rs)).mpr ⟨rs, hrs, rfl, rfl⟩]
      rfl

theorem Ranged.not_unranged {rs : List (ℕ × ℕ)} (h : Ranged wire rs) : ¬ Unranged wire := by
  rw [Unranged, h.2]
  rintro (h | h) <;> cases h

theorem Ranged.unique {rs ts : List (ℕ × ℕ)} (h : Ranged wire rs) (h' : Ranged wire ts) :
    rs = ts := by
  have heq := Option.some.inj (h.2.symm.trans h'.2)
  exact spell_injective (List.cons.inj heq).2

theorem mem_chunksOf {rs : List (ℕ × ℕ)} {k : ℕ} :
    k ∈ chunksOf rs ↔ ∃ p ∈ rs, p.1 ≤ k ∧ k < p.1 + p.2 := by
  simp [chunksOf, List.mem_flatMap, List.mem_range'_1]

end Ranges

theorem fits_writeRequest (i : ℕ) : (writeRequest i).Fits := by
  refine ⟨?_, ?_, ?_⟩
  · simp only [writeRequest]
    omega
  · simp [writeRequest]
  · simp [writeRequest]

/-- A request off the wire, against our list of sizes. -/
def readRequestBytes (parse : Bytes → Option Json) (json : Bytes) (sizes : List UInt64) :
    Except Overflow (Option Request) :=
  match (parse json).bind RequestWire.read with
  | none => .ok none
  | some wire => readRequestChecked wire (sizes.map UInt64.toNat)

/-- A request is taken exactly if it names a file with bytes and its ranges are in order and inside
the file; then it is for the chunks of its ranges, each once and in order, or for all. Nothing
overflows, and our own request is for the whole file. -/
theorem readRequest_exact (parse : Bytes → Option Json) (print : Json → Bytes)
    (hprint : ∀ i, parse (print (writeRequest i).toJson) = some (writeRequest i).toJson)
    (sizes : List UInt64) :
    (∀ json wire, (parse json).bind RequestWire.read = some wire →
      ∃ answer, readRequestBytes parse json sizes = .ok answer ∧
        (answer.isSome ↔ ∃ size, Names wire (sizes.map UInt64.toNat) size ∧
          (Unranged wire ∨ ∃ rs, Ranged wire rs ∧ Ranges (count size) rs)) ∧
        ∀ r, answer = some r → ∃ size, Names wire (sizes.map UInt64.toNat) size ∧
          r.index = wire.index.toNat ∧ r.chunks.Pairwise (· < ·) ∧
          (∀ k ∈ r.chunks, k < count size) ∧ (Unranged wire → ∀ k, k ∈ r.chunks ↔ k < count size) ∧
          ∀ rs, Ranged wire rs → ∀ k, k ∈ r.chunks ↔ ∃ p ∈ rs, p.1 ≤ k ∧ k < p.1 + p.2) ∧
    (sizes.length < 2 ^ 63 → ∀ i size, sizes[i]? = some size → size ≠ 0 →
      readRequestBytes parse (print (writeRequest i).toJson) sizes =
        .ok (some ⟨i, List.range (count size.toNat)⟩)) := by
  have hsizes : ∀ size ∈ sizes.map UInt64.toNat, size < 2 ^ 64 := by
    simp only [List.mem_map]
    rintro _ ⟨size, -, rfl⟩
    exact size.toNat_lt
  constructor
  · intro json wire hwire
    obtain ⟨v, -, hread⟩ := Option.bind_eq_some_iff.mp hwire
    have hfits := RequestWire.fits_of_read hread
    refine ⟨readRequest wire (sizes.map UInt64.toNat), ?_, ?_, ?_⟩
    · rw [readRequestBytes, hwire]
      exact readRequestChecked_eq hfits hsizes
    · rw [Option.isSome_iff_exists]
      constructor
      · rintro ⟨r, hr⟩
        obtain ⟨size, hsize, -, h⟩ := readRequest_eq_some.mp hr
        exact ⟨size, hsize, h.imp And.left fun ⟨rs, hranged, hrs, _⟩ => ⟨rs, hranged, hrs⟩⟩
      · rintro ⟨size, hsize, hun | ⟨rs, hranged, hrs⟩⟩
        · exact ⟨⟨_, _⟩, readRequest_eq_some.mpr ⟨size, hsize, rfl, Or.inl ⟨hun, rfl⟩⟩⟩
        · exact ⟨⟨_, _⟩, readRequest_eq_some.mpr ⟨size, hsize, rfl, Or.inr ⟨rs, hranged, hrs, rfl⟩⟩⟩
    · intro r hr
      obtain ⟨size, hsize, hindex, h⟩ := readRequest_eq_some.mp hr
      obtain ⟨size', hsize', -, horder⟩ := readRequest_inOrder hr
      obtain rfl : size' = size := by
        rw [hindex, hsize.2.1] at hsize'
        exact (Option.some.inj hsize').symm
      refine ⟨size', hsize, hindex, horder.1, horder.2, ?_, ?_⟩
      · intro hun k
        rcases h with ⟨-, hchunks⟩ | ⟨rs, hranged, -⟩
        · rw [hchunks, List.mem_range]
        · exact absurd hun hranged.not_unranged
      · intro rs hranged k
        rcases h with ⟨hun, -⟩ | ⟨ts, hts, -, hchunks⟩
        · exact absurd hun hranged.not_unranged
        · rw [hchunks, mem_chunksOf, hts.unique hranged]
  · intro hlen i size hsize hne
    have hi : i < 2 ^ 63 := Nat.lt_trans (List.getElem?_eq_some_iff.mp hsize).1 hlen
    have hfits := fits_writeRequest i
    have hread : (parse (print (writeRequest i).toJson)).bind RequestWire.read =
        some (writeRequest i) := by
      rw [hprint, Option.bind_some, RequestWire.read_toJson hfits]
    have hne' : size.toNat ≠ 0 := fun h => hne (UInt64.toNat_inj.mp h)
    rw [readRequestBytes, hread]
    dsimp only
    rw [readRequestChecked_eq hfits hsizes,
      readRequest_writeRequest (by rw [List.getElem?_map, hsize]; rfl) hne' hi]

section Text

/-- The text of our own requests, before and after the index. -/
def requestHead : Str :=
  "\x7b\"CurrentFileChunkRanges\":[],\"FilesToTransferCurrentNum\":".toList

def requestTail : Str := ",\"MachineID\":\"\",\"ReconnectVersion\":0\x7d".toList

def printRequest (v : Json) : Bytes :=
  match RequestWire.read v with
  | some w => utf8 (requestHead ++ (Nat.toDigits 10 w.index.toNat ++ requestTail))
  | none => []

def parseRequest (json : Bytes) : Option Json := do
  let text ← json.toByteArray.utf8Decode?
  guard (text.toList.take requestHead.length = requestHead)
  let rest := text.toList.drop requestHead.length
  let digits := rest.takeWhile Char.isDigit
  guard (rest.drop digits.length = requestTail)
  let w : RequestWire := { ranges := some [], index := Nat.ofDigitChars 10 digits 0 }
  return w.toJson

theorem parseRequest_printRequest (i : ℕ) :
    parseRequest (printRequest (writeRequest i).toJson) = some (writeRequest i).toJson := by
  set n := (writeRequest i).index.toNat with hn
  have hindex : (writeRequest i).index = n := by
    simp only [hn, writeRequest]
    omega
  set text := requestHead ++ (Nat.toDigits 10 n ++ requestTail) with ht
  have htext : (utf8 text).toByteArray.utf8Decode? = some text.toArray :=
    List.utf8Decode?_utf8Encode
  have hhead : text.take requestHead.length = requestHead := List.take_left' rfl
  have hrest : text.drop requestHead.length = Nat.toDigits 10 n ++ requestTail :=
    List.drop_left' rfl
  have hdigits : (Nat.toDigits 10 n ++ requestTail).takeWhile Char.isDigit = Nat.toDigits 10 n := by
    have htail : requestTail.takeWhile Char.isDigit = [] := by decide +kernel
    rw [List.takeWhile_append_of_pos (List.all_eq_true.mp (all_isDigit_toDigits n)), htail,
      List.append_nil]
  have htail : (Nat.toDigits 10 n ++ requestTail).drop (Nat.toDigits 10 n).length = requestTail :=
    List.drop_left' rfl
  have hvalue : Nat.ofDigitChars 10 (Nat.toDigits 10 n) 0 = n :=
    Nat.ofDigitChars_toDigits (by decide) (by decide)
  rw [printRequest, RequestWire.read_toJson (fits_writeRequest i)]
  simp only [← hn, ← ht, parseRequest, htext, Option.bind_eq_bind, Option.bind_some, hhead,
    hrest, hdigits, htail, hvalue, guard, if_true, Option.pure_def]
  rw [← hindex]
  rfl

/-- The second of two files, of two chunks. -/
theorem readRequest_exact_second :
    readRequestBytes parseRequest (printRequest (writeRequest 1).toJson) [0, 40000] =
      .ok (some ⟨1, [0, 1]⟩) :=
  (readRequest_exact parseRequest printRequest parseRequest_printRequest [0, 40000]).2 (by decide) 1
    40000 rfl (by decide)

end Text

end Sukkula.Croc
