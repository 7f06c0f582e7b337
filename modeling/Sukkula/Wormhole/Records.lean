import Sukkula.Library.BigEndian
import Sukkula.Library.Reads

/-! # The records of a transit connection

The peer's bytes go to the library through `forward_records`: the handshake as it
is, and then only records of at most `MAX_RECORD_WIRE_BYTES`. What is written is
the stream up to where a walk over its records stops, however it was cut into
reads. Writes to the library succeed.
-/

namespace Sukkula.Wormhole.Records

open Reads

def maxRecordWireBytes : ℕ := 4 * 1024 * 1024 + 24 + 16

def copyBytes : ℕ := 16 * 1024

/-- The two ends of the splice: what comes from the peer, and what the library was given. -/
structure Splice where
  peer : Stream UInt8
  out : Bytes

def copyExact (s : Splice) (n : ℕ) : Except String Unit × Splice :=
  if n = 0 then (.ok (), s)
  else
    match s.peer.read (min n copyBytes) with
    | .error () => (.error "peer read", s)
    | .ok (data, peer) =>
      if 0 < data.length then copyExact ⟨peer, s.out ++ data⟩ (n - data.length)
      else (.error "peer closed mid-record", ⟨peer, s.out⟩)
termination_by n
decreasing_by omega

theorem copyExact_eq (s : Splice) (n : ℕ) : ∃ peer : Stream UInt8,
    copyExact s n = ((copyExact s n).1, ⟨peer, s.out ++ s.peer.rest.take n⟩) ∧ peer.rest =
    s.peer.rest.drop n ∧
      ((copyExact s n).1 = .ok () ↔ n ≤ s.peer.rest.length) := by
  induction n using Nat.strongRecOn generalizing s with
  | _ n ih =>
    rcases Nat.eq_zero_or_pos n with rfl | hn
    · rw [copyExact, if_pos rfl]
      exact ⟨s.peer, by simp, rfl, by simp⟩
    · by_cases hs : s.peer.rest = []
      · rw [copyExact, if_neg hn.ne', Stream.read_nil hs]
        cases s.peer.failed <;> exact ⟨s.peer, by simp [hs], by simp [hs], by simp [hs, hn.ne']⟩
      · have hwant : 0 < min n copyBytes := lt_min hn (by decide)
        obtain ⟨k, t, hk, hkn, hkl, hread, ht⟩ := Stream.exists_read hs hwant
        have hlen : (s.peer.rest.take k).length = k := List.length_take_of_le hkl
        have hkn : k ≤ n := hkn.trans (min_le_left _ _)
        have hcopy : copyExact s n = copyExact ⟨t, s.out ++ s.peer.rest.take k⟩ (n - k) := by
          rw [copyExact, if_neg hn.ne', hread]
          simp only [hlen, if_pos hk]
        obtain ⟨u, hu, hrest, hiff⟩ := ih (n - k) (by omega) ⟨t, s.out ++ s.peer.rest.take k⟩
        rw [hcopy]
        refine ⟨u, ?_, ?_, ?_⟩
        · rw [hu, ht, List.append_assoc, ← List.take_add, Nat.add_sub_cancel' hkn]
        · rw [hrest, ht, List.drop_drop, Nat.add_sub_cancel' hkn]
        · rw [hiff, ht, List.length_drop]
          omega

theorem copyExact_of_le {s : Splice} {n : ℕ} (h : n ≤ s.peer.rest.length) : ∃ peer : Stream UInt8,
    copyExact s n = (.ok (), ⟨peer, s.out ++ s.peer.rest.take n⟩) ∧ peer.rest =
    s.peer.rest.drop n := by
  obtain ⟨peer, hcopy, hpeer, hok⟩ := copyExact_eq s n
  rw [hok.mpr h] at hcopy
  exact ⟨peer, hcopy, hpeer⟩

theorem copyExact_of_lt {s : Splice} {n : ℕ} (h : s.peer.rest.length < n) :
    ∃ (e : String) (peer : Stream UInt8), copyExact s n =
    (.error e, ⟨peer, s.out ++ s.peer.rest.take n⟩) := by
  obtain ⟨peer, hcopy, -, hok⟩ := copyExact_eq s n
  cases hx : (copyExact s n).1 with
  | error e =>
    rw [hx] at hcopy
    exact ⟨e, peer, hcopy⟩
  | ok u => exact absurd (hok.mp hx) (Nat.not_le.mpr h)

theorem length_of_record {s s' : Splice} {header : Bytes} {peer : Stream UInt8}
    {x : Except String Unit} (hread : s.peer.readExact 4 = some (header, peer))
    (hcopy : copyExact ⟨peer, s.out ++ header⟩ (BigEndian.value header) = (x, s')) :
    s'.peer.rest.length < s.peer.rest.length := by
  have hle : 4 ≤ s.peer.rest.length := by
    by_contra hlt
    rw [Stream.readExact_of_lt (Nat.not_le.mp hlt)] at hread
    cases hread
  obtain ⟨t, ht, hrest⟩ := Stream.readExact_of_le hle
  obtain ⟨rfl, rfl⟩ : s.peer.rest.take 4 = header ∧ t = peer := by simpa using ht.symm.trans hread
  obtain ⟨u, hu, hrest', -⟩ :=
    copyExact_eq ⟨t, s.out ++ s.peer.rest.take 4⟩ (BigEndian.value (s.peer.rest.take 4))
  rw [hcopy] at hu
  rw [(Prod.mk.inj hu).2, hrest', hrest, List.length_drop, List.length_drop]
  omega

/-- The loop of `forward_records`. -/
def records (s : Splice) : Except String Unit × Splice :=
  match _hread : s.peer.readExact 4 with
  -- the peer is done, or cut off in a header
  | none => (.ok (), s)
  | some (header, peer) =>
    if maxRecordWireBytes < BigEndian.value header then
      (.error "oversized transit record", ⟨peer, s.out⟩)
    else
      match _hcopy : copyExact ⟨peer, s.out ++ header⟩ (BigEndian.value header) with
      | (.error e, s') => (.error e, s')
      | (.ok (), s') => records s'
termination_by s.peer.rest.length
decreasing_by exact length_of_record _hread _hcopy

def forwardRecords (s : Splice) (handshake : ℕ) : Except String Unit × Splice :=
  match copyExact s handshake with
  | (.error e, s') => (.error e, s')
  | (.ok (), s') => records s'

section Walk

variable {s : Bytes} {i : ℕ}

/-- The length that the header at `i` denotes. -/
def lengthAt (s : Bytes) (i : ℕ) : ℕ := BigEndian.value ((s.drop i).take 4)

/-- The records of `s` from `i` on: where each header is, and the length it denotes. -/
def walk (s : Bytes) (i : ℕ) : List (ℕ × ℕ) :=
  if i + 4 ≤ s.length then (i, lengthAt s i) :: walk s (i + 4 + lengthAt s i) else []
termination_by s.length - i

/-- Where the walk over the records comes to the end of `s`, or to an incomplete header. -/
def stop (s : Bytes) (i : ℕ) : ℕ := if i + 4 ≤ s.length then stop s (i + 4 + lengthAt s i) else i
termination_by s.length - i

/-- Where the walk comes to the first record that is too long, or else stops. -/
def cut (s : Bytes) (i : ℕ) : ℕ :=
  ((walk s i).find? fun record => maxRecordWireBytes < record.2).elim (stop s i) Prod.fst

theorem walk_of_le (h : i + 4 ≤ s.length) :
    walk s i = (i, lengthAt s i) :: walk s (i + 4 + lengthAt s i) := by
  rw [walk, if_pos h]

theorem walk_of_lt (h : s.length < i + 4) : walk s i = [] := by
  rw [walk, if_neg (Nat.not_le.mpr h)]

theorem cut_of_lt (h : s.length < i + 4) : cut s i = i := by
  rw [cut, walk_of_lt h, stop, if_neg (Nat.not_le.mpr h)]
  rfl

theorem cut_of_long (h : i + 4 ≤ s.length) (hlong : maxRecordWireBytes < lengthAt s i) :
    cut s i = i := by
  rw [cut, walk_of_le h, List.find?_cons_of_pos (by simpa using hlong)]
  rfl

theorem cut_of_le (h : i + 4 ≤ s.length) (hlen : lengthAt s i ≤ maxRecordWireBytes) :
    cut s i = cut s (i + 4 + lengthAt s i) := by
  rw [cut, walk_of_le h, List.find?_cons_of_neg (by simpa using hlen), stop, if_pos h]
  rfl

theorem length_lt_stop (s : Bytes) (i : ℕ) : s.length < stop s i + 4 := by
  fun_induction stop s i with
  | case1 i hle ih => exact ih
  | case2 i hlt => exact Nat.lt_of_not_le hlt

theorem le_of_mem_walk {record : ℕ × ℕ} (h : record ∈ walk s i) : i ≤ record.1 := by
  fun_induction walk s i with
  | case1 i hle ih =>
    rcases List.mem_cons.mp h with rfl | h
    · exact le_rfl
    · exact (by omega : i ≤ i + 4 + lengthAt s i).trans (ih h)
  | case2 i hlt => cases h

theorem le_stop (s : Bytes) (i : ℕ) : i ≤ stop s i := by
  fun_induction stop s i with
  | case1 i hle ih => exact (by omega : i ≤ i + 4 + lengthAt s i).trans ih
  | case2 i hlt => exact le_rfl

theorem le_cut (s : Bytes) (i : ℕ) : i ≤ cut s i := by
  unfold cut
  cases h : (walk s i).find? fun record => maxRecordWireBytes < record.2 with
  | none => exact le_stop s i
  | some record => exact le_of_mem_walk (List.mem_of_find?_eq_some h)

/-- What is written, walked over again: it has no record that is too long. -/
theorem walk_take_cut (s : Bytes) (i : ℕ) :
    ∀ record ∈ walk (s.take (cut s i)) i, record.2 ≤ maxRecordWireBytes := by
  fun_induction walk s i with
  | case1 i hle ih =>
    by_cases hlong : maxRecordWireBytes < lengthAt s i
    · rw [cut_of_long hle hlong, walk_of_lt (by rw [List.length_take]; omega)]
      nofun
    · have hlen := Nat.le_of_not_lt hlong
      have hcut := cut_of_le hle hlen
      have hi := le_cut s (i + 4 + lengthAt s i)
      rw [hcut]
      have hat : lengthAt (s.take (cut s (i + 4 + lengthAt s i))) i = lengthAt s i := by
        rw [lengthAt, List.drop_take, List.take_take, min_eq_left (by omega), lengthAt]
      rw [walk_of_le (by rw [List.length_take]; omega), hat]
      intro record hrecord
      rcases List.mem_cons.mp hrecord with rfl | hrecord
      · exact hlen
      · exact ih record hrecord
  | case2 i hlt =>
    rw [walk_of_lt]
    · nofun
    · exact (List.length_take_le' _ _).trans_lt (Nat.lt_of_not_le hlt)

end Walk

theorem records_of_lt {p : Splice} (h : p.peer.rest.length < 4) : records p = (.ok (), p) := by
  have hnone := Stream.readExact_of_lt h
  rw [records]
  split
  · rfl
  · simp_all

theorem records_of_read {p : Splice} {header : Bytes} {peer : Stream UInt8}
    (hread : p.peer.readExact 4 = some (header, peer)) :
    records p =
      if maxRecordWireBytes < BigEndian.value header then
      (.error "oversized transit record", ⟨peer, p.out⟩)
      else match copyExact ⟨peer, p.out ++ header⟩ (BigEndian.value header) with
        | (.error e, p') => (.error e, p')
        | (.ok (), p') => records p' := by
  rw [records]
  split
  · simp_all
  · rename_i header' peer' hread'
    obtain ⟨rfl, rfl⟩ : header' = header ∧ peer' = peer := by simpa using hread'.symm.trans hread
    split_ifs
    · rfl
    · split <;> simp_all

theorem records_of_long {p : Splice} {header : Bytes} {peer : Stream UInt8}
    (hread : p.peer.readExact 4 = some (header, peer))
    (hlong : maxRecordWireBytes < BigEndian.value header) :
    records p = (.error "oversized transit record", ⟨peer, p.out⟩) := by
  rw [records_of_read hread, if_pos hlong]

theorem records_of_ok {p p' : Splice} {header : Bytes} {peer : Stream UInt8}
    (hread : p.peer.readExact 4 = some (header, peer))
    (hlen : BigEndian.value header ≤ maxRecordWireBytes)
    (hcopy : copyExact ⟨peer, p.out ++ header⟩ (BigEndian.value header) = (.ok (), p')) :
    records p = records p' := by
  rw [records_of_read hread, if_neg (Nat.not_lt.mpr hlen), hcopy]

theorem records_of_error {p p' : Splice} {header : Bytes} {peer : Stream UInt8} {e : String}
    (hread : p.peer.readExact 4 = some (header, peer))
    (hlen : BigEndian.value header ≤ maxRecordWireBytes)
    (hcopy : copyExact ⟨peer, p.out ++ header⟩ (BigEndian.value header) = (.error e, p')) :
    records p = (.error e, p') := by
  rw [records_of_read hread, if_neg (Nat.not_lt.mpr hlen), hcopy]

/-- The loop writes the stream up to where the walk over its records is cut. -/
theorem records_out {s : Bytes} {i : ℕ} {p : Splice} (hi : i ≤ s.length)
    (hrest : p.peer.rest = s.drop i) (hout : p.out = s.take i) :
    (records p).2.out = s.take (cut s i) := by
  induction hn : s.length - i using Nat.strongRecOn generalizing i p with
  | _ n ih =>
    have hlength : p.peer.rest.length = s.length - i := by rw [hrest, List.length_drop]
    rcases Nat.lt_or_ge s.length (i + 4) with hshort | hle
    · rw [records_of_lt (by omega), cut_of_lt hshort]
      exact hout
    · obtain ⟨peer, hread, hpeer⟩ := Stream.readExact_of_le (s := p.peer) (n := 4) (by omega)
      rw [hrest] at hread hpeer
      rcases Nat.lt_or_ge maxRecordWireBytes (lengthAt s i) with hlong | hlen
      · rw [records_of_long hread hlong, cut_of_long hle hlong]
        exact hout
      · rw [cut_of_le hle hlen]
        have hlength' : peer.rest.length = s.length - i - 4 := by
          rw [hpeer, List.length_drop, List.length_drop]
        have hbody : p.out ++ (s.drop i).take 4 ++ peer.rest.take (lengthAt s i) =
            s.take (i + 4 + lengthAt s i) := by
          rw [hout, hpeer, List.append_assoc, ← List.take_add, ← List.take_add, Nat.add_assoc]
        rcases Nat.lt_or_ge peer.rest.length (lengthAt s i) with hshort | hfits
        · obtain ⟨e, peer', hcopy⟩ :=
            copyExact_of_lt (s := ⟨peer, p.out ++ (s.drop i).take 4⟩) hshort
          rw [records_of_error hread hlen hcopy, cut_of_lt (by omega)]
          exact hbody
        · obtain ⟨peer', hcopy, hpeer'⟩ :=
            copyExact_of_le (s := ⟨peer, p.out ++ (s.drop i).take 4⟩) hfits
          rw [records_of_ok hread hlen hcopy]
          refine ih (s.length - (i + 4 + lengthAt s i)) (by omega) (by omega) ?_ hbody rfl
          rw [hpeer', hpeer, List.drop_drop, List.drop_drop, Nat.add_assoc]

theorem forwardRecords_out (s : Bytes) (cuts : List ℕ) (failed : Bool) (handshake : ℕ) :
    (forwardRecords ⟨⟨s, cuts, failed⟩, []⟩ handshake).2.out = s.take (cut s handshake) := by
  rw [forwardRecords]
  rcases Nat.lt_or_ge s.length handshake with hshort | hfits
  · obtain ⟨e, peer, hcopy⟩ := copyExact_of_lt (s := ⟨⟨s, cuts, failed⟩, []⟩) hshort
    rw [hcopy, cut_of_lt (by omega)]
    rfl
  · obtain ⟨peer, hcopy, hpeer⟩ := copyExact_of_le (s := ⟨⟨s, cuts, failed⟩, []⟩) hfits
    rw [hcopy]
    exact records_out hfits hpeer rfl

/-- However the stream is cut into reads and however it ends, the library is given the same
beginning of it: without a record that is too long, and up to the first one or to an incomplete
header. -/
theorem forwardRecords_safe (s : Bytes) (handshake : ℕ) : ∃ o, o <+: s ∧
    (∀ cuts failed, (forwardRecords ⟨⟨s, cuts, failed⟩, []⟩ handshake).2.out = o) ∧
    (∀ record ∈ walk o handshake, record.2 ≤ maxRecordWireBytes) ∧
    ((∀ record ∈ walk s handshake, record.2 ≤ maxRecordWireBytes) →
      o = s.take (stop s handshake) ∧ s.length < stop s handshake + 4) ∧
    ∀ record, (walk s handshake).find? (maxRecordWireBytes < ·.2) = some record →
    o = s.take record.1 := by
  refine ⟨s.take (cut s handshake), List.take_prefix _ _, fun cuts failed => ?_,
    walk_take_cut s handshake, fun hall => ⟨?_, length_lt_stop s handshake⟩,
    fun record hrecord => ?_⟩
  · exact forwardRecords_out s cuts failed handshake
  · have hnone : (walk s handshake).find? (fun record => maxRecordWireBytes < record.2) = none := by
      rw [List.find?_eq_none]
      intro record hrecord
      simpa using hall record hrecord
    rw [cut, hnone]
    rfl
  · rw [cut, hrecord]
    rfl

end Sukkula.Wormhole.Records
