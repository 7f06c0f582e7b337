import Sukkula.Croc.Xxh64
import Sukkula.LocalSend.Session

/-! # One file from several rooms

`receive_file` merges the chunks of a file from the data rooms. Each room holds
back one chunk at most. The relay and the sender decide which room has a frame
next, what is in it and when a room ends; a chunk that is not one the file still
needs ends the loop.
-/

namespace Sukkula.Croc

open Transition
open LocalSend (ErrorInfo)

def chunkBytes : ℕ := 32 * 1024

def maxChunkPlain : ℕ := chunkBytes + 8

/-- `PING`, the keepalive of the relay. -/
def ping : Bytes := [1]

/-- A protocol violation by the peer or the relay. -/
def protocol (what : String) : ErrorInfo := ⟨.network, what⟩

def fromLeBytes (bytes : Bytes) : ℕ := bytes.foldr (fun b acc => acc * 256 + b.toNat) 0

def count (size : ℕ) : ℕ := (size + chunkBytes - 1) / chunkBytes

/-- The bytes of chunk `k`. -/
def chunkLength (size k : ℕ) : ℕ := min chunkBytes (size - chunkBytes * k)

structure Session where
  openSealed : Bytes → Option Bytes
  compressed : Bool
  inflate : Bytes → ℕ → Option Bytes

/-- The chunk number and the bytes that a frame carries. -/
def Session.chunkOf (ses : Session) (frame : Bytes) : Except ErrorInfo (ℕ × Bytes) := do
  let some plain := ses.openSealed frame | throw (protocol "a chunk that does not decrypt")
  let some body := if ses.compressed then ses.inflate plain maxChunkPlain else some plain
    | throw (protocol "a chunk that does not inflate")
  if body.length < 8 then throw (protocol "a chunk without its position")
  let pos := fromLeBytes (body.take 8)
  if pos % chunkBytes ≠ 0 then throw (protocol "a chunk out of place")
  return (pos / chunkBytes, body.drop 8)

inductive Arrival
  | ended
  | frame (bytes : Bytes)
  deriving DecidableEq, Repr

structure Merge where
  heads : List (Option (ℕ × Bytes))
  ended : List Bool
  hash : Xxh64
  next : ℕ
  sink : Bytes
  failed : Option ErrorInfo
  -- The frames that were read, keepalives aside, the newest first.
  frames : List (ℕ × Bytes)

namespace Merge

def start (rooms : ℕ) : Merge :=
  ⟨List.replicate rooms none, List.replicate rooms false, .new, 0, [], none, []⟩

/-- The first room whose head is the next chunk, and the bytes of it. -/
def ready (m : Merge) : Option (ℕ × Bytes) :=
  m.heads.zipIdx.findSome? fun (head, i) =>
    head.bind fun (k, data) => if k = m.next then some (i, data) else none

/-- A room that is polled: nothing is held back, and it has not ended. -/
def Idle (m : Merge) (i : ℕ) : Prop := m.heads[i]? = some none ∧ m.ended[i]? = some false

instance (m : Merge) (i : ℕ) : Decidable (m.Idle i) := inferInstanceAs (Decidable (_ ∧ _))

def Waiting (m : Merge) : Prop := ∃ i < m.heads.length, m.Idle i

instance (m : Merge) : Decidable m.Waiting := inferInstanceAs (Decidable (∃ i < _, _))

def fail (m : Merge) (e : ErrorInfo) : Merge := { m with failed := some e }

def read (ses : Session) (size : ℕ) (m : Merge) (i : ℕ) : Arrival → Merge
  | .ended => { m with ended := m.ended.set i true }
  | .frame bytes =>
    if bytes = ping then m
    else
      let m := { m with frames := (i, bytes) :: m.frames }
      match ses.chunkOf bytes with
      | .error e => m.fail e
      | .ok (k, data) =>
        if k < m.next ∨ count size ≤ k ∨ data.length ≠ chunkLength size k then
          m.fail (protocol "a chunk out of place")
        else { m with heads := m.heads.set i (some (k, data)) }

inductive Act
  | take
  -- The sink takes `n` bytes of it and fails.
  | sinkFails (n : ℕ) (error : ErrorInfo)
  | arrive (room : ℕ) (arrival : Arrival)
  | never
  | timeout
  deriving DecidableEq, Repr

def step (ses : Session) (size : ℕ) (m : Merge) (a : Act) : Option Merge :=
  if m.failed.isSome ∨ count size ≤ m.next then none
  else
    match m.ready with
    | some (i, data) =>
      let m := { m with heads := m.heads.set i none, hash := m.hash.update data }
      match a with
      | .take => some { m with sink := m.sink ++ data, next := m.next + 1 }
      | .sinkFails n e => some ({ m with sink := m.sink ++ data.take n }.fail e)
      | _ => none
    | none =>
      match a with
      | .arrive i arrival => if m.Idle i then some (m.read ses size i arrival) else none
      | .never =>
        if m.Waiting then none else some (m.fail (protocol "a chunk of the file never came"))
      | .timeout =>
        if m.Waiting then some (m.fail (protocol "the croc sender stopped sending")) else none
      | _ => none

/-- What `receive_file` returned, if it has. -/
def result (size : ℕ) (m : Merge) : Option (Except ErrorInfo Bytes) :=
  match m.failed with
  | some e => some (.error e)
  | none => if m.next < count size then none else some (.ok m.hash.finish)

section Moves

variable {ses : Session} {size : ℕ} {m m' : Merge} {a : Act} {i : ℕ} {data : Bytes}

theorem getElem?_of_ready (h : m.ready = some (i, data)) :
    m.heads[i]? = some (some (m.next, data)) := by
  obtain ⟨⟨head, j⟩, hmem, hj⟩ := List.exists_of_findSome?_eq_some h
  obtain ⟨⟨k, d⟩, rfl, hk⟩ := Option.bind_eq_some_iff.mp hj
  dsimp only at hk
  split_ifs at hk with he
  obtain ⟨rfl, rfl⟩ := Prod.mk.inj (Option.some.inj hk)
  rw [← he]
  exact List.mk_mem_zipIdx_iff_getElem?.mp hmem

theorem ne_next_of_ready (h : m.ready = none) {k : ℕ} (hi : m.heads[i]? = some (some (k, data))) :
    k ≠ m.next := by
  rintro rfl
  have := List.findSome?_eq_none_iff.mp h (some (m.next, data), i)
    (List.mk_mem_zipIdx_iff_getElem?.mpr hi)
  simp at this

theorem step_take (hok : m.failed = none) (hlt : m.next < count size)
    (hready : m.ready = some (i, data)) : step ses size m .take = some { m with
      heads := m.heads.set i none, hash := m.hash.update data, sink := m.sink ++ data,
      next := m.next + 1 } := by
  have hgo : ¬ (m.failed.isSome ∨ count size ≤ m.next) := by simp [hok, hlt]
  simp only [step, if_neg hgo, hready]

theorem step_arrive (hok : m.failed = none) (hlt : m.next < count size) (hready : m.ready = none)
    (hi : m.Idle i) (arrival : Arrival) :
    step ses size m (.arrive i arrival) = some (m.read ses size i arrival) := by
  have hgo : ¬ (m.failed.isSome ∨ count size ≤ m.next) := by simp [hok, hlt]
  simp only [step, if_neg hgo, hready, if_pos hi]

theorem read_frame {bytes : Bytes} {k : ℕ} (hping : bytes ≠ Croc.ping)
    (hchunk : ses.chunkOf bytes = .ok (k, data)) (hnext : m.next ≤ k) (hcount : k < count size)
    (hlength : data.length = chunkLength size k) :
    m.read ses size i (.frame bytes) = { m with
      frames := (i, bytes) :: m.frames, heads := m.heads.set i (some (k, data)) } := by
  have hfits : ¬ (k < m.next ∨ count size ≤ k ∨ data.length ≠ chunkLength size k) := by
    push Not
    exact ⟨hnext, hcount, hlength⟩
  simp only [read, if_neg hping, hchunk, if_neg hfits]

/-- What a round does, with all that it checked. -/
inductive Move (ses : Session) (size : ℕ) (m : Merge) : Act → Merge → Prop
  | take {i : ℕ} {data : Bytes} (hi : m.heads[i]? = some (some (m.next, data))) :
      Move ses size m .take { m with
        heads := m.heads.set i none, hash := m.hash.update data, sink := m.sink ++ data,
        next := m.next + 1 }
  | sinkFails {i : ℕ} {data : Bytes} (n : ℕ) (e : ErrorInfo)
      (hi : m.heads[i]? = some (some (m.next, data))) :
      Move ses size m (.sinkFails n e) { m with
        heads := m.heads.set i none, hash := m.hash.update data, sink := m.sink ++ data.take n,
        failed := some e }
  | ended {i : ℕ} (hi : m.Idle i) :
      Move ses size m (.arrive i .ended) { m with ended := m.ended.set i true }
  | ping {i : ℕ} (hi : m.Idle i) : Move ses size m (.arrive i (.frame Croc.ping)) m
  | reject {i : ℕ} {bytes : Bytes} (hi : m.Idle i) (hping : bytes ≠ Croc.ping) (e : ErrorInfo)
      (hbad : ∀ k data, ses.chunkOf bytes = .ok (k, data) →
        k < m.next ∨ count size ≤ k ∨ data.length ≠ chunkLength size k) :
      Move ses size m (.arrive i (.frame bytes)) { m with
        frames := (i, bytes) :: m.frames, failed := some e }
  | hold {i k : ℕ} {bytes data : Bytes} (hi : m.Idle i) (hping : bytes ≠ Croc.ping)
      (hchunk : ses.chunkOf bytes = .ok (k, data)) (hnext : m.next ≤ k) (hcount : k < count size)
      (hlength : data.length = chunkLength size k) :
      Move ses size m (.arrive i (.frame bytes)) { m with
        frames := (i, bytes) :: m.frames, heads := m.heads.set i (some (k, data)) }
  | never (hready : m.ready = none) (hwait : ¬ m.Waiting) :
      Move ses size m .never (m.fail (protocol "a chunk of the file never came"))
  | timeout : Move ses size m .timeout (m.fail (protocol "the croc sender stopped sending"))

theorem move_of_read {arrival : Arrival} (hi : m.Idle i) :
    Move ses size m (.arrive i arrival) (m.read ses size i arrival) := by
  cases arrival with
  | ended => exact .ended hi
  | frame bytes =>
    simp only [read]
    split_ifs with hping
    · subst hping
      exact .ping hi
    · cases hc : ses.chunkOf bytes with
      | error e => exact .reject hi hping e fun k data h => by rw [hc] at h; cases h
      | ok c =>
        obtain ⟨k, data⟩ := c
        dsimp only
        split_ifs with hbad
        · refine .reject hi hping _ fun k' data' h => ?_
          rw [hc] at h
          obtain ⟨rfl, rfl⟩ := Prod.mk.inj (Except.ok.inj h)
          exact hbad
        · push Not at hbad
          exact .hold hi hping hc hbad.1 hbad.2.1 hbad.2.2

theorem move_of_step (h : step ses size m a = some m') :
    m.failed = none ∧ m.next < count size ∧ Move ses size m a m' := by
  unfold step at h
  by_cases hover : m.failed.isSome ∨ count size ≤ m.next
  · rw [if_pos hover] at h
    cases h
  rw [if_neg hover] at h
  push Not at hover
  refine ⟨Option.not_isSome_iff_eq_none.mp hover.1, hover.2, ?_⟩
  cases hr : m.ready with
  | some c =>
    obtain ⟨i, data⟩ := c
    rw [hr] at h
    have hi := getElem?_of_ready hr
    cases a with
    | take => exact Option.some.inj h ▸ .take hi
    | sinkFails n e => exact Option.some.inj h ▸ .sinkFails n e hi
    | arrive | never | timeout => cases h
  | none =>
    rw [hr] at h
    cases a with
    | take | sinkFails => cases h
    | arrive i arrival =>
      dsimp only at h
      split_ifs at h with hi
      exact Option.some.inj h ▸ move_of_read hi
    | never =>
      dsimp only at h
      split_ifs at h with hw
      exact Option.some.inj h ▸ .never hr hw
    | timeout =>
      dsimp only at h
      split_ifs at h
      exact Option.some.inj h ▸ .timeout

end Moves

section Order

variable {ses : Session} {size rooms : ℕ} {m m' : Merge} {a : Act} {k : ℕ} {data : Bytes}
  {frames : List (ℕ × Bytes)} {bodies : List Bytes}

/-- `data` is chunk `k` of the file, and came in one of the frames. -/
def Accepted (ses : Session) (size : ℕ) (frames : List (ℕ × Bytes)) (k : ℕ) (data : Bytes) : Prop :=
  k < count size ∧ data.length = chunkLength size k ∧ ∃ f ∈ frames, ses.chunkOf f.2 = .ok (k, data)

/-- The first chunks of the file, each from one of the frames. -/
def Bodies (ses : Session) (size : ℕ) (frames : List (ℕ × Bytes)) (bodies : List Bytes) : Prop :=
  ∀ k data, bodies[k]? = some data → Accepted ses size frames k data

theorem Accepted.cons {f : ℕ × Bytes} (h : Accepted ses size frames k data) :
    Accepted ses size (f :: frames) k data := by
  obtain ⟨hk, hlength, g, hg, hchunk⟩ := h
  exact ⟨hk, hlength, g, List.mem_cons_of_mem f hg, hchunk⟩

theorem Bodies.cons {f : ℕ × Bytes} (h : Bodies ses size frames bodies) :
    Bodies ses size (f :: frames) bodies := fun k data hk => (h k data hk).cons

theorem Bodies.concat (h : Bodies ses size frames bodies)
    (hd : Accepted ses size frames bodies.length data) :
    Bodies ses size frames (bodies ++ [data]) := by
  intro k d hk
  rcases Nat.lt_trichotomy k bodies.length with hlt | rfl | hgt
  · rw [List.getElem?_append_left hlt] at hk
    exact h k d hk
  · rw [List.getElem?_concat_length] at hk
    exact Option.some.inj hk ▸ hd
  · rw [List.getElem?_eq_none (by simpa using hgt)] at hk
    cases hk

theorem Bodies.length_flatten (h : Bodies ses size frames bodies) :
    bodies.flatten.length = min size (chunkBytes * bodies.length) := by
  induction bodies using List.reverseRecOn with
  | nil => simp
  | append_singleton bodies data ih =>
    have hfirst : Bodies ses size frames bodies := by
      intro k d hk
      refine h k d ?_
      rw [List.getElem?_append_left (List.getElem?_eq_some_iff.mp hk).1, hk]
    have hlast := (h bodies.length data List.getElem?_concat_length).2.1
    simp only [List.flatten_append, List.length_append, ih hfirst, List.flatten_singleton, hlast,
      chunkLength, List.length_singleton, chunkBytes]
    omega

theorem le_count_mul (size : ℕ) : size ≤ chunkBytes * count size := by
  unfold count chunkBytes
  omega

/-- What the loop holds and has put, at every moment. -/
structure Sound (ses : Session) (size rooms : ℕ) (m : Merge) : Prop where
  heads_length : m.heads.length = rooms
  ended_length : m.ended.length = rooms
  next_le : m.next ≤ count size
  held : ∀ (i : ℕ) k data, m.heads[i]? = some (some (k, data)) → Accepted ses size m.frames k data
  put : ∃ bodies, Bodies ses size m.frames bodies ∧ m.sink <+: bodies.flatten ∧
    (m.failed = none → bodies.length = m.next ∧ m.sink = bodies.flatten)
  hash : m.failed = none → m.hash.Fed m.sink

namespace Sound

theorem start (ses : Session) (size rooms : ℕ) : Sound ses size rooms (Merge.start rooms) where
  heads_length := List.length_replicate
  ended_length := List.length_replicate
  next_le := Nat.zero_le _
  held i k data h := by
    have := List.mem_of_getElem? h
    simp [Merge.start] at this
  put := ⟨[], fun k data hk => by simp at hk, List.prefix_rfl, fun _ => ⟨rfl, rfl⟩⟩
  hash _ := Xxh64.fed_new

theorem fail (h : Sound ses size rooms m) (e : ErrorInfo) : Sound ses size rooms (m.fail e) := by
  obtain ⟨bodies, hb, hput, -⟩ := h.put
  exact ⟨h.heads_length, h.ended_length, h.next_le, h.held,
    ⟨bodies, hb, hput, by simp [Merge.fail]⟩,
    by simp [Merge.fail]⟩

theorem held_set_none (h : Sound ses size rooms m) (i : ℕ) :
    ∀ (j : ℕ) k data, (m.heads.set i none)[j]? = some (some (k, data)) →
    Accepted ses size m.frames k data := by
  intro j k data hj
  rw [List.getElem?_set] at hj
  split_ifs at hj
  · simp at hj
  · exact h.held j k data hj

theorem of_move (h : Sound ses size rooms m) (hok : m.failed = none) (hnext : m.next < count size)
    (hm : Move ses size m a m') : Sound ses size rooms m' := by
  obtain ⟨bodies, hb, -, hall⟩ := h.put
  obtain ⟨hlength, hsink⟩ := hall hok
  cases hm with
  | @take i data hi =>
    have hacc := h.held i m.next data hi
    refine ⟨by rw [List.length_set, h.heads_length], h.ended_length, hnext, h.held_set_none i,
      ⟨bodies ++ [data], hb.concat (hlength ▸ hacc), ?_, fun _ => ?_⟩,
      fun _ => (h.hash hok).update data⟩
    · simp [hsink]
    · simp [hsink, hlength]
  | @sinkFails i data n e hi =>
    have hacc := h.held i m.next data hi
    refine ⟨by rw [List.length_set, h.heads_length], h.ended_length, h.next_le, h.held_set_none i,
      ⟨bodies ++ [data], hb.concat (hlength ▸ hacc), ?_, by simp⟩, by simp⟩
    rw [hsink, List.flatten_append, List.flatten_singleton]
    exact (List.prefix_append_right_inj _).mpr (List.take_prefix n data)
  | ended hi =>
    exact ⟨h.heads_length, by rw [List.length_set, h.ended_length], h.next_le, h.held,
      h.put, h.hash⟩
  | ping hi => exact h
  | reject hi hping e hbad =>
    exact ⟨h.heads_length, h.ended_length, h.next_le, fun i k data hj => (h.held i k data hj).cons,
      ⟨bodies, hb.cons, hsink ▸ List.prefix_rfl, by simp⟩, by simp⟩
  | @hold i k bytes data hi hping hchunk hle hcount hdata =>
    refine ⟨by rw [List.length_set, h.heads_length], h.ended_length, h.next_le, ?_,
      ⟨bodies, hb.cons, hsink ▸ List.prefix_rfl, fun _ => ⟨hlength, hsink⟩⟩, h.hash⟩
    intro j k' data' hj
    rw [List.getElem?_set] at hj
    split_ifs at hj with hij hlt
    · obtain ⟨rfl, rfl⟩ := Prod.mk.inj (Option.some.inj (Option.some.inj hj))
      exact ⟨hcount, hdata, (i, bytes), List.mem_cons_self, hchunk⟩
    · exact (h.held j k' data' hj).cons
  | never | timeout => exact h.fail _

theorem of_run {as : List Act} (hrun : exec (Merge.step ses size) (Merge.start rooms) as = some m) :
    Sound ses size rooms m :=
  exec_invariant (fun _ _ _ h hs => by
    obtain ⟨hok, hnext, hm⟩ := move_of_step hs
    exact h.of_move hok hnext hm) (start ses size rooms) hrun

theorem whole (h : Sound ses size rooms m) (hsize : size < 2 ^ 64) {hash : Bytes}
    (hres : m.result size = some (.ok hash)) :
    ∃ bodies, bodies.length = count size ∧ Bodies ses size m.frames bodies ∧
      m.sink = bodies.flatten ∧ m.sink.length = size ∧ hash = xxh64 m.sink := by
  have hok : m.failed = none := by
    unfold result at hres
    split at hres
    · cases hres
    · assumption
  simp only [result, hok] at hres
  split_ifs at hres with hlt
  obtain ⟨bodies, hb, -, hall⟩ := h.put
  obtain ⟨hlength, hsink⟩ := hall hok
  have hcount : bodies.length = count size := by
    have := h.next_le
    omega
  have hsinklen : m.sink.length = size := by
    have := le_count_mul size
    rw [hsink, hb.length_flatten, hcount]
    omega
  refine ⟨bodies, hcount, hb, hsink, hsinklen, ?_⟩
  rw [← (h.hash hok).finish (by omega)]
  exact (Except.ok.inj (Option.some.inj hres)).symm

end Sound

end Order

end Merge

end Sukkula.Croc
