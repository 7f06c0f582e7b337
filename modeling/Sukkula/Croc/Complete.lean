import Mathlib.Algebra.BigOperators.Group.Finset.Basic
import Sukkula.Croc.Serve

/-! # Every chunk finds its place

A sender and a relay that behave: every chunk of a file is in one of the rooms,
each room has its chunks in order, and ends after the last of them. Keepalives
come as they like, and the rooms are read in any order. Then the next chunk is
always at the front of a room that is read, and the merge goes through.
-/

namespace Sukkula.Croc

open Transition

/-- The chunks of a file over `n` rooms: each in one of them, and each room in order. -/
structure Dealt (n count : ℕ) (queue : ℕ → List ℕ) : Prop where
  order : ∀ i, (queue i).Pairwise (· < ·)
  mem_iff : ∀ k, (∃ i, k ∈ queue i) ↔ k < count
  unique : ∀ i j k, k ∈ queue i → k ∈ queue j → i = j
  rooms : ∀ i, n ≤ i → queue i = []

/-- The merge, and what is still to come in each room. -/
structure Rooms where
  merge : Merge
  queue : ℕ → List ℕ

namespace Rooms

def start (n : ℕ) (queue : ℕ → List ℕ) : Rooms := ⟨.start n, queue⟩

inductive Act
  | take
  | chunk (room : ℕ)
  | ping (room : ℕ)
  | close (room : ℕ)
  | never
  deriving DecidableEq, Repr

def step (ses : Session) (size : ℕ) (frame : ℕ → Bytes) (s : Rooms) : Act → Option Rooms
  | .take => (s.merge.step ses size .take).map fun m => { s with merge := m }
  | .chunk i =>
    match s.queue i with
    | [] => none
    | k :: rest => (s.merge.step ses size (.arrive i (.frame (frame k)))).map fun m =>
        ⟨m, Function.update s.queue i rest⟩
  | .ping i =>
    (s.merge.step ses size (.arrive i (.frame Croc.ping))).map fun m => { s with merge := m }
  | .close i =>
    if s.queue i = [] then
      (s.merge.step ses size (.arrive i .ended)).map fun m => { s with merge := m }
    else none
  | .never => (s.merge.step ses size .never).map fun m => { s with merge := m }

/-- The chunk that a room holds back, if any, and those to come in it. -/
def line (s : Rooms) (i : ℕ) : List ℕ :=
  ((s.merge.heads[i]?).join.map Prod.fst).toList ++ s.queue i

/-- The frames of a file's chunks are read as such. -/
def Framed (ses : Session) (data : Bytes) (frame : ℕ → Bytes) : Prop :=
  ∀ k < count data.length, ses.chunkOf (frame k) = .ok (k, chunk data k) ∧ frame k ≠ Croc.ping

structure Inv (data : Bytes) (n : ℕ) (s : Rooms) : Prop where
  failed : s.merge.failed = none
  heads_length : s.merge.heads.length = n
  ended_length : s.merge.ended.length = n
  order : ∀ i, (s.line i).Pairwise (· < ·)
  mem_iff : ∀ k, (∃ i, k ∈ s.line i) ↔ s.merge.next ≤ k ∧ k < count data.length
  unique : ∀ i j k, k ∈ s.line i → k ∈ s.line j → i = j
  rooms : ∀ i, n ≤ i → s.queue i = []
  held : ∀ (i : ℕ) k d, s.merge.heads[i]? = some (some (k, d)) → d = chunk data k
  ended : ∀ i : ℕ, s.merge.ended[i]? = some true → s.queue i = []
  sink : s.merge.sink = data.take (chunkBytes * s.merge.next)

section Invariant

variable {ses : Session} {data : Bytes} {n : ℕ} {queue : ℕ → List ℕ} {frame : ℕ → Bytes}
  {s s' : Rooms} {a : Act} {i k : ℕ}

theorem line_of_none (h : s.merge.heads[i]? = some none) : s.line i = s.queue i := by
  simp [line, h]

theorem line_of_some {d : Bytes} (h : s.merge.heads[i]? = some (some (k, d))) :
    s.line i = k :: s.queue i := by
  simp [line, h]

theorem Inv.start (h : Dealt n (count data.length) queue) : Inv data n (start n queue) := by
  have hline : ∀ i, (Rooms.start n queue).line i = queue i := by
    intro i
    simp only [line, Rooms.start, Merge.start, List.getElem?_replicate]
    split_ifs <;> simp
  constructor
  · rfl
  · exact List.length_replicate
  · exact List.length_replicate
  · intro i
    rw [hline i]
    exact h.order i
  · intro k
    simp only [hline]
    exact (h.mem_iff k).trans ⟨fun hk => ⟨Nat.zero_le k, hk⟩, And.right⟩
  · intro i j k
    rw [hline i, hline j]
    exact h.unique i j k
  · exact h.rooms
  · intro i k d hi
    have := List.mem_of_getElem? hi
    simp [Rooms.start, Merge.start] at this
  · intro i hi
    have := List.mem_of_getElem? hi
    simp [Rooms.start, Merge.start] at this
  · simp [Rooms.start, Merge.start]

/-- The next chunk is at the front of some room: held back there, or the next to come in a room
that is read. -/
theorem Inv.front (h : Inv data n s) (hlt : s.merge.next < count data.length) :
    (∃ (i : ℕ) (d : Bytes), s.merge.heads[i]? = some (some (s.merge.next, d))) ∨
      ∃ i rest, s.merge.Idle i ∧ s.queue i = s.merge.next :: rest := by
  obtain ⟨i, hi⟩ := (h.mem_iff s.merge.next).mpr ⟨le_rfl, hlt⟩
  -- A room is in order and has nothing before the next chunk, so it has that one first.
  have hfirst : ∀ k rest, s.line i = k :: rest → k = s.merge.next := by
    intro k rest hk
    have hge := ((h.mem_iff k).mp ⟨i, by simp [hk]⟩).1
    have hord := h.order i
    rw [hk] at hi hord
    rcases List.mem_cons.mp hi with he | hmem
    · exact he.symm
    · have := (List.pairwise_cons.mp hord).1 _ hmem
      omega
  cases hhead : s.merge.heads[i]? with
  | none =>
    have hle : n ≤ i := h.heads_length ▸ List.getElem?_eq_none_iff.mp hhead
    simp [line, hhead, h.rooms i hle] at hi
  | some head =>
    cases head with
    | some c =>
      obtain ⟨k, d⟩ := c
      obtain rfl := hfirst k _ (line_of_some hhead)
      exact Or.inl ⟨i, d, hhead⟩
    | none =>
      rw [line_of_none hhead] at hi hfirst
      obtain ⟨k, rest, hqueue⟩ := List.exists_cons_of_ne_nil (List.ne_nil_of_mem hi)
      obtain rfl := hfirst k rest hqueue
      have hlen : i < s.merge.ended.length := by
        rw [h.ended_length, ← h.heads_length]
        exact (List.getElem?_eq_some_iff.mp hhead).1
      have hended : s.merge.ended[i]? = some false := by
        cases he : s.merge.ended[i] with
        | true => simp [h.ended i (List.getElem?_eq_some_iff.mpr ⟨hlen, he⟩)] at hqueue
        | false => exact List.getElem?_eq_some_iff.mpr ⟨hlen, he⟩
      exact Or.inr ⟨i, rest, ⟨hhead, hended⟩, hqueue⟩

theorem Inv.waiting (h : Inv data n s) (hlt : s.merge.next < count data.length)
    (hready : s.merge.ready = none) : s.merge.Waiting := by
  rcases h.front hlt with ⟨i, d, hi⟩ | ⟨i, rest, hidle, -⟩
  · exact absurd rfl (Merge.ne_next_of_ready hready hi)
  · exact ⟨i, (List.getElem?_eq_some_iff.mp hidle.1).1, hidle⟩

theorem take_append_chunk (data : Bytes) (k : ℕ) :
    data.take (chunkBytes * k) ++ chunk data k = data.take (chunkBytes * (k + 1)) := by
  rw [chunk, Nat.mul_succ, List.take_add]

theorem Inv.take (h : Inv data n s) {d : Bytes}
    (hi : s.merge.heads[i]? = some (some (s.merge.next, d))) :
    Inv data n { s with merge := { s.merge with
      heads := s.merge.heads.set i none, hash := s.merge.hash.update d, sink := s.merge.sink ++ d,
      next := s.merge.next + 1 } } := by
  have hlen : i < s.merge.heads.length := (List.getElem?_eq_some_iff.mp hi).1
  have hline : s.line i = s.merge.next :: s.queue i := line_of_some hi
  set t : Rooms := { s with merge := { s.merge with
    heads := s.merge.heads.set i none, hash := s.merge.hash.update d, sink := s.merge.sink ++ d,
    next := s.merge.next + 1 } } with ht
  have hself : t.line i = s.queue i := line_of_none (by simp [ht, hlen])
  have hother : ∀ j, j ≠ i → t.line j = s.line j := by
    intro j hj
    simp [line, ht, List.getElem?_set_ne (Ne.symm hj)]
  -- The next chunk is gone from its room, and was in no other.
  have hmem : ∀ j k, k ∈ t.line j ↔ k ∈ s.line j ∧ k ≠ s.merge.next := by
    intro j k
    by_cases hj : j = i
    · subst hj
      have hord := (List.pairwise_cons.mp (hline ▸ h.order j)).1
      rw [hself, hline, List.mem_cons]
      constructor
      · exact fun hk => ⟨Or.inr hk, (hord k hk).ne'⟩
      · exact fun ⟨hk, hne⟩ => hk.resolve_left hne
    · rw [hother j hj]
      refine ⟨fun hk => ⟨hk, ?_⟩, And.left⟩
      rintro rfl
      exact hj (h.unique j i _ hk (by simp [hline]))
  constructor
  · exact h.failed
  · simpa [ht] using h.heads_length
  · exact h.ended_length
  · intro j
    by_cases hj : j = i
    · rw [hj, hself]
      exact (List.pairwise_cons.mp (hline ▸ h.order i)).2
    · rw [hother j hj]
      exact h.order j
  · intro k
    have hiff := h.mem_iff k
    have hnext : t.merge.next = s.merge.next + 1 := rfl
    simp only [hmem, hnext]
    constructor
    · rintro ⟨j, hk, hne⟩
      have := hiff.mp ⟨j, hk⟩
      omega
    · rintro ⟨hle, hlt⟩
      obtain ⟨j, hj⟩ := hiff.mpr ⟨by omega, hlt⟩
      exact ⟨j, hj, by omega⟩
  · intro j l k hj hl
    exact h.unique j l k ((hmem j k).mp hj).1 ((hmem l k).mp hl).1
  · exact h.rooms
  · intro j k d' hj
    simp only [ht, List.getElem?_set] at hj
    split_ifs at hj
    · simp at hj
    · exact h.held j k d' hj
  · exact h.ended
  · simp only [ht]
    rw [h.sink, h.held i _ d hi, take_append_chunk]

theorem Inv.hold (h : Inv data n s) {rest : List ℕ} (hidle : s.merge.Idle i)
    (hqueue : s.queue i = k :: rest) (frames : List (ℕ × Bytes)) :
    Inv data n ⟨{ s.merge with
      frames := frames, heads := s.merge.heads.set i (some (k, chunk data k)) },
      Function.update s.queue i rest⟩ := by
  have hlen : i < s.merge.heads.length := (List.getElem?_eq_some_iff.mp hidle.1).1
  set t : Rooms := ⟨{ s.merge with
    frames := frames, heads := s.merge.heads.set i (some (k, chunk data k)) },
    Function.update s.queue i rest⟩ with ht
  have hline : ∀ j, t.line j = s.line j := by
    intro j
    by_cases hj : j = i
    · subst hj
      have hhead : t.merge.heads[j]? = some (some (k, chunk data k)) := by simp [ht, hlen]
      rw [line_of_some hhead, line_of_none hidle.1, hqueue]
      simp [ht]
    · simp [line, ht, List.getElem?_set_ne (Ne.symm hj), Function.update_of_ne hj]
  have hempty : ∀ j, s.queue j = [] → t.queue j = [] := by
    intro j hj
    have hne : j ≠ i := by
      rintro rfl
      simp [hqueue] at hj
    simpa [ht, Function.update_of_ne hne] using hj
  constructor
  · exact h.failed
  · simpa [ht] using h.heads_length
  · exact h.ended_length
  · intro j
    rw [hline j]
    exact h.order j
  · intro l
    simp only [hline]
    exact h.mem_iff l
  · intro j l m
    rw [hline j, hline l]
    exact h.unique j l m
  · exact fun j hj => hempty j (h.rooms j hj)
  · intro j l d hj
    simp only [ht, List.getElem?_set] at hj
    split_ifs at hj
    · obtain ⟨rfl, rfl⟩ := Prod.mk.inj (Option.some.inj (Option.some.inj hj))
      rfl
    · exact h.held j l d hj
  · exact fun j hj => hempty j (h.ended j hj)
  · exact h.sink

theorem Inv.close (h : Inv data n s) (hqueue : s.queue i = []) :
    Inv data n { s with merge := { s.merge with ended := s.merge.ended.set i true } } := by
  refine ⟨h.failed, h.heads_length, ?_, h.order, h.mem_iff, h.unique, h.rooms, h.held, ?_, h.sink⟩
  · simpa using h.ended_length
  · intro j hj
    simp only [List.getElem?_set] at hj
    split_ifs at hj with hij
    · exact hij ▸ hqueue
    · exact h.ended j hj

theorem Inv.step (hframe : Framed ses data frame) (h : Inv data n s)
    (hs : Rooms.step ses data.length frame s a = some s') : Inv data n s' := by
  cases a with
  | take =>
    obtain ⟨m, hm, rfl⟩ := Option.map_eq_some_iff.mp hs
    obtain ⟨-, -, hmove⟩ := Merge.move_of_step hm
    cases hmove with
    | take hi => exact h.take hi
  | chunk i =>
    simp only [Rooms.step] at hs
    split at hs
    · cases hs
    · rename_i k rest hqueue
      obtain ⟨m, hm, rfl⟩ := Option.map_eq_some_iff.mp hs
      obtain ⟨-, -, hmove⟩ := Merge.move_of_step hm
      generalize hb : frame k = bytes at hmove
      have hk : s.merge.next ≤ k ∧ k < count data.length := by
        refine (h.mem_iff k).mp ⟨i, ?_⟩
        simp [line, hqueue]
      obtain ⟨hchunk, hping⟩ := hframe k hk.2
      rw [hb] at hchunk hping
      cases hmove with
      | ping hi => exact absurd rfl hping
      | reject hi _ e hbad =>
        have := hbad k _ hchunk
        rw [length_chunk] at this
        omega
      | hold hi _ hc hnext hcount hlength =>
        rw [hchunk] at hc
        obtain ⟨rfl, rfl⟩ := Prod.mk.inj (Except.ok.inj hc)
        exact h.hold hi hqueue _
  | ping i =>
    obtain ⟨m, hm, rfl⟩ := Option.map_eq_some_iff.mp hs
    obtain ⟨-, -, hmove⟩ := Merge.move_of_step hm
    generalize hb : Croc.ping = bytes at hmove
    cases hmove with
    | ping hi => exact h
    | reject hi hping => exact absurd hb.symm hping
    | hold hi hping => exact absurd hb.symm hping
  | close i =>
    simp only [Rooms.step] at hs
    split_ifs at hs with hqueue
    obtain ⟨m, hm, rfl⟩ := Option.map_eq_some_iff.mp hs
    obtain ⟨-, -, hmove⟩ := Merge.move_of_step hm
    cases hmove with
    | ended hi => exact h.close hqueue
  | never =>
    obtain ⟨m, hm, rfl⟩ := Option.map_eq_some_iff.mp hs
    obtain ⟨-, hlt, hmove⟩ := Merge.move_of_step hm
    cases hmove with
    | never hready hwait => exact absurd (h.waiting hlt hready) hwait

/-- While chunks are missing, the next one can be taken, or comes in a room that is read. -/
theorem Inv.progress (h : Inv data n s)
    (hlt : s.merge.next < count data.length) :
    (∃ s', Rooms.step ses data.length frame s .take = some s') ∨
      ∃ i s', Rooms.step ses data.length frame s (.chunk i) = some s' := by
  cases hready : s.merge.ready with
  | some c =>
    obtain ⟨i, d⟩ := c
    left
    simp only [Rooms.step, Merge.step_take h.failed hlt hready]
    exact ⟨_, rfl⟩
  | none =>
    right
    rcases h.front hlt with ⟨i, d, hi⟩ | ⟨i, rest, hidle, hqueue⟩
    · exact absurd rfl (Merge.ne_next_of_ready hready hi)
    · refine ⟨i, ?_⟩
      simp only [Rooms.step, hqueue, Merge.step_arrive h.failed hlt hready hidle]
      exact ⟨_, rfl⟩

/-- The chunks that are missing in the sink, and those that have yet to come. -/
def left (data : Bytes) (n : ℕ) (s : Rooms) : ℕ :=
  (count data.length - s.merge.next) + ∑ i ∈ Finset.range n, (s.queue i).length

def Act.cost : Act → ℕ
  | .take | .chunk _ => 1
  | _ => 0

theorem sum_update {f : ℕ → List ℕ} {rest : List ℕ} (hi : i < n) (hf : f i = k :: rest) :
    ∑ j ∈ Finset.range n, (Function.update f i rest j).length + 1 =
      ∑ j ∈ Finset.range n, (f j).length := by
  have hmem : i ∈ Finset.range n := Finset.mem_range.mpr hi
  rw [← Finset.sum_erase_add _ _ hmem, ← Finset.sum_erase_add _ (fun j => (f j).length) hmem]
  have hsame : ∑ j ∈ (Finset.range n).erase i, (Function.update f i rest j).length =
      ∑ j ∈ (Finset.range n).erase i, (f j).length :=
    Finset.sum_congr rfl fun j hj => by rw [Function.update_of_ne (Finset.ne_of_mem_erase hj)]
  rw [hsame, Function.update_self, hf, List.length_cons]
  omega

theorem Inv.cost (h : Inv data n s)
    (hs : Rooms.step ses data.length frame s a = some s') :
    a.cost + left data n s' ≤ left data n s := by
  cases a with
  | take =>
    obtain ⟨m, hm, rfl⟩ := Option.map_eq_some_iff.mp hs
    obtain ⟨-, hlt, hmove⟩ := Merge.move_of_step hm
    cases hmove with
    | take hi =>
      simp only [left, Act.cost]
      omega
  | chunk i =>
    simp only [Rooms.step] at hs
    split at hs
    · cases hs
    · rename_i k rest hqueue
      obtain ⟨m, hm, rfl⟩ := Option.map_eq_some_iff.mp hs
      obtain ⟨-, -, hmove⟩ := Merge.move_of_step hm
      have hidle : s.merge.Idle i ∧ m.next = s.merge.next := by
        generalize frame k = bytes at hmove
        cases hmove <;> exact ⟨by assumption, rfl⟩
      have hi : i < n := h.heads_length ▸ (List.getElem?_eq_some_iff.mp hidle.1.1).1
      have := sum_update hi hqueue
      simp only [left, Act.cost, hidle.2]
      omega
  | ping i =>
    obtain ⟨m, hm, rfl⟩ := Option.map_eq_some_iff.mp hs
    obtain ⟨-, -, hmove⟩ := Merge.move_of_step hm
    have hnext : m.next = s.merge.next := by
      generalize Croc.ping = bytes at hmove
      cases hmove <;> rfl
    simp [left, Act.cost, hnext]
  | close i =>
    simp only [Rooms.step] at hs
    split_ifs at hs
    obtain ⟨m, hm, rfl⟩ := Option.map_eq_some_iff.mp hs
    obtain ⟨-, -, hmove⟩ := Merge.move_of_step hm
    cases hmove with
    | ended hi => simp [left, Act.cost]
  | never =>
    obtain ⟨m, hm, rfl⟩ := Option.map_eq_some_iff.mp hs
    obtain ⟨-, -, hmove⟩ := Merge.move_of_step hm
    cases hmove with
    | never hready hwait => simp [left, Act.cost, Merge.fail]

theorem sum_dealt (h : Dealt n k queue) : ∑ i ∈ Finset.range n, (queue i).length = k := by
  have hcard : ∀ i, (queue i).toFinset.card = (queue i).length :=
    fun i => List.toFinset_card_of_nodup ((h.order i).imp fun hlt => hlt.ne)
  have hdisj : Set.PairwiseDisjoint (Finset.range n : Set ℕ) fun i => (queue i).toFinset := by
    intro i _ j _ hij
    rw [Function.onFun, Finset.disjoint_left]
    intro l hl hl'
    exact hij (h.unique i j l (List.mem_toFinset.mp hl) (List.mem_toFinset.mp hl'))
  have hunion : (Finset.range n).biUnion (fun i => (queue i).toFinset) = Finset.range k := by
    ext l
    simp only [Finset.mem_biUnion, Finset.mem_range, List.mem_toFinset, ← h.mem_iff]
    constructor
    · exact fun ⟨i, _, hl⟩ => ⟨i, hl⟩
    · rintro ⟨i, hl⟩
      refine ⟨i, not_le.mp fun hle => ?_, hl⟩
      simp [h.rooms i hle] at hl
  calc ∑ i ∈ Finset.range n, (queue i).length
      = ∑ i ∈ Finset.range n, (queue i).toFinset.card := by simp only [hcard]
    _ = ((Finset.range n).biUnion fun i => (queue i).toFinset).card :=
      (Finset.card_biUnion hdisj).symm
    _ = k := by rw [hunion, Finset.card_range]

theorem dealt_deal (hn : 0 < n) : Dealt n k (deal n (List.range k)) := by
  have hmem : ∀ i l, l ∈ deal n (List.range k) i ↔ i < n ∧ l < k ∧ l % n = i := by
    intro i l
    unfold deal
    split_ifs with hi
    · simp [hi]
    · simp [hi]
  constructor
  · intro i
    unfold deal
    split_ifs
    · exact List.pairwise_lt_range.filter _
    · exact List.Pairwise.nil
  · intro l
    simp only [hmem]
    exact ⟨fun ⟨_, _, hl, _⟩ => hl, fun hl => ⟨l % n, Nat.mod_lt l hn, hl, rfl⟩⟩
  · intro i j l hi hj
    rw [hmem] at hi hj
    rw [← hi.2.2, hj.2.2]
  · intro i hi
    exact if_neg (not_lt.mpr hi)

theorem Inv.whole (h : Inv data n s) (hle : count data.length ≤ s.merge.next) :
    s.merge.sink = data := by
  rw [h.sink, List.take_of_length_le]
  have := Merge.le_count_mul data.length
  exact this.trans (Nat.mul_le_mul_left _ hle)

end Invariant

/-- However the chunks are dealt over the rooms and the rooms are read, the merge never fails and
takes in the file as it is; while it has not returned the next chunk can be taken or is to come in a
room that is read, and there are no more than two acts for each chunk. The chunks that our sender
serves for the request that our receiver makes are dealt and framed so. -/
theorem merge_completes (ses : Session) (data : Bytes) (hlen : data.length < 2 ^ 64) (n : ℕ) :
    (∀ queue frame as s, Dealt n (count data.length) queue → Framed ses data frame →
      exec (step ses data.length frame) (start n queue) as = some s →
      (∀ result, s.merge.result data.length = some result →
        (∃ hash, result = .ok hash) ∧ s.merge.sink = data) ∧
      s.merge.sink <+: data ∧
      (s.merge.result data.length = none →
        (∃ s', step ses data.length frame s .take = some s') ∨
        ∃ i s', step ses data.length frame s (.chunk i) = some s') ∧
      (as.map Act.cost).sum ≤ 2 * count data.length) ∧
    ∀ (c : Chunks) (sizes : List ℕ) (index : ℕ), c.content = data → c.size = data.length →
      sizes[index]? = some data.length → data ≠ [] → index < 2 ^ 63 → 0 < n →
      ∃ r, readRequest (writeRequest index) sizes = some r ∧ r.index = index ∧
        Dealt n (count data.length) (deal n r.chunks) ∧
        ∀ frame : ℕ → Bytes, ses.compressed = false →
          (∀ k < count data.length, ∃ p, c.read k = .ok p ∧ ses.openSealed (frame k) = some p ∧
            frame k ≠ Croc.ping) →
          Framed ses data frame := by
  constructor
  · intro queue frame as s hdealt hframe hrun
    have hinv : Inv data n s :=
      exec_invariant (fun _ _ _ h hs => h.step hframe hs) (Inv.start hdealt) hrun
    have hcost : (as.map Act.cost).sum + left data n s ≤ left data n (start n queue) := by
      refine exec_cost (I := Inv data n) (fun s a s' h hs => ?_) (Inv.start hdealt) hrun
      exact ⟨h.step hframe hs, h.cost hs⟩
    have hleft : left data n (start n queue) = 2 * count data.length := by
      have := sum_dealt hdealt
      simp only [left, start, Merge.start, this]
      omega
    refine ⟨fun result hres => ?_, ?_, fun hnone => ?_, by omega⟩
    · simp only [Merge.result, hinv.failed] at hres
      split_ifs at hres with hlt
      exact ⟨⟨_, (Option.some.inj hres).symm⟩, hinv.whole (not_lt.mp hlt)⟩
    · rw [hinv.sink]
      exact List.take_prefix _ _
    · simp only [Merge.result, hinv.failed] at hnone
      split_ifs at hnone with hlt
      exact hinv.progress hlt
  · rintro c sizes index rfl hsize hindex hne hlt hn
    have hpos : c.content.length ≠ 0 := fun h0 => hne (List.length_eq_zero_iff.mp h0)
    refine ⟨_, readRequest_writeRequest hindex hpos hlt, rfl, dealt_deal hn, ?_⟩
    intro frame hplain hseal k hk
    obtain ⟨p, hp, hopen, hping⟩ := hseal k hk
    rw [read_eq hsize.symm (hsize ▸ hlen) (hsize ▸ hk)] at hp
    obtain rfl := Except.ok.inj hp
    exact ⟨chunkOf_of_open hplain hopen (mul_lt_of_lt_count hlen hk), hping⟩

/-- A session whose frames are not sealed, but marked. -/
def marked : Session := ⟨fun frame => some (frame.drop 1), false, fun bytes _ => some bytes⟩

/-- A file's chunks, as they are framed in it. -/
def framed (data : Bytes) (k : ℕ) : Bytes := 0 :: (toLeBytes (k * chunkBytes) ++ chunk data k)

/-- Two chunks, the second of one byte. It comes first, over a room of its own. -/
theorem merge_completes_two : ∃ data : Bytes, data.length = chunkBytes + 1 ∧ ∃ s,
    exec (step marked data.length (framed data)) (start 2 (deal 2 (List.range 2)))
      [.ping 0, .chunk 1, .ping 0, .chunk 0, .take, .take] = some s ∧ s.merge.sink = data := by
  obtain ⟨data, hlen⟩ : ∃ data : Bytes, data.length = chunkBytes + 1 :=
    ⟨List.replicate (chunkBytes + 1) 7, List.length_replicate⟩
  have hcount : count data.length = 2 := by
    rw [hlen]
    decide
  have hdeal : Dealt 2 (count data.length) (deal 2 (List.range 2)) := by
    rw [hcount]
    exact dealt_deal (by decide)
  have hframe : Framed marked data (framed data) := by
    intro k hk
    have hsmall : k * chunkBytes < 2 ^ 64 := by
      unfold chunkBytes
      omega
    exact ⟨chunkOf_of_open rfl rfl hsmall, by simp [framed, Croc.ping]⟩
  obtain ⟨hchunk₀, hping₀⟩ := hframe 0 (by rw [hcount]; decide)
  obtain ⟨hchunk₁, hping₁⟩ := hframe 1 (by rw [hcount]; decide)
  have hlength : ∀ k, (chunk data k).length = chunkLength data.length k := by
    simp [chunk, chunkLength]
  have hqueue₀ : deal 2 (List.range 2) 0 = [0] := by decide
  have hqueue₁ : deal 2 (List.range 2) 1 = [1] := by decide
  have hrun : ∃ s, exec (step marked data.length (framed data)) (start 2 (deal 2 (List.range 2)))
      [.ping 0, .chunk 1, .ping 0, .chunk 0, .take, .take] = some s ∧
      s.merge.failed = none ∧ s.merge.next = 2 := by
    simp [exec, step, start, Merge.start, Merge.step, Merge.ready, Merge.Idle, Merge.read, hcount,
      hchunk₀, hping₀, hchunk₁, hping₁, hlength, hqueue₀, hqueue₁, Function.update]
  obtain ⟨s, hs, hfailed, hnext⟩ := hrun
  have hlt : data.length < 2 ^ 64 := by
    rw [hlen]
    decide
  have hres : s.merge.result data.length = some (.ok s.merge.hash.finish) := by
    simp [Merge.result, hfailed, hnext, hcount]
  have h := (merge_completes marked data hlt 2).1 _ (framed data) _ s hdeal hframe hs
  exact ⟨data, hlen, s, hs, (h.1 _ hres).2⟩

end Rooms

end Sukkula.Croc
