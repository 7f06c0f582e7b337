import Sukkula.Croc.Receive
import Sukkula.Croc.Serve

/-! # A chunk that comes twice

A chunk that was put into the sink is refused when it comes again. One that is
still held back in a room is not: another room may hold the same one, and the
merge then takes the first of them and leaves the other, which nothing looks at
when the file is whole.
-/

namespace Sukkula.Croc

open Transition

namespace Merge

variable {ses : Session} {size rooms : ℕ} {m m' : Merge} {a : Act}

/-- The chunk numbers of the frames that were read, as far as they have one. -/
def numbers (ses : Session) (m : Merge) : List ℕ :=
  m.frames.filterMap fun f => (ses.chunkOf f.2).toOption.map Prod.fst

/-- No frame is read whose chunk is held back in a room. -/
def NotHeld (ses : Session) (m : Merge) (a : Act) : Prop :=
  ∀ i bytes k data, a = .arrive i (.frame bytes) → ses.chunkOf bytes = .ok (k, data) →
    ∀ (j : ℕ) d, m.heads[j]? ≠ some (some (k, d))

/-- Each chunk that was read was read once, and is held back or in the sink. -/
structure Once (ses : Session) (m : Merge) : Prop where
  nodup : m.failed = none → (m.numbers ses).Nodup
  placed : m.failed = none → ∀ k ∈ m.numbers ses, k < m.next ∨
    ∃ (i : ℕ) (d : Bytes), m.heads[i]? = some (some (k, d))

theorem Once.start (ses : Session) (rooms : ℕ) : Once ses (Merge.start rooms) := by
  constructor <;> simp [numbers, Merge.start]

theorem Once.of_failed {e : LocalSend.ErrorInfo} (h : m.failed = some e) : Once ses m := by
  constructor <;> simp [h]

theorem Once.step (h : Once ses m) (hnot : NotHeld ses m a)
    (hs : Merge.step ses size m a = some m') : Once ses m' := by
  obtain ⟨hok, -, hm⟩ := move_of_step hs
  cases hm with
  | @take i data hi =>
    refine ⟨fun _ => h.nodup hok, fun _ k hk => ?_⟩
    rcases h.placed hok k hk with hlt | ⟨j, d, hj⟩
    · exact Or.inl (by dsimp only; omega)
    · by_cases hij : i = j
      · subst hij
        rw [hi] at hj
        obtain ⟨rfl, -⟩ := Prod.mk.inj (Option.some.inj (Option.some.inj hj))
        exact Or.inl (Nat.lt_succ_self _)
      · exact Or.inr ⟨j, d, by rw [List.getElem?_set_ne hij, hj]⟩
  | sinkFails n e hi => exact .of_failed rfl
  | ended hi => exact ⟨h.nodup, h.placed⟩
  | ping hi => exact h
  | reject hi hping e hbad => exact .of_failed rfl
  | @hold i k bytes data hi hping hchunk hnext hcount hlength =>
    have hnumbers : Merge.numbers ses { m with
        frames := (i, bytes) :: m.frames, heads := m.heads.set i (some (k, data)) } =
        k :: m.numbers ses := by
      simp [numbers, hchunk, Except.toOption]
    have hlen : i < m.heads.length := (List.getElem?_eq_some_iff.mp hi.1).1
    constructor
    · intro _
      rw [hnumbers]
      refine List.nodup_cons.mpr ⟨fun hk => ?_, h.nodup hok⟩
      rcases h.placed hok k hk with hlt | ⟨j, d, hj⟩
      · omega
      · exact hnot i bytes k data rfl hchunk j d hj
    · intro _ k' hk'
      rw [hnumbers] at hk'
      rcases List.mem_cons.mp hk' with rfl | hk'
      · exact Or.inr ⟨i, data, by simp [hlen]⟩
      · refine (h.placed hok k' hk').imp_right fun ⟨j, d, hj⟩ => ⟨j, d, ?_⟩
        have hij : i ≠ j := by
          rintro rfl
          rw [hi.1] at hj
          cases hj
        rw [List.getElem?_set_ne hij, hj]
  | never | timeout => exact .of_failed rfl

/-- In a run that reads no frame whose chunk is held back, a chunk that is read twice ends it with
an error. -/
theorem duplicate_fails {as : List Act} (hrun : exec (step ses size) (start rooms) as = some m)
    (hnot : Along (step ses size) (NotHeld ses) (start rooms) as) (hdup : ¬ (m.numbers ses).Nodup) :
    ∃ e, m.result size = some (.error e) := by
  have h : Once ses m :=
    exec_invariant_along (fun _ _ _ h hnot hs => h.step hnot hs) (Once.start ses rooms) hnot hrun
  cases hf : m.failed with
  | none => exact absurd (h.nodup hf) hdup
  | some e => exact ⟨e, by simp [result, hf]⟩

section Twice

open Receive (plain)

def zeros : Bytes := List.replicate chunkBytes 0

/-- The frames of a file of one whole chunk and one byte. -/
def frame0 : Bytes := toLeBytes (0 * chunkBytes) ++ zeros

def frame1 : Bytes := toLeBytes (1 * chunkBytes) ++ [7]

theorem chunkOf_frame0 : plain.chunkOf frame0 = .ok (0, zeros) :=
  chunkOf_of_open rfl rfl (by decide)

theorem chunkOf_frame1 : plain.chunkOf frame1 = .ok (1, [7]) := chunkOf_of_open rfl rfl (by decide)

theorem frame0_ne_ping : frame0 ≠ Croc.ping := by
  intro h
  have := congrArg List.length h
  rw [frame0, List.length_append, length_toLeBytes] at this
  simp [Croc.ping] at this
  omega

theorem length_zeros : zeros.length = chunkLength (chunkBytes + 1) 0 := by
  simp [zeros, chunkLength]

theorem read_frame0 {m : Merge} (i : ℕ) (h : m.next = 0) :
    m.read plain (chunkBytes + 1) i (.frame frame0) = { m with
      frames := (i, frame0) :: m.frames, heads := m.heads.set i (some (0, zeros)) } :=
  read_frame frame0_ne_ping chunkOf_frame0 h.le (by decide) length_zeros

theorem read_frame1 {m : Merge} (i : ℕ) (h : m.next ≤ 1) :
    m.read plain (chunkBytes + 1) i (.frame frame1) = { m with
      frames := (i, frame1) :: m.frames, heads := m.heads.set i (some (1, [7])) } :=
  read_frame (by decide) chunkOf_frame1 h (by decide) (by decide)

theorem frames_read_frame0 (m : Merge) (i : ℕ) :
    (m.read plain (chunkBytes + 1) i (.frame frame0)).frames = (i, frame0) :: m.frames := by
  simp only [read, if_neg frame0_ne_ping, chunkOf_frame0]
  split_ifs <;> rfl

def firstTaken : Merge where
  heads := [none, none]
  ended := [false, false]
  hash := Xxh64.new.update zeros
  next := 1
  sink := zeros
  failed := none
  frames := [(0, frame0)]

theorem numbers_cons_frame0 {m : Merge} {i : ℕ} {frames : List (ℕ × Bytes)}
    (h : m.frames = (i, frame0) :: frames) :
    m.numbers plain = 0 :: ({ m with frames := frames } : Merge).numbers plain := by
  have hnumber : (plain.chunkOf frame0).toOption.map Prod.fst = some 0 := by
    rw [chunkOf_frame0]
    rfl
  rw [numbers, h]
  exact List.filterMap_cons_some hnumber

/-- It comes again in another room. -/
theorem duplicate_fails_again : ∃ m, exec (step plain (chunkBytes + 1)) (start 2)
      [.arrive 0 (.frame frame0), .take, .arrive 1 (.frame frame0)] = some m ∧
    ∃ e, m.result (chunkBytes + 1) = some (.error e) := by
  have h1 : step plain (chunkBytes + 1) (start 2) (.arrive 0 (.frame frame0)) = some
      { start 2 with frames := [(0, frame0)], heads := [some (0, zeros), none] } :=
    (step_arrive rfl (by decide) rfl ⟨rfl, rfl⟩ _).trans (congrArg some (read_frame0 0 rfl))
  have h2 : step plain (chunkBytes + 1)
      { start 2 with frames := [(0, frame0)], heads := [some (0, zeros), none] } .take =
      some firstTaken := step_take rfl (by decide) (i := 0) rfl
  have h3 : step plain (chunkBytes + 1) firstTaken (.arrive 1 (.frame frame0)) =
      some (firstTaken.read plain (chunkBytes + 1) 1 (.frame frame0)) :=
    step_arrive rfl (by decide) rfl ⟨rfl, rfl⟩ _
  have hrun := exec_cons_eq_some.mpr ⟨_, h1, exec_cons_eq_some.mpr ⟨_, h2,
    exec_cons_eq_some.mpr ⟨_, h3, exec_nil _⟩⟩⟩
  have hfree : ∀ (heads : List (Option (ℕ × Bytes))) k (j : ℕ) d, (∀ h ∈ heads, h = none) →
      heads[j]? ≠ some (some (k, d)) :=
    fun heads k j d hnone hj => by cases hnone _ (List.mem_of_getElem? hj)
  refine ⟨_, hrun, duplicate_fails hrun (.cons ?_ h1 (.cons ?_ h2 (.cons ?_ h3 trivial))) ?_⟩
  · exact fun i bytes k data _ _ j d => hfree _ k j d (by simp [start])
  · rintro i bytes k data ⟨⟩
  · exact fun i bytes k data _ _ j d => hfree _ k j d (by simp [firstTaken])
  · rw [numbers_cons_frame0 (frames_read_frame0 _ 1), numbers_cons_frame0 (i := 0) rfl]
    exact fun h => (List.nodup_cons.mp h).1 (List.mem_cons_self ..)

/-- The last chunk comes in two rooms, the first in a third: all is taken, and one is left. -/
theorem duplicate_unnoticed : ∃ m, exec (step plain (chunkBytes + 1)) (start 3)
      [.arrive 0 (.frame frame1), .arrive 1 (.frame frame1), .arrive 2 (.frame frame0),
        .take, .take] =
      some m ∧
    m.frames = [(2, frame0), (1, frame1), (0, frame1)] ∧ plain.chunkOf frame1 = .ok (1, [7]) ∧
    m.result (chunkBytes + 1) = some (.ok m.hash.finish) :=
  ⟨_, exec_cons_eq_some.mpr ⟨_, (step_arrive rfl (by decide) rfl ⟨rfl, rfl⟩ _).trans
      (congrArg some (read_frame1 0 (by decide))),
    exec_cons_eq_some.mpr ⟨_, (step_arrive rfl (by decide) rfl ⟨rfl, rfl⟩ _).trans
      (congrArg some (read_frame1 1 (by decide))),
    exec_cons_eq_some.mpr ⟨_, (step_arrive rfl (by decide) rfl ⟨rfl, rfl⟩ _).trans
      (congrArg some (read_frame0 2 rfl)),
    exec_cons_eq_some.mpr ⟨_, step_take rfl (by decide) (i := 2) rfl,
    exec_cons_eq_some.mpr ⟨_, step_take rfl (by decide) (i := 0) rfl, exec_nil _⟩⟩⟩⟩⟩,
    rfl, chunkOf_frame1, rfl⟩

end Twice

end Merge

end Sukkula.Croc
