import Sukkula.Croc.Message

/-! # Receiving over croc, after the yes

`after_accept`: each file of the list is asked for, merged, checked against its
hash and placed. Every wait may fail, and the transfer may be cancelled at every
wait; what the sender says and when is not ours.
-/

namespace Sukkula.Croc

open Offer Transition
open LocalSend (ErrorInfo cancelled)

structure Offered where
  index : ℕ
  size : ℕ
  hash : Option Bytes
  size_lt : size < 2 ^ 64
  deriving DecidableEq

/-- A file that was placed: which one, under what name, and what is in it. -/
structure Placed where
  theirs : Offered
  name : Str
  data : Bytes

namespace Receive

inductive Phase
  | head
  | empty
  | requesting
  | merging (m : Merge)
  | closing (m : Merge)
  | closed (m : Merge)
  | placing (m : Merge)
  | goodbye
  | ended (result : Except ErrorInfo (List Str))

end Receive

structure Receive where
  todo : List (Offered × OfferFile)
  phase : Receive.Phase
  saved : List Str
  placed : List Placed

namespace Receive

def start (files : List (Offered × OfferFile)) : Receive := ⟨files, .head, [], []⟩

inductive Act
  -- The empty text is left out, or the list is at its end.
  | skip
  -- The inbox begins the file, where there is one to begin.
  | begin
  | sent
  | merge (a : Merge.Act)
  | message (kind : Kind)
  | commit (name : Str)
  | emit
  | fail (error : ErrorInfo)
  | cancel
  deriving DecidableEq

def stop (r : Receive) (e : ErrorInfo) : Receive := { r with phase := .ended (.error e) }

/-- A file was placed, and is the next one's turn. -/
def place (r : Receive) (theirs : Offered) (rest : List (Offered × OfferFile)) (name : Str)
    (data : Bytes) : Receive where
  todo := rest
  phase := .head
  saved := r.saved ++ [name]
  placed := r.placed ++ [⟨theirs, name, data⟩]

def next (text : Bool) (r : Receive) (theirs : Offered) (rest : List (Offered × OfferFile)) :
    Act → Option Receive
  | .skip => if theirs.size = 0 ∧ text then some { r with todo := rest } else none
  | .begin =>
    if theirs.size = 0 then if text then none else some { r with phase := .empty }
    else some { r with phase := .requesting }
  | .fail e => if text then none else some (r.stop e)
  | _ => none

def merged (r : Receive) (theirs : Offered) (m : Merge) : Receive :=
  match m.result theirs.size with
  | none => { r with phase := .merging m }
  | some (.error e) => r.stop e
  | some (.ok hash) =>
    if some hash = theirs.hash then { r with phase := .closing m }
    else r.stop (protocol "the file arrived other than it was sent")

/-- What the sender says when the file is closed. -/
def answered (r : Receive) (m : Merge) : Kind → Receive
  | .closeRecipient => { r with phase := .placing m }
  | .error => r.stop ⟨.refused, "the sender cancelled"⟩
  | .other | .externalIp => r
  | _ => r.stop (protocol "the croc sender spoke out of turn")

def step (ses : Session) (text : Bool) (rooms : ℕ) (r : Receive) (a : Act) : Option Receive :=
  match r.phase, r.todo, a with
  | .ended _, _, _ => none
  | _, _, .cancel => some (r.stop cancelled)
  | .head, [], .skip => some { r with phase := .goodbye }
  | .head, (theirs, _) :: rest, a => r.next text theirs rest a
  | .empty, (theirs, _) :: rest, .commit name => some (r.place theirs rest name [])
  | .requesting, _, .sent => some { r with phase := .merging (.start rooms) }
  | .merging m, (theirs, _) :: _, .merge a => (m.step ses theirs.size a).map (r.merged theirs)
  | .closing m, _, .sent => some { r with phase := .closed m }
  | .closed m, _, .message kind => some (r.answered m kind)
  | .placing m, (theirs, _) :: rest, .commit name =>
    if text then none else some (r.place theirs rest name m.sink)
  | .placing _, _ :: rest, .emit =>
    if text then some { r with todo := rest, phase := .head } else none
  | .goodbye, _, .sent => some { r with phase := .ended (.ok r.saved) }
  | .empty, _, .fail e | .requesting, _, .fail e | .closing _, _, .fail e | .closed _, _, .fail e =>
    some (r.stop e)
  | .placing _, _, .fail e => if text then none else some (r.stop e)
  | _, _, _ => none

section Moves

variable {ses : Session} {text : Bool} {rooms : ℕ} {r r' : Receive} {a : Act}

inductive Move (ses : Session) (rooms : ℕ) (r : Receive) : Receive → Prop
  | stop (e : ErrorInfo) : Move ses rooms r (r.stop e)
  | stay : Move ses rooms r r
  | skip {f : Offered × OfferFile} {rest : List (Offered × OfferFile)} (hp : r.phase = .head)
      (htodo : r.todo = f :: rest) : Move ses rooms r { r with todo := rest }
  | empty {f : Offered × OfferFile} {rest : List (Offered × OfferFile)} (htodo : r.todo = f :: rest)
      (hsize : f.1.size = 0) : Move ses rooms r { r with phase := .empty }
  | request {f : Offered × OfferFile} {rest : List (Offered × OfferFile)}
    (htodo : r.todo = f :: rest)
      (hsize : f.1.size ≠ 0) : Move ses rooms r { r with phase := .requesting }
  | placeEmpty {f : Offered × OfferFile} {rest : List (Offered × OfferFile)} (hp : r.phase = .empty)
      (htodo : r.todo = f :: rest) (name : Str) : Move ses rooms r (r.place f.1 rest name [])
  | start (hp : r.phase = .requesting) :
    Move ses rooms r { r with phase := .merging (.start rooms) }
  | merge {f : Offered × OfferFile} {rest : List (Offered × OfferFile)} {m m' : Merge}
      {a : Merge.Act} (hp : r.phase = .merging m) (htodo : r.todo = f :: rest)
      (hm : m.step ses f.1.size a = some m') : Move ses rooms r (r.merged f.1 m')
  | closed {m : Merge} (hp : r.phase = .closing m) : Move ses rooms r { r with phase := .closed m }
  | placing {m : Merge} (hp : r.phase = .closed m) : Move ses rooms r { r with phase := .placing m }
  | place {f : Offered × OfferFile} {rest : List (Offered × OfferFile)} {m : Merge}
      (hp : r.phase = .placing m) (htodo : r.todo = f :: rest) (name : Str) :
      Move ses rooms r (r.place f.1 rest name m.sink)
  | shown {rest : List (Offered × OfferFile)} :
      Move ses rooms r { r with todo := rest, phase := .head }
  | goodbye : Move ses rooms r { r with phase := .goodbye }
  | done : Move ses rooms r { r with phase := .ended (.ok r.saved) }

theorem move_next {f : Offered × OfferFile} {rest : List (Offered × OfferFile)}
    (hp : r.phase = .head) (htodo : r.todo = f :: rest) (h : r.next text f.1 rest a = some r') :
    Move ses rooms r r' := by
  cases a with
  | skip =>
    simp only [next] at h
    split_ifs at h
    exact Option.some.inj h ▸ .skip hp htodo
  | begin =>
    simp only [next] at h
    split_ifs at h with hsize
    · exact Option.some.inj h ▸ .empty htodo hsize
    · exact Option.some.inj h ▸ .request htodo hsize
  | fail e =>
    simp only [next] at h
    split_ifs at h
    exact Option.some.inj h ▸ .stop e
  | sent | merge | message | commit | emit | cancel => cases h

theorem move_answered {m : Merge} (hp : r.phase = .closed m) (kind : Kind) :
    Move ses rooms r (r.answered m kind) := by
  cases kind with
  | closeRecipient => exact .placing hp
  | other | externalIp => exact .stay
  | error | pake | pakeConfirm | fileInfo | recipientReady | closeSender | finished => exact .stop _

theorem move_of_step (h : step ses text rooms r a = some r') : Move ses rooms r r' := by
  unfold step at h
  split at h
  · cases h
  · exact Option.some.inj h ▸ .stop _
  · exact Option.some.inj h ▸ .goodbye
  · exact move_next ‹_› ‹r.todo = _› h
  · rename_i hp htodo
    exact Option.some.inj h ▸ .placeEmpty hp htodo _
  · exact Option.some.inj h ▸ .start ‹_›
  · rename_i hp htodo
    obtain ⟨m', hm, rfl⟩ := Option.map_eq_some_iff.mp h
    exact .merge hp htodo hm
  · exact Option.some.inj h ▸ .closed ‹_›
  · exact Option.some.inj h ▸ move_answered ‹_› _
  · rename_i hp htodo
    split_ifs at h
    exact Option.some.inj h ▸ .place hp htodo _
  · split_ifs at h
    exact Option.some.inj h ▸ .shown
  · exact Option.some.inj h ▸ .done
  · exact Option.some.inj h ▸ .stop _
  · exact Option.some.inj h ▸ .stop _
  · exact Option.some.inj h ▸ .stop _
  · exact Option.some.inj h ▸ .stop _
  · split_ifs at h
    exact Option.some.inj h ▸ .stop _
  · cases h

end Moves

section Sound

variable {ses : Session} {text : Bool} {rooms : ℕ} {r r' : Receive} {a : Act}
  {files : List (Offered × OfferFile)}

/-- A file with bytes is whole, in order, and has the hash of the list. -/
def Whole (ses : Session) (p : Placed) : Prop :=
  p.theirs.size ≠ 0 → p.data.length = p.theirs.size ∧ some (xxh64 p.data) = p.theirs.hash ∧
    ∃ frames bodies, bodies.length = count p.theirs.size ∧
      Merge.Bodies ses p.theirs.size frames bodies ∧ p.data = bodies.flatten

/-- The merge of a file is done, and its hash is that of the list. -/
structure Checked (ses : Session) (rooms : ℕ) (theirs : Offered) (m : Merge) : Prop where
  sound : m.Sound ses theirs.size rooms
  hash : ∃ h, m.result theirs.size = some (.ok h) ∧ some h = theirs.hash

theorem Checked.whole {theirs : Offered} {m : Merge} (h : Checked ses rooms theirs m) (name : Str) :
    Whole ses ⟨theirs, name, m.sink⟩ := by
  obtain ⟨hash, hres, heq⟩ := h.hash
  obtain ⟨bodies, hlen, hb, hsink, hsize, rfl⟩ := h.sound.whole theirs.size_lt hres
  exact fun _ => ⟨hsize, heq, m.frames, bodies, hlen, hb, hsink⟩

def AtWork (ses : Session) (rooms : ℕ) (theirs : Offered) : Phase → Prop
  | .empty => theirs.size = 0
  | .merging m => m.Sound ses theirs.size rooms
  | .closing m | .closed m | .placing m => Checked ses rooms theirs m
  | _ => True

structure Sound (ses : Session) (rooms : ℕ) (r : Receive) : Prop where
  saved : r.saved = r.placed.map Placed.name
  whole : ∀ p ∈ r.placed, Whole ses p
  work : ∀ f rest, r.todo = f :: rest → AtWork ses rooms f.1 r.phase
  done : ∀ saved, r.phase = .ended (.ok saved) → saved = r.saved

namespace Sound

theorem start (files : List (Offered × OfferFile)) : Sound ses rooms (start files) where
  saved := rfl
  whole := by simp [Receive.start]
  work _ _ _ := trivial
  done := by simp [Receive.start]

theorem move (h : Sound ses rooms r) (phase : Phase)
    (hwork : ∀ f rest, r.todo = f :: rest → AtWork ses rooms f.1 phase)
    (hdone : ∀ saved, phase = .ended (.ok saved) → saved = r.saved) :
    Sound ses rooms { r with phase := phase } := ⟨h.saved, h.whole, hwork, hdone⟩

theorem stop (h : Sound ses rooms r) (e : ErrorInfo) : Sound ses rooms (r.stop e) :=
  h.move _ (fun _ _ _ => trivial) (by simp)

theorem place (h : Sound ses rooms r) {theirs : Offered} (rest : List (Offered × OfferFile))
    (name : Str) {data : Bytes} (hdata : Whole ses ⟨theirs, name, data⟩) :
    Sound ses rooms (r.place theirs rest name data) where
  saved := by simp [Receive.place, h.saved]
  whole p hp := by
    rcases List.mem_append.mp hp with hp | hp
    · exact h.whole p hp
    · exact List.mem_singleton.mp hp ▸ hdata
  work _ _ _ := trivial
  done := by simp [Receive.place]

theorem merged (h : Sound ses rooms r) {f : Offered × OfferFile} {rest : List (Offered × OfferFile)}
    (htodo : r.todo = f :: rest) {m : Merge} (hm : m.Sound ses f.1.size rooms) :
    Sound ses rooms (r.merged f.1 m) := by
  have hfirst : ∀ {g : Offered × OfferFile} {rest' : List (Offered × OfferFile)},
      r.todo = g :: rest' → g = f := by
    intro g rest' hg
    rw [htodo] at hg
    exact (List.cons.inj hg).1.symm
  unfold Receive.merged
  split
  · exact h.move _ (fun g _ hg => hfirst hg ▸ hm) (by simp)
  · exact h.stop _
  · rename_i hash hres
    split_ifs with heq
    · exact h.move _ (fun g _ hg => hfirst hg ▸ ⟨hm, hash, hres, heq⟩) (by simp)
    · exact h.stop _

theorem of_move (h : Sound ses rooms r) (hm : Move ses rooms r r') : Sound ses rooms r' := by
  cases hm with
  | stop e => exact h.stop e
  | stay => exact h
  | skip hp htodo =>
    refine ⟨h.saved, h.whole, fun _ _ _ => ?_, h.done⟩
    dsimp only
    rw [hp]
    trivial
  | @empty f rest htodo hsize =>
    refine h.move _ (fun g _ hg => ?_) (by simp)
    rw [htodo] at hg
    exact (List.cons.inj hg).1 ▸ hsize
  | request htodo hsize => exact h.move _ (fun _ _ _ => trivial) (by simp)
  | placeEmpty hp htodo name =>
    have hsize := h.work _ _ htodo
    rw [hp] at hsize
    exact h.place _ name fun hne => absurd hsize hne
  | start hp => exact h.move _ (fun _ _ _ => Merge.Sound.start ..) (by simp)
  | merge hp htodo hm =>
    have hsound := h.work _ _ htodo
    rw [hp] at hsound
    obtain ⟨hok, hnext, hmove⟩ := Merge.move_of_step hm
    exact h.merged htodo (Merge.Sound.of_move hsound hok hnext hmove)
  | closed hp =>
    refine h.move _ (fun g _ hg => ?_) (by simp)
    have := h.work g _ hg
    rwa [hp] at this
  | placing hp =>
    refine h.move _ (fun g _ hg => ?_) (by simp)
    have := h.work g _ hg
    rwa [hp] at this
  | place hp htodo name =>
    have hchecked := h.work _ _ htodo
    rw [hp] at hchecked
    exact h.place _ name (Checked.whole hchecked name)
  | shown => exact ⟨h.saved, h.whole, fun _ _ _ => trivial, by simp⟩
  | goodbye => exact h.move _ (fun _ _ _ => trivial) (by simp)
  | done => exact h.move _ (fun _ _ _ => trivial) (by simp)

theorem of_run {as : List Act}
    (hrun : exec (step ses text rooms) (Receive.start files) as = some r) : Sound ses rooms r :=
  exec_invariant (fun _ _ _ h hs => h.of_move (move_of_step hs)) (start files) hrun

end Sound

/-- In every run of `receive_file`, one chunk per room at most is held back, and the sink has the
first chunks of the file in order, each from a frame that was read. If it returns a hash, these are
all of them, and the hash is theirs. And a file with bytes is placed only if its hash is that of the
list. -/
theorem received_whole (ses : Session) :
    (∀ size < 2 ^ 64, ∀ rooms as m, exec (Merge.step ses size) (.start rooms) as = some m →
      m.heads.length = rooms ∧
      (∃ bodies, Merge.Bodies ses size m.frames bodies ∧ m.sink <+: bodies.flatten) ∧
      ∀ hash, m.result size = some (.ok hash) → ∃ bodies, bodies.length = count size ∧
        Merge.Bodies ses size m.frames bodies ∧ m.sink = bodies.flatten ∧ m.sink.length = size ∧
        hash = xxh64 m.sink) ∧
    ∀ text rooms files as r, exec (step ses text rooms) (start files) as = some r →
      ∀ p ∈ r.placed, Whole ses p := by
  constructor
  · intro size hsize rooms as m hrun
    have h := Merge.Sound.of_run hrun
    obtain ⟨bodies, hb, hput, -⟩ := h.put
    exact ⟨h.heads_length, ⟨bodies, hb, hput⟩, fun hash hres => h.whole hsize hres⟩
  · intro text rooms files as r hrun
    exact (Sound.of_run hrun).whole

end Sound

def plain : Session := ⟨some, false, fun bytes _ => some bytes⟩

theorem zero_lt : 0 < 2 ^ 64 := by decide

theorem three_lt : 3 < 2 ^ 64 := by decide

def threeBytes : Offered := ⟨0, 3, some (xxh64 [1, 2, 3]), three_lt⟩

/-- It is asked for, comes in one chunk, is closed and placed. -/
def threeBytesRun : List Act :=
  [.begin, .sent, .merge (.arrive 0 (.frame ping)),
    .merge (.arrive 0 (.frame [0, 0, 0, 0, 0, 0, 0, 0, 1, 2, 3])), .merge .take, .sent,
    .message .closeRecipient, .commit ['a'], .skip, .sent]

theorem received_whole_three : ∃ r p,
    exec (step plain false 2) (start [(threeBytes, ⟨.ofRaw ['a'], 3, none, none⟩)])
      threeBytesRun = some r ∧
    r.placed = [p] ∧ p.name = ['a'] ∧ p.data.length = 3 ∧ some (xxh64 p.data) =
    threeBytes.hash := by
  have hrun : (exec (step plain false 2) (start [(threeBytes, ⟨.ofRaw ['a'], 3, none, none⟩)])
      threeBytesRun).map (fun r => r.placed.map fun p => (p.theirs, p.name)) =
      some [(threeBytes, ['a'])] := by decide +kernel
  obtain ⟨r, hr, hplaced⟩ := Option.map_eq_some_iff.mp hrun
  obtain ⟨p, hp, hpair⟩ := List.map_eq_singleton_iff.mp hplaced
  obtain ⟨htheirs, hname⟩ := Prod.mk.inj hpair
  have hwhole := (received_whole plain).2 false 2 _ _ r hr p (by simp [hp])
  obtain ⟨hlen, hhash, -⟩ := hwhole (by rw [htheirs]; decide)
  exact ⟨r, p, hr, hp, hname, by rw [hlen, htheirs]; rfl, by rw [hhash, htheirs]⟩

end Receive

end Sukkula.Croc
