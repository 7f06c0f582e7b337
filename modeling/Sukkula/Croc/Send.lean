import Sukkula.Croc.Serve

/-! # Sending over croc, after the list

The sender's loop from its file list on: the receiver asks for a file, or some
chunks of it, the chunks go out over the rooms, each room in a task of its own,
and both sides close the file. What was sent is a history. A request is checked
against the list; nothing checks it against the requests before it.
-/

namespace Sukkula.Croc

open Transition
open LocalSend (ErrorInfo)

/-- A chunk that was put on a room: of which file, which one, and what was in it. -/
structure Sent where
  room : ℕ
  index : ℕ
  number : ℕ
  plain : Bytes
  deriving DecidableEq

namespace Send

inductive Phase
  | waiting
  -- The rooms send what is left of a request; whether the receiver has closed the file.
  | serving (index : ℕ) (source : Chunks) (queue : ℕ → List ℕ) (closed : Bool)
  | closing
  | answering
  | ended (result : Except ErrorInfo Unit)

end Send

structure Send where
  phase : Send.Phase
  sent : List Sent

namespace Send

def start : Send := ⟨.waiting, []⟩

inductive Act
  -- A control message; of a request, what is in it, if it can be read.
  | message (kind : Kind) (wire : Option RequestWire)
  | put (room : ℕ)
  | served
  | answered
  -- What is waited for fails, or the transfer is cancelled.
  | fail (error : ErrorInfo)
  deriving DecidableEq

def declined : ErrorInfo := ⟨.refused, "the receiver declined"⟩

def outOfTurn : ErrorInfo := protocol "the croc receiver spoke out of turn"

def goTo (s : Send) (phase : Phase) : Send := { s with phase := phase }

def stop (s : Send) (e : ErrorInfo) : Send := s.goTo (.ended (.error e))

def onMessage (n : ℕ) (sources : List Chunks) (s : Send) (wire : Option RequestWire) : Kind → Send
  | .recipientReady =>
    match wire.bind fun w => readRequest w (sources.map Chunks.size) with
    | none => s.stop (protocol "the croc receiver asked for something we do not have")
    | some r =>
      match sources[r.index]? with
      | none => s.stop (protocol "no such file")
      | some c => s.goTo (.serving r.index c (deal n r.chunks) false)
  | .finished => s.goTo (.ended (.ok ()))
  | .error => s.stop declined
  | .other | .externalIp => s
  | _ => s.stop outOfTurn

def put (s : Send) (i index : ℕ) (c : Chunks) (queue : ℕ → List ℕ) (closed : Bool) : Option Send :=
  match queue i with
  | [] => none
  | k :: rest =>
    match c.read k with
    | .error e => some (s.stop e)
    | .ok plain => some {
        phase := .serving index c (Function.update queue i rest) closed
        sent := ⟨i, index, k, plain⟩ :: s.sent }

def step (n : ℕ) (sources : List Chunks) (s : Send) (a : Act) : Option Send :=
  match s.phase, a with
  | .ended _, _ => none
  | _, .fail e => some (s.stop e)
  | .waiting, .message kind wire => some (s.onMessage n sources wire kind)
  | .serving index c queue closed, .put i => s.put i index c queue closed
  | .serving index c queue false, .message kind _ =>
    match kind with
    | .closeSender => some (s.goTo (.serving index c queue true))
    | .other => some s
    | .error => some (s.stop declined)
    | _ => some (s.stop outOfTurn)
  | .serving _ _ queue closed, .served =>
    if ∀ i < n, queue i = [] then some (s.goTo (if closed then .answering else .closing)) else none
  | .closing, .message kind _ =>
    match kind with
    | .closeSender => some (s.goTo .answering)
    | .other => some s
    | .error => some (s.stop declined)
    | _ => some (s.stop outOfTurn)
  | .answering, .answered => some (s.goTo .waiting)
  | _, _ => none

inductive Move (n : ℕ) (sources : List Chunks) (s : Send) (a : Act) : Send → Prop
  | stay : Move n sources s a s
  | idle (phase : Phase) (hp : ∀ index c queue closed, phase ≠ .serving index c queue closed) :
      Move n sources s a (s.goTo phase)
  | close {index : ℕ} {c : Chunks} {queue : ℕ → List ℕ} {closed closed' : Bool}
      (hp : s.phase = .serving index c queue closed) :
      Move n sources s a (s.goTo (.serving index c queue closed'))
  | serve {wire : RequestWire} {r : Request} {c : Chunks}
      (ha : a = .message .recipientReady (some wire))
      (hr : readRequest wire (sources.map Chunks.size) = some r) (hc : sources[r.index]? = some c) :
      Move n sources s a (s.goTo (.serving r.index c (deal n r.chunks) false))
  | put {i index k : ℕ} {c : Chunks} {queue : ℕ → List ℕ} {closed : Bool} {rest : List ℕ}
      {plain : Bytes} (hp : s.phase = .serving index c queue closed) (hq : queue i = k :: rest)
      (hread : c.read k = .ok plain) :
      Move n sources s a ⟨.serving index c (Function.update queue i rest) closed,
        ⟨i, index, k, plain⟩ :: s.sent⟩

section Moves

variable {n : ℕ} {sources : List Chunks} {s s' : Send} {a : Act}

theorem move_stop (e : ErrorInfo) : Move n sources s a (s.stop e) := .idle _ (by simp)

theorem move_onMessage (kind : Kind) (wire : Option RequestWire) :
    Move n sources s (.message kind wire) (s.onMessage n sources wire kind) := by
  cases kind with
  | recipientReady =>
    simp only [onMessage]
    split
    · exact move_stop _
    · rename_i r hr
      obtain ⟨w, rfl, hr⟩ := Option.bind_eq_some_iff.mp hr
      split
      · exact move_stop _
      · exact .serve rfl hr ‹_›
  | finished => exact .idle _ (by simp)
  | other | externalIp => exact .stay
  | error | pake | pakeConfirm | fileInfo | closeSender | closeRecipient => exact move_stop _

theorem move_put {i index : ℕ} {c : Chunks} {queue : ℕ → List ℕ} {closed : Bool}
    (hp : s.phase = .serving index c queue closed) (h : s.put i index c queue closed = some s') :
    Move n sources s a s' := by
  unfold put at h
  split at h
  · cases h
  · split at h
    · exact Option.some.inj h ▸ move_stop _
    · exact Option.some.inj h ▸ .put hp ‹_› ‹_›

theorem move_of_step (h : step n sources s a = some s') : Move n sources s a s' := by
  unfold step at h
  split at h
  · cases h
  · exact Option.some.inj h ▸ move_stop _
  · exact Option.some.inj h ▸ move_onMessage _ _
  · exact move_put ‹_› h
  · split at h
    · exact Option.some.inj h ▸ .close ‹_›
    · exact Option.some.inj h ▸ .stay
    · exact Option.some.inj h ▸ move_stop _
    · exact Option.some.inj h ▸ move_stop _
  · split_ifs at h
    · exact Option.some.inj h ▸ .idle _ (by simp)
    · exact Option.some.inj h ▸ .idle _ (by simp)
  · split at h
    · exact Option.some.inj h ▸ .idle _ (by simp)
    · exact Option.some.inj h ▸ .stay
    · exact Option.some.inj h ▸ move_stop _
    · exact Option.some.inj h ▸ move_stop _
  · exact Option.some.inj h ▸ .idle _ (by simp)
  · cases h

end Moves

section Once

variable {n : ℕ} {sources : List Chunks} {s s' : Send} {a : Act}

/-- A chunk of a file of the list, as it is there. -/
def Listed (sources : List Chunks) (x : Sent) : Prop :=
  ∃ c, sources[x.index]? = some c ∧ x.number < count c.size ∧ c.read x.number = .ok x.plain

def Sent.key (x : Sent) : ℕ × ℕ := (x.index, x.number)

/-- No chunk is asked for that was sent before. -/
def Fresh (sources : List Chunks) (s : Send) (a : Act) : Prop :=
  ∀ wire r, a = .message .recipientReady (some wire) →
    readRequest wire (sources.map Chunks.size) = some r →
    ∀ k ∈ r.chunks, (r.index, k) ∉ s.sent.map Sent.key

theorem mem_deal {chunks : List ℕ} {i k : ℕ} (h : k ∈ deal n chunks i) :
    k ∈ chunks ∧ k % n = i := by
  unfold deal at h
  split_ifs at h
  · simpa using h
  · cases h

/-- What is sent, and will be sent for the request that is served, is of the list. -/
structure Sound (sources : List Chunks) (s : Send) : Prop where
  sent : ∀ x ∈ s.sent, Listed sources x
  serving : ∀ index c queue closed, s.phase = .serving index c queue closed →
    sources[index]? = some c ∧ ∀ i, ∀ k ∈ queue i, k < count c.size

theorem Sound.of_move (h : Sound sources s) (hm : Move n sources s a s') : Sound sources s' := by
  cases hm with
  | stay => exact h
  | idle phase hp =>
    exact ⟨h.sent, fun index c queue closed e => absurd e (hp index c queue closed)⟩
  | close hp =>
    refine ⟨h.sent, fun index' c' queue' closed' e => ?_⟩
    obtain ⟨rfl, rfl, rfl, -⟩ := Phase.serving.inj e
    exact h.serving _ _ _ _ hp
  | @serve wire r c ha hr hc =>
    refine ⟨h.sent, fun index' c' queue' closed' e => ?_⟩
    obtain ⟨rfl, rfl, rfl, -⟩ := Phase.serving.inj e
    obtain ⟨size, hsize, -, hin⟩ := readRequest_inOrder hr
    rw [List.getElem?_map, hc] at hsize
    refine ⟨hc, fun i k hk => ?_⟩
    rw [Option.some.inj hsize]
    exact hin.2 k (mem_deal hk).1
  | @put i index k c queue closed rest plain hp hq hread =>
    obtain ⟨hc, hlt⟩ := h.serving _ _ _ _ hp
    constructor
    · intro x hx
      rcases List.mem_cons.mp hx with rfl | hx
      · exact ⟨c, hc, hlt i k (by simp [hq]), hread⟩
      · exact h.sent x hx
    · intro index' c' queue' closed' e
      obtain ⟨rfl, rfl, rfl, -⟩ := Phase.serving.inj e
      refine ⟨hc, fun j l hl => hlt j l ?_⟩
      by_cases hj : j = i
      · subst hj
        rw [Function.update_self] at hl
        exact hq ▸ List.mem_cons_of_mem k hl
      · rwa [Function.update_of_ne hj] at hl

/-- Nothing was sent twice, or will be for the request that is served. -/
structure Once (s : Send) : Prop where
  nodup : (s.sent.map Sent.key).Nodup
  rooms : ∀ index c queue closed, s.phase = .serving index c queue closed →
    (∀ i, (queue i).Nodup) ∧ (∀ i j k, k ∈ queue i → k ∈ queue j → i = j) ∧
      ∀ i, ∀ k ∈ queue i, (index, k) ∉ s.sent.map Sent.key

theorem Once.of_move (h : Once s) (hfresh : Fresh sources s a) (hm : Move n sources s a s') :
    Once s' := by
  cases hm with
  | stay => exact h
  | idle phase hp =>
    exact ⟨h.nodup, fun index c queue closed e => absurd e (hp index c queue closed)⟩
  | close hp =>
    refine ⟨h.nodup, fun index' c' queue' closed' e => ?_⟩
    obtain ⟨rfl, rfl, rfl, -⟩ := Phase.serving.inj e
    exact h.rooms _ _ _ _ hp
  | @serve wire r c ha hr hc =>
    refine ⟨h.nodup, fun index' c' queue' closed' e => ?_⟩
    obtain ⟨rfl, rfl, rfl, -⟩ := Phase.serving.inj e
    obtain ⟨size, -, -, hin⟩ := readRequest_inOrder hr
    refine ⟨fun i => ?_, fun i j k hi hj => ?_, fun i k hk => ?_⟩
    · unfold deal
      split_ifs
      · exact (hin.1.imp fun hlt => hlt.ne).filter _
      · exact List.nodup_nil
    · rw [← (mem_deal hi).2, (mem_deal hj).2]
    · exact hfresh wire r ha hr k (mem_deal hk).1
  | @put i index k c queue closed rest plain hp hq hread =>
    obtain ⟨hnodup, hunique, hnot⟩ := h.rooms _ _ _ _ hp
    have hi : (k :: rest).Nodup := hq ▸ hnodup i
    have hsub : ∀ j, ∀ l ∈ Function.update queue i rest j, l ∈ queue j ∧ l ≠ k := by
      intro j l hl
      by_cases hj : j = i
      · subst hj
        rw [Function.update_self] at hl
        refine ⟨hq ▸ List.mem_cons_of_mem k hl, ?_⟩
        rintro rfl
        exact (List.nodup_cons.mp hi).1 hl
      · rw [Function.update_of_ne hj] at hl
        refine ⟨hl, ?_⟩
        rintro rfl
        exact hj (hunique j i l hl (by simp [hq]))
    constructor
    · exact List.nodup_cons.mpr ⟨hnot i k (by simp [hq]), h.nodup⟩
    · intro index' c' queue' closed' e
      obtain ⟨rfl, rfl, rfl, -⟩ := Phase.serving.inj e
      refine ⟨fun j => ?_, fun j l m hj hl => ?_, fun j l hl hmem => ?_⟩
      · by_cases hj : j = i
        · rw [hj, Function.update_self]
          exact (List.nodup_cons.mp hi).2
        · rw [Function.update_of_ne hj]
          exact hnodup j
      · exact hunique j l m (hsub j m hj).1 (hsub l m hl).1
      · obtain ⟨hlj, hne⟩ := hsub j l hl
        rcases List.mem_cons.mp hmem with he | hmem
        · exact hne (Prod.mk.inj he).2
        · exact hnot j l hlj hmem

/-- Whatever the receiver says, only chunks of listed files go out, as they are there. In a run that
asks for no chunk that was sent before, each goes out once at most. -/
theorem served_once {as : List Act} (hrun : exec (step n sources) start as = some s) :
    (∀ x ∈ s.sent, Listed sources x) ∧
    (Along (step n sources) (Fresh sources) start as → (s.sent.map Sent.key).Nodup) := by
  constructor
  · have h : Sound sources s :=
      exec_invariant (fun _ _ _ h hs => h.of_move (move_of_step hs))
        ⟨by simp [start], by simp [start]⟩ hrun
    exact h.sent
  · intro hfresh
    have h : Once s :=
      exec_invariant_along (fun _ _ _ h hfresh hs => h.of_move hfresh (move_of_step hs))
        ⟨by simp [start], by simp [start]⟩ hfresh hrun
    exact h.nodup

theorem fresh_message {kind : Kind} {wire : RequestWire} :
    Fresh sources s (.message kind (some wire)) ↔ kind = .recipientReady →
    ∀ r ∈ readRequest wire (sources.map Chunks.size), ∀ k ∈ r.chunks,
      (r.index, k) ∉ s.sent.map Sent.key := by
  constructor
  · rintro h rfl r hr
    exact h wire r rfl hr
  · rintro h _ r ⟨⟩ hr
    exact h rfl r hr

instance : (a : Act) → Decidable (Fresh sources s a)
  | .message _ (some _) => decidable_of_iff' _ fresh_message
  | .message _ none | .put _ | .served | .answered | .fail _ => isTrue nofun

def asked (index : ℕ) : List Act :=
  [.message .recipientReady (some (writeRequest index)), .put 0, .served,
    .message .closeSender none, .answered]

def twoTexts : List Chunks := [.text [7], .text [8, 9]]

theorem served_once_two : ∃ s, exec (step 2 twoTexts) start (asked 1 ++ asked 0) = some s ∧
    s.sent.map Sent.key = [(0, 0), (1, 0)] ∧ (∀ x ∈ s.sent, Listed twoTexts x) ∧
    (s.sent.map Sent.key).Nodup := by
  have hrun : (exec (step 2 twoTexts) start (asked 1 ++ asked 0)).map
      (fun s => s.sent.map Sent.key) =
      some [(0, 0), (1, 0)] := by decide +kernel
  have hfresh : Along (step 2 twoTexts) (Fresh twoTexts) start (asked 1 ++ asked 0) := by
    decide +kernel
  obtain ⟨s, hs, hsent⟩ := Option.map_eq_some_iff.mp hrun
  obtain ⟨hlisted, honce⟩ := served_once hs
  exact ⟨s, hs, hsent, hlisted, honce hfresh⟩

/-- One of them is asked for again, and sent again. -/
theorem served_twice : ∃ s, exec (step 1 [.text [7]]) start (asked 0 ++ asked 0) = some s ∧
    s.sent.map Sent.key = [(0, 0), (0, 0)] := by
  have hrun : (exec (step 1 [.text [7]]) start (asked 0 ++ asked 0)).map
      (fun s => s.sent.map Sent.key) = some [(0, 0), (0, 0)] := by decide +kernel
  exact Option.map_eq_some_iff.mp hrun

end Once

end Send

end Sukkula.Croc
