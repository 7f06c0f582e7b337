import Sukkula.Bluetooth.Obex
import Sukkula.Library.Transition

/-! # A push of several files

The files of a send go one after the other over one session. For each, the push
calls `SendFile` and then waits for the transfer to end, going round through the
queue of updates, the checks, and a poll or a turn of the bus. A step is what
happens between two waits for the bus, with what the bus, the file system, the
clock and the user answer. The files that are complete are written down, for the
statements.
-/

namespace Sukkula.Bluetooth

open Str Transition
open LocalSend (ErrorInfo cancelled)

structure OutgoingFile where
  path : Option Str
  size : ℕ
  deriving DecidableEq, Repr

structure Metadata where
  isFile : Bool
  len : ℕ
  deriving DecidableEq, Repr

/-- The path as obexd must get it: absolute, no NUL, and still the file that was checked. -/
def sourcePath (file : OutgoingFile) (metadata : Option Metadata) : Except ErrorInfo Str :=
  match file.path.filter fun p => '\x00' ∉ p ∧ p.head? = some '/' with
  | none => .error ⟨.badFile, "the file's path cannot be handed to the Bluetooth service"⟩
  | some path =>
    match metadata with
    | none => .error ⟨.badFile, "the file cannot be read"⟩
    | some found =>
      if found.isFile = false ∨ found.len ≠ file.size then .error changed else .ok path

/-- `checked_add` of a duration, in nanoseconds: an instant has 63 bits of seconds. -/
def instantAfter (now duration : ℕ) : Option ℕ :=
  if (now + duration) / 10 ^ 9 < 2 ^ 63 then some (now + duration) else none

/-- The locals of `wait`, and the file it is about. -/
structure Waiting where
  file : OutgoingFile
  transfer : Str
  watch : Watch
  state : FileState
  vanished : Bool
  nextPoll : Option ℕ
  deriving DecidableEq, Repr

/-- Where the loop of `wait` is. -/
inductive Turn
  | draining
  -- In `poll`.
  | polling
  -- In `pump`.
  | pumping
  deriving DecidableEq, Repr

namespace Waiting

variable (w : Waiting)

/-- The checks once the queue is empty; `stop` is whether the send is cancelled. -/
def look (timeouts : Timeouts) (stop : Bool) (now : ℕ) : Except Ended (Waiting × Turn) :=
  if w.vanished then .error (.failed ⟨.network, "the transfer ended without a result"⟩)
  else if w.watch.ownerLost then
    .error (.failed ⟨.unavailable, "the Bluetooth file service stopped"⟩)
  else if stop then .error (.abort cancelled)
  else if w.state.allowance timeouts ≤ now - w.state.lastActivity then
    .error (.abort ⟨.network, "the device stopped responding"⟩)
  else if w.nextPoll.any (· ≤ now) then
    .ok ({ w with nextPoll := instantAfter now timeouts.poll }, .polling)
  else .ok (w, .pumping)

/-- What `poll` makes of the answer to `GetAll`. -/
def poll (answer : Except BusError Message) : Except BusError Update :=
  match answer with
  | .error e => .error e
  | .ok reply =>
    if reply.sender ≠ some w.watch.owner then .error .malformed
    else match reply.array? 0 with
      | none => .error .malformed
      | some props => .ok (readUpdate props)

/-- The signals that came in during the poll are older than its answer and go first. -/
def onPoll (answer : Except BusError Message) : Except Ended (Waiting × Turn) :=
  match w.poll answer with
  | .ok update => .ok ({ w with watch := w.watch.push w.transfer update }, .draining)
  | .error e =>
    if e.isUnknownObject then .ok ({ w with vanished := true }, .draining)
    else match e with
      | .cancelled => .error (.abort cancelled)
      | .disconnected => .error (.failed ⟨.unavailable, "the Bluetooth file service went away"⟩)
      | _ => .ok (w, .draining)

/-- `lost` is whether the bus went away. -/
def onPump (lost : Bool) : Except Ended (Waiting × Turn) :=
  if lost then .error (.failed ⟨.unavailable, "the Bluetooth file service went away"⟩)
  else .ok (w, .draining)

end Waiting

inductive Phase
  -- At the head of the loop of `push_all`.
  | next
  -- `SendFile` waits for its reply.
  | sending (file : OutgoingFile) (watch : Watch)
  | waiting (w : Waiting) (turn : Turn)
  -- `Cancel` waits for its reply.
  | cancelling (error : ErrorInfo)
  | failed (error : ErrorInfo)
  | done
  deriving DecidableEq, Repr

structure Push where
  rest : List OutgoingFile
  phase : Phase := .next
  -- The amounts of all the calls of `add_progress`.
  progress : List ℕ := []
  delivered : List OutgoingFile := []
  deriving DecidableEq, Repr

inductive Act
  -- `push_all` goes on, with what the file system says of the next path.
  | next (metadata : Option Metadata)
  -- A signal, while a call waits or the bus is pumped.
  | signal (m : Message)
  -- The reply to `SendFile`, and the clock as the state is made, updated and waited on.
  | replied (reply : Message) (made updated begun : ℕ)
  | refused (e : BusError) (stop : Bool)
  | pop (now : ℕ)
  | look (stop : Bool) (now : ℕ)
  | polled (answer : Except BusError Message)
  | pumped (lost : Bool)
  -- `Cancel` was answered, or was not in time.
  | cancelled
  deriving Repr

namespace Push

variable (p : Push)

/-- The end of `push_one`. -/
def conclude (file : OutgoingFile) : Ended → Push
  | .complete => { p with phase := .next, delivered := p.delivered ++ [file] }
  | .failed e => { p with phase := .failed e }
  | .abort e => { p with phase := .cancelling e }

def update (w : Waiting) (now : ℕ) (u : Update) : Push :=
  let r := w.state.apply now u
  let p := { p with progress := p.progress ++ r.2.1 }
  match r.2.2 with
  | some ended => p.conclude w.file ended
  | none => { p with phase := .waiting { w with state := r.1 } .draining }

def takeNext (session : Session) (metadata : Option Metadata) : Push :=
  match p.rest with
  | [] => { p with phase := .done }
  | file :: rest =>
    match sourcePath file metadata with
    | .error e => { p with rest, phase := .failed e }
    | .ok _ => { p with rest, phase := .sending file (Watch.new session) }

def onReply (session : Session) (timeouts : Timeouts) (file : OutgoingFile) (watch : Watch)
    (reply : Message) (made updated begun : ℕ) : Push :=
  if reply.sender ≠ some session.owner then { p with phase := .failed malformed }
  else match (reply.path? 0).filter (under · session.path) with
    | none => { p with phase := .failed malformed }
    | some transfer =>
      p.update
        { file
          transfer
          watch := { watch with transfer := some transfer }
          state := .new file.size made
          vanished := false
          nextPoll := instantAfter begun timeouts.poll }
        updated ((reply.array? 1).elim {} readUpdate)

def pop (w : Waiting) (now : ℕ) : Option Push :=
  match w.watch.updates with
  | [] => none
  | (path, u) :: updates =>
    let w := { w with watch := { w.watch with updates } }
    if path = w.transfer then some (p.update w now u)
    else some { p with phase := .waiting w .draining }

/-- The loop of `wait` goes on, or is left. -/
def proceed (file : OutgoingFile) : Except Ended (Waiting × Turn) → Push
  | .error ended => p.conclude file ended
  | .ok (w, turn) => { p with phase := .waiting w turn }

def stepWaiting (timeouts : Timeouts) (w : Waiting) : Turn → Act → Option Push
  | .draining, .pop now => p.pop w now
  | .draining, .look stop now =>
    if w.watch.updates = [] then some (p.proceed w.file (w.look timeouts stop now)) else none
  | .polling, .polled answer => some (p.proceed w.file (w.onPoll answer))
  | .pumping, .pumped lost => some (p.proceed w.file (w.onPump lost))
  | .draining, .signal _ => none
  -- the note that the socket closed is not handed on
  | turn, .signal m =>
    if m.isLocalDisconnect then none
    else some { p with phase := .waiting { w with watch := w.watch.onSignal m } turn }
  | _, _ => none

def step (session : Session) (timeouts : Timeouts) (p : Push) (a : Act) : Option Push :=
  match p.phase, a with
  | .next, .next metadata => some (p.takeNext session metadata)
  | .sending file watch, .signal m =>
    if m.isLocalDisconnect then none else some { p with phase := .sending file (watch.onSignal m) }
  | .sending file watch, .replied reply made updated begun =>
    some (p.onReply session timeouts file watch reply made updated begun)
  | .sending _ _, .refused e stop => some { p with phase := .failed (sendFileError e stop) }
  | .waiting w turn, a => p.stepWaiting timeouts w turn a
  | .cancelling e, .cancelled => some { p with phase := .failed e }
  | _, _ => none

def total (files : List OutgoingFile) : ℕ := (files.map OutgoingFile.size).sum

theorem total_append (files files' : List OutgoingFile) :
    total (files ++ files') = total files + total files' := by
  simp [total]

@[simp] theorem total_cons (file : OutgoingFile) (files : List OutgoingFile) :
    total (file :: files) = file.size + total files :=
  List.sum_cons

variable {p} {p' : Push} {files : List OutgoingFile} {w : Waiting} {session : Session}
  {timeouts : Timeouts}

/-- The push is at this file: those before it are complete, and their sizes and `sent` are
reported. -/
structure At (files : List OutgoingFile) (p : Push) (file : OutgoingFile) (sent : ℕ) : Prop where
  split : files = p.delivered ++ file :: p.rest
  le : sent ≤ file.size
  progress : p.progress.sum = total p.delivered + sent

/-- Where the push is makes no difference to what it has reported. -/
theorem At.withPhase {file : OutgoingFile} {sent : ℕ} (h : At files p file sent) (phase : Phase) :
    At files { p with phase } file sent :=
  ⟨h.split, h.le, h.progress⟩

/-- What has been reported, wherever the push is. -/
def Fits (files : List OutgoingFile) (p : Push) : Phase → Prop
  | .next => files = p.delivered ++ p.rest ∧ p.progress.sum = total p.delivered
  | .sending file _ => At files p file 0
  | .waiting w _ => w.state.size = w.file.size ∧ At files p w.file w.state.sent
  | .cancelling _ | .failed _ => ∃ file sent, At files p file sent
  | .done => files = p.delivered ∧ p.progress.sum = total p.delivered

def Inv (files : List OutgoingFile) (p : Push) : Prop := Fits files p p.phase

theorem inv_new (files : List OutgoingFile) : Inv files { rest := files } := ⟨rfl, rfl⟩

/-- A file that is over: only one of which every byte is reported may be complete. -/
theorem At.conclude {file : OutgoingFile} {sent : ℕ} (h : At files p file sent) {ended : Ended}
    (hend : ended = .complete → sent = file.size) : Inv files (p.conclude file ended) := by
  cases ended with
  | complete =>
    have hsum : p.progress.sum = total (p.delivered ++ [file]) := by
      rw [h.progress, hend rfl, total_append]
      rfl
    exact ⟨by simp [h.split, Push.conclude], hsum⟩
  | failed e | abort e => exact ⟨file, sent, h.withPhase _⟩

/-- The wait for a file goes on, or is over for a reason other than that the file is complete. -/
def Keeps (w : Waiting) : Except Ended (Waiting × Turn) → Prop
  | .error ended => ended ≠ .complete
  | .ok (w', _) => w'.file = w.file ∧ w'.state = w.state

theorem keeps_look (stop : Bool) (now : ℕ) : Keeps w (w.look timeouts stop now) := by
  unfold Waiting.look
  split_ifs <;> simp [Keeps]

theorem keeps_onPoll (answer : Except BusError Message) : Keeps w (w.onPoll answer) := by
  unfold Waiting.onPoll
  split
  · exact ⟨rfl, rfl⟩
  · split_ifs
    · exact ⟨rfl, rfl⟩
    · split <;> simp [Keeps]

theorem keeps_onPump (lost : Bool) : Keeps w (w.onPump lost) := by
  unfold Waiting.onPump
  split <;> simp [Keeps]

theorem At.proceed (h : At files p w.file w.state.sent) (hsize : w.state.size = w.file.size)
    {r : Except Ended (Waiting × Turn)} (hr : Keeps w r) : Inv files (p.proceed w.file r) := by
  cases r with
  | error ended => exact h.conclude fun hend => absurd hend hr
  | ok r =>
    obtain ⟨hfile, hstate⟩ := hr
    constructor
    · rw [hstate, hsize, hfile]
    · rw [hstate, hfile]
      exact h.withPhase _

theorem At.update (h : At files p w.file w.state.sent) (hsize : w.state.size = w.file.size)
    (now : ℕ) (u : Update) : Inv files (p.update w now u) := by
  have hle : w.state.sent ≤ w.state.size := hsize ▸ h.le
  have hcounts := FileState.counts_apply now u hle
  have hat : At files { p with progress := p.progress ++ (w.state.apply now u).2.1 } w.file
      (w.state.apply now u).1.sent := by
    constructor
    · exact h.split
    · rw [← hsize, ← hcounts.size]
      exact hcounts.le
    · rw [List.sum_append, h.progress, hcounts.sent, Nat.add_assoc]
  simp only [Push.update]
  split
  · next ended hend =>
    apply hat.conclude
    intro hcomplete
    rw [hcomplete] at hend
    rw [(FileState.apply_eq_complete now u hle hend).2, hsize]
  · exact ⟨hcounts.size.trans hsize, hat.withPhase _⟩

theorem Inv.takeNext (h : Fits files p .next) (metadata : Option Metadata) :
    Inv files (p.takeNext session metadata) := by
  obtain ⟨hfiles, hprogress⟩ := h
  unfold Push.takeNext
  split
  · next hrest =>
    rw [hrest, List.append_nil] at hfiles
    exact ⟨hfiles, hprogress⟩
  · next file rest hrest =>
    rw [hrest] at hfiles
    split
    · exact ⟨file, 0, hfiles, Nat.zero_le _, hprogress⟩
    · exact ⟨hfiles, Nat.zero_le _, hprogress⟩

theorem Inv.onReply {file : OutgoingFile} (h : At files p file 0) (watch : Watch) (reply : Message)
    (made updated begun : ℕ) :
    Inv files (p.onReply session timeouts file watch reply made updated begun) := by
  have hfailed : Inv files { p with phase := .failed malformed } := ⟨file, 0, h.withPhase _⟩
  unfold Push.onReply
  split_ifs
  · exact hfailed
  · split
    · exact hfailed
    · exact At.update h rfl _ _

theorem Inv.pop (h : Fits files p (.waiting w .draining)) {now : ℕ} (hp : p.pop w now = some p') :
    Inv files p' := by
  unfold Push.pop at hp
  split at hp
  · cases hp
  · simp only at hp
    split_ifs at hp
    · cases hp
      apply At.update
      · exact h.2
      · exact h.1
    · cases hp
      exact ⟨h.1, h.2.withPhase _⟩

theorem Inv.stepWaiting {turn : Turn} (h : Fits files p (.waiting w turn)) {a : Act}
    (hp : p.stepWaiting timeouts w turn a = some p') : Inv files p' := by
  unfold Push.stepWaiting at hp
  split at hp
  · exact .pop h hp
  · split_ifs at hp
    cases hp
    exact h.2.proceed h.1 (keeps_look _ _)
  · cases hp
    exact h.2.proceed h.1 (keeps_onPoll _)
  · cases hp
    exact h.2.proceed h.1 (keeps_onPump _)
  · cases hp
  · split_ifs at hp
    cases hp
    exact ⟨h.1, h.2.withPhase _⟩
  · cases hp

theorem Inv.step (h : Inv files p) {a : Act} (hp : p.step session timeouts a = some p') :
    Inv files p' := by
  unfold Inv at h
  unfold Push.step at hp
  split at hp
  case h_1 hphase =>
    rw [hphase] at h
    cases hp
    exact .takeNext h _
  case h_2 hphase =>
    rw [hphase] at h
    split_ifs at hp
    cases hp
    exact h.withPhase _
  case h_3 hphase =>
    rw [hphase] at h
    cases hp
    exact .onReply h _ _ _ _ _
  case h_4 hphase =>
    rw [hphase] at h
    cases hp
    exact ⟨_, 0, h.withPhase _⟩
  case h_5 hphase =>
    rw [hphase] at h
    exact .stepWaiting h hp
  case h_6 hphase =>
    rw [hphase] at h
    obtain ⟨file, sent, h⟩ := h
    cases hp
    exact ⟨file, sent, h.withPhase _⟩
  case h_7 => cases hp

theorem inv_exec {acts : List Act}
    (h : exec (step session timeouts) { rest := files } acts = some p) : Inv files p :=
  exec_invariant (fun _ _ _ hI hs => hI.step hs) (inv_new files) h

/-- Either nothing but whole files is reported, or the push got as far as a file that is not
complete. -/
theorem Inv.whole_or_at (h : Inv files p) :
    p.delivered <+: files ∧ p.progress.sum = total p.delivered ∨
    ∃ file sent, At files p file sent := by
  unfold Inv at h
  cases hphase : p.phase with
  | next =>
    rw [hphase] at h
    exact .inl ⟨⟨p.rest, h.1.symm⟩, h.2⟩
  | sending file watch =>
    rw [hphase] at h
    exact .inr ⟨file, 0, h⟩
  | waiting w turn =>
    rw [hphase] at h
    exact .inr ⟨w.file, w.state.sent, h.2⟩
  | cancelling e | failed e =>
    rw [hphase] at h
    exact .inr h
  | done =>
    rw [hphase] at h
    exact .inl ⟨h.1 ▸ List.prefix_rfl, h.2⟩

theorem Inv.sum_le (h : Inv files p) : p.progress.sum ≤ total files := by
  obtain ⟨⟨rest, hfiles⟩, hprogress⟩ | ⟨file, sent, h⟩ := h.whole_or_at
  · rw [hprogress, ← hfiles, total_append]
    exact Nat.le_add_right _ _
  · have hle := h.le
    rw [h.progress, h.split, total_append, total_cons]
    omega

theorem Inv.sum_eq (h : Inv files p) (hall : p.delivered = files) :
    p.progress.sum = total files := by
  obtain ⟨-, hprogress⟩ | ⟨file, sent, h⟩ := h.whole_or_at
  · rw [hprogress, hall]
  · have hsplit := h.split
    rw [hall] at hsplit
    simp at hsplit

/-- The push returns without an error only when every file is complete. -/
theorem Inv.delivered_eq (h : Inv files p) (hdone : p.phase = .done) : p.delivered = files := by
  rw [Inv, hdone] at h
  exact h.1.symm

end Push

/-- Whatever obexd says of a file, and in whatever order, the amounts reported are the bytes
counted: the count goes only up and stays within the size, a transfer is complete only by its status
and then every byte is reported, and an update that does not fit the size ends it and reports
nothing. So a push reports at most the sizes of its files, and exactly these if all of them are
complete, as they are when it returns without an error. -/
theorem reported_exact :
    (∀ size start : ℕ, ∀ us : List (ℕ × Update),
      let s := ((FileState.new size start).applyAll us).1
      let reported := ((FileState.new size start).applyAll us).2.sum
      reported = s.sent ∧ s.sent ≤ size ∧
        ∀ (now : ℕ) (u : Update),
          s.sent ≤ (s.apply now u).1.sent ∧
          reported + (s.apply now u).2.1.sum = (s.apply now u).1.sent ∧
          ((s.apply now u).2.2 = some .complete →
            u.status = some .complete ∧ reported + (s.apply now u).2.1.sum = size) ∧
          ((∃ n ∈ u.size, n ≠ size) ∨ (∃ t ∈ u.transferred, size < t) →
            (s.apply now u).2.2 = some (.abort changed) ∧ (s.apply now u).2.1 = [])) ∧
    ∀ (session : Session) (timeouts : Timeouts) (files : List OutgoingFile) (acts : List Act)
      (p : Push),
      exec (Push.step session timeouts) { rest := files } acts = some p →
        p.progress.sum ≤ (files.map OutgoingFile.size).sum ∧
        (p.delivered = files → p.progress.sum = (files.map OutgoingFile.size).sum) ∧
        (p.phase = .done → p.delivered = files) := by
  constructor
  · intro size start us s reported
    have hnew : (FileState.new size start).sent ≤ (FileState.new size start).size :=
      Nat.zero_le size
    have hall := FileState.counts_applyAll hnew us
    have hsize : s.size = size := hall.size
    have hsum : reported = s.sent := by
      rw [hall.sent]
      exact (Nat.zero_add _).symm
    refine ⟨hsum, hsize ▸ hall.le, fun now u => ?_⟩
    have hnext := FileState.counts_apply now u hall.le
    have hreported : reported + (s.apply now u).2.1.sum = (s.apply now u).1.sent := by
      rw [hsum, hnext.sent]
    refine ⟨?_, hreported, ?_, ?_⟩
    · rw [hnext.sent]
      exact Nat.le_add_right _ _
    · intro hend
      obtain ⟨hstatus, hsent⟩ := FileState.apply_eq_complete now u hall.le hend
      exact ⟨hstatus, by rw [hreported, hsent, hsize]⟩
    · intro hodd
      rw [← hsize, ← Update.not_fits_iff] at hodd
      rw [FileState.apply_of_not_fits now u hodd]
      exact ⟨rfl, rfl⟩
  · intro session timeouts files acts p h
    have hinv := Push.inv_exec h
    exact ⟨hinv.sum_le, hinv.sum_eq, hinv.delivered_eq⟩

def opp : Session := ⟨"/client/session1".toList, ":1.7".toList⟩

def twoFiles : List OutgoingFile := [⟨some "/home/a".toList, 3⟩, ⟨some "/home/b".toList, 0⟩]

def sendFileReply (transfer : String) (props : List Property) : Message :=
  ⟨some opp.owner, none, none, none, [.path transfer.toList, .array props]⟩

def propertiesChanged (transfer : String) (props : List Property) : Message :=
  ⟨some opp.owner, some transfer.toList, some propertiesIface, some "PropertiesChanged".toList,
    [.string transferIface, .array props]⟩

/-- The first file grows by a signal from before the reply, then is complete; the second is so at
once. -/
def pushed : List Act :=
  [.next (some ⟨true, 3⟩),
    .signal (propertiesChanged "/client/session1/transfer1"
      [some ("Transferred".toList, .uint64 2)]),
    .replied (sendFileReply "/client/session1/transfer1" [some ("Size".toList, .uint64 3)]) 0 0 0,
    .pop 1, .look false 1,
    .signal (propertiesChanged "/client/session1/transfer1"
      [some ("Transferred".toList, .uint64 1), some ("Status".toList, .string "complete".toList)]),
    .pumped false, .pop 2, .next (some ⟨true, 0⟩),
    .replied (sendFileReply "/client/session1/transfer2"
      [some ("Status".toList, .string "complete".toList)]) 3 3 3,
    .next none]

theorem reported_exact_pushed :
    ∃ p, exec (Push.step opp ⟨60, 30, 2⟩) { rest := twoFiles } pushed = some p ∧
      p.phase = .done ∧ p.progress = [2, 1, 0] ∧ p.progress.sum =
      (twoFiles.map OutgoingFile.size).sum := by
  have h : exec (Push.step opp ⟨60, 30, 2⟩) { rest := twoFiles } pushed =
      some { rest := [], phase := .done, progress := [2, 1, 0], delivered := twoFiles } := by
      decide +kernel
  obtain ⟨-, hall, hdone⟩ := reported_exact.2 _ _ _ _ _ h
  exact ⟨_, h, rfl, rfl, hall (hdone rfl)⟩

end Sukkula.Bluetooth
