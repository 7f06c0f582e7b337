import Sukkula.Library.Str
import Sukkula.Library.Transition

/-! # The bridge between QML and the engine

Two threads: the GUI thread, which starts and stops the engine and runs the calls
of `deliver` that are posted to it, and the thread on which the engine calls
`onEvent`, one call at a time. Each is cut at the lock, at Qt's queue, at the
signal and at the engine's own functions. `sukkula_stop` returns when no call is
under way, and so does a `sukkula_start` that fails; after it there is none. What
a handler of the signal calls is called after the signal, which is the last thing
`deliver` does. Posts are numbered, and where each comes to is written down, for
the statements.
-/

namespace Sukkula.Shell

open Transition Str

def maxEventBytes : ℕ := 1024 * 1024

def maxUndelivered : ℕ := 256

/-- A call of `deliver` that was posted. -/
structure Post where
  number : ℕ
  json : Str
  deriving DecidableEq, Repr

/-- Why `start` does not ask the engine. -/
inductive Refusal
  | noHome
  -- The thread-locals of the graphics stack may run into the engine's.
  | outgrown
  deriving DecidableEq, Repr

/-- What it says then, as the engine would have. -/
def Refusal.json : Refusal → Str
  | .noHome => ("\x7b\"type\":\"fatal\",\"error\":\x7b\"code\":\"storage\"," ++
      "\"message\":\"no usable home directory\"\x7d\x7d").toList
  | .outgrown => ("\x7b\"type\":\"fatal\",\"error\":\x7b\"code\":\"internal\"," ++
      "\"message\":\"the graphics stack's thread-locals outgrew their reserve\"\x7d\x7d").toList

inductive Gui
  | idle
  -- `start` has posted why it fails, and is to count it.
  | refusing
  -- `start` is in `sukkula_start`.
  | starting
  -- `stop` is to raise the flag.
  | stopping
  -- `stop` is in `sukkula_stop`.
  | joining
  -- `stop` is to remove what is posted.
  | removing
  -- `stop` is to set the count to 0.
  | resetting
  -- `deliver` is to take the lock.
  | delivering (post : Post)
  -- `deliver` is to emit the signal.
  | emitting (post : Post)
  deriving DecidableEq, Repr

/-- Where a call of `onEvent` is. -/
inductive Callback
  | none
  | entered (json : Str)
  | waiting (json : Str)
  | counted (json : Str)
  deriving DecidableEq, Repr

/-- A signal that was emitted, and whether that was after a `stop` and before the next `start`. -/
structure Emission where
  post : Post
  late : Bool
  deriving DecidableEq, Repr

/-- A call of `onEvent` that ended: what it was for, whether `stop` had begun, and what it
posted. -/
structure Return where
  json : Str
  stopping : Bool
  number : Option ℕ
  deriving DecidableEq, Repr

structure Bridge where
  -- `m_engine` is set.
  engine : Bool := false
  undelivered : ℕ := 0
  stopping : Bool := false
  -- Qt's queue of calls to `deliver`.
  posted : List Post := []
  gui : Gui := .idle
  -- There is an engine that may call `onEvent`.
  running : Bool := false
  call : Callback := .none
  base : ℕ := 0
  -- `stop` has returned and `start` was not called since.
  stopped : Bool := false
  posts : ℕ := 0
  emitted : List Emission := []
  removed : List Post := []
  returned : List Return := []
  deriving DecidableEq, Repr

inductive Act
  -- `start`, with why it refuses if it does.
  | start (refusal : Option Refusal)
  | refused
  -- `sukkula_start` returns an engine, or null.
  | started (ok : Bool)
  | command
  | stop
  | flag
  -- `sukkula_stop` returns.
  | joined
  | remove
  | reset
  | deliver
  | discount
  | emit
  -- The engine calls `onEvent`.
  | callback (json : Str)
  | lock
  -- A wait ends, by a wake-up or after its 100 ms.
  | wake
  | post
  deriving DecidableEq, Repr

namespace Bridge

/-- `stop` has begun and not returned. -/
def Gui.inStop : Gui → Bool
  | .stopping | .joining | .removing | .resetting => true
  | _ => false

def push (b : Bridge) (json : Str) : Bridge :=
  { b with posted := b.posted ++ [⟨b.posts, json⟩], posts := b.posts + 1 }

/-- The call of `onEvent` ends. -/
def leave (b : Bridge) (json : Str) (number : Option ℕ) : Bridge :=
  { b with call := .none, returned := b.returned ++ [⟨json, Gui.inStop b.gui, number⟩] }

/-- What the GUI thread does when it is in none of its functions. -/
def stepIdle (b : Bridge) : Act → Option Bridge
  | .start refusal =>
    if b.engine then some { b with stopped := false }
    else
      match refusal with
      | some refusal => some { b.push refusal.json with stopped := false, gui := .refusing }
      | none =>
        some
          { b with
            stopped := false, stopping := false, running := true, base := b.undelivered,
            gui := .starting }
  | .command => some b
  | .stop =>
    if b.engine then some { b with engine := false, gui := .stopping }
    else some { b with stopped := true }
  | .deliver =>
    match b.posted with
    | [] => none
    | p :: posted => some { b with posted, gui := .delivering p }
  | _ => none

def stepGui (b : Bridge) (a : Act) : Option Bridge :=
  match b.gui, a with
  | .idle, a => b.stepIdle a
  | .refusing, .refused => some { b with undelivered := b.undelivered + 1, gui := .idle }
  | .starting, .started true => some { b with engine := true, gui := .idle }
  | .starting, .started false =>
    if b.call = .none then some { b with running := false, gui := .idle } else none
  | .stopping, .flag => some { b with stopping := true, gui := .joining }
  | .joining, .joined =>
    if b.call = .none then some { b with running := false, gui := .removing } else none
  | .removing, .remove =>
    some { b with removed := b.removed ++ b.posted, posted := [], gui := .resetting }
  | .resetting, .reset => some { b with undelivered := 0, gui := .idle, stopped := true }
  | .delivering p, .discount => some { b with undelivered := b.undelivered - 1, gui := .emitting p }
  | .emitting p, .emit => some { b with emitted := b.emitted ++ [⟨p, b.stopped⟩], gui := .idle }
  | _, _ => none

/-- A step of a call of `onEvent`. -/
def stepCall (b : Bridge) (a : Act) : Option Bridge :=
  match b.call, a with
  | .none, .callback json =>
    if !b.running then none
    else if maxEventBytes < len json then some (b.leave json none)
    else some { b with call := .entered json }
  | .entered json, .lock =>
    if maxUndelivered ≤ b.undelivered ∧ !b.stopping then some { b with call := .waiting json }
    else if b.stopping then some (b.leave json none)
    else some { b with undelivered := b.undelivered + 1, call := .counted json }
  | .waiting json, .wake => some { b with call := .entered json }
  | .counted json, .post => some ((b.push json).leave json (some b.posts))
  | _, _ => none

def Act.ofCall : Act → Bool
  | .callback _ | .lock | .wake | .post => true
  | _ => false

def step (b : Bridge) (a : Act) : Option Bridge :=
  if Act.ofCall a then b.stepCall a else b.stepGui a

inductive Moves (b : Bridge) : Act → Bridge → Prop
  | again (hgui : b.gui = .idle) (hengine : b.engine = true) (refusal : Option Refusal) :
    Moves b (.start refusal) { b with stopped := false }
  | refuse (hgui : b.gui = .idle) (hengine : b.engine = false) (refusal : Refusal) :
    Moves b (.start (some refusal)) { b.push refusal.json with stopped := false, gui := .refusing }
  | start (hgui : b.gui = .idle) (hengine : b.engine = false) :
    Moves b (.start none)
      { b with
        stopped := false, stopping := false, running := true, base := b.undelivered,
        gui := .starting }
  | command (hgui : b.gui = .idle) : Moves b .command b
  | stop (hgui : b.gui = .idle) (hengine : b.engine = true) :
    Moves b .stop { b with engine := false, gui := .stopping }
  | stopNull (hgui : b.gui = .idle) (hengine : b.engine = false) :
    Moves b .stop { b with stopped := true }
  | deliver (hgui : b.gui = .idle) {p : Post} {posted : List Post} (hposted : b.posted =
    p :: posted) : Moves b .deliver { b with posted, gui := .delivering p }
  | refused (hgui : b.gui = .refusing) :
    Moves b .refused { b with undelivered := b.undelivered + 1, gui := .idle }
  | started (hgui : b.gui = .starting) :
    Moves b (.started true) { b with engine := true, gui := .idle }
  | failed (hgui : b.gui = .starting) (hcall : b.call = .none) :
    Moves b (.started false) { b with running := false, gui := .idle }
  | flag (hgui : b.gui = .stopping) : Moves b .flag { b with stopping := true, gui := .joining }
  | joined (hgui : b.gui = .joining) (hcall : b.call = .none) :
    Moves b .joined { b with running := false, gui := .removing }
  | remove (hgui : b.gui = .removing) :
    Moves b .remove { b with removed := b.removed ++ b.posted, posted := [], gui := .resetting }
  | reset (hgui : b.gui = .resetting) :
    Moves b .reset { b with undelivered := 0, gui := .idle, stopped := true }
  | discount {p : Post} (hgui : b.gui = .delivering p) :
    Moves b .discount { b with undelivered := b.undelivered - 1, gui := .emitting p }
  | emit {p : Post} (hgui : b.gui = .emitting p) :
    Moves b .emit { b with emitted := b.emitted ++ [⟨p, b.stopped⟩], gui := .idle }
  | long (hcall : b.call = .none) (hrunning : b.running = true) {json : Str}
    (hlen : maxEventBytes < len json) :
    Moves b (.callback json) (b.leave json none)
  | enter (hcall : b.call = .none) (hrunning : b.running = true) {json : Str}
    (hlen : len json ≤ maxEventBytes) :
    Moves b (.callback json) { b with call := .entered json }
  | wait {json : Str} (hcall : b.call = .entered json) (hstopping : b.stopping = false) :
    Moves b .lock { b with call := .waiting json }
  | giveUp {json : Str} (hcall : b.call = .entered json) (hstopping : b.stopping = true) :
    Moves b .lock (b.leave json none)
  | count {json : Str} (hcall : b.call = .entered json) (hstopping : b.stopping = false)
    (hroom : b.undelivered < maxUndelivered) :
    Moves b .lock { b with undelivered := b.undelivered + 1, call := .counted json }
  | wake {json : Str} (hcall : b.call = .waiting json) :
    Moves b .wake { b with call := .entered json }
  | post {json : Str} (hcall : b.call = .counted json) :
    Moves b .post ((b.push json).leave json (some b.posts))

variable {b b' : Bridge} {a : Act}

theorem moves_of_stepIdle (hgui : b.gui = .idle) (h : b.stepIdle a = some b') : Moves b a b' := by
  cases a with
  | start refusal =>
    simp only [stepIdle] at h
    split_ifs at h with hengine
    · cases h
      exact .again hgui hengine refusal
    · have hnull : b.engine = false := by simpa using hengine
      cases refusal with
      | some refusal =>
        cases h
        exact .refuse hgui hnull refusal
      | none =>
        cases h
        exact .start hgui hnull
  | command =>
    cases h
    exact .command hgui
  | stop =>
    simp only [stepIdle] at h
    split_ifs at h with hengine
    · cases h
      exact .stop hgui hengine
    · cases h
      exact .stopNull hgui (by simpa using hengine)
  | deliver =>
    simp only [stepIdle] at h
    split at h
    · cases h
    · rename_i hposted
      cases h
      exact .deliver hgui hposted
  | _ => cases h

theorem moves_of_stepGui (h : b.stepGui a = some b') : Moves b a b' := by
  unfold stepGui at h
  split at h
  case h_1 hgui => exact moves_of_stepIdle hgui h
  case h_2 hgui =>
    cases h
    exact .refused hgui
  case h_3 hgui =>
    cases h
    exact .started hgui
  case h_4 hgui =>
    split_ifs at h with hcall
    cases h
    exact .failed hgui hcall
  case h_5 hgui =>
    cases h
    exact .flag hgui
  case h_6 hgui =>
    split_ifs at h with hcall
    cases h
    exact .joined hgui hcall
  case h_7 hgui =>
    cases h
    exact .remove hgui
  case h_8 hgui =>
    cases h
    exact .reset hgui
  case h_9 hgui =>
    cases h
    exact .discount hgui
  case h_10 hgui =>
    cases h
    exact .emit hgui
  case h_11 => cases h

theorem moves_of_stepCall (h : b.stepCall a = some b') : Moves b a b' := by
  unfold stepCall at h
  split at h
  case h_1 json hcall =>
    split_ifs at h with hrunning hlen
    · cases h
      exact .long hcall (by simpa using hrunning) hlen
    · cases h
      exact .enter hcall (by simpa using hrunning) (by omega)
  case h_2 json hcall =>
    split_ifs at h with hfull hstopping
    · cases h
      exact .wait hcall (by simpa using hfull.2)
    · cases h
      exact .giveUp hcall hstopping
    · cases h
      have hdown : b.stopping = false := by simpa using hstopping
      exact .count hcall hdown (by simpa [hdown] using hfull)
  case h_3 json hcall =>
    cases h
    exact .wake hcall
  case h_4 json hcall =>
    cases h
    exact .post hcall
  case h_5 => cases h

theorem moves_of_step (h : step b a = some b') : Moves b a b' := by
  unfold step at h
  split at h
  · exact moves_of_stepCall h
  · exact moves_of_stepGui h

end Bridge

end Sukkula.Shell
