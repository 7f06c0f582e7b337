import Sukkula.Bluetooth.Push

/-! # A send over Bluetooth, from its session to the end of it

`send` asks obexd for a session, subscribes to what it says of it, pushes the files
and removes the session. The user may cancel at any time; a call with the cancel
token is then not put on the bus any more, and the calls that clean up have no token.
A step is what happens between two waits, with what the bus and the user do. The
calls are written down as they are put on the bus, for the statements.
-/

namespace Sukkula.Bluetooth

open Str Transition
open LocalSend (ErrorInfo cancelled)

inductive Call
  | createSession
  | ping
  | addMatch (rule : Str)
  | sendFile
  | getAll
  | cancel
  | removeSession (path : Str)
  deriving DecidableEq, Repr

def Call.isCleanup : Call → Bool
  | .ping | .cancel | .removeSession _ => true
  | .createSession | .addMatch _ | .sendFile | .getAll => false

/-- The signals of this obexd under this session's path. -/
def matchRule (session : Session) : Str :=
  "type='signal',sender='".toList ++ session.owner ++ "',interface='".toList ++ propertiesIface ++
    "',member='PropertiesChanged',path_namespace='".toList ++ session.path ++ "',arg0='".toList ++
    transferIface ++ "'".toList

def ownerRule : Str :=
  "type='signal',sender='".toList ++ dbusName ++
    "',path='/org/freedesktop/DBus',interface='org.freedesktop.DBus',".toList ++
    "member='NameOwnerChanged',arg0='".toList ++ obexName ++ "'".toList

def rules (session : Session) : List Call := [.addMatch (matchRule session), .addMatch ownerRule]

/-- The session that the reply to `CreateSession` names. -/
def sessionOf (reply : Message) : Option Session :=
  match reply.sender.filter (·.head? = some ':'), (reply.path? 0).filter (· ≠ ['/']) with
  | some owner, some path => some ⟨path, owner⟩
  | _, _ => none

/-- What a failed `CreateSession` is shown as. -/
def createError (e : BusError) (stop : Bool) : ErrorInfo :=
  match e with
  | .remote name =>
    if "org.bluez.obex.Error.".toList.isPrefixOf name then
      ⟨.network, "the device could not be reached"⟩
    else serviceError e stop
  | .timeout => ⟨.network, "the device did not answer in time"⟩
  | _ => serviceError e stop

inductive Link
  | free
  | due
  | unsent
  deriving DecidableEq, Repr

inductive Leaving
  | pushed (result : Except ErrorInfo Unit)
  | unsubscribed (e : BusError)

/-- What `send` returns then. -/
def Leaving.result (stop : Bool) : Leaving → Except ErrorInfo Unit
  | .pushed result => result
  | .unsubscribed e => .error (serviceError e stop)

inductive Send.Stage
  -- In `Bus::connect`.
  | connecting
  | creating (link : Link)
  -- `Ping` waits for its answer.
  | settling (error : ErrorInfo)
  | subscribing (session : Session) (second : Bool) (link : Link)
  | pushing (session : Session) (push : Push) (link : Link)
  -- `RemoveSession` waits for its answer.
  | removing (why : Leaving)
  | ended (result : Except ErrorInfo Unit)

structure Send where
  files : List OutgoingFile
  stage : Send.Stage := .connecting
  stop : Bool := false
  -- The calls, each with whether the send was cancelled by then.
  calls : List (Call × Bool) := []
  made : Option Session := none
  -- `CreateSession` was given up on.
  gaveUp : Bool := false
  delivered : List OutgoingFile := []

namespace Send

inductive Act
  | stop
  | connected (r : Except BusError Unit)
  -- The call that is due is put on the bus, unless the send is cancelled.
  | send
  | created (answer : Except BusError Message)
  | settled
  | subscribed (r : Except BusError Unit)
  | push (a : Bluetooth.Act)
  | removed

variable (s : Send)

def put (c : Call) : Send := { s with calls := s.calls ++ [(c, s.stop)] }

/-- `remove_session`, up to its answer. -/
def remove (session : Session) (why : Leaving) : Send :=
  { s.put (.removeSession session.path) with stage := .removing why }

/-- `add_match`, up to its call. -/
def subscribe (session : Session) (rule : Str) (second : Bool) : Send :=
  if '\x00' ∈ rule then s.remove session (.unsubscribed .malformed)
  else { s with stage := .subscribing session second .due }

/-- `create_session`, once `CreateSession` is answered. -/
def onCreated : Except BusError Message → Send
  | .error e =>
    if e = .cancelled ∨ e = .timeout then
      { s.put .ping with stage := .settling (createError e s.stop), gaveUp := true }
    else { s with stage := .ended (.error (createError e s.stop)) }
  | .ok reply =>
    match sessionOf reply with
    | none => { s with stage := .ended (.error malformed) }
    | some session => { s with made := some session }.subscribe session (matchRule session) false

def onSubscribed (session : Session) (second : Bool) : Except BusError Unit → Send
  | .error e => s.remove session (.unsubscribed e)
  | .ok () =>
    if second then { s with stage := .pushing session { rest := s.files } .free }
    else s.subscribe session ownerRule true

def callOf : Phase → Option Call
  | .sending _ _ => some .sendFile
  | .waiting _ .polling => some .getAll
  | _ => none

/-- The action makes the call of the phase, where there is one. -/
def begins : Bluetooth.Act → Bool
  | .next _ | .look _ _ => true
  | _ => false

def onPush (session : Session) (push : Push) (a : Bluetooth.Act) : Send :=
  let s := { s with delivered := push.delivered }
  match push.phase with
  | .failed e => s.remove session (.pushed (.error e))
  | .done => s.remove session (.pushed (.ok ()))
  | .cancelling _ => { s.put .cancel with stage := .pushing session push .free }
  | phase =>
    { s with
      stage := .pushing session push (if begins a ∧ (callOf phase).isSome then .due else .free) }

/-- An answer that says cancelled comes of the token, and no other comes of a call that was not
made. -/
def heeds (link : Link) : Bluetooth.Act → Bool
  | .refused e stop => stop = s.stop ∧ (e = .cancelled → s.stop) ∧ (link = .unsent → e = .cancelled)
  | .look stop _ => stop = s.stop
  | .polled (.error e) => (e = .cancelled → s.stop) ∧ (link = .unsent → e = .cancelled)
  | .polled (.ok _) | .replied .. | .signal _ => link = .free
  | _ => true

def onSend : Option Send :=
  match s.stage with
  | .creating .due =>
    if s.stop then some { s with stage := .ended (.error (serviceError .cancelled s.stop)) }
    else some { s.put .createSession with stage := .creating .free }
  | .subscribing session second .due =>
    if s.stop then some (s.remove session (.unsubscribed .cancelled))
    else some { s.put (.addMatch (if second then ownerRule else matchRule session)) with
      stage := .subscribing session second .free }
  | .pushing session push .due =>
    (callOf push.phase).map fun c =>
      if s.stop then { s with stage := .pushing session push .unsent }
      else { s.put c with stage := .pushing session push .free }
  | _ => none

/-- The token is cancelled where an answer says so. -/
def told {α : Type} : Except BusError α → Bool
  | .error .cancelled => s.stop
  | _ => true

def step (timeouts : Timeouts) (s : Send) : Act → Option Send
  | .stop => some { s with stop := true }
  | .send => s.onSend
  | .connected r =>
    match s.stage, r with
    | .connecting, .ok () => some { s with stage := .creating .due }
    | .connecting, .error e => some { s with stage := .ended (.error (serviceError e s.stop)) }
    | _, _ => none
  | .created answer =>
    match s.stage with
    | .creating .free => if s.told answer then some (s.onCreated answer) else none
    | _ => none
  | .settled =>
    match s.stage with
    | .settling e => some { s with stage := .ended (.error e) }
    | _ => none
  | .subscribed r =>
    match s.stage with
    | .subscribing session second .free =>
      if s.told r then some (s.onSubscribed session second r) else none
    | _ => none
  | .push a =>
    match s.stage with
    | .pushing session push link =>
      if link ≠ .due ∧ s.heeds link a then
        (push.step session timeouts a).map fun push => s.onPush session push a
      else none
    | _ => none
  | .removed =>
    match s.stage with
    | .removing why => some { s with stage := .ended (why.result s.stop) }
    | _ => none

def called : List Call := s.calls.map Prod.fst

def Works (c : Call) : Prop := c = .sendFile ∨ c = .getAll

/-- The calls of a send with a session, up to the one that removes it. -/
inductive Body (session : Session) : List Call → Prop
  | subscribing {ms : List Call} (h : ms <+: rules session) : Body session (.createSession :: ms)
  | pushing {ws : List Call} (h : ∀ c ∈ ws, Works c) :
  Body session (.createSession :: (rules session ++ ws))
  | cancelling {ws : List Call} (h : ∀ c ∈ ws, Works c) :
    Body session (.createSession :: (rules session ++ ws) ++ [.cancel])

/-- The session was made and is removed by the last call. -/
structure Removed (s : Send) : Prop where
  gaveUp : s.gaveUp = false
  removed : ∃ session body, s.made = some session ∧ Body session body ∧
    s.called = body ++ [.removeSession session.path]

structure Unmade (s : Send) (gaveUp : Bool) (calls : List Call) : Prop where
  made : s.made = none
  gaveUp : s.gaveUp = gaveUp
  delivered : s.delivered = []
  called : s.called = calls

def Pushing (session : Session) (calls : List Call) : Phase → Prop
  | .cancelling _ =>
    ∃ ws, (∀ c ∈ ws, Works c) ∧ calls = .createSession :: (rules session ++ ws) ++ [.cancel]
  | .failed _ | .done => False
  | _ => ∃ ws, (∀ c ∈ ws, Works c) ∧ calls = .createSession :: (rules session ++ ws)

def added (second : Bool) : Link → ℕ
  | .free => second.toNat + 1
  | .due | .unsent => second.toNat

structure Subscribing (s : Send) (session : Session) (second : Bool) (link : Link) : Prop where
  made : s.made = some session
  gaveUp : s.gaveUp = false
  delivered : s.delivered = []
  called : s.called = .createSession :: (rules session).take (added second link)

structure Pushes (s : Send) (session : Session) (push : Push) : Prop where
  made : s.made = some session
  gaveUp : s.gaveUp = false
  delivered : s.delivered = push.delivered
  inv : Push.Inv s.files push
  called : Pushing session s.called push.phase

def Fits (s : Send) : Stage → Prop
  | .connecting | .creating .due => Unmade s false []
  | .creating _ => Unmade s false [.createSession]
  | .settling _ => Unmade s true [.createSession, .ping]
  | .subscribing session second link => Subscribing s session second link
  | .pushing session push _ => Pushes s session push
  | .removing why => Removed s ∧ (why = .pushed (.ok ()) → s.delivered = s.files)
  | .ended result =>
    (Removed s ∧ (result = .ok () → s.delivered = s.files)) ∨
      (result ≠ .ok () ∧ (Unmade s false [] ∨ Unmade s false [.createSession] ∨
        Unmade s true [.createSession, .ping]))

/-- After the cancel only what cleans up is called. -/
def Heeds (s : Send) : Prop := ∀ c, (c, true) ∈ s.calls → c.isCleanup = true

structure Inv (files : List OutgoingFile) (s : Send) : Prop where
  files_eq : s.files = files
  fits : Fits s s.stage
  heeds : Heeds s

variable {s} {s' : Send} {files : List OutgoingFile} {timeouts : Timeouts}
  {session : Session} {push : Push} {calls : List Call}

@[simp] theorem called_put (s : Send) (c : Call) : (s.put c).called = s.called ++ [c] := by
  simp [called, put]

theorem Heeds.put (h : Heeds s) {c : Call} (hc : s.stop = true → c.isCleanup = true) :
    Heeds (s.put c) := by
  intro d hd
  rcases List.mem_append.mp hd with hd | hd
  · exact h d hd
  · obtain ⟨rfl, hstop⟩ := Prod.mk.inj (List.mem_singleton.mp hd)
    exact hc hstop.symm

theorem Unmade.stopped {gaveUp : Bool} (h : Unmade s gaveUp calls) :
    Unmade { s with stop := true } gaveUp calls :=
  ⟨h.made, h.gaveUp, h.delivered, h.called⟩

theorem Removed.stopped (h : Removed s) : Removed { s with stop := true } := ⟨h.gaveUp, h.removed⟩

theorem Fits.stopped {stage : Stage} (h : Fits s stage) : Fits { s with stop := true } stage := by
  cases stage with
  | connecting => exact Unmade.stopped h
  | creating link => cases link <;> exact Unmade.stopped h
  | settling e => exact Unmade.stopped h
  | subscribing session second link => exact ⟨h.made, h.gaveUp, h.delivered, h.called⟩
  | pushing session push link => exact ⟨h.made, h.gaveUp, h.delivered, h.inv, h.called⟩
  | removing why => exact ⟨h.1.stopped, h.2⟩
  | ended result =>
    rcases h with ⟨h, hok⟩ | ⟨hne, h | h | h⟩
    · exact Or.inl ⟨h.stopped, hok⟩
    · exact Or.inr ⟨hne, Or.inl h.stopped⟩
    · exact Or.inr ⟨hne, Or.inr (Or.inl h.stopped)⟩
    · exact Or.inr ⟨hne, Or.inr (Or.inr h.stopped)⟩

theorem inv_remove (hfiles : s.files = files) (hheeds : Heeds s) (hmade : s.made = some session)
    (hup : s.gaveUp = false) (hbody : Body session s.called) {why : Leaving}
    (hok : why = .pushed (.ok ()) → s.delivered = s.files) : Inv files (s.remove session why) where
  files_eq := hfiles
  fits := ⟨⟨hup, session, s.called, hmade, hbody, called_put s _⟩, hok⟩
  heeds := hheeds.put fun _ => rfl

theorem Subscribing.body {second : Bool} {link : Link} (h : Subscribing s session second link) :
    Body session s.called := by
  rw [h.called]
  exact .subscribing (List.take_prefix _ _)

theorem inv_unsubscribed (hfiles : s.files = files) (hheeds : Heeds s) {second : Bool} {link : Link}
    (h : Subscribing s session second link) (e : BusError) :
    Inv files (s.remove session (.unsubscribed e)) :=
  inv_remove hfiles hheeds h.made h.gaveUp h.body nofun

theorem inv_subscribe (hfiles : s.files = files) (hheeds : Heeds s) {rule : Str} {second : Bool}
    (hsub : Subscribing s session second .due) : Inv files (s.subscribe session rule second) := by
  unfold subscribe
  split_ifs
  · exact inv_unsubscribed hfiles hheeds hsub .malformed
  · exact ⟨hfiles, ⟨hsub.made, hsub.gaveUp, hsub.delivered, hsub.called⟩, hheeds⟩

theorem inv_ended (hfiles : s.files = files) (hheeds : Heeds s) {e : ErrorInfo}
    (h : Unmade s false [] ∨ Unmade s false [.createSession] ∨
      Unmade s true [.createSession, .ping]) :
    Inv files { s with stage := .ended (.error e) } where
  files_eq := hfiles
  fits := by
    refine Or.inr ⟨nofun, ?_⟩
    rcases h with h | h | h
    · exact Or.inl ⟨h.made, h.gaveUp, h.delivered, h.called⟩
    · exact Or.inr (Or.inl ⟨h.made, h.gaveUp, h.delivered, h.called⟩)
    · exact Or.inr (Or.inr ⟨h.made, h.gaveUp, h.delivered, h.called⟩)
  heeds := hheeds

theorem inv_onCreated (hfiles : s.files = files) (hheeds : Heeds s)
    (h : Unmade s false [.createSession]) (answer : Except BusError Message) :
    Inv files (s.onCreated answer) := by
  cases answer with
  | error e =>
    simp only [onCreated]
    split_ifs
    · refine ⟨hfiles, ⟨h.made, rfl, h.delivered, ?_⟩, hheeds.put fun _ => rfl⟩
      exact (called_put s .ping).trans (congrArg (· ++ [Call.ping]) h.called)
    · exact inv_ended hfiles hheeds (Or.inr (Or.inl h))
  | ok reply =>
    simp only [onCreated]
    split
    · exact inv_ended hfiles hheeds (Or.inr (Or.inl h))
    · apply inv_subscribe
      · exact hfiles
      · exact hheeds
      · exact ⟨rfl, h.gaveUp, h.delivered, h.called⟩

theorem inv_onSubscribed (hfiles : s.files = files) (hheeds : Heeds s) {second : Bool}
    (h : Subscribing s session second .free) (r : Except BusError Unit) :
    Inv files (s.onSubscribed session second r) := by
  cases r with
  | error e => exact inv_unsubscribed hfiles hheeds h e
  | ok u =>
    simp only [onSubscribed]
    cases second with
    | false =>
      have hnext : Subscribing s session true .due := ⟨h.made, h.gaveUp, h.delivered, h.called⟩
      rw [if_neg (by decide)]
      exact inv_subscribe hfiles hheeds hnext
    | true =>
      refine ⟨hfiles, ⟨h.made, h.gaveUp, h.delivered, Push.inv_new s.files, [], by simp, ?_⟩,
        hheeds⟩
      rw [List.append_nil]
      exact h.called

theorem body_of_pushing {phase : Phase} (h : Pushing session calls phase) : Body session calls := by
  cases phase with
  | cancelling e =>
    obtain ⟨ws, hws, rfl⟩ := h
    exact .cancelling hws
  | failed e | done => exact h.elim
  | next | sending file watch | waiting w turn =>
    obtain ⟨ws, hws, rfl⟩ := h
    exact .pushing hws

theorem phase_of_cancelling {push push' : Push} {a : Bluetooth.Act} {e : ErrorInfo}
    (h : push.phase = .cancelling e) (hs : push.step session timeouts a = some push') :
    push'.phase = .failed e := by
  cases a <;> simp only [Push.step, h, reduceCtorEq] at hs
  exact Option.some.inj hs ▸ rfl

/-- The calls of a push as it goes on from one phase to the next. -/
theorem inv_onPush (hfiles : s.files = files) (hheeds : Heeds s) (h : Pushes s session push)
    {a : Bluetooth.Act} {push' : Push} (hs : push.step session timeouts a = some push') :
    Inv files (s.onPush session push' a) := by
  have hinv : Push.Inv s.files push' := h.inv.step hs
  have hworks : (∀ e, push.phase ≠ .cancelling e) →
      ∃ ws, (∀ c ∈ ws, Works c) ∧ s.called = .createSession :: (rules session ++ ws) := by
    intro hne
    have hcalled := h.called
    cases hphase : push.phase with
    | cancelling e => exact absurd hphase (hne e)
    | failed e | done =>
      rw [hphase] at hcalled
      exact hcalled.elim
    | next | sending file watch | waiting w turn =>
      rw [hphase] at hcalled
      exact hcalled
  have hremove {why : Leaving} (hok : why = .pushed (.ok ()) → push'.delivered = s.files) :
      Inv files ({ s with delivered := push'.delivered }.remove session why) := by
    apply inv_remove
    · exact hfiles
    · exact hheeds
    · exact h.made
    · exact h.gaveUp
    · exact body_of_pushing h.called
    · exact hok
  cases hphase : push'.phase with
  | failed e =>
    simp only [onPush, hphase]
    exact hremove nofun
  | done =>
    simp only [onPush, hphase]
    exact hremove fun _ => hinv.delivered_eq hphase
  | cancelling e =>
    obtain ⟨ws, hws, hcalled⟩ := hworks fun e' he' => by
      rw [phase_of_cancelling he' hs] at hphase
      cases hphase
    simp only [onPush, hphase]
    refine ⟨hfiles, ⟨h.made, h.gaveUp, rfl, hinv, ?_⟩, hheeds.put fun _ => rfl⟩
    rw [hphase]
    refine ⟨ws, hws, ?_⟩
    rw [← hcalled]
    exact called_put _ .cancel
  | next | sending file watch | waiting w turn =>
    obtain ⟨ws, hws, hcalled⟩ := hworks fun e' he' => by
      rw [phase_of_cancelling he' hs] at hphase
      cases hphase
    simp only [onPush, hphase]
    refine ⟨hfiles, ⟨h.made, h.gaveUp, rfl, hinv, ?_⟩, hheeds⟩
    rw [hphase]
    exact ⟨ws, hws, hcalled⟩

theorem works_of_callOf {phase : Phase} {c : Call} (h : callOf phase = some c) :
    Works c ∧ c.isCleanup = false := by
  cases phase with
  | sending file watch =>
    obtain rfl := Option.some.inj h
    exact ⟨Or.inl rfl, rfl⟩
  | waiting w turn =>
    cases turn with
    | polling =>
      obtain rfl := Option.some.inj h
      exact ⟨Or.inr rfl, rfl⟩
    | draining | pumping => cases h
  | next | cancelling e | failed e | done => cases h

theorem Pushing.snoc {phase : Phase} {c : Call} (h : Pushing session calls phase)
    (hc : callOf phase = some c) : Pushing session (calls ++ [c]) phase := by
  have hworks := (works_of_callOf hc).1
  cases phase with
  | next | cancelling e | failed e | done => cases hc
  | sending file watch | waiting w turn =>
    obtain ⟨ws, hws, rfl⟩ := h
    refine ⟨ws ++ [c], ?_, by simp⟩
    intro d hd
    rcases List.mem_append.mp hd with hd | hd
    · exact hws d hd
    · exact List.mem_singleton.mp hd ▸ hworks

theorem why_of_result {why : Leaving} {stop : Bool} (h : why.result stop = .ok ()) :
    why = .pushed (.ok ()) := by
  cases why with
  | pushed result => exact congrArg Leaving.pushed h
  | unsubscribed e => cases h

theorem Inv.onSend (h : Inv files s) (hs : s.onSend = some s') : Inv files s' := by
  have hfits := h.fits
  unfold Send.onSend at hs
  split at hs
  case h_1 hstage =>
    rw [hstage] at hfits
    split_ifs at hs with hstop
    · obtain rfl := Option.some.inj hs
      exact inv_ended h.files_eq h.heeds (Or.inl hfits)
    · obtain rfl := Option.some.inj hs
      refine ⟨h.files_eq, ⟨hfits.made, hfits.gaveUp, hfits.delivered, ?_⟩,
        h.heeds.put fun hc => absurd hc hstop⟩
      exact (called_put s .createSession).trans (congrArg (· ++ [Call.createSession]) hfits.called)
  case h_2 session second hstage =>
    rw [hstage] at hfits
    by_cases hstop : s.stop = true
    · rw [if_pos hstop] at hs
      obtain rfl := Option.some.inj hs
      exact inv_unsubscribed h.files_eq h.heeds hfits .cancelled
    · rw [if_neg hstop] at hs
      obtain rfl := Option.some.inj hs
      refine ⟨h.files_eq, ⟨hfits.made, hfits.gaveUp, hfits.delivered, ?_⟩,
        h.heeds.put fun hc => absurd hc hstop⟩
      refine (called_put s _).trans ?_
      rw [hfits.called]
      cases second <;> rfl
  case h_3 session push hstage =>
    rw [hstage] at hfits
    obtain ⟨c, hc, rfl⟩ := Option.map_eq_some_iff.mp hs
    split_ifs with hstop
    · exact ⟨h.files_eq, ⟨hfits.made, hfits.gaveUp, hfits.delivered, hfits.inv, hfits.called⟩,
        h.heeds⟩
    · refine ⟨h.files_eq, ⟨hfits.made, hfits.gaveUp, hfits.delivered, hfits.inv, ?_⟩,
        h.heeds.put fun hc => absurd hc hstop⟩
      exact (called_put s c).symm ▸ hfits.called.snoc hc
  case h_4 => cases hs

theorem Inv.step {a : Act} (h : Inv files s) (hs : step timeouts s a = some s') : Inv files s' := by
  have hfits := h.fits
  cases a with
  | stop =>
    obtain rfl := Option.some.inj hs
    exact ⟨h.files_eq, hfits.stopped, h.heeds⟩
  | connected r =>
    simp only [Send.step] at hs
    split at hs
    case h_1 hstage =>
      rw [hstage] at hfits
      obtain rfl := Option.some.inj hs
      exact ⟨h.files_eq, ⟨hfits.made, hfits.gaveUp, hfits.delivered, hfits.called⟩, h.heeds⟩
    case h_2 hstage =>
      rw [hstage] at hfits
      obtain rfl := Option.some.inj hs
      exact inv_ended h.files_eq h.heeds (Or.inl hfits)
    case h_3 => cases hs
  | send => exact h.onSend hs
  | created answer =>
    simp only [Send.step] at hs
    split at hs
    case h_1 hstage =>
      rw [hstage] at hfits
      split_ifs at hs
      obtain rfl := Option.some.inj hs
      exact inv_onCreated h.files_eq h.heeds hfits answer
    case h_2 => cases hs
  | settled =>
    simp only [Send.step] at hs
    split at hs
    case h_1 hstage =>
      rw [hstage] at hfits
      obtain rfl := Option.some.inj hs
      exact inv_ended h.files_eq h.heeds (Or.inr (Or.inr hfits))
    case h_2 => cases hs
  | subscribed r =>
    simp only [Send.step] at hs
    split at hs
    case h_1 hstage =>
      rw [hstage] at hfits
      split_ifs at hs
      obtain rfl := Option.some.inj hs
      exact inv_onSubscribed h.files_eq h.heeds hfits r
    case h_2 => cases hs
  | push a =>
    simp only [Send.step] at hs
    split at hs
    case h_1 hstage =>
      rw [hstage] at hfits
      split_ifs at hs
      obtain ⟨push', hpush, rfl⟩ := Option.map_eq_some_iff.mp hs
      exact inv_onPush h.files_eq h.heeds hfits hpush
    case h_2 => cases hs
  | removed =>
    simp only [Send.step] at hs
    split at hs
    case h_1 why hstage =>
      rw [hstage] at hfits
      obtain rfl := Option.some.inj hs
      refine ⟨h.files_eq, Or.inl ⟨⟨hfits.1.gaveUp, hfits.1.removed⟩, fun hok => hfits.2 ?_⟩,
        h.heeds⟩
      exact why_of_result hok
    case h_2 => cases hs

theorem inv_start (files : List OutgoingFile) : Inv files { files } :=
  ⟨rfl, ⟨rfl, rfl, rfl, rfl⟩, fun _ hc => by cases hc⟩

/-- Neither `Ping` nor `RemoveSession` is among the calls before the last. -/
theorem Body.not_mem {c : Call} (h : Body session calls)
    (hc : c = .ping ∨ ∃ path, c = .removeSession path) : c ∉ calls := by
  have hrules : ∀ ms, ms <+: rules session → c ∉ ms := by
    intro ms hms hmem
    rcases hms.subset hmem with _ | ⟨_, _ | ⟨_, hnil⟩⟩
    · simp at hc
    · simp at hc
    · cases hnil
  have hworks : ∀ ws : List Call, (∀ d ∈ ws, Works d) → c ∉ ws := by
    intro ws hws hmem
    rcases hws c hmem with rfl | rfl <;> simp at hc
  have hfirst : c ≠ .createSession := by rintro rfl; simp at hc
  have hcancel : c ≠ .cancel := by rintro rfl; simp at hc
  cases h with
  | subscribing hms => simp [hfirst, hrules _ hms]
  | pushing hws => simp [hfirst, hrules _ List.prefix_rfl, hworks _ hws]
  | cancelling hws => simp [hfirst, hcancel, hrules _ List.prefix_rfl, hworks _ hws]

/-- In every run of a send, whatever obexd, the bus and the user do and whenever: once the send is
cancelled, only the calls that clean up are made. When it has ended, a session that obexd named is
removed by the last call and by no other, after the calls in their order: both rules before the
first file, and nothing after a `Cancel`. Without a session nothing is removed. A `CreateSession`
that was given up on is followed by a `Ping`, and no other is. The send succeeds only if obexd said
of every file, in order, that it is complete. -/
theorem session_removed {as : List Act} (h : exec (step timeouts) { files } as = some s) :
    (∀ c, (c, true) ∈ s.calls → c.isCleanup = true) ∧
    ∀ result, s.stage = .ended result →
      (∀ session, s.made = some session → s.gaveUp = false ∧ ∃ body, Body session body ∧
        s.called = body ++ [.removeSession session.path] ∧ ∀ path, Call.removeSession path ∉ body) ∧
      (s.made = none → (∀ path, Call.removeSession path ∉ s.called) ∧ result ≠ .ok ()) ∧
      (s.gaveUp = true ↔ Call.ping ∈ s.called) ∧
      (s.gaveUp = true → s.called = [.createSession, .ping]) ∧
      (result = .ok () → s.delivered = files) := by
  have hinv : Inv files s := exec_invariant (fun _ _ _ hI hs => hI.step hs) (inv_start files) h
  refine ⟨hinv.heeds, fun result hstage => ?_⟩
  have hfits := hinv.fits
  rw [hstage] at hfits
  rcases hfits with ⟨⟨hup, session, body, hmade, hbody, hcalled⟩, hok⟩ | ⟨hne, hun⟩
  · have hping : Call.ping ∉ s.called := by
      rw [hcalled]
      simpa using hbody.not_mem (Or.inl rfl)
    refine ⟨?_, ?_, ?_, ?_, ?_⟩
    · intro other hother
      obtain rfl := Option.some.inj (hmade.symm.trans hother)
      exact ⟨hup, body, hbody, hcalled, fun path => hbody.not_mem (Or.inr ⟨path, rfl⟩)⟩
    · intro hnone
      rw [hmade] at hnone
      cases hnone
    · simp [hup, hping]
    · simp [hup]
    · exact fun heq => (hok heq).trans hinv.files_eq
  · obtain ⟨gaveUp, calls, hunmade, hcalls⟩ : ∃ gaveUp calls, Unmade s gaveUp calls ∧
        (gaveUp = false ∧ calls = [] ∨ gaveUp = false ∧ calls = [.createSession] ∨
          gaveUp = true ∧ calls = [.createSession, .ping]) := by
      rcases hun with hun | hun | hun
      · exact ⟨false, [], hun, by simp⟩
      · exact ⟨false, _, hun, by simp⟩
      · exact ⟨true, _, hun, by simp⟩
    have hmade := hunmade.made
    have hup := hunmade.gaveUp
    have hcalled := hunmade.called
    rcases hcalls with ⟨rfl, rfl⟩ | ⟨rfl, rfl⟩ | ⟨rfl, rfl⟩ <;> simp [hmade, hup, hcalled, hne]

/-- The session `/client/session1` of an obexd. -/
def createReply : Message :=
  ⟨some ":1.7".toList, none, none, none, [.path "/client/session1".toList]⟩

def cancelledActs : List Act :=
  [.connected (.ok ()), .send, .created (.ok createReply), .send, .subscribed (.ok ()), .send,
    .subscribed (.ok ()), .push (.next (some ⟨true, 3⟩)), .send,
    .push (.replied ⟨some ":1.7".toList, none, none, none,
      [.path "/client/session1/transfer1".toList, .array []]⟩ 0 0 0),
    .stop, .push (.look true 1), .push .cancelled, .removed]

theorem session_removed_cancelled :
    ∃ s, exec (step ⟨60, 30, 2⟩) { files := [⟨some "/home/a".toList, 3⟩] } cancelledActs = some s ∧
      (Call.cancel, true) ∈ s.calls ∧
      ∃ body, Body ⟨"/client/session1".toList, ":1.7".toList⟩ body ∧
        s.called = body ++ [.removeSession "/client/session1".toList] := by
  have hany : (exec (step ⟨60, 30, 2⟩) { files := [⟨some "/home/a".toList, 3⟩] } cancelledActs).any
      (fun s => (match s.stage with | .ended _ => true | _ => false) &&
        decide (s.made = some ⟨"/client/session1".toList, ":1.7".toList⟩ ∧
          (Call.cancel, true) ∈ s.calls)) = true := by
    decide +kernel
  obtain ⟨s, hs, hp⟩ := (Option.any_eq_true ..).mp hany
  obtain ⟨hended, hrest⟩ := Bool.and_eq_true_iff.mp hp
  obtain ⟨hmade, hcancel⟩ := of_decide_eq_true hrest
  obtain ⟨-, hend⟩ := session_removed hs
  cases hstage : s.stage with
  | ended result =>
    obtain ⟨-, body, hbody, hcalled, -⟩ := (hend result hstage).1 _ hmade
    exact ⟨s, hs, hcancel, body, hbody, hcalled⟩
  | _ => simp [hstage] at hended

end Send

end Sukkula.Bluetooth
