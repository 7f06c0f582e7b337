import Sukkula.LocalSend.Drain

/-! # The adapter

The four calls that switch Receive and discovery. One runs at a time, under the
adapter's state lock, while the requests and sessions of every server that was
started go on. A call is cut where it stores a flag, takes the slot lock of the
server or waits.
-/

namespace Sukkula.LocalSend

open Transition

/-- What the call that has the state lock does next. -/
inductive Call
  | resuming
  -- It waits for the old listener, then starts a server.
  | starting (accepting : Bool)
  | storingReceiving
  | receivingStarted
  | clearingReceiving
  | draining
  | drained
  | storingDiscovering
  | testing
  | discoveryStarted
  | clearingDiscovering
  | testingReceiving
  | ending
  deriving DecidableEq, Repr

structure Adapter where
  receiving : Bool
  discovering : Bool
  servers : ℕ → Server
  started : ℕ
  -- `state.server`
  current : Option ℕ
  call : Option Call
  -- `start_receiving` has succeeded and `stop_receiving` was not called since.
  serving : Bool
  -- The server `start_discovery` returned with, if `stop_discovery` was not called since.
  announced : Option ℕ

namespace Adapter

def new : Adapter := ⟨false, false, fun _ => .new false, 0, none, none, false, none⟩

def setServer (s : Adapter) (i : ℕ) (x : Server) : Adapter :=
  { s with servers := Function.update s.servers i x }

def goTo (s : Adapter) (call : Call) : Adapter := { s with call := some call }

/-- `resume` of the current server, if there is one. -/
def resume (s : Adapter) : Option Adapter :=
  match s.current with
  | none => some (s.goTo (.starting true))
  | some i => (s.servers i).resume.map fun (x, ok) =>
      if ok then (s.setServer i x).goTo .storingReceiving
      else { s.setServer i x with current := none, call := some (.starting true) }

/-- `Server::start`; `ok` says whether the port could be bound. -/
def start (s : Adapter) (accepting ok : Bool) : Adapter :=
  if ok then
    { s.setServer s.started (.new accepting) with
      started := s.started + 1
      current := some s.started
      call := some (if accepting then .storingReceiving else .discoveryStarted) }
  else { s with call := if accepting then none else some .discoveryStarted }

def drain (s : Adapter) : Option Adapter :=
  match s.current with
  | none => some (s.goTo .ending)
  | some i => (s.servers i).drain.map fun x => (s.setServer i x).goTo .drained

/-- The rest of `drain`; a server that stopped is let go. -/
def drained (s : Adapter) : Option Adapter :=
  match s.current with
  | none => none
  | some i => (s.servers i).drained s.discovering |>.map fun x =>
      let stop := (s.servers i).draining = some true ∧ s.discovering = false
      { s.setServer i x with current := if stop then none else some i, call := some .ending }

/-- `start_discovery` keeps the current server unless it has stopped. -/
def test (s : Adapter) : Adapter :=
  match s.current with
  | none => s.goTo (.starting false)
  | some i =>
    if (s.servers i).closing then { s with current := none, call := some (.starting false) }
    else s.goTo .discoveryStarted

def go (s : Adapter) (ok : Bool) : Call → Option Adapter
  | .resuming => s.resume
  | .starting accepting => some (s.start accepting ok)
  | .storingReceiving => some { s with receiving := true, call := some .receivingStarted }
  | .receivingStarted => some { s with call := none, serving := true }
  | .clearingReceiving => some { s with receiving := false, call := some .draining }
  | .draining => s.drain
  | .drained => s.drained
  | .storingDiscovering => some { s with discovering := true, call := some .testing }
  | .testing => some s.test
  | .discoveryStarted => some { s with call := none, announced := s.current }
  | .clearingDiscovering => some { s with discovering := false, call := some .testingReceiving }
  | .testingReceiving => some (s.goTo (if s.receiving then .ending else .draining))
  | .ending => some { s with call := none }

inductive Act
  | startReceiving
  | stopReceiving
  | startDiscovery
  | stopDiscovery
  | go (ok : Bool)
  | server (i : ℕ) (a : Server.Act)

/-- What a server does by itself; it reads the adapter's `discovering`. -/
def serverActs (discovering : Bool) : Server.Act → Bool
  | .drain | .drained _ | .resume => false
  | .free d => d == discovering
  | _ => true

def step (s : Adapter) : Act → Option Adapter
  | .startReceiving => if s.call = none then some (s.goTo .resuming) else none
  | .stopReceiving =>
    if s.call = none then some { s with serving := false, call := some .clearingReceiving }
    else none
  | .startDiscovery => if s.call = none then some (s.goTo .storingDiscovering) else none
  | .stopDiscovery =>
    if s.call = none then some { s with announced := none, call := some .clearingDiscovering }
    else none
  | .go ok => s.call.bind (s.go ok)
  | .server i a =>
    if i < s.started ∧ serverActs s.discovering a = true then
      ((s.servers i).step a).map (s.setServer i)
    else none

end Adapter

end Sukkula.LocalSend
