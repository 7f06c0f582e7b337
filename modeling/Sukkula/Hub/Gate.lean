import Mathlib.Data.Nat.Log
import Sukkula.Library.Transition
import Sukkula.LocalSend.Session

/-! # The gate

A bounded queue that one thread drains into the sink. A push waits for room,
unless it holds a command slot or comes from a delivery thread; a thread that
waits is one whose step is not enabled yet. The delivery thread is cut where it
takes the lock, calls the sink and comes back from it. What was accepted and
what the sink was called with are written down, for the statements.
-/

namespace Sukkula.Hub

open LocalSend

def maxEventBytes : ℕ := 256 * 1024

def maxQueuedEvents : ℕ := 1024

def maxQueuedBytes : ℕ := 4 * 1024 * 1024

/-- An event for the shell; `α` has the kinds nothing here looks into. -/
inductive Event (α : Type*)
  | reply (id : UInt64) (result : Except ErrorInfo (Option UInt64))
  | transferFinished (transfer : UInt64) (outcome : Outcome) (saved : List Str)
  | other (event : α)

/-- An event in the queue; `permit` is the number of the command whose slot it holds. -/
structure Queued (α : Type*) where
  event : Event α
  bytes : ℕ
  permit : Option ℕ

inductive GateState | opened | draining | closed
  deriving DecidableEq, Repr

inductive Finish | drain | discard
  deriving DecidableEq, Repr

inductive Runner (α : Type*)
  | looping
  | handing (item : Queued α)
  | calling (item : Queued α)
  -- The sink has returned; the permit is to be dropped.
  | returned (permit : Option ℕ)
  -- `delivered` is to be counted up.
  | counting
  | ending
  | finished

structure Gate (α : Type*) where
  items : List (Queued α)
  heldEvents : ℕ
  heldBytes : ℕ
  state : GateState
  accepted : ℕ
  delivered : ℕ
  runner : Runner α
  log : List (Event α)
  calls : List (Event α)
  returns : ℕ

variable {α : Type*}

/-- The event's size as JSON, if it is within the limit; `len` is what serialising it comes to. -/
def encodedLen (len : Event α → ℕ) (event : Event α) : Option ℕ :=
  if len event ≤ maxEventBytes then some (len event) else none

/-- What takes the place of an event that is too large. -/
def replacement : Event α → Option (Event α)
  | .reply id _ => some (.reply id (.error ⟨.internal, "the reply was too large"⟩))
  | .transferFinished transfer _ _ =>
    some (.transferFinished transfer (.failed ⟨.internal, "the report was too large"⟩) [])
  | .other _ => none

def fit (len : Event α → ℕ) (event : Event α) : Option (Event α × ℕ) :=
  match encodedLen len event with
  | some n => some (event, n)
  | none => (replacement event).bind fun event => (encodedLen len event).map (event, ·)

def codeName : ErrorCode → String
  | .badCommand => "bad_command"
  | .badVersion => "bad_version"
  | .unavailable => "unavailable"
  | .notFound => "not_found"
  | .badSettings => "bad_settings"
  | .badFile => "bad_file"
  | .tooLarge => "too_large"
  | .refused => "refused"
  | .peerMismatch => "peer_mismatch"
  | .badCode => "bad_code"
  | .network => "network"
  | .storage => "storage"
  | .internal => "internal"

def decimalLen (n : UInt64) : ℕ := Nat.log 10 n.toNat + 1

def errorLen (e : ErrorInfo) : ℕ := 24 + (codeName e.code).length + e.message.length

def outcomeLen : Outcome → ℕ
  | .done => 17
  | .cancelled => 22
  | .failed e => 28 + errorLen e

/-- What serialising comes to where no text needs an escape and the only other event is
`receiving`, off and with no protocol. -/
def jsonLen : Event Unit → ℕ
  | .reply id (.ok none) => 32 + decimalLen id
  | .reply id (.ok (some transfer)) => 44 + decimalLen id + decimalLen transfer
  | .reply id (.error e) => 42 + decimalLen id + errorLen e
  | .transferFinished transfer outcome saved =>
    51 + decimalLen transfer + outcomeLen outcome +
      if saved.isEmpty then 0 else 10 + (saved.map fun name => Str.len name + 3).sum
  | .other () => 46

namespace Gate

def new : Gate α := ⟨[], 0, 0, .opened, 0, 0, .looping, [], [], 0⟩

/-- The permits that are dropped with some items. -/
def permits (items : List (Queued α)) : List ℕ := items.filterMap Queued.permit

/-- A push without a permit that is not on a delivery thread waits here. -/
def waits (g : Gate α) (bytes : ℕ) : Bool :=
  g.state = .opened && 0 < g.heldEvents &&
    (maxQueuedEvents ≤ g.heldEvents || maxQueuedBytes < g.heldBytes + bytes)

/-- `push`: `none` while it waits, else the permits it drops. -/
def push (len : Event α → ℕ) (g : Gate α) (inDelivery : Bool) (event : Event α)
    (permit : Option ℕ) : Option (Gate α × List ℕ) :=
  match fit len event with
  | none => some (g, permit.toList)
  | some (event, bytes) =>
    if permit.isNone && !inDelivery && g.waits bytes then none
    else if g.state ≠ .opened then some (g, permit.toList)
    else
      some ({ g with
        items := g.items ++ [⟨event, bytes, permit⟩]
        heldEvents := if permit.isNone then g.heldEvents + 1 else g.heldEvents
        heldBytes := if permit.isNone then g.heldBytes + bytes else g.heldBytes
        accepted := g.accepted + 1
        log := g.log ++ [event] }, [])

def close (g : Gate α) (finish : Finish) : Gate α × List ℕ :=
  let state := match finish with
    | .drain => if g.state = .opened then .draining else g.state
    | .discard => .closed
  if state = .closed then
    ({ g with state := .closed, heldEvents := 0, heldBytes := 0, items := [] }, permits g.items)
  else ({ g with state := state }, [])

/-- The head of the loop, under the lock; `none` while it waits for an event. -/
def take (g : Gate α) : Option (Gate α) :=
  match g.runner with
  | .looping =>
    if g.state = .closed then some { g with runner := .ending }
    else
      match g.items with
      | item :: items =>
        some { g with
          items := items
          heldEvents := if item.permit.isNone then g.heldEvents - 1 else g.heldEvents
          heldBytes := if item.permit.isNone then g.heldBytes - item.bytes else g.heldBytes
          runner := .handing item }
      | [] => if g.state = .draining then some { g with runner := .ending } else none
  | _ => none

/-- The rest of the delivery thread's way round. -/
def deliver (g : Gate α) : Option (Gate α × List ℕ) :=
  match g.runner with
  | .handing item => some ({ g with runner := .calling item, calls := g.calls ++ [item.event] }, [])
  | .calling item => some ({ g with runner := .returned item.permit, returns := g.returns + 1 }, [])
  | .returned permit => some ({ g with runner := .counting }, permit.toList)
  | .counting => some ({ g with runner := .looping, delivered := g.delivered + 1 }, [])
  | .ending => some ({ g with runner := .finished, items := [] }, permits g.items)
  | _ => none

inductive Act (α : Type*)
  | push (inDelivery : Bool) (event : Event α) (permit : Option ℕ)
  | close (finish : Finish)
  | take
  | deliver

/-- A step, with the permits that are dropped in it. -/
def stepDrops (len : Event α → ℕ) (g : Gate α) : Act α → Option (Gate α × List ℕ)
  | .push inDelivery event permit => g.push len inDelivery event permit
  | .close finish => some (g.close finish)
  | .take => g.take.map (·, [])
  | .deliver => g.deliver

def step (len : Event α → ℕ) (g : Gate α) (a : Act α) : Option (Gate α) :=
  (g.stepDrops len a).map Prod.fst

end Gate

end Sukkula.Hub
