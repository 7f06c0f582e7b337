import Mathlib.Data.Set.Card
import Sukkula.Hub.Delivery
import Sukkula.Hub.Slots

/-! # One reply for each command

A command takes one of a bounded number of slots, by compare and swap. The slot
goes with the reply through the gate and is given back when the reply is
dropped there, delivered or not. The task of a command owns a guard, which
replies when it is sent or else when it is dropped. What was pushed and which
slots were given back is written down, for the statements.
-/

namespace Sukkula.Hub

open LocalSend Transition

def maxInFlightCommands : ℕ := 64

/-- A command as `parse_command` reads it; one that cannot be read may still have an id. -/
abbrev Input := Except (Option UInt64 × ErrorInfo) UInt64

def Input.id : Input → UInt64
  | .ok id => id
  | .error (id, _) => id.getD 0

inductive Refused | busy | stopped
  deriving DecidableEq, Repr

/-- `permit` is the number of the command whose slot it has. -/
structure ReplyGuard where
  id : UInt64
  permit : Option ℕ
  deriving DecidableEq, Repr

inductive Command
  | idle
  | calling
  | refused (why : Refused)
  | running (guard : ReplyGuard)
  -- `send` is done, and drops the guard at its end.
  | sent (guard : ReplyGuard)
  -- The task has ended or was dropped, or the command was answered without one.
  | ended
  deriving DecidableEq, Repr

/-- A push: whether the gate was open, and what it wrote to its log. -/
structure Pushed (α : Type*) where
  event : Event α
  permit : Option ℕ
  opened : Bool
  took : List (Event α)

structure Commands (α : Type*) where
  gate : Gate α
  inFlight : ℕ
  -- The runtime is there: the engine was not stopped.
  runtime : Bool
  command : ℕ → Command
  slot : ℕ → Slots.Pc
  input : ℕ → Input
  pushed : List (Pushed α)
  -- The commands whose slot was given back.
  given : List ℕ

variable {α : Type*}

namespace Commands

def new : Commands α := ⟨.new, 0, true, fun _ => .idle, fun _ => .taking, fun _ => .ok 0, [], []⟩

def set (s : Commands α) (k : ℕ) (c : Command) : Commands α :=
  { s with command := Function.update s.command k c }

def setSlot (s : Commands α) (k : ℕ) (pc : Slots.Pc) : Commands α :=
  { s with slot := Function.update s.slot k pc }

/-- The gate has moved on, and dropped some slots. -/
def setGate (s : Commands α) (gate : Gate α) (drops : List ℕ) : Commands α :=
  { s with
    gate := gate
    slot := fun k => if k ∈ drops then .givingBack else s.slot k }

/-- `try_command_json` and `try_command` up to `Permit::acquire`. -/
def call (s : Commands α) (k : ℕ) (input : Input) : Option (Commands α) :=
  match s.command k with
  | .idle =>
    some { s.set k (if s.runtime then .calling else .refused .stopped) with
      input := Function.update s.input k input }
  | _ => none

/-- `slots::take` or `slots::give_back` reads the counter. -/
def read (s : Commands α) (k : ℕ) : Option (Commands α) :=
  if s.command k = .calling ∨ (s.slot k).holds then
    ((s.slot k).read maxInFlightCommands s.inFlight).map fun pc =>
      if pc = .refused then (s.setSlot k pc).set k (.refused .busy) else s.setSlot k pc
  else none

/-- `slots::take` or `slots::give_back` swaps the counter. -/
def swap (s : Commands α) (k : ℕ) : Option (Commands α) :=
  ((s.slot k).swap usizeMax s.inFlight).map fun (n, pc) =>
    { s.setSlot k pc with
      inFlight := n
      given := if pc = .done then s.given ++ [k] else s.given }

/-- `gate.push` -/
def push (len : Event α → ℕ) (s : Commands α) (inDelivery : Bool) (event : Event α)
    (permit : Option ℕ) : Option (Commands α) :=
  (s.gate.push len inDelivery event permit).map fun (gate, drops) =>
    let push : Pushed α := ⟨event, permit, s.gate.state = .opened, gate.log.drop s.gate.log.length⟩
    { s with pushed := s.pushed ++ [push] }.setGate gate drops

/-- The body of `send`, and of `drop` with its own result. -/
def reply (len : Event α → ℕ) (s : Commands α) (guard : ReplyGuard)
    (result : Except ErrorInfo (Option UInt64)) : Option (Commands α) :=
  match guard.permit with
  | some k => s.push len false (.reply guard.id result) (some k)
  | none => some s

/-- A command that was read becomes a task; another one is answered at once. -/
def spawn (len : Event α → ℕ) (s : Commands α) (k : ℕ) : Option (Commands α) :=
  match s.command k, s.slot k, s.input k with
  | .calling, .holding, .ok id => some (s.set k (.running ⟨id, some k⟩))
  | .calling, .holding, .error (id, e) =>
    (s.push len false (.reply (id.getD 0) (.error e)) (some k)).map (·.set k .ended)
  | _, _, _ => none

/-- `ReplyGuard::send`, at the end of the work or of its time -/
def send (len : Event α → ℕ) (s : Commands α) (k : ℕ)
    (result : Except ErrorInfo (Option UInt64)) : Option (Commands α) :=
  match s.command k with
  | .running guard => (s.reply len guard result).map (·.set k (.sent { guard with permit := none }))
  | _ => none

/-- The drop of a `ReplyGuard`: at the end of `send`, by a panic, or by the runtime that drops the
task -/
def dropGuard (len : Event α → ℕ) (s : Commands α) (k : ℕ) (stopping : Bool) :
    Option (Commands α) :=
  match s.command k with
  | .running guard | .sent guard =>
    (s.reply len guard (.error ⟨.internal,
      if stopping then "the engine is stopping" else "the command failed internally"⟩)).map
      (·.set k .ended)
  | _ => none

inductive Act (α : Type*)
  | stop
  | call (k : ℕ) (input : Input)
  | read (k : ℕ)
  | swap (k : ℕ)
  | spawn (k : ℕ)
  | send (k : ℕ) (result : Except ErrorInfo (Option UInt64))
  | dropGuard (k : ℕ) (stopping : Bool)
  -- Events that hold no slot, the delivery thread, a close.
  | push (inDelivery : Bool) (event : Event α)
  | close (finish : Finish)
  | take
  | deliver

def step (len : Event α → ℕ) (s : Commands α) : Act α → Option (Commands α)
  | .stop => some { s with runtime := false }
  | .call k input => s.call k input
  | .read k => s.read k
  | .swap k => s.swap k
  | .spawn k => s.spawn len k
  | .send k result => s.send len k result
  | .dropGuard k stopping => s.dropGuard len k stopping
  | .push inDelivery event => s.push len inDelivery event none
  | .close finish => some (s.setGate (s.gate.close finish).1 (s.gate.close finish).2)
  | .take => s.gate.take.map fun gate => s.setGate gate []
  | .deliver => s.gate.deliver.map fun (gate, drops) => s.setGate gate drops

end Commands

end Sukkula.Hub
