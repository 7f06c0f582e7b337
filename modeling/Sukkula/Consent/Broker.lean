import Mathlib.Algebra.Group.Nat.Defs
import Mathlib.Logic.Function.Basic
import Sukkula.Library.Transition

/-! # The consent broker

`ConsentBroker` as a transition system. Every critical section of its mutex is
one step; the calls of the observer and the polls of a waiting `ask` are steps
of their own, so that other threads come between them. An `ask` future is a
task with a program counter, and the oneshot channel it waits on belongs to it.
The map holds, for each id, the task whose sender was put in. Ids are `u64`
values, as natural numbers below `2 ^ 64`.
-/

namespace Sukkula.Consent

/-- One call of `ask`. -/
abbrev Ask := ℕ

inductive Decision | accept | decline
  deriving DecidableEq, Repr

inductive Closed | accepted | declined | timedOut | withdrawn | shutdown
  deriving DecidableEq, Repr

inductive Refusal | busy | declined | timedOut | shutdown
  deriving DecidableEq, Repr

inductive ConsentEvent (Offer : Type) where
  | pending (id : ℕ) (offer : Offer)
  | closed (id : ℕ) (reason : Closed)
  deriving DecidableEq, Repr

/-- The oneshot channel of an `ask`; `closed` when its sender went unused. -/
inductive Chan | empty | sent (d : Decision) | closed
  deriving DecidableEq, Repr

/-- Where an `ask` future is. The only await of its body is `waiting`. -/
inductive Phase (Offer : Type) where
  | idle
  -- Its entry is in the map, the lock is released, the observer not yet told.
  | entered (id : ℕ) (offer : Offer)
  | waiting (id : ℕ)
  -- The deadline passed with nothing received; the queue not yet looked at.
  | elapsed (id : ℕ)
  -- Settled: about to tell the observer and to return.
  | closing (id : ℕ) (reason : Closed) (result : Except Refusal ℕ)
  -- Dropped while waiting: the guard gave the entry up and is about to tell the observer.
  | withdrawing (id : ℕ)
  | returned (result : Except Refusal ℕ)
  | dropped
  deriving DecidableEq

inductive Happening (Offer : Type) where
  | issued (t : Ask) (id : ℕ)
  | told (t : Ask) (e : ConsentEvent Offer)
  | returned (t : Ask) (result : Except Refusal ℕ)
  -- `answer` was called; `took` is the task whose entry it removed.
  | answered (id : ℕ) (d : Decision) (took : Option Ask) (delivered : Bool)
  | shutdown
  deriving DecidableEq

/-- The bound `max_pending`, a `usize`. -/
structure Limits where
  maxPending : ℕ
  usize : maxPending < 2 ^ 64

structure State (Offer : Type) where
  nextId : ℕ
  pending : List (ℕ × Ask)
  shutDown : Bool
  chan : Ask → Chan
  phase : Ask → Phase Offer
  past : List (Happening Offer)

variable {Offer : Type}

/-- `with_limits`. -/
def init : State Offer where
  nextId := 1
  pending := []
  shutDown := false
  chan _ := .empty
  phase _ := .idle
  past := []

/-- `id.checked_add(1).unwrap_or(1)` -/
def nextAfter (id : ℕ) : ℕ :=
  if id + 1 < 2 ^ 64 then id + 1 else 1

/-- The loop of `fresh_id` over the keys in use. -/
def freshLoop (keys : List ℕ) : ℕ → ℕ → ℕ
  | 0, id => id
  | fuel + 1, id => if id = 0 ∨ id ∈ keys then freshLoop keys fuel (nextAfter id) else id

namespace State

def keys (s : State Offer) : List ℕ := s.pending.map Prod.fst

/-- The id `fresh_id` hands out; `pending.len() + 1` rounds are enough. -/
def freshId (s : State Offer) : ℕ :=
  freshLoop s.keys (s.pending.length + 1) s.nextId

def setPhase (s : State Offer) (t : Ask) (p : Phase Offer) : State Offer :=
  { s with phase := Function.update s.phase t p }

def record (s : State Offer) (x : Happening Offer) : State Offer :=
  { s with past := x :: s.past }

/-- `pending.remove(&id)` with the sender dropped, which closes its channel. -/
def remove (s : State Offer) (id : ℕ) : State Offer :=
  match s.pending.lookup id with
  | some u =>
    { s with
      pending := s.pending.filter fun e => e.1 ≠ id
      chan := Function.update s.chan u .closed }
  | none => s

end State

/-- The last match of `ask`: its result, and the reason the observer is told. -/
def outcome (id : ℕ) : Option Decision → Except Refusal ℕ × Closed
  | some .accept => (.ok id, .accepted)
  | some .decline => (.error .declined, .declined)
  | none => (.error .shutdown, .shutdown)

/-- `rx.try_recv().ok()`, and what a completed `rx` yields. -/
def Chan.received : Chan → Option Decision
  | .sent d => some d
  | _ => none

/-- Whether the receiver of an `ask` is still there: its future is alive. -/
def Phase.receiving : Phase Offer → Bool
  | .idle | .returned _ | .dropped => false
  | _ => true

namespace State

/-- The locked section of `ask`. -/
def enter (lim : Limits) (s : State Offer) (t : Ask) (offer : Offer) : State Offer :=
  if s.shutDown then
    (s.setPhase t (.returned (.error .shutdown))).record (.returned t (.error .shutdown))
  else if lim.maxPending ≤ s.pending.length then
    (s.setPhase t (.returned (.error .busy))).record (.returned t (.error .busy))
  else
    { s with
      nextId := nextAfter s.freshId
      pending := (s.freshId, t) :: s.pending
      phase := Function.update s.phase t (.entered s.freshId offer)
      past := .issued t s.freshId :: s.past }

def settle (s : State Offer) (t : Ask) (id : ℕ) (d : Option Decision) : State Offer :=
  s.setPhase t (.closing id (outcome id d).2 (outcome id d).1)

/-- The branch of `ask` taken once its deadline passed. -/
def expire (s : State Offer) (t : Ask) (id : ℕ) : State Offer :=
  if (s.pending.lookup id).isSome then
    (s.remove id).setPhase t (.closing id .timedOut (.error .timedOut))
  else
    s.settle t id (s.chan t).received

def answer (s : State Offer) (id : ℕ) (d : Decision) : State Offer :=
  match s.pending.lookup id with
  | some u =>
    if (s.phase u).receiving then
      { s with
        pending := s.pending.filter fun e => e.1 ≠ id
        chan := Function.update s.chan u (.sent d)
        past := .answered id d (some u) true :: s.past }
    else
      { s with
        pending := s.pending.filter fun e => e.1 ≠ id
        past := .answered id d (some u) false :: s.past }
  | none => s.record (.answered id d none false)

/-- `ConsentBroker::shutdown`: every sender in the map is dropped. -/
def shutdown (s : State Offer) : State Offer :=
  { s with
    shutDown := true
    pending := []
    chan := fun t => if t ∈ s.pending.map Prod.snd then .closed else s.chan t
    past := .shutdown :: s.past }

end State

inductive Action (Offer : Type) where
  -- The first poll of an `ask`, up to the release of the lock.
  | enter (t : Ask) (offer : Offer)
  -- It tells the observer `Pending` and goes to wait.
  | announce (t : Ask)
  -- A poll of the waiting `ask` that finds its channel ready.
  | poll (t : Ask)
  -- A poll that finds nothing and then the deadline passed.
  | elapse (t : Ask)
  -- The timed-out `ask` takes the lock.
  | expire (t : Ask)
  -- It tells the observer `Closed` and returns.
  | close (t : Ask)
  -- The future is dropped at its await; `Waiting`'s drop takes the lock.
  | drop (t : Ask)
  -- `Waiting`'s drop tells the observer `Withdrawn`.
  | withdraw (t : Ask)
  | answer (id : ℕ) (d : Decision)
  | shutdown
  deriving DecidableEq

/-- One step of the broker, an `ask`, the user or the engine. -/
def step (lim : Limits) (s : State Offer) : Action Offer → Option (State Offer)
  | .enter t offer =>
    match s.phase t with
    | .idle => some (s.enter lim t offer)
    | _ => none
  | .announce t =>
    match s.phase t with
    | .entered id offer => some ((s.setPhase t (.waiting id)).record (.told t (.pending id offer)))
    | _ => none
  | .poll t =>
    match s.phase t, s.chan t with
    | .waiting id, .sent d => some (s.settle t id (some d))
    | .waiting id, .closed => some (s.settle t id none)
    | _, _ => none
  | .elapse t =>
    match s.phase t, s.chan t with
    | .waiting id, .empty => some (s.setPhase t (.elapsed id))
    | _, _ => none
  | .expire t =>
    match s.phase t with
    | .elapsed id => some (s.expire t id)
    | _ => none
  | .close t =>
    match s.phase t with
    | .closing id reason result =>
      some (((s.setPhase t (.returned result)).record (.told t (.closed id reason))).record
        (.returned t result))
    | _ => none
  | .drop t =>
    match s.phase t with
    | .waiting id => some ((s.remove id).setPhase t (.withdrawing id))
    | _ => none
  | .withdraw t =>
    match s.phase t with
    | .withdrawing id => some ((s.setPhase t .dropped).record (.told t (.closed id .withdrawn)))
    | _ => none
  | .answer id d => some (s.answer id d)
  | .shutdown => some s.shutdown

inductive Step (lim : Limits) (s : State Offer) : Action Offer → State Offer → Prop where
  | enter {t offer} (ht : s.phase t = .idle) : Step lim s (.enter t offer) (s.enter lim t offer)
  | announce {t id offer} (ht : s.phase t = .entered id offer) :
      Step lim s (.announce t)
        ((s.setPhase t (.waiting id)).record (.told t (.pending id offer)))
  | receive {t id d} (ht : s.phase t = .waiting id) (hc : s.chan t = .sent d) :
      Step lim s (.poll t) (s.settle t id (some d))
  | hangUp {t id} (ht : s.phase t = .waiting id) (hc : s.chan t = .closed) :
      Step lim s (.poll t) (s.settle t id none)
  | elapse {t id} (ht : s.phase t = .waiting id) (hc : s.chan t = .empty) :
      Step lim s (.elapse t) (s.setPhase t (.elapsed id))
  | expire {t id} (ht : s.phase t = .elapsed id) : Step lim s (.expire t) (s.expire t id)
  | close {t id reason result} (ht : s.phase t = .closing id reason result) :
      Step lim s (.close t)
        (((s.setPhase t (.returned result)).record (.told t (.closed id reason))).record
          (.returned t result))
  | drop {t id} (ht : s.phase t = .waiting id) :
      Step lim s (.drop t) ((s.remove id).setPhase t (.withdrawing id))
  | withdraw {t id} (ht : s.phase t = .withdrawing id) :
      Step lim s (.withdraw t) ((s.setPhase t .dropped).record (.told t (.closed id .withdrawn)))
  | answer {id d} : Step lim s (.answer id d) (s.answer id d)
  | shutdown : Step lim s .shutdown s.shutdown

theorem Step.of_step {lim : Limits} {s s' : State Offer} {a : Action Offer}
    (h : step lim s a = some s') : Step lim s a s' := by
  cases a with
  | enter | announce | elapse | expire | close | drop | withdraw =>
    simp only [step] at h
    split at h <;> cases h
    constructor <;> assumption
  | poll t =>
    simp only [step] at h
    split at h <;> cases h
    · exact .receive ‹_› ‹_›
    · exact .hangUp ‹_› ‹_›
  | answer => cases h; exact .answer
  | shutdown => cases h; exact .shutdown

end Sukkula.Consent
