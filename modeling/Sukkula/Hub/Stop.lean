import Mathlib.Logic.Function.Basic
import Sukkula.Hub.Delivery

/-! # Stopping an engine

`sukkula_command` and `sukkula_stop` on one handle, called from threads that are
not delivery threads. A stop takes the handle out of the registry, waits for the
commands inside, takes the engine out and tears it down: it closes the gate and
joins the delivery thread. A stop that finds no handle returns at once, also
when another one is still tearing the engine down.
-/

namespace Sukkula.Hub

open Transition

variable {α : Type*} {len : Event α → ℕ}

/-- Where a `sukkula_stop` call is; `started` says whether it began while the engine was there. -/
inductive StopCall
  | idle
  | began (started : Bool)
  -- It has taken the handle out, and waits for the write lock.
  | holding (started : Bool)
  -- It has the engine, and stops the adapters and the runtime.
  | tearing (started : Bool)
  | closing (started : Bool)
  | joining (started : Bool)
  | returned (started : Bool)
  deriving DecidableEq, Repr

/-- Where a `sukkula_command` call is. -/
inductive CommandCall
  | idle
  | found
  | inside
  | returned
  deriving DecidableEq, Repr

structure Handle (α : Type*) where
  registered : Bool
  engine : Bool
  readers : ℕ
  gate : Gate α
  stops : ℕ → StopCall
  commands : ℕ → CommandCall

namespace Handle

/-- An engine that was started, with a gate that may have been at work. -/
def new (gate : Gate α) : Handle α := ⟨true, true, 0, gate, fun _ => .idle, fun _ => .idle⟩

def setStop (s : Handle α) (i : ℕ) (p : StopCall) : Handle α :=
  { s with stops := Function.update s.stops i p }

def setCommand (s : Handle α) (k : ℕ) (p : CommandCall) : Handle α :=
  { s with commands := Function.update s.commands k p }

/-- The next part of a `sukkula_stop` call. -/
def stop (s : Handle α) (i : ℕ) : Option (Handle α) :=
  match s.stops i with
  | .idle => some (s.setStop i (.began s.registered))
  | .began started =>
    if s.registered then some { s.setStop i (.holding started) with registered := false }
    else some (s.setStop i (.returned started))
  | .holding started =>
    if s.readers ≠ 0 then none
    else if s.engine then some { s.setStop i (.tearing started) with engine := false }
    else some (s.setStop i (.returned started))
  | .tearing started => some (s.setStop i (.closing started))
  | .closing started =>
    some { s.setStop i (.joining started) with gate := (s.gate.close .drain).1 }
  | .joining started =>
    match s.gate.runner with
    | .finished => some (s.setStop i (.returned started))
    | _ => none
  | .returned _ => none

/-- The next part of a `sukkula_command` call. -/
def command (s : Handle α) (k : ℕ) : Option (Handle α) :=
  match s.commands k with
  | .idle => some (s.setCommand k (if s.registered then .found else .returned))
  | .found =>
    if s.engine then some { s.setCommand k .inside with readers := s.readers + 1 }
    else some (s.setCommand k .returned)
  | .inside => some { s.setCommand k .returned with readers := s.readers - 1 }
  | .returned => none

/-- What the engine does by itself: it emits events and delivers them. -/
def engineActs : Gate.Act α → Bool
  | .close _ => false
  | _ => true

inductive Act (α : Type*)
  | stop (i : ℕ)
  | command (k : ℕ)
  | gate (a : Gate.Act α)

def step (len : Event α → ℕ) (s : Handle α) : Act α → Option (Handle α)
  | .stop i => s.stop i
  | .command k => s.command k
  | .gate a =>
    if engineActs a then (s.gate.step len a).map fun gate => { s with gate := gate } else none

variable {s s' : Handle α}

/-- A stop that looks the handle up finds it, or the engine has come to its end. -/
def FindsIt (s : Handle α) (a : Act α) : Prop :=
  ∀ i, a = .stop i → s.stops i = .began true → s.registered = true ∨ s.gate.runner = .finished

/-- What is true of the handle at every point. -/
structure Inv (s : Handle α) : Prop where
  returned : ∀ i, s.stops i = .returned true → s.gate.runner = .finished
  registered : s.registered = true → s.engine = true ∧ ∀ i b, s.stops i ≠ .holding b
  holding : ∀ i b, s.stops i = .holding b → s.engine = true
  once : ∀ i j b c, s.stops i = .holding b → s.stops j = .holding c → i = j

theorem close_runner (g : Gate α) (finish : Finish) : (g.close finish).1.runner = g.runner := by
  rcases Gate.close_cases g finish with ⟨-, -, he⟩ | ⟨-, -, he⟩ | ⟨-, he⟩ <;> rw [he]

theorem gate_finished {g g' : Gate α} {a : Gate.Act α} (h : g.runner = .finished)
    (hs : g.step len a = some g') : g'.runner = .finished ∧ g'.calls = g.calls := by
  obtain ⟨⟨x, drops⟩, hx, rfl⟩ := Option.map_eq_some_iff.mp hs
  cases a with
  | push inDelivery event permit =>
    rcases Gate.push_cases hx with ⟨rfl, -⟩ | ⟨-, -, event', bytes, -, -, rfl⟩ <;> exact ⟨h, rfl⟩
  | close finish =>
    have he : g.close finish = (x, drops) := Option.some.inj hx
    rcases Gate.close_cases g finish with ⟨-, -, hc⟩ | ⟨-, -, hc⟩ | ⟨-, hc⟩ <;> rw [hc] at he <;>
      obtain ⟨rfl, -⟩ := Prod.mk.inj he <;> exact ⟨h, rfl⟩
  | take =>
    obtain ⟨y, hy, -⟩ := Option.map_eq_some_iff.mp hx
    have hr := (Gate.take_cases hy).1
    rw [h] at hr
    cases hr
  | deliver => simp [Gate.stepDrops, Gate.deliver, h] at hx

namespace Inv

theorem new (gate : Gate α) : (Handle.new gate).Inv := by
  constructor <;> simp [Handle.new]

theorem setStop (h : s.Inv) {i : ℕ} {p : StopCall} {engine : Bool} {gate : Gate α}
    (hgate : s.gate.runner = .finished → gate.runner = .finished)
    (hret : p = .returned true → gate.runner = .finished) (hp : ∀ b, p ≠ .holding b)
    (heng : engine = s.engine ∨ ∃ b, s.stops i = .holding b) :
    ({ s.setStop i p with engine := engine, gate := gate } : Handle α).Inv := by
  have hold : ∀ j b, (s.setStop i p).stops j = .holding b → j ≠ i ∧ s.stops j = .holding b := by
    intro j b hj
    rcases update_cases hj with ⟨-, he⟩ | hj
    · exact absurd he.symm (hp b)
    · exact hj
  constructor
  · intro j hj
    rcases update_cases hj with ⟨-, he⟩ | ⟨-, hj⟩
    · exact hret he.symm
    · exact hgate (h.returned j hj)
  · intro hr
    obtain ⟨he, hnone⟩ := h.registered hr
    refine ⟨?_, fun j b hj => hnone j b (hold j b hj).2⟩
    rcases heng with rfl | ⟨b, hb⟩
    · exact he
    · exact absurd hb (hnone i b)
  · intro j b hj
    obtain ⟨hji, hj'⟩ := hold j b hj
    rcases heng with rfl | ⟨c, hc⟩
    · exact h.holding j b hj'
    · exact absurd (h.once j i b c hj' hc) hji
  · intro j k b c hj hk
    exact h.once j k b c (hold j b hj).2 (hold k c hk).2

theorem stop (h : s.Inv) {i : ℕ} (hf : s.FindsIt (.stop i)) (hs : s.stop i = some s') :
    s'.Inv := by
  unfold Handle.stop at hs
  split at hs
  · obtain rfl := Option.some.inj hs
    exact h.setStop id (by simp) (by simp) (Or.inl rfl)
  · rename_i started hi
    split_ifs at hs with hr <;> obtain rfl := Option.some.inj hs
    · obtain ⟨heng, hnone⟩ := h.registered hr
      have hself : ∀ j b, (s.setStop i (.holding started)).stops j = .holding b → j = i := by
        intro j b hj
        rcases update_cases hj with ⟨rfl, -⟩ | ⟨-, hj⟩
        · rfl
        · exact absurd hj (hnone j b)
      constructor
      · intro j hj
        rcases update_cases hj with ⟨-, he⟩ | ⟨-, hj⟩
        · cases he
        · exact h.returned j hj
      · simp
      · exact fun _ _ _ => heng
      · intro j k b c hj hk
        exact (hself j b hj).trans (hself k c hk).symm
    · refine h.setStop id (fun hp => ?_) (by simp) (Or.inl rfl)
      obtain rfl := StopCall.returned.inj hp
      exact (hf i rfl hi).resolve_left hr
  · rename_i started hi
    split_ifs at hs with hr heng
    · obtain rfl := Option.some.inj hs
      exact h.setStop id (by simp) (by simp) (Or.inr ⟨started, hi⟩)
    · exact absurd (h.holding i started hi) heng
  · obtain rfl := Option.some.inj hs
    exact h.setStop id (by simp) (by simp) (Or.inl rfl)
  · obtain rfl := Option.some.inj hs
    exact h.setStop (fun hr => (close_runner _ _).trans hr) (by simp) (by simp) (Or.inl rfl)
  · split at hs
    · rename_i hr
      obtain rfl := Option.some.inj hs
      exact h.setStop id (fun _ => hr) (by simp) (Or.inl rfl)
    · cases hs
  · cases hs

theorem command (h : s.Inv) {k : ℕ} (hs : s.command k = some s') : s'.Inv := by
  unfold Handle.command at hs
  split at hs
  · obtain rfl := Option.some.inj hs
    exact ⟨h.returned, h.registered, h.holding, h.once⟩
  · split_ifs at hs with he <;> obtain rfl := Option.some.inj hs <;>
      exact ⟨h.returned, h.registered, h.holding, h.once⟩
  · obtain rfl := Option.some.inj hs
    exact ⟨h.returned, h.registered, h.holding, h.once⟩
  · cases hs

theorem step (s : Handle α) (a : Act α) (s' : Handle α) (h : s.Inv) (hf : s.FindsIt a)
    (hs : s.step len a = some s') : s'.Inv := by
  cases a with
  | stop i => exact h.stop hf hs
  | command k => exact h.command hs
  | gate a =>
    simp only [Handle.step] at hs
    split_ifs at hs
    obtain ⟨g, hg, rfl⟩ := Option.map_eq_some_iff.mp hs
    exact ⟨fun i hi => (gate_finished (h.returned i hi) hg).1, h.registered, h.holding, h.once⟩

end Inv

theorem stop_calls {j : ℕ} (hs : s.stop j = some s') : s'.gate.calls = s.gate.calls := by
  unfold stop at hs
  split at hs
  · exact Option.some.inj hs ▸ rfl
  · split_ifs at hs <;> exact Option.some.inj hs ▸ rfl
  · split_ifs at hs <;> exact Option.some.inj hs ▸ rfl
  · exact Option.some.inj hs ▸ rfl
  · obtain rfl := Option.some.inj hs
    rcases Gate.close_cases s.gate .drain with ⟨-, -, he⟩ | ⟨-, -, he⟩ | ⟨-, he⟩ <;> simp [he]
  · split at hs
    · exact Option.some.inj hs ▸ rfl
    · cases hs
  · cases hs

theorem command_calls {k : ℕ} (hs : s.command k = some s') : s'.gate.calls = s.gate.calls := by
  unfold command at hs
  split at hs
  · exact Option.some.inj hs ▸ rfl
  · split_ifs at hs <;> exact Option.some.inj hs ▸ rfl
  · exact Option.some.inj hs ▸ rfl
  · cases hs

/-- In every run in which each `sukkula_stop` that began with the engine there finds its handle, or
the engine's delivery thread has ended: once such a call has returned, no callback begins. -/
theorem silent_after_stop {gate : Gate α} {as : List (Act α)} {a : Act α} {i : ℕ}
    (h : exec (step len) (new gate) as = some s) (hf : Along (step len) FindsIt (new gate) as)
    (hi : s.stops i = .returned true) (hs : s.step len a = some s') :
    s'.gate.calls = s.gate.calls := by
  have hinv : s.Inv := exec_invariant_along Inv.step (Inv.new gate) hf h
  have hfin := hinv.returned i hi
  cases a with
  | stop j => exact stop_calls hs
  | command k => exact command_calls hs
  | gate a =>
    simp only [step] at hs
    split_ifs at hs
    obtain ⟨g, hg, rfl⟩ := Option.map_eq_some_iff.mp hs
    exact (gate_finished hfin hg).2

/-- One event is delivered before the stop, and one while it waits. -/
def deliveredStop : List (Act Unit) :=
  [.gate (.push false (.other ()) none), .gate (.push false (.transferFinished 7 .done []) none),
    .gate .take, .gate .deliver, .gate .deliver, .gate .deliver, .gate .deliver, .stop 0, .stop 0,
    .stop 0, .stop 0, .stop 0, .gate .take, .gate .deliver, .gate .deliver, .gate .deliver,
    .gate .deliver, .gate .take, .gate .deliver, .stop 0]

theorem silent_after_stop_delivered : ∃ s s' : Handle Unit,
    exec (step jsonLen) (new .new) deliveredStop = some s ∧ s.stops 0 = .returned true ∧
    s.step jsonLen (.stop 1) = some s' ∧ s'.gate.calls = s.gate.calls ∧
    s.gate.calls = [.other (), .transferFinished 7 .done []] := by
  have hgate : ∀ (s : Handle Unit) (a : Gate.Act Unit), FindsIt s (.gate a) := by
    rintro s a i ⟨⟩
  refine ⟨_, _, rfl, rfl, rfl, ?_, rfl⟩
  refine silent_after_stop (i := 0)
    (h := (rfl : exec (step jsonLen) (new .new) deliveredStop = _)) ?_
    rfl (a := .stop 1) rfl
  iterate 7 refine Along.cons (hgate _ _) rfl ?_
  refine Along.cons (fun _ _ _ => Or.inl rfl) rfl ?_
  refine Along.cons (fun _ _ _ => Or.inl rfl) rfl ?_
  -- From here on the only call is past its look at the registry.
  iterate 3 refine Along.cons (by rintro _ ⟨⟩ ⟨⟩) rfl ?_
  iterate 7 refine Along.cons (hgate _ _) rfl ?_
  exact ⟨by rintro _ ⟨⟩ ⟨⟩, fun _ _ => trivial⟩

/-- Two stops at once: the second returns while the first still tears down, and a callback
begins. -/
theorem called_after_stop : ∃ s s' : Handle Unit, exec (step jsonLen) (new .new)
      [.gate (.push false (.other ()) none), .stop 0, .stop 1, .stop 0, .stop 1, .gate .take] =
        some s ∧
    s.stops 1 = .returned true ∧ s.step jsonLen (.gate .deliver) = some s' ∧
    s'.gate.calls = s.gate.calls ++ [.other ()] :=
  ⟨_, _, rfl, rfl, rfl, rfl⟩

end Handle

end Sukkula.Hub
