import Sukkula.Hub.Gate

/-! # What the gate delivers

The log of accepted events is what the sink was called with, then the event the
delivery thread has in hand, then the queue. Everything the gate promises is
read off that.
-/

namespace Sukkula.Hub

open Transition

variable {α : Type*} {len : Event α → ℕ}

/-- The event that was taken out and not yet handed over. -/
def Runner.hand : Runner α → List (Event α)
  | .handing item => [item.event]
  | _ => []

/-- The sink has returned from an event that `delivered` does not count yet. -/
def Runner.uncounted : Runner α → ℕ
  | .returned _ | .counting => 1
  | _ => 0

def Runner.inSink : Runner α → ℕ
  | .calling _ => 1
  | _ => 0

def Runner.Over : Runner α → Prop
  | .ending | .finished => True
  | _ => False

instance (r : Runner α) : Decidable r.Over :=
  match r with
  | .ending | .finished => isTrue trivial
  | .looping | .handing _ | .calling _ | .returned _ | .counting => isFalse id

namespace Gate

variable {g g' : Gate α} {drops : List ℕ}

/-- The queued events that count against the bounds. -/
def held (items : List (Queued α)) : List (Queued α) := items.filter (·.permit.isNone)

@[simp] theorem held_nil : held ([] : List (Queued α)) = [] := rfl

theorem push_cases {inDelivery : Bool} {event : Event α} {permit : Option ℕ}
    (h : g.push len inDelivery event permit = some (g', drops)) :
    (g' = g ∧ drops = permit.toList ∧ (fit len event = none ∨ g.state ≠ .opened)) ∨
    (drops = [] ∧ g.state = .opened ∧ ∃ event' bytes, fit len event = some (event', bytes) ∧
      (permit = none → inDelivery = false → g.waits bytes = false) ∧
      g' = { g with
        items := g.items ++ [⟨event', bytes, permit⟩]
        heldEvents := if permit.isNone then g.heldEvents + 1 else g.heldEvents
        heldBytes := if permit.isNone then g.heldBytes + bytes else g.heldBytes
        accepted := g.accepted + 1
        log := g.log ++ [event'] }) := by
  unfold push at h
  split at h
  · rename_i hf
    obtain ⟨rfl, rfl⟩ := Prod.mk.inj (Option.some.inj h)
    exact Or.inl ⟨rfl, rfl, Or.inl hf⟩
  · rename_i event' bytes hf
    by_cases hw : (permit.isNone && !inDelivery && g.waits bytes) = true
    · rw [if_pos hw] at h
      cases h
    rw [if_neg hw] at h
    by_cases hs : g.state ≠ .opened
    · rw [if_pos hs] at h
      obtain ⟨rfl, rfl⟩ := Prod.mk.inj (Option.some.inj h)
      exact Or.inl ⟨rfl, rfl, Or.inr hs⟩
    · rw [if_neg hs] at h
      obtain ⟨rfl, rfl⟩ := Prod.mk.inj (Option.some.inj h)
      refine Or.inr ⟨rfl, not_not.mp hs, event', bytes, hf, ?_, rfl⟩
      rintro rfl rfl
      simpa using hw

theorem close_cases (g : Gate α) (finish : Finish) :
    (finish = .drain ∧ g.state = .opened ∧ g.close finish = ({ g with state := .draining }, [])) ∨
    (finish = .drain ∧ g.state = .draining ∧ g.close finish = (g, [])) ∨
    ((finish = .discard ∨ g.state = .closed) ∧ g.close finish =
      ({ g with state := .closed, heldEvents := 0, heldBytes := 0, items := [] },
        permits g.items)) := by
  cases finish with
  | discard => exact Or.inr (Or.inr ⟨Or.inl rfl, rfl⟩)
  | drain =>
    cases hs : g.state with
    | opened => exact Or.inl ⟨rfl, rfl, by simp [close, hs]⟩
    | draining =>
      refine Or.inr (Or.inl ⟨rfl, rfl, ?_⟩)
      cases g
      simp_all [close]
    | closed => exact Or.inr (Or.inr ⟨Or.inr rfl, by simp [close, hs]⟩)

theorem take_cases (h : g.take = some g') : g.runner = .looping ∧
    ((g.state = .closed ∧ g' = { g with runner := .ending }) ∨
      (g.state = .draining ∧ g.items = [] ∧ g' = { g with runner := .ending }) ∨
      (g.state ≠ .closed ∧ ∃ item items, g.items = item :: items ∧ g' = { g with
          items := items
          heldEvents := if item.permit.isNone then g.heldEvents - 1 else g.heldEvents
          heldBytes := if item.permit.isNone then g.heldBytes - item.bytes else g.heldBytes
          runner := .handing item })) := by
  unfold take at h
  split at h
  · refine ⟨‹_›, ?_⟩
    by_cases hc : g.state = .closed
    · rw [if_pos hc] at h
      exact Or.inl ⟨hc, (Option.some.inj h).symm⟩
    · rw [if_neg hc] at h
      split at h
      · exact Or.inr (Or.inr ⟨hc, _, _, ‹_›, (Option.some.inj h).symm⟩)
      · split_ifs at h with hd
        exact Or.inr (Or.inl ⟨hd, ‹_›, (Option.some.inj h).symm⟩)
  · cases h

structure Inv (g : Gate α) : Prop where
  logged : g.state ≠ .closed → g.log = g.calls ++ (g.runner.hand ++ g.items.map Queued.event)
  lost : g.state = .closed → g.items = [] ∧ g.calls ++ g.runner.hand <+: g.log
  numbered : g.accepted = g.log.length
  counted : g.returns = g.delivered + g.runner.uncounted
  returned : g.calls.length = g.returns + g.runner.inSink
  events : g.heldEvents = (held g.items).length
  bytes : g.heldBytes = ((held g.items).map Queued.bytes).sum
  done : g.runner.Over → g.state ≠ .opened ∧ g.items = []

namespace Inv

theorem new : (Gate.new : Gate α).Inv := by
  constructor <;> simp [Gate.new, Runner.hand, Runner.uncounted, Runner.inSink, Runner.Over]

theorem push (h : g.Inv) {inDelivery : Bool} {event : Event α} {permit : Option ℕ}
    (hs : g.push len inDelivery event permit = some (g', drops)) : g'.Inv := by
  rcases push_cases hs with ⟨rfl, -⟩ | ⟨-, hopen, event', bytes, -, -, rfl⟩
  · exact h
  · have hlog := h.logged (by simp [hopen])
    constructor
    · intro _
      simp [hlog]
    · intro hc
      rw [hopen] at hc
      cases hc
    · simp [h.numbered]
    · exact h.counted
    · exact h.returned
    · cases permit <;> simp [h.events, held]
    · cases permit <;> simp [h.bytes, held]
    · intro ho
      exact absurd hopen (h.done ho).1

theorem close (h : g.Inv) (finish : Finish) : (g.close finish).1.Inv := by
  rcases close_cases g finish with ⟨-, hs, he⟩ | ⟨-, -, he⟩ | ⟨-, he⟩ <;> rw [he]
  · exact { h with
      logged := fun _ => h.logged (by simp [hs])
      lost := by simp
      done := fun ho => absurd hs (h.done ho).1 }
  · exact h
  · refine { h with logged := by simp, lost := fun _ => ⟨rfl, ?_⟩, events := rfl, bytes := rfl
                    done := by simp }
    by_cases hc : g.state = .closed
    · exact (h.lost hc).2
    · rw [h.logged hc, ← List.append_assoc]
      exact List.prefix_append _ _

theorem take (h : g.Inv) (hs : g.take = some g') : g'.Inv := by
  obtain ⟨hr, ⟨hc, rfl⟩ | ⟨hd, hi, rfl⟩ | ⟨hc, item, items, hi, rfl⟩⟩ := take_cases hs
  · have hlost := h.lost hc
    rw [hr] at hlost
    have hcounted := h.counted
    have hreturned := h.returned
    rw [hr] at hcounted hreturned
    exact { h with
      logged := fun hne => absurd hc hne, lost := fun _ => hlost, counted := hcounted
      returned := hreturned, done := fun _ => ⟨by simp [hc], hlost.1⟩ }
  · have hlog := h.logged (by simp [hd])
    have hcounted := h.counted
    have hreturned := h.returned
    rw [hr] at hlog hcounted hreturned
    exact { h with
      logged := fun _ => hlog, lost := by simp [hd], counted := hcounted
      returned := hreturned, done := fun _ => ⟨by simp [hd], hi⟩ }
  · have hlog := h.logged hc
    have hcounted := h.counted
    have hreturned := h.returned
    have hevents := h.events
    have hbytes := h.bytes
    rw [hr] at hcounted hreturned
    rw [hr, hi] at hlog
    rw [hi] at hevents hbytes
    refine { h with
      logged := fun _ => ?_, lost := fun hc' => absurd hc' hc, counted := hcounted
      returned := hreturned, done := by simp [Runner.Over], events := ?_, bytes := ?_ }
    · simpa [Runner.hand] using hlog
    · cases hp : item.permit <;> simp_all [held]
    · cases hp : item.permit <;> simp_all [held]

theorem deliver (h : g.Inv) (hs : g.deliver = some (g', drops)) : g'.Inv := by
  have hcounted := h.counted
  have hreturned := h.returned
  have hlog := h.logged
  have hlost := h.lost
  have hover := h.done
  unfold Gate.deliver at hs
  split at hs
  all_goals cases hs
  all_goals
    rename_i hr
    rw [hr] at hcounted hreturned hlog hlost hover
  · exact { h with
      logged := fun hc => by simpa [Runner.hand] using hlog hc
      lost := fun hc => by simpa [Runner.hand] using hlost hc
      counted := hcounted, done := by simp [Runner.Over]
      returned := by simp_all [Runner.inSink] }
  · exact { h with
      logged := hlog, lost := hlost, done := by simp [Runner.Over]
      counted := by simp_all [Runner.uncounted]
      returned := by simp_all [Runner.inSink] }
  · exact { h with
      logged := hlog, lost := hlost, done := by simp [Runner.Over]
      counted := hcounted, returned := hreturned }
  · exact { h with
      logged := hlog, lost := hlost, done := by simp [Runner.Over]
      counted := by simp_all [Runner.uncounted], returned := hreturned }
  · have hempty := (hover trivial).2
    exact { h with
      logged := fun hc => by simpa [hempty, Runner.hand] using hlog hc
      lost := fun hc => ⟨rfl, (hlost hc).2⟩
      counted := hcounted, returned := hreturned
      done := fun _ => ⟨(hover trivial).1, rfl⟩
      events := by simpa [hempty] using h.events
      bytes := by simpa [hempty] using h.bytes }

theorem step (h : g.Inv) {a : Act α} (hs : g.stepDrops len a = some (g', drops)) : g'.Inv := by
  cases a with
  | push inDelivery event permit => exact h.push hs
  | close finish =>
    have he : g.close finish = (g', drops) := Option.some.inj hs
    simpa [he] using h.close finish
  | take =>
    obtain ⟨x, hx, he⟩ := Option.map_eq_some_iff.mp hs
    obtain ⟨rfl, -⟩ := Prod.mk.inj he
    exact h.take hx
  | deliver => exact h.deliver hs

theorem of_exec {as : List (Act α)} (h : exec (Gate.step len) Gate.new as = some g) : g.Inv := by
  refine exec_invariant (fun _ _ _ hI hs => ?_) new h
  obtain ⟨⟨x, drops⟩, hx, rfl⟩ := Option.map_eq_some_iff.mp hs
  exact hI.step hx

end Inv

def Bounded (g : Gate α) : Prop := g.heldEvents ≤ maxQueuedEvents ∧ g.heldBytes ≤ maxQueuedBytes

namespace Inv

theorem drained (h : g.Inv) (hd : g.state = .draining) (ho : g.runner.Over) :
    g.calls = g.log ∧ g.returns = g.log.length := by
  have hlog := h.logged (by simp [hd])
  have hret := h.returned
  rw [(h.done ho).2] at hlog
  have hcalls : g.calls = g.log := by
    cases hr : g.runner <;> simp_all [Runner.Over, Runner.hand]
  refine ⟨hcalls, ?_⟩
  rw [← hcalls, hret]
  cases hr : g.runner <;> simp_all [Runner.Over, Runner.inSink]

end Inv

end Gate

end Sukkula.Hub
