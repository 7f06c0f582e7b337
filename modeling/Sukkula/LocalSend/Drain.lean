import Sukkula.LocalSend.Slot

/-! # Receive off

After `drain` no request gets past the look at `accepting`, and the offer that
was pending is cancelled. A request that was past that look and still reading
its body is not stopped, so the guarantee is for drains that meet none.
-/

namespace Sukkula.LocalSend

open Offer Transition Server

/-- A server, and whether `drain` has returned and `resume` has not succeeded since. -/
structure Watched where
  server : Server
  off : Bool

namespace Watched

def new (accepting : Bool) : Watched := ⟨.new accepting, false⟩

def step (w : Watched) : Server.Act → Option Watched
  | .drained discovering => (w.server.drained discovering).map (⟨·, true⟩)
  | .resume => w.server.resume.map fun (s, ok) => ⟨s, w.off && !ok⟩
  | a => (w.server.step a).map (⟨·, w.off⟩)

/-- No request is between the look at `accepting` and the slot when `drain` comes. -/
def MeetsNone (w : Watched) (a : Server.Act) : Prop :=
  a = .drain → ∀ t caller, w.server.prep t ≠ .reading caller

/-- No offer gets the slot, and none becomes a session. -/
def NoneNew (w w' : Watched) : Prop :=
  (∀ g p t, w'.server.slot = .pending g p t → w.server.slot = .pending g p t) ∧
    ∀ id p i, w'.server.slot = .active id p i → w.server.slot = .active id p i

end Watched

namespace Server

variable {s s' : Server}

structure Quiet (s : Server) : Prop where
  accepting : s.accepting = false
  reading : ∀ t caller, s.prep t ≠ .reading caller
  cancelled : ∀ g p t, s.slot = .pending g p t → s.cancels t = true

theorem Quiet.reading_setPrep (h : s.Quiet) {t : ℕ} {p : Prep} (hp : ∀ c, p ≠ .reading c) (t' : ℕ)
    (caller : Party) : (s.setPrep t p).prep t' ≠ .reading caller := by
  intro he
  rcases update_cases he with ⟨-, he⟩ | ⟨-, he⟩
  · exact hp caller he.symm
  · exact h.reading t' caller he

theorem Quiet.setPrep (h : s.Quiet) {t : ℕ} {p : Prep} (hp : ∀ c, p ≠ .reading c) :
    (s.setPrep t p).Quiet :=
  ⟨h.accepting, h.reading_setPrep hp, h.cancelled⟩

theorem Quiet.setFlags (h : s.Quiet) {freeing : Option Freeing} {draining : Option Bool}
    {closing : Bool} :
    ({ s with freeing := freeing, draining := draining, closing := closing } : Server).Quiet :=
  ⟨h.accepting, h.reading, h.cancelled⟩

theorem quiet_of_drain (h : s.drain = some s') (hr : ∀ t caller, s.prep t ≠ .reading caller) :
    s'.Quiet := by
  obtain ⟨-, -, rfl⟩ := drain_cases h
  constructor
  · rfl
  · exact hr
  · intro g p t hs
    dsimp only at hs ⊢
    rw [hs]
    exact update_self

/-- The requests and sessions of a quiet server do not make it take offers. -/
theorem Quiet.move (h : s.Quiet) (hm : Move s s') (hinv : s.Inv) : s'.Quiet := by
  cases hm with
  | settle t p hp hg hacc =>
    refine h.setPrep fun c hc => ?_
    cases (hacc c hc).symm.trans h.accepting
  | claim t caller dto hp => exact absurd hp (h.reading t caller)
  | leave t g reply hg => exact h.setPrep (by simp)
  | accept t caller g dto offer p hp hf hnext =>
    have hne : ∀ c, p ≠ .reading c := by
      rintro c rfl
      rcases hnext with ⟨r, he⟩ | ⟨_, _, _, -, he⟩ <;> cases he
    exact ⟨h.accepting, h.reading_setPrep hne, h.cancelled⟩
  | activate t caller g table id sender q hp hf hs hc =>
    obtain ⟨p, hsl⟩ := (hinv.guards t g).mp (by rw [hp]; rfl)
    rw [isCancelled, h.cancelled g p t hsl] at hc
    cases hc
  | drop t g reply sender q hp hf hs =>
    exact ⟨h.accepting, h.reading_setPrep (by cases reply <;> simp [afterReply]), by simp⟩
  | dropLost t g reply hp hs => exact h.setPrep (by cases reply <;> simp [afterReply])
  | cancel t =>
    refine ⟨h.accepting, h.reading, fun g p t' hs => ?_⟩
    have hc := h.cancelled g p t' hs
    by_cases ht : t' = t
    · exact ht ▸ update_self
    · exact update_ne ht hc
  | release i x sender q hx hp hf hs => exact ⟨h.accepting, h.reading, by simp⟩
  | upl | enqueue | cancelSession | session | releaseLost | stay =>
    exact ⟨h.accepting, h.reading, h.cancelled⟩

theorem Quiet.noneNew (h : s.Quiet) (hm : Move s s') (hinv : s.Inv) :
    (∀ g p t, s'.slot = .pending g p t → s.slot = .pending g p t) ∧
      ∀ id p i, s'.slot = .active id p i → s.slot = .active id p i := by
  have same : s'.slot = s.slot → (∀ g p t, s'.slot = .pending g p t → s.slot = .pending g p t) ∧
      ∀ id p i, s'.slot = .active id p i → s.slot = .active id p i := fun he => by simp [he]
  cases hm with
  | claim t caller dto hp => exact absurd hp (h.reading t caller)
  | activate t caller g table id sender q hp hf hs hc =>
    obtain ⟨p, hsl⟩ := (hinv.guards t g).mp (by rw [hp]; rfl)
    rw [isCancelled, h.cancelled g p t hsl] at hc
    cases hc
  | drop | release => simp
  | _ => exact same rfl

theorem Move.draining (hm : Move s s') : s'.draining = s.draining := by
  cases hm <;> rfl

end Server

namespace Watched

variable {w w' : Watched}

/-- A step is the server's, and what `drained` and `resume` return is watched. -/
theorem step_eq_some {a : Server.Act} (h : w.step a = some w') :
    w.server.step a = some w'.server ∧
      ((∃ d, a = .drained d) ∨
        (∃ ok, w.server.resume = some (w'.server, ok) ∧ w'.off = (w.off && !ok)) ∨
        ((∀ d, a ≠ .drained d) ∧ a ≠ .resume ∧ w'.off = w.off)) := by
  cases a with
  | resume =>
    obtain ⟨⟨s, ok⟩, hr, rfl⟩ := Option.map_eq_some_iff.mp h
    exact ⟨Option.map_eq_some_iff.mpr ⟨_, hr, rfl⟩, Or.inr (Or.inl ⟨ok, hr, rfl⟩)⟩
  | drained d =>
    obtain ⟨s, hs, rfl⟩ := Option.map_eq_some_iff.mp h
    exact ⟨hs, Or.inl ⟨d, rfl⟩⟩
  | _ =>
    obtain ⟨s, hs, rfl⟩ := Option.map_eq_some_iff.mp h
    exact ⟨hs, Or.inr (Or.inr ⟨by simp, by simp, rfl⟩)⟩

/-- From the moment `drain` has the lock, the server is quiet. -/
def Safe (w : Watched) : Prop :=
  w.server.Inv ∧ (w.off = true ∨ w.server.draining ≠ none → w.server.Quiet)

theorem safe_step (w : Watched) (a : Server.Act) (w' : Watched) (h : w.Safe) (ha : w.MeetsNone a)
    (hs : w.step a = some w') : w'.Safe := by
  obtain ⟨hinv, hquiet⟩ := h
  obtain ⟨hst, hoff⟩ := step_eq_some hs
  refine ⟨hinv.step hst, fun hw => ?_⟩
  rcases hoff with ⟨d, rfl⟩ | ⟨ok, hr, ho⟩ | ⟨hnd, hnr, ho⟩
  · obtain ⟨idle, hd, he⟩ := drained_cases hst
    rw [he]
    exact (hquiet (Or.inr (by simp [hd]))).setFlags
  · obtain ⟨-, hdr, -, he⟩ := resume_cases hr
    have hdr' : w'.server.draining = none := by rw [he]; exact hdr
    -- It is still off, so `resume` did nothing.
    have hstill : w.off = true ∧ ok = false := by
      simpa [ho, hdr'] using hw
    have hsame : w'.server = w.server := by simp [he, hstill.2]
    exact hsame ▸ hquiet (Or.inl hstill.1)
  · rw [ho] at hw
    rcases step_cases hst with hm | ⟨d, -, hf⟩ | ⟨rfl, hd⟩ | ⟨d, rfl, -⟩ | ⟨rfl, -⟩
    · rw [hm.draining] at hw
      exact (hquiet hw).move hm hinv
    · rcases free_cases hf with ⟨-, he⟩ | ⟨-, he⟩ | ⟨-, he⟩ <;> rw [he] at hw ⊢ <;>
        exact (hquiet hw).setFlags
    · exact quiet_of_drain hd (ha rfl)
    · exact absurd rfl (hnd d)
    · exact absurd rfl hnr

/-- In every run in which no `drain` meets a request that reads its body: once `drain` has
returned, and until `resume` succeeds, no offer gets the slot and none becomes a session. -/
theorem none_new_while_off {accepting : Bool} {as : List Server.Act} {a : Server.Act}
    (h : exec step (new accepting) as = some w) (hmeets : Along step MeetsNone (new accepting) as)
    (hoff : w.off = true) (hs : w.step a = some w') : w.NoneNew w' := by
  have hsafe : w.Safe := exec_invariant_along safe_step
    ⟨.new accepting, by simp [new, Server.new]⟩ hmeets h
  have hquiet := hsafe.2 (Or.inl hoff)
  rcases step_cases (step_eq_some hs).1 with hm | ⟨d, -, hf⟩ | ⟨-, hd⟩ | ⟨d, -, hd⟩ | ⟨-, ok, hr⟩
  · exact hquiet.noneNew hm hsafe.1
  · rcases free_cases hf with ⟨-, he⟩ | ⟨-, he⟩ | ⟨-, he⟩ <;> simp [NoneNew, he]
  · simp [NoneNew, (drain_cases hd).2.2]
  · obtain ⟨idle, -, he⟩ := drained_cases hd
    simp [NoneNew, he]
  · simp [NoneNew, (resume_cases hr).2.2.2]

/-- An offer that is pending when Receive is switched off is not accepted any more. -/
theorem none_new_while_off_pending : ∃ w w', exec step (new true)
      [.prepare 0 ⟨.v4 1, []⟩, .claim 0 oneFile, .drain, .drained false] = some w ∧
    w.off = true ∧ w.step (.seeCancelled 0) = some w' ∧ w.NoneNew w' := by
  refine ⟨_, _, rfl, rfl, rfl, ?_⟩
  refine none_new_while_off (a := .seeCancelled 0) (h := (rfl : exec step (new true)
    [.prepare 0 ⟨.v4 1, []⟩, .claim 0 oneFile, .drain, .drained false] = _)) ?_ rfl rfl
  refine ⟨by simp [MeetsNone], fun w₁ h₁ => ⟨by simp [MeetsNone], fun w₂ h₂ => ⟨fun _ t c => ?_,
    fun w₃ h₃ => ⟨by simp [MeetsNone], fun _ _ => trivial⟩⟩⟩⟩
  obtain rfl := Option.some.inj h₁
  obtain rfl := Option.some.inj h₂
  intro he
  rcases update_cases he with ⟨-, he⟩ | ⟨hne, he⟩
  · cases he
  · rcases update_cases he with ⟨rfl, -⟩ | ⟨-, he⟩
    · exact hne rfl
    · cases he

/-- A request that was reading its body when Receive was switched off still gets the slot. -/
theorem claimed_while_off : ∃ w w', exec step (new true)
      [.prepare 0 ⟨.v4 1, []⟩, .drain, .drained true] = some w ∧
    w.off = true ∧ w.step (.claim 0 oneFile) = some w' ∧ ¬ w.NoneNew w' := by
  refine ⟨_, _, rfl, rfl, rfl, fun h => ?_⟩
  cases h.1 0 ⟨.v4 1, []⟩ 0 rfl

end Watched

end Sukkula.LocalSend
