import Sukkula.Library.Transition
import Sukkula.LocalSend.Session

/-! # The report of a transfer

A receive places its files one by one and is reported once, when it is over. The
handle reports the names of an `Ok` and none of an error: what was placed before
an error is lost to the report. So the report is what was placed where no error
ends a receive that has placed something.
-/

namespace Sukkula.Transfer

open Transition
open LocalSend (ErrorInfo Outcome)

/-- `TransferHandle::finish_with`: the outcome, and the saved names of the event. -/
def finishWith (cancelled : Bool) : Except ErrorInfo (List Str) → Outcome × List Str
  | .ok saved => (.done, saved)
  | .error e =>
    if e.code = .refused ∧ cancelled then (.cancelled, [])
    else (if cancelled then .cancelled else .failed e, [])

def savedOf {ε : Type} : Except ε (List Str) → List Str
  | .ok saved => saved
  | .error _ => []

theorem finishWith_snd (cancelled : Bool) (result : Except ErrorInfo (List Str)) :
    (finishWith cancelled result).2 = savedOf result := by
  unfold finishWith savedOf
  split
  · rfl
  · split_ifs <;> rfl

/-- A receive: its steps, the names that it has placed files under, and how it ended. -/
structure Receiver (σ α ε : Type) where
  step : σ → α → Option σ
  placed : σ → List Str
  result : σ → Option (Except ε (List Str))

namespace Receiver

variable {σ α ε : Type} (r : Receiver σ α ε) {I : σ → Prop} {s s' : σ}

/-- The step is not one that ends in an error when something has been placed. -/
def Keeps (s : σ) (a : α) : Prop :=
  r.placed s ≠ [] → ∀ s' e, r.step s a = some s' → r.result s' ≠ some (.error e)

/-- What is known of a receive in the states that meet `I`. -/
structure Lawful (I : σ → Prop) : Prop where
  step : ∀ s a s', I s → r.step s a = some s' → I s'
  ok : ∀ s saved, I s → r.result s = some (.ok saved) → saved = r.placed s
  -- Nothing is placed by the step that ends in an error.
  error : ∀ s a s' e, I s → r.step s a = some s' → r.result s' = some (.error e) →
    r.placed s' = r.placed s

variable {r}

theorem Lawful.savedOf_eq (h : r.Lawful I) (hI : I s) (hs : r.result s = none) {as : List α}
    (hkeeps : Along r.step r.Keeps s as) (hrun : exec r.step s as = some s')
    {res : Except ε (List Str)} (hres : r.result s' = some res) : savedOf res = r.placed s' := by
  have hstep : ∀ t a t', (I t ∧ ∀ e, r.result t = some (.error e) → r.placed t = []) → r.Keeps t a →
      r.step t a = some t' → I t' ∧ ∀ e, r.result t' = some (.error e) → r.placed t' = [] := by
    rintro t a t' ⟨ht, -⟩ hkeep hst
    refine ⟨h.step t a t' ht hst, fun e he => ?_⟩
    rw [h.error t a t' e ht hst he]
    by_contra hne
    exact hkeep hne t' e hst he
  obtain ⟨hI', herr⟩ := exec_invariant_along hstep ⟨hI, by simp [hs]⟩ hkeeps hrun
  cases res with
  | ok saved => exact h.ok s' saved hI' hres
  | error e => exact (herr e hres).symm

end Receiver

end Sukkula.Transfer
