import Sukkula.Library.Transition
import Sukkula.LocalSend.Commits
import Sukkula.LocalSend.Server

/-! # What a step of the server does

The steps of the requests and sessions, told apart by what they change. The
invariants of the server are proved over these.
-/

namespace Sukkula.LocalSend

open Str Offer Transition

def Prep.guard : Prep → Option ℕ
  | .asking _ guard _ | .accepted _ guard _ _ | .leaving guard _ => some guard
  | _ => none

/-- A request that has not claimed the slot yet. -/
def Prep.Early : Prep → Prop
  | .idle | .reading _ => True
  | _ => False

namespace Server

/-- A step of the requests and sessions, by what it does. -/
inductive Move (s : Server) : Server → Prop
  | settle (t p) : (s.prep t).Early → p.guard = none → (∀ c, p = .reading c → s.accepting = true) →
      Move s (s.setPrep t p)
  | claim (t caller dto) : s.prep t = .reading caller → s.freeing = none → s.slot = .free →
      Move s { s.setPrep t (.asking caller s.nextPending dto) with
        slot := .pending s.nextPending caller t
        nextPending := (s.nextPending + 1) % 2 ^ 64 }
  | leave (t g reply) : (s.prep t).guard = some g → Move s (s.setPrep t (.leaving g reply))
  | accept (t caller g dto offer p) : s.prep t = .asking caller g dto →
      validate (rawOffer dto).1 = .ok offer →
      ((∃ reply, p = .leaving g reply) ∨ ∃ draws table sessionId,
        issue ((rawOffer dto).2.zip offer.files) draws = some (table, sessionId) ∧
          p = .accepted caller g table sessionId) →
      Move s { s.setPrep t p with
        accepted := Function.update s.accepted t
          (some ⟨caller, (rawOffer dto).2.zip offer.files⟩) }
  | activate (t caller g table sessionId sender q) : s.prep t = .accepted caller g table sessionId →
      s.freeing = none → s.slot = .pending g sender q → s.isCancelled t = false →
      Move s { (s.setPrep t (.replied ⟨.ok, some (sessionId, table.map fun e => (e.1, e.2.token))⟩))
        with
        slot := .active sessionId caller t
        session := Function.update s.session t (some (.new sessionId caller table)) }
  | drop (t g reply sender q) : s.prep t = .leaving g reply → s.freeing = none →
      s.slot = .pending g sender q →
      Move s { s.setPrep t (afterReply reply) with
        slot := .free, freeing := some .loadAccepting }
  | dropLost (t g reply) : s.prep t = .leaving g reply →
    (∀ sender q, s.slot ≠ .pending g sender q) →
      Move s (s.setPrep t (afterReply reply))
  | upl (f) : (∀ t q i, f t = .sending q i →
      s.upl t = .sending q i ∨ s.slot = .active q.sessionId q.caller i) → Move s { s with upl := f }
  | enqueue (t q i x) : s.upl t = .sending q i → s.session i = some x →
      Move s ((s.setUpl t .waiting).setSession i { x with queue := x.queue ++ [⟨q, t⟩] })
  | cancel (t) : Move s { s with cancels := Function.update s.cancels t true }
  | cancelSession (i x a b) : s.session i = some x →
      Move s (s.setSession i { x with senderCancel := a, transferCancel := b })
  | session (i x x' answers) : s.session i = some x → x.Step x' →
      Move s ((s.setSession i x').answerUploads answers)
  | release (i x sender q) : s.session i = some x → x.phase = .releasing → s.freeing = none →
      s.slot = .active x.id sender q →
      Move s { s.setSession i { x with phase := .released } with
        slot := .free, freeing := some .loadAccepting }
  | releaseLost (i x) : s.session i = some x → x.phase = .releasing →
      (∀ sender q, s.slot ≠ .active x.id sender q) →
      Move s (s.setSession i { x with phase := .released })
  | stay : Move s s

variable {s s' : Server}

namespace Move

theorem of_prepare {t : ℕ} {caller : Party} (h : s.prepare t caller = some s') : Move s s' := by
  unfold Server.prepare at h
  split at h
  · obtain rfl := Option.some.inj h
    apply Move.settle t _ (by simp [Prep.Early, *])
    · split_ifs <;> rfl
    · intro c hc
      split_ifs at hc with ha
      exact ha
  · cases h

theorem of_refuse {t : ℕ} {status : Status} (h : s.refuse t status = some s') : Move s s' := by
  unfold Server.refuse at h
  split at h
  · obtain rfl := Option.some.inj h
    exact .settle t _ (by simp [Prep.Early, *]) rfl (by simp)
  · cases h

theorem of_claim {t : ℕ} {dto : PrepareUpload} (h : s.claim t dto = some s') : Move s s' := by
  unfold Server.claim at h
  split at h
  · rename_i caller hp
    have hearly : (s.prep t).Early := by simp [Prep.Early, hp]
    split_ifs at h with h1 h2 h3 h4 <;> obtain rfl := Option.some.inj h
    · exact .settle t _ hearly rfl (by simp)
    · exact .settle t _ hearly rfl (by simp)
    · exact .claim t caller dto hp (by simpa using h3) h4
    · exact .settle t _ hearly rfl (by simp)
  · cases h

theorem of_seeCancelled {t : ℕ} (h : s.seeCancelled t = some s') : Move s s' := by
  unfold Server.seeCancelled at h
  split at h
  · split_ifs at h
    obtain rfl := Option.some.inj h
    exact .leave t _ _ (by simp [Prep.guard, *])
  · cases h

theorem of_decline {t : ℕ} {why : Declined} (h : s.decline t why = some s') : Move s s' := by
  unfold Server.decline at h
  split at h
  · obtain rfl := Option.some.inj h
    exact .leave t _ _ (by simp [Prep.guard, *])
  · cases h

theorem of_accept {t : ℕ} {draws : List Str} (h : s.accept t draws = some s') : Move s s' := by
  unfold Server.accept at h
  split at h
  · rename_i caller g dto hp
    split at h
    · cases h
    · rename_i offer hf
      dsimp only at h
      split_ifs at h
      · obtain rfl := Option.some.inj h
        exact .accept t caller g dto offer _ hp hf (Or.inl ⟨_, rfl⟩)
      · split at h <;> obtain rfl := Option.some.inj h
        · exact .accept t caller g dto offer _ hp hf (Or.inl ⟨_, rfl⟩)
        · exact .accept t caller g dto offer _ hp hf (Or.inr ⟨draws, _, _, ‹_›, rfl⟩)
  · cases h

theorem of_activate {t : ℕ} (h : s.activate t = some s') : Move s s' := by
  unfold Server.activate at h
  split at h
  · rename_i caller g table sessionId hp
    have hg : (s.prep t).guard = some g := by simp [Prep.guard, hp]
    split_ifs at h with hfree
    split at h
    · split_ifs at h with hc <;> obtain rfl := Option.some.inj h
      · obtain ⟨rfl, hc⟩ := hc
        exact .activate t caller _ table sessionId _ _ hp (by simpa using hfree) ‹_› hc
      · exact .leave t g _ hg
    · obtain rfl := Option.some.inj h
      exact .leave t g _ hg
  · cases h

theorem of_dropGuard {t : ℕ} (h : s.dropGuard t = some s') : Move s s' := by
  unfold Server.dropGuard at h
  split at h
  · rename_i g reply hp
    split_ifs at h with hfree
    split at h
    · rename_i id sender q hs
      split_ifs at h with hc <;> obtain rfl := Option.some.inj h
      · subst hc
        exact .drop t _ reply _ _ hp (by simpa using hfree) hs
      · apply Move.dropLost t g reply hp
        rintro sender' q' hs'
        rw [hs] at hs'
        exact hc (Slot.pending.inj hs').1
    · obtain rfl := Option.some.inj h
      apply Move.dropLost t g reply hp
      rintro sender' q' hs'
      exact absurd hs' (by simp_all)
  · cases h

theorem of_abort {t : ℕ} (h : s.abort t = some s') : Move s s' := by
  unfold Server.abort at h
  split at h
  · obtain rfl := Option.some.inj h
    exact .settle t _ (by simp [Prep.Early, *]) rfl (by simp)
  · obtain rfl := Option.some.inj h
    exact .leave t _ _ (by simp [Prep.guard, *])
  · cases h

/-- One upload request changes, and not to `sending` unless it has the running session's queue. -/
theorem setUpl {t : ℕ} {u : Upl}
    (hu : ∀ q i, u = .sending q i → s.slot = .active q.sessionId q.caller i) :
    Move s (s.setUpl t u) := by
  apply Move.upl
  intro t' q i hq
  by_cases ht : t' = t
  · subst ht
    rw [Function.update_self] at hq
    exact Or.inr (hu q i hq)
  · rw [Function.update_of_ne ht] at hq
    exact Or.inl hq

theorem of_upload {t : ℕ} {query : Option UploadQuery} (h : s.upload t query = some s') :
    Move s s' := by
  unfold Server.upload at h
  split at h
  · obtain rfl := Option.some.inj h
    exact setUpl (by simp)
  · split_ifs at h
    split at h
    · split_ifs at h with hc <;> obtain rfl := Option.some.inj h
      · apply setUpl
        rintro q i he
        obtain ⟨rfl, rfl⟩ := Upl.sending.inj he
        obtain ⟨rfl, rfl⟩ := hc
        assumption
      · exact setUpl (by simp)
    · obtain rfl := Option.some.inj h
      exact setUpl (by simp)
  · cases h

theorem of_enqueue {t : ℕ} (h : s.enqueue t = some s') : Move s s' := by
  unfold Server.enqueue at h
  split at h
  · obtain ⟨x, hx, rfl⟩ := Option.map_eq_some_iff.mp h
    split_ifs
    · exact setUpl (by simp)
    · exact .enqueue t _ _ x ‹_› hx
  · cases h

theorem of_abortUpload {t : ℕ} (h : s.abortUpload t = some s') : Move s s' := by
  unfold Server.abortUpload at h
  split at h
  · obtain rfl := Option.some.inj h
    exact setUpl (by simp)
  · obtain rfl := Option.some.inj h
    exact setUpl (by simp)
  · cases h

theorem of_cancelRequest {caller : Party} {sessionId : Option Str}
    (h : s.cancelRequest caller sessionId = some s') : Move s s' := by
  unfold Server.cancelRequest at h
  split_ifs at h
  split at h
  · obtain rfl := Option.some.inj h
    split_ifs
    · exact .cancel _
    · exact .stay
  · split_ifs at h
    · obtain ⟨x, hx, rfl⟩ := Option.map_eq_some_iff.mp h
      exact .cancelSession _ x true x.transferCancel hx
    · obtain rfl := Option.some.inj h
      exact .stay
  · obtain rfl := Option.some.inj h
    exact .stay

theorem of_sessionStep {i : ℕ} {a : Session.Act} (h : s.sessionStep i a = some s') : Move s s' := by
  unfold Server.sessionStep at h
  split at h
  · obtain ⟨⟨x', answers⟩, hx, rfl⟩ := Option.map_eq_some_iff.mp h
    exact .session i _ x' answers ‹_› (.of_step hx)
  · cases h

theorem of_release {i : ℕ} (h : s.release i = some s') : Move s s' := by
  unfold Server.release at h
  split at h
  · rename_i x hx
    split_ifs at h with hc
    push Not at hc
    dsimp only at h
    split at h
    · rename_i id sender q hs
      split_ifs at h with hid <;> obtain rfl := Option.some.inj h
      · subst hid
        exact .release i x _ _ hx hc.1 hc.2 hs
      · apply Move.releaseLost i x hx hc.1
        rintro sender' q' hs'
        exact hid (Slot.active.inj (hs.symm.trans hs')).1
    · obtain rfl := Option.some.inj h
      apply Move.releaseLost i x hx hc.1
      rintro sender' q' hs'
      exact absurd hs' (by simp_all [setSession])
  · cases h

end Move

theorem step_cases {a : Act} (h : s.step a = some s') :
    Move s s' ∨ (∃ d, a = .free d ∧ s.free d = some s') ∨ (a = .drain ∧ s.drain = some s') ∨
      (∃ d, a = .drained d ∧ s.drained d = some s') ∨
      (a = .resume ∧ ∃ ok, s.resume = some (s', ok)) := by
  cases a with
  | prepare t caller => exact Or.inl (.of_prepare h)
  | refuse t status => exact Or.inl (.of_refuse h)
  | claim t dto => exact Or.inl (.of_claim h)
  | seeCancelled t => exact Or.inl (.of_seeCancelled h)
  | decline t why => exact Or.inl (.of_decline h)
  | accept t draws => exact Or.inl (.of_accept h)
  | activate t => exact Or.inl (.of_activate h)
  | dropGuard t => exact Or.inl (.of_dropGuard h)
  | abort t => exact Or.inl (.of_abort h)
  | upload t query => exact Or.inl (.of_upload h)
  | enqueue t => exact Or.inl (.of_enqueue h)
  | abortUpload t => exact Or.inl (.of_abortUpload h)
  | cancelRequest caller sessionId => exact Or.inl (.of_cancelRequest h)
  | session i a => exact Or.inl (.of_sessionStep h)
  | cancelTransfer i =>
    obtain ⟨x, hx, rfl⟩ := Option.map_eq_some_iff.mp h
    exact Or.inl (.cancelSession i x x.senderCancel true hx)
  | release i => exact Or.inl (.of_release h)
  | free d => exact Or.inr (Or.inl ⟨d, rfl, h⟩)
  | drain => exact Or.inr (Or.inr (Or.inl ⟨rfl, h⟩))
  | drained d => exact Or.inr (Or.inr (Or.inr (Or.inl ⟨d, rfl, h⟩)))
  | resume =>
    obtain ⟨⟨s'', ok⟩, hr, rfl⟩ := Option.map_eq_some_iff.mp h
    exact Or.inr (Or.inr (Or.inr (Or.inr ⟨rfl, ok, hr⟩)))

theorem free_cases {d : Bool} (h : s.free d = some s') :
    (s.freeing = some .loadAccepting ∧
        s' = { s with freeing := if s.accepting then none else some .loadDiscovering }) ∨
      (s.freeing = some .loadDiscovering ∧
        s' = { s with freeing := if d then none else some .cancel }) ∨
      (s.freeing = some .cancel ∧ s' = { s with freeing := none, closing := true }) := by
  unfold free at h
  split at h
  · exact Or.inl ⟨‹_›, (Option.some.inj h).symm⟩
  · exact Or.inr (Or.inl ⟨‹_›, (Option.some.inj h).symm⟩)
  · exact Or.inr (Or.inr ⟨‹_›, (Option.some.inj h).symm⟩)
  · cases h

theorem drain_cases (h : s.drain = some s') : s.freeing = none ∧ s.draining = none ∧
    s' = { s with
      accepting := false
      cancels := match s.slot with
        | .pending _ _ t => Function.update s.cancels t true
        | _ => s.cancels
      draining := some (decide (s.slot = .free)) } := by
  unfold drain at h
  split_ifs at h with hf
  push Not at hf
  exact ⟨hf.1, hf.2, (Option.some.inj h).symm⟩

theorem drained_cases {d : Bool} (h : s.drained d = some s') : ∃ idle, s.draining = some idle ∧
    s' = { s with draining := none, closing := s.closing || (idle && !d) } := by
  unfold drained at h
  split at h
  · exact ⟨_, ‹_›, (Option.some.inj h).symm⟩
  · cases h

theorem resume_cases {ok : Bool} (h : s.resume = some (s', ok)) :
    s.freeing = none ∧ s.draining = none ∧ s.closing = !ok ∧
      s' = { s with accepting := s.accepting || ok } := by
  unfold resume at h
  split_ifs at h with hf hc <;> obtain ⟨rfl, rfl⟩ := Prod.mk.inj (Option.some.inj h) <;>
    push Not at hf
  · exact ⟨hf.1, hf.2, hc, by simp⟩
  · exact ⟨hf.1, hf.2, by simpa using hc, by simp⟩

end Server

end Sukkula.LocalSend
