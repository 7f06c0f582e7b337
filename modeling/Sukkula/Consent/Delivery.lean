import Sukkula.Consent.Guarantees

/-! # Answers and the events they end in

An answer that was delivered waits in the channel until its `ask` is polled.
A future dropped before that poll withdraws the offer all the same. Where no
future is dropped on an unread answer, every delivered answer is the reason
the observer is given.
-/

namespace Sukkula.Consent

open Transition

variable {Offer : Type} {lim : Limits} {s s' : State Offer} {t u : Ask} {id : ℕ} {d : Decision}

def Decision.reason : Decision → Closed
  | .accept => .accepted
  | .decline => .declined

/-- Dropping an `ask` that its user already answered: the observer hears `Withdrawn`. -/
def droppedOnAnswer : List (Action Unit) :=
  [.enter 0 (), .announce 0, .answer 1 .accept, .drop 0, .withdraw 0]

theorem answer_true_but_withdrawn : ∃ s : State Unit,
    exec (step .spec) init droppedOnAnswer = some s ∧ (∀ t, (s.phase t).Done) ∧
      .answered 1 .accept (some 0) true ∈ s.past ∧
      observed 1 s.past = [.closed 1 .withdrawn, .pending 1 ()] := by
  refine ⟨_, rfl, fun t => ?_, by decide, by decide⟩
  by_cases ht : t = 0
  · subst ht; trivial
  · simp [State.enter, State.answer, State.setPhase, State.record, State.remove, init, ht,
      Phase.Done, Limits.spec, State.freshId, State.keys, freshLoop, Phase.receiving]

/-- The step drops no `ask` on an unread answer, and issues no id of an `ask` that its
deadline is about to send back to the queue. -/
def Attentive (s : State Offer) : Action Offer → Prop
  | .drop t => ∀ d, s.chan t ≠ .sent d
  | .enter _ _ => ∀ u id, s.phase u = .elapsed id → s.freshId ≠ id
  | _ => True

/-- Where the delivered answer `d` to the task `t` is. -/
def Delivers (s : State Offer) (t : Ask) (id : ℕ) (d : Decision) : Prop :=
  match s.phase t with
  | .entered i _ | .waiting i | .elapsed i => i = id ∧ s.chan t = .sent d
  | .closing i reason _ => i = id ∧ reason = d.reason
  | .returned _ => ∃ o, tellings t s.past = [.closed id d.reason, .pending id o]
  | .idle | .withdrawing _ | .dropped => False

namespace Delivers

theorem congr (h : Delivers s t id d) (hphase : s'.phase t = s.phase t)
    (hchan : s.chan t = .sent d → s'.chan t = .sent d)
    (htell : tellings t s'.past = tellings t s.past) : Delivers s' t id d := by
  unfold Delivers at h ⊢
  rw [hphase, htell]
  split at h <;> simp_all

theorem chan_of_asking (h : Delivers s t id d) {i : ℕ} (ha : (s.phase t).asking = some i) :
    i = id ∧ s.chan t = .sent d := by
  unfold Delivers at h
  cases hp : s.phase t <;> simp_all [Phase.asking]

end Delivers

/-- Every delivered answer is on its way, and no queue entry is confused with another. -/
structure Delivered (s : State Offer) : Prop where
  answers : ∀ t id d, .answered id d (some t) true ∈ s.past → Delivers s t id d
  sole : ∀ t id u, s.phase t = .elapsed id → (id, u) ∈ s.pending → u = t

namespace Delivered

theorem init : Delivered (Consent.init : State Offer) :=
  ⟨by simp [Consent.init], by simp [Consent.init]⟩

theorem not_answered (h : Delivered s) (hq : Queue lim s) (hm : (id, t) ∈ s.pending) {i : ℕ} :
    .answered i d (some t) true ∉ s.past := by
  intro ha
  obtain ⟨hask, hempty⟩ := hq.entry id t hm
  have := ((h.answers t i d ha).chan_of_asking hask).2
  simp [hempty] at this

/-- A step that moves `t` alone, adds no answer and removes no sender with one. -/
theorem move (h : Delivered s) {p : Phase Offer} (hphase : s'.phase = Function.update s.phase t p)
    (hchan : ∀ u b, s.chan u = .sent b → s'.chan u = .sent b)
    (hpending : s'.pending ⊆ s.pending)
    (hold : ∀ u i b, .answered i b (some u) true ∈ s'.past → .answered i b (some u) true ∈ s.past)
    (htell : ∀ u, u ≠ t → tellings u s'.past = tellings u s.past)
    (hp : ∀ i b, Delivers s t i b → Delivers s' t i b)
    (hel : ∀ i u, p = .elapsed i → (i, u) ∈ s'.pending → u = t) : Delivered s' where
  answers := by
    intro u i b ha
    have hd := h.answers u i b (hold u i b ha)
    by_cases hu : u = t
    · subst hu; exact hp i b hd
    · exact hd.congr (by simp [hphase, hu]) (hchan u b) (htell u hu)
  sole := by
    intro u i v hu hm
    rw [hphase] at hu
    by_cases hut : u = t
    · subst hut; exact hel i v (by simpa using hu) hm
    · exact h.sole u i v (by simpa [hut] using hu) (hpending hm)

theorem pending_remove_subset : (s.remove id).pending ⊆ s.pending := by
  unfold State.remove
  split
  · exact fun _ hx => List.mem_of_mem_filter hx
  · exact fun _ hx => hx

theorem sent_remove (hq : Queue lim s) (h : s.chan u = .sent d) :
    (s.remove id).chan u = .sent d := by
  unfold State.remove
  split
  · rename_i v hv
    have hne : u ≠ v := by
      rintro rfl
      have := (hq.entry id u (hq.lookup_iff.mp hv)).2
      simp [h] at this
    simpa [hne] using h
  · exact h

theorem enter (h : Delivered s) (ht : s.phase t = .idle) (offer : Offer)
    (hG : ∀ u id, s.phase u = .elapsed id → s.freshId ≠ id) :
    Delivered (s.enter lim t offer) := by
  have hnone : ∀ i b, ¬ Delivers s t i b := by simp [Delivers, ht]
  have hrefuse : ∀ r, Delivered ((s.setPhase t (.returned r)).record (.returned t r)) := fun r =>
    h.move rfl (fun _ _ hc => hc) (fun _ hx => hx) (by simp [State.record, State.setPhase])
      (fun _ _ => rfl) (fun i b hd => absurd hd (hnone i b)) (by simp)
  unfold State.enter
  split
  · exact hrefuse _
  split
  · exact hrefuse _
  constructor
  · intro u i b ha
    have hd := h.answers u i b (by simpa using ha)
    have hu : u ≠ t := by rintro rfl; exact hnone i b hd
    exact hd.congr (by simp [hu]) (fun hc => hc) rfl
  · intro u i v hu hm
    have hut : u ≠ t := by rintro rfl; simp at hu
    have hu' : s.phase u = .elapsed i := by simpa [hut] using hu
    rcases List.mem_cons.mp hm with he | hm
    · exact absurd (Prod.mk.inj he).1.symm (hG u i hu')
    · exact h.sole u i v hu' hm

theorem expire (h : Delivered s) (hq : Queue lim s) (ht : s.phase t = .elapsed id) :
    Delivered (s.expire t id) := by
  unfold State.expire
  split
  · rename_i hl
    obtain ⟨u, hu⟩ := Option.isSome_iff_exists.mp hl
    have hm := hq.lookup_iff.mp hu
    obtain rfl := h.sole t id u ht hm
    -- Its own entry is still there, so nobody answered it.
    refine h.move (t := u) (p := .closing id .timedOut (.error .timedOut))
      (by simp [State.setPhase])
      (fun _ _ hc => sent_remove hq hc) pending_remove_subset (by simp [State.setPhase])
      (by simp [State.setPhase]) (fun i b hd => ?_) (by simp)
    have := (hd.chan_of_asking (by rw [ht]; rfl)).2
    simp [(hq.entry id u hm).2] at this
  · refine h.move rfl (fun _ _ hc => hc) (fun _ hx => hx) (fun _ _ _ hx => hx) (fun _ _ => rfl)
      (fun i b hd => ?_) (by simp)
    obtain ⟨rfl, hc⟩ := hd.chan_of_asking (by rw [ht]; rfl)
    cases b <;> simp [Delivers, State.settle, State.setPhase, hc, Chan.received, outcome,
      Decision.reason]

theorem answer (h : Delivered s) (hq : Queue lim s) (b : Decision) :
    Delivered (s.answer id b) := by
  unfold State.answer
  split
  · rename_i u hu
    have hm := hq.lookup_iff.mp hu
    have ha := (hq.entry id u hm).1
    rw [if_pos (Phase.receiving_of_asking ha)]
    refine ⟨?_, fun v i w hv hw => h.sole v i w hv (List.mem_of_mem_filter hw)⟩
    intro v i d hx
    rcases List.mem_cons.mp hx with he | hv
    · obtain ⟨rfl, rfl, rfl⟩ : i = id ∧ d = b ∧ v = u := by simpa using he
      cases hp : s.phase v <;> simp_all [Delivers, Phase.asking]
    · have hne : v ≠ u := by
        rintro rfl
        exact h.not_answered hq hm hv
      exact (h.answers v i d hv).congr rfl (by simp [hne]) rfl
  · exact ⟨fun v i d hv => (h.answers v i d (by simpa [State.record] using hv)).congr rfl
      (fun hc => hc) rfl, h.sole⟩

theorem shutdown (h : Delivered s) (hq : Queue lim s) : Delivered s.shutdown where
  answers := by
    intro t id d ha
    refine (h.answers t id d (by simpa [State.shutdown] using ha)).congr rfl (fun hc => ?_) rfl
    have hn : t ∉ s.pending.map Prod.snd := by
      intro hm
      obtain ⟨⟨i, u⟩, he, rfl⟩ := List.mem_map.mp hm
      have := (hq.entry i u he).2
      simp_all
    simpa [State.shutdown, hn] using hc
  sole := by simp [State.shutdown]

theorem step {a : Action Offer} (h : Delivered s) (hI : Inv lim s) (hG : Attentive s a)
    (hs : Step lim s a s') : Delivered s' := by
  have hq := hI.queue
  have hst' := hI.stories.step hs
  cases hs with
  | @enter t offer ht => exact h.enter ht offer hG
  | @announce t id offer ht =>
    refine h.move rfl (fun _ _ hc => hc) (fun _ hx => hx) (by simp [State.record, State.setPhase])
      (fun u hu => by simp [tellings, State.record, State.setPhase, hu.symm]) (fun i b hd => ?_)
      (by simp)
    obtain ⟨rfl, hc⟩ := hd.chan_of_asking (by rw [ht]; rfl)
    simpa [Delivers, State.record, State.setPhase] using hc
  | @receive t id b ht hc =>
    refine h.move rfl (fun _ _ hc => hc) (fun _ hx => hx) (fun _ _ _ hx => hx) (fun _ _ => rfl)
      (fun i d hd => ?_) (by simp)
    obtain ⟨rfl, hc'⟩ := hd.chan_of_asking (by rw [ht]; rfl)
    obtain rfl : b = d := by simpa [hc] using hc'
    cases b <;> simp [Delivers, State.settle, State.setPhase, outcome, Decision.reason]
  | @hangUp t id ht hc =>
    refine h.move rfl (fun _ _ hc => hc) (fun _ hx => hx) (fun _ _ _ hx => hx) (fun _ _ => rfl)
      (fun i d hd => ?_) (by simp)
    have := (hd.chan_of_asking (by rw [ht]; rfl)).2
    simp [hc] at this
  | @elapse t id ht hc =>
    refine h.move rfl (fun _ _ hc => hc) (fun _ hx => hx) (fun _ _ _ hx => hx) (fun _ _ => rfl)
      (fun i d hd => ?_) (fun i u hi hm => ?_)
    · have := (hd.chan_of_asking (by rw [ht]; rfl)).2
      simp [hc] at this
    · cases hi
      exact Assoc.value_unique hq.nodup hm (hq.live t id (by rw [ht]; rfl) hc)
  | expire ht => exact h.expire hq ht
  | @close t id reason r ht =>
    refine h.move rfl (fun _ _ hc => hc) (fun _ hx => hx) (by simp [State.record, State.setPhase])
      (fun u hu => by simp [tellings, State.record, State.setPhase, hu.symm]) (fun i b hd => ?_)
      (by simp)
    obtain ⟨rfl, rfl⟩ : id = i ∧ reason = b.reason := by simpa [Delivers, ht] using hd
    obtain ⟨o, reason', ho⟩ := hst'.tellings_done
      (List.mem_cons_of_mem _ (List.mem_cons_of_mem _ (hI.stories.issued_of_closing ht)))
      (by simp [State.record, State.setPhase, Phase.Done])
    have hr : reason' = b.reason := by
      have := congrArg List.head? ho
      simpa [tellings, State.record, State.setPhase] using this.symm
    simp only [Delivers, State.record, State.setPhase, Function.update_self]
    exact ⟨o, hr ▸ ho⟩
  | @drop t id ht =>
    refine h.move (t := t) (p := .withdrawing id) (by simp [State.setPhase])
      (fun _ _ hc => sent_remove hq hc) pending_remove_subset (by simp [State.setPhase])
      (by simp [State.setPhase]) (fun i b hd => ?_) (by simp)
    exact absurd (hd.chan_of_asking (by rw [ht]; rfl)).2 (hG b)
  | @withdraw t id ht =>
    refine h.move rfl (fun _ _ hc => hc) (fun _ hx => hx) (by simp [State.record, State.setPhase])
      (fun u hu => by simp [tellings, State.record, State.setPhase, hu.symm]) (fun i b hd => ?_)
      (by simp)
    simp [Delivers, ht] at hd
  | answer => exact h.answer hq _
  | shutdown => exact h.shutdown hq

end Delivered

/-- Along a run that drops no `ask` on an unread answer, whatever `answer` reported as
delivered is what the observer is told, once, and nothing else is. -/
theorem delivered_answer_closes (lim : Limits) (as : List (Action Offer)) (s : State Offer)
    (h : exec (step lim) init as = some s) (hG : Along (step lim) Attentive init as)
    (id : ℕ) (d : Decision) (took : Option Ask) (ha : .answered id d took true ∈ s.past) :
    ∃ t, took = some t ∧
      (∀ i reason, .closed i reason ∈ tellings t s.past → i = id ∧ reason = d.reason) ∧
      ((s.phase t).Done → ∃ o, tellings t s.past = [.closed id d.reason, .pending id o]) := by
  obtain ⟨hI, hD⟩ := exec_invariant_along (I := fun s => Inv lim s ∧ Delivered s)
    (fun _ _ _ hI hG hs => ⟨hI.1.step (.of_step hs), hI.2.step hI.1 hG (.of_step hs)⟩)
    ⟨.init, .init⟩ hG h
  obtain ⟨l₁, l₂, hs⟩ := List.append_of_mem ha
  obtain ⟨t, rfl⟩ := Option.isSome_iff_exists.mp (hI.justified _ _ ⟨l₁, hs.symm⟩).1
  refine ⟨t, rfl, ?_⟩
  have hd := hD.answers t id d ha
  have hst := hI.stories t
  rw [← tellings_story]
  unfold Delivers at hd
  cases hp : s.phase t with
  | idle | withdrawing | dropped => simp [hp] at hd
  | entered | waiting | elapsed | closing =>
    rw [hp] at hst
    simp only [Phase.Story] at hst
    refine ⟨?_, by simp [Phase.Done]⟩
    first
    | rw [hst]; simp [tellings]
    | obtain ⟨o, ho⟩ := hst; rw [ho]; simp [tellings]
  | returned r =>
    rw [hp] at hd
    obtain ⟨o, ho⟩ := hd
    rw [tellings_story, ho]
    simp

theorem delivered_answer_closes_accepted : ∃ s : State Unit,
    exec (step .spec) init acceptedRun = some s ∧ ∃ t, some 0 = some t ∧
      (∀ i reason, .closed i reason ∈ tellings t s.past → i = 1 ∧ reason = .accepted) ∧
      ((s.phase t).Done → ∃ o, tellings t s.past = [.closed 1 .accepted, .pending 1 o]) := by
  refine ⟨_, rfl, delivered_answer_closes .spec acceptedRun _ rfl ?_ 1 .accept (some 0) (by decide)⟩
  refine ⟨fun u id hu => ?_, fun s hs => ?_⟩
  · cases show Phase.idle = .elapsed id from hu
  cases hs
  refine ⟨trivial, fun s hs => ?_⟩
  cases hs
  refine ⟨trivial, fun s hs => ?_⟩
  cases hs
  refine ⟨trivial, fun s hs => ?_⟩
  cases hs
  exact ⟨trivial, fun s hs => trivial⟩

end Sukkula.Consent
