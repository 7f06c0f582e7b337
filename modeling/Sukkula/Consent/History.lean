import Sukkula.Consent.Queue

/-! # What the broker tells and returns

The history of each `ask` follows its phase: an issued id, one `Pending`, one
`Closed`, and the result. A result other than a timeout, a withdrawal or a
shutdown goes back to an `answer` that took this very entry.
-/

namespace Sukkula.Consent

open Transition

variable {Offer : Type} {lim : Limits} {s s' : State Offer} {t u : Ask} {id : ℕ}

@[simp] theorem past_remove (id : ℕ) : (s.remove id).past = s.past := by
  unfold State.remove; split <;> rfl

@[simp] theorem shutDown_remove (id : ℕ) : (s.remove id).shutDown = s.shutDown := by
  unfold State.remove; split <;> rfl

theorem past_answer (s : State Offer) (id : ℕ) (d : Decision) :
    ∃ took b, (s.answer id d).past = .answered id d took b :: s.past := by
  unfold State.answer
  split
  · split <;> exact ⟨_, _, rfl⟩
  · exact ⟨_, _, rfl⟩

@[simp] theorem shutDown_answer (id : ℕ) (d : Decision) :
    (s.answer id d).shutDown = s.shutDown := by
  unfold State.answer
  split
  · split <;> rfl
  · rfl

/-- Whether a happening is the own doing of the task `t`. -/
def Happening.of (t : Ask) : Happening Offer → Bool
  | .issued u _ | .told u _ | .returned u _ => u = t
  | .answered .. | .shutdown => false

def story (t : Ask) (past : List (Happening Offer)) : List (Happening Offer) :=
  past.filter (Happening.of t)

@[simp] theorem story_nil : story t ([] : List (Happening Offer)) = [] := rfl

@[simp] theorem story_cons (x : Happening Offer) (l : List (Happening Offer)) :
    story t (x :: l) = if x.of t then x :: story t l else story t l :=
  List.filter_cons

/-- What a task has done by the time it is in a phase, newest first. -/
def Phase.Story (t : Ask) (l : List (Happening Offer)) : Phase Offer → Prop
  | .idle => l = []
  | .entered id _ => l = [.issued t id]
  | .waiting id | .elapsed id | .closing id _ _ | .withdrawing id =>
    ∃ o, l = [.told t (.pending id o), .issued t id]
  | .returned r => l = [.returned t r] ∨ ∃ id o reason,
      l = [.returned t r, .told t (.closed id reason), .told t (.pending id o), .issued t id]
  | .dropped => ∃ id o,
      l = [.told t (.closed id .withdrawn), .told t (.pending id o), .issued t id]

def Stories (s : State Offer) : Prop := ∀ t, (s.phase t).Story t (story t s.past)

namespace Stories

theorem init : Stories (Consent.init : State Offer) := fun _ => rfl

theorem congr (h : Stories s) (hphase : s'.phase = s.phase)
    (hpast : ∀ t, story t s'.past = story t s.past) : Stories s' := by
  intro t
  rw [hphase, hpast]
  exact h t

/-- A task moves to a phase that its own new happenings account for. -/
theorem move (h : Stories s) (p : Phase Offer) (xs : List (Happening Offer))
    (hphase : s'.phase = Function.update s.phase t p) (hpast : s'.past = xs ++ s.past)
    (hxs : ∀ v, v ≠ t → story v xs = []) (hp : p.Story t (story t xs ++ story t s.past)) :
    Stories s' := by
  intro v
  have hs : story v s'.past = story v xs ++ story v s.past := by
    rw [hpast]; exact List.filter_append ..
  rw [hphase, hs]
  by_cases hv : v = t
  · subst hv; simpa using hp
  · simpa [hv, hxs v hv] using h v

theorem answer (h : Stories s) (d : Decision) : Stories (s.answer id d) := by
  unfold State.answer
  split
  · split <;> exact h.congr rfl fun _ => rfl
  · exact h.congr rfl fun _ => rfl

theorem expire (h : Stories s) (ht : s.phase t = .elapsed id) : Stories (s.expire t id) := by
  have hst := h t
  rw [ht] at hst
  unfold State.expire
  split
  · exact h.move (.closing id .timedOut (.error .timedOut)) [] (by simp [State.setPhase])
      (by simp [State.setPhase]) (fun _ _ => rfl) hst
  · exact h.move _ [] rfl rfl (fun _ _ => rfl) hst

theorem enter (h : Stories s) (ht : s.phase t = .idle) (offer : Offer) :
    Stories (s.enter lim t offer) := by
  have hst : story t s.past = [] := by
    have := h t
    rwa [ht] at this
  have hrefuse : ∀ r, Stories ((s.setPhase t (.returned r)).record (.returned t r)) := fun r =>
    h.move _ [.returned t r] rfl rfl
      (fun v hv => by simp [Happening.of, hv.symm])
      (Or.inl (by simp [hst, Happening.of]))
  unfold State.enter
  split
  · exact hrefuse _
  split
  · exact hrefuse _
  · exact h.move _ [.issued t s.freshId] rfl rfl
      (fun v hv => by simp [Happening.of, hv.symm])
      (by simp [Phase.Story, hst, Happening.of])

theorem step {a : Action Offer} (h : Stories s) (hs : Step lim s a s') : Stories s' := by
  cases hs with
  | @enter t offer ht => exact h.enter ht offer
  | @announce t id offer ht =>
    have hst := h t
    rw [ht] at hst
    refine h.move _ [.told t (.pending id offer)] rfl rfl
      (fun v hv => by simp [Happening.of, hv.symm]) ⟨offer, ?_⟩
    simp only [Phase.Story] at hst
    simp [hst, Happening.of]
  | @receive t id d ht hc | @hangUp t id ht hc =>
    have hst := h t
    rw [ht] at hst
    exact h.move _ [] rfl rfl (fun _ _ => rfl) hst
  | @elapse t id ht hc =>
    have hst := h t
    rw [ht] at hst
    exact h.move _ [] rfl rfl (fun _ _ => rfl) hst
  | expire ht => exact h.expire ht
  | @close t id reason r ht =>
    have hst := h t
    rw [ht] at hst
    obtain ⟨o, ho⟩ := hst
    refine h.move _ [.returned t r, .told t (.closed id reason)] rfl rfl
      (fun v hv => by simp [Happening.of, hv.symm]) (Or.inr ⟨id, o, reason, ?_⟩)
    rw [ho]
    simp [Happening.of]
  | @drop t id ht =>
    have hst := h t
    rw [ht] at hst
    exact h.move (.withdrawing id) [] (by simp [State.setPhase]) (by simp [State.setPhase])
      (fun _ _ => rfl) hst
  | @withdraw t id ht =>
    have hst := h t
    rw [ht] at hst
    obtain ⟨o, ho⟩ := hst
    refine h.move _ [.told t (.closed id .withdrawn)] rfl rfl
      (fun v hv => by simp [Happening.of, hv.symm]) ⟨id, o, ?_⟩
    rw [ho]
    simp [Happening.of]
  | answer => exact h.answer _
  | shutdown => exact h.congr rfl fun _ => rfl

theorem issued_of_closing (h : Stories s) {reason : Closed} {r : Except Refusal ℕ}
    (ht : s.phase t = .closing id reason r) : .issued t id ∈ s.past := by
  have hst := h t
  rw [ht] at hst
  obtain ⟨o, ho⟩ := hst
  have hm : Happening.issued t id ∈ story t s.past := by simp [ho]
  exact List.mem_of_mem_filter hm

end Stories

def Phase.held : Phase Offer → Option ℕ
  | .entered id _ | .waiting id | .elapsed id | .closing id _ _ | .withdrawing id => some id
  | _ => none

theorem Phase.held_of_asking {p : Phase Offer} (h : p.asking = some id) : p.held = some id := by
  cases p <;> simp_all [asking, held]

/-- Whether the past justifies a result of the task `t` under `id`. -/
def Earned (past : List (Happening Offer)) (t : Ask) (id : ℕ) : Except Refusal ℕ → Prop
  | .ok i => i = id ∧ .answered id .accept (some t) true ∈ past
  | .error .declined => .answered id .decline (some t) true ∈ past
  | .error _ => True

theorem Earned.mono {past past' : List (Happening Offer)} {r : Except Refusal ℕ}
    (hsub : past ⊆ past') (h : Earned past t id r) : Earned past' t id r := by
  cases r with
  | ok i => exact ⟨h.1, hsub h.2⟩
  | error e => cases e <;> first | trivial | exact hsub h

theorem Earned.outcome {past : List (Happening Offer)} {d : Option Decision}
    (h : ∀ b, d = some b → .answered id b (some t) true ∈ past) :
    Earned past t id (outcome id d).1 := by
  rcases d with _ | _ | _
  · trivial
  · exact ⟨rfl, h _ rfl⟩
  · exact h .decline rfl

/-- What was sent came from an answer, and so does the result of a settled task. -/
structure Credits (s : State Offer) : Prop where
  sent : ∀ t d id, s.chan t = .sent d → (s.phase t).held = some id →
    .answered id d (some t) true ∈ s.past
  closing : ∀ t id reason r, s.phase t = .closing id reason r → Earned s.past t id r

namespace Credits

theorem init : Credits (Consent.init : State Offer) :=
  ⟨by simp [Consent.init], by simp [Consent.init]⟩

/-- A step that moves `t` alone, sends nothing and forgets nothing. -/
theorem move (h : Credits s) {p : Phase Offer}
    (hphase : s'.phase = Function.update s.phase t p)
    (hchan : ∀ u d, s'.chan u = .sent d → s.chan u = .sent d) (hpast : s.past ⊆ s'.past)
    (hheld : ∀ d id, s.chan t = .sent d → p.held = some id → (s.phase t).held = some id)
    (hp : ∀ id reason r, p = .closing id reason r → Earned s.past t id r) : Credits s' where
  sent := by
    intro u d id hc hu
    rw [hphase] at hu
    refine hpast (h.sent u d id (hchan u d hc) ?_)
    by_cases hut : u = t
    · subst hut; exact hheld d id (hchan u d hc) (by simpa using hu)
    · simpa [hut] using hu
  closing := by
    intro u id reason r hu
    rw [hphase] at hu
    refine Earned.mono hpast ?_
    by_cases hut : u = t
    · subst hut; exact hp id reason r (by simpa using hu)
    · exact h.closing u id reason r (by simpa [hut] using hu)

theorem sent_of_remove {d : Decision} (hc : (s.remove id).chan u = .sent d) :
    s.chan u = .sent d := by
  unfold State.remove at hc
  split at hc
  · rename_i v _
    by_cases huv : u = v
    · subst huv; simp at hc
    · simpa [huv] using hc
  · exact hc

theorem enter (h : Credits s) (hq : Queue lim s) (ht : s.phase t = .idle) (offer : Offer) :
    Credits (s.enter lim t offer) := by
  have he := hq.idle t ht
  unfold State.enter
  split
  · exact h.move rfl (fun _ _ hc => hc) (List.subset_cons_self _ _) (by simp [he]) (by simp)
  split
  · exact h.move rfl (fun _ _ hc => hc) (List.subset_cons_self _ _) (by simp [he]) (by simp)
  · exact h.move rfl (fun _ _ hc => hc) (List.subset_cons_self _ _) (by simp [he]) (by simp)

theorem expire (h : Credits s) (ht : s.phase t = .elapsed id) : Credits (s.expire t id) := by
  unfold State.expire
  split
  · refine h.move (t := t) (p := .closing id .timedOut (.error .timedOut))
      (by simp [State.setPhase]) (fun _ _ hc => sent_of_remove hc) (by simp [State.setPhase])
      (by simp [ht, Phase.held]) ?_
    rintro _ _ _ ⟨⟩
    trivial
  · refine h.move rfl (fun _ _ hc => hc) (fun _ hx => hx) (by simp [ht, Phase.held]) ?_
    rintro _ _ _ ⟨⟩
    refine Earned.outcome fun b hb => h.sent t b id ?_ (by simp [ht, Phase.held])
    cases hc : s.chan t <;> simp_all [Chan.received]

theorem answer (h : Credits s) (hq : Queue lim s) (d : Decision) : Credits (s.answer id d) := by
  unfold State.answer
  split
  · rename_i u hu
    have ha := (hq.entry id u (hq.lookup_iff.mp hu)).1
    rw [if_pos (Phase.receiving_of_asking ha)]
    refine ⟨?_, fun v i reason r hv => (h.closing v i reason r hv).mono (List.subset_cons_self _ _)⟩
    intro v b i hc hv
    by_cases hvu : v = u
    · subst hvu
      have hi : id = i := Option.some.inj ((Phase.held_of_asking ha).symm.trans hv)
      have hb : d = b := by simpa using hc
      simp [hi, hb]
    · exact List.mem_cons_of_mem _ (h.sent v b i (by simpa [hvu] using hc) hv)
  · exact ⟨fun v b i hc hv => List.mem_cons_of_mem _ (h.sent v b i hc hv),
      fun v i reason r hv => (h.closing v i reason r hv).mono (List.subset_cons_self _ _)⟩

theorem shutdown (h : Credits s) : Credits s.shutdown where
  sent := by
    intro t d id hc ht
    simp only [State.shutdown] at hc
    split at hc
    · cases hc
    · exact List.mem_cons_of_mem _ (h.sent t d id hc ht)
  closing t id reason r ht := (h.closing t id reason r ht).mono (List.subset_cons_self _ _)

theorem step {a : Action Offer} (h : Credits s) (hq : Queue lim s) (hs : Step lim s a s') :
    Credits s' := by
  cases hs with
  | @enter t offer ht => exact h.enter hq ht offer
  | announce ht =>
    exact h.move rfl (fun _ _ hc => hc) (List.subset_cons_self _ _) (by simp [ht, Phase.held])
      (by simp)
  | @receive t id d ht hc =>
    refine h.move rfl (fun _ _ hc => hc) (fun _ hx => hx) (by simp [ht, Phase.held]) ?_
    rintro _ _ _ ⟨⟩
    exact Earned.outcome fun b hb => h.sent t b id (by simp_all) (by simp [ht, Phase.held])
  | hangUp ht hc =>
    refine h.move rfl (fun _ _ hc => hc) (fun _ hx => hx) (by simp [ht, Phase.held]) ?_
    rintro _ _ _ ⟨⟩
    trivial
  | elapse ht hc =>
    exact h.move rfl (fun _ _ hc => hc) (fun _ hx => hx) (by simp [ht, Phase.held]) (by simp)
  | expire ht => exact h.expire ht
  | close ht =>
    exact h.move rfl (fun _ _ hc => hc)
      (List.Subset.trans (List.subset_cons_self _ _) (List.subset_cons_self _ _))
      (by simp [Phase.held])
      (by simp)
  | @drop t id ht =>
    exact h.move (t := t) (p := .withdrawing id) (by simp [State.setPhase])
      (fun _ _ hc => sent_of_remove hc) (by simp [State.setPhase]) (by simp [ht, Phase.held])
      (by simp)
  | withdraw ht =>
    exact h.move rfl (fun _ _ hc => hc) (List.subset_cons_self _ _) (by simp [Phase.held])
      (by simp)
  | answer => exact h.answer hq _
  | shutdown => exact h.shutdown

end Credits

/-- What the past must hold when a happening is added to it. -/
def Justified (past : List (Happening Offer)) : Happening Offer → Prop
  | .returned t (.ok id) => .issued t id ∈ past ∧ .answered id .accept (some t) true ∈ past
  | .returned t (.error .declined) =>
    ∃ id, .issued t id ∈ past ∧ .answered id .decline (some t) true ∈ past
  | .answered _ _ took true => took.isSome ∧ .shutdown ∉ past
  | _ => True

structure Inv (lim : Limits) (s : State Offer) : Prop where
  queue : Queue lim s
  stories : Stories s
  credits : Credits s
  justified : ∀ y l, y :: l <:+ s.past → Justified l y
  shut : .shutdown ∈ s.past → s.shutDown = true

namespace Inv

theorem init : Inv lim (Consent.init : State Offer) where
  queue := .init
  stories := .init
  credits := .init
  justified := by simp [Consent.init]
  shut := by simp [Consent.init]

theorem justified_close (h : Inv lim s) {reason : Closed} {r : Except Refusal ℕ}
    (ht : s.phase t = .closing id reason r) (x : Happening Offer) :
    Justified (x :: s.past) (.returned t r) := by
  have hi := List.mem_cons_of_mem x (h.stories.issued_of_closing ht)
  have he := (h.credits.closing t id reason r ht).mono (List.subset_cons_self x _)
  rcases r with (_ | _ | _ | _) | i
  · trivial
  · exact ⟨id, hi, he⟩
  · trivial
  · trivial
  · obtain ⟨rfl, ha⟩ := he
    exact ⟨hi, ha⟩

theorem justified_answer (h : Inv lim s) (d : Decision) :
    ∀ y l, y :: l <:+ (s.answer id d).past → Justified l y := by
  unfold State.answer
  split
  · rename_i u hu
    have hm := h.queue.lookup_iff.mp hu
    rw [if_pos (Phase.receiving_of_asking (h.queue.entry id u hm).1)]
    refine suffix_cons_forall ⟨rfl, fun hs => ?_⟩ h.justified
    simp [h.queue.shut (h.shut hs)] at hm
  · exact suffix_cons_forall trivial h.justified

theorem step {a : Action Offer} (h : Inv lim s) (hs : Step lim s a s') : Inv lim s' := by
  refine ⟨h.queue.step hs, h.stories.step hs, h.credits.step h.queue hs, ?_, ?_⟩
  · cases hs with
    | enter ht =>
      unfold State.enter
      split
      · exact suffix_cons_forall trivial h.justified
      split <;> exact suffix_cons_forall trivial h.justified
    | announce => exact suffix_cons_forall trivial h.justified
    | receive | hangUp | elapse => exact h.justified
    | expire =>
      unfold State.expire
      split
      · simpa [State.setPhase] using h.justified
      · exact h.justified
    | close ht =>
      exact suffix_cons_forall (h.justified_close ht _) (suffix_cons_forall trivial h.justified)
    | drop => simpa [State.setPhase] using h.justified
    | withdraw => exact suffix_cons_forall trivial h.justified
    | answer => exact h.justified_answer _
    | shutdown => exact suffix_cons_forall trivial h.justified
  · cases hs with
    | enter ht =>
      unfold State.enter
      split
      · intro _; assumption
      split <;> simpa [State.setPhase, State.record] using h.shut
    | announce | close | withdraw => simpa [State.setPhase, State.record] using h.shut
    | receive | hangUp | elapse => exact h.shut
    | expire =>
      unfold State.expire
      split
      · simpa [State.setPhase, shutDown_remove] using h.shut
      · exact h.shut
    | drop => simpa [State.setPhase, shutDown_remove] using h.shut
    | @answer id d =>
      obtain ⟨took, b, hp⟩ := past_answer s id d
      rw [hp, shutDown_answer]
      simpa using h.shut
    | shutdown => intro _; rfl

end Inv

end Sukkula.Consent
