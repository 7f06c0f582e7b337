import Sukkula.Consent.History

/-! # What the broker guarantees

The bound, the ids and the observer's events hold for every interleaving of
asks, answers, timeouts, withdrawals and shutdowns. Ids are handed out again
once they wrapped, so events come in pairs for each `ask`, not for each id.
-/

namespace Sukkula.Consent

open Transition

variable {Offer : Type} {lim : Limits} {s s' : State Offer} {t u : Ask} {id : ℕ}

def Phase.Done : Phase Offer → Prop
  | .idle | .returned _ | .dropped => True
  | _ => False

/-- What the observer was told by the task `t`, newest first. -/
def tellings (t : Ask) (past : List (Happening Offer)) : List (ConsentEvent Offer) :=
  past.filterMap fun
    | .told u e => if u = t then some e else none
    | _ => none

theorem tellings_story (t : Ask) (past : List (Happening Offer)) :
    tellings t (story t past) = tellings t past := by
  induction past with
  | nil => rfl
  | cons x past ih =>
    cases x with
    | told u e =>
      by_cases hu : u = t <;> simp_all [tellings, Happening.of]
    | issued u i | returned u r =>
      by_cases hu : u = t <;> simp_all [tellings, Happening.of]
    | answered | shutdown => simpa [tellings, Happening.of] using ih

/-- Each task tells nothing, one `Pending`, or one `Pending` and then one `Closed`. -/
theorem Stories.tellings_cases (h : Stories s) (t : Ask) :
    tellings t s.past = [] ∨ (∃ id o, tellings t s.past = [.pending id o]) ∨
      ∃ id o reason, tellings t s.past = [.closed id reason, .pending id o] := by
  have hst := h t
  rw [← tellings_story]
  cases hp : s.phase t with
  | idle | entered =>
    rw [hp] at hst
    exact Or.inl (by rw [hst]; rfl)
  | waiting id | elapsed id | closing id | withdrawing id =>
    rw [hp] at hst
    obtain ⟨o, ho⟩ := hst
    exact Or.inr (Or.inl ⟨id, o, by simp [ho, tellings]⟩)
  | returned r =>
    rw [hp] at hst
    rcases hst with ho | ⟨id, o, reason, ho⟩
    · exact Or.inl (by simp [ho, tellings])
    · exact Or.inr (Or.inr ⟨id, o, reason, by simp [ho, tellings]⟩)
  | dropped =>
    rw [hp] at hst
    obtain ⟨id, o, ho⟩ := hst
    exact Or.inr (Or.inr ⟨id, o, .withdrawn, by simp [ho, tellings]⟩)

/-- A task that was issued an id and is done told one `Pending` and then one `Closed` for it. -/
theorem Stories.tellings_done (h : Stories s) (hi : .issued t id ∈ s.past)
    (hd : (s.phase t).Done) :
    ∃ o reason, tellings t s.past = [.closed id reason, .pending id o] := by
  have hst := h t
  have hm : Happening.issued t id ∈ story t s.past :=
    List.mem_filter.mpr ⟨hi, by simp [Happening.of]⟩
  rw [← tellings_story]
  cases hp : s.phase t with
  | entered | waiting | elapsed | closing | withdrawing => simp [hp, Phase.Done] at hd
  | idle =>
    rw [hp] at hst
    rw [hst] at hm
    cases hm
  | returned r =>
    rw [hp] at hst
    rcases hst with ho | ⟨i, o, reason, ho⟩
    · simp [ho] at hm
    · obtain rfl : id = i := by simpa [ho] using hm
      exact ⟨o, reason, by simp [ho, tellings]⟩
  | dropped =>
    rw [hp] at hst
    obtain ⟨i, o, ho⟩ := hst
    obtain rfl : id = i := by simpa [ho] using hm
    exact ⟨o, .withdrawn, by simp [ho, tellings]⟩

/-- The guarantees of the broker in a state, over all that happened on the way to it. -/
structure Guarantees (lim : Limits) (s : State Offer) : Prop where
  -- At most `max_pending` offers wait.
  bounded : s.pending.length ≤ lim.maxPending
  -- Offers that wait at the same time have different ids, none of them 0.
  distinct : s.keys.Nodup
  positive : 0 ∉ s.keys
  -- One `Pending` and then one `Closed` for each `ask` that was issued an id.
  ordered : ∀ t, tellings t s.past = [] ∨ (∃ id o, tellings t s.past = [.pending id o]) ∨
    ∃ id o reason, tellings t s.past = [.closed id reason, .pending id o]
  once : ∀ t id, .issued t id ∈ s.past → (s.phase t).Done →
    ∃ o reason, tellings t s.past = [.closed id reason, .pending id o]
  -- A yes goes back to an `Accept` that took this entry and was reported delivered.
  accepted : ∀ t id l, .returned t (.ok id) :: l <:+ s.past →
    .issued t id ∈ l ∧ .answered id .accept (some t) true ∈ l
  declined : ∀ t l, .returned t (.error .declined) :: l <:+ s.past →
    ∃ id, .issued t id ∈ l ∧ .answered id .decline (some t) true ∈ l
  -- An answer that returns false leaves everything but the history as it was.
  undelivered : ∀ id d took, (s.answer id d).past = .answered id d took false :: s.past →
    s.answer id d = s.record (.answered id d took false)
  afterShutdown : ∀ l, .shutdown :: l <:+ s.past → ∀ t id, .returned t (.ok id) ∈ s.past →
    .answered id .accept (some t) true ∈ l

theorem Inv.undelivered (h : Inv lim s) {d : Decision} {took : Option Ask}
    (hp : (s.answer id d).past = .answered id d took false :: s.past) :
    s.answer id d = s.record (.answered id d took false) := by
  unfold State.answer at hp ⊢
  split at hp
  · rename_i u hu
    have hr := Phase.receiving_of_asking (h.queue.entry id u (h.queue.lookup_iff.mp hu)).1
    simp [hr] at hp
  · rename_i hn
    obtain rfl : none = took := by simpa [State.record] using hp
    rfl

theorem Inv.answered_before_shutdown (h : Inv lim s) {l : List (Happening Offer)}
    (hl : .shutdown :: l <:+ s.past) {d : Decision} {took : Option Ask}
    (ha : .answered id d took true ∈ s.past) : .answered id d took true ∈ l := by
  obtain ⟨l₁, l₂, hs⟩ := List.append_of_mem ha
  have hsuf : .answered id d took true :: l₂ <:+ s.past := ⟨l₁, hs.symm⟩
  have hno : .shutdown ∉ l₂ := (h.justified _ _ hsuf).2
  -- Both happenings cut the same history, so one past is part of the other.
  rcases List.suffix_or_suffix_of_suffix hl hsuf with hc | hc
  · rcases List.suffix_cons_iff.mp hc with he | hc
    · cases he
    · exact absurd (hc.subset List.mem_cons_self) hno
  · rcases List.suffix_cons_iff.mp hc with he | hc
    · cases he
    · exact hc.subset List.mem_cons_self

theorem Inv.guarantees (h : Inv lim s) : Guarantees lim s where
  bounded := h.queue.bound
  distinct := h.queue.nodup
  positive := by
    intro hm
    obtain ⟨e, he, h0⟩ := List.mem_map.mp hm
    have := (h.queue.ids e he).1
    omega
  ordered := h.stories.tellings_cases
  once _ _ := h.stories.tellings_done
  accepted t id l hl := h.justified _ _ hl
  declined t l hl := h.justified _ _ hl
  undelivered _ _ _ := h.undelivered
  afterShutdown l hl t id hr := by
    obtain ⟨l₁, l₂, hs⟩ := List.append_of_mem hr
    have hj : _ ∧ _ := h.justified _ _ (⟨l₁, hs.symm⟩ : _ <:+ s.past)
    refine h.answered_before_shutdown hl ?_
    rw [hs]
    exact List.mem_append_right _ (List.mem_cons_of_mem _ hj.2)

/-- Every interleaving of asks, answers, timeouts, withdrawals and shutdowns keeps the
guarantees, from a new broker on. -/
theorem guarantees_of_run (lim : Limits) (as : List (Action Offer)) (s : State Offer)
    (h : exec (step lim) init as = some s) : Guarantees lim s :=
  (exec_invariant (I := Inv lim) (fun _ _ _ hI hs => hI.step (.of_step hs)) .init h).guarantees

/-- The limits of `ConsentBroker::new`. -/
def Limits.spec : Limits := ⟨2, by omega⟩

def acceptedRun : List (Action Unit) :=
  [.enter 0 (), .announce 0, .answer 1 .accept, .poll 0, .close 0]

theorem guarantees_of_accepted_run : ∃ s : State Unit, exec (step .spec) init acceptedRun = some s ∧
    .returned 0 (.ok 1) ∈ s.past ∧ Guarantees .spec s :=
  ⟨_, rfl, by decide, guarantees_of_run .spec acceptedRun _ rfl⟩

section Wrapped

/-- What the observer was told under the id, whichever task it came from. -/
def observed (id : ℕ) (past : List (Happening Offer)) : List (ConsentEvent Offer) :=
  past.filterMap fun
    | .told _ (.pending i o) => if i = id then some (.pending i o) else none
    | .told _ (.closed i r) => if i = id then some (.closed i r) else none
    | _ => none

/-- An empty queue that has issued no id past `nextId`. -/
structure Rested (s : State Unit) (k : ℕ) : Prop where
  pending : s.pending = []
  shutDown : s.shutDown = false
  nextId : s.nextId = nextAfter^[k] 1
  fresh : ∀ t, k ≤ t → s.phase t = .idle
  done : ∀ t, (s.phase t).Done

/-- One ask that is shown and withdrawn moves the ids on by one. -/
theorem Rested.cycle {s : State Unit} {k : ℕ} (h : Rested s k) :
    ∃ s', exec (step .spec) s [.enter k (), .announce k, .drop k, .withdraw k] = some s' ∧
      Rested s' (k + 1) ∧ s'.past = .told k (.closed s.nextId .withdrawn) ::
        .told k (.pending s.nextId ()) :: .issued k s.nextId :: s.past := by
  have hpos : s.nextId ≠ 0 := by
    rw [h.nextId, iterate_nextAfter le_rfl (by omega)]
    omega
  have hfresh : s.freshId = s.nextId := by
    simp [State.freshId, State.keys, h.pending, freshLoop, hpos]
  have hidle := h.fresh k le_rfl
  refine ⟨⟨nextAfter s.nextId, [], false, Function.update s.chan k .closed,
    Function.update s.phase k .dropped, _⟩, ?_, ⟨rfl, rfl, ?_, ?_, ?_⟩, rfl⟩
  · simp [exec, step, hidle, State.enter, h.shutDown, h.pending, hfresh, State.setPhase,
      State.record, State.remove, Limits.spec]
  · rw [Function.iterate_succ_apply', ← h.nextId]
  · intro t ht
    have hk : t ≠ k := by omega
    simpa [hk] using h.fresh t (by omega)
  · intro t
    by_cases hk : t = k
    · simp [hk, Phase.Done]
    · simpa [hk] using h.done t

/-- After any number of withdrawn asks the queue is at rest, and the first id was shown. -/
theorem Rested.after (k : ℕ) : ∃ as s, exec (step .spec) init as = some s ∧ Rested s k ∧
    (0 < k → .told 0 (.pending 1 ()) ∈ s.past) := by
  induction k with
  | zero => exact ⟨[], init, rfl, ⟨rfl, rfl, rfl, fun _ _ => rfl, fun _ => trivial⟩, by simp⟩
  | succ k ih =>
    obtain ⟨as, s, hs, hr, hm⟩ := ih
    obtain ⟨s', hs', hr', hp⟩ := hr.cycle
    refine ⟨_, s', exec_append_of hs hs', hr', fun _ => ?_⟩
    rw [hp]
    rcases Nat.eq_zero_or_pos k with rfl | hk
    · rw [hr.nextId]; simp
    · simp [hm hk]

/-- Once the ids wrapped, an id is shown and closed a second time, with every ask done. -/
theorem id_observed_twice : ∃ (as : List (Action Unit)) (s : State Unit),
    exec (step .spec) init as = some s ∧ (∀ t, (s.phase t).Done) ∧
      ∃ t, .issued t 1 ∈ s.past ∧
        ¬ ∃ reason o, observed 1 s.past = [.closed 1 reason, .pending 1 o] := by
  obtain ⟨as, s, hs, hr, hm⟩ := Rested.after (2 ^ 64 - 1)
  obtain ⟨s', hs', hr', hp⟩ := hr.cycle
  have hid : s.nextId = 1 := by
    rw [hr.nextId, iterate_nextAfter le_rfl (by omega), Nat.sub_self, Nat.zero_add, Nat.mod_self]
  refine ⟨_, s', exec_append_of hs hs', hr'.done, 2 ^ 64 - 1, by simp [hp, hid], ?_⟩
  rintro ⟨reason, o, ho⟩
  have hold : ConsentEvent.pending 1 () ∈ observed 1 s.past :=
    List.mem_filterMap.mpr ⟨_, hm (by omega), rfl⟩
  have hnil : observed 1 s.past = [] := by
    rw [hp, hid] at ho
    exact (List.cons.inj (List.cons.inj ho).2).2
  simp [hnil] at hold

end Wrapped

end Sukkula.Consent
