import Sukkula.Consent.FreshId
import Sukkula.Library.Assoc

/-! # The queue of the broker

The map stays within its bound, its ids are positive and different, and an
entry is in it exactly while its `ask` is unsettled and nothing was sent to it.
-/

namespace Sukkula.Consent

variable {Offer : Type} {lim : Limits} {s s' : State Offer} {t u : Ask} {id : ℕ}

/-- The id an unsettled `ask` waits under. -/
def Phase.asking : Phase Offer → Option ℕ
  | .entered id _ | .waiting id | .elapsed id => some id
  | _ => none

theorem Phase.receiving_of_asking {p : Phase Offer} (h : p.asking = some id) :
    p.receiving = true := by
  cases p <;> simp_all [asking, receiving]

/-- The invariant of the map, its channels and the tasks behind them. -/
structure Queue (lim : Limits) (s : State Offer) : Prop where
  bound : s.pending.length ≤ lim.maxPending
  nodup : s.keys.Nodup
  ids : ∀ e ∈ s.pending, 1 ≤ e.1 ∧ e.1 < 2 ^ 64
  next : 1 ≤ s.nextId ∧ s.nextId < 2 ^ 64
  entry : ∀ id t, (id, t) ∈ s.pending → (s.phase t).asking = some id ∧ s.chan t = .empty
  idle : ∀ t, s.phase t = .idle → s.chan t = .empty
  live : ∀ t id, (s.phase t).asking = some id → s.chan t = .empty → (id, t) ∈ s.pending
  shut : s.shutDown = true → s.pending = []

namespace Queue

theorem init : Queue lim (init : State Offer) where
  bound := Nat.zero_le _
  nodup := List.nodup_nil
  ids := by simp [Consent.init]
  next := by simp [Consent.init]
  entry := by simp [Consent.init]
  idle _ _ := rfl
  live := by simp [Consent.init, Phase.asking]
  shut _ := rfl

theorem lookup_iff (h : Queue lim s) : s.pending.lookup id = some u ↔ (id, u) ∈ s.pending :=
  Assoc.lookup_eq_some h.nodup

theorem record (h : Queue lim s) (x : Happening Offer) : Queue lim (s.record x) :=
  ⟨h.bound, h.nodup, h.ids, h.next, h.entry, h.idle, h.live, h.shut⟩

/-- A task may move to a phase that asks for the same id, or that asks for none once its
entry is gone. -/
theorem setPhase (h : Queue lim s) {p : Phase Offer} (hi : p = .idle → s.chan t = .empty)
    (hfrom : ∀ id, p.asking = some id → (s.phase t).asking = some id)
    (hto : ∀ id, (id, t) ∈ s.pending → p.asking = some id) : Queue lim (s.setPhase t p) where
  bound := h.bound
  nodup := h.nodup
  ids := h.ids
  next := h.next
  entry := by
    intro id u hm
    refine ⟨?_, (h.entry id u hm).2⟩
    by_cases hu : u = t
    · subst hu; simpa [State.setPhase] using hto id hm
    · simpa [State.setPhase, hu] using (h.entry id u hm).1
  idle := by
    intro u hu
    by_cases hut : u = t
    · subst hut; exact hi (by simpa [State.setPhase] using hu)
    · exact h.idle u (by simpa [State.setPhase, hut] using hu)
  live := by
    intro u id hu
    by_cases hut : u = t
    · subst hut; exact h.live u id (hfrom id (by simpa [State.setPhase] using hu))
    · exact h.live u id (by simpa [State.setPhase, hut] using hu)
  shut := h.shut

theorem take (h : Queue lim s) (hm : (id, u) ∈ s.pending) {c : Chan} (hc : c ≠ .empty) :
    Queue lim { s with
      pending := s.pending.filter fun e => e.1 ≠ id
      chan := Function.update s.chan u c } where
  bound := (List.length_filter_le _ _).trans h.bound
  nodup := Assoc.nodup_keys_filter h.nodup _
  ids e he := h.ids e (List.mem_of_mem_filter he)
  next := h.next
  entry := by
    intro id' t hm'
    obtain ⟨hm', hne⟩ := List.mem_filter.mp hm'
    obtain ⟨ha, he⟩ := h.entry id' t hm'
    -- The task of the entry taken out asks for `id`, so this is another one.
    have htu : t ≠ u := by
      rintro rfl
      have := ha.symm.trans (h.entry id t hm).1
      simp_all
    exact ⟨ha, by simpa [htu] using he⟩
  idle := by
    intro t ht
    have htu : t ≠ u := by
      rintro rfl
      have ha := (h.entry id t hm).1
      rw [show s.phase t = .idle from ht] at ha
      cases ha
    simpa [htu] using h.idle t ht
  live := by
    intro t id' ha he
    by_cases htu : t = u
    · subst htu; simp [hc] at he
    · have hm' := h.live t id' ha (by simpa [htu] using he)
      refine List.mem_filter.mpr ⟨hm', ?_⟩
      simp only [decide_eq_true_eq]
      rintro rfl
      exact htu (Assoc.value_unique h.nodup hm' hm)
  shut hs := by simp [h.shut hs]

theorem remove (h : Queue lim s) (id : ℕ) : Queue lim (s.remove id) := by
  unfold State.remove
  split
  · rename_i u hu
    exact h.take (h.lookup_iff.mp hu) (by simp)
  · exact h

theorem not_mem_remove : (id, t) ∉ (s.remove id).pending := by
  unfold State.remove
  split
  · simp
  · rename_i hn
    exact Assoc.lookup_eq_none.mp hn t

@[simp] theorem phase_remove (id : ℕ) : (s.remove id).phase = s.phase := by
  unfold State.remove; split <;> rfl

theorem giveUp (h : Queue lim s) (ha : (s.phase t).asking = some id) {p : Phase Offer}
    (hi : p ≠ .idle) (hp : p.asking = none) : Queue lim ((s.remove id).setPhase t p) := by
  refine (h.remove id).setPhase (fun he => absurd he hi) (by simp [hp]) ?_
  intro id' hm
  have he := ((h.remove id).entry id' t hm).1
  rw [phase_remove, ha] at he
  exact absurd (Option.some.inj he ▸ hm) not_mem_remove

theorem settle (h : Queue lim s) (hc : s.chan t ≠ .empty) (d : Option Decision) :
    Queue lim (s.settle t id d) :=
  h.setPhase (by simp) (by simp [Phase.asking]) fun _ hm => absurd (h.entry _ _ hm).2 hc

theorem expire (h : Queue lim s) (ht : s.phase t = .elapsed id) :
    Queue lim (s.expire t id) := by
  have ha : (s.phase t).asking = some id := by simp [ht, Phase.asking]
  unfold State.expire
  split
  · exact h.giveUp ha (by simp) rfl
  · rename_i hn
    refine h.settle (fun he => hn ?_) _
    rw [h.lookup_iff.mpr (h.live t id ha he)]
    rfl

theorem enter (h : Queue lim s) (ht : s.phase t = .idle) (offer : Offer) :
    Queue lim (s.enter lim t offer) := by
  have hnm : ∀ id, (id, t) ∉ s.pending := by
    intro id hm
    have := (h.entry id t hm).1
    simp [ht, Phase.asking] at this
  have hrefuse : ∀ r, Queue lim (s.setPhase t (.returned r)) := fun r =>
    h.setPhase (by simp) (by simp [Phase.asking]) fun id hm => absurd hm (hnm id)
  unfold State.enter
  split
  · exact (hrefuse _).record _
  split
  · exact (hrefuse _).record _
  rename_i hs hlen
  obtain ⟨hfresh, hpos, hlt⟩ := State.freshId_spec (s := s)
    (by have := lim.usize; omega) h.next.1 h.next.2
  exact {
    bound := by simp; omega
    nodup := List.nodup_cons.mpr ⟨hfresh, h.nodup⟩
    ids := by
      intro e he
      rcases List.mem_cons.mp he with rfl | he
      · exact ⟨hpos, hlt⟩
      · exact h.ids e he
    next := ⟨nextAfter_pos _, nextAfter_lt _⟩
    entry := by
      intro id u hm
      rcases List.mem_cons.mp hm with he | hm
      · obtain ⟨rfl, rfl⟩ := Prod.mk.inj he
        simp [Phase.asking, h.idle _ ht]
      · have hut : u ≠ t := fun e => hnm id (e ▸ hm)
        simpa [hut] using h.entry id u hm
    idle := by
      intro u hu
      by_cases hut : u = t
      · subst hut; simp at hu
      · exact h.idle u (by simpa [hut] using hu)
    live := by
      intro u id ha he
      by_cases hut : u = t
      · subst hut; simp [Phase.asking] at ha; simp [ha]
      · exact List.mem_cons_of_mem _ (h.live u id (by simpa [hut] using ha) he)
    shut := fun hs' => absurd hs' hs }

theorem answer (h : Queue lim s) (d : Decision) : Queue lim (s.answer id d) := by
  unfold State.answer
  split
  · rename_i u hu
    have hm := h.lookup_iff.mp hu
    rw [if_pos (Phase.receiving_of_asking (h.entry id u hm).1)]
    exact (h.take hm (c := .sent d) (by simp)).record _
  · exact h.record _

theorem shutdown (h : Queue lim s) : Queue lim s.shutdown where
  bound := Nat.zero_le _
  nodup := List.nodup_nil
  ids := by simp [State.shutdown]
  next := h.next
  entry := by simp [State.shutdown]
  idle := by
    intro t ht
    have hn : t ∉ s.pending.map Prod.snd := by
      intro hm
      obtain ⟨⟨id, u⟩, he, rfl⟩ := List.mem_map.mp hm
      have ha := (h.entry id u he).1
      rw [show s.phase u = .idle from ht] at ha
      cases ha
    simpa [State.shutdown, hn] using h.idle t ht
  live := by
    intro t id ha he
    simp only [State.shutdown] at he
    split at he
    · cases he
    · rename_i hn
      exact absurd (List.mem_map_of_mem (h.live t id ha he)) hn
  shut _ := rfl

theorem step {a : Action Offer} (h : Queue lim s) (hs : Step lim s a s') : Queue lim s' := by
  cases hs with
  | @enter t offer ht => exact h.enter ht offer
  | @announce t id offer ht =>
    refine (h.setPhase (by simp) (by simp [ht, Phase.asking]) fun id' hm => ?_).record _
    simpa [ht, Phase.asking] using (h.entry id' t hm).1
  | receive ht hc => exact h.settle (by simp [hc]) _
  | hangUp ht hc => exact h.settle (by simp [hc]) _
  | @elapse t id ht hc =>
    refine h.setPhase (by simp) (by simp [ht, Phase.asking]) fun id' hm => ?_
    simpa [ht, Phase.asking] using (h.entry id' t hm).1
  | expire ht => exact h.expire ht
  | @close t id reason r ht =>
    refine ((h.setPhase (by simp) (by simp [Phase.asking]) fun id' hm => ?_).record _).record _
    simpa [ht, Phase.asking] using (h.entry id' t hm).1
  | drop ht => exact h.giveUp (by simp [ht, Phase.asking]) (by simp) rfl
  | @withdraw t id ht =>
    refine (h.setPhase (by simp) (by simp [Phase.asking]) fun id' hm => ?_).record _
    simpa [ht, Phase.asking] using (h.entry id' t hm).1
  | @answer id d => exact h.answer d
  | shutdown => exact h.shutdown

end Queue

end Sukkula.Consent
