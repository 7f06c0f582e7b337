import Sukkula.Transfer.Registry

/-! # The life of a transfer

Whatever the tasks do, in any order, the registry holds few transfers, each under
a number of its own, and the UI is told of each in order: that it started, how far
it is, and once that it is over. The numbers are those of the registrations, so
what is told of one transfer is never taken for another's. A token that is made
while the engine stops is cancelled like the rest.
-/

namespace Sukkula.Transfer

open Transition Assoc
open LocalSend (ErrorInfo Outcome)

/-- What an `add_progress` under way shows is within the total. -/
def Adding.Within (total : ℕ) : Adding → Prop
  | .counting _ => True
  | .counted shown | .reporting shown => shown ≤ total

/-- A transfer with what was emitted about it. -/
structure Running.Ok (t : Running) (log : List Event) : Prop where
  story : t.Story log t.stage
  adding : ∀ a ∈ t.adding, a.Within t.begin.total
  borrowed : t.adding ≠ [] → t.stage = .handed

namespace Registry

variable {r r' : Registry} {a : Act} {k : ℕ} {t t' : Running} {log es : List Event}

theorem Move.same (h : Move t t' es) : t'.id = t.id ∧ t'.begin = t.begin ∧ t'.token = t.token := by
  cases h with
  | @goOn i a h now =>
    cases a with
    | counting n => exact ⟨rfl, rfl, rfl⟩
    | counted shown =>
      unfold Running.add
      dsimp only
      split <;> exact ⟨rfl, rfl, rfl⟩
    | reporting shown => exact ⟨rfl, rfl, rfl⟩
  | _ => exact ⟨rfl, rfl, rfl⟩

theorem Move.about (h : Move t t' es) : ∀ e ∈ es, e.transfer = t.id := by
  cases h with
  | announce h => exact fun e he => List.mem_singleton.mp he ▸ rfl
  | @goOn i a h now =>
    cases a with
    | counting n => nofun
    | counted shown =>
      unfold Running.add
      dsimp only
      split <;> nofun
    | reporting shown => exact fun e he => List.mem_singleton.mp he ▸ rfl
  | report h => exact fun e he => List.mem_singleton.mp he ▸ rfl
  | _ => nofun

theorem adding_eq_nil (h : t.Ok log) (hstage : t.stage ≠ .handed) : t.adding = [] :=
  not_not.mp fun hne => hstage (h.borrowed hne)

theorem announced_of_ending (h : t.Ok log) (hstage : t.stage.Ending) : t.Announced log := by
  have hstory := h.story
  revert hstage hstory
  cases t.stage <;> first | exact fun _ => id | exact False.elim

theorem ok_of_ending (h : t.Announced log) (hadding : t.adding = []) {stage : Stage}
    (hend : stage.Ending) : ({ t with stage } : Running).Ok log := by
  refine ⟨?_, ?_, fun hne => absurd hadding hne⟩
  · cases stage <;> first | exact h | exact hend.elim
  · change ∀ a ∈ t.adding, _
    rw [hadding]
    nofun

theorem ok_of_handed (hstage : t.stage = .handed) (hannounced : t.Announced log)
    (hadding : ∀ a ∈ t.adding, a.Within t.begin.total) : t.Ok log := by
  refine ⟨?_, hadding, fun _ => hstage⟩
  rw [hstage]
  exact hannounced

theorem ok_goOn (h : t.Ok log) {i : ℕ} {a : Adding} (hi : t.adding[i]? = some a) (now : ℕ) :
    ({ (t.add now a).2.1 with
      adding := (t.add now a).1.elim (t.adding.eraseIdx i) (t.adding.set i) } : Running).Ok
      (log ++ (t.add now a).2.2.toList) := by
  have hmem := List.mem_of_getElem? hi
  have hstage : t.stage = .handed := h.borrowed (List.ne_nil_of_mem hmem)
  have hannounced : t.Announced log := by
    have hstory := h.story
    rwa [hstage] at hstory
  have hwithin := h.adding a hmem
  have herase : ∀ x ∈ t.adding.eraseIdx i, x.Within t.begin.total := fun x hx =>
    h.adding x (List.mem_of_mem_eraseIdx hx)
  have hset : ∀ y : Adding, y.Within t.begin.total → ∀ x ∈ t.adding.set i y,
      x.Within t.begin.total := by
    intro y hy x hx
    rcases List.mem_or_eq_of_mem_set hx with hx | rfl
    · exact h.adding x hx
    · exact hy
  cases a with
  | counting n =>
    change Running.Ok _ (log ++ [])
    rw [List.append_nil]
    exact ok_of_handed hstage hannounced (hset _ (min_le_right _ _))
  | counted shown =>
    unfold Running.add
    dsimp only
    split <;> rw [Option.toList_none, List.append_nil]
    · exact ok_of_handed hstage hannounced (hset _ hwithin)
    · exact ok_of_handed hstage hannounced herase
  | reporting shown =>
    obtain ⟨reports, rfl, hreports⟩ := hannounced
    refine ok_of_handed hstage ⟨reports ++ [.progress t.id shown t.begin.total], rfl,
      fun e he => ?_⟩ herase
    rcases List.mem_append.mp he with he | he
    · exact hreports e he
    · exact ⟨shown, hwithin, List.mem_singleton.mp he⟩

theorem Move.ok (hm : Move t t' es) (h : t.Ok log) : t'.Ok (log ++ es) := by
  cases hm with
  | announce hstage =>
    have hadding : t.adding = [] := adding_eq_nil h (by simp [hstage])
    have hlog : log = [] := by simpa [hstage, Running.Story] using h.story
    refine ⟨⟨[], ?_, nofun⟩, ?_, fun _ => rfl⟩
    · rw [hlog]
      rfl
    · exact h.adding
  | addProgress hstage n =>
    rw [List.append_nil]
    refine ⟨h.story, fun a ha => ?_, fun _ => hstage⟩
    rcases List.mem_append.mp ha with ha | ha
    · exact h.adding a ha
    · rw [List.mem_singleton.mp ha]
      trivial
  | goOn hi now => exact ok_goOn h hi now
  | finish hstage hadding hend hreg =>
    rw [List.append_nil]
    have hstory := h.story
    rw [hstage] at hstory
    exact ok_of_ending hstory hadding hend
  | look hstage hend hreg =>
    rw [List.append_nil]
    exact ok_of_ending (announced_of_ending h (by rw [hstage]; trivial))
      (adding_eq_nil h (by simp [hstage])) hend
  | remove hstage =>
    rw [List.append_nil]
    exact ok_of_ending (announced_of_ending h (by rw [hstage]; trivial))
      (adding_eq_nil h (by simp [hstage]))
      trivial
  | report hstage =>
    have hannounced := announced_of_ending h (by rw [hstage]; trivial)
    have hadding : t.adding = [] := adding_eq_nil h (by simp [hstage])
    exact ⟨⟨log, hannounced, rfl⟩, h.adding, fun hne => absurd hadding hne⟩

/-- The transfers are numbered in order, each is registered and reported as its stage says, and
nothing is told of any other. -/
structure Inv (r : Registry) : Prop where
  next : r.next = r.transfers.length
  id : ∀ (k : ℕ) (t : Running), r.transfers[k]? = some t → t.id = k + 1
  ok : ∀ (k : ℕ) (t : Running), r.transfers[k]? = some t → t.Ok (r.about t.id)
  known : ∀ e ∈ r.events, ∃ (k : ℕ) (t : Running), r.transfers[k]? = some t ∧ t.id = e.transfer
  listed : ∀ (k : ℕ) (t : Running), r.transfers[k]? = some t → t.stage.Registered →
    r.active.lookup t.id = some t.token
  registered : ∀ id, r.active.lookup id ≠ none →
    ∃ (k : ℕ) (t : Running), r.transfers[k]? = some t ∧ t.id = id ∧ t.stage.Registered
  bounded : r.active.size ≤ maxActiveTransfers

theorem inv_new : Inv {} where
  next := rfl
  id := by simp
  ok := by simp
  known := by simp
  listed := by simp
  registered := by simp
  bounded := by simp [Table.size, Table.empty]

theorem about_of_events (h : r'.events = r.events) (id : ℕ) : r'.about id = r.about id := by
  rw [about, about, h]

theorem Inv.aside (h : Inv r) (next : r'.next = r.next) (active : r'.active = r.active)
    (transfers : r'.transfers = r.transfers) (events : r'.events = r.events) : Inv r' where
  next := by rw [next, transfers, h.next]
  id := by
    rw [transfers]
    exact h.id
  ok := by
    intro k t hk
    rw [transfers] at hk
    rw [about_of_events events]
    exact h.ok k t hk
  known := by
    rw [transfers, events]
    exact h.known
  listed := by
    rw [transfers, active]
    exact h.listed
  registered := by
    rw [transfers, active]
    exact h.registered
  bounded := by
    rw [active]
    exact h.bounded

theorem getElem?_register (h : (r.transfers ++ [t'])[k]? = some t) :
    r.transfers[k]? = some t ∨ (k = r.transfers.length ∧ t = t') := by
  rcases Nat.lt_or_ge k r.transfers.length with hk | hk
  · rw [List.getElem?_append_left hk] at h
    exact Or.inl h
  · rw [List.getElem?_append_right hk, List.getElem?_singleton] at h
    split_ifs at h with hz
    exact Or.inr ⟨by omega, (Option.some.inj h).symm⟩

theorem Inv.about_fresh (h : Inv r) {id : ℕ} (hid : r.transfers.length < id) : r.about id = [] := by
  refine List.filter_eq_nil_iff.mpr fun e he => ?_
  obtain ⟨k, t, hk, hidk⟩ := h.known e he
  have hlt := (List.getElem?_eq_some_iff.mp hk).1
  have hidt := h.id k t hk
  simp only [decide_eq_true_eq]
  omega

theorem Inv.register (h : Inv r) {b : Begin} {token : ℕ} (room : r.active.size < maxActiveTransfers)
    (next : r'.next = r.transfers.length + 1)
    (active : r'.active = r.active.set (r.transfers.length + 1) token)
    (transfers : r'.transfers = r.transfers ++
      [{ id := r.transfers.length + 1, begin := b, token }]) (events : r'.events = r.events) :
      Inv r' where
  next := by rw [next, transfers, List.length_append, List.length_singleton]
  id := by
    intro k t hk
    rw [transfers] at hk
    obtain hk | ⟨rfl, rfl⟩ := getElem?_register hk
    · exact h.id k t hk
    · rfl
  ok := by
    intro k t hk
    rw [transfers] at hk
    rw [about_of_events events]
    obtain hk | ⟨rfl, rfl⟩ := getElem?_register hk
    · exact h.ok k t hk
    · exact ⟨h.about_fresh (Nat.lt_succ_self _), nofun, fun hne => absurd rfl hne⟩
  known := by
    intro e he
    rw [events] at he
    obtain ⟨k, t, hk, hid⟩ := h.known e he
    refine ⟨k, t, ?_, hid⟩
    rw [transfers, List.getElem?_append_left (List.getElem?_eq_some_iff.mp hk).1]
    exact hk
  listed := by
    intro k t hk hreg
    rw [transfers] at hk
    rw [active, Table.lookup_set]
    obtain hk | ⟨rfl, rfl⟩ := getElem?_register hk
    · have hlt := (List.getElem?_eq_some_iff.mp hk).1
      rw [if_neg (by rw [h.id k t hk]; omega)]
      exact h.listed k t hk hreg
    · exact if_pos rfl
  registered := by
    intro id hid
    rw [active, Table.lookup_set] at hid
    rw [transfers]
    split_ifs at hid with heq
    · exact ⟨r.transfers.length, ⟨r.transfers.length + 1, b, token, 0, {}, [],
        .registered⟩, by simp, heq.symm, trivial⟩
    · obtain ⟨k, t, hk, hidt, hreg⟩ := h.registered id hid
      refine ⟨k, t, ?_, hidt, hreg⟩
      rw [List.getElem?_append_left (List.getElem?_eq_some_iff.mp hk).1]
      exact hk
  bounded := by
    rw [active]
    exact Table.size_set_le.trans room

theorem getElem?_put {j : ℕ} {u : Running} (hk : r.transfers[k]? = some t) :
    (r.transfers.set k t')[j]? = some u ↔ (j = k ∧ u = t') ∨
    (j ≠ k ∧ r.transfers[j]? = some u) := by
  have hlt := (List.getElem?_eq_some_iff.mp hk).1
  rw [List.getElem?_set]
  by_cases hj : k = j
  · subst hj
    simp [hlt, eq_comm]
  · simp [hj, Ne.symm hj]

theorem getElem?_put_self (hk : r.transfers[k]? = some t) (t' : Running) :
    (r.put k t').transfers[k]? = some t' :=
  (getElem?_put hk).mpr (Or.inl ⟨rfl, rfl⟩)

theorem getElem?_put_ne {j : ℕ} {u : Running} (hne : j ≠ k) (hj : r.transfers[j]? = some u)
    (t' : Running) : (r.put k t').transfers[j]? = some u :=
  (List.getElem?_set_ne hne.symm).trans hj

theorem about_move (events : r'.events = r.events ++ es) (hes : ∀ e ∈ es, e.transfer = t.id)
    (id : ℕ) : r'.about id = r.about id ++ if id = t.id then es else [] := by
  rw [about, about, events, List.filter_append]
  congr 1
  split_ifs with hid
  · exact List.filter_eq_self.mpr fun e he => decide_eq_true ((hes e he).trans hid.symm)
  · refine List.filter_eq_nil_iff.mpr fun e he heq => hid ?_
    rw [← of_decide_eq_true heq, hes e he]

theorem Inv.id_ne (h : Inv r) {j : ℕ} {u : Running} (hk : r.transfers[k]? = some t)
    (hj : r.transfers[j]? = some u) (hne : j ≠ k) : u.id ≠ t.id := by
  rw [h.id k t hk, h.id j u hj]
  omega

theorem Inv.move (h : Inv r) (hk : r.transfers[k]? = some t) (hm : Move t t' es)
    (next : r'.next = r.next) (transfers : r'.transfers = r.transfers.set k t')
    (events : r'.events = r.events ++ es)
    (active : (r'.active = r.active ∧ (t'.stage.Registered ↔ t.stage.Registered)) ∨
      (r'.active = r.active.remove t.id ∧ ¬ t'.stage.Registered)) : Inv r' where
  next := by rw [next, transfers, List.length_set, h.next]
  id := by
    intro j u hj
    rw [transfers] at hj
    obtain ⟨rfl, rfl⟩ | ⟨-, hj⟩ := (getElem?_put hk).mp hj
    · rw [hm.same.1]
      exact h.id j t hk
    · exact h.id j u hj
  ok := by
    intro j u hj
    rw [transfers] at hj
    rw [about_move events hm.about]
    obtain ⟨rfl, rfl⟩ | ⟨hne, hj⟩ := (getElem?_put hk).mp hj
    · rw [if_pos hm.same.1, hm.same.1]
      exact hm.ok (h.ok j t hk)
    · rw [if_neg (h.id_ne hk hj hne), List.append_nil]
      exact h.ok j u hj
  known := by
    intro e he
    rw [events] at he
    rw [transfers]
    rcases List.mem_append.mp he with he | he
    · obtain ⟨j, u, hj, hid⟩ := h.known e he
      by_cases hne : j = k
      · subst hne
        obtain rfl := Option.some.inj (hj.symm.trans hk)
        exact ⟨j, t', getElem?_put_self hk t', hm.same.1.trans hid⟩
      · exact ⟨j, u, getElem?_put_ne hne hj t', hid⟩
    · exact ⟨k, t', getElem?_put_self hk t', hm.same.1.trans (hm.about e he).symm⟩
  listed := by
    intro j u hj hreg
    rw [transfers] at hj
    obtain ⟨rfl, rfl⟩ | ⟨hne, hj⟩ := (getElem?_put hk).mp hj
    · obtain ⟨hactive, hiff⟩ | ⟨-, hnot⟩ := active
      · rw [hactive, hm.same.1, hm.same.2.2]
        exact h.listed j t hk (hiff.mp hreg)
      · exact absurd hreg hnot
    · have hlookup := h.listed j u hj hreg
      obtain ⟨hactive, -⟩ | ⟨hactive, -⟩ := active
      · rwa [hactive]
      · rwa [hactive, Table.lookup_remove, if_neg (h.id_ne hk hj hne)]
  registered := by
    intro id hid
    have hold : r.active.lookup id ≠ none ∧
        (id = t.id → (t'.stage.Registered ↔ t.stage.Registered)) := by
      obtain ⟨hactive, hiff⟩ | ⟨hactive, -⟩ := active
      · rw [hactive] at hid
        exact ⟨hid, fun _ => hiff⟩
      · rw [hactive, Table.lookup_remove] at hid
        split_ifs at hid with heq
        · exact absurd rfl hid
        · exact ⟨hid, fun h => absurd h heq⟩
    obtain ⟨j, u, hj, rfl, hreg⟩ := h.registered id hold.1
    rw [transfers]
    by_cases hne : j = k
    · subst hne
      obtain rfl := Option.some.inj (hj.symm.trans hk)
      exact ⟨j, t', getElem?_put_self hk t', hm.same.1, (hold.2 rfl).mpr hreg⟩
    · exact ⟨j, u, getElem?_put_ne hne hj t', rfl, hreg⟩
  bounded := by
    obtain ⟨hactive, -⟩ | ⟨hactive, -⟩ := active
    · rw [hactive]
      exact h.bounded
    · rw [hactive]
      exact Table.size_remove_le.trans h.bounded

theorem length_of_effect (h : Effect r r') : r.transfers.length ≤ r'.transfers.length := by
  cases h with
  | aside _ _ transfers _ => rw [transfers]
  | register b token _ _ _ _ transfers _ => simp [transfers]
  | move k t t' es _ _ _ transfers _ _ => rw [transfers, List.length_set]

theorem Inv.step (h : Inv r) (hs : step r a = some r') (hfew : r'.transfers.length < 2 ^ 64) :
    Inv r' := by
  cases effect_of_step hs with
  | aside next active transfers events => exact h.aside next active transfers events
  | register b token _ room next active transfers events =>
    have hid : nextId r.next = r.transfers.length + 1 := by
      rw [transfers, List.length_append, List.length_singleton] at hfew
      rw [nextId, h.next, if_pos hfew]
    rw [hid] at next active transfers
    exact h.register room next active transfers events
  | move k t t' es hk hm next transfers events active =>
    exact h.move hk hm next transfers events active

theorem inv_run {acts : List Act} (h : exec Registry.step {} acts = some r)
    (hfew : r.transfers.length < 2 ^ 64) : Inv r := by
  refine exec_invariant (I := fun r => r.transfers.length < 2 ^ 64 →
    Inv r) ?_ (fun _ => inv_new) h hfew
  intro s a s' hs hstep hlt
  exact (hs ((length_of_effect (effect_of_step hstep)).trans_lt hlt)).step hstep hlt

/-- The tokens that are held are there, and cancelled with the shutdown token. -/
structure Shut (r : Registry) : Prop where
  all : r.shutdown = true → ∀ b ∈ r.tokens, b = true
  opening : ∀ p ∈ r.opening, p.2 < r.tokens.length
  token : ∀ t ∈ r.transfers, t.token < r.tokens.length

theorem shut_new : Shut {} := ⟨by simp, by simp, by simp⟩

theorem Shut.cancelToken (r : Registry) (token : ℕ) (h : Shut r) : Shut (r.cancelToken token) where
  all := by
    intro hs b hb
    rcases List.mem_or_eq_of_mem_set hb with hb | rfl
    · exact h.all hs b hb
    · rfl
  opening := fun p hp => (h.opening p hp).trans_eq List.length_set.symm
  token := fun t ht => (h.token t ht).trans_eq List.length_set.symm

theorem Shut.put (h : Shut r) (hk : r.transfers[k]? = some t) (htoken : t'.token = t.token) :
    Shut (r.put k t') where
  all := h.all
  opening := h.opening
  token := by
    intro u hu
    rcases List.mem_or_eq_of_mem_set hu with hu | rfl
    · exact h.token u hu
    · rw [htoken]
      exact h.token t (List.mem_of_getElem? hk)

theorem Shut.begin (h : Shut r) (b : Begin) :
    Shut { r with
      tokens := r.tokens ++ [r.shutdown], opening := r.opening ++ [(b, r.tokens.length)] } where
  all := by
    intro hs c hc
    rcases List.mem_append.mp hc with hc | hc
    · exact h.all hs c hc
    · exact (List.mem_singleton.mp hc).trans hs
  opening := by
    intro p hp
    rw [List.length_append, List.length_singleton]
    rcases List.mem_append.mp hp with hp | hp
    · exact (h.opening p hp).trans (Nat.lt_succ_self _)
    · rw [List.mem_singleton.mp hp]
      exact Nat.lt_succ_self _
  token := by
    intro t ht
    rw [List.length_append, List.length_singleton]
    exact (h.token t ht).trans (Nat.lt_succ_self _)

theorem Shut.register (h : Shut r) {b : Begin} {token : ℕ} (htoken : token < r.tokens.length) :
    Shut (r.register b token) := by
  unfold Registry.register
  split_ifs
  · exact h
  · refine ⟨h.all, h.opening, fun t ht => ?_⟩
    rcases List.mem_append.mp ht with ht | ht
    · exact h.token t ht
    · rw [List.mem_singleton.mp ht]
      exact htoken

theorem Shut.cancelShutdown (h : Shut r) : Shut r.cancelShutdown where
  all := by
    intro _ b hb
    obtain ⟨_, _, rfl⟩ := List.mem_map.mp hb
    rfl
  opening := fun p hp => (h.opening p hp).trans_eq (List.length_map _).symm
  token := fun t ht => (h.token t ht).trans_eq (List.length_map _).symm

theorem Shut.runStage (h : Shut r) (hk : r.transfers[k]? = some t) {stage : Stage}
    (hs : r.runStage k t stage = some r') : Shut r' := by
  have hput : ∀ stage : Stage, Shut (r.put k { t with stage }) := fun stage => h.put hk rfl
  cases stage with
  | failing e again =>
    unfold Registry.runStage at hs
    dsimp only at hs
    split_ifs at hs <;> exact Option.some.inj hs ▸ hput _
  | registered | ending | removed =>
    obtain rfl := Option.some.inj hs
    exact ⟨h.all, h.opening, (hput _).token⟩
  | handed | ended => cases hs

theorem Shut.step (h : Shut r) (hs : step r a = some r') : Shut r' := by
  cases a with
  | begin b => exact Option.some.inj hs ▸ h.begin b
  | register i =>
    obtain ⟨⟨b, token⟩, hb, rfl⟩ := Option.map_eq_some_iff.mp hs
    have hrest : Shut { r with opening := r.opening.eraseIdx i } :=
      ⟨h.all, fun p hp => h.opening p (List.mem_of_mem_eraseIdx hp), h.token⟩
    exact hrest.register (h.opening _ (List.mem_of_getElem? hb))
  | cancel id => exact Option.some.inj hs ▸ cancel_fst_of Shut.cancelToken h id
  | cancelToken token => exact Option.some.inj hs ▸ h.cancelToken r token
  | addProgress k n =>
    obtain ⟨t, ht, rfl⟩ := Option.map_eq_some_iff.mp hs
    split_ifs
    · exact h
    · exact h.put (Option.filter_eq_some_iff.mp ht).1 rfl
  | goOn k i now =>
    obtain ⟨t, hk, hs⟩ := Option.bind_eq_some_iff.mp hs
    obtain ⟨x, hi, rfl⟩ := Option.map_eq_some_iff.mp hs
    have hput := h.put hk (Move.goOn hi now).same.2.2
    dsimp only
    cases (t.add now x).2.2 with
    | none => exact hput
    | some e => exact ⟨hput.all, hput.opening, hput.token⟩
  | finish k outcome saved =>
    obtain ⟨t, hk, rfl⟩ := Option.map_eq_some_iff.mp hs
    exact h.put (owned_eq_some hk).1 rfl
  | finishWith k result =>
    obtain ⟨t, hk, rfl⟩ := Option.map_eq_some_iff.mp hs
    exact h.put (owned_eq_some hk).1 rfl
  | drop k =>
    obtain ⟨t, hk, rfl⟩ := Option.map_eq_some_iff.mp hs
    exact (h.cancelToken r t.token).put (owned_eq_some hk).1 rfl
  | run k =>
    obtain ⟨t, hk, hs⟩ := Option.bind_eq_some_iff.mp hs
    exact h.runStage hk hs
  | shutDown =>
    obtain rfl := Option.some.inj hs
    exact ⟨h.cancelShutdown.all, h.cancelShutdown.opening, h.cancelShutdown.token⟩
  | cancelAll =>
    unfold Registry.step at hs
    split_ifs at hs
    obtain rfl := Option.some.inj hs
    have hall : Shut r.cancelAll := cancelAll_of Shut.cancelToken h
    exact ⟨hall.all, hall.opening, hall.token⟩

theorem Shut.isCancelled (h : Shut r) (hshut : r.shutdown = true) (ht : t ∈ r.transfers) :
    r.isCancelled t.token = true := by
  rw [Registry.isCancelled, List.getElem?_eq_getElem (h.token t ht), Option.getD_some]
  exact h.all hshut _ (List.getElem_mem _)

/-- The call that ends the transfer comes to its report, if it goes on. -/
def Ends (r : Registry) (k id : ℕ) : Prop :=
  ∃ n r' outcome saved, exec step r (List.replicate n (.run k)) = some r' ∧
    .finished id outcome saved ∈ r'.events

theorem Ends.run {id : ℕ} (h : Ends r' k id) (hs : step r (.run k) = some r') : Ends r k id := by
  obtain ⟨n, r'', outcome, saved, hrun, hmem⟩ := h
  exact ⟨n + 1, r'', outcome, saved, exec_cons_eq_some.mpr ⟨r', hs, hrun⟩, hmem⟩

theorem step_run (hk : r.transfers[k]? = some t) : step r (.run k) = r.runStage k t t.stage := by
  rw [step, hk]
  rfl

theorem ends_of_removed (hk : r.transfers[k]? = some t) {outcome : Outcome} {saved : List Str}
    (hstage : t.stage = .removed outcome saved) : Ends r k t.id := by
  have hs := step_run hk
  rw [hstage] at hs
  exact ⟨1, _, outcome, saved, exec_cons_eq_some.mpr ⟨_, hs, rfl⟩,
    List.mem_append_right _ List.mem_cons_self⟩

theorem ends_of_ending (hk : r.transfers[k]? = some t) {outcome : Outcome} {saved : List Str}
    (hstage : t.stage = .ending outcome saved) : Ends r k t.id := by
  have hs := step_run hk
  rw [hstage] at hs
  have hput := getElem?_put_self hk { t with stage := .removed outcome saved }
  have hends : Ends { r.put k _ with active := r.active.remove t.id } k t.id :=
    ends_of_removed (t := { t with stage := .removed outcome saved }) hput rfl
  exact hends.run hs

theorem ends_of_put (hk : r.transfers[k]? = some t) {outcome : Outcome} {saved : List Str} :
    Ends (r.put k { t with stage := .ending outcome saved }) k t.id :=
  ends_of_ending (t := { t with stage := .ending outcome saved }) (getElem?_put_self hk _) rfl

theorem ends_of_failing_again (hk : r.transfers[k]? = some t) {e : ErrorInfo}
    (hstage : t.stage = .failing e true) : Ends r k t.id := by
  have hs := step_run hk
  rw [hstage, runStage, if_pos rfl] at hs
  split_ifs at hs
  · exact (ends_of_put hk).run hs
  · exact (ends_of_put hk).run hs

theorem ends_of_failing (hk : r.transfers[k]? = some t) {e : ErrorInfo} {again : Bool}
    (hstage : t.stage = .failing e again) : Ends r k t.id := by
  cases again with
  | true => exact ends_of_failing_again hk hstage
  | false =>
    have hs := step_run hk
    rw [hstage, runStage, if_neg Bool.false_ne_true] at hs
    split_ifs at hs
    · exact (ends_of_put hk).run hs
    · have hput := getElem?_put_self hk { t with stage := .failing e true }
      exact (ends_of_failing_again (t := { t with stage := .failing e true }) hput rfl).run hs

theorem ends_of_stage (hk : r.transfers[k]? = some t) (hend : t.stage.Ending) : Ends r k t.id := by
  cases hstage : t.stage with
  | failing e again => exact ends_of_failing hk hstage
  | ending outcome saved => exact ends_of_ending hk hstage
  | removed outcome saved => exact ends_of_removed hk hstage
  | registered | handed | ended =>
    rw [hstage] at hend
    exact hend.elim

structure Kept (r : Registry) : Prop where
  bounded : r.active.size ≤ maxActiveTransfers
  distinct : (r.transfers.map (·.id)).Nodup
  -- A transfer can be cancelled from its registration to its end.
  cancel : ∀ id, (r.cancel id).2 = true ↔ ∃ t ∈ r.transfers, t.id = id ∧ t.stage.Registered
  -- It is announced, its progress is reported within the total, and then its end, once.
  story : ∀ t ∈ r.transfers, t.Story (r.about t.id) t.stage
  known : ∀ e ∈ r.events, ∃ t ∈ r.transfers, t.id = e.transfer
  -- Its end is reported, once its handle is finished or dropped.
  ends : ∀ (k : ℕ) (t : Running), r.transfers[k]? = some t → t.stage.Ending → r.Ends k t.id
  shutdown : r.shutdown = true → ∀ t ∈ r.transfers, r.isCancelled t.token = true

theorem Inv.nodup (h : Inv r) : (r.transfers.map (·.id)).Nodup := by
  rw [List.nodup_iff_getElem?_ne_getElem?]
  intro i j hij hj heq
  rw [List.length_map] at hj
  rw [List.getElem?_map, List.getElem?_map, List.getElem?_eq_getElem (hij.trans hj),
    List.getElem?_eq_getElem hj] at heq
  have hi := h.id i _ (List.getElem?_eq_getElem (hij.trans hj))
  have hj := h.id j _ (List.getElem?_eq_getElem hj)
  have hid : r.transfers[i].id = r.transfers[j].id := Option.some.inj heq
  omega

theorem Inv.cancel_iff (h : Inv r) (id : ℕ) :
    (r.cancel id).2 = true ↔ ∃ t ∈ r.transfers, t.id = id ∧ t.stage.Registered := by
  have hiff : (r.cancel id).2 = true ↔ r.active.lookup id ≠ none := by
    unfold Registry.cancel
    split <;> simp [*]
  rw [hiff]
  constructor
  · intro hid
    obtain ⟨k, t, hk, hidt, hreg⟩ := h.registered id hid
    exact ⟨t, List.mem_of_getElem? hk, hidt, hreg⟩
  · rintro ⟨t, ht, rfl, hreg⟩
    obtain ⟨k, hk⟩ := List.getElem?_of_mem ht
    rw [h.listed k t hk hreg]
    exact Option.some_ne_none _

/-- Whatever the tasks do, in any order, the registry is kept. -/
theorem registry_kept (acts : List Act) (r : Registry) (hrun : exec step {} acts = some r)
    (hfew : r.transfers.length < 2 ^ 64) : Kept r := by
  have h := inv_run hrun hfew
  have hshut : Shut r := exec_invariant (fun _ _ _ => Shut.step) shut_new hrun
  refine ⟨h.bounded, h.nodup, h.cancel_iff, fun t ht => ?_, fun e he => ?_,
    fun k t => ends_of_stage, ?_⟩
  · obtain ⟨k, hk⟩ := List.getElem?_of_mem ht
    exact (h.ok k t hk).story
  · obtain ⟨k, t, hk, hid⟩ := h.known e he
    exact ⟨t, List.mem_of_getElem? hk, hid⟩
  · exact fun hs t => hshut.isCancelled hs

def oneByte : Begin := ⟨.incoming, .localSend, "Alice".toList, [⟨['a'], 1⟩], 1⟩

/-- Two transfers at once: the one is received and done, the other is begun while the engine
stops. -/
def stopped : List Act :=
  [.begin oneByte, .register 0, .run 0, .addProgress 0 1, .begin oneByte, .goOn 0 0 9,
    .shutDown, .goOn 0 0 9, .register 0, .goOn 0 0 9, .finish 0 .done [['a']], .run 0, .run 1,
    .run 0, .cancelAll, .drop 1, .run 1, .run 1]

theorem registry_kept_stopped : ∃ r, exec step {} stopped = some r ∧ Kept r ∧ r.shutdown = true ∧
    r.about 1 = [.started (oneByte.view 1), .progress 1 1 1, .finished 1 .done [['a']]] ∧
    r.about 2 = [.started (oneByte.view 2), .finished 2 (.failed abandoned) []] := by
  obtain ⟨r, hr⟩ : ∃ r, exec step {} stopped = some r :=
    Option.isSome_iff_exists.mp (by decide +kernel)
  have hall : (exec step {} stopped).all fun r => r.transfers.length = 2 ∧ r.shutdown = true ∧
      r.about 1 = [.started (oneByte.view 1), .progress 1 1 1, .finished 1 .done [['a']]] ∧
      r.about 2 = [.started (oneByte.view 2), .finished 2 (.failed abandoned) []] := by
      decide +kernel
  rw [hr] at hall
  obtain ⟨hlength, htold⟩ := of_decide_eq_true hall
  exact ⟨r, hr, registry_kept stopped r hr (by rw [hlength]; decide), htold⟩

end Registry

end Sukkula.Transfer
