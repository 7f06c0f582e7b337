import Sukkula.Library.Transition
import Sukkula.LocalSend.Moves

/-! # One session at a time

The slot is held by one offer or one session at most, and every session is the
one its request's answer named. So a body is streamed only for the party whose
offer the user accepted, with the token of a file that is still to come.
-/

namespace Sukkula.LocalSend

open Str Offer Transition

theorem rawOffer_ids_nodup (dto : PrepareUpload) : (rawOffer dto).2.Nodup := by
  unfold rawOffer
  split
  · exact List.nodup_nil
  · exact ((List.perm_insertionSort _ _).map Prod.fst).nodup_iff.mpr dto.keys

theorem rawOffer_length (dto : PrepareUpload) :
    (rawOffer dto).2.length = (rawOffer dto).1.files.length := by
  unfold rawOffer
  split <;> simp

theorem accepted_ids_nodup {dto : PrepareUpload} {offer : Offer}
    (h : validate (rawOffer dto).1 = .ok offer) :
    (((rawOffer dto).2.zip offer.files).map Prod.fst).Nodup := by
  have hlen : (rawOffer dto).2.length ≤ offer.files.length :=
    (rawOffer_length dto).trans (length_files_of_validate h).symm |>.le
  rw [List.map_fst_zip hlen]
  exact rawOffer_ids_nodup dto

theorem issue_eq_some {l : List (Str × OfferFile)} {draws : List Str}
    {table : List (Str × SessionFile)} {sessionId : Str}
    (h : issue l draws = some (table, sessionId)) :
    table.map (fun e => (e.1, e.2.file)) = l ∧ ∀ e ∈ table, e.2.state = .pending := by
  induction l generalizing draws table with
  | nil =>
    obtain ⟨d, -, hd⟩ := Option.map_eq_some_iff.mp h
    obtain ⟨rfl, -⟩ := Prod.mk.inj hd
    simp
  | cons e l ih =>
    cases draws with
    | nil => cases h
    | cons token draws =>
      obtain ⟨⟨table', sid⟩, hi, ht⟩ := Option.map_eq_some_iff.mp h
      obtain ⟨rfl, rfl⟩ := Prod.mk.inj ht
      obtain ⟨hmap, hpend⟩ := ih hi
      constructor
      · simp [hmap]
      · exact List.forall_mem_cons.mpr ⟨rfl, hpend⟩

def Session.Freed (x : Session) : Prop :=
  x.phase = .released ∨ ∃ o saved, x.phase = .finished o saved

theorem Session.Step.freed_iff {x x' : Session} (h : x.Step x') : x'.Freed ↔ x.Freed := by
  cases h with
  | refuse => rfl
  | _ => simp_all [Session.Freed]

namespace Server

variable {s s' : Server}

/-- What is true of the server at every point. -/
structure Inv (s : Server) : Prop where
  guards : ∀ t g, (s.prep t).guard = some g ↔ ∃ p, s.slot = .pending g p t
  live : ∀ i, (∃ x, s.session i = some x ∧ ¬ x.Freed) ↔ ∃ id p, s.slot = .active id p i
  active : ∀ id p i, s.slot = .active id p i → ∃ x, s.session i = some x ∧ x.id = id ∧ x.sender = p
  sane : ∀ i x, s.session i = some x → x.Sane
  origin : ∀ i x, s.session i = some x → ∃ o, s.accepted i = some o ∧ x.sender = o.sender ∧
    x.issued.map (fun e => (e.1, e.2.1)) = o.files ∧
    s.prep i = .replied ⟨.ok, some (x.id, x.issued.map fun e => (e.1, e.2.2))⟩
  accepted : ∀ t c g table id, s.prep t = .accepted c g table id → ∃ o, s.accepted t = some o ∧
    c = o.sender ∧ table.map (fun e => (e.1, e.2.file)) = o.files ∧
    (table.map Prod.fst).Nodup ∧ ∀ e ∈ table, e.2.state = .pending
  sending : ∀ t q i, s.upl t = .sending q i → ∃ x, s.session i = some x ∧ x.sender = q.caller ∧
    x.id = q.sessionId

namespace Inv

theorem new (accepting : Bool) : (Server.new accepting).Inv where
  guards := by simp [Server.new, Prep.guard]
  live := by simp [Server.new]
  active := by simp [Server.new]
  sane := by simp [Server.new]
  origin := by simp [Server.new]
  accepted := by simp [Server.new]
  sending := by simp [Server.new]

theorem origin_setPrep (h : s.Inv) {t : ℕ} {p : Prep} (ht : ∀ r, s.prep t ≠ .replied r)
    (i : ℕ) (x : Session) (hx : s.session i = some x) : ∃ o, s.accepted i = some o ∧
      x.sender = o.sender ∧ x.issued.map (fun e => (e.1, e.2.1)) = o.files ∧
      (s.setPrep t p).prep i = .replied ⟨.ok, some (x.id, x.issued.map fun e => (e.1, e.2.2))⟩ := by
  obtain ⟨o, ho, hs, hf, hp⟩ := h.origin i x hx
  refine ⟨o, ho, hs, hf, ?_⟩
  have hne : i ≠ t := by
    rintro rfl
    exact ht _ hp
  exact update_ne hne hp

theorem session_eq_none (h : s.Inv) {t : ℕ} (ht : ∀ r, s.prep t ≠ .replied r) :
    s.session t = none := by
  by_contra hne
  obtain ⟨x, hx⟩ := Option.ne_none_iff_exists'.mp hne
  obtain ⟨o, -, -, -, hp⟩ := h.origin t x hx
  exact ht _ hp

theorem accepted_setPrep (h : s.Inv) {t : ℕ} {p : Prep}
    (hp : ∀ c g table id, p ≠ .accepted c g table id) (t' : ℕ) (c : Party) (g : ℕ)
    (table : List (Str × SessionFile)) (id : Str)
    (ht : (s.setPrep t p).prep t' = .accepted c g table id) : ∃ o, s.accepted t' = some o ∧
      c = o.sender ∧ table.map (fun e => (e.1, e.2.file)) = o.files ∧
      (table.map Prod.fst).Nodup ∧ ∀ e ∈ table, e.2.state = .pending := by
  rcases update_cases ht with ⟨-, he⟩ | ⟨-, ht⟩
  · exact absurd he.symm (hp _ _ _ _)
  · exact h.accepted t' c g table id ht

theorem guards_setPrep (h : s.Inv) {t : ℕ} {p : Prep} (hp : p.guard = (s.prep t).guard) (t' g : ℕ) :
    ((s.setPrep t p).prep t').guard = some g ↔ ∃ p, s.slot = .pending g p t' := by
  rw [← h.guards t' g]
  by_cases hne : t' = t
  · subst hne
    simp [setPrep, hp]
  · simp [setPrep, Function.update_of_ne hne]

/-- A session may change as long as its id, its sender and its files do not. -/
theorem setSession (h : s.Inv) {i : ℕ} {x x' : Session} (hx : s.session i = some x)
    (hfix : x'.id = x.id ∧ x'.sender = x.sender ∧ x'.issued = x.issued) (hs : x'.Sane)
    (hfreed : x'.Freed ↔ x.Freed) : (s.setSession i x').Inv where
  guards := h.guards
  live j := by
    refine Iff.trans ?_ (h.live j)
    by_cases hj : j = i
    · subst hj
      simp [Server.setSession, hx, hfreed]
    · simp [Server.setSession, Function.update_of_ne hj]
  active id p j hsl := by
    obtain ⟨y, hy, hid, hp⟩ := h.active id p j hsl
    by_cases hj : j = i
    · subst hj
      obtain rfl := Option.some.inj (hy.symm.trans hx)
      exact ⟨x', update_self, hfix.1.trans hid, hfix.2.1.trans hp⟩
    · exact ⟨y, update_ne hj hy, hid, hp⟩
  sane j y hy := by
    rcases update_cases hy with ⟨-, he⟩ | ⟨-, hy⟩
    · obtain rfl := Option.some.inj he
      exact hs
    · exact h.sane j y hy
  origin j y hy := by
    rcases update_cases hy with ⟨rfl, he⟩ | ⟨-, hy⟩
    · obtain rfl := Option.some.inj he
      rw [hfix.1, hfix.2.1, hfix.2.2]
      exact h.origin j x hx
    · exact h.origin j y hy
  accepted := h.accepted
  sending t q j hq := by
    obtain ⟨y, hy, hp, hid⟩ := h.sending t q j hq
    by_cases hj : j = i
    · subst hj
      obtain rfl := Option.some.inj (hy.symm.trans hx)
      exact ⟨x', update_self, hfix.2.1.trans hp, hfix.1.trans hid⟩
    · exact ⟨y, update_ne hj hy, hp, hid⟩

/-- The upload requests may change as long as none gets a queue that is not its session's. -/
theorem setUpl (h : s.Inv) {f : ℕ → Upl} (hf : ∀ t q i, f t = .sending q i →
    s.upl t = .sending q i ∨ s.slot = .active q.sessionId q.caller i) :
    ({ s with upl := f } : Server).Inv :=
  { h with
    sending := fun t q i hq => by
      rcases hf t q i hq with hu | hsl
      · exact h.sending t q i hu
      · obtain ⟨x, hx, hid, hp⟩ := h.active _ _ _ hsl
        exact ⟨x, hx, hp, hid⟩ }

theorem setFlags (h : s.Inv) {accepting closing : Bool} {freeing : Option Freeing}
    {draining : Option Bool} {cancels : ℕ → Bool} :
    ({ s with
      accepting := accepting, closing := closing, freeing := freeing, draining := draining
      cancels := cancels } : Server).Inv :=
  { h with }

theorem not_replied {t g : ℕ} (h : (s.prep t).guard = some g) (r : Reply) :
    s.prep t ≠ .replied r := by
  intro he
  rw [he] at h
  cases h

theorem claim (h : s.Inv) {t n : ℕ} {caller : Party} {dto : PrepareUpload}
    (hp : s.prep t = .reading caller) (hs : s.slot = .free) :
    ({ s.setPrep t (.asking caller s.nextPending dto) with
        slot := .pending s.nextPending caller t, nextPending := n } : Server).Inv where
  guards t' g := by
    by_cases ht : t' = t
    · subst ht
      simp [setPrep, Prep.guard]
    · have hnone : (s.prep t').guard ≠ some g := fun hg => by
        obtain ⟨p, hsl⟩ := (h.guards t' g).mp hg
        rw [hs] at hsl
        cases hsl
      simp [setPrep, Function.update_of_ne ht, hnone, Ne.symm ht]
  live i := by
    have hnone := h.live i
    rw [hs] at hnone
    simpa [setPrep] using hnone
  active := by simp
  sane := h.sane
  origin := h.origin_setPrep (by simp [hp])
  accepted := h.accepted_setPrep (by simp)
  sending := h.sending

theorem accept (h : s.Inv) {t g : ℕ} {caller : Party} {dto : PrepareUpload} {p : Prep}
    {offer : Offer} (hp : s.prep t = .asking caller g dto)
    (hf : validate (rawOffer dto).1 = .ok offer)
    (hnext : (∃ reply, p = .leaving g reply) ∨ ∃ draws table sessionId,
      issue ((rawOffer dto).2.zip offer.files) draws = some (table, sessionId) ∧
        p = .accepted caller g table sessionId) :
    ({ s.setPrep t p with
        accepted := Function.update s.accepted t
          (some ⟨caller, (rawOffer dto).2.zip offer.files⟩) } : Server).Inv where
  guards := h.guards_setPrep (by rcases hnext with ⟨r, rfl⟩ | ⟨_, _, _, -, rfl⟩ <;> rw [hp] <;> rfl)
  live := h.live
  active := h.active
  sane := h.sane
  origin i x hx := by
    have hne : i ≠ t := by
      rintro rfl
      cases (h.session_eq_none (t := i) (by simp [hp])).symm.trans hx
    obtain ⟨o, ho, hrest⟩ := h.origin_setPrep (t := t) (p := p) (by simp [hp]) i x hx
    exact ⟨o, update_ne hne ho, hrest⟩
  accepted t' c g' table id ht := by
    rcases update_cases ht with ⟨rfl, he⟩ | ⟨hne, ht⟩
    · rcases hnext with ⟨r, rfl⟩ | ⟨draws, table', id', hi, rfl⟩
      · cases he
      · cases he
        obtain ⟨hmap, hpend⟩ := issue_eq_some hi
        refine ⟨_, update_self, rfl, hmap, ?_, hpend⟩
        have hids := accepted_ids_nodup hf
        rw [← hmap, List.map_map] at hids
        exact hids
    · obtain ⟨o, ho, hrest⟩ := h.accepted t' c g' table id ht
      exact ⟨o, update_ne hne ho, hrest⟩
  sending := h.sending

theorem activate (h : s.Inv) {t g q : ℕ} {caller sender : Party}
    {table : List (Str × SessionFile)} {id : Str} (hp : s.prep t = .accepted caller g table id)
    (hs : s.slot = .pending g sender q) :
    ({ (s.setPrep t (.replied ⟨.ok, some (id, table.map fun e => (e.1, e.2.token))⟩)) with
        slot := .active id caller t
        session := Function.update s.session t (some (.new id caller table)) } : Server).Inv := by
  obtain ⟨o, ho, hsender, hfiles, hnodup, hpend⟩ := h.accepted t caller g table id hp
  have hnone := h.session_eq_none (t := t) (by simp [hp])
  -- The only guard there is was this request's own.
  have hguard : ∀ t' g', (s.prep t').guard = some g' → t' = t := by
    intro t' g' hg
    obtain ⟨p, hsl⟩ := (h.guards t g).mp (by rw [hp]; rfl)
    obtain ⟨p', hsl'⟩ := (h.guards t' g').mp hg
    exact (Slot.pending.inj (hsl'.symm.trans hsl)).2.2
  have hlive : ∀ i x, s.session i = some x → x.Freed := by
    intro i x hx
    by_contra hf
    obtain ⟨id', p', hsl⟩ := (h.live i).mp ⟨x, hx, hf⟩
    rw [hs] at hsl
    cases hsl
  constructor
  · intro t' g'
    by_cases ht : t' = t
    · subst ht
      simp [setPrep, Prep.guard]
    · have : (s.prep t').guard ≠ some g' := fun hg => ht (hguard t' g' hg)
      simp [setPrep, Function.update_of_ne ht, this]
  · intro i
    by_cases hi : i = t
    · subst hi
      simp [Session.new, Session.Freed]
    · have : ∀ x, s.session i = some x → x.Freed := hlive i
      simpa [Function.update_of_ne hi, Ne.symm hi] using this
  · rintro id' p' i hsl
    obtain ⟨rfl, rfl, rfl⟩ := Slot.active.inj hsl
    exact ⟨_, update_self, rfl, rfl⟩
  · intro i x hx
    rcases update_cases hx with ⟨-, he⟩ | ⟨-, hx⟩
    · obtain rfl := Option.some.inj he
      exact .new hnodup hpend
    · exact h.sane i x hx
  · intro i x hx
    rcases update_cases hx with ⟨rfl, he⟩ | ⟨-, hx⟩
    · obtain rfl := Option.some.inj he
      refine ⟨o, ho, hsender, ?_, ?_⟩
      · simpa [Session.issued, Session.new, Function.comp_def] using hfiles
      · simp [setPrep, Session.issued, Session.new, Function.comp_def]
    · exact h.origin_setPrep (by simp [hp]) i x hx
  · exact h.accepted_setPrep (by simp)
  · intro t' q' i hq
    obtain ⟨x, hx, hrest⟩ := h.sending t' q' i hq
    have hi : i ≠ t := by
      rintro rfl
      rw [hnone] at hx
      cases hx
    exact ⟨x, update_ne hi hx, hrest⟩

theorem guard_afterReply (reply : Option Reply) : (afterReply reply).guard = none := by
  cases reply <;> rfl

theorem drop (h : s.Inv) {t g q : ℕ} {reply : Option Reply} {sender : Party} {f : Option Freeing}
    (hp : s.prep t = .leaving g reply) (hs : s.slot = .pending g sender q) :
    ({ s.setPrep t (afterReply reply) with slot := .free, freeing := f } : Server).Inv where
  guards t' g' := by
    by_cases ht : t' = t
    · subst ht
      simp [setPrep, guard_afterReply]
    · have hnone : (s.prep t').guard ≠ some g' := fun hg => by
        obtain ⟨p, hsl⟩ := (h.guards t g).mp (by rw [hp]; rfl)
        obtain ⟨p', hsl'⟩ := (h.guards t' g').mp hg
        exact ht (Slot.pending.inj (hsl'.symm.trans hsl)).2.2
      simp [setPrep, Function.update_of_ne ht, hnone]
  live i := by
    have hnone := h.live i
    rw [hs] at hnone
    simpa [setPrep] using hnone
  active := by simp
  sane := h.sane
  origin := h.origin_setPrep (by simp [hp])
  accepted := h.accepted_setPrep (by cases reply <;> simp [afterReply])
  sending := h.sending

theorem release (h : s.Inv) {i q : ℕ} {x : Session} {id : Str} {sender : Party} {f : Option Freeing}
    (hx : s.session i = some x) (hp : x.phase = .releasing) (hs : s.slot = .active id sender q) :
    ({ s.setSession i { x with phase := .released } with slot := .free, freeing := f } :
      Server).Inv := by
  -- The session is the one that holds the slot.
  have hlive : ∀ j y, s.session j = some y → ¬ y.Freed → j = i := by
    intro j y hy hf
    obtain ⟨id₁, p₁, hsl₁⟩ := (h.live j).mp ⟨y, hy, hf⟩
    obtain ⟨id₂, p₂, hsl₂⟩ := (h.live i).mp ⟨x, hx, by simp [Session.Freed, hp]⟩
    exact (Slot.active.inj (hsl₁.symm.trans hsl₂)).2.2
  constructor
  · intro t g
    have hnone := h.guards t g
    rw [hs] at hnone
    simpa [Server.setSession] using hnone
  · intro j
    by_cases hj : j = i
    · subst hj
      simp [Server.setSession, Session.Freed]
    · have : ∀ y, s.session j = some y → y.Freed := fun y hy => by
        by_contra hf
        exact hj (hlive j y hy hf)
      simpa [Server.setSession, Function.update_of_ne hj] using this
  · simp
  · intro j y hy
    rcases update_cases hy with ⟨-, he⟩ | ⟨-, hy⟩
    · obtain rfl := Option.some.inj he
      exact (h.sane i x hx).release hp
    · exact h.sane j y hy
  · intro j y hy
    rcases update_cases hy with ⟨rfl, he⟩ | ⟨-, hy⟩
    · obtain rfl := Option.some.inj he
      exact h.origin j x hx
    · exact h.origin j y hy
  · exact h.accepted
  · intro t q' j hq
    obtain ⟨y, hy, hrest⟩ := h.sending t q' j hq
    by_cases hj : j = i
    · subst hj
      obtain rfl := Option.some.inj (hy.symm.trans hx)
      exact ⟨_, update_self, hrest⟩
    · exact ⟨y, update_ne hj hy, hrest⟩

theorem move (h : s.Inv) (hs : Move s s') : s'.Inv := by
  cases hs with
  | settle t p hp hg hr =>
    have hne : ∀ r, s.prep t ≠ .replied r := by
      rintro r he
      rw [he] at hp
      exact hp
    have hnone : (s.prep t).guard = none := by
      cases hc : s.prep t with
      | idle | reading | replied | gone => rfl
      | asking | accepted | leaving =>
        rw [hc] at hp
        exact hp.elim
    exact { h with
      guards := h.guards_setPrep (hg.trans hnone.symm)
      origin := h.origin_setPrep hne
      accepted := h.accepted_setPrep (by rintro c g table id rfl; cases hg) }
  | claim t caller dto hp hf hs => exact h.claim hp hs
  | leave t g reply hg =>
    exact { h with
      guards := h.guards_setPrep hg.symm
      origin := h.origin_setPrep (not_replied hg)
      accepted := h.accepted_setPrep (by simp) }
  | accept t caller g dto offer p hp hf hnext => exact h.accept hp hf hnext
  | activate t caller g table id sender q hp hf hs hc => exact h.activate hp hs
  | drop t g reply sender q hp hf hs => exact h.drop hp hs
  | dropLost t g reply hp hs =>
    -- A guard always finds its offer in the slot.
    obtain ⟨p, hsl⟩ := (h.guards t g).mp (by rw [hp]; rfl)
    exact absurd hsl (hs p t)
  | upl f hf => exact h.setUpl hf
  | enqueue t q i x hu hx =>
    obtain ⟨y, hy, hp, hid⟩ := h.sending t q i hu
    obtain rfl := Option.some.inj (hy.symm.trans hx)
    have hupl : (s.setUpl t .waiting).Inv := h.setUpl fun t' q' j hq => by
      rcases update_cases hq with ⟨-, he⟩ | ⟨-, hq⟩
      · cases he
      · exact Or.inl hq
    exact hupl.setSession hx ⟨rfl, rfl, rfl⟩ ((h.sane i y hx).push ⟨hp.symm, hid.symm⟩) Iff.rfl
  | cancel t => exact h.setFlags
  | cancelSession i x a b hx =>
    exact h.setSession hx ⟨rfl, rfl, rfl⟩ (h.sane i x hx).cancel Iff.rfl
  | session i x x' answers hx hstep =>
    have hses := h.setSession hx hstep.fixed ((h.sane i x hx).step hstep) hstep.freed_iff
    refine hses.setUpl fun t q j hq => Or.inl ?_
    split at hq
    · cases hq
    · exact hq
  | release i x sender q hx hp hf hs => exact h.release hx hp hs
  | releaseLost i x hx hp hs =>
    obtain ⟨id, p, hsl⟩ := (h.live i).mp ⟨x, hx, by simp [Session.Freed, hp]⟩
    obtain ⟨y, hy, rfl, -⟩ := h.active id p i hsl
    obtain rfl := Option.some.inj (hy.symm.trans hx)
    exact absurd hsl (hs p i)
  | stay => exact h

theorem free (h : s.Inv) {d : Bool} (hs : s.free d = some s') : s'.Inv := by
  rcases free_cases hs with ⟨-, rfl⟩ | ⟨-, rfl⟩ | ⟨-, rfl⟩ <;> exact h.setFlags

theorem drain (h : s.Inv) (hs : s.drain = some s') : s'.Inv := by
  obtain ⟨-, -, rfl⟩ := drain_cases hs
  exact h.setFlags

theorem drained (h : s.Inv) {d : Bool} (hs : s.drained d = some s') : s'.Inv := by
  obtain ⟨idle, -, rfl⟩ := drained_cases hs
  exact h.setFlags

theorem resume (h : s.Inv) {ok : Bool} (hs : s.resume = some (s', ok)) : s'.Inv := by
  obtain ⟨-, -, -, rfl⟩ := resume_cases hs
  exact h.setFlags

theorem step (h : s.Inv) {a : Act} (hs : s.step a = some s') : s'.Inv := by
  rcases step_cases hs with hm | ⟨d, -, hf⟩ | ⟨-, hd⟩ | ⟨d, -, hd⟩ | ⟨-, ok, hr⟩
  · exact h.move hm
  · exact h.free hf
  · exact h.drain hd
  · exact h.drained hd
  · exact h.resume hr

theorem of_exec {accepting : Bool} {as : List Act}
    (h : exec Server.step (Server.new accepting) as = some s) : s.Inv :=
  exec_invariant (fun _ _ _ hI hs => hI.step hs) (new accepting) h

end Inv

/-- Who may hold the slot: the offer of a request, or the session made from it. -/
inductive Holder
  | offer (t : ℕ)
  | session (i : ℕ)

/-- It has claimed the slot and not given it back. -/
def Holds (s : Server) : Holder → Prop
  | .offer t => (s.prep t).guard ≠ none
  | .session i => ∃ x, s.session i = some x ∧ ¬ x.Freed

theorem Inv.holds (h : s.Inv) {a : Holder} (ha : s.Holds a) :
    (∃ g p t, s.slot = .pending g p t ∧ a = .offer t) ∨
      ∃ id p i, s.slot = .active id p i ∧ a = .session i := by
  cases a with
  | offer t =>
    obtain ⟨g, hg⟩ := Option.ne_none_iff_exists'.mp ha
    obtain ⟨p, hsl⟩ := (h.guards t g).mp hg
    exact Or.inl ⟨g, p, t, hsl, rfl⟩
  | session i =>
    obtain ⟨id, p, hsl⟩ := (h.live i).mp ha
    exact Or.inr ⟨id, p, i, hsl, rfl⟩

theorem Inv.exclusive (h : s.Inv) {a b : Holder} (ha : s.Holds a) (hb : s.Holds b) : a = b := by
  rcases h.holds ha with ⟨g, p, t, hsl, rfl⟩ | ⟨id, p, i, hsl, rfl⟩ <;>
    rcases h.holds hb with ⟨g', p', t', hsl', rfl⟩ | ⟨id', p', i', hsl', rfl⟩
  · rw [(Slot.pending.inj (hsl.symm.trans hsl')).2.2]
  · cases hsl.symm.trans hsl'
  · cases hsl.symm.trans hsl'
  · rw [(Slot.active.inj (hsl.symm.trans hsl')).2.2]

theorem Inv.mem_files_iff (h : s.Inv) {i : ℕ} {x : Session} {o : Acceptance}
    (hx : s.session i = some x) (ho : s.accepted i = some o) {id : Str} {file : OfferFile} :
    (id, file) ∈ o.files ↔ ∃ e, (id, e) ∈ x.files ∧ e.file = file := by
  obtain ⟨o', ho', -, hfiles, -⟩ := h.origin i x hx
  obtain rfl := Option.some.inj (ho'.symm.trans ho)
  rw [← hfiles, Session.issued, List.map_map]
  simp [Function.comp_def]

theorem Inv.finished (h : s.Inv) {i : ℕ} {x : Session} {o : Acceptance} {out : Outcome}
    {saved : List Str} (hx : s.session i = some x) (ho : s.accepted i = some o)
    (hp : x.phase = .finished out saved) :
    (out = .done ↔ ∀ id ∈ o.files.map Prod.fst, (x.commits.map Commit.id).count id = 1) ∧
      saved = x.commits.map Commit.name := by
  have hsane := h.sane i x hx
  obtain ⟨hsaved, hdone⟩ := hsane.finished out saved hp
  refine ⟨hdone.trans ?_, hsaved⟩
  constructor
  · intro hall id hid
    obtain ⟨⟨id', file⟩, hm, rfl⟩ := List.mem_map.mp hid
    obtain ⟨e, he, -⟩ := (h.mem_files_iff hx ho).mp hm
    exact List.count_eq_one_of_mem hsane.once ((hsane.done_iff _ he).mp (hall _ he))
  · intro hall e he
    have hm := (h.mem_files_iff hx ho).mpr ⟨e.2, he, rfl⟩
    have hcount := hall e.1 (List.mem_map_of_mem hm)
    exact (hsane.done_iff e he).mpr (List.count_pos_iff.mp (by omega))

/-- For every interleaving of requests, answers, cancels and session ends: the slot has one holder
at most, a body is streamed only as the user accepted it, each accepted file is committed at most
once, and a session that ends reports what it committed. -/
theorem streamed_as_accepted {accepting : Bool} {as : List Act}
    (h : exec step (new accepting) as = some s) :
    (∀ a b, s.Holds a → s.Holds b → a = b) ∧
    ∀ i x, s.session i = some x → ∃ o tokens, s.accepted i = some o ∧
      s.prep i = .replied ⟨.ok, some (x.id, tokens)⟩ ∧
      tokens.map Prod.fst = o.files.map Prod.fst ∧ (o.files.map Prod.fst).Nodup ∧
      (∀ u b, x.phase = .receiving u b → s.Holds (.session i) ∧ u.query.caller = o.sender ∧
        u.query.sessionId = x.id ∧ (u.query.fileId, u.query.token) ∈ tokens ∧
        ∃ file, (u.query.fileId, file) ∈ o.files ∧
          x.files.lookup u.query.fileId = some ⟨file, u.query.token, .pending⟩) ∧
      (x.commits.map Commit.id).Nodup ∧ (∀ c ∈ x.commits, (c.id, c.file) ∈ o.files) ∧
      ∀ out saved, x.phase = .finished out saved →
        (out = .done ↔ ∀ id ∈ o.files.map Prod.fst, (x.commits.map Commit.id).count id = 1) ∧
        saved = x.commits.map Commit.name := by
  have hinv := Inv.of_exec h
  refine ⟨fun a b => hinv.exclusive, fun i x hx => ?_⟩
  have hsane := hinv.sane i x hx
  obtain ⟨o, ho, hsender, hfiles, hprep⟩ := hinv.origin i x hx
  have hkeys : o.files.map Prod.fst = x.files.map Prod.fst := by
    rw [← hfiles]
    simp [Session.issued, Function.comp_def]
  refine ⟨o, _, ho, hprep, ?_, ?_, ?_, hsane.once, ?_, fun out saved => hinv.finished hx ho⟩
  · rw [hkeys]
    simp [Session.issued, Function.comp_def]
  · rw [hkeys]
    exact hsane.keys
  · intro u b hp
    obtain ⟨⟨hcaller, hid⟩, e, hl, hpend, htoken⟩ := hsane.receiving u b hp
    have hmem := hsane.mem_iff_lookup.mpr hl
    refine ⟨⟨x, hx, by simp [Session.Freed, hp]⟩, hcaller.trans hsender, hid, ?_, e.file, ?_, ?_⟩
    · refine List.mem_map.mpr ⟨(u.query.fileId, e.file, e.token), ?_, by rw [htoken]⟩
      exact List.mem_map.mpr ⟨_, hmem, rfl⟩
    · exact (hinv.mem_files_iff hx ho).mpr ⟨e, hmem, rfl⟩
    · rw [hl, ← htoken, ← hpend]
  · intro c hc
    obtain ⟨e, he, hf⟩ := hsane.listed c hc
    exact (hinv.mem_files_iff hx ho).mpr ⟨e, he, hf⟩

def oneFile : PrepareUpload where
  senderAlias := ['p']
  deviceModel := none
  https := true
  files := [(['1'], ⟨['a'], 0, ['x', '/', 'y'], none, none⟩)]
  keys := by decide

/-- The offer, the user's answer, the upload and the end of the session. -/
def oneFileRun (p : Party) : List Act :=
  [.prepare 0 p, .claim 0 oneFile, .accept 0 [['t'], ['s']], .activate 0,
    .upload 1 (some ⟨p, ['s'], ['1'], ['t']⟩), .enqueue 1, .session 0 .recv, .session 0 .begin,
    .session 0 (.commit ['a']), .session 0 .loopEnd, .session 0 .close, .release 0,
    .session 0 .finish]

theorem streamed_as_accepted_one :
    ∃ s x, exec step (new true) (oneFileRun ⟨.v4 1, ['f']⟩) = some s ∧ s.session 0 = some x ∧
    x.phase = .finished .done [['a']] ∧ ∃ o, s.accepted 0 = some o ∧
      ∀ id ∈ o.files.map Prod.fst, (x.commits.map Commit.id).count id = 1 := by
  have hrun : ((exec step (new true) (oneFileRun ⟨.v4 1, ['f']⟩)).bind fun s => s.session 0).map
      Session.phase = some (.finished .done [['a']]) := by decide +kernel
  obtain ⟨x, hx, hp⟩ := Option.map_eq_some_iff.mp hrun
  obtain ⟨s, hs, hsx⟩ := Option.bind_eq_some_iff.mp hx
  obtain ⟨o, tokens, ho, -, -, -, -, -, -, hend⟩ := (streamed_as_accepted hs).2 0 x hsx
  exact ⟨s, x, hs, hsx, hp, o, ho, (hend .done [['a']] hp).1.mp rfl⟩

end Server

end Sukkula.LocalSend
