import Sukkula.Consent.Guarantees
import Sukkula.Reach.Guarantees
import Sukkula.Transfer.Lifecycle

/-! # From an offer to a transfer

`Ctx::offer` and `Ctx::offer_requested`, the one way from what a peer describes to an
incoming transfer: the offer is checked, the user is asked, and the transfer is
registered. Any number of calls run beside each other, with the broker, the shared
limiter and the registry each going its own steps in between. A call is cut where it
takes a lock or waits. A call whose future is dropped stays where it waits.
-/

namespace Sukkula.Transfer

open Transition
open Consent (Ask Refusal)
open Offer (RawOffer OfferError validate)

def globalOfferBurst : ℕ := 10

/-- `GLOBAL_OFFER_WINDOW`, in milliseconds. -/
def globalOfferWindow : ℕ := 60000

/-- `Ipv4Addr::UNSPECIFIED`, as a number: the limiter knows one address only. -/
def unspecified : ℕ := 0

inductive Asked | yes | no
  deriving DecidableEq, Repr

inductive Declined
  | invalid (e : OfferError)
  | refused (r : Refusal)
  | noSpace
  | busy

/-- Where a call of `decide` is that has a checked offer. -/
inductive Place
  | validated
  | counted
  -- Before `ask`.
  | ready
  | asking
  -- The user said yes; before the free space is looked at.
  | consented (id : ℕ)
  -- Before `begin`.
  | spaced (id : ℕ)
  -- In `begin_views`, with its token.
  | opening (id token : ℕ)
  -- Registered as the transfer at this place, and not yet announced.
  | registered (id k : ℕ)
  | accepted (id k : ℕ)
  | declined (why : Declined)

/-- A call of `offer_as`. -/
inductive Call
  | idle
  -- Declined as `Invalid`.
  | invalid (raw : RawOffer) (asked : Asked) (e : OfferError)
  | deciding (raw : RawOffer) (asked : Asked) (offer : Offer) (place : Place)

/-- The first part of `decide`: the check. -/
def Call.start (raw : RawOffer) (asked : Asked) : Call :=
  match validate raw with
  | .error e => .invalid raw asked e
  | .ok offer => .deciding raw asked offer .validated

def Place.id : Place → Option ℕ
  | .consented id | .spaced id | .opening id _ | .registered id _ | .accepted id _ => some id
  | .validated | .counted | .ready | .asking | .declined _ => none

def Place.Passed : Place → Prop
  | .validated | .counted | .declined _ => False
  | .ready | .asking | .consented _ | .spaced _ | .opening .. | .registered .. | .accepted .. =>
  True

def Place.Fitted : Place → Prop
  | .spaced _ | .opening .. | .registered .. | .accepted .. => True
  | .validated | .counted | .ready | .asking | .consented _ | .declined _ => False

/-- What `begin` is called with. -/
def beginOf (offer : Offer) : Begin := .ofFiles .incoming offer.protocol offer.sender offer.files

/-- What a call has of the registry: its token, or its transfer. -/
inductive Hold
  | opening (token : ℕ)
  | transfer (k : ℕ)

def Call.hold : Call → Option (Hold × Begin)
  | .deciding _ _ offer (.opening _ token) => some (.opening token, beginOf offer)
  | .deciding _ _ offer (.registered _ k) => some (.transfer k, beginOf offer)
  | .deciding _ _ offer (.accepted _ k) => some (.transfer k, beginOf offer)
  | _ => none

structure Ctx where
  consent : Consent.State Offer
  transfers : Registry
  limiter : Reach.Run ℕ
  calls : Ask → Call
  clock : ℕ
  -- The calls that the limiter let pass, and when, newest first.
  granted : List (Ask × ℕ)
  -- What `check_space` said to each call.
  fits : Ask → Option Bool

namespace Ctx

def new : Ctx :=
  ⟨Consent.init, {}, Reach.run globalOfferBurst globalOfferWindow [], fun _ => .idle, 0, [],
    fun _ => none⟩

def put (s : Ctx) (t : Ask) (c : Call) : Ctx := { s with calls := Function.update s.calls t c }

inductive Act
  -- `offer` or `offer_requested`.
  | offer (t : Ask) (raw : RawOffer) (asked : Asked)
  | active (t : Ask)
  | limit (t : Ask) (now : ℕ) (it : Iter.Iteration ℕ Reach.Bucket)
  | ask (t : Ask)
  -- A step of the broker or of a waiting `ask`, or an answer.
  | consent (a : Consent.Action Offer)
  -- The `ask` of the call returned.
  | answered (t : Ask)
  | space (t : Ask) (fits : Bool)
  | begin (t : Ask)
  | register (t : Ask)
  | announce (t : Ask)
  -- A step of a sender, of a handle, or of the engine.
  | registry (a : Transfer.Act)

/-- A step that is not one of a call of `decide`: those who send begin outgoing transfers. -/
def outside (r : Registry) : Transfer.Act → Bool
  | .begin b => b.direction = .outgoing
  | .register i => r.opening[i]?.all fun e => e.1.direction = .outgoing
  | .run k => r.transfers[k]?.all fun t => t.begin.direction = .outgoing ∨ t.stage ≠ .registered
  | _ => true

/-- What is not the first poll of an `ask`; the broker is shut down after the token is cancelled. -/
def waits (r : Registry) : Consent.Action Offer → Bool
  | .enter _ _ => false
  | .shutdown => r.shutdown
  | _ => true

def step (lim : Consent.Limits) (s : Ctx) : Act → Option Ctx
  | .offer t raw asked =>
    match s.calls t with
    | .idle => some (s.put t (Call.start raw asked))
    | _ => none
  | .active t =>
    match s.calls t with
    | .deciding raw asked offer .validated => some (s.put t (.deciding raw asked offer
        (if maxActiveTransfers ≤ s.transfers.active.size then .declined .busy
          else match asked with
          | .yes => .ready
          | .no => .counted)))
    | _ => none
  | .limit t now it =>
    match s.calls t with
    | .deciding raw asked offer .counted =>
      if s.clock ≤ now then
        let call : Reach.Call ℕ := ⟨unspecified, now, it⟩
        let granted := (s.limiter.limiter.allow it unspecified now).2
        let stage := if granted then .ready else .declined .busy
        some { s.put t (.deciding raw asked offer stage) with
          limiter := s.limiter.step call
          clock := now
          granted := if granted then (t, now) :: s.granted else s.granted }
      else none
    | _ => none
  | .ask t =>
    match s.calls t with
    | .deciding raw asked offer .ready => (Consent.step lim s.consent (.enter t offer)).map fun c =>
        { s.put t (.deciding raw asked offer .asking) with consent := c }
    | _ => none
  | .consent a =>
    if waits s.transfers a then (Consent.step lim s.consent a).map fun c => { s with consent := c }
    else none
  | .answered t =>
    match s.calls t, s.consent.phase t with
    | .deciding raw asked offer .asking, .returned (.ok id) =>
      some (s.put t (.deciding raw asked offer (.consented id)))
    | .deciding raw asked offer .asking, .returned (.error e) =>
      some (s.put t (.deciding raw asked offer (.declined (.refused e))))
    | _, _ => none
  | .space t fits =>
    match s.calls t with
    | .deciding raw asked offer (.consented id) =>
      let stage := if fits then .spaced id else .declined .noSpace
      some { s.put t (.deciding raw asked offer stage) with
        fits := Function.update s.fits t (some fits) }
    | _ => none
  | .begin t =>
    match s.calls t with
    | .deciding raw asked offer (.spaced id) =>
      (s.transfers.step (.begin (beginOf offer))).map fun r =>
        { s.put t (.deciding raw asked offer (.opening id s.transfers.tokens.length)) with
          transfers := r }
    | _ => none
  | .register t =>
    match s.calls t with
    | .deciding raw asked offer (.opening id token) =>
      (s.transfers.opening.findIdx? (·.2 = token)).bind fun i =>
        (s.transfers.step (.register i)).map fun r =>
          let place := if r.transfers.length = s.transfers.transfers.length then .declined .busy
            else .registered id s.transfers.transfers.length
          { s.put t (.deciding raw asked offer place) with transfers := r }
    | _ => none
  | .announce t =>
    match s.calls t with
    | .deciding raw asked offer (.registered id k) => (s.transfers.step (.run k)).map fun r =>
        { s.put t (.deciding raw asked offer (.accepted id k)) with transfers := r }
    | _ => none
  | .registry a =>
    if outside s.transfers a then (s.transfers.step a).map fun r => { s with transfers := r }
    else none

inductive Step (lim : Consent.Limits) (s : Ctx) : Ctx → Prop
  | offer {t : Ask} {raw : RawOffer} {asked : Asked} (ht : s.calls t = .idle) :
    Step lim s (s.put t (Call.start raw asked))
  | active {t : Ask} {raw : RawOffer} {asked : Asked} {offer : Offer} {p : Place}
    (ht : s.calls t = .deciding raw asked offer .validated)
    (hp : p = .declined .busy ∨ (p = .ready ∧ asked = .yes) ∨ (p = .counted ∧ asked = .no)) :
    Step lim s (s.put t (.deciding raw asked offer p))
  | limit {t : Ask} {raw : RawOffer} {asked : Asked} {offer : Offer} (ht : s.calls t =
    .deciding raw asked offer .counted) {now : ℕ} (hnow : s.clock ≤ now) (it :
    Iter.Iteration ℕ Reach.Bucket) {granted : Bool} (hgranted :
    granted = (s.limiter.limiter.allow it unspecified now).2) :
    Step lim s
    { s.put t (.deciding raw asked offer (if granted then .ready else .declined .busy)) with
      limiter := s.limiter.step ⟨unspecified, now, it⟩
      clock := now
      granted := if granted then (t, now) :: s.granted else s.granted }
  | ask {t : Ask} {raw : RawOffer} {asked : Asked} {offer : Offer} (ht : s.calls t =
    .deciding raw asked offer .ready)
    (hidle : s.consent.phase t = .idle) :
    Step lim s { s.put t (.deciding raw asked offer .asking) with
      consent := s.consent.enter lim t offer }
  | consent {a : Consent.Action Offer} (ha : waits s.transfers a) {c : Consent.State Offer}
    (hc : Consent.Step lim s.consent a c) : Step lim s { s with consent := c }
  | answered {t : Ask} {raw : RawOffer} {asked : Asked} {offer : Offer} (ht : s.calls t =
    .deciding raw asked offer .asking)
    {r : Except Refusal ℕ} (hr : s.consent.phase t = .returned r) :
    Step lim s (s.put t (.deciding raw asked offer (match r with
      | .ok id => .consented id
      | .error e => .declined (.refused e))))
  | space {t : Ask} {raw : RawOffer} {asked : Asked} {offer : Offer} {id : ℕ}
    (ht : s.calls t = .deciding raw asked offer (.consented id)) (fits : Bool) :
    Step lim s
      { s.put t (.deciding raw asked offer (if fits then .spaced id else .declined .noSpace)) with
      fits := Function.update s.fits t (some fits) }
  | begin {t : Ask} {raw : RawOffer} {asked : Asked} {offer : Offer} {id : ℕ}
    (ht : s.calls t = .deciding raw asked offer (.spaced id)) {r : Registry}
    (hr : s.transfers.step (.begin (beginOf offer)) = some r) :
    Step lim s { s.put t (.deciding raw asked offer (.opening id s.transfers.tokens.length)) with
      transfers := r }
  | register {t : Ask} {raw : RawOffer} {asked : Asked} {offer : Offer} {id token : ℕ}
    (ht : s.calls t = .deciding raw asked offer (.opening id token)) {i : ℕ}
    (hi : s.transfers.opening.findIdx? (·.2 = token) = some i) {r : Registry}
    (hr : s.transfers.step (.register i) = some r) :
    Step lim s { s.put t (.deciding raw asked offer
      (if r.transfers.length = s.transfers.transfers.length then .declined .busy
        else .registered id s.transfers.transfers.length)) with transfers := r }
  | announce {t : Ask} {raw : RawOffer} {asked : Asked} {offer : Offer} {id k : ℕ}
    (ht : s.calls t = .deciding raw asked offer (.registered id k)) {r : Registry}
    (hr : s.transfers.step (.run k) = some r) :
    Step lim s { s.put t (.deciding raw asked offer (.accepted id k)) with transfers := r }
  | registry {a : Transfer.Act} (ha : outside s.transfers a) {r : Registry}
    (hr : s.transfers.step a = some r) : Step lim s { s with transfers := r }

theorem Step.of_step {lim : Consent.Limits} {s s' : Ctx} {a : Act} (h : step lim s a = some s') :
    Step lim s s' := by
  cases a with
  | offer t raw asked =>
    simp only [step] at h
    split at h <;> cases h
    exact .offer ‹_›
  | active t =>
    simp only [step] at h
    split at h <;> cases h
    refine .active ‹_› ?_
    split
    · exact Or.inl rfl
    · split
      · exact Or.inr (Or.inl ⟨rfl, rfl⟩)
      · exact Or.inr (Or.inr ⟨rfl, rfl⟩)
  | limit t now it =>
    simp only [step] at h
    split at h
    · split at h <;> cases h
      exact .limit ‹_› ‹_› it rfl
    · cases h
  | ask t =>
    simp only [step] at h
    split at h
    · obtain ⟨c, hc, rfl⟩ := Option.map_eq_some_iff.mp h
      cases Consent.Step.of_step hc with
      | enter hidle => exact .ask ‹_› hidle
    · cases h
  | consent a =>
    simp only [step, Option.ite_none_right_eq_some] at h
    obtain ⟨ha, h⟩ := h
    obtain ⟨c, hc, rfl⟩ := Option.map_eq_some_iff.mp h
    exact .consent ha (.of_step hc)
  | answered t =>
    simp only [step] at h
    split at h <;> cases h
    · exact .answered ‹_› ‹_›
    · exact .answered ‹_› ‹_›
  | space t fits =>
    simp only [step] at h
    split at h <;> cases h
    exact .space ‹_› fits
  | begin t =>
    simp only [step] at h
    split at h
    · obtain ⟨r, hr, rfl⟩ := Option.map_eq_some_iff.mp h
      exact .begin ‹_› hr
    · cases h
  | register t =>
    simp only [step] at h
    split at h
    · obtain ⟨i, hi, h⟩ := Option.bind_eq_some_iff.mp h
      obtain ⟨r, hr, rfl⟩ := Option.map_eq_some_iff.mp h
      exact .register ‹_› hi hr
    · cases h
  | announce t =>
    simp only [step] at h
    split at h
    · obtain ⟨r, hr, rfl⟩ := Option.map_eq_some_iff.mp h
      exact .announce ‹_› hr
    · cases h
  | registry a =>
    simp only [step, Option.ite_none_right_eq_some] at h
    obtain ⟨ha, h⟩ := h
    obtain ⟨r, hr, rfl⟩ := Option.map_eq_some_iff.mp h
    exact .registry ha hr

section Broker

variable {lim : Consent.Limits} {c c' : Consent.State Offer} {a : Consent.Action Offer} {t u : Ask}
  {id : ℕ} {o : Offer}

/-- What a step of the broker leaves of an `ask` as it was: that it entered, that it returned, and
what it showed the user. -/
structure Broked (c c' : Consent.State Offer) (u : Ask) : Prop where
  entered : ∀ id o, c'.phase u = .entered id o → c.phase u = .entered id o
  returned : ∀ r, c.phase u = .returned r → c'.phase u = .returned r
  told : ∀ id o, .told u (.pending id o) ∈ c'.past → .told u (.pending id o) ∈ c.past ∨
    c.phase u = .entered id o

theorem Broked.rfl : Broked c c u :=
  ⟨fun _ _ h => h, fun _ h => h, fun _ _ h => Or.inl h⟩

/-- A task goes on to another phase, and what is added to the past shows nothing. -/
theorem Broked.move (hphase : c'.phase = c.phase ∨ ∃ t p, c'.phase = Function.update c.phase t p ∧
      (∀ r, c.phase t ≠ .returned r) ∧ ∀ id o, p ≠ .entered id o)
    (hpast : ∀ u id o, .told u (.pending id o) ∈ c'.past →
      .told u (.pending id o) ∈ c.past ∨ c.phase u = .entered id o) (u : Ask) : Broked c c' u := by
  rcases hphase with hphase | ⟨t, p, hphase, hreturned, hentered⟩
  · exact ⟨fun id o h => hphase ▸ h, fun r h => hphase.symm ▸ h, hpast u⟩
  · refine ⟨fun id o h => ?_, fun r h => ?_, hpast u⟩
    · rw [hphase] at h
      rcases update_cases h with ⟨rfl, hp⟩ | ⟨-, h⟩
      · exact absurd hp.symm (hentered id o)
      · exact h
    · rw [hphase]
      refine update_ne ?_ h
      rintro rfl
      exact hreturned r h

theorem phase_remove (c : Consent.State Offer) (id : ℕ) : (c.remove id).phase = c.phase := by
  unfold Consent.State.remove
  split <;> rfl

theorem past_remove (c : Consent.State Offer) (id : ℕ) : (c.remove id).past = c.past := by
  unfold Consent.State.remove
  split <;> rfl

theorem phase_answer (c : Consent.State Offer) (id : ℕ) (d : Consent.Decision) :
    (c.answer id d).phase = c.phase := by
  unfold Consent.State.answer
  split
  · split <;> rfl
  · rfl

theorem broked_of_step (h : Consent.Step lim c a c') (ha : ∀ t o, a ≠ .enter t o) (u : Ask) :
    Broked c c' u := by
  cases h with
  | @enter t offer ht => exact absurd rfl (ha t offer)
  | @announce t id offer ht =>
    refine .move (Or.inr ⟨t, .waiting id, rfl, by simp [ht], by simp⟩) ?_ u
    intro u i o hm
    rcases List.mem_cons.mp hm with heq | hm
    · cases heq
      exact Or.inr ht
    · exact Or.inl hm
  | @receive t id d ht hc =>
    refine .move (Or.inr ⟨t, _, rfl, by simp [ht], by simp⟩) ?_ u
    exact fun u i o hm => Or.inl hm
  | @hangUp t id ht hc =>
    refine .move (Or.inr ⟨t, _, rfl, by simp [ht], by simp⟩) ?_ u
    exact fun u i o hm => Or.inl hm
  | @elapse t id ht hc =>
    refine .move (Or.inr ⟨t, _, rfl, by simp [ht], by simp⟩) ?_ u
    exact fun u i o hm => Or.inl hm
  | @expire t id ht =>
    unfold Consent.State.expire
    split
    · refine .move
        (Or.inr ⟨t, _, congrArg (Function.update · t _) (phase_remove c id), by simp [ht], by simp⟩)
          ?_ u
      intro u i o hm
      exact Or.inl (past_remove c id ▸ hm)
    · refine .move (Or.inr ⟨t, _, rfl, by simp [ht], by simp⟩) ?_ u
      exact fun u i o hm => Or.inl hm
  | @close t id reason result ht =>
    refine .move (Or.inr ⟨t, .returned result, rfl, by simp [ht], by simp⟩) ?_ u
    intro u i o hm
    simpa [Consent.State.record, Consent.State.setPhase] using Or.inl hm
  | @drop t id ht =>
    refine .move
      (Or.inr ⟨t, _, congrArg (Function.update · t _) (phase_remove c id), by simp [ht], by simp⟩)
        ?_ u
    intro u i o hm
    exact Or.inl (past_remove c id ▸ hm)
  | @withdraw t id ht =>
    refine .move (Or.inr ⟨t, .dropped, rfl, by simp [ht], by simp⟩) ?_ u
    intro u i o hm
    simpa [Consent.State.record, Consent.State.setPhase] using Or.inl hm
  | @answer id d =>
    refine .move (Or.inl (phase_answer c id d)) ?_ u
    intro u i o hm
    obtain ⟨took, b, hpast⟩ := Consent.past_answer c id d
    rw [hpast] at hm
    simpa using Or.inl hm
  | shutdown =>
    refine @Broked.move c c.shutdown (Or.inl rfl) ?_ u
    intro u i o hm
    simpa [Consent.State.shutdown] using Or.inl hm

theorem phase_enter (lim : Consent.Limits) (c : Consent.State Offer) (t : Ask) (o : Offer) :
    (∃ p, (c.enter lim t o).phase = Function.update c.phase t p ∧
      ((∃ id, p = .entered id o) ∨ ∃ e, p = .returned (.error e))) ∧
      ∀ u id o', .told u (.pending id o') ∈ (c.enter lim t o).past →
      .told u (.pending id o') ∈ c.past := by
  unfold Consent.State.enter
  split
  · refine ⟨⟨_, rfl, Or.inr ⟨_, rfl⟩⟩, fun u id o' hm => ?_⟩
    simpa [Consent.State.record, Consent.State.setPhase] using hm
  · split
    · refine ⟨⟨_, rfl, Or.inr ⟨_, rfl⟩⟩, fun u id o' hm => ?_⟩
      simpa [Consent.State.record, Consent.State.setPhase] using hm
    · refine ⟨⟨_, rfl, Or.inl ⟨_, rfl⟩⟩, fun u id o' hm => ?_⟩
      simpa using hm

end Broker

/-- What a call has behind it, by where it is. -/
structure PlaceOk (s : Ctx) (t : Ask) (raw : RawOffer) (asked : Asked) (offer : Offer) (p : Place) :
    Prop where
  valid : validate raw = .ok offer
  counted : p = .counted → asked = .no
  passed : asked = .no → p.Passed → t ∈ s.granted.map Prod.fst
  consented : ∀ id, p.id = some id → s.consent.phase t = .returned (.ok id)
  fitted : p.Fitted → s.fits t = some true

/-- What holds of a call and of what the broker and the limiter know of it. -/
structure CallOk (s : Ctx) (t : Ask) : Prop where
  entered : ∀ id o, s.consent.phase t = .entered id o → ∃ raw asked, s.calls t =
    .deciding raw asked o .asking
  told : ∀ id o, .told t (.pending id o) ∈ s.consent.past → ∃ raw asked p, s.calls t =
    .deciding raw asked o p ∧ (asked = .no → t ∈ s.granted.map Prod.fst)
  place : ∀ raw asked o p, s.calls t = .deciding raw asked o p → PlaceOk s t raw asked o p
  granted : t ∈ s.granted.map Prod.fst → ∃ raw o p, s.calls t = .deciding raw .no o p ∧
    p ≠ .validated ∧ p ≠ .counted

section Calls

variable {lim : Consent.Limits} {s s' : Ctx} {t u : Ask} {raw : RawOffer} {asked : Asked}
  {o : Offer} {p p' : Place}

theorem CallOk.congr (h : CallOk s t) (hcall : s'.calls t = s.calls t)
    (hbroked : Broked s.consent s'.consent t)
    (hgranted : t ∈ s'.granted.map Prod.fst ↔ t ∈ s.granted.map Prod.fst)
    (hfits : s'.fits t = s.fits t) : CallOk s' t where
  entered id o he := hcall ▸ h.entered id o (hbroked.entered id o he)
  told id o hm := by
    rw [hcall, hgranted]
    rcases hbroked.told id o hm with hm | he
    · exact h.told id o hm
    · obtain ⟨raw, asked, hc⟩ := h.entered id o he
      exact ⟨raw, asked, .asking, hc, fun hno => (h.place _ _ _ _ hc).passed hno trivial⟩
  place raw asked o p hc := by
    have hok := h.place raw asked o p (hcall ▸ hc)
    exact ⟨hok.valid, hok.counted, fun hno hp => hgranted.mpr (hok.passed hno hp),
      fun id hid => hbroked.returned _ (hok.consented id hid),
      fun hp => hfits.trans (hok.fitted hp)⟩
  granted hg := hcall ▸ h.granted (hgranted.mp hg)

theorem CallOk.move (h : CallOk s t) (p' : Place) (ht : s.calls t = .deciding raw asked o p)
    (hasking : p ≠ .asking ∨ ∃ r, s.consent.phase t = .returned r)
    (hcall : s'.calls t = .deciding raw asked o p') (hconsent : s'.consent = s.consent)
    (hmono : t ∈ s.granted.map Prod.fst → t ∈ s'.granted.map Prod.fst)
    (hok : PlaceOk s' t raw asked o p')
    (hgranted : t ∈ s'.granted.map Prod.fst → asked = .no ∧ p' ≠ .validated ∧ p' ≠ .counted) :
    CallOk s' t where
  entered id o' he := by
    rw [hconsent] at he
    rcases hasking with hp | ⟨r, hr⟩
    · obtain ⟨raw', asked', hc⟩ := h.entered id o' he
      rw [ht] at hc
      cases hc
      exact absurd rfl hp
    · rw [hr] at he
      cases he
  told id o' hm := by
    rw [hconsent] at hm
    obtain ⟨raw', asked', q, hc, hno⟩ := h.told id o' hm
    rw [ht] at hc
    cases hc
    exact ⟨raw, asked, p', hcall, fun ha => hmono (hno ha)⟩
  place raw' asked' o' q hc := by
    rw [hcall] at hc
    cases hc
    exact hok
  granted hg := by
    obtain ⟨rfl, hp⟩ := hgranted hg
    exact ⟨raw, o, p', hcall, hp⟩

/-- The offer of a call that was granted is not asked for, and the call is behind the limit. -/
theorem CallOk.of_granted (h : CallOk s t) (ht : s.calls t = .deciding raw asked o p)
    (hg : t ∈ s.granted.map Prod.fst) : asked = .no ∧ p ≠ .validated ∧ p ≠ .counted := by
  obtain ⟨raw', o', q, hc, hq⟩ := h.granted hg
  rw [ht] at hc
  cases hc
  exact ⟨rfl, hq⟩

theorem put_calls_ne (hu : u ≠ t) (c : Call) : (s.put t c).calls u = s.calls u :=
  Function.update_of_ne hu _ _

theorem put_calls_self (c : Call) : (s.put t c).calls t = c := Function.update_self _ _ _

/-- A call goes on by itself: it and nothing else of the context. -/
theorem CallOk.put (h : ∀ u, CallOk s u) (ht : s.calls t = .deciding raw asked o p)
    (hasking : p ≠ .asking ∨ ∃ r, s.consent.phase t = .returned r)
    (hok : PlaceOk s t raw asked o p')
    (hplace : p ≠ .validated → p ≠ .counted → p' ≠ .validated ∧ p' ≠ .counted) (u : Ask) :
    CallOk (s.put t (.deciding raw asked o p')) u := by
  by_cases hu : u = t
  · subst hu
    refine (h u).move p' ht hasking (put_calls_self _) rfl id ⟨hok.1, hok.2, hok.3, hok.4, hok.5⟩ ?_
    intro hg
    obtain ⟨hno, hv, hc⟩ := (h u).of_granted ht hg
    exact ⟨hno, hplace hv hc⟩
  · exact (h u).congr (put_calls_ne hu _) .rfl Iff.rfl rfl

theorem CallOk.start (h : CallOk s t) (ht : s.calls t = .idle) :
    CallOk (s.put t (Call.start raw asked)) t where
  entered id o he := by
    obtain ⟨raw', asked', hc⟩ := h.entered id o he
    rw [ht] at hc
    cases hc
  told id o hm := by
    obtain ⟨raw', asked', q, hc, -⟩ := h.told id o hm
    rw [ht] at hc
    cases hc
  place raw' asked' o p hc := by
    rw [put_calls_self, Call.start] at hc
    split at hc
    · cases hc
    · case h_2 offer hvalid =>
      cases hc
      exact ⟨hvalid, by simp, fun _ hp => hp.elim, by simp [Place.id], fun hp => hp.elim⟩
  granted hg := by
    obtain ⟨raw', o, p, hc, -⟩ := h.granted hg
    rw [ht] at hc
    cases hc

theorem CallOk.limit (h : ∀ u, CallOk s u) (ht : s.calls t = .deciding raw asked o .counted)
    (granted : Bool) (now : ℕ) (limiter : Reach.Run ℕ) (u : Ask) :
    CallOk { s.put t (.deciding raw asked o (if granted then .ready else .declined .busy)) with
      limiter
      clock := now
      granted := if granted then (t, now) :: s.granted else s.granted } u := by
  have hok := (h t).place _ _ _ _ ht
  by_cases hu : u = t
  · subst hu
    have hnot : u ∉ s.granted.map Prod.fst := fun hg => ((h u).of_granted ht hg).2.2 rfl
    refine (h u).move (if granted then .ready else .declined .busy) ht (Or.inl (by simp))
      (put_calls_self _)
      rfl (fun hg => absurd hg hnot) ?_ ?_
    · cases granted with
      | true => exact ⟨hok.valid, by simp, by simp, by simp [Place.id], fun hp => hp.elim⟩
      | false =>
        exact ⟨hok.valid, by simp, fun _ hp => hp.elim, by simp [Place.id], fun hp => hp.elim⟩
    · intro _
      refine ⟨hok.counted rfl, ?_⟩
      cases granted <;> simp
  · refine (h u).congr (put_calls_ne hu _) .rfl ?_ rfl
    cases granted with
    | true => simp [hu]
    | false => rfl

theorem CallOk.ask (h : ∀ u, CallOk s u) (ht : s.calls t = .deciding raw asked o .ready)
    (hidle : s.consent.phase t = .idle) (u : Ask) :
    CallOk { s.put t (.deciding raw asked o .asking) with
      consent := s.consent.enter lim t o } u := by
  obtain ⟨⟨p, hphase, hp⟩, hpast⟩ := phase_enter lim s.consent t o
  have hok := (h t).place _ _ _ _ ht
  by_cases hu : u = t
  · subst hu
    refine ⟨fun id o' he => ?_, fun id o' hm => ?_, fun raw' asked' o' q hc => ?_, fun hg => ?_⟩
    · replace he : (s.consent.enter lim u o).phase u = .entered id o' := he
      rw [hphase, Function.update_self] at he
      rcases hp with ⟨i, rfl⟩ | ⟨e, rfl⟩
      · cases he
        exact ⟨raw, asked, put_calls_self _⟩
      · cases he
    · obtain ⟨raw', asked', q, hc, hno⟩ := (h u).told id o' (hpast u id o' hm)
      rw [ht] at hc
      cases hc
      exact ⟨raw, asked, .asking, put_calls_self _, hno⟩
    · replace hc : (s.put u (.deciding raw asked o .asking)).calls u = .deciding raw' asked' o' q :=
        hc
      rw [put_calls_self] at hc
      cases hc
      exact ⟨hok.valid, by simp, fun hno _ => hok.passed hno trivial, by simp [Place.id],
        fun hp => hp.elim⟩
    · obtain ⟨hno, -⟩ := (h u).of_granted ht hg
      subst hno
      exact ⟨raw, o, .asking, put_calls_self _, by simp, by simp⟩
  · refine (h u).congr (put_calls_ne hu _) ⟨fun id o' he => ?_, fun r hr => ?_,
      fun id o' hm => Or.inl (hpast u id o' hm)⟩
      Iff.rfl rfl
    · rw [hphase, Function.update_of_ne hu] at he
      exact he
    · rw [hphase, Function.update_of_ne hu]
      exact hr

theorem CallOk.step (h : ∀ u, CallOk s u) (hs : Step lim s s') (u : Ask) : CallOk s' u := by
  cases hs with
  | @offer t raw asked ht =>
    by_cases hu : u = t
    · subst hu
      exact (h u).start ht
    · exact (h u).congr (put_calls_ne hu _) .rfl Iff.rfl rfl
  | @active t raw asked offer p ht hp =>
    have hok := (h t).place _ _ _ _ ht
    refine CallOk.put h ht (Or.inl (by simp)) ?_ (fun hv _ => absurd rfl hv) u
    rcases hp with rfl | ⟨rfl, rfl⟩ | ⟨rfl, rfl⟩
    · exact ⟨hok.valid, by simp, fun _ hp => hp.elim, by simp [Place.id], fun hp => hp.elim⟩
    · exact ⟨hok.valid, by simp, by simp, by simp [Place.id], fun hp => hp.elim⟩
    · exact ⟨hok.valid, fun _ => rfl, fun _ hp => hp.elim, by simp [Place.id], fun hp => hp.elim⟩
  | limit ht hnow it hgranted => exact CallOk.limit h ht _ _ _ u
  | ask ht hidle => exact CallOk.ask h ht hidle u
  | @consent a ha c hc =>
    refine (h u).congr rfl (broked_of_step hc ?_ u) Iff.rfl rfl
    rintro t o rfl
    cases ha
  | @answered t raw asked offer ht r hr =>
    have hok := (h t).place _ _ _ _ ht
    refine CallOk.put h ht (Or.inr ⟨r, hr⟩) ?_ ?_ u
    · cases r with
      | ok id =>
        refine ⟨hok.valid, by simp, fun hno _ => hok.passed hno trivial, ?_, fun hp => hp.elim⟩
        rintro i ⟨⟩
        exact hr
      | error e =>
        exact ⟨hok.valid, by simp, fun _ hp => hp.elim, by simp [Place.id], fun hp => hp.elim⟩
    · intro _ _
      cases r <;> simp
  | @space t raw asked offer id ht fits =>
    have hok := (h t).place _ _ _ _ ht
    by_cases hu : u = t
    · subst hu
      refine (h u).move (if fits then .spaced id else .declined .noSpace) ht (Or.inl (by simp))
        (put_calls_self _)
        rfl (fun hg => hg) ?_ ?_
      · cases fits with
        | true =>
          exact ⟨hok.valid, by simp, fun hno _ => hok.passed hno trivial, hok.consented,
            fun _ => Function.update_self _ _ _⟩
        | false =>
          exact ⟨hok.valid, by simp, fun _ hp => hp.elim, by simp [Place.id], fun hp => hp.elim⟩
      · intro hg
        refine ⟨((h u).of_granted ht hg).1, ?_⟩
        cases fits <;> simp
    · exact (h u).congr (put_calls_ne hu _) .rfl Iff.rfl (Function.update_of_ne hu _ _)
  | @begin t raw asked offer id ht r hr =>
    have hok := (h t).place _ _ _ _ ht
    refine (CallOk.put h ht (Or.inl (by simp)) ?_ (fun _ _ => ⟨by simp, by simp⟩) u).congr rfl
      .rfl Iff.rfl rfl
    exact ⟨hok.valid, by simp, fun hno _ => hok.passed hno trivial, hok.consented,
      fun _ => hok.fitted trivial⟩
  | @register t raw asked offer id token ht i hi r hr =>
    have hok := (h t).place _ _ _ _ ht
    refine (CallOk.put h ht (Or.inl (by simp)) ?_ ?_ u).congr rfl .rfl Iff.rfl rfl
    · split
      · exact ⟨hok.valid, by simp, fun _ hp => hp.elim, by simp [Place.id], fun hp => hp.elim⟩
      · exact ⟨hok.valid, by simp, fun hno _ => hok.passed hno trivial, hok.consented,
          fun _ => hok.fitted trivial⟩
    · intro _ _
      split <;> simp
  | @announce t raw asked offer id k ht r hr =>
    have hok := (h t).place _ _ _ _ ht
    refine (CallOk.put h ht (Or.inl (by simp)) ?_ (fun _ _ => ⟨by simp, by simp⟩) u).congr rfl
      .rfl Iff.rfl rfl
    exact ⟨hok.valid, by simp, fun hno _ => hok.passed hno trivial, hok.consented,
      fun _ => hok.fitted trivial⟩
  | registry ha hr => exact (h u).congr rfl .rfl Iff.rfl rfl

end Calls

section Places

open Registry

variable {r r' : Registry} {a : Transfer.Act} {k : ℕ} {tr : Running}

/-- A call of `begin_views` is taken up, and registers its transfer where there is room. -/
theorem register_of_step {i : ℕ} (hs : r.step (.register i) = some r') :
    ∃ e, r.opening[i]? = some e ∧ r'.opening = r.opening.eraseIdx i ∧
      (r'.transfers = r.transfers ∨ ∃ t : Running, r'.transfers = r.transfers ++ [t] ∧
        t.begin = e.1) := by
  obtain ⟨⟨b, token⟩, hb, rfl⟩ := Option.map_eq_some_iff.mp hs
  refine ⟨(b, token), hb, ?_⟩
  unfold Registry.register
  split_ifs
  · exact ⟨rfl, Or.inl rfl⟩
  · exact ⟨rfl, Or.inr ⟨_, rfl, rfl⟩⟩

/-- What a step does to the calls of `begin_views` that have their token: it begins one, takes one
up, or leaves them. Only the second may register a transfer. -/
theorem opening_of_step (hs : r.step a = some r') :
    (r'.opening = r.opening ∧ r'.transfers.length = r.transfers.length) ∨
      (∃ b, a = .begin b ∧ r'.opening = r.opening ++ [(b, r.tokens.length)] ∧
        r'.transfers.length = r.transfers.length) ∨
      ∃ i e, a = .register i ∧ r.opening[i]? = some e ∧ r'.opening = r.opening.eraseIdx i ∧
        (r'.transfers = r.transfers ∨ ∃ t : Running, r'.transfers = r.transfers ++ [t] ∧
          t.begin = e.1) := by
  have hput : ∀ k t, (r.put k t).opening = r.opening ∧ (r.put k t).transfers.length =
      r.transfers.length :=
    fun k t => ⟨rfl, List.length_set⟩
  cases a with
  | begin b =>
    obtain rfl := Option.some.inj hs
    exact Or.inr (Or.inl ⟨b, rfl, rfl, rfl⟩)
  | register i =>
    obtain ⟨e, he⟩ := register_of_step hs
    exact Or.inr (Or.inr ⟨i, e, rfl, he⟩)
  | cancel id =>
    obtain rfl := Option.some.inj hs
    exact Or.inl (cancel_fst_of (P := fun r' => r'.opening = r.opening ∧ r'.transfers.length =
      r.transfers.length) (fun _ _ h => h) ⟨rfl, rfl⟩ id)
  | cancelToken token =>
    obtain rfl := Option.some.inj hs
    exact Or.inl ⟨rfl, rfl⟩
  | addProgress k n =>
    obtain ⟨t, -, rfl⟩ := Option.map_eq_some_iff.mp hs
    split_ifs
    · exact Or.inl ⟨rfl, rfl⟩
    · exact Or.inl (hput _ _)
  | goOn k i now =>
    obtain ⟨t, -, hs⟩ := Option.bind_eq_some_iff.mp hs
    obtain ⟨x, -, rfl⟩ := Option.map_eq_some_iff.mp hs
    dsimp only
    cases (t.add now x).2.2 <;> exact Or.inl (hput _ _)
  | finish k outcome saved =>
    obtain ⟨t, -, rfl⟩ := Option.map_eq_some_iff.mp hs
    exact Or.inl (hput _ _)
  | finishWith k result =>
    obtain ⟨t, -, rfl⟩ := Option.map_eq_some_iff.mp hs
    exact Or.inl (hput _ _)
  | drop k =>
    obtain ⟨t, -, rfl⟩ := Option.map_eq_some_iff.mp hs
    exact Or.inl (hput _ _)
  | run k =>
    obtain ⟨t, -, hs⟩ := Option.bind_eq_some_iff.mp hs
    unfold runStage at hs
    split at hs
    · exact Or.inl (Option.some.inj hs ▸ hput _ _)
    · split_ifs at hs <;> exact Or.inl (Option.some.inj hs ▸ hput _ _)
    · exact Or.inl (Option.some.inj hs ▸ hput _ _)
    · exact Or.inl (Option.some.inj hs ▸ hput _ _)
    · cases hs
    · cases hs
  | shutDown =>
    obtain rfl := Option.some.inj hs
    exact Or.inl ⟨rfl, rfl⟩
  | cancelAll =>
    unfold Registry.step at hs
    split_ifs at hs
    obtain rfl := Option.some.inj hs
    exact Or.inl (cancelAll_of (P := fun r' => r'.opening = r.opening ∧ r'.transfers.length =
      r.transfers.length) (fun _ _ h => h) ⟨rfl, rfl⟩)

theorem begin_of_step (hs : r.step a = some r') (hk : r.transfers[k]? = some tr) :
    ∃ tr', r'.transfers[k]? = some tr' ∧ tr'.begin = tr.begin := by
  cases effect_of_step hs with
  | aside next active transfers events => exact ⟨tr, transfers ▸ hk, rfl⟩
  | register b token opening room next active transfers events =>
    refine ⟨tr, ?_, rfl⟩
    rw [transfers, List.getElem?_append_left (List.getElem?_eq_some_iff.mp hk).1]
    exact hk
  | move j t t' es at_j move next transfers events active =>
    by_cases hj : k = j
    · subst hj
      rw [hk] at at_j
      cases at_j
      exact ⟨t', transfers ▸ getElem?_put_self hk t', move.same.2.1⟩
    · exact ⟨tr, transfers ▸ getElem?_put_ne hj hk t', rfl⟩

/-- A transfer that is there, where the step registers none, was there before. -/
theorem begin_of_step' {tr' : Running} (hs : r.step a = some r')
    (hlen : r'.transfers.length = r.transfers.length) (hk : r'.transfers[k]? = some tr') :
    ∃ tr, r.transfers[k]? = some tr ∧ tr'.begin = tr.begin := by
  have hlt := (List.getElem?_eq_some_iff.mp hk).1
  obtain ⟨tr, htr⟩ : ∃ tr, r.transfers[k]? = some tr := ⟨_, List.getElem?_eq_getElem (hlen ▸ hlt)⟩
  obtain ⟨tr'', hk', hbegin⟩ := begin_of_step hs htr
  rw [hk] at hk'
  cases hk'
  exact ⟨tr, htr, hbegin⟩

/-- Each token belongs to one call of `begin_views`, and each of `decide`'s transfers to one call of
`decide`. -/
structure Placed (r : Registry) (hold : Ask → Option (Hold × Begin)) : Prop where
  shut : Shut r
  tokens : (r.opening.map Prod.snd).Nodup
  opening : ∀ b token, (b, token) ∈ r.opening → b.direction = .incoming → ∃ t, hold t =
    some (.opening token, b)
  opened : ∀ t token b, hold t = some (.opening token, b) → (b, token) ∈ r.opening
  incoming : ∀ (k : ℕ) (tr : Running), r.transfers[k]? = some tr → tr.begin.direction = .incoming →
    ∃ t, hold t = some (.transfer k, tr.begin)
  held : ∀ t k b, hold t = some (.transfer k, b) → ∃ tr : Running, r.transfers[k]? =
    some tr ∧ tr.begin = b
  unique : ∀ t t' h b b', hold t = some (h, b) → hold t' = some (h, b') → t = t'
  direction : ∀ t h b, hold t = some (h, b) → b.direction = .incoming

variable {hold : Ask → Option (Hold × Begin)} {t : Ask} {b : Begin} {token i : ℕ}

theorem Placed.token_inj (h : Placed r hold) {j : ℕ} {e e' : Begin × ℕ}
    (hi : r.opening[i]? = some e) (hj : r.opening[j]? = some e') (he : e.2 = e'.2) : i = j := by
  have hlt := (List.getElem?_eq_some_iff.mp hi).1
  refine (List.getElem?_inj (by simpa using hlt) h.tokens).mp ?_
  rw [List.getElem?_map, List.getElem?_map, hi, hj, Option.map_some, Option.map_some, he]

theorem Placed.aside (h : Placed r hold) (hs : r.step a = some r')
    (hopening : r'.opening = r.opening) (hlen : r'.transfers.length = r.transfers.length) :
    Placed r' hold where
  shut := h.shut.step hs
  tokens := hopening ▸ h.tokens
  opening := hopening ▸ h.opening
  opened := hopening ▸ h.opened
  incoming k tr' hk hdir := by
    obtain ⟨tr, htr, hbegin⟩ := begin_of_step' hs hlen hk
    rw [hbegin] at hdir ⊢
    exact h.incoming k tr htr hdir
  held t k b ht := by
    obtain ⟨tr, htr, rfl⟩ := h.held t k b ht
    exact begin_of_step hs htr
  unique := h.unique
  direction := h.direction

theorem Placed.nodup_append (h : Placed r hold) (b : Begin) :
    ((r.opening ++ [(b, r.tokens.length)]).map Prod.snd).Nodup := by
  rw [List.map_append, List.map_singleton]
  refine h.tokens.append (List.nodup_singleton _) ?_
  rw [List.disjoint_singleton]
  intro hm
  obtain ⟨e, he, heq⟩ := List.mem_map.mp hm
  exact absurd heq (h.shut.opening e he).ne

theorem Placed.nodup_eraseIdx (h : Placed r hold) (i : ℕ) :
    ((r.opening.eraseIdx i).map Prod.snd).Nodup :=
  h.tokens.sublist ((List.eraseIdx_sublist _ _).map _)

/-- The transfers after a registration, which may have found no room. -/
theorem begin_of_register {tr : Running} {ts ts' : List Running} {b : Begin}
    (hts : ts' = ts ∨ ∃ t : Running, ts' = ts ++ [t] ∧ t.begin = b) (hk : ts'[k]? = some tr) :
    ts[k]? = some tr ∨ (k = ts.length ∧ tr.begin = b ∧ ts'.length = ts.length + 1) := by
  rcases hts with rfl | ⟨t, rfl, rfl⟩
  · exact Or.inl hk
  · rcases Nat.lt_or_ge k ts.length with hlt | hge
    · exact Or.inl (List.getElem?_append_left hlt ▸ hk)
    · rw [List.getElem?_append_right hge, List.getElem?_singleton] at hk
      split_ifs at hk with hz
      cases hk
      exact Or.inr ⟨by omega, rfl, by simp⟩

theorem Placed.outside (h : Placed r hold) (ha : outside r a) (hs : r.step a = some r') :
    Placed r' hold := by
  rcases opening_of_step hs with ⟨hopening, hlen⟩ | ⟨b, rfl, hopening, hlen⟩
    | ⟨i, e, rfl, hi, hopening, hts⟩
  · exact h.aside hs hopening hlen
  · have hout : b.direction = .outgoing := by simpa [Ctx.outside] using ha
    refine ⟨h.shut.step hs, hopening ▸ h.nodup_append b, ?_, ?_, ?_, ?_, h.unique, h.direction⟩
    · intro b' token hm hdir
      rw [hopening] at hm
      rcases List.mem_append.mp hm with hm | hm
      · exact h.opening b' token hm hdir
      · cases List.mem_singleton.mp hm
        rw [hout] at hdir
        cases hdir
    · intro t token b' ht
      rw [hopening]
      exact List.mem_append_left _ (h.opened t token b' ht)
    · intro k tr' hk hdir
      obtain ⟨tr, htr, hbegin⟩ := begin_of_step' hs hlen hk
      rw [hbegin] at hdir ⊢
      exact h.incoming k tr htr hdir
    · intro t k b' ht
      obtain ⟨tr, htr, rfl⟩ := h.held t k b' ht
      exact begin_of_step hs htr
  · have hout : e.1.direction = .outgoing := by simpa [Ctx.outside, hi] using ha
    refine ⟨h.shut.step hs, hopening ▸ h.nodup_eraseIdx i, ?_, ?_, ?_, ?_, h.unique, h.direction⟩
    · intro b' token hm hdir
      rw [hopening] at hm
      exact h.opening b' token (List.mem_of_mem_eraseIdx hm) hdir
    · intro t token b' ht
      obtain ⟨j, hj⟩ := List.mem_iff_getElem?.mp (h.opened t token b' ht)
      rw [hopening, List.mem_eraseIdx_iff_getElem?]
      refine ⟨j, ?_, hj⟩
      rintro rfl
      rw [hi] at hj
      cases hj
      rw [h.direction t _ _ ht] at hout
      cases hout
    · intro k tr hk hdir
      rcases begin_of_register hts hk with hk | ⟨-, hbegin, -⟩
      · exact h.incoming k tr hk hdir
      · rw [hbegin, hout] at hdir
        cases hdir
    · intro t k b' ht
      obtain ⟨tr, htr, rfl⟩ := h.held t k b' ht
      exact begin_of_step hs htr

theorem Placed.begin (h : Placed r hold) (ht : hold t = none) (hdir : b.direction = .incoming)
    (hs : r.step (.begin b) = some r') :
    Placed r' (Function.update hold t (some (.opening r.tokens.length, b))) := by
  obtain rfl := Option.some.inj hs
  have hne : ∀ u x, hold u = some x → u ≠ t := by
    rintro u x hu rfl
    rw [ht] at hu
    cases hu
  have hfresh : ∀ u b', hold u ≠ some (.opening r.tokens.length, b') := by
    intro u b' hu
    exact lt_irrefl _ (h.shut.opening _ (h.opened u _ b' hu))
  refine ⟨h.shut.step hs, h.nodup_append b, ?_, ?_, ?_, ?_, ?_, ?_⟩
  · intro b' token hm hdir'
    rcases List.mem_append.mp hm with hm | hm
    · obtain ⟨u, hu⟩ := h.opening b' token hm hdir'
      exact ⟨u, update_ne (hne u _ hu) hu⟩
    · cases List.mem_singleton.mp hm
      exact ⟨t, update_self⟩
  · intro u token b' hu
    rcases update_cases hu with ⟨-, heq⟩ | ⟨-, hu⟩
    · cases heq
      exact List.mem_append_right _ (List.mem_singleton.mpr rfl)
    · exact List.mem_append_left _ (h.opened u token b' hu)
  · intro k tr hk hdir'
    obtain ⟨u, hu⟩ := h.incoming k tr hk hdir'
    exact ⟨u, update_ne (hne u _ hu) hu⟩
  · intro u k b' hu
    rcases update_cases hu with ⟨-, heq⟩ | ⟨-, hu⟩
    · cases heq
    · exact h.held u k b' hu
  · intro u u' x b₁ b₂ hu hu'
    rcases update_cases hu with ⟨rfl, heq⟩ | ⟨-, hold₁⟩
    · cases heq
      rcases update_cases hu' with ⟨rfl, -⟩ | ⟨-, hold₂⟩
      · rfl
      · exact absurd hold₂ (hfresh u' b₂)
    · rcases update_cases hu' with ⟨rfl, heq⟩ | ⟨-, hold₂⟩
      · cases heq
        exact absurd hold₁ (hfresh u b₁)
      · exact h.unique u u' x b₁ b₂ hold₁ hold₂
  · intro u x b' hu
    rcases update_cases hu with ⟨-, heq⟩ | ⟨-, hu⟩
    · cases heq
      exact hdir
    · exact h.direction u x b' hu

/-- Its call of `begin_views` looks at the registry: it has its transfer, or there was no room. -/
theorem Placed.register (h : Placed r hold) (ht : hold t = some (.opening token, b))
    (hi : r.opening.findIdx? (·.2 = token) = some i) (hs : r.step (.register i) = some r') :
    Placed r' (Function.update hold t
      (if r'.transfers.length = r.transfers.length then
        none else some (.transfer r.transfers.length, b))) := by
  -- the entry at this place is the call's own
  have hentry : r.opening[i]? = some (b, token) := by
    obtain ⟨hlt, htoken, -⟩ := List.findIdx?_eq_some_iff_getElem.mp hi
    obtain ⟨j, hj⟩ := List.mem_iff_getElem?.mp (h.opened t token b ht)
    have hget : r.opening[i]? = some r.opening[i] := List.getElem?_eq_getElem hlt
    obtain rfl := h.token_inj hget hj (of_decide_eq_true htoken)
    exact hj
  obtain ⟨e, he, hopening, hts⟩ := register_of_step hs
  obtain rfl : e = (b, token) := Option.some.inj (he.symm.trans hentry)
  have hmem : ∀ e ∈ r'.opening, e ∈ r.opening ∧ e.2 ≠ token := by
    intro e hm
    rw [hopening, List.mem_eraseIdx_iff_getElem?] at hm
    obtain ⟨j, hj, hget⟩ := hm
    exact ⟨List.mem_of_getElem? hget, fun htoken => hj (h.token_inj hget hentry htoken)⟩
  have hfresh : ∀ u b', hold u ≠ some (.transfer r.transfers.length, b') := by
    intro u b' hu
    obtain ⟨tr, htr, -⟩ := h.held u _ b' hu
    exact lt_irrefl _ (List.getElem?_eq_some_iff.mp htr).1
  have hlen : ∀ x, x = (if r'.transfers.length = r.transfers.length then none else
      some (Hold.transfer r.transfers.length, b)) → ∀ y b', x = some (y, b') →
      y = .transfer r.transfers.length ∧ b' = b ∧ r'.transfers.length ≠ r.transfers.length := by
    rintro x rfl y b' hx
    split_ifs at hx with hl
    cases hx
    exact ⟨rfl, rfl, hl⟩
  refine ⟨h.shut.step hs, hopening ▸ h.nodup_eraseIdx i, ?_, ?_, ?_, ?_, ?_, ?_⟩
  · intro b' token' hm hdir
    obtain ⟨hm, hne⟩ := hmem _ hm
    obtain ⟨u, hu⟩ := h.opening b' token' hm hdir
    refine ⟨u, update_ne ?_ hu⟩
    rintro rfl
    rw [ht] at hu
    cases hu
    exact hne rfl
  · intro u token' b' hu
    rcases update_cases hu with ⟨-, heq⟩ | ⟨hne, hu⟩
    · cases (hlen _ rfl _ _ heq.symm).1
    · obtain ⟨j, hj⟩ := List.mem_iff_getElem?.mp (h.opened u token' b' hu)
      rw [hopening, List.mem_eraseIdx_iff_getElem?]
      refine ⟨j, ?_, hj⟩
      rintro rfl
      rw [hentry] at hj
      cases hj
      exact hne (h.unique u t _ _ _ hu ht)
  · intro k tr hk hdir
    rcases begin_of_register hts hk with hk | ⟨rfl, hbegin, hl⟩
    · obtain ⟨u, hu⟩ := h.incoming k tr hk hdir
      refine ⟨u, update_ne ?_ hu⟩
      rintro rfl
      rw [ht] at hu
      cases hu
    · refine ⟨t, ?_⟩
      rw [Function.update_self, if_neg (by omega), hbegin]
  · intro u k b' hu
    rcases update_cases hu with ⟨-, heq⟩ | ⟨-, hu⟩
    · obtain ⟨hk, rfl, hl⟩ := hlen _ rfl _ _ heq.symm
      cases hk
      rcases hts with hts | ⟨tr, hts, htr⟩
      · exact absurd (congrArg List.length hts) hl
      · exact ⟨tr, by rw [hts, List.getElem?_concat_length], htr⟩
    · obtain ⟨tr, htr, rfl⟩ := h.held u k b' hu
      exact begin_of_step hs htr
  · intro u u' x b₁ b₂ hu hu'
    rcases update_cases hu with ⟨rfl, heq⟩ | ⟨-, hold₁⟩
    · obtain ⟨rfl, -, -⟩ := hlen _ rfl _ _ heq.symm
      rcases update_cases hu' with ⟨rfl, -⟩ | ⟨-, hold₂⟩
      · rfl
      · exact absurd hold₂ (hfresh u' b₂)
    · rcases update_cases hu' with ⟨rfl, heq⟩ | ⟨-, hold₂⟩
      · obtain ⟨rfl, -, -⟩ := hlen _ rfl _ _ heq.symm
        exact absurd hold₁ (hfresh u b₁)
      · exact h.unique u u' x b₁ b₂ hold₁ hold₂
  · intro u x b' hu
    rcases update_cases hu with ⟨-, heq⟩ | ⟨-, hu⟩
    · obtain ⟨-, rfl, -⟩ := hlen _ rfl _ _ heq.symm
      exact h.direction t _ _ ht
    · exact h.direction u x b' hu

end Places

section Runs

variable {lim : Consent.Limits} {s s' : Ctx} {t : Ask}

def holds (s : Ctx) (t : Ask) : Option (Hold × Begin) := (s.calls t).hold

theorem holds_put (s : Ctx) (t : Ask) (c : Call) :
    (s.put t c).holds = Function.update s.holds t c.hold := by
  funext u
  by_cases hu : u = t
  · subst hu
    rw [Function.update_self, holds, put_calls_self]
  · rw [Function.update_of_ne hu, holds, put_calls_ne hu]
    rfl

theorem Placed.put (h : Placed s.transfers s.holds) {c : Call} (hc : c.hold = (s.calls t).hold) :
    Placed s.transfers (s.put t c).holds := by
  have hsame : (s.put t c).holds = s.holds := by
    rw [holds_put, hc]
    exact Function.update_eq_self t s.holds
  rw [hsame]
  exact h

theorem hold_start (raw : RawOffer) (asked : Asked) : (Call.start raw asked).hold = none := by
  unfold Call.start
  split <;> rfl

theorem Placed.step (h : Placed s.transfers s.holds) (hs : Step lim s s') :
    Placed s'.transfers s'.holds := by
  cases hs with
  | offer ht =>
    refine h.put ?_
    rw [ht, hold_start]
    rfl
  | active ht hp =>
    refine h.put ?_
    rw [ht]
    rcases hp with rfl | ⟨rfl, -⟩ | ⟨rfl, -⟩ <;> rfl
  | @limit t raw asked offer ht now hnow it granted hgranted =>
    refine h.put ?_
    rw [ht]
    cases granted <;> rfl
  | ask ht hidle => exact h.put (congrArg Call.hold ht).symm
  | consent ha hc => exact h
  | @answered t raw asked offer ht r hr =>
    refine h.put ?_
    rw [ht]
    cases r <;> rfl
  | space ht fits =>
    refine h.put ?_
    rw [ht]
    cases fits <;> rfl
  | @begin t raw asked offer id ht r hr =>
    have hbegin := h.begin (congrArg Call.hold ht) rfl hr
    rw [show (some (Hold.opening s.transfers.tokens.length, beginOf offer)) =
      (Call.deciding raw asked offer (.opening id s.transfers.tokens.length)).hold from rfl,
      ← holds_put] at hbegin
    exact hbegin
  | @register t raw asked offer id token ht i hi r hr =>
    have hregister := h.register (congrArg Call.hold ht) hi hr
    rw [show (if r.transfers.length = s.transfers.transfers.length then none
        else some (Hold.transfer s.transfers.transfers.length, beginOf offer)) =
      (Call.deciding raw asked offer (if r.transfers.length = s.transfers.transfers.length then
        .declined .busy
        else .registered id s.transfers.transfers.length)).hold
        from by split_ifs <;> rfl, ← holds_put] at hregister
    exact hregister
  | @announce t raw asked offer id k ht r hr =>
    have hrun : Placed r s.holds := by
      rcases opening_of_step hr with ⟨hopening, hlen⟩ | ⟨b, hb, -⟩ | ⟨i, e, hi, -⟩
      · exact h.aside hr hopening hlen
      · cases hb
      · cases hi
    have hput : Placed ({ s with transfers := r } : Ctx).transfers
      ({ s with transfers := r } : Ctx).holds := hrun
    exact hput.put (congrArg Call.hold ht).symm
  | registry ha hr => exact h.outside ha hr

/-- The limiter was called for one address, in the order of time, and let pass those that are
noted. -/
structure Limited (s : Ctx) : Prop where
  calls : ∃ calls, s.limiter = Reach.run globalOfferBurst globalOfferWindow calls ∧
    Reach.Sorted calls ∧ ∀ c ∈ calls, c.ip = unspecified ∧ c.now ≤ s.clock
  times : s.granted.map Prod.snd = Reach.times unspecified s.limiter.history
  nodup : (s.granted.map Prod.fst).Nodup

theorem Limited.limit (h : Limited s) (ht : t ∉ s.granted.map Prod.fst) {now : ℕ}
    (hnow : s.clock ≤ now) (it : Iter.Iteration ℕ Reach.Bucket) {granted : Bool}
    (hgranted : granted = (s.limiter.limiter.allow it unspecified now).2) (c : Call) :
    Limited { s.put t c with
      limiter := s.limiter.step ⟨unspecified, now, it⟩
      clock := now
      granted := if granted then (t, now) :: s.granted else s.granted } := by
  obtain ⟨calls, hrun, hsorted, hcalls⟩ := h.calls
  refine ⟨⟨calls ++ [⟨unspecified, now, it⟩], ?_, ?_, ?_⟩, ?_, ?_⟩
  · rw [Reach.run_concat, ← hrun]
  · rw [Reach.Sorted, List.map_append, List.pairwise_append]
    refine ⟨hsorted, List.pairwise_singleton _ _, ?_⟩
    intro x hx y hy
    obtain ⟨c, hc, rfl⟩ := List.mem_map.mp hx
    cases List.mem_singleton.mp hy
    exact (hcalls c hc).2.trans hnow
  · intro c hc
    rcases List.mem_append.mp hc with hc | hc
    · exact ⟨(hcalls c hc).1, (hcalls c hc).2.trans hnow⟩
    · cases List.mem_singleton.mp hc
      exact ⟨rfl, le_rfl⟩
  · have hhistory : (s.limiter.step ⟨unspecified, now, it⟩).history =
        ⟨unspecified, now, granted⟩ :: s.limiter.history := by rw [hgranted]; rfl
    change List.map Prod.snd (if granted then (t, now) :: s.granted else s.granted) =
      Reach.times unspecified (s.limiter.step ⟨unspecified, now, it⟩).history
    rw [hhistory, Reach.times_cons]
    cases granted with
    | true => simp [h.times]
    | false => simp [h.times]
  · change (List.map Prod.fst (if granted then (t, now) :: s.granted else s.granted)).Nodup
    cases granted with
    | true => exact List.nodup_cons.mpr ⟨ht, h.nodup⟩
    | false => exact h.nodup

/-- An interval as long as the window has fewer passes than two bursts. -/
theorem Limited.within_lt (h : Limited s) (a : ℕ) :
    (s.granted.countP fun g => a ≤ g.2 ∧ g.2 < a + globalOfferWindow) ≤
    2 * globalOfferBurst - 1 := by
  obtain ⟨calls, hrun, hsorted, hcalls⟩ := h.calls
  have hpaced := Reach.paced_run globalOfferBurst (by decide : 0 < globalOfferWindow)
    (by decide : ({unspecified} : Finset ℕ).card ≤ Reach.rateLimitEntries)
      (fun c hc => Finset.mem_singleton.mpr (hcalls c hc).1) hsorted unspecified
  obtain ⟨hburst, hwindow⟩ := Reach.run_same globalOfferBurst globalOfferWindow calls
  have hcount : (s.granted.countP fun g => a ≤ g.2 ∧ g.2 < a + globalOfferWindow) =
      Window.within a (a + globalOfferWindow) (Reach.times unspecified s.limiter.history) := by
    rw [← h.times, Window.within, List.countP_map]
    rfl
  rw [hcount, hrun]
  unfold Reach.Run.Paced at hpaced
  rw [hburst, hwindow] at hpaced
  split at hpaced
  · rw [hpaced]
    exact Nat.zero_le _
  · have hlt := hpaced.within a (a + globalOfferWindow)
    rw [Nat.add_sub_cancel_left] at hlt
    have hceil : globalOfferWindow ⌈/⌉ globalOfferWindow = 1 := by decide
    rw [hceil] at hlt
    simp only [globalOfferBurst] at hlt ⊢
    omega

structure Inv (lim : Consent.Limits) (s : Ctx) : Prop where
  broker : Consent.Inv lim s.consent
  calls : ∀ t, CallOk s t
  placed : Placed s.transfers s.holds
  limited : Limited s

theorem Inv.new : Inv lim new where
  broker := .init
  calls t := by
    constructor
    all_goals simp [Ctx.new, Consent.init]
  placed := by
    constructor
    · exact Registry.shut_new
    all_goals simp [holds, Ctx.new, Call.hold]
  limited := ⟨⟨[], rfl, List.Pairwise.nil, by simp⟩, rfl, List.nodup_nil⟩

theorem Inv.step (h : Inv lim s) (hs : Step lim s s') : Inv lim s' := by
  have hcalls := CallOk.step h.calls hs
  have hplaced := h.placed.step hs
  cases hs with
  | limit ht hnow it hgranted =>
    refine ⟨h.broker, hcalls, hplaced, h.limited.limit ?_ hnow it hgranted _⟩
    exact fun hg => ((h.calls _).of_granted ht hg).2.2 rfl
  | ask ht hidle =>
    exact ⟨h.broker.step (.enter hidle), hcalls, hplaced, ⟨h.limited.1, h.limited.2, h.limited.3⟩⟩
  | consent ha hc =>
    exact ⟨h.broker.step hc, hcalls, hplaced, ⟨h.limited.1, h.limited.2, h.limited.3⟩⟩
  | _ => exact ⟨h.broker, hcalls, hplaced, ⟨h.limited.1, h.limited.2, h.limited.3⟩⟩

theorem inv_of_run {acts : List Act} (h : exec (step lim) new acts = some s) : Inv lim s :=
  exec_invariant (fun _ _ _ hI hs => hI.step (.of_step hs)) .new h

/-- What lies behind a transfer that comes in as the one at `k`, begun with `b`: the call `t` of
`decide`. -/
structure Origin (s : Ctx) (k : ℕ) (b : Begin) (t : Ask) (raw : RawOffer) (asked : Asked)
    (offer : Offer) (id : ℕ) : Prop where
  call : s.calls t = .deciding raw asked offer (.registered id k) ∨ s.calls t =
    .deciding raw asked offer (.accepted id k)
  begin : b = beginOf offer
  valid : validate raw = .ok offer
  -- The user was shown this offer under this id, and said yes to it.
  shown : .told t (.pending id offer) ∈ s.consent.past
  accepted : .answered id .accept (some t) true ∈ s.consent.past
  fits : s.fits t = some true
  -- An offer that nobody asked for was let pass by the limit on all peers.
  limited : asked = .no → t ∈ s.granted.map Prod.fst
  -- The yes came before the broker was shut down, if it was.
  before : ∀ l, .shutdown :: l <:+ s.consent.past → .answered id .accept (some t) true ∈ l

theorem mem_of_mem_tellings {e : Consent.ConsentEvent Offer} {past : List (Consent.Happening Offer)}
    (h : e ∈ Consent.tellings t past) : .told t e ∈ past := by
  obtain ⟨x, hx, hsome⟩ := List.mem_filterMap.mp h
  split at hsome
  · split_ifs at hsome with hu
    cases hsome
    exact hu ▸ hx
  · cases hsome

/-- An `ask` that returned a yes has shown its offer, and the yes was given to it. -/
theorem shown_of_returned {c : Consent.State Offer} (h : Consent.Inv lim c) {id : ℕ}
    (hr : c.phase t = .returned (.ok id)) :
    (∃ o, .told t (.pending id o) ∈ c.past) ∧ .answered id .accept (some t) true ∈ c.past ∧
      ∀ l, .shutdown :: l <:+ c.past → .answered id .accept (some t) true ∈ l := by
  have hstory := h.stories t
  rw [hr] at hstory
  have hmem : .returned t (.ok id) ∈ c.past := by
    have hof : ∀ x ∈ Consent.story t c.past, x ∈ c.past := fun x hx => (List.mem_filter.mp hx).1
    rcases hstory with hstory | ⟨i, o, reason, hstory⟩ <;> exact hof _ (hstory ▸ List.mem_cons_self)
  obtain ⟨l₁, l₂, hl⟩ := List.append_of_mem hmem
  obtain ⟨hissued, haccept⟩ := h.guarantees.accepted t id l₂ ⟨l₁, hl.symm⟩
  have hsub : ∀ x ∈ l₂, x ∈ c.past :=
    fun x hx => hl ▸ List.mem_append_right _ (List.mem_cons_of_mem _ hx)
  obtain ⟨o, reason, htell⟩ := h.guarantees.once t id (hsub _ hissued) (by rw [hr]; trivial)
  refine ⟨⟨o, mem_of_mem_tellings (htell ▸ by simp)⟩, hsub _ haccept, ?_⟩
  exact fun l hs => h.guarantees.afterShutdown l hs t id hmem

theorem Inv.origin (h : Inv lim s) {k : ℕ} {raw : RawOffer} {asked : Asked} {offer : Offer} {id : ℕ}
    (hcall : s.calls t = .deciding raw asked offer (.registered id k) ∨
      s.calls t = .deciding raw asked offer (.accepted id k)) :
      Origin s k (beginOf offer) t raw asked offer id := by
  obtain ⟨p, hp, hid, hpassed, hfitted⟩ : ∃ p, s.calls t = .deciding raw asked offer p ∧
      p.id = some id ∧ p.Passed ∧ p.Fitted := by
    rcases hcall with hcall | hcall
    · exact ⟨_, hcall, rfl, trivial, trivial⟩
    · exact ⟨_, hcall, rfl, trivial, trivial⟩
  have hok := (h.calls t).place _ _ _ _ hp
  obtain ⟨⟨o, hshown⟩, haccept, hbefore⟩ := shown_of_returned h.broker (hok.consented id hid)
  obtain ⟨raw', asked', p', hc, -⟩ := (h.calls t).told id o hshown
  rw [hp] at hc
  cases hc
  exact ⟨hcall, rfl, hok.valid, hshown, haccept, hok.fitted hfitted,
    fun hno => hok.passed hno hpassed, hbefore⟩

/-- In every interleaving of offers, answers, shutdowns and other transfers: each transfer that
comes in is that of one call, whose offer passed the check, was shown to the user as it is and
accepted by them, and fits. No two calls have the same one. The user is shown offers only that
passed the check, and of those nobody asked for no more than two bursts in any interval as long as
the window; offers that were asked for do not count. -/
theorem transfers_from_accepted_offers (lim : Consent.Limits) {acts : List Act}
    (h : exec (step lim) new acts = some s) :
    (∀ (k : ℕ) (tr : Running), s.transfers.transfers[k]? = some tr →
      tr.begin.direction = .incoming → ∃ t raw asked offer id,
      Origin s k tr.begin t raw asked offer id) ∧
    (∀ k b b' t t' raw raw' asked asked' offer offer' id id', Origin s k b t raw asked offer id →
      Origin s k b' t' raw' asked' offer' id' → t = t') ∧
    (∀ t id o, .told t (.pending id o) ∈ s.consent.past → ∃ raw asked p, s.calls t =
      .deciding raw asked o p ∧ validate raw = .ok o ∧ (asked = .no ↔ t ∈ s.granted.map Prod.fst)) ∧
    (s.granted.map Prod.fst).Nodup ∧
    ∀ a, (s.granted.countP fun g => a ≤ g.2 ∧ g.2 < a + globalOfferWindow) ≤
    2 * globalOfferBurst - 1 := by
  have hinv := inv_of_run h
  refine ⟨?_, ?_, ?_, hinv.limited.nodup, hinv.limited.within_lt⟩
  · intro k tr hk hdir
    obtain ⟨t, ht⟩ := hinv.placed.incoming k tr hk hdir
    unfold holds at ht
    cases hcall : s.calls t with
    | idle => rw [hcall] at ht; cases ht
    | invalid raw asked e => rw [hcall] at ht; cases ht
    | deciding raw asked offer p =>
      rw [hcall] at ht
      cases p with
      | registered id j =>
        obtain ⟨hj, hbegin⟩ := Prod.mk.inj (Option.some.inj ht)
        cases hj
        exact ⟨t, raw, asked, offer, id, hbegin ▸ hinv.origin (Or.inl hcall)⟩
      | accepted id j =>
        obtain ⟨hj, hbegin⟩ := Prod.mk.inj (Option.some.inj ht)
        cases hj
        exact ⟨t, raw, asked, offer, id, hbegin ▸ hinv.origin (Or.inr hcall)⟩
      | _ => cases ht
  · intro k b b' t t' raw raw' asked asked' offer offer' id id' ho ho'
    have hholds : ∀ {b t raw asked offer id}, Origin s k b t raw asked offer id →
        s.holds t = some (.transfer k, beginOf offer) := by
      intro b t raw asked offer id ho
      rcases ho.call with hc | hc <;> exact congrArg Call.hold hc
    exact hinv.placed.unique t t' _ _ _ (hholds ho) (hholds ho')
  · intro t id o hm
    obtain ⟨raw, asked, p, hc, hno⟩ := (hinv.calls t).told id o hm
    exact ⟨raw, asked, p, hc, ((hinv.calls t).place _ _ _ _ hc).valid, hno,
      fun hg => ((hinv.calls t).of_granted hc hg).1⟩

/-- A file of one byte, offered by a peer on the LAN. -/
def oneFile : RawOffer :=
  ⟨.localSend, "Alice".toList, none, [⟨"a".toList, 1, none, none⟩], none, none⟩

theorem id_perm (l : List (ℕ × Reach.Bucket)) : (id l).Perm l := .refl l

def acceptedActs : List Act :=
  [.offer 0 oneFile .no, .active 0, .limit 0 5 ⟨id, id_perm⟩, .ask 0, .consent (.announce 0),
    .consent (.answer 1 .accept), .consent (.poll 0), .consent (.close 0), .answered 0,
    .space 0 true, .begin 0, .register 0, .announce 0]

theorem transfers_from_accepted_offers_one : ∃ s, exec (step .spec) new acceptedActs = some s ∧
    ∃ tr : Running, s.transfers.transfers[0]? = some tr ∧ tr.begin.direction = .incoming ∧
      ∃ t raw asked offer id, Origin s 0 tr.begin t raw asked offer id := by
  have hrun : (exec (step .spec) new acceptedActs).map
      (fun s => s.transfers.transfers.map (·.begin.direction)) =
      some [.incoming] := by decide +kernel
  obtain ⟨s, hs, hdirs⟩ := Option.map_eq_some_iff.mp hrun
  obtain ⟨tr, htr, hdir⟩ := List.map_eq_singleton_iff.mp hdirs
  have hget : s.transfers.transfers[0]? = some tr := by rw [htr]; rfl
  exact ⟨s, hs, tr, hget, hdir, (transfers_from_accepted_offers .spec hs).1 0 tr hget hdir⟩

end Runs

end Ctx

end Sukkula.Transfer
