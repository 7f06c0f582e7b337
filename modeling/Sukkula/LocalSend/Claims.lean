import Mathlib.Data.Finset.Card
import Sukkula.LocalSend.Peers
import Sukkula.Reach.Limiter

/-! # Claims of announcements

Whether an announcement is answered. Answers are limited for each address that
announcements name, but a claim that names the certificate its server last
showed is answered once in a window whatever was spent. Forged claims can spend
the budget of an address and fill the table of certificates; as long as the
table holds everyone who showed one, they cannot change what a device that
showed its certificate is told.
-/

namespace Sukkula.Discovery

open Assoc Iter Text

open Reach (RateLimiter Bucket rateLimitEntries)

def discoveryBurst : ℕ := 8

/-- `DISCOVERY_WINDOW`, in nanoseconds. -/
def discoveryWindow : ℕ := 10 * 10 ^ 9

def shownTtl : ℕ := peerTtl

def defaultPort : UInt16 := 53317

/-- A certificate a server showed in a handshake. -/
structure Shown where
  fingerprint : Str
  time : ℕ
  answered : Option ℕ
  deriving DecidableEq, Repr

structure Claims (Ip : Type) where
  -- Answers to claims naming LocalSend's port, for each address.
  defaultPort : RateLimiter Ip
  -- Answers to claims naming any other port, for each address.
  otherPorts : RateLimiter Ip
  shown : Table (SocketAddr Ip) Shown

/-- The certificate is the one that is claimed, and was shown lately. -/
def Shown.Matches (s : Shown) (fingerprint : Str) (now : ℕ) : Prop :=
  now - s.time < shownTtl ∧ s.fingerprint = fingerprint

instance (s : Shown) (fingerprint : Str) (now : ℕ) : Decidable (s.Matches fingerprint now) :=
  inferInstanceAs (Decidable (_ ∧ _))

def Shown.recent (s : Shown) (now : ℕ) : Bool := s.answered.any fun t => now - t < discoveryWindow

/-- A claim naming it is answered, unless one was answered lately. -/
def Shown.answer (s : Shown) (now : ℕ) : Shown :=
  if s.recent now then s else { s with answered := some now }

def Shown.again (s : Shown) (proven : Bool) (now : ℕ) : Shown :=
  { s with time := now, answered := if proven then some now else s.answered }

/-- The certificate was shown for the first time. -/
def Shown.first (fingerprint : Str) (proven : Bool) (now : ℕ) : Shown :=
  ⟨fingerprint, now, if proven then some now else none⟩

namespace Claims

variable {Ip : Type} [DecidableEq Ip]

def new : Claims Ip :=
  ⟨.new discoveryBurst discoveryWindow, .new discoveryBurst discoveryWindow, .empty⟩

/-- Takes one answer from the budget of the address. -/
def allow (it : Iteration Ip Bucket) (c : Claims Ip) (addr : SocketAddr Ip) (now : ℕ) :
    Claims Ip × Bool :=
  if addr.port = Discovery.defaultPort then
    let (budget, granted) := c.defaultPort.allow it addr.ip now
    ({ c with defaultPort := budget }, granted)
  else
    let (budget, granted) := c.otherPorts.allow it addr.ip now
    ({ c with otherPorts := budget }, granted)

/-- `admit`: whether to answer an announcement claiming that the server at `addr` holds
`fingerprint`. -/
def admitClaim (it : Iteration Ip Bucket) (c : Claims Ip) (addr : SocketAddr Ip) (fingerprint : Str)
    (now : ℕ) : Claims Ip × Bool :=
  match c.shown.lookup addr with
  | some s =>
    if s.Matches fingerprint now then
      ({ c with shown := c.shown.set addr (s.answer now) }, !s.recent now)
    else c.allow it addr now
  | none => c.allow it addr now

/-- Forgets the certificate shown longest ago, if there are as many as may be. -/
def forgetStalest (it : Iteration (SocketAddr Ip) Shown) (shown : Table (SocketAddr Ip) Shown) :
    Table (SocketAddr Ip) Shown :=
  if rateLimitEntries ≤ shown.size then
    match minBy (fun a b => compare a.2.time b.2.time) (it.order shown.entries) with
    | some stalest => shown.remove stalest.1
    | none => shown
  else shown

/-- The server at `addr` showed `fingerprint` in a handshake, and went on to prove it if
`proven`. -/
def showed (it : Iteration (SocketAddr Ip) Shown) (c : Claims Ip) (addr : SocketAddr Ip)
    (fingerprint : Str) (proven : Bool) (now : ℕ) : Claims Ip :=
  match c.shown.lookup addr with
  | some s =>
    if s.fingerprint = fingerprint then { c with shown := c.shown.set addr (s.again proven now) }
    else { c with shown := c.shown.set addr (.first fingerprint proven now) }
  | none => { c with shown := (forgetStalest it c.shown).set addr (.first fingerprint proven now) }

inductive Call (Ip : Type)
  | admitClaim (it : Iteration Ip Bucket) (addr : SocketAddr Ip) (fingerprint : Str) (now : ℕ)
  | showed (it : Iteration (SocketAddr Ip) Shown) (addr : SocketAddr Ip) (fingerprint : Str)
  (proven : Bool)
      (now : ℕ)

def Call.now : Call Ip → ℕ
  | .admitClaim _ _ _ now | .showed _ _ _ _ now => now

inductive Event (Ip : Type)
  | admitted (addr : SocketAddr Ip) (fingerprint : Str) (now : ℕ) (granted : Bool)
  | showed (addr : SocketAddr Ip) (fingerprint : Str) (now : ℕ) (proven : Bool)
  deriving DecidableEq, Repr

def Event.now : Event Ip → ℕ
  | .admitted _ _ now _ | .showed _ _ now _ => now

/-- The claims, with what came of the calls, newest first. -/
structure Run (Ip : Type) where
  claims : Claims Ip
  history : List (Event Ip)

def Run.step (r : Run Ip) : Call Ip → Run Ip
  | .admitClaim it addr fingerprint now =>
    let (c, granted) := r.claims.admitClaim it addr fingerprint now
    ⟨c, .admitted addr fingerprint now granted :: r.history⟩
  | .showed it addr fingerprint proven now =>
    ⟨r.claims.showed it addr fingerprint proven now,
      .showed addr fingerprint now proven :: r.history⟩

def run (calls : List (Call Ip)) : Run Ip := calls.foldl Run.step ⟨.new, []⟩

def Call.shownAt : Call Ip → Option (SocketAddr Ip)
  | .admitClaim .. => none
  | .showed _ addr _ _ _ => some addr

/-- The addresses at which a certificate was shown. -/
def shownAddrs (calls : List (Call Ip)) : Finset (SocketAddr Ip) :=
  (calls.filterMap Call.shownAt).toFinset

/-- When the certificate was last shown at the address. -/
def lastShown (addr : SocketAddr Ip) (fingerprint : Str) : List (Event Ip) → Option ℕ
  | [] => none
  | .admitted .. :: past => lastShown addr fingerprint past
  | .showed addr' fingerprint' now _ :: past =>
    if addr' = addr ∧ fingerprint' = fingerprint then some now else lastShown addr fingerprint past

/-- The certificate was shown at the address less than `SHOWN_TTL` ago. -/
def Known (addr : SocketAddr Ip) (fingerprint : Str) (past : List (Event Ip)) (now : ℕ) : Prop :=
  ∃ t, lastShown addr fingerprint past = some t ∧ now - t < shownTtl

/-- A claim that was answered while its certificate was known, or a proof of it, which answers it
too. -/
inductive Answers (addr : SocketAddr Ip) (fingerprint : Str) : Event Ip → List (Event Ip) → ℕ → Prop
  | granted {past : List (Event Ip)} {now : ℕ} (h : Known addr fingerprint past now) :
      Answers addr fingerprint (.admitted addr fingerprint now true) past now
  | proven {past : List (Event Ip)} {now : ℕ} :
      Answers addr fingerprint (.showed addr fingerprint now true) past now

/-- Such an answer lies in the last `DISCOVERY_WINDOW`. -/
def AnsweredLately (addr : SocketAddr Ip) (fingerprint : Str) (past : List (Event Ip)) (now : ℕ) :
    Prop :=
  ∃ e p t, e :: p <:+ past ∧ Answers addr fingerprint e p t ∧ now - t < discoveryWindow

/-- The calls about the certificate at the address. -/
def Call.about (addr : SocketAddr Ip) (fingerprint : Str) : Call Ip → Bool
  | .admitClaim _ addr' fingerprint' _ => addr' = addr ∧ fingerprint' = fingerprint
  | .showed _ addr' fingerprint' _ _ => addr' = addr ∧ fingerprint' = fingerprint

/-- What a call makes of the entry for the address, when no other certificate is shown there. -/
def own (addr : SocketAddr Ip) (fingerprint : Str) (o : Option Shown) : Call Ip → Option Shown
  | .admitClaim _ addr' fingerprint' now =>
    if addr' = addr ∧ fingerprint' = fingerprint then
      o.map fun s => if s.Matches fingerprint now then s.answer now else s
    else o
  | .showed _ addr' fingerprint' proven now =>
    if addr' = addr ∧ fingerprint' = fingerprint then
      some (o.elim (.first fingerprint proven now) (·.again proven now))
    else o

variable {c : Claims Ip} {r : Run Ip} {addr addr' : SocketAddr Ip} {fp fp' : Str} {now : ℕ}
  {call : Call Ip} {calls : List (Call Ip)} {o o' : Option Shown} {e : Event Ip}
  {past : List (Event Ip)}

@[simp] theorem shown_allow (it : Iteration Ip Bucket) :
    (c.allow it addr now).1.shown = c.shown := by
  unfold allow
  split_ifs <;> rfl

theorem own_of_not_about (h : call.about addr fp = false) : own addr fp o call = o := by
  cases call with
  | admitClaim it addr' fp' now =>
    simp only [Call.about, decide_eq_false_iff_not] at h
    exact if_neg h
  | showed it addr' fp' proven now =>
    simp only [Call.about, decide_eq_false_iff_not] at h
    exact if_neg h

theorem forgetStalest_of_lt {it : Iteration (SocketAddr Ip) Shown}
    (h : c.shown.size < rateLimitEntries) : forgetStalest it c.shown = c.shown :=
  if_neg (Nat.not_le.mpr h)

theorem lookup_admitClaim (it : Iteration Ip Bucket)
    (hfp : ∀ s ∈ c.shown.lookup addr, s.fingerprint = fp) :
    (c.admitClaim it addr' fp' now).1.shown.lookup addr =
      own addr fp (c.shown.lookup addr) (.admitClaim it addr' fp' now) := by
  unfold admitClaim
  by_cases haddr : addr' = addr
  · subst haddr
    cases ho : c.shown.lookup addr' with
    | none => simp [own, ho]
    | some s =>
      have hs : s.fingerprint = fp := hfp s (by simp [ho])
      by_cases hm : s.Matches fp' now
      · have hfp' : fp' = fp := hm.2.symm.trans hs
        subst hfp'
        simp [own, hm]
      · simp only [own, hm, if_false, shown_allow, ho, true_and]
        split_ifs with hfp'
        · subst hfp'
          simp [hm]
        · rfl
  · rw [own_of_not_about (by simp [Call.about, haddr])]
    cases ho : c.shown.lookup addr' with
    | none => simp
    | some s =>
      by_cases hm : s.Matches fp' now
      · simp [hm, Ne.symm haddr]
      · simp [hm]

theorem lookup_showed (it : Iteration (SocketAddr Ip) Shown) {proven : Bool}
    (hfp : ∀ s ∈ c.shown.lookup addr, s.fingerprint = fp) (honly : addr' = addr → fp' = fp)
    (hroom : c.shown.lookup addr' = none → c.shown.size < rateLimitEntries) :
    (c.showed it addr' fp' proven now).shown.lookup addr =
      own addr fp (c.shown.lookup addr) (.showed it addr' fp' proven now) := by
  unfold showed
  by_cases haddr : addr' = addr
  · subst haddr
    obtain rfl := honly rfl
    cases ho : c.shown.lookup addr' with
    | none => simp [own, forgetStalest_of_lt (hroom ho)]
    | some s => simp [own, hfp s (by simp [ho])]
  · rw [own_of_not_about (by simp [Call.about, haddr])]
    cases ho : c.shown.lookup addr' with
    | none => simp [forgetStalest_of_lt (hroom ho), Ne.symm haddr]
    | some s =>
      simp only
      split_ifs <;> simp [Ne.symm haddr]

theorem lookup_step_ne_none {addrs : Finset (SocketAddr Ip)}
    (h : ∀ a, r.claims.shown.lookup a ≠ none → a ∈ addrs) (hcall : ∀ a ∈ call.shownAt, a ∈ addrs) :
    ∀ a, (r.step call).claims.shown.lookup a ≠ none → a ∈ addrs := by
  intro a ha
  cases call with
  | admitClaim it addr fp now =>
    simp only [Run.step, admitClaim] at ha
    cases ho : r.claims.shown.lookup addr with
    | none =>
      simp only [ho, shown_allow] at ha
      exact h a ha
    | some s =>
      simp only [ho] at ha
      split_ifs at ha with hm
      · rw [Table.lookup_set] at ha
        split_ifs at ha with hkey
        · exact h a (by simp [hkey, ho])
        · exact h a ha
      · rw [shown_allow] at ha
        exact h a ha
  | showed it addr fp proven now =>
    by_cases hkey : a = addr
    · exact hkey ▸ hcall addr rfl
    · refine h a ?_
      simp only [Run.step, showed] at ha
      cases ho : r.claims.shown.lookup addr with
      | none =>
        simp only [ho, Table.lookup_set, if_neg hkey] at ha
        unfold forgetStalest at ha
        split_ifs at ha with hfull
        · cases hmin : minBy (fun a b => compare a.2.time b.2.time)
            (it.order r.claims.shown.entries) with
          | none => simpa only [hmin] using ha
          | some stalest =>
            simp only [hmin, Table.lookup_remove] at ha
            split_ifs at ha
            · exact absurd rfl ha
            · exact ha
        · exact ha
      | some s =>
        simp only [ho] at ha
        split_ifs at ha <;> simpa [hkey] using ha

theorem run_concat (calls : List (Call Ip)) (call : Call Ip) :
    run (calls ++ [call]) = (run calls).step call := by
  rw [run, List.foldl_append]
  rfl

theorem shownAddrs_mono {calls' : List (Call Ip)} (h : calls.Sublist calls') :
    shownAddrs calls ⊆ shownAddrs calls' := by
  intro a ha
  rw [shownAddrs, List.mem_toFinset] at ha ⊢
  exact (h.filterMap _).mem ha

theorem mem_shownAddrs_of_lookup (calls : List (Call Ip)) :
    ∀ a, (run calls).claims.shown.lookup a ≠ none → a ∈ shownAddrs calls := by
  induction calls using List.reverseRecOn with
  | nil => exact fun a ha => absurd rfl ha
  | append_singleton calls call ih =>
    rw [run_concat]
    refine lookup_step_ne_none (fun a ha =>
      shownAddrs_mono (List.sublist_append_left _ _) (ih a ha)) ?_
    intro a ha
    simp [shownAddrs, Option.mem_def.mp ha]

/-- The table holds no more than showed a certificate, so there is room for another. -/
theorem size_lt_of_new (hnew : (run calls).claims.shown.lookup addr = none)
    (hfew : (insert addr (shownAddrs calls)).card ≤ rateLimitEntries) :
    (run calls).claims.shown.size < rateLimitEntries := by
  have hsub : insert addr ((run calls).claims.shown.entries.map Prod.fst).toFinset ⊆
      insert addr (shownAddrs calls) := by
    refine Finset.insert_subset_insert _ fun a ha => mem_shownAddrs_of_lookup calls a ?_
    exact Table.mem_keys_iff.mp (List.mem_toFinset.mp ha)
  have hnot : addr ∉ ((run calls).claims.shown.entries.map Prod.fst).toFinset := by
    rw [List.mem_toFinset, Table.mem_keys_iff, not_not]
    exact hnew
  have hcard := Finset.card_le_card hsub
  rw [Finset.card_insert_of_notMem hnot, List.toFinset_card_of_nodup (run calls).claims.shown.nodup,
    List.length_map] at hcard
  exact hcard.trans hfew

/-- Only this certificate is shown at the address, and few addresses show one. -/
structure Few (addr : SocketAddr Ip) (fp : Str) (calls : List (Call Ip)) : Prop where
  few : (shownAddrs calls).card ≤ rateLimitEntries
  only : ∀ it fp' proven now, Call.showed it addr fp' proven now ∈ calls → fp' = fp

theorem Few.sublist {calls' : List (Call Ip)} (h : Few addr fp calls') (hs : calls.Sublist calls') :
    Few addr fp calls := by
  constructor
  · exact (Finset.card_le_card (shownAddrs_mono hs)).trans h.few
  · intro it fp' proven now hmem
    exact h.only it fp' proven now (hs.mem hmem)

theorem Few.lookup_concat (h : Few addr fp (calls ++ [call]))
    (hfp : ∀ s ∈ (run calls).claims.shown.lookup addr, s.fingerprint = fp) :
    (run (calls ++ [call])).claims.shown.lookup addr =
      own addr fp ((run calls).claims.shown.lookup addr) call := by
  rw [run_concat]
  cases call with
  | admitClaim it addr' fp' now => exact lookup_admitClaim it hfp
  | showed it addr' fp' proven now =>
    refine lookup_showed it hfp ?_ fun hnew => size_lt_of_new hnew ?_
    · rintro rfl
      exact h.only it fp' proven now (by simp)
    · have hset : shownAddrs (calls ++ [.showed it addr' fp' proven now]) =
          insert addr' (shownAddrs calls) := by
        ext a
        simp [shownAddrs, Call.shownAt]
      exact hset ▸ h.few

theorem fingerprint_own (hfp : ∀ s ∈ o, s.fingerprint = fp) :
    ∀ s ∈ own addr fp o call, s.fingerprint = fp := by
  intro s hs
  cases habout : call.about addr fp with
  | false =>
    rw [own_of_not_about habout] at hs
    exact hfp s hs
  | true =>
    cases call with
    | admitClaim it addr' fp' now =>
      simp only [Call.about, decide_eq_true_eq] at habout
      simp only [own, if_pos habout, Option.mem_def, Option.map_eq_some_iff] at hs
      obtain ⟨s, hs, rfl⟩ := hs
      have := hfp s hs
      unfold Shown.answer
      split_ifs <;> exact this
    | showed it addr' fp' proven now =>
      simp only [Call.about, decide_eq_true_eq] at habout
      simp only [own, if_pos habout, Option.mem_def, Option.some.injEq] at hs
      subst hs
      cases o with
      | none => rfl
      | some s => exact hfp s rfl

theorem Few.lookup_run (h : Few addr fp calls) :
    (run calls).claims.shown.lookup addr = calls.foldl (own addr fp) none ∧
      ∀ s ∈ calls.foldl (own addr fp) none, s.fingerprint = fp := by
  induction calls using List.reverseRecOn with
  | nil => exact ⟨rfl, by simp⟩
  | append_singleton calls call ih =>
    obtain ⟨hlookup, hfp⟩ := ih (h.sublist (List.sublist_append_left _ _))
    have hconcat := h.lookup_concat (hlookup ▸ hfp)
    rw [List.foldl_append, hconcat, hlookup]
    exact ⟨rfl, fingerprint_own hfp⟩

theorem foldl_own_filter (calls : List (Call Ip)) (o : Option Shown) :
    (calls.filter (Call.about addr fp)).foldl (own addr fp) o = calls.foldl (own addr fp) o := by
  induction calls generalizing o with
  | nil => rfl
  | cons call calls ih =>
    cases habout : call.about addr fp with
    | false =>
      rw [List.filter_cons_of_neg (by simp [habout]), ih, List.foldl_cons, own_of_not_about habout]
    | true => rw [List.filter_cons_of_pos habout, List.foldl_cons, List.foldl_cons, ih]

theorem Answers.now_eq {t : ℕ} (h : Answers addr fp e past t) : e.now = t := by
  cases h <;> rfl

theorem Answers.of_admitted {granted : Bool} {t : ℕ}
    (h : Answers addr fp (.admitted addr' fp' now granted) past t) :
    addr' = addr ∧ fp' = fp ∧ Known addr fp past now := by
  cases h with
  | granted h => exact ⟨rfl, rfl, h⟩

/-- The entry tells when the certificate was last shown and when a claim naming it was last
answered. -/
structure Tells (addr : SocketAddr Ip) (fp : Str) (o : Option Shown) (past : List (Event Ip)) :
    Prop where
  shown : lastShown addr fp past = o.map Shown.time
  answered : ∀ s ∈ o, ∀ t ∈ s.answered, ∃ e p, e :: p <:+ past ∧ Answers addr fp e p t
  latest : ∀ e p t, e :: p <:+ past → Answers addr fp e p t → ∃ s ∈ o, ∃ t' ∈ s.answered, t ≤ t'

theorem Tells.known_iff (h : Tells addr fp o past) :
    Known addr fp past now ↔ ∃ s ∈ o, now - s.time < shownTtl := by
  unfold Known
  rw [h.shown]
  simp

theorem Tells.cons (h : Tells addr fp o past)
    (hshown : lastShown addr fp (e :: past) = o'.map Shown.time)
    (hold : ∀ s' ∈ o', ∀ t ∈ s'.answered, Answers addr fp e past t ∨ ∃ s ∈ o, t ∈ s.answered)
    (hnew : ∀ t, Answers addr fp e past t → ∃ s ∈ o', t ∈ s.answered)
    (hkeep : ∀ s ∈ o, ∀ t ∈ s.answered, ∃ s' ∈ o', ∃ t' ∈ s'.answered, t ≤ t') :
    Tells addr fp o' (e :: past) := by
  refine ⟨hshown, ?_, ?_⟩
  · intro s' hs' t ht
    rcases hold s' hs' t ht with hans | ⟨s, hs, ht⟩
    · exact ⟨e, past, List.suffix_rfl, hans⟩
    · obtain ⟨e', p, hp, hans⟩ := h.answered s hs t ht
      exact ⟨e', p, hp.trans (List.suffix_cons _ _), hans⟩
  · intro e' p t hp hans
    rcases List.suffix_cons_iff.mp hp with heq | hp
    · obtain ⟨rfl, rfl⟩ := List.cons.inj heq
      obtain ⟨s, hs, ht⟩ := hnew t hans
      exact ⟨s, hs, t, ht, le_rfl⟩
    · obtain ⟨s, hs, t', ht', hle⟩ := h.latest e' p t hp hans
      obtain ⟨s', hs', t'', ht'', hle'⟩ := hkeep s hs t' ht'
      exact ⟨s', hs', t'', ht'', hle.trans hle'⟩

theorem Tells.other (h : Tells addr fp o past)
    (hshown : lastShown addr fp (e :: past) = lastShown addr fp past)
    (hnot : ∀ t, ¬ Answers addr fp e past t) : Tells addr fp o (e :: past) := by
  refine h.cons (hshown.trans h.shown) ?_ ?_ ?_
  · exact fun s hs t ht => Or.inr ⟨s, hs, ht⟩
  · exact fun t hans => (hnot t hans).elim
  · exact fun s hs t ht => ⟨s, hs, t, ht, le_rfl⟩

theorem Tells.answered_le (h : Tells addr fp o past) (hpast : ∀ e ∈ past, e.now ≤ now) :
    ∀ s ∈ o, ∀ t ∈ s.answered, t ≤ now := by
  intro s hs t ht
  obtain ⟨e, p, hp, hans⟩ := h.answered s hs t ht
  rw [← hans.now_eq]
  exact hpast e (hp.mem List.mem_cons_self)

theorem Tells.admit_of_about (it : Iteration Ip Bucket)
    (h : Tells addr fp (c.shown.lookup addr) past)
    (hfp : ∀ s ∈ c.shown.lookup addr, s.fingerprint = fp) (hpast : ∀ e ∈ past, e.now ≤ now) :
    Tells addr fp (own addr fp (c.shown.lookup addr) (.admitClaim it addr fp now))
      (.admitted addr fp now (c.admitClaim it addr fp now).2 :: past) := by
  have hle := h.answered_le hpast
  have hknown : Known addr fp past now ↔ _ := h.known_iff
  have hshown := h.shown
  unfold own admitClaim
  cases ho : c.shown.lookup addr with
  | none =>
    rw [ho] at h hknown
    simp only [and_self, if_true, Option.map_none]
    refine h.other rfl fun t hans => ?_
    obtain ⟨s, hs, -⟩ := hknown.mp hans.of_admitted.2.2
    cases hs
  | some s =>
    have hs : s.fingerprint = fp := hfp s (by simp [ho])
    rw [ho] at h hknown hshown hle
    by_cases hm : s.Matches fp now
    · simp only [hm, if_true, and_self, Option.map_some]
      cases hrecent : s.recent now with
      | true =>
        have hsame : s.answer now = s := by simp [Shown.answer, hrecent]
        rw [hsame]
        exact h.other rfl (fun t hans => by cases hans)
      | false =>
        have hnow : s.answer now = { s with answered := some now } := by
          simp [Shown.answer, hrecent]
        rw [hnow]
        have hans : Answers addr fp (.admitted addr fp now true) past now :=
          .granted (hknown.mpr ⟨s, rfl, hm.1⟩)
        refine h.cons hshown ?_ ?_ ?_
        · rintro s' ⟨⟩ t ⟨⟩
          exact Or.inl hans
        · rintro t ⟨-⟩
          exact ⟨_, rfl, rfl⟩
        · rintro s' ⟨⟩ t ht
          exact ⟨_, rfl, now, rfl, hle s rfl t ht⟩
    · simp only [hm, if_false, and_self, if_true, Option.map_some]
      refine h.other rfl fun t hans => ?_
      obtain ⟨s', ⟨⟩, hlt⟩ := hknown.mp hans.of_admitted.2.2
      exact hm ⟨hlt, hs⟩

theorem Tells.showed_of_about {proven : Bool} (it : Iteration (SocketAddr Ip) Shown)
    (h : Tells addr fp o past) (hpast : ∀ e ∈ past, e.now ≤ now) :
    Tells addr fp (own addr fp o (.showed it addr fp proven now))
    (.showed addr fp now proven :: past) := by
  have hle := h.answered_le hpast
  have hown : own addr fp o (.showed it addr fp proven now) =
      some (o.elim (.first fp proven now) (·.again proven now)) := if_pos ⟨rfl, rfl⟩
  rw [hown]
  refine h.cons ?_ ?_ ?_ ?_
  · cases o <;> simp [lastShown, Shown.first, Shown.again]
  · rintro s' ⟨⟩ t ht
    cases proven with
    | true =>
      obtain rfl : now = t := by cases o <;> simpa [Shown.first, Shown.again] using ht
      exact Or.inl .proven
    | false =>
      cases o with
      | none => simp [Shown.first] at ht
      | some s => exact Or.inr ⟨s, rfl, by simpa [Shown.again] using ht⟩
  · rintro t ⟨⟩
    exact ⟨_, rfl, by cases o <;> rfl⟩
  · rintro s ⟨⟩ t ht
    cases proven with
    | true => exact ⟨_, rfl, now, rfl, hle s rfl t ht⟩
    | false => exact ⟨_, rfl, t, ht, le_rfl⟩

theorem Tells.step (h : Tells addr fp (r.claims.shown.lookup addr) r.history)
    (hfp : ∀ s ∈ r.claims.shown.lookup addr, s.fingerprint = fp)
    (hpast : ∀ e ∈ r.history, e.now ≤ call.now) :
    Tells addr fp (own addr fp (r.claims.shown.lookup addr) call) (r.step call).history := by
  cases habout : call.about addr fp with
  | false =>
    rw [own_of_not_about habout]
    cases call with
    | admitClaim it addr' fp' now =>
      simp only [Call.about, decide_eq_false_iff_not] at habout
      refine h.other rfl fun t hans => ?_
      exact habout ⟨hans.of_admitted.1, hans.of_admitted.2.1⟩
    | showed it addr' fp' proven now =>
      simp only [Call.about, decide_eq_false_iff_not] at habout
      refine h.other (if_neg habout) ?_
      rintro t ⟨⟩
      exact habout ⟨rfl, rfl⟩
  | true =>
    cases call with
    | admitClaim it addr' fp' now =>
      simp only [Call.about, decide_eq_true_eq] at habout
      obtain ⟨rfl, rfl⟩ := habout
      exact h.admit_of_about it hfp hpast
    | showed it addr' fp' proven now =>
      simp only [Call.about, decide_eq_true_eq] at habout
      obtain ⟨rfl, rfl⟩ := habout
      exact h.showed_of_about it hpast

theorem history_now (calls : List (Call Ip)) :
    (run calls).history.map Event.now = (calls.map Call.now).reverse := by
  induction calls using List.reverseRecOn with
  | nil => rfl
  | append_singleton calls call ih =>
    rw [run_concat, List.map_append, List.reverse_append, ← ih]
    cases call <;> rfl

/-- The calls came in the order of their times. -/
def Sorted (calls : List (Call Ip)) : Prop := (calls.map Call.now).Pairwise (· ≤ ·)

theorem Sorted.history_le (h : Sorted (calls ++ [call])) :
    ∀ e ∈ (run calls).history, e.now ≤ call.now := by
  intro e he
  have hmem := List.mem_map_of_mem (f := Event.now) he
  rw [history_now, List.mem_reverse] at hmem
  rw [Sorted, List.map_append, List.pairwise_append] at h
  exact h.2.2 _ hmem _ (by simp)

omit [DecidableEq Ip] in
theorem Sorted.left {calls' : List (Call Ip)} (h : Sorted (calls ++ calls')) : Sorted calls := by
  rw [Sorted, List.map_append, List.pairwise_append] at h
  exact h.1

theorem Few.tells_run (h : Few addr fp calls) (hs : Sorted calls) :
    Tells addr fp ((run calls).claims.shown.lookup addr) (run calls).history := by
  induction calls using List.reverseRecOn with
  | nil => exact ⟨rfl, by simp [run, new], by simp [run]⟩
  | append_singleton calls call ih =>
    have hfew := h.sublist (List.sublist_append_left _ _)
    obtain ⟨hlookup, hfp⟩ := hfew.lookup_run
    rw [← hlookup] at hfp
    rw [h.lookup_concat hfp, run_concat]
    exact (ih hfew hs.left).step hfp hs.history_le

/-- A claim that names the certificate lately shown is answered unless one was answered lately. -/
theorem admit_of_known (it : Iteration Ip Bucket) {s : Shown} (hs : c.shown.lookup addr = some s)
    (hm : s.Matches fp now) : (c.admitClaim it addr fp now).2 = !s.recent now := by
  simp only [admitClaim, hs, hm, if_true]

theorem Tells.recent_iff {s : Shown} (h : Tells addr fp (some s) past) :
    s.recent now = true ↔ AnsweredLately addr fp past now := by
  simp only [Shown.recent, Option.any_eq_true, decide_eq_true_eq]
  constructor
  · rintro ⟨t, ht, hlt⟩
    obtain ⟨e, p, hp, hans⟩ := h.answered s rfl t ht
    exact ⟨e, p, t, hp, hans, hlt⟩
  · rintro ⟨e, p, t, hp, hans, hlt⟩
    obtain ⟨s', ⟨⟩, t', ht', hle⟩ := h.latest e p t hp hans
    exact ⟨t', ht', by omega⟩

/-- Where at most 256 addresses show a certificate and one of them only ever this one, a claim that
names it is answered while the showing is recent, unless such a claim was answered or the
certificate proven in the last window; the other calls have no part in it. -/
theorem admit_iff_not_answeredLately (calls : List (Call Ip)) (addr : SocketAddr Ip)
    (fp : Str) (now : ℕ) (it : Iteration Ip Bucket)
    (hsorted : Sorted (calls ++ [.admitClaim it addr fp now]))
    (hfew : (shownAddrs calls).card ≤ 256)
    (honly : ∀ it' fp' proven now', Call.showed it' addr fp' proven now' ∈ calls → fp' = fp)
    (hknown : Known addr fp (run calls).history now) :
    (((run calls).claims.admitClaim it addr fp now).2 = true ↔
        ¬ AnsweredLately addr fp (run calls).history now) ∧
      ∀ it', ((run calls).claims.admitClaim it addr fp now).2 =
        ((run (calls.filter (Call.about addr fp))).claims.admitClaim it' addr fp now).2 := by
  have hfew' : Few addr fp calls := ⟨hfew, honly⟩
  have htells := hfew'.tells_run hsorted.left
  obtain ⟨s, hs, hlt⟩ := htells.known_iff.mp hknown
  rw [Option.mem_def] at hs
  obtain ⟨hlookup, hfp⟩ := hfew'.lookup_run
  have hm : s.Matches fp now := ⟨hlt, hfp s (hlookup ▸ hs)⟩
  rw [hs] at htells
  constructor
  · rw [admit_of_known it hs hm, ← htells.recent_iff]
    simp
  · intro it'
    -- the calls about others are left out, and the entry is the same
    have halone := (hfew'.sublist (List.filter_sublist (p := Call.about addr fp))).lookup_run.1
    rw [foldl_own_filter, ← hlookup, hs] at halone
    rw [admit_of_known it hs hm, admit_of_known it' halone hm]

/-- The order in which a table holds its entries. -/
def stored {κ ν : Type*} : Iteration κ ν := ⟨id, fun _ => .refl _⟩

/-- The device proves its certificate, a forged claim names its address, and its own claim comes ten
seconds later. -/
def announcedAgain : List (Call ℕ) :=
  [.showed stored ⟨1, 53317⟩ ['F'] true 0, .admitClaim stored ⟨1, 53317⟩ ['G'] 1]

theorem admit_announcedAgain :
    ((run announcedAgain).claims.admitClaim stored ⟨1, 53317⟩ ['F'] (10 * 10 ^ 9)).2 = true := by
  refine (admit_iff_not_answeredLately announcedAgain ⟨1, 53317⟩ ['F']
    (10 * 10 ^ 9) _ ?_ ?_ ?_ ?_).1.mpr ?_
  · simp [Sorted, announcedAgain, Call.now]
  · decide
  · rintro it' fp' proven now' h
    simp only [announcedAgain, List.mem_cons, Call.showed.injEq, List.not_mem_nil, reduceCtorEq,
      or_false] at h
    exact h.2.2.1
  · exact ⟨0, rfl, by decide⟩
  · rintro ⟨e, p, t, hp, hans, hlt⟩
    obtain rfl : t = 0 := by
      have hmem : e ∈ (run announcedAgain).history := hp.mem List.mem_cons_self
      have hhist : (run announcedAgain).history =
        [.admitted ⟨1, 53317⟩ ['G'] 1 true, .showed ⟨1, 53317⟩ ['F'] 0 true] := by decide +kernel
      rw [hhist] at hmem
      cases hans with
      | granted _ => simp at hmem
      | proven => simpa using hmem
    exact absurd hlt (by decide)

end Claims

end Sukkula.Discovery
