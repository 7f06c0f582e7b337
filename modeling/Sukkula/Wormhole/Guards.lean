import Sukkula.Hub.Slots
import Sukkula.Library.Transition
import Sukkula.Wormhole.Transit

/-! # The guards of a transfer

Each target has a guard, a task of its own, that connects to it when the library
comes. The guards share one count of the connections to addresses that the peer
chose. It is raised as `slots.rs` does before the attempt is made, and
never given back. Name resolution answers anything, and a guard may be stopped at
every wait.
-/

namespace Sukkula.Wormhole

open Transition Json
open Config (Endpoint)

inductive Guard.Phase
  -- The library has not come, or its line has not.
  | waiting
  -- `connect` comes to the next of these endpoints.
  | endpoints (rest : List Endpoint)
  -- It tries the addresses of an endpoint of our relay.
  | addresses (endpoint : Endpoint) (addrs : List SocketAddr) (rest : List Endpoint)
  -- It is in `slots::take`.
  | taking (addr : SocketAddr) (pc : Slots.Pc)
  | dialing (addr : SocketAddr)
  | ended
  deriving DecidableEq, Repr

structure Guard where
  target : Target
  phase : Guard.Phase := .waiting
  deriving DecidableEq, Repr

structure Attempt where
  target : Target
  addr : SocketAddr
  deriving DecidableEq, Repr

/-- The guards of one transfer, while `plan` starts them and after. -/
structure Guards where
  allowLoopback : Bool
  -- Targets that `plan` has still to start a guard for.
  pending : List Target
  guards : List Guard := []
  peerConnects : ℕ := 0
  -- The names that were looked up, with the answers.
  lookups : List (Endpoint × List SocketAddr) := []
  attempts : List Attempt := []

inductive Guards.Act
  | spawn
  | noPort
  -- The library came to the guard at this place, with its line.
  | connect (k : ℕ)
  | lookup (k : ℕ) (answer : Option (List SocketAddr))
  -- A loop of `connect` is at its end.
  | next (k : ℕ)
  -- `slots::take` reads the count, at first or by a swap that failed.
  | read (k : ℕ)
  | swap (k : ℕ)
  -- The connection attempt, and whether it got through.
  | dial (k : ℕ) (ok : Bool)
  | stop (k : ℕ)

def Target.byPeer : Target → Bool
  | .direct _ => true
  | .relay _ ours => !ours

namespace Guards

def start (targets : List Target) (allowLoopback : Bool) : Guards :=
  ⟨allowLoopback, targets.take maxTargets, [], 0, [], []⟩

def put (g : Guards) (k : ℕ) (target : Target) (phase : Guard.Phase) : Guards :=
  { g with guards := g.guards.set k ⟨target, phase⟩ }

/-- Where `connect` begins. -/
def connectPhase : Target → Guard.Phase
  | .direct addr => .taking addr .taking
  | .relay endpoints _ => .endpoints endpoints

/-- The addresses of an endpoint of our relay are tried one by one; of the peer's, the first that it
may name. -/
def resolved (allowLoopback ours : Bool) (endpoint : Endpoint) (rest : List Endpoint)
    (addrs : List SocketAddr) : Guard.Phase :=
  if ours then .addresses endpoint (addrs.take maxAddrsPerHost) rest
  else
    match (addrs.take maxAddrsPerHost).find? fun a => peerMayName allowLoopback a.ip with
    | some addr => .taking addr .taking
    | none => .endpoints rest

/-- A step of the guard at `k`. -/
def stepGuard (g : Guards) (k : ℕ) (target : Target) : Guard.Phase → Act → Option Guards
  | .waiting, .connect _ => some (g.put k target (connectPhase target))
  | .endpoints (_ :: rest), .lookup _ none => some (g.put k target (.endpoints rest))
  | .endpoints (endpoint :: rest), .lookup _ (some addrs) =>
    some { g.put k target (resolved g.allowLoopback (!target.byPeer) endpoint rest addrs) with
      lookups := g.lookups ++ [(endpoint, addrs)] }
  | .endpoints [], .next _ => some (g.put k target .ended)
  | .addresses _ [] rest, .next _ => some (g.put k target (.endpoints rest))
  | .addresses endpoint (addr :: addrs) rest, .dial _ ok =>
    some { g.put k target (if ok then .ended else .addresses endpoint addrs rest) with
      attempts := g.attempts ++ [⟨target, addr⟩] }
  | .taking addr pc, .read _ =>
    (pc.read maxPeerConnects g.peerConnects).map fun pc =>
      g.put k target (if pc = .refused then .ended else .taking addr pc)
  | .taking addr pc, .swap _ =>
    (pc.swap usizeMax g.peerConnects).map fun (n, _) =>
      { g.put k target (.dialing addr) with peerConnects := n }
  | .dialing addr, .dial _ _ =>
    some { g.put k target .ended with attempts := g.attempts ++ [⟨target, addr⟩] }
  | _, .stop _ => some (g.put k target .ended)
  | _, _ => none

def Act.guard : Act → Option ℕ
  | .spawn | .noPort => none
  | .connect k | .lookup k _ | .next k | .read k | .swap k | .dial k _ | .stop k => some k

def step (g : Guards) (a : Act) : Option Guards :=
  match a.guard with
  | some k => g.guards[k]?.bind fun guard => g.stepGuard k guard.target guard.phase a
  | none =>
    match a, g.pending with
    | .spawn, target :: pending =>
      some { g with pending, guards := g.guards ++ [⟨target, .waiting⟩] }
    | .noPort, _ :: _ => some { g with pending := [] }
    | _, _ => none

/-- The attempts at addresses that the peer chose. -/
def peerAttempts (g : Guards) : List Attempt := g.attempts.filter (·.target.byPeer)

/-- Our relay's name was looked up and gave this address. -/
def Resolved (ourRelay : Endpoint) (g : Guards) (addr : SocketAddr) : Prop :=
  ∃ answer, (ourRelay, answer) ∈ g.lookups ∧ addr ∈ answer

def isDialing (x : Guard) : Bool :=
  match x.phase with
  | .dialing _ => true
  | _ => false

/-- What a guard holds is its own relay's, or what the peer may name. -/
def Fits (ourRelay : Endpoint) (g : Guards) (target : Target) : Guard.Phase → Prop
  | .waiting | .ended => True
  | .endpoints rest => target.byPeer = false → ∀ e ∈ rest, e = ourRelay
  | .addresses endpoint addrs rest =>
  target.byPeer = false ∧ endpoint = ourRelay ∧ (∀ e ∈ rest, e = ourRelay) ∧
    ∀ a ∈ addrs, g.Resolved ourRelay a
  | .taking addr pc => (target.byPeer = true ∧ peerMayName g.allowLoopback addr.ip = true) ∧
    pc.InTake maxPeerConnects
  | .dialing addr => target.byPeer = true ∧ peerMayName g.allowLoopback addr.ip = true

/-- An attempt goes to what the peer may name, or to our relay. -/
def Attempt.Ok (ourRelay : Endpoint) (g : Guards) (a : Attempt) : Prop :=
  if a.target.byPeer then peerMayName g.allowLoopback a.addr.ip = true
  else g.Resolved ourRelay a.addr

structure Inv (ourRelay : Endpoint) (g : Guards) : Prop where
  few : g.guards.length + g.pending.length ≤ maxTargets
  pending : ∀ t ∈ g.pending, t.Ok ourRelay g.allowLoopback
  target : ∀ x ∈ g.guards, x.target.Ok ourRelay g.allowLoopback
  fits : ∀ x ∈ g.guards, Fits ourRelay g x.target x.phase
  attempts : ∀ a ∈ g.attempts, Attempt.Ok ourRelay g a
  -- Every attempt, made or to be made, has its slot.
  taken : g.guards.countP isDialing + g.peerAttempts.length ≤ g.peerConnects
  bounded : g.peerConnects ≤ maxPeerConnects

variable {ourRelay : Endpoint} {g g' : Guards} {k : ℕ} {target : Target}
  {phase phase' : Guard.Phase} {a : Act}

theorem Resolved.mono (hsub : g.lookups ⊆ g'.lookups) {addr : SocketAddr}
    (h : g.Resolved ourRelay addr) : g'.Resolved ourRelay addr := by
  obtain ⟨answer, hmem, haddr⟩ := h
  exact ⟨answer, hsub hmem, haddr⟩

theorem Fits.mono (hsub : g.lookups ⊆ g'.lookups) (hloop : g'.allowLoopback = g.allowLoopback)
    (h : Fits ourRelay g target phase) : Fits ourRelay g' target phase := by
  cases phase with
  | waiting | ended => trivial
  | endpoints rest => exact h
  | addresses endpoint addrs rest =>
    obtain ⟨hours, hendpoint, hrest, haddrs⟩ := h
    exact ⟨hours, hendpoint, hrest, fun a ha => (haddrs a ha).mono hsub⟩
  | taking addr pc =>
    obtain ⟨⟨hpeer, hname⟩, hpc⟩ := h
    exact ⟨⟨hpeer, by rw [hloop]; exact hname⟩, hpc⟩
  | dialing addr =>
    obtain ⟨hpeer, hname⟩ := h
    exact ⟨hpeer, by rw [hloop]; exact hname⟩

theorem Attempt.Ok.mono (hsub : g.lookups ⊆ g'.lookups) (hloop : g'.allowLoopback = g.allowLoopback)
    {x : Attempt} (h : Attempt.Ok ourRelay g x) : Attempt.Ok ourRelay g' x := by
  unfold Attempt.Ok at h ⊢
  split_ifs at h ⊢
  · rwa [hloop]
  · exact h.mono hsub

theorem Inv.put (h : Inv ourRelay g) (hk : g.guards[k]? = some ⟨target, phase⟩)
    {made : List Attempt} (hloop : g'.allowLoopback = g.allowLoopback)
    (hpending : g'.pending = g.pending) (hguards : g'.guards = g.guards.set k ⟨target, phase'⟩)
    (hsub : g.lookups ⊆ g'.lookups) (hattempts : g'.attempts = g.attempts ++ made)
    (hfits : Fits ourRelay g' target phase') (hmade : ∀ x ∈ made, Attempt.Ok ourRelay g' x)
    (htaken : (isDialing ⟨target, phase'⟩).toNat + (made.filter (·.target.byPeer)).length +
      g.peerConnects ≤ (isDialing ⟨target, phase⟩).toNat + g'.peerConnects)
    (hbounded : g'.peerConnects ≤ maxPeerConnects) : Inv ourRelay g' where
  few := by
    rw [hguards, hpending, List.length_set]
    exact h.few
  pending := by
    rw [hpending, hloop]
    exact h.pending
  target := by
    intro x hx
    rw [hguards] at hx
    rw [hloop]
    rcases List.mem_or_eq_of_mem_set hx with hx | rfl
    · exact h.target x hx
    · exact h.target ⟨target, phase⟩ (List.mem_of_getElem? hk)
  fits := by
    intro x hx
    rw [hguards] at hx
    rcases List.mem_or_eq_of_mem_set hx with hx | rfl
    · exact (h.fits x hx).mono hsub hloop
    · exact hfits
  attempts := by
    intro x hx
    rw [hattempts] at hx
    rcases List.mem_append.mp hx with hx | hx
    · exact (h.attempts x hx).mono hsub hloop
    · exact hmade x hx
  taken := by
    obtain ⟨hlt, hget⟩ := List.getElem?_eq_some_iff.mp hk
    have hone : ∀ b : Bool, (if b = true then 1 else 0) = b.toNat := by decide
    have hle : (isDialing ⟨target, phase⟩).toNat ≤ g.guards.countP isDialing := by
      by_cases hd : isDialing ⟨target, phase⟩ = true
      · rw [hd]
        exact List.countP_pos_iff.mpr ⟨_, List.mem_of_getElem? hk, hd⟩
      · rw [Bool.eq_false_of_not_eq_true hd]
        exact Nat.zero_le _
    have htaken₀ := h.taken
    rw [hguards, List.countP_set hlt, hget, hone, hone, peerAttempts, hattempts, List.filter_append,
      List.length_append]
    rw [peerAttempts] at htaken₀
    omega
  bounded := hbounded

theorem taken_of_not (h : isDialing ⟨target, phase'⟩ = false) {made : List Attempt}
    (hmade : made.filter (·.target.byPeer) = []) (n : ℕ) :
    (isDialing ⟨target, phase'⟩).toNat + (made.filter (·.target.byPeer)).length + n ≤
      (isDialing ⟨target, phase⟩).toNat + n := by
  rw [h, hmade]
  change 0 + 0 + n ≤ _
  omega

theorem isDialing_resolved (allowLoopback ours : Bool) (endpoint : Endpoint) (rest : List Endpoint)
    (addrs : List SocketAddr) :
    isDialing ⟨target, resolved allowLoopback ours endpoint rest addrs⟩ = false := by
  unfold resolved
  split
  · rfl
  · split <;> rfl

theorem Inv.move (h : Inv ourRelay g) (hk : g.guards[k]? = some ⟨target, phase⟩)
    (hfits : Fits ourRelay g target phase') (hdialing : isDialing ⟨target, phase'⟩ = false) :
    Inv ourRelay (g.put k target phase') := by
  refine h.put hk rfl rfl rfl (List.Subset.refl _) (List.append_nil _).symm
    (hfits.mono (List.Subset.refl _) rfl) nofun (taken_of_not hdialing rfl _) h.bounded

theorem fits_connectPhase (h : target.Ok ourRelay g.allowLoopback) :
    Fits ourRelay g target (connectPhase target) := by
  cases target with
  | direct addr => exact ⟨⟨rfl, h⟩, trivial⟩
  | relay endpoints ours =>
    intro hours e he
    cases ours with
    | true =>
      rw [show endpoints = [ourRelay] from h] at he
      exact List.mem_singleton.mp he
    | false => cases hours

theorem Inv.step_lookup (h : Inv ourRelay g) {endpoint : Endpoint} {rest : List Endpoint}
    (hk : g.guards[k]? = some ⟨target, .endpoints (endpoint :: rest)⟩) (addrs : List SocketAddr) :
    Inv ourRelay
    { g.put k target (resolved g.allowLoopback (!target.byPeer) endpoint rest addrs) with
      lookups := g.lookups ++ [(endpoint, addrs)] } := by
  have hfits := h.fits _ (List.mem_of_getElem? hk)
  refine h.put hk rfl rfl rfl (List.subset_append_left _ _) (List.append_nil _).symm ?_ nofun
    (taken_of_not (isDialing_resolved _ _ _ _ _) rfl _) h.bounded
  · unfold resolved
    cases hpeer : target.byPeer with
    | false =>
      have hours := hfits hpeer
      refine ⟨hpeer, hours endpoint List.mem_cons_self,
        fun e he => hours e (List.mem_cons_of_mem _ he), fun a ha =>
        ⟨addrs, ?_, List.mem_of_mem_take ha⟩⟩
      rw [hours endpoint List.mem_cons_self]
      exact List.mem_append_right _ List.mem_cons_self
    | true =>
      rw [Bool.not_true, if_neg Bool.false_ne_true]
      split
      · rename_i addr hfind
        have hname := List.find?_some hfind
        exact ⟨⟨hpeer, hname⟩, trivial⟩
      · exact fun hours => absurd (hpeer.symm.trans hours) nofun

theorem Inv.step_read (h : Inv ourRelay g) {addr : SocketAddr} {pc pc' : Slots.Pc}
    (hk : g.guards[k]? = some ⟨target, .taking addr pc⟩)
    (hread : pc.read maxPeerConnects g.peerConnects = some pc') :
    Inv ourRelay (g.put k target (if pc' = .refused then .ended else .taking addr pc')) := by
  obtain ⟨hpeer, hpc⟩ : Fits ourRelay g target (.taking addr pc) :=
    h.fits _ (List.mem_of_getElem? hk)
  split_ifs with hrefused
  · exact h.move hk trivial rfl
  · exact h.move hk ⟨hpeer, (hpc.read hread).resolve_left hrefused⟩ rfl

theorem Inv.step_swap (h : Inv ourRelay g) {addr : SocketAddr} {pc pc' : Slots.Pc} {n : ℕ}
    (hk : g.guards[k]? = some ⟨target, .taking addr pc⟩)
    (hswap : pc.swap usizeMax g.peerConnects = some (n, pc')) :
    Inv ourRelay { g.put k target (.dialing addr) with peerConnects := n } := by
  obtain ⟨hpeer, hpc⟩ : Fits ourRelay g target (.taking addr pc) :=
    h.fits _ (List.mem_of_getElem? hk)
  obtain ⟨hlt, rfl, -⟩ := hpc.swap (by decide) hswap
  refine h.put hk rfl rfl rfl (List.Subset.refl _) (List.append_nil _).symm hpeer nofun ?_ hlt
  change 1 + 0 + g.peerConnects ≤ 0 + (g.peerConnects + 1)
  omega

theorem Inv.step_ours (h : Inv ourRelay g) {endpoint : Endpoint} {addr : SocketAddr}
    {addrs : List SocketAddr} {rest : List Endpoint}
    (hk : g.guards[k]? = some ⟨target, .addresses endpoint (addr :: addrs) rest⟩) (ok : Bool) :
    Inv ourRelay { g.put k target (if ok then .ended else .addresses endpoint addrs rest) with
      attempts := g.attempts ++ [⟨target, addr⟩] } := by
  obtain ⟨hours, hendpoint, hrest, haddrs⟩ := h.fits _ (List.mem_of_getElem? hk)
  refine h.put hk rfl rfl rfl (List.Subset.refl _) rfl ?_ (fun x hx => ?_) ?_ h.bounded
  · cases ok with
    | true => trivial
    | false => exact ⟨hours, hendpoint, hrest, fun a ha => haddrs a (List.mem_cons_of_mem _ ha)⟩
  · rw [List.mem_singleton.mp hx]
    unfold Attempt.Ok
    rw [if_neg (by rw [hours]; exact Bool.false_ne_true)]
    exact haddrs addr List.mem_cons_self
  · refine taken_of_not (by cases ok <;> rfl) ?_ _
    exact List.filter_cons_of_neg (by rw [hours]; exact Bool.false_ne_true)

theorem Inv.step_dialing (h : Inv ourRelay g) {addr : SocketAddr}
    (hk : g.guards[k]? = some ⟨target, .dialing addr⟩) :
    Inv ourRelay { g.put k target .ended with attempts := g.attempts ++ [⟨target, addr⟩] } := by
  obtain ⟨hpeer, hname⟩ := h.fits _ (List.mem_of_getElem? hk)
  refine h.put hk rfl rfl rfl (List.Subset.refl _) rfl trivial (fun x hx => ?_) ?_ h.bounded
  · rw [List.mem_singleton.mp hx]
    unfold Attempt.Ok
    rw [if_pos hpeer]
    exact hname
  · have hfilter : [(⟨target, addr⟩ : Attempt)].filter (·.target.byPeer) = [⟨target, addr⟩] :=
      List.filter_cons_of_pos (p := fun x : Attempt => x.target.byPeer) hpeer
    rw [hfilter]
    change 0 + 1 + g.peerConnects ≤ 1 + g.peerConnects
    omega

theorem Inv.stepGuard (h : Inv ourRelay g) (hk : g.guards[k]? = some ⟨target, phase⟩)
    (hs : g.stepGuard k target phase a = some g') : Inv ourRelay g' := by
  have hfits := h.fits _ (List.mem_of_getElem? hk)
  have htarget := h.target _ (List.mem_of_getElem? hk)
  unfold Guards.stepGuard at hs
  split at hs
  · obtain rfl := Option.some.inj hs
    refine h.move hk (fits_connectPhase htarget) ?_
    cases target <;> rfl
  · obtain rfl := Option.some.inj hs
    exact h.move hk (fun hours e he => hfits hours e (List.mem_cons_of_mem _ he)) rfl
  · obtain rfl := Option.some.inj hs
    exact h.step_lookup hk _
  · obtain rfl := Option.some.inj hs
    exact h.move hk trivial rfl
  · obtain rfl := Option.some.inj hs
    exact h.move hk (fun _ => hfits.2.2.1) rfl
  · obtain rfl := Option.some.inj hs
    exact h.step_ours hk _
  · obtain ⟨pc', hread, rfl⟩ := Option.map_eq_some_iff.mp hs
    exact h.step_read hk hread
  · obtain ⟨⟨n, pc'⟩, hswap, rfl⟩ := Option.map_eq_some_iff.mp hs
    exact h.step_swap hk hswap
  · obtain rfl := Option.some.inj hs
    exact h.step_dialing hk
  · obtain rfl := Option.some.inj hs
    exact h.move hk trivial rfl
  · cases hs

theorem Inv.step_spawn (h : Inv ourRelay g) {pending : List Target}
    (hpending : g.pending = target :: pending) :
    Inv ourRelay { g with pending, guards := g.guards ++ [⟨target, .waiting⟩] } where
  few := by
    have hfew := h.few
    rw [hpending, List.length_cons] at hfew
    change (g.guards ++ [_]).length + pending.length ≤ maxTargets
    rw [List.length_append, List.length_singleton]
    omega
  pending := fun t ht => h.pending t (hpending ▸ List.mem_cons_of_mem _ ht)
  target := by
    intro x hx
    rcases List.mem_append.mp hx with hx | hx
    · exact h.target x hx
    · rw [List.mem_singleton.mp hx]
      exact h.pending target (hpending ▸ List.mem_cons_self)
  fits := by
    intro x hx
    rcases List.mem_append.mp hx with hx | hx
    · exact (h.fits x hx).mono (List.Subset.refl _) rfl
    · rw [List.mem_singleton.mp hx]
      trivial
  attempts := fun x hx => (h.attempts x hx).mono (List.Subset.refl _) rfl
  taken := by
    rw [List.countP_append, List.countP_singleton]
    exact h.taken
  bounded := h.bounded

theorem Inv.step (h : Inv ourRelay g) (hs : step g a = some g') : Inv ourRelay g' := by
  unfold Guards.step at hs
  split at hs
  · obtain ⟨⟨target, phase⟩, hk, hs⟩ := Option.bind_eq_some_iff.mp hs
    exact h.stepGuard hk hs
  · split at hs
    · rename_i hpending _
      obtain rfl := Option.some.inj hs
      exact h.step_spawn hpending
    · obtain rfl := Option.some.inj hs
      refine ⟨(Nat.add_le_add_left (Nat.zero_le _) _).trans h.few, nofun, h.target, fun x hx => ?_,
        fun x hx => ?_, h.taken, h.bounded⟩
      · exact (h.fits x hx).mono (List.Subset.refl _) rfl
      · exact (h.attempts x hx).mono (List.Subset.refl _) rfl
    · cases hs

theorem inv_start {ts : List Target} {allowLoopback : Bool}
    (h : ∀ t ∈ ts, t.Ok ourRelay allowLoopback) : Inv ourRelay (start ts allowLoopback) where
  few := by
    rw [start, List.length_nil, Nat.zero_add]
    exact List.length_take_le _ _
  pending := fun t ht => h t (List.mem_of_mem_take ht)
  target := nofun
  fits := nofun
  attempts := nofun
  taken := Nat.le_refl 0
  bounded := Nat.zero_le _

theorem allowLoopback_of_step (hs : step g a = some g') : g'.allowLoopback = g.allowLoopback := by
  unfold Guards.step at hs
  split at hs
  · obtain ⟨⟨target, phase⟩, -, hs⟩ := Option.bind_eq_some_iff.mp hs
    unfold Guards.stepGuard at hs
    split at hs
    case h_7 | h_8 =>
      obtain ⟨_, -, rfl⟩ := Option.map_eq_some_iff.mp hs
      rfl
    case h_11 => cases hs
    all_goals exact Option.some.inj hs ▸ rfl
  · split at hs
    · exact Option.some.inj hs ▸ rfl
    · exact Option.some.inj hs ▸ rfl
    · cases hs

/-- Where the guards of a transfer have connected to. -/
structure Safe (ourRelay : Endpoint) (allowLoopback : Bool) (g : Guards) : Prop where
  guards : g.guards.length ≤ maxTargets
  -- The peer chose few addresses, and none that it may not name.
  peer : g.peerAttempts.length ≤ maxPeerConnects
  nameable : ∀ x ∈ g.attempts, x.target.byPeer = true → Nameable allowLoopback x.addr.ip
  ours : ∀ x ∈ g.attempts, x.target.byPeer = false → g.Resolved ourRelay x.addr

/-- Whatever the peer's transit message holds, whatever names resolve to and however the guards take
their turns, the peer decides little of where we connect. -/
theorem guards_safe (ourRelay : Endpoint) (allowLoopback : Bool) (v : Json) (ts : List Target)
    (acts : List Act) (g : Guards)
    (hplan : (parseTransit v).map (targets ourRelay · allowLoopback) = .ok ts)
    (hrun : exec step (start ts allowLoopback) acts = some g) : Safe ourRelay allowLoopback g := by
  have htargets : ∀ t ∈ ts, t.Ok ourRelay allowLoopback := by
    cases hv : parseTransit v with
    | error e =>
      rw [hv] at hplan
      cases hplan
    | ok their =>
      rw [hv] at hplan
      obtain rfl := Except.ok.inj hplan
      exact fun t => target_ok
  have h : Inv ourRelay g := exec_invariant (fun _ _ _ => Inv.step) (inv_start htargets) hrun
  have hloop : g.allowLoopback = allowLoopback :=
    exec_invariant (I := fun g => g.allowLoopback = allowLoopback)
      (fun _ _ _ hs hstep => (allowLoopback_of_step hstep).trans hs) rfl hrun
  refine ⟨(Nat.le_add_right _ _).trans h.few, (Nat.le_add_left _ _).trans (h.taken.trans h.bounded),
    fun x hx hpeer => ?_, fun x hx hours => ?_⟩
  · have hok := h.attempts x hx
    unfold Attempt.Ok at hok
    rw [if_pos hpeer, hloop] at hok
    exact nameable_of_peerMayName hok
  · have hok := h.attempts x hx
    unfold Attempt.Ok at hok
    rwa [if_neg (by rw [hours]; exact Bool.false_ne_true)] at hok

/-- A peer that names its own address, ours as a mapped one, and a relay. -/
def named : Json :=
  let tcp (host : String) (port : ℤ) : Json :=
    .object [("type".toList, .string "direct-tcp-v1".toList),
      ("hostname".toList, .string host.toList), ("port".toList, integer port)]
  let ability (kind : String) : Json := .object [("type".toList, .string kind.toList)]
  .object [("abilities-v1".toList, .array [ability "direct-tcp-v1", ability "relay-v1"]),
    ("hints-v1".toList, .array [tcp "192.168.1.5" 1234, tcp "::ffff:127.0.0.1" 80,
      .object [("type".toList, .string "relay-v1".toList),
        ("hints".toList, .array [tcp "relay.example" 4001])]])]

def transitRelay : Endpoint := ⟨"transit.magic-wormhole.io".toList, 4001⟩

def namedTargets : List Target :=
  [.relay [transitRelay] true, .relay [⟨"relay.example".toList, 4001⟩] false,
    .direct ⟨.v4 0xc0a80105, 1234⟩]

/-- Our relay does not answer. The peer's is at our own address first, and is tried at another
one. -/
def tried : List Act :=
  [.spawn, .spawn, .spawn, .connect 0, .connect 1, .connect 2,
    .lookup 0 (some [⟨.v4 0x01020304, 4001⟩]), .read 2,
    .lookup 1 (some [⟨.v4 0x7f000001, 4001⟩, ⟨.v4 0x05060708, 4001⟩]), .read 1, .swap 2, .read 1,
    .dial 0 false, .dial 2 false, .swap 1, .dial 1 true]

theorem guards_safe_tried : ∃ g, (parseTransit named).map (targets transitRelay · false) =
    .ok namedTargets ∧ exec step (start namedTargets false) tried = some g ∧
    Safe transitRelay false g ∧ g.attempts.map (·.addr) =
    [⟨.v4 0x01020304, 4001⟩, ⟨.v4 0xc0a80105, 1234⟩, ⟨.v4 0x05060708, 4001⟩] := by
  have hplan : (parseTransit named).map (targets transitRelay · false) = .ok namedTargets := by
    decide +kernel
  refine ⟨_, hplan, rfl, guards_safe transitRelay false named namedTargets tried _ hplan rfl, rfl⟩

end Guards

end Sukkula.Wormhole
