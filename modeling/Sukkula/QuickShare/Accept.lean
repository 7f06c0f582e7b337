import Sukkula.Library.Tasks
import Sukkula.QuickShare.Outbound
import Sukkula.QuickShare.Receive
import Sukkula.Reach.Grants
import Sukkula.Transfer.Offers
import Sukkula.Wormhole.Transit

/-! # Connections from senders

A connection is let in from an address that is answered, into a slot, and within
the rate of its address; its task then runs from the handshake to the user's answer
and on to the files. The slots are given back as the tasks end, in any order, and
stay taken when receiving is stopped and started again.
-/

namespace Sukkula.Reach

open LocalSend (IpAddr)

structure ReachPolicy where
  allowLoopback : Bool

namespace ReachPolicy

variable (p : ReachPolicy)

def permitsV4 (a : BitVec 32) : Bool :=
  if (IpAddr.v4 a).isLoopback then p.allowLoopback
  else a >>> 24 = 10 ∨ a >>> 20 = 0xac1 ∨ a >>> 16 = 0xc0a8 ∨ a >>> 16 = 0xa9fe

def permitsV6 (a : BitVec 128) : Bool :=
  if (IpAddr.v6 a).isLoopback then p.allowLoopback
  else
    let first : BitVec 16 := (a >>> 112).setWidth 16
    first &&& 0xfe00 = 0xfc00 ∨ first &&& 0xffc0 = 0xfe80

/-- Whether a peer at an address may be answered. -/
def permits (ip : IpAddr) : Bool :=
  match ip.canonical with
  | .v4 a => p.permitsV4 a
  | .v6 a => p.permitsV6 a

end ReachPolicy

end Sukkula.Reach

namespace Sukkula.QuickShare

open Transition Tasks Assoc Iter Reach
open LocalSend (IpAddr Outcome)
open Offer (OfferFile)
open Transfer (Declined)

def maxInboundConnections : ℕ := 4

def maxConnectionsPerIp : ℕ := 2

structure Slots where
  total : ℕ := 0
  perIp : Table IpAddr ℕ := .empty

namespace Slots

/-- A slot for a connection from an address, if one is free. -/
def take (s : Slots) (ip : IpAddr) : Option Slots :=
  let fromIp := (s.perIp.lookup ip).getD 0
  if maxInboundConnections ≤ s.total ∨ maxConnectionsPerIp ≤ fromIp then none
  else some ⟨s.total + 1, s.perIp.set ip (fromIp + 1)⟩

def drop (s : Slots) (ip : IpAddr) : Slots :=
  let left := (s.perIp.lookup ip).getD 0 - 1
  ⟨s.total - 1, if left = 0 then s.perIp.remove ip else s.perIp.set ip left⟩

end Slots

/-- What the sender is told when the offer does not go ahead. -/
def statusFor : Declined → Status
  | .noSpace => .notEnoughSpace
  | .refused .timedOut => .timedOut
  | .invalid _ | .refused _ | .busy => .reject

/-- What is said to the sender, or was tried to be. -/
inductive Said
  | accept
  | reject (status : Status)
  | disconnection
  | cancel
  deriving DecidableEq, Repr

/-- The answer to an offer: the files that are taken, or why not. -/
abbrev Decision := Except Declined (List OfferFile)

namespace Connection

inductive Phase
  | handshaking
  | asking (ids : List ℤ) (textId : Option ℤ)
  | declining (status : Status) (rejected : Bool)
  | receiving (r : Receive)
  | cancelling (result : Except Ended (List Str)) (cancelled : Bool)
  | closed

inductive Act
  | introduced (ids : List ℤ) (textId : Option ℤ)
  -- Anything else than what is waited for, or nothing in time.
  | broke
  | quiet
  | stopSeen
  | answered (answer : Decision)
  | said
  | receive (a : Receive.Act)
  | dropped

end Connection

structure Connection where
  loop : ℕ
  ip : IpAddr
  phase : Connection.Phase := .handshaking
  answer : Option Decision := none
  said : List Said := []
  outcome : Option (Outcome × List Str) := none

namespace Connection

def new (loop : ℕ) (ip : IpAddr) : Connection where
  loop
  ip

variable (c : Connection)

def close : Connection := { c with phase := .closed }

def decline (status : Status) : Connection :=
  { c with phase := .declining status false, said := c.said ++ [.reject status] }

/-- `receive` has come to an end. -/
def receiveEnded (result : Except Ended (List Str)) (cancelled : Bool) : Connection :=
  match result with
  | .ok _ | .error .cancelledThere =>
    { c.close with outcome := some (Receive.report cancelled result) }
  | .error .cancelledHere | .error (.failed _) =>
    { c with phase := .cancelling result cancelled, said := c.said ++ [.cancel] }

def step (stopped : Bool) (a : Act) : Option Connection :=
  match c.phase, a with
  | .closed, _ => none
  | _, .dropped => some c.close
  | .handshaking, .stopSeen => if stopped then some c.close else none
  | .handshaking, .introduced ids textId => some { c with phase := .asking ids textId }
  | .handshaking, .quiet => some c
  | .handshaking, .broke => some c.close
  | .asking _ _, .stopSeen => if stopped then some (c.decline .reject) else none
  -- The token is looked at before the answer.
  | .asking ids textId, .answered answer =>
    if stopped then none
    else match answer with
      | .ok files => some { c with
          answer := some (.ok files)
          phase := .receiving (Receive.start ids files textId)
          said := c.said ++ [.accept] }
      | .error d => some { c.decline (statusFor d) with answer := some (.error d) }
  | .asking _ _, .quiet => some c
  | .asking _ _, .broke => some c.close
  | .declining status false, .said =>
    some { c with phase := .declining status true, said := c.said ++ [.disconnection] }
  | .declining _ true, .said => some c.close
  | .receiving r, .receive a =>
    (r.step a).map fun r' => match r'.phase with
      | .ended result => c.receiveEnded result r'.tokenCancelled
      | .goodbye => { c with
          phase := .receiving r'
          said := if r.phase = .goodbye then c.said else c.said ++ [.disconnection] }
      | _ => { c with phase := .receiving r' }
  | .cancelling result _, .receive .cancel => some { c with phase := .cancelling result true }
  | .cancelling result cancelled, .said =>
    some { c.close with outcome := some (Receive.report cancelled result) }
  | _, _ => none

def isOpen : Bool := match c.phase with
  | .closed => false
  | _ => true

end Connection

inductive LoopPhase
  | accepting
  | backoff
  | ended
  deriving DecidableEq, Repr

structure Loop where
  stopped : Bool := false
  phase : LoopPhase := .accepting
  deriving DecidableEq, Repr

structure Listener where
  slots : Slots := {}
  -- `allow_offer`, with what it answered.
  offers : Run IpAddr
  loops : List Loop := []
  connections : List Connection := []

namespace Listener

inductive Act
  -- `start_receiving`, which stops what was started before, and `stop_receiving`.
  | start
  | stop
  | accepted (loop : ℕ) (peer : IpAddr) (now : ℕ) (it : Iteration IpAddr Bucket)
  | acceptFailed (loop : ℕ)
  | backedOff (loop : ℕ)
  | loopEnds (loop : ℕ)
  | elsewhere (call : Reach.Call IpAddr)
  | connection (i : ℕ) (a : Connection.Act)

variable (p : ReachPolicy) (s : Listener)

def stopped (loop : ℕ) : Bool := (s.loops[loop]?.map Loop.stopped).getD true

def stopAll : List Loop := s.loops.map fun l => { l with stopped := true }

def moveLoop (loop : ℕ) (before after : LoopPhase) : Option Listener :=
  match s.loops[loop]? with
  | none => none
  | some l =>
    if l.phase = before then some { s with loops := s.loops.set loop { l with phase := after } }
    else none

def endLoop (loop : ℕ) : Option Listener :=
  match s.loops[loop]? with
  | none => none
  | some l =>
    if l.stopped ∧ l.phase ≠ .ended then
      some { s with loops := s.loops.set loop { l with phase := .ended } }
    else none

def accepted (loop : ℕ) (peer : IpAddr) (now : ℕ) (it : Iteration IpAddr Bucket) : Listener :=
  let ip := peer.canonical
  if !p.permits ip then s
  else match s.slots.take ip with
    | none => s
    | some slots =>
      let offers := s.offers.step ⟨ip, now, it⟩
      if (s.offers.limiter.allow it ip now).2 then
        { s with slots, offers, connections := s.connections ++ [.new loop ip] }
      -- The slot is dropped with the socket.
      else { s with slots := slots.drop ip, offers }

def step : Act → Option Listener
  | .start => some { s with loops := s.stopAll ++ [{}] }
  | .stop => some { s with loops := s.stopAll }
  -- A loop that was stopped may still win a connection before it sees its token.
  | .accepted loop peer now it =>
    if (s.loops[loop]?.map Loop.phase) = some .accepting then some (s.accepted p loop peer now it)
    else none
  | .acceptFailed loop => s.moveLoop loop .accepting .backoff
  | .backedOff loop => s.moveLoop loop .backoff .accepting
  | .loopEnds loop => s.endLoop loop
  | .elsewhere call => some { s with offers := s.offers.step call }
  | .connection i a => do
    let c ← s.connections[i]?
    let c' ← c.step (s.stopped c.loop) a
    some { s with
      slots := if c'.isOpen then s.slots else s.slots.drop c.ip
      connections := s.connections.set i c' }

end Listener

section Slots

variable {s s' : Slots} {cs : List Connection} {ip ip' : IpAddr}

def openFrom (ip : IpAddr) (c : Connection) : Bool := c.isOpen && decide (c.ip = ip)

/-- The slots that are taken are the open connections. -/
structure Slots.Counts (s : Slots) (n : ℕ) (f : IpAddr → ℕ) : Prop where
  total : s.total = n
  perIp : ∀ ip, s.perIp.lookup ip = if f ip = 0 then none else some (f ip)

theorem Slots.Counts.getD {n : ℕ} {f : IpAddr → ℕ} (h : s.Counts n f) (ip : IpAddr) :
    (s.perIp.lookup ip).getD 0 = f ip := by
  rw [h.perIp]
  split_ifs with h0
  · exact h0.symm
  · rfl

def more (ip : IpAddr) (f : IpAddr → ℕ) (ip' : IpAddr) : ℕ := f ip' + if ip' = ip then 1 else 0

theorem Slots.Counts.take {n : ℕ} {f : IpAddr → ℕ} (h : s.Counts n f)
    (htake : s.take ip = some s') :
    n < maxInboundConnections ∧ f ip < maxConnectionsPerIp ∧ s'.Counts (n + 1) (more ip f) := by
  unfold Slots.take at htake
  simp only [h.total, h.getD] at htake
  split_ifs at htake with hfull
  obtain rfl := Option.some.inj htake
  obtain ⟨hn, hf⟩ := not_or.mp hfull
  refine ⟨not_le.mp hn, not_le.mp hf, rfl, fun ip' => ?_⟩
  rw [Table.lookup_set, more]
  split_ifs with heq h0 h1
  · omega
  · rw [heq]
  · rw [h.perIp, if_pos (by omega)]
  · rw [h.perIp, if_neg (by omega), Nat.add_zero]

theorem Slots.Counts.drop {n : ℕ} {f : IpAddr → ℕ} (h : s.Counts (n + 1) (more ip f)) :
    (s.drop ip).Counts n f := by
  constructor
  · exact Nat.sub_eq_of_eq_add h.total
  · intro ip'
    have hleft : (s.perIp.lookup ip).getD 0 - 1 = f ip := by
      rw [h.getD, more, if_pos rfl, Nat.add_sub_cancel]
    have hdrop : (s.drop ip).perIp = if f ip = 0 then s.perIp.remove ip
        else s.perIp.set ip (f ip) := by
      simp only [Slots.drop, hleft]
    rw [hdrop]
    by_cases heq : ip' = ip
    · subst heq
      split_ifs with h0
      · rw [Table.lookup_remove, if_pos rfl]
      · rw [Table.lookup_set, if_pos rfl]
    · have hother := h.perIp ip'
      rw [more, if_neg heq, Nat.add_zero] at hother
      rw [← hother]
      split_ifs
      · rw [Table.lookup_remove, if_neg heq]
      · rw [Table.lookup_set, if_neg heq]

end Slots

namespace Connection

/-- What was said to the sender fits the answer. -/
inductive Spoken (stopped : Bool) : Option Decision → List Said → Prop
  | silent : Spoken stopped none []
  | stopped {rest : List Said} (h : stopped) (hrest : rest <+: [.disconnection]) :
      Spoken stopped none (.reject .reject :: rest)
  | declined (d : Declined) {rest : List Said} (hrest : rest <+: [.disconnection]) :
      Spoken stopped (some (.error d)) (.reject (statusFor d) :: rest)
  | accepted (files : List OfferFile) {rest : List Said}
  (hrest : rest <+: [.disconnection] ∨ rest = [.cancel]) :
      Spoken stopped (some (.ok files)) (.accept :: rest)

/-- Where a connection is, and what it has said till then. -/
def PhaseOk (c : Connection) : Prop :=
  match c.phase with
  | .handshaking | .asking _ _ => c.answer = none ∧ c.said = []
  | .declining status false => c.said = [.reject status]
  | .receiving r => (∃ files, c.answer = some (.ok files)) ∧ r.result = none ∧
      c.said = .accept :: if r.phase = .goodbye then [.disconnection] else []
  | _ => True

structure Ok (stopped : Bool) (c : Connection) : Prop where
  spoken : Spoken stopped c.answer c.said
  phase : c.PhaseOk

section Step

variable {stopped : Bool} {c c' : Connection} {a : Act}

theorem Spoken.mono {stopped' : Bool} {answer : Option Decision} {said : List Said}
    (h : stopped → stopped') (hs : Spoken stopped answer said) : Spoken stopped' answer said := by
  cases hs with
  | silent => exact .silent
  | stopped hstop hrest => exact .stopped (h hstop) hrest
  | declined d hrest => exact .declined d hrest
  | accepted files hrest => exact .accepted files hrest

theorem Spoken.goodbye {answer : Option Decision} {status : Status}
    (h : Spoken stopped answer [.reject status]) :
    Spoken stopped answer [.reject status, .disconnection] := by
  cases h with
  | stopped hstop _ => exact .stopped hstop (List.prefix_refl _)
  | declined d _ => exact .declined d (List.prefix_refl _)

theorem receive_goodbye {r r' : Receive} {a : Receive.Act} (h : r.step a = some r')
    (hr : r.phase = .goodbye) : r'.phase = .goodbye ∨ ∃ saved, r'.phase = .ended (.ok saved) := by
  unfold Receive.step at h
  rw [hr] at h
  cases a with
  | cancel =>
    obtain rfl := Option.some.inj h
    exact Or.inl rfl
  | sent =>
    obtain rfl := Option.some.inj h
    exact Or.inr ⟨_, rfl⟩
  | _ => cases h

theorem Ok.close (h : c.Ok stopped) (outcome : Option (Outcome × List Str)) :
    Ok stopped { c.close with outcome } :=
  ⟨h.spoken, trivial⟩

theorem Ok.receiveEnded {r r' : Receive} {a : Receive.Act} {result : Except Ended (List Str)}
    (h : c.Ok stopped) (hphase : c.phase = .receiving r) (hstep : r.step a = some r')
    (hend : r'.phase = .ended result) : (c.receiveEnded result r'.tokenCancelled).Ok stopped := by
  obtain ⟨⟨files, hanswer⟩, -, hsaid⟩ : _ ∧ _ ∧ _ := by
    have hok := h.phase
    rwa [PhaseOk, hphase] at hok
  have hcancel : ∀ e, result = .error e → c.said = [.accept] := by
    rintro e rfl
    rw [hsaid]
    split_ifs with hbye
    · rcases receive_goodbye hstep hbye with hr' | ⟨saved, hr'⟩
      · cases hr'.symm.trans hend
      · cases Receive.Phase.ended.inj (hr'.symm.trans hend)
    · rfl
  have hover (e : Ended) (he : result = .error e) :
      Ok stopped { c with
        phase := .cancelling result r'.tokenCancelled, said := c.said ++ [.cancel] } := by
    refine ⟨?_, trivial⟩
    rw [hanswer, hcancel e he]
    exact .accepted files (Or.inr rfl)
  cases result with
  | ok saved => exact h.close _
  | error e =>
    cases e with
    | cancelledThere => exact h.close _
    | cancelledHere => exact hover _ rfl
    | failed e => exact hover _ rfl

theorem Ok.receive {r : Receive} {b : Receive.Act} (h : c.Ok stopped)
    (hphase : c.phase = .receiving r) (hstep : c.step stopped (.receive b) = some c') :
    c'.Ok stopped := by
  obtain ⟨⟨files, hanswer⟩, hresult, hsaid⟩ : _ ∧ _ ∧ _ := by
    have hok := h.phase
    rwa [PhaseOk, hphase] at hok
  simp only [step, hphase] at hstep
  obtain ⟨r', hr', rfl⟩ := Option.map_eq_some_iff.mp hstep
  split
  case h_1 result hend => exact h.receiveEnded hphase hr' hend
  case h_2 hbye =>
    have hsaid' : (if r.phase = .goodbye then c.said else c.said ++ [.disconnection]) =
        [.accept, .disconnection] := by
      rw [hsaid]
      split_ifs <;> rfl
    refine ⟨?_, ⟨files, hanswer⟩, ?_, ?_⟩
    · rw [hsaid', hanswer]
      exact .accepted files (Or.inl (List.prefix_refl _))
    · rw [Receive.result, hbye]
    · rw [hsaid', if_pos hbye]
  case h_3 hend hbye =>
    have hbefore : r.phase ≠ .goodbye := by
      intro hr
      rcases receive_goodbye hr' hr with h' | ⟨saved, h'⟩
      · exact hbye h'
      · exact hend _ h'
    rw [if_neg hbefore] at hsaid
    refine ⟨?_, ⟨files, hanswer⟩, ?_, ?_⟩
    · rw [hsaid, hanswer]
      exact .accepted files (Or.inl (by simp))
    · unfold Receive.result
      split
      · exact absurd ‹_› (hend _)
      · rfl
    · rw [hsaid, if_neg hbye]

theorem isOpen_of_step (h : c.step stopped a = some c') : c.isOpen := by
  unfold isOpen
  split
  · rename_i hclosed
    rw [step.eq_def, hclosed] at h
    cases h
  · rfl

inductive Move (stopped : Bool) (c : Connection) : Connection → Prop
  | close (outcome : Option (Outcome × List Str)) : Move stopped c { c.close with outcome }
  | quiet : Move stopped c c
  | introduced (ids : List ℤ) (textId : Option ℤ) (h : c.phase = .handshaking) :
      Move stopped c { c with phase := .asking ids textId }
  | stop {ids : List ℤ} {textId : Option ℤ} (h : c.phase = .asking ids textId) (hstop : stopped) :
      Move stopped c (c.decline .reject)
  | declined {ids : List ℤ} {textId : Option ℤ} (d : Declined) (h : c.phase = .asking ids textId)
      (hgo : ¬ stopped) : Move stopped c { c.decline (statusFor d) with answer := some (.error d) }
  | accepted {ids : List ℤ} {textId : Option ℤ} (files : List OfferFile) (h : c.phase =
    .asking ids textId)
      (hgo : ¬ stopped) : Move stopped c { c with
        answer := some (.ok files)
        phase := .receiving (Receive.start ids files textId)
        said := c.said ++ [.accept] }
  | goodbye {status : Status} (h : c.phase = .declining status false) :
      Move stopped c { c with phase := .declining status true, said := c.said ++ [.disconnection] }
  | receive {c' : Connection} {r : Receive} {b : Receive.Act} (h : c.phase = .receiving r)
      (hstep : c.step stopped (.receive b) = some c') : Move stopped c c'
  | cancelled {result : Except Ended (List Str)} {cancelled : Bool} (h : c.phase =
    .cancelling result cancelled) :
      Move stopped c { c with phase := .cancelling result true }

theorem move_of_step (h : c.step stopped a = some c') : Move stopped c c' := by
  have hwhole := h
  unfold step at h
  split at h
  case h_1 => cases h
  case h_2 => exact Option.some.inj h ▸ .close _
  case h_3 =>
    split_ifs at h
    exact Option.some.inj h ▸ .close _
  case h_4 hphase => exact Option.some.inj h ▸ .introduced _ _ hphase
  case h_5 => exact Option.some.inj h ▸ .quiet
  case h_6 => exact Option.some.inj h ▸ .close _
  case h_7 hphase =>
    split_ifs at h with hstop
    exact Option.some.inj h ▸ .stop hphase hstop
  case h_8 hphase =>
    split_ifs at h with hgo
    split at h
    · exact Option.some.inj h ▸ .accepted _ hphase hgo
    · exact Option.some.inj h ▸ .declined _ hphase hgo
  case h_9 => exact Option.some.inj h ▸ .quiet
  case h_10 => exact Option.some.inj h ▸ .close _
  case h_11 hphase => exact Option.some.inj h ▸ .goodbye hphase
  case h_12 => exact Option.some.inj h ▸ .close _
  case h_13 hphase => exact .receive hphase hwhole
  case h_14 hphase => exact Option.some.inj h ▸ .cancelled hphase
  case h_15 => exact Option.some.inj h ▸ .close _
  case h_16 => cases h

theorem receiveEnded_same (result : Except Ended (List Str)) (cancelled : Bool) :
    (c.receiveEnded result cancelled).ip = c.ip ∧
    (c.receiveEnded result cancelled).loop = c.loop := by
  unfold receiveEnded
  split <;> exact ⟨rfl, rfl⟩

theorem Move.same (h : Move stopped c c') : c'.ip = c.ip ∧ c'.loop = c.loop := by
  cases h with
  | receive hphase hstep =>
    simp only [step, hphase] at hstep
    obtain ⟨r', -, rfl⟩ := Option.map_eq_some_iff.mp hstep
    split
    · exact receiveEnded_same _ _
    · exact ⟨rfl, rfl⟩
    · exact ⟨rfl, rfl⟩
  | _ => exact ⟨rfl, rfl⟩

theorem Ok.move (h : c.Ok stopped) (hmove : Move stopped c c') : c'.Ok stopped := by
  have hphase := h.phase
  unfold PhaseOk at hphase
  cases hmove with
  | close outcome => exact h.close outcome
  | quiet => exact h
  | introduced ids textId hc =>
    rw [hc] at hphase
    exact ⟨h.spoken, hphase⟩
  | stop hc hstop =>
    rw [hc] at hphase
    refine ⟨?_, by simp [PhaseOk, decline, hphase.2]⟩
    rw [decline, hphase.1, hphase.2]
    exact .stopped hstop (by simp)
  | declined d hc hgo =>
    rw [hc] at hphase
    refine ⟨?_, by simp [PhaseOk, decline, hphase.2]⟩
    rw [decline, hphase.2]
    exact .declined d (by simp)
  | accepted files hc hgo =>
    rw [hc] at hphase
    rw [hphase.2]
    exact ⟨.accepted files (Or.inl (by simp)), ⟨files, rfl⟩, rfl, rfl⟩
  | goodbye hc =>
    rw [hc] at hphase
    refine ⟨?_, trivial⟩
    have hspoken := h.spoken
    rw [hphase] at hspoken ⊢
    exact hspoken.goodbye
  | receive hc hstep => exact h.receive hc hstep
  | cancelled hc => exact ⟨h.spoken, trivial⟩

/-- Once the receiving is stopped, no sender is told yes any more. -/
theorem Ok.late (h : c.Ok stopped) (hstop : stopped) (hsaid : .accept ∉ c.said)
    (hmove : Move stopped c c') : .accept ∉ c'.said := by
  cases hmove with
  | close outcome => exact hsaid
  | quiet => exact hsaid
  | introduced ids textId hc => exact hsaid
  | stop hc _ => simpa [decline] using hsaid
  | declined d hc hgo => exact absurd hstop hgo
  | accepted files hc hgo => exact absurd hstop hgo
  | goodbye hc => simpa using hsaid
  | receive hc hstep =>
    have hphase := h.phase
    rw [PhaseOk, hc] at hphase
    exact absurd (by simp [hphase.2.2]) hsaid
  | cancelled hc => exact hsaid

end Step

end Connection

namespace Listener

variable {p : ReachPolicy} {s s' : Listener} {a : Act} {ip : IpAddr} {i : ℕ} {c c' : Connection}

structure Inv (p : ReachPolicy) (s : Listener) : Prop where
  counts : s.slots.Counts (s.connections.countP Connection.isOpen) fun ip =>
    s.connections.countP (openFrom ip)
  total : s.connections.countP Connection.isOpen ≤ maxInboundConnections
  perIp : ∀ ip, s.connections.countP (openFrom ip) ≤ maxConnectionsPerIp
  loop : ∀ c ∈ s.connections, c.loop < s.loops.length
  spoken : ∀ c ∈ s.connections, c.Ok (s.stopped c.loop)
  reach : ∀ c ∈ s.connections, p.permits c.ip ∧ c.ip.canonical = c.ip
  granted : ∀ ip, s.connections.countP (·.ip = ip) ≤ grants ip s.offers.history

theorem canonical_canonical (ip : IpAddr) : ip.canonical.canonical = ip.canonical := by
  cases ip with
  | v4 a => rfl
  | v6 a =>
    by_cases h : a >>> 32 = 0xffff
    · rw [show (IpAddr.v6 a).canonical = .v4 (a.setWidth 32) from if_pos h]
      rfl
    · have hself : (IpAddr.v6 a).canonical = .v6 a := if_neg h
      rw [hself, hself]

def Later (loops loops' : List Loop) : Prop :=
  loops.length ≤ loops'.length ∧
    ∀ (n : ℕ) (l : Loop), loops[n]? = some l → ∃ l', loops'[n]? = some l' ∧ (l.stopped → l'.stopped)

theorem Later.stopped {loops : List Loop} (h : Later s.loops loops) {n : ℕ}
    (hn : n < s.loops.length) (hs : s.stopped n) : { s with loops }.stopped n := by
  obtain ⟨l', hl', hstop⟩ := h.2 n s.loops[n] (by simp [hn])
  have hl : s.loops[n].stopped := by simpa [Listener.stopped, hn] using hs
  simp [Listener.stopped, hl', hstop hl]

theorem later_stopAll (s : Listener) (loops : List Loop) : Later s.loops (s.stopAll ++ loops) := by
  constructor
  · simp [stopAll]
  · intro n l hl
    have hn : n < s.loops.length := (List.getElem?_eq_some_iff.mp hl).1
    refine ⟨{ l with stopped := true }, ?_, fun _ => rfl⟩
    rw [List.getElem?_append_left (by simpa [stopAll] using hn), stopAll, List.getElem?_map, hl]
    rfl

theorem later_set {n : ℕ} {l : Loop} (h : s.loops[n]? = some l) (phase : LoopPhase) :
    Later s.loops (s.loops.set n { l with phase }) := by
  constructor
  · simp
  · intro m k hk
    by_cases hm : n = m
    · subst hm
      obtain rfl := Option.some.inj (h.symm.trans hk)
      exact ⟨_, getElem?_set_same _ h, id⟩
    · exact ⟨k, by rwa [List.getElem?_set_ne hm], id⟩

theorem moveLoop_spec {n : ℕ} {before after : LoopPhase} (h : s.moveLoop n before after = some s') :
    ∃ loops, Later s.loops loops ∧ s' = { s with loops } := by
  unfold moveLoop at h
  split at h
  · cases h
  · split_ifs at h
    exact ⟨_, later_set ‹_› after, (Option.some.inj h).symm⟩

theorem endLoop_spec {n : ℕ} (h : s.endLoop n = some s') :
    ∃ loops, Later s.loops loops ∧ s' = { s with loops } := by
  unfold endLoop at h
  split at h
  · cases h
  · split_ifs at h
    exact ⟨_, later_set ‹_› .ended, (Option.some.inj h).symm⟩

theorem Inv.loops {loops : List Loop} (h : s.Inv p) (hl : Later s.loops loops) :
    Inv p { s with loops } where
  counts := h.counts
  total := h.total
  perIp := h.perIp
  loop c hc := (h.loop c hc).trans_le hl.1
  spoken c hc := ⟨(h.spoken c hc).spoken.mono (hl.stopped (h.loop c hc)), (h.spoken c hc).phase⟩
  reach := h.reach
  granted := h.granted

theorem grants_step (offers : Run IpAddr) (call : Reach.Call IpAddr) (ip : IpAddr) :
    grants ip (offers.step call).history = grants ip offers.history +
      if call.ip = ip ∧ (offers.limiter.allow call.iteration call.ip call.now).2 then 1 else 0 := by
  rw [Run.step, grants_cons]

theorem Inv.offers (h : s.Inv p) (call : Reach.Call IpAddr) :
    Inv p { s with offers := s.offers.step call } where
  counts := h.counts
  total := h.total
  perIp := h.perIp
  loop := h.loop
  spoken := h.spoken
  reach := h.reach
  granted ip := by
    rw [grants_step]
    exact (h.granted ip).trans (Nat.le_add_right _ _)

theorem Inv.admitted {slots : Slots} {loop now : ℕ} {it : Iteration IpAddr Bucket} (h : s.Inv p)
    (hloop : loop < s.loops.length) (hpermits : p.permits ip) (hcanonical : ip.canonical = ip)
    (htake : s.slots.take ip = some slots) (hallow : (s.offers.limiter.allow it ip now).2) :
    Inv p { s with
      slots, offers := s.offers.step ⟨ip, now, it⟩, connections := s.connections ++
        [.new loop ip] } := by
  obtain ⟨htotal, hper, hcounts⟩ := h.counts.take htake
  have hone (ip' : IpAddr) : (s.connections ++ [Connection.new loop ip]).countP (openFrom ip') =
      more ip (fun ip => s.connections.countP (openFrom ip)) ip' := by
    rw [List.countP_append, more, List.countP_singleton]
    by_cases heq : ip' = ip
    · simp [openFrom, Connection.new, Connection.isOpen, heq]
    · simp [openFrom, Connection.new, heq, Ne.symm heq]
  constructor
  · rw [funext hone, List.countP_append]
    exact hcounts
  · rw [List.countP_append]
    exact htotal
  · intro ip'
    rw [hone, more]
    split_ifs with heq
    · rw [heq]
      exact hper
    · exact h.perIp ip'
  · exact forall_mem_snoc h.loop hloop
  · exact forall_mem_snoc h.spoken ⟨.silent, rfl, rfl⟩
  · exact forall_mem_snoc h.reach ⟨hpermits, hcanonical⟩
  · intro ip'
    have hgranted := h.granted ip'
    rw [grants_step, List.countP_append, List.countP_singleton]
    by_cases heq : ip = ip'
    · subst heq
      simpa [Connection.new, hallow] using hgranted
    · simpa [Connection.new, heq] using hgranted

theorem Inv.accepted (h : s.Inv p) {loop : ℕ} (hloop : loop < s.loops.length)
    (peer : IpAddr) (now : ℕ) (it : Iteration IpAddr Bucket) :
    Inv p (s.accepted p loop peer now it) := by
  unfold Listener.accepted
  dsimp only
  by_cases hpermits : p.permits peer.canonical
  · rw [if_neg (by simp [hpermits])]
    split
    · exact h
    · rename_i slots htake
      split_ifs with hallow
      · exact h.admitted hloop hpermits (canonical_canonical peer) htake hallow
      · obtain ⟨-, -, hcounts⟩ := h.counts.take htake
        exact { h.offers ⟨peer.canonical, now, it⟩ with counts := hcounts.drop }
  · rw [if_pos (by simpa using hpermits)]
    exact h

theorem accepted_spec (p : ReachPolicy) (s : Listener) (loop : ℕ) (peer : IpAddr) (now : ℕ)
    (it : Iteration IpAddr Bucket) :
    (s.accepted p loop peer now it).loops = s.loops ∧
    s.connections <+: (s.accepted p loop peer now it).connections := by
  unfold Listener.accepted
  dsimp only
  split
  · exact ⟨rfl, List.prefix_refl _⟩
  · split
    · exact ⟨rfl, List.prefix_refl _⟩
    · split
      · exact ⟨rfl, List.prefix_append _ _⟩
      · exact ⟨rfl, List.prefix_refl _⟩

theorem Inv.move {b : Connection.Act} (h : s.Inv p) (hc : s.connections[i]? = some c)
    (hstep : c.step (s.stopped c.loop) b = some c') :
    Inv p { s with
      slots := if c'.isOpen then s.slots
        else s.slots.drop c.ip, connections := s.connections.set i c' } := by
  have hmem := List.mem_of_getElem? hc
  have hmove := Connection.move_of_step hstep
  have hopen := Connection.isOpen_of_step hstep
  obtain ⟨hip, hloop⟩ := hmove.same
  have htotal := countP_set_add Connection.isOpen c' hc
  have hper (ip' : IpAddr) := countP_set_add (openFrom ip') c' hc
  have hfrom (ip' : IpAddr) : openFrom ip' c = decide (c.ip = ip') := by
    rw [openFrom, hopen, Bool.true_and]
  have hfrom' (ip' : IpAddr) : openFrom ip' c' = (c'.isOpen && decide (c.ip = ip')) := by
    rw [openFrom, hip]
  simp only [hfrom, hfrom', hopen, if_true] at htotal hper
  constructor
  · by_cases hopen' : c'.isOpen
    · simp only [hopen', Bool.true_and, if_true] at htotal hper ⊢
      rw [Nat.add_right_cancel htotal, funext fun ip' => Nat.add_right_cancel (hper ip')]
      exact h.counts
    · simp only [hopen', Bool.false_and, Bool.false_eq_true, if_false,
        Nat.add_zero] at htotal hper ⊢
      have hcounts := h.counts
      rw [← htotal, ← funext hper] at hcounts
      have hmore (ip' : IpAddr) : (s.connections.set i c').countP (openFrom ip') +
          (if decide (c.ip = ip') then 1 else 0) =
          more c.ip (fun ip => (s.connections.set i c').countP (openFrom ip)) ip' := by
        simp [more, eq_comm]
      rw [funext hmore] at hcounts
      exact hcounts.drop
  · exact (countP_set_le hc fun _ => hopen).trans h.total
  · intro ip'
    refine (countP_set_le hc fun hfrom => ?_).trans (h.perIp ip')
    rw [openFrom, hip, Bool.and_eq_true] at hfrom
    rw [openFrom, hopen, hfrom.2]
    rfl
  · exact forall_mem_set h.loop (hloop ▸ h.loop c hmem)
  · exact forall_mem_set h.spoken (hloop ▸ (h.spoken c hmem).move hmove)
  · exact forall_mem_set h.reach (hip ▸ h.reach c hmem)
  · intro ip'
    have hfrom := countP_set_add (·.ip = ip') c' hc
    rw [hip] at hfrom
    exact (Nat.add_right_cancel hfrom).trans_le (h.granted ip')

theorem step_connection {b : Connection.Act} (h : s.step p (.connection i b) = some s') :
    ∃ c c', s.connections[i]? = some c ∧ c.step (s.stopped c.loop) b = some c' ∧
      s' = { s with
        slots := if c'.isOpen then s.slots
          else s.slots.drop c.ip, connections := s.connections.set i c' } := by
  obtain ⟨c, hc, h⟩ := Option.bind_eq_some_iff.mp h
  obtain ⟨c', hc', h⟩ := Option.bind_eq_some_iff.mp h
  exact ⟨c, c', hc, hc', (Option.some.inj h).symm⟩

theorem step_loop (h : s.step p a = some s') :
    (∃ loops, Later s.loops loops ∧ s' = { s with loops }) ∨
      (∃ loop peer now it, loop < s.loops.length ∧ s' = s.accepted p loop peer now it) ∨
      (∃ call, s' = { s with offers := s.offers.step call }) ∨ ∃ i b, a = .connection i b := by
  cases a with
  | start => exact Or.inl ⟨_, later_stopAll s [{}], (Option.some.inj h).symm⟩
  | stop => exact Or.inl ⟨_, by simpa using later_stopAll s [], (Option.some.inj h).symm⟩
  | accepted loop peer now it =>
    simp only [Listener.step] at h
    split_ifs at h with hloop
    obtain ⟨l, hl, -⟩ := Option.map_eq_some_iff.mp hloop
    exact Or.inr (Or.inl ⟨loop, peer, now, it, (List.getElem?_eq_some_iff.mp hl).1,
      (Option.some.inj h).symm⟩)
  | acceptFailed loop => exact Or.inl (moveLoop_spec h)
  | backedOff loop => exact Or.inl (moveLoop_spec h)
  | loopEnds loop => exact Or.inl (endLoop_spec h)
  | elsewhere call => exact Or.inr (Or.inr (Or.inl ⟨call, (Option.some.inj h).symm⟩))
  | connection i b => exact Or.inr (Or.inr (Or.inr ⟨i, b, rfl⟩))

theorem Inv.step (hinv : s.Inv p) (h : s.step p a = some s') : s'.Inv p := by
  rcases step_loop h with ⟨loops, hl, rfl⟩ | ⟨loop, peer, now, it, hloop, rfl⟩
    | ⟨call, rfl⟩ | ⟨i, b, rfl⟩
  · exact hinv.loops hl
  · exact hinv.accepted hloop peer now it
  · exact hinv.offers call
  · obtain ⟨c, c', hc, hstep, rfl⟩ := step_connection h
    exact hinv.move hc hstep

def start (burst window : ℕ) : Listener where
  offers := ⟨.new burst window, []⟩

theorem Inv.start (burst window : ℕ) : (start burst window).Inv p where
  counts := ⟨rfl, fun _ => rfl⟩
  total := Nat.zero_le _
  perIp _ := Nat.zero_le _
  loop _ hc := absurd hc List.not_mem_nil
  spoken _ hc := absurd hc List.not_mem_nil
  reach _ hc := absurd hc List.not_mem_nil
  granted _ := Nat.zero_le _

/-- A connection that came to a receiving which is stopped, and that was not told yes. -/
def Late (i : ℕ) (s : Listener) : Prop :=
  ∃ c, s.connections[i]? = some c ∧ s.stopped c.loop ∧ .accept ∉ c.said

theorem Late.step (hinv : s.Inv p) (hlate : s.Late i) (h : s.step p a = some s') : s'.Late i := by
  obtain ⟨c, hc, hstop, hsaid⟩ := hlate
  have hmem := List.mem_of_getElem? hc
  rcases step_loop h with ⟨loops, hl, rfl⟩ | ⟨loop, peer, now, it, -, rfl⟩
    | ⟨call, rfl⟩ | ⟨j, b, rfl⟩
  · exact ⟨c, hc, hl.stopped (hinv.loop c hmem) hstop, hsaid⟩
  · obtain ⟨hloops, more, hmore⟩ := accepted_spec p s loop peer now it
    refine ⟨c, ?_, by rwa [stopped, hloops], hsaid⟩
    rw [← hmore, List.getElem?_append_left (List.getElem?_eq_some_iff.mp hc).1, hc]
  · exact ⟨c, hc, hstop, hsaid⟩
  · obtain ⟨d, d', hd, hstep, rfl⟩ := step_connection h
    by_cases hij : j = i
    · subst hij
      obtain rfl := Option.some.inj (hd.symm.trans hc)
      have hmove := Connection.move_of_step hstep
      refine ⟨d', getElem?_set_same d' hd, ?_, (hinv.spoken d hmem).late hstop hsaid hmove⟩
      rw [hmove.same.2]
      exact hstop
    · exact ⟨c, by rwa [List.getElem?_set_ne hij], hstop, hsaid⟩

/-- However connections come and end, and receiving is started and stopped: the slots that are taken
are the open connections, at most four, and two from one address. Each of them came from an address
that is answered, took a grant of its own, and was told what fits the user's answer, once; and after
its receiving was stopped it is not told yes any more. -/
theorem connections_admitted (p : ReachPolicy) (burst window : ℕ) (acts : List Act) (s : Listener)
    (hrun : exec (step p) (start burst window) acts = some s) :
    (s.slots.total = s.connections.countP Connection.isOpen ∧ s.slots.total ≤ 4) ∧
    (∀ ip, s.slots.perIp.lookup ip ≠ some 0 ∧
      (s.slots.perIp.lookup ip).getD 0 = s.connections.countP (openFrom ip) ∧
      s.connections.countP (openFrom ip) ≤ 2) ∧
    (∀ c ∈ s.connections, p.permits c.ip ∧ c.ip.canonical = c.ip ∧
      Connection.Spoken (s.stopped c.loop) c.answer c.said) ∧
    (∀ ip, s.connections.countP (·.ip = ip) ≤ grants ip s.offers.history) ∧
    (∀ (i : ℕ) (c c' : Connection) (acts' : List Act) (s' : Listener), s.connections[i]? = some c →
      s.stopped c.loop → .accept ∉ c.said →
      exec (step p) s acts' = some s' → s'.connections[i]? = some c' → .accept ∉ c'.said) := by
  have hinv : s.Inv p := exec_invariant (fun s a s' h hs => h.step hs) (Inv.start burst window) hrun
  have htotal := hinv.counts.total
  refine ⟨⟨htotal, htotal ▸ hinv.total⟩, fun ip => ⟨?_, hinv.counts.getD ip, hinv.perIp ip⟩, ?_,
    hinv.granted, ?_⟩
  · rw [hinv.counts.perIp]
    split_ifs with h0
    · exact nofun
    · exact fun h => h0 (Option.some.inj h)
  · intro c hc
    obtain ⟨hpermits, hcanonical⟩ := hinv.reach c hc
    exact ⟨hpermits, hcanonical, (hinv.spoken c hc).spoken⟩
  · intro i c c' acts' s' hc hstop hsaid hrun' hc'
    have hlate := exec_invariant (I := fun s => s.Inv p ∧ s.Late i)
      (fun s a s' h hs => ⟨h.1.step hs, h.2.step h.1 hs⟩) ⟨hinv, c, hc, hstop, hsaid⟩ hrun'
    obtain ⟨-, d, hd, -, hnot⟩ := hlate
    obtain rfl := Option.some.inj (hd.symm.trans hc')
    exact hnot

/-- One address three times: the third finds no slot. The first is refused by the user, and when it
has ended the address gets in again. -/
theorem connections_admitted_thrice : ∃ s : Listener,
    exec (step ⟨false⟩) (start 10 1000)
      (let accepted (now : ℕ) : Act := .accepted 0 (.v4 0xc0a80102) now ⟨id, fun _ => .refl _⟩
       [.start, accepted 0, accepted 1, accepted 2, .connection 0 (.introduced [7] none),
        .connection 0 (.answered (.error .busy)), .connection 0 .said, .connection 0 .said,
        accepted 3]) = some s ∧
      s.connections.length = 3 ∧ s.slots.total = 2 ∧
      s.slots.total = s.connections.countP Connection.isOpen := by
  have hany : (exec (step ⟨false⟩) (start 10 1000)
      (let accepted (now : ℕ) : Act := .accepted 0 (.v4 0xc0a80102) now ⟨id, fun _ => .refl _⟩
       [.start, accepted 0, accepted 1, accepted 2, .connection 0 (.introduced [7] none),
        .connection 0 (.answered (.error .busy)), .connection 0 .said, .connection 0 .said,
        accepted 3])).any
        (fun s => s.connections.length = 3 ∧ s.slots.total = 2) = true := by decide +kernel
  obtain ⟨s, hs, hp⟩ := (Option.any_eq_true ..).mp hany
  obtain ⟨hlen, htotal⟩ := of_decide_eq_true hp
  obtain ⟨⟨hcount, -⟩, -⟩ := connections_admitted ⟨false⟩ 10 1000 _ s hs
  exact ⟨s, hs, hlen, htotal, hcount⟩

end Listener

end Sukkula.QuickShare
