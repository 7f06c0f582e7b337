import Sukkula.Croc.PakeKey
import Sukkula.Library.Prog

/-! # Which key the peers agree on

The two sides of the key exchange, each a program that sends and reads through
the relay. The relay hands over whatever it likes: nothing is sealed yet. croc 10's
exchange and croc 11's differ in a number of the messages, and each side goes by
the number that it is handed.
-/

namespace Sukkula.Croc.Exchange

open LocalSend (ErrorInfo)
open Transition

structure Message where
  kind : Kind
  -- croc 11's version of the exchange; 0, and left out, elsewhere.
  v : ℤ := 0
  b : Bytes := []
  b2 : Bytes := []
  deriving DecidableEq

structure Code where
  password : Bytes
  room : Str

inductive Call
  | random (n : ℕ)
  | send (m : Message)
  | recv

/-- The answers; a frame is of the relay's own making. -/
def Ans (F : Type) : Call → Type
  | .random _ => Except ErrorInfo Bytes
  | .send _ => Except ErrorInfo Unit
  | .recv => Except ErrorInfo F

inductive Choice (F : Type)
  | done
  | bytes (r : Bytes)
  | frame (f : F)
  | failed (e : ErrorInfo)

/-- A side's connection: what it sent, and what it was handed. -/
structure Line (F : Type) where
  sent : List Message := []
  read : List F := []

variable {F : Type}

def os : (c : Call) → Line F → Choice F → Option (Ans F c × Line F)
  | .random n, s, .bytes r => if r.length = n then some (Except.ok r, s) else none
  | .send m, s, .done => some (Except.ok (), { s with sent := s.sent ++ [m] })
  | .recv, s, .frame f => some (Except.ok f, { s with read := s.read ++ [f] })
  | .random _, s, .failed e => some (Except.error e, s)
  | .send _, s, .failed e => some (Except.error e, s)
  | .recv, s, .failed e => some (Except.error e, s)
  | _, _, _ => none

def machine : Machine (Ans F) (Line F) (Choice F) Empty where
  os := os
  env _ a := a.elim

abbrev Peer (F : Type) := ExceptT ErrorInfo (Prog (Ans F))

def random (n : ℕ) : Peer F Bytes := ExceptT.mk (Prog.ask (Call.random n))

def send (m : Message) : Peer F Unit := ExceptT.mk (Prog.ask (Call.send m))

def recv : Peer F F := ExceptT.mk (Prog.ask Call.recv)

/-- `bytes` if there are so many. -/
def sized (n : ℕ) (bytes : Bytes) : Option Bytes := if bytes.length = n then some bytes else none

inductive Agreed
  | croc10 (key : Bytes)
  | croc11 (keys : Keys)
  deriving DecidableEq

def Agreed.key : Agreed → Bytes
  | croc10 key => key
  | croc11 keys => keys.encryption

section Sides

variable (A : Arithmetic) (parse : Bytes → Option Wire) (H : Hashes) (decode : F → Option Message)
  (code : Code)

/-- `crypt::SALT_BYTES` -/
def cryptSaltBytes : ℕ := 8

/-- PBKDF2 of a password, in croc's hundred rounds and one block. -/
def pbkdf2 (password salt : Bytes) : Bytes :=
  let prf := H.hmac password
  let u := prf (salt ++ [0, 0, 0, 1])
  ((List.range 99).foldl
    (fun (u, t) _ => let u := prf u; (u, List.zipWith (· ^^^ ·) t u)) (u, u)).2

def opening (f : F) : Option Message :=
  (decode f).filter fun m => m.kind = .pake ∧ m.b.length ≤ maxPakeBytes

def confirmation (f : F) : Option Message :=
  (decode f).filter fun c => c.kind = .pakeConfirm ∧ c.v = version

/-- The receiver's side: our message, the sender's, then each side's proof of the key, ours
first. -/
def receiver : Peer F Agreed := do
  let ra ← random 32
  let pake ← okOr (protocol "no key") (Pake.start A .p256 code.password ra)
  let hello : Message :=
    { kind := .pake, v := version, b := pake.message, b2 := utf8 Curve.p256.name }
  send hello
  let frame ← recv
  let reply ← okOr (protocol "the croc sender did not answer the key exchange")
    (opening decode frame)
  let pake ← (pake.finish A parse reply.b).mapError fun _ =>
    protocol "the croc sender's key exchange is malformed"
  let badSalt := protocol "the croc sender's salt is malformed"
  if reply.v = 0 then
    let salt ← okOr badSalt (sized cryptSaltBytes reply.b2)
    let key ← okOr (protocol "no key") (pake.key H)
    return .croc10 (pbkdf2 H key salt)
  if reply.v ≠ version then
    throw ⟨.unavailable, "the croc sender speaks a newer croc than Sukkula"⟩
  let salt ← okOr badSalt (sized saltBytes reply.b2)
  let keys ← okOr (protocol "no key") (forTransfer H pake code.room hello.b reply.b salt)
  send { kind := .pakeConfirm, v := version, b := keys.tag H .receiver }
  -- A sender whose key is another's hangs up rather than answer.
  let wrong : ErrorInfo := ⟨.badCode, "the sender has a different code"⟩
  let frame ← recv.adapt fun e => if e.code = .network then wrong else e
  let theirs ← okOr (protocol "the croc sender did not confirm the key") (confirmation decode frame)
  if ¬ keys.verify H .sender theirs.b then throw wrong
  return .croc11 keys

/-- The sender's side, croc 11's way or croc 10's, as the receiver's message says. -/
def sender : Peer F Agreed := do
  let frame ← recv
  let m ← okOr (protocol "the croc receiver did not start the key exchange") (opening decode frame)
  if m.v ≠ 0 ∧ m.v ≠ version then
    throw ⟨.unavailable, "the croc receiver speaks a newer croc than Sukkula"⟩
  let unspoken : ErrorInfo :=
    ⟨.unavailable, "the croc receiver asked for a curve Sukkula does not speak"⟩
  let curve ← okOr unspoken (Curve.fromName m.b2)
  let rb ← random 32
  let pake ← (Pake.answer A parse curve code.password rb m.b).mapError fun _ =>
    protocol "the croc receiver's key exchange is malformed"
  if m.v = 0 then
    let key ← okOr (protocol "no key") (pake.key H)
    let salt ← random cryptSaltBytes
    send { kind := .pake, b := pake.message, b2 := salt }
    return .croc10 (pbkdf2 H key salt)
  let salt ← random saltBytes
  let keys ← okOr (protocol "no key") (forTransfer H pake code.room m.b pake.message salt)
  send { kind := .pake, v := version, b := pake.message, b2 := salt }
  let frame ← recv
  let theirs ← okOr (protocol "the croc receiver did not confirm the key")
    (confirmation decode frame)
  if ¬ keys.verify H .receiver theirs.b then
    throw ⟨.badCode, "the receiver typed a different code"⟩
  send { kind := .pakeConfirm, v := version, b := keys.tag H .sender }
  return .croc11 keys

end Sides

/-- Whatever the relay does, where the side ends well, `Q` holds of what it agreed on. -/
def Leads {α : Type} (x : Peer F α) (s : Line F) (Q : α → Line F → Prop) : Prop :=
  machine.Holds (fun _ _ => True) (fun _ => True) (fun r s' => ∀ a, r = .ok a → Q a s') x.run s

namespace Leads

variable {α β : Type} {s : Line F} {x : Peer F α} {f : α → Peer F β} {P : α → Line F → Prop}
  {Q : β → Line F → Prop}

theorem stable (P : Line F → Prop) : (machine (F := F)).Stable (fun _ _ => True) P :=
  fun _ a => a.elim

protected theorem pure {a : α} (h : P a s) : Leads (pure a) s P :=
  .ret_of (P := fun s' => s' = s) (stable _) (fun _ _ => trivial)
    (by rintro _ rfl b ⟨⟩; exact h) rfl

protected theorem throw {e : ErrorInfo} : Leads (throw e) s P :=
  .ret_of (P := fun s' => s' = s) (stable _) (fun _ _ => trivial) (by rintro _ rfl b ⟨⟩) rfl

protected theorem bind (hx : Leads x s P) (hf : ∀ a s', P a s' → Leads (f a) s' Q) :
    Leads (x >>= f) s Q :=
  Machine.Holds.bind_except hx (fun a s' h => hf a s' (h a rfl)) (by rintro e s' - b ⟨⟩)

theorem lift {y : Except ErrorInfo α} (hf : ∀ a, y = .ok a → Leads (f a) s Q) :
    Leads (liftM y >>= f) s Q := by
  cases y with
  | ok a => exact hf a rfl
  | error e => exact Leads.throw

theorem guard {c : Prop} [Decidable c] {e : ErrorInfo} {g : α → Peer F β} {y : Peer F β}
    (h : ¬ c → Leads y s Q) : Leads (if c then throw e >>= g else y) s Q := by
  by_cases hc : c
  · rw [if_pos hc]
    exact Leads.throw
  · rw [if_neg hc]
    exact h hc

theorem call {c : Call} {k : Ans F c → Prog (Ans F) (Except ErrorInfo β)}
    (h : ∀ l r s', os c s l = some (r, s') → Leads (ExceptT.mk (k r)) s' Q) :
    Leads (ExceptT.mk (Prog.call c k)) s Q :=
  .call_of (P := fun s' => s' = s) (stable _) (fun _ _ => trivial)
    (by rintro _ l r s' rfl - ho; exact h l r s' ho) rfl

theorem random {n : ℕ} {f : Bytes → Peer F β} (hf : ∀ r, Leads (f r) s Q) :
    Leads (Exchange.random n >>= f) s Q := by
  apply call
  intro l r s' ho
  cases l with
  | bytes b =>
    simp only [os] at ho
    split at ho
    · cases ho
      exact hf b
    · cases ho
  | failed e =>
    cases ho
    exact Leads.throw
  | done | frame => cases ho

theorem send {m : Message} {f : Unit → Peer F β}
    (hf : Leads (f ()) { s with sent := s.sent ++ [m] } Q) : Leads (Exchange.send m >>= f) s Q := by
  apply call
  intro l r s' ho
  cases l with
  | done =>
    cases ho
    exact hf
  | failed e =>
    cases ho
    exact Leads.throw
  | bytes | frame => cases ho

theorem recv {f : F → Peer F β} (hf : ∀ g, Leads (f g) { s with read := s.read ++ [g] } Q) :
    Leads (Exchange.recv >>= f) s Q := by
  apply call
  intro l r s' ho
  cases l with
  | frame g =>
    cases ho
    exact hf g
  | failed e =>
    cases ho
    exact Leads.throw
  | bytes | done => cases ho

theorem recv_adapt {h : ErrorInfo → ErrorInfo} {f : F → Peer F β}
    (hf : ∀ g, Leads (f g) { s with read := s.read ++ [g] } Q) :
    Leads (Exchange.recv.adapt h >>= f) s Q := by
  apply call
  intro l r s' ho
  cases l with
  | frame g =>
    cases ho
    exact hf g
  | failed e =>
    cases ho
    exact Leads.throw
  | bytes | done => cases ho

end Leads

section Outcome

variable {A : Arithmetic} {parse : Bytes → Option Wire} (H : Hashes) (decode : F → Option Message)
  (code : Code)

/-- A message of the exchange without a version. -/
def Unversioned (f : F) : Prop := ∃ m, decode f = some m ∧ m.kind = .pake ∧ m.v = 0

/-- The key is one of croc 11's schedule, and the other side's proof of it was read and was
right. -/
def Confirmed (other : Side) (agreed : Agreed) (read : List F) : Prop :=
  ∃ keys, agreed = .croc11 keys ∧
    (∃ pake initiator responder salt,
      forTransfer H pake code.room initiator responder salt = some keys) ∧
    ∃ f ∈ read, ∃ c, decode f = some c ∧ c.kind = .pakeConfirm ∧ c.v = version ∧
      keys.verify H other c.b

inductive Outcome (other : Side) (agreed : Agreed) (s : Line F) : Prop
  | plain (f : F) (hf : f ∈ s.read) (h : Unversioned decode f) (hn : ∀ keys, agreed ≠ .croc11 keys)
  | confirmed (h : Confirmed H decode code other agreed s.read)
      (hread : ∀ f ∈ s.read, ¬ Unversioned decode f)

theorem opening_eq_some {f : F} {m : Message} (h : opening decode f = some m) :
    decode f = some m ∧ m.kind = .pake := by
  obtain ⟨hm, hk⟩ := Option.filter_eq_some_iff.mp h
  exact ⟨hm, (of_decide_eq_true hk).1⟩

theorem confirmation_eq_some {f : F} {c : Message} (h : confirmation decode f = some c) :
    decode f = some c ∧ c.kind = .pakeConfirm ∧ c.v = version := by
  obtain ⟨hc, hk⟩ := Option.filter_eq_some_iff.mp h
  exact ⟨hc, of_decide_eq_true hk⟩

variable {decode code}

theorem Outcome.of_opening {other : Side} {key : Bytes} {s : Line F} {f : F} {m : Message}
    (hf : f ∈ s.read) (hm : opening decode f = some m) (hv : m.v = 0) :
    Outcome H decode code other (.croc10 key) s :=
  .plain f hf ⟨m, (opening_eq_some decode hm).1, (opening_eq_some decode hm).2, hv⟩ (by simp)

theorem Outcome.of_confirmation {other : Side} {keys : Keys} {s : Line F} {f f' : F}
    {m c : Message} {pake : Pake} {initiator responder salt : Bytes} (hread : s.read = [f, f'])
    (hm : opening decode f = some m) (hv : m.v ≠ 0)
    (hkeys : forTransfer H pake code.room initiator responder salt = some keys)
    (hc : confirmation decode f' = some c) (hverify : keys.verify H other c.b) :
    Outcome H decode code other (.croc11 keys) s := by
  obtain ⟨hm, -⟩ := opening_eq_some decode hm
  obtain ⟨hc, hkind, hcv⟩ := confirmation_eq_some decode hc
  apply Outcome.confirmed
  · exact ⟨keys, rfl, ⟨_, _, _, _, hkeys⟩, f', by simp [hread], c, hc, hkind, hcv, hverify⟩
  · rw [hread]
    simp only [List.mem_cons, List.not_mem_nil, or_false, forall_eq_or_imp, forall_eq]
    constructor
    · rintro ⟨m', hm', -, hv'⟩
      obtain rfl := Option.some.inj (hm.symm.trans hm')
      exact hv hv'
    · rintro ⟨c', hc', hkind', -⟩
      obtain rfl := Option.some.inj (hc.symm.trans hc')
      simp [hkind] at hkind'

theorem leads_receiver :
    Leads (receiver A parse H decode code) {} (Outcome H decode code .sender) := by
  apply Leads.random
  intro ra
  apply Leads.lift
  intro pake _
  apply Leads.send
  apply Leads.recv
  intro f
  apply Leads.lift
  intro reply hreply
  apply Leads.lift
  intro pake' _
  by_cases hv : reply.v = 0
  · simp only [hv, if_true]
    apply Leads.lift
    intro salt _
    apply Leads.lift
    intro key _
    apply Leads.pure
    exact .of_opening H (f := f) (by simp) (okOr_eq_ok.mp hreply) hv
  · simp only [hv, if_false]
    apply Leads.guard
    intro _
    apply Leads.lift
    intro salt _
    apply Leads.lift
    intro keys hkeys
    apply Leads.send
    apply Leads.recv_adapt
    intro f'
    apply Leads.lift
    intro theirs htheirs
    apply Leads.guard
    intro hverify
    apply Leads.pure
    exact .of_confirmation H (f := f) rfl (okOr_eq_ok.mp hreply) hv (okOr_eq_ok.mp hkeys)
      (okOr_eq_ok.mp htheirs) (by simpa using hverify)

theorem leads_sender :
    Leads (sender A parse H decode code) {} (Outcome H decode code .receiver) := by
  apply Leads.recv
  intro f
  apply Leads.lift
  intro m hm
  apply Leads.guard
  intro _
  apply Leads.lift
  intro curve _
  apply Leads.random
  intro rb
  apply Leads.lift
  intro pake _
  by_cases hv : m.v = 0
  · simp only [hv, if_true]
    apply Leads.lift
    intro key _
    apply Leads.random
    intro salt
    apply Leads.send
    apply Leads.pure
    exact .of_opening H (f := f) (by simp) (okOr_eq_ok.mp hm) hv
  · simp only [hv, if_false]
    apply Leads.random
    intro salt
    apply Leads.lift
    intro keys hkeys
    apply Leads.send
    apply Leads.recv
    intro f'
    apply Leads.lift
    intro theirs htheirs
    apply Leads.guard
    intro hverify
    apply Leads.send
    apply Leads.pure
    exact .of_confirmation H (f := f) rfl (okOr_eq_ok.mp hm) hv (okOr_eq_ok.mp hkeys)
      (okOr_eq_ok.mp htheirs) (by simpa using hverify)

/-- The frame that a side is handed by an answer. -/
def handed : Label (Choice F) Empty → Option F
  | .answer (.frame f) => some f
  | _ => none

theorem handed_eq_some {l : Label (Choice F) Empty} {f : F} :
    handed l = some f ↔ l = .answer (.frame f) := by
  constructor
  · intro h
    match l, h with
    | .answer (.frame g), h => rw [Option.some.inj h]
  · rintro rfl
    rfl

theorem read_of_os {c : Call} {s t : Line F} {l : Choice F} {r : Ans F c}
    (h : os c s l = some (r, t)) : t.read = s.read ++ (handed (.answer l)).toList := by
  cases c with
  | random n =>
    cases l with
    | bytes b =>
      simp only [os] at h
      split at h
      · obtain rfl := (Prod.mk.inj (Option.some.inj h)).2
        simp [handed]
      · cases h
    | failed e =>
      cases h
      simp [handed]
    | done | frame => cases h
  | send m =>
    cases l with
    | done | failed =>
      cases h
      simp [handed]
    | bytes | frame => cases h
  | recv =>
    cases l with
    | frame | failed =>
      cases h
      simp [handed]
    | bytes | done => cases h

theorem read_of_step {α : Type} {p p' : Prog (Ans F) α} {s s' : Line F}
    {l : Label (Choice F) Empty} (h : machine.step (p, s) l = some (p', s')) :
    s'.read = s.read ++ (handed l).toList := by
  cases l with
  | env a => exact a.elim
  | answer l =>
    cases p with
    | ret a => cases h
    | call c k =>
      obtain ⟨⟨r, t⟩, hr, he⟩ := Option.map_eq_some_iff.mp h
      obtain ⟨-, rfl⟩ := Prod.mk.inj he
      exact read_of_os hr

theorem read_of_exec {α : Type} {p p' : Prog (Ans F) α} {s s' : Line F}
    {as : List (Label (Choice F) Empty)} (h : exec machine.step (p, s) as = some (p', s')) :
    s'.read = s.read ++ as.filterMap handed := by
  induction as generalizing p s with
  | nil =>
    cases h
    simp
  | cons l as ih =>
    obtain ⟨⟨q, t⟩, ht, hr⟩ := exec_cons_eq_some.mp h
    rw [ih hr, read_of_step ht, List.append_assoc]
    cases hl : handed l <;> simp [hl]

end Outcome

section Downgrade

variable {A : Arithmetic} {parse : Bytes → Option Wire} {H : Hashes} {decode : F → Option Message}
  {code : Code}

/-- A step of the receiver's side or of the sender's. -/
abbrev Act (F : Type) := Label (Choice F) Empty ⊕ Label (Choice F) Empty

/-- The two sides, before either has said anything. -/
def start (A : Arithmetic) (parse : Bytes → Option Wire) (H : Hashes) (decode : F → Option Message)
    (code : Code) :
    (Prog (Ans F) (Except ErrorInfo Agreed) × Line F) ×
      (Prog (Ans F) (Except ErrorInfo Agreed) × Line F) :=
  (((receiver A parse H decode code).run, {}), ((sender A parse H decode code).run, {}))

theorem outcome_of_exec {x : Peer F Agreed} {other : Side} {agreed : Agreed} {s : Line F}
    {as : List (Label (Choice F) Empty)} (hx : Leads x {} (Outcome H decode code other))
    (h : exec machine.step (x.run, {}) as = some (.ret (.ok agreed), s)) :
    Outcome H decode code other agreed s ∧ s.read = as.filterMap handed := by
  have hholds := Machine.Holds.of_exec hx (along_of_forall (G := fun _ => True) (by simp)) h
  exact ⟨hholds.result agreed rfl, by simpa using read_of_exec h⟩

theorem Outcome.confirmed_iff {other : Side} {agreed : Agreed} {s : Line F}
    (h : Outcome H decode code other agreed s) :
    Confirmed H decode code other agreed s.read ↔ ∀ f ∈ s.read, ¬ Unversioned decode f := by
  cases h with
  | plain f hf h hn =>
    constructor
    · rintro ⟨keys, rfl, -⟩
      exact absurd rfl (hn keys)
    · intro hall
      exact absurd h (hall f hf)
  | confirmed h hread => exact iff_of_true h hread

/-- Whatever the relay hands over, two sides that end well have croc 11's key with both proofs
exactly if neither was handed a message of the exchange without a version. -/
theorem no_downgrade {as : List (Act F)} {a b : Agreed} {r s : Line F}
    (hrun : exec (both machine.step machine.step) (start A parse H decode code) as =
      some ((.ret (.ok a), r), (.ret (.ok b), s))) :
    (Confirmed H decode code .sender a r.read ∧ Confirmed H decode code .receiver b s.read) ↔
      ∀ f, .inl (.answer (.frame f)) ∈ as ∨ .inr (.answer (.frame f)) ∈ as →
        ¬ Unversioned decode f := by
  obtain ⟨hr, hs⟩ := exec_both.mp hrun
  obtain ⟨hr, hreadr⟩ := outcome_of_exec (leads_receiver H) hr
  obtain ⟨hs, hreads⟩ := outcome_of_exec (leads_sender H) hs
  rw [hr.confirmed_iff, hs.confirmed_iff, hreadr, hreads]
  have hleft : ∀ f, f ∈ (as.filterMap Sum.getLeft?).filterMap handed ↔
      .inl (.answer (.frame f)) ∈ as := by
    simp [handed_eq_some]
  have hright : ∀ f, f ∈ (as.filterMap Sum.getRight?).filterMap handed ↔
      .inr (.answer (.frame f)) ∈ as := by
    simp [handed_eq_some]
  simp only [hleft, hright, or_imp, forall_and]

end Downgrade

def Ends {α : Type} (x : Peer F α) (s : Line F) (as : List (Choice F)) (a : α) (s' : Line F) :
    Prop :=
  exec machine.step (x.run, s) (as.map .answer) = some (.ret (.ok a), s')

namespace Ends

variable {α β : Type} {s s' : Line F} {as : List (Choice F)} {b : β}

protected theorem pure {a : α} : Ends (pure a) s [] a s := rfl

theorem lift {y : Except ErrorInfo α} {f : α → Peer F β} {a : α} (hy : y = .ok a)
    (hf : Ends (f a) s as b s') : Ends (liftM y >>= f) s as b s' := by
  subst hy
  exact hf

theorem guard {c : Prop} [Decidable c] {e : ErrorInfo} {g : α → Peer F β} {y : Peer F β}
    (hc : ¬ c) (h : Ends y s as b s') : Ends (if c then throw e >>= g else y) s as b s' := by
  rwa [if_neg hc]

theorem random {n : ℕ} {r : Bytes} {f : Bytes → Peer F β} (hr : r.length = n)
    (hf : Ends (f r) s as b s') : Ends (Exchange.random n >>= f) s (.bytes r :: as) b s' := by
  refine exec_cons_eq_some.mpr ⟨((f r).run, s), ?_, hf⟩
  apply Option.map_eq_some_iff.mpr
  exact ⟨(Except.ok r, s), if_pos hr, rfl⟩

theorem send {m : Message} {f : Unit → Peer F β}
    (hf : Ends (f ()) { s with sent := s.sent ++ [m] } as b s') :
    Ends (Exchange.send m >>= f) s (.done :: as) b s' :=
  exec_cons_eq_some.mpr ⟨_, rfl, hf⟩

theorem recv {g : F} {f : F → Peer F β}
    (hf : Ends (f g) { s with read := s.read ++ [g] } as b s') :
    Ends (Exchange.recv >>= f) s (.frame g :: as) b s' :=
  exec_cons_eq_some.mpr ⟨_, rfl, hf⟩

theorem recv_adapt {h : ErrorInfo → ErrorInfo} {g : F} {f : F → Peer F β}
    (hf : Ends (f g) { s with read := s.read ++ [g] } as b s') :
    Ends (Exchange.recv.adapt h >>= f) s (.frame g :: as) b s' :=
  exec_cons_eq_some.mpr ⟨_, rfl, hf⟩

end Ends

section Runs

variable {A : Arithmetic} {parse : Bytes → Option Wire} {H : Hashes} {code : Code} {p q p' : Pake}
  {ra rb salt k : Bytes} {kp kq : Keys}

/-- The receiver's message, and what the relay makes of it. -/
def hello (p : Pake) : Message :=
  { kind := .pake, v := version, b := p.message, b2 := utf8 Curve.p256.name }

theorem version_ne_zero : version ≠ 0 := by decide

theorem fromName_p256 : Curve.fromName (utf8 Curve.p256.name) = some .p256 := by decide

theorem opening_some {m : Message} (hk : m.kind = .pake) (hlen : m.b.length ≤ maxPakeBytes) :
    opening some m = some m := by
  simp [opening, hk, hlen]

theorem receiver_unconfirmed (code : Code) (salt : Bytes) (hra : ra.length = 32)
    (hsalt : salt.length = cryptSaltBytes) (hstart : Pake.start A .p256 code.password ra = some p)
    (hlen : q.message.length ≤ maxPakeBytes)
    (hfinish : p.finish A parse q.message = .ok p') (hkey : p'.key H = some k) :
    Ends (receiver A parse H some code) {}
      [.bytes ra, .done, .frame { kind := .pake, b := q.message, b2 := salt }]
      (.croc10 (pbkdf2 H k salt))
      ⟨[hello p], [{ kind := .pake, b := q.message, b2 := salt }]⟩ := by
  apply Ends.random hra
  apply Ends.lift (a := p) (by rw [hstart]; rfl)
  apply Ends.send
  apply Ends.recv
  apply Ends.lift (by rw [opening_some rfl hlen]; rfl)
  apply Ends.lift (a := p') (by rw [hfinish]; rfl)
  apply Ends.lift (a := salt) (by simp [okOr, sized, hsalt])
  apply Ends.lift (a := k) (by rw [hkey]; rfl)
  exact Ends.pure

theorem sender_unconfirmed (code : Code) (salt : Bytes) (hrb : rb.length = 32)
    (hsalt : salt.length = cryptSaltBytes) (hlen : p.message.length ≤ maxPakeBytes)
    (hanswer : Pake.answer A parse .p256 code.password rb p.message = .ok q)
    (hkey : q.key H = some k) :
    Ends (sender A parse H some code) {}
      [.frame { hello p with v := 0 }, .bytes rb, .bytes salt, .done]
      (.croc10 (pbkdf2 H k salt))
      ⟨[{ kind := .pake, b := q.message, b2 := salt }], [{ hello p with v := 0 }]⟩ := by
  apply Ends.recv
  apply Ends.lift (by rw [opening_some rfl hlen]; rfl)
  apply Ends.guard (by simp)
  apply Ends.lift (a := .p256) (by rw [hello, fromName_p256]; rfl)
  apply Ends.random hrb
  apply Ends.lift (a := q) (by rw [hello, hanswer]; rfl)
  apply Ends.lift (a := k) (by rw [hkey]; rfl)
  apply Ends.random hsalt
  apply Ends.send
  exact Ends.pure

def proof (H : Hashes) (keys : Keys) (side : Side) : Message :=
  { kind := .pakeConfirm, v := version, b := keys.tag H side }

theorem confirmation_proof {keys : Keys} {side : Side} :
    confirmation some (proof H keys side) = some (proof H keys side) := by
  simp [confirmation, proof]

theorem receiver_confirmed (code : Code) (hra : ra.length = 32) (hsalt : salt.length = saltBytes)
    (hstart : Pake.start A .p256 code.password ra = some p)
    (hlen : q.message.length ≤ maxPakeBytes)
    (hfinish : p.finish A parse q.message = .ok p')
    (hkeys : forTransfer H p' code.room p.message q.message salt = some kp)
    (hverify : kp.verify H .sender (kq.tag H .sender)) :
    Ends (receiver A parse H some code) {}
      [.bytes ra, .done, .frame { kind := .pake, v := version, b := q.message, b2 := salt }, .done,
        .frame (proof H kq .sender)]
      (.croc11 kp)
      ⟨[hello p, proof H kp .receiver],
        [{ kind := .pake, v := version, b := q.message, b2 := salt }, proof H kq .sender]⟩ := by
  apply Ends.random hra
  apply Ends.lift (a := p) (by rw [hstart]; rfl)
  apply Ends.send
  apply Ends.recv
  apply Ends.lift (by rw [opening_some rfl hlen]; rfl)
  apply Ends.lift (a := p') (by rw [hfinish]; rfl)
  simp only [version_ne_zero, if_false]
  apply Ends.guard (by simp)
  apply Ends.lift (a := salt) (by simp [okOr, sized, hsalt])
  apply Ends.lift (a := kp) (by rw [hkeys]; rfl)
  apply Ends.send
  apply Ends.recv_adapt
  apply Ends.lift (by rw [confirmation_proof]; rfl)
  apply Ends.guard (not_not_intro hverify)
  exact Ends.pure

theorem sender_confirmed (code : Code) (hrb : rb.length = 32) (hsalt : salt.length = saltBytes)
    (hlen : p.message.length ≤ maxPakeBytes)
    (hanswer : Pake.answer A parse .p256 code.password rb p.message = .ok q)
    (hkeys : forTransfer H q code.room p.message q.message salt = some kq)
    (hverify : kq.verify H .receiver (kp.tag H .receiver)) :
    Ends (sender A parse H some code) {}
      [.frame (hello p), .bytes rb, .bytes salt, .done, .frame (proof H kp .receiver), .done]
      (.croc11 kq)
      ⟨[{ kind := .pake, v := version, b := q.message, b2 := salt }, proof H kq .sender],
        [hello p, proof H kp .receiver]⟩ := by
  apply Ends.recv
  apply Ends.lift (by rw [opening_some rfl hlen]; rfl)
  apply Ends.guard (by simp [hello])
  apply Ends.lift (a := .p256) (by rw [hello, fromName_p256]; rfl)
  apply Ends.random hrb
  apply Ends.lift (a := q) (by rw [hello, hanswer]; rfl)
  simp only [hello, version_ne_zero, if_false]
  apply Ends.random hsalt
  apply Ends.lift (a := kq) (by rw [hkeys]; rfl)
  apply Ends.send
  apply Ends.recv
  apply Ends.lift (by rw [confirmation_proof]; rfl)
  apply Ends.guard (not_not_intro hverify)
  apply Ends.send
  exact Ends.pure

def plainHashes : Hashes := ⟨id, fun k m => k ++ m, fun _ k _ n => (k ++ List.replicate n 0).take n⟩

def smallCode : Code := ⟨[1], "room".toList⟩

theorem exchange_seven : ∃ p q p', Pake.start seven .p256 [1] (randomBytes 1) = some p ∧
    Pake.answer seven flatReader .p256 [1] (randomBytes 3) p.message = .ok q ∧
    p.finish seven flatReader q.message = .ok p' ∧ p.message.length ≤ maxPakeBytes ∧
    q.message.length ≤ maxPakeBytes := by
  obtain ⟨p, hstart⟩ := exists_start_seven
  obtain ⟨x, y, z, rfl, hanswer, hfinish⟩ := answer_and_finish lawful_seven reads_flatReader hstart
    points_seven.2.1 points_seven.2.2
  exact ⟨_, _, _, hstart, hanswer, hfinish, Pake.length_le_of_answer hanswer,
    Pake.length_le_of_finish hfinish⟩

theorem not_unversioned {m : Message} (h : m.v ≠ 0) : ¬ Unversioned some m := by
  rintro ⟨m', hm, -, hv⟩
  obtain rfl := Option.some.inj hm
  exact h hv

theorem no_downgrade_seven : ∃ as keys r s, exec (both machine.step machine.step)
      (start seven flatReader plainHashes some smallCode) as =
        some ((.ret (.ok (.croc11 keys)), r), (.ret (.ok (.croc11 keys)), s)) ∧
    Confirmed plainHashes some smallCode .sender (.croc11 keys) r.read ∧
    Confirmed plainHashes some smallCode .receiver (.croc11 keys) s.read := by
  obtain ⟨p, q, p', hstart, hanswer, hfinish, hp, hq⟩ := exchange_seven
  obtain ⟨-, -, hkeys⟩ :=
    keys_agree plainHashes lawful_seven reads_flatReader hstart hanswer hfinish
  obtain ⟨k, _, hkp, hkq, rfl⟩ := hkeys smallCode.room (List.replicate 32 5)
  have hr := receiver_confirmed smallCode (by rfl) (by rfl) hstart hq hfinish hkp
    (k.verify_tag plainHashes .sender)
  have hs := sender_confirmed smallCode (by rfl) (by rfl) hp hanswer hkq
    (k.verify_tag plainHashes .receiver)
  have hrun : exec (both machine.step machine.step)
      (start seven flatReader plainHashes some smallCode)
      [.inl (.answer (.bytes (randomBytes 1))), .inl (.answer .done),
        .inr (.answer (.frame (hello p))), .inr (.answer (.bytes (randomBytes 3))),
        .inr (.answer (.bytes (List.replicate 32 5))), .inr (.answer .done),
        .inl (.answer (.frame
          { kind := .pake, v := version, b := q.message, b2 := List.replicate 32 5 })),
        .inl (.answer .done), .inr (.answer (.frame (proof plainHashes k .receiver))),
        .inr (.answer .done), .inl (.answer (.frame (proof plainHashes k .sender)))] =
      some ((.ret (.ok (.croc11 k)), _), (.ret (.ok (.croc11 k)), _)) :=
    exec_both.mpr ⟨hr, hs⟩
  refine ⟨_, k, _, _, hrun, (no_downgrade hrun).mpr ?_⟩
  intro f hf
  simp only [List.mem_cons, Sum.inl.injEq, Sum.inr.injEq, Label.answer.injEq, Choice.frame.injEq,
    reduceCtorEq, List.not_mem_nil, false_or, or_false] at hf
  rcases hf with (rfl | rfl) | rfl | rfl <;> exact not_unversioned version_ne_zero

/-- The relay takes the version out of the receiver's message: both sides end well, with
croc 10's key and no proof of it. -/
theorem downgraded : ∃ as p key r s, exec (both machine.step machine.step)
      (start seven flatReader plainHashes some smallCode) as =
        some ((.ret (.ok (.croc10 key)), r), (.ret (.ok (.croc10 key)), s)) ∧
    r.sent = [hello p] ∧ s.read = [{ hello p with v := 0 }] ∧ r.read = s.sent ∧
    ¬ Confirmed plainHashes some smallCode .sender (.croc10 key) r.read ∧
    ¬ Confirmed plainHashes some smallCode .receiver (.croc10 key) s.read := by
  obtain ⟨p, q, p', hstart, hanswer, hfinish, hp, hq⟩ := exchange_seven
  obtain ⟨⟨k, hkp, hkq⟩, -⟩ :=
    keys_agree plainHashes lawful_seven reads_flatReader hstart hanswer hfinish
  have hr := receiver_unconfirmed smallCode (List.replicate 8 5) (by rfl) rfl hstart hq hfinish hkp
  have hs := sender_unconfirmed smallCode (List.replicate 8 5) (by rfl) rfl hp hanswer hkq
  refine ⟨[.inl (.answer (.bytes (randomBytes 1))), .inl (.answer .done),
    .inr (.answer (.frame { hello p with v := 0 })), .inr (.answer (.bytes (randomBytes 3))),
    .inr (.answer (.bytes (List.replicate 8 5))), .inr (.answer .done),
    .inl (.answer (.frame { kind := .pake, b := q.message, b2 := List.replicate 8 5 }))],
    p, _, _, _, exec_both.mpr ⟨hr, hs⟩, rfl, rfl, rfl, ?_, ?_⟩
  · rintro ⟨_, h, -⟩
    cases h
  · rintro ⟨_, h, -⟩
    cases h

end Runs

end Sukkula.Croc.Exchange
