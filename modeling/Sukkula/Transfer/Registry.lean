import Sukkula.Library.Assoc
import Sukkula.Library.Transition
import Sukkula.Offer.Validate
import Sukkula.Transfer.Report

/-! # The registry of running transfers

A transfer is registered under the lock, announced after it, and taken out again
before its end is reported. Its handle counts bytes from any task that borrows it
and is used up by the call that ends it. The calls are cut where another task may
come in between: at the locks, at the counter, at the token and at each event.
-/

namespace Sukkula.Transfer

open Transition Assoc
open LocalSend (ErrorInfo ErrorCode Outcome)
open Offer (OfferFile)

def maxActiveTransfers : ℕ := 8

def maxListedFiles : ℕ := 50

/-- `PROGRESS_INTERVAL`, in milliseconds. -/
def progressInterval : ℕ := 250

inductive Direction | incoming | outgoing
  deriving DecidableEq, Repr

structure FileView where
  name : Str
  size : ℕ
  deriving DecidableEq, Repr

structure TransferView where
  id : ℕ
  direction : Direction
  protocol : Protocol
  peer : Str
  files : List FileView
  fileCount : ℕ
  totalBytes : ℕ
  deriving DecidableEq, Repr

inductive Event
  | started (transfer : TransferView)
  | progress (transfer bytes total : ℕ)
  | finished (transfer : ℕ) (outcome : Outcome) (saved : List Str)
  deriving DecidableEq, Repr

def Event.transfer : Event → ℕ
  | .started view => view.id
  | .progress transfer _ _ => transfer
  | .finished transfer _ _ => transfer

/-- The arguments of `begin_views`. -/
structure Begin where
  direction : Direction
  protocol : Protocol
  peer : Str
  files : List FileView
  total : ℕ
  deriving DecidableEq, Repr

def saturatingAdd (a b : ℕ) : ℕ := min (a + b) (2 ^ 64 - 1)

/-- `Transfers::begin`: what it calls `begin_views` with. -/
def Begin.ofFiles (direction : Direction) (protocol : Protocol) (peer : Str)
    (files : List OfferFile) : Begin where
  direction
  protocol
  peer
  files := files.map fun f => ⟨f.name.val, f.size⟩
  total := files.foldl (fun acc f => saturatingAdd acc f.size) 0

/-- The view that a transfer is announced with. -/
def Begin.view (b : Begin) (id : ℕ) : TransferView where
  id
  direction := b.direction
  protocol := b.protocol
  peer := b.peer
  files := b.files.take maxListedFiles
  fileCount := b.files.length
  totalBytes := b.total

structure Report where
  time : Option ℕ := none
  shown : Option ℕ := none
  deriving DecidableEq, Repr

/-- The check of `add_progress`, under the lock of the report. -/
def Report.due (last : Report) (shown total now : ℕ) : Bool :=
  last.shown ≠ some shown ∧ (total ≤ shown ∨ last.time.all fun t => progressInterval ≤ now - t)

/-- Where a call of `add_progress` is. -/
inductive Adding
  | counting (n : ℕ)
  | counted (shown : ℕ)
  | reporting (shown : ℕ)
  deriving DecidableEq, Repr

/-- Where a transfer is, with what the call that ends it has still to do. -/
inductive Stage
  | registered
  | handed
  -- `finish_with` has an error and looks at the token, `again` if the first look is behind it.
  | failing (e : ErrorInfo) (again : Bool)
  -- `report` is to take it out.
  | ending (outcome : Outcome) (saved : List Str)
  | removed (outcome : Outcome) (saved : List Str)
  | ended (outcome : Outcome) (saved : List Str)
  deriving DecidableEq, Repr

structure Running where
  id : ℕ
  begin : Begin
  token : ℕ
  bytes : ℕ := 0
  lastReport : Report := {}
  adding : List Adding := []
  stage : Stage := .registered
  deriving DecidableEq, Repr

/-- The registry with the calls under way. A token is its place in `tokens`, which says whether it
is cancelled; all are children of the shutdown token. -/
structure Registry where
  next : ℕ := 0
  active : Table ℕ ℕ := .empty
  shutdown : Bool := false
  tokens : List Bool := []
  -- Calls of `begin_views` that have their token and have not looked at the registry.
  opening : List (Begin × ℕ) := []
  -- Every transfer there was, in the order of registration.
  transfers : List Running := []
  -- Calls of `shut_down` that are to cancel what is registered.
  halting : ℕ := 0
  events : List Event := []

inductive Act
  -- `begin_views` makes its token.
  | begin (b : Begin)
  -- The call at this place looks at the registry.
  | register (i : ℕ)
  | cancel (id : ℕ)
  | cancelToken (token : ℕ)
  -- A call of `add_progress` on the handle of the transfer at this place.
  | addProgress (k n : ℕ)
  -- Its `i`th call goes on, and reads this time if it needs one.
  | goOn (k i now : ℕ)
  | finish (k : ℕ) (outcome : Outcome) (saved : List Str)
  | finishWith (k : ℕ) (result : Except ErrorInfo (List Str))
  | drop (k : ℕ)
  -- The call that announces or ends the transfer goes on.
  | run (k : ℕ)
  | shutDown
  | cancelAll

/-- A call of `add_progress` goes on: what is left of it, the transfer after it, and what it
emits. -/
def Running.add (t : Running) (now : ℕ) : Adding → Option Adding × Running × Option Event
  | .counting n =>
    let shown := min (saturatingAdd t.bytes n) t.begin.total
    (some (.counted shown), { t with bytes := (t.bytes + n) % 2 ^ 64 }, none)
  | .counted shown =>
    if t.lastReport.due shown t.begin.total now then
      (some (.reporting shown), { t with lastReport := ⟨some now, some shown⟩ }, none)
    else (none, t, none)
  | .reporting shown => (none, t, some (.progress t.id shown t.begin.total))

/-- `finish_with`, up to its first look at the token. -/
def Stage.ofResult : Except ErrorInfo (List Str) → Stage
  | .ok saved => .ending .done saved
  | .error e => .failing e (e.code ≠ .refused)

def abandoned : ErrorInfo := ⟨.internal, "transfer abandoned"⟩

namespace Registry

/-- `checked_add(1).unwrap_or(1)` -/
def nextId (next : ℕ) : ℕ := if next + 1 < 2 ^ 64 then next + 1 else 1

def isCancelled (r : Registry) (token : ℕ) : Bool := r.tokens[token]?.getD false

def cancelToken (r : Registry) (token : ℕ) : Registry :=
  { r with tokens := r.tokens.set token true }

def emit (r : Registry) (e : Event) : Registry := { r with events := r.events ++ [e] }

def put (r : Registry) (k : ℕ) (t : Running) : Registry :=
  { r with transfers := r.transfers.set k t }

/-- What `begin_views` does under the lock. Without room, the call returns `None`. -/
def register (r : Registry) (b : Begin) (token : ℕ) : Registry :=
  if maxActiveTransfers ≤ r.active.size then r
  else
    let id := nextId r.next
    { r with
      next := id
      active := r.active.set id token
      transfers := r.transfers ++ [{ id, begin := b, token }] }

def cancel (r : Registry) (id : ℕ) : Registry × Bool :=
  match r.active.lookup id with
  | some token => (r.cancelToken token, true)
  | none => (r, false)

def cancelAll (r : Registry) : Registry := (r.active.entries.map (·.2)).foldl cancelToken r

/-- `CancellationToken::cancel` on the shutdown token. -/
def cancelShutdown (r : Registry) : Registry :=
  { r with shutdown := true, tokens := r.tokens.map fun _ => true }

/-- The call that announces or ends the transfer goes on. -/
def runStage (r : Registry) (k : ℕ) (t : Running) : Stage → Option Registry
  | .registered => some ((r.put k { t with stage := .handed }).emit (.started (t.begin.view t.id)))
  | .failing e again =>
    if r.isCancelled t.token then some (r.put k { t with stage := .ending .cancelled [] })
    else if again then some (r.put k { t with stage := .ending (.failed e) [] })
    else some (r.put k { t with stage := .failing e true })
  | .ending outcome saved =>
    some { r.put k { t with stage := .removed outcome saved } with active := r.active.remove t.id }
  | .removed outcome saved =>
    some ((r.put k { t with stage := .ended outcome saved }).emit (.finished t.id outcome saved))
  | .handed | .ended _ _ => none

/-- The transfer's handle, where no call borrows it. -/
def owned (r : Registry) (k : ℕ) : Option Running :=
  r.transfers[k]?.filter fun t => t.stage = .handed ∧ t.adding = []

def step (r : Registry) : Act → Option Registry
  | .begin b =>
    some { r with
      tokens := r.tokens ++ [r.shutdown], opening := r.opening ++ [(b, r.tokens.length)] }
  | .register i =>
    r.opening[i]?.map fun (b, token) => { r with opening := r.opening.eraseIdx i }.register b token
  | .cancel id => some (r.cancel id).1
  | .cancelToken token => some (r.cancelToken token)
  | .addProgress k n =>
    (r.transfers[k]?.filter (·.stage = .handed)).map fun t =>
      if n = 0 then r else r.put k { t with adding := t.adding ++ [.counting n] }
  | .goOn k i now =>
    r.transfers[k]?.bind fun t => t.adding[i]?.map fun a =>
      let (rest, t', event) := t.add now a
      let r' := r.put k { t' with adding := rest.elim (t.adding.eraseIdx i) (t.adding.set i) }
      event.elim r' r'.emit
  | .finish k outcome saved =>
    (r.owned k).map fun t => r.put k { t with stage := .ending outcome saved }
  | .finishWith k result =>
    (r.owned k).map fun t => r.put k { t with stage := .ofResult result }
  | .drop k =>
    (r.owned k).map fun t =>
      (r.cancelToken t.token).put k { t with stage := .ending (.failed abandoned) [] }
  | .run k => r.transfers[k]?.bind fun t => r.runStage k t t.stage
  | .shutDown => some { r.cancelShutdown with halting := r.halting + 1 }
  | .cancelAll => if r.halting = 0 then none else some { r.cancelAll with halting := r.halting - 1 }

def about (r : Registry) (id : ℕ) : List Event := r.events.filter (·.transfer = id)

end Registry

def Running.IsProgress (t : Running) (e : Event) : Prop :=
  ∃ bytes ≤ t.begin.total, e = .progress t.id bytes t.begin.total

/-- It was announced, and its progress reported. -/
def Running.Announced (t : Running) (log : List Event) : Prop :=
  ∃ reports, log = .started (t.begin.view t.id) :: reports ∧ ∀ e ∈ reports, t.IsProgress e

/-- What was emitted about a transfer at each stage. -/
def Running.Story (t : Running) (log : List Event) : Stage → Prop
  | .registered => log = []
  | .handed | .failing _ _ | .ending _ _ | .removed _ _ => t.Announced log
  | .ended outcome saved =>
  ∃ before, t.Announced before ∧ log = before ++ [.finished t.id outcome saved]

/-- Between the registration of a transfer and its end. -/
def Stage.Registered : Stage → Prop
  | .registered | .handed | .failing _ _ | .ending _ _ => True
  | .removed _ _ | .ended _ _ => False

/-- Its handle is used up, and its end not yet reported. -/
def Stage.Ending : Stage → Prop
  | .failing _ _ | .ending _ _ | .removed _ _ => True
  | .registered | .handed | .ended _ _ => False

namespace Registry

variable {r r' : Registry} {a : Act} {k : ℕ} {t t' : Running}

/-- What is kept by the cancellation of a token is kept by that of all of them. -/
theorem cancelAll_of {P : Registry → Prop} (hP : ∀ r token, P r → P (r.cancelToken token))
    (h : P r) : P r.cancelAll :=
  List.foldlRecOn _ _ h fun _ hb token _ => hP _ token hb

theorem cancel_fst_of {P : Registry → Prop} (hP : ∀ r token, P r → P (r.cancelToken token))
    (h : P r) (id : ℕ) : P (r.cancel id).1 := by
  unfold cancel
  split
  · exact hP r _ h
  · exact h

theorem owned_eq_some (h : r.owned k = some t) :
    r.transfers[k]? = some t ∧ t.stage = .handed ∧ t.adding = [] := by
  obtain ⟨hk, hp⟩ := Option.filter_eq_some_iff.mp h
  obtain ⟨hstage, hadding⟩ := of_decide_eq_true hp
  exact ⟨hk, hstage, hadding⟩

/-- What a step can do to a transfer, and what it emits. -/
inductive Move (t : Running) : Running → List Event → Prop
  | announce (h : t.stage = .registered) :
    Move t { t with stage := .handed } [.started (t.begin.view t.id)]
  | addProgress (h : t.stage = .handed) (n : ℕ) :
    Move t { t with adding := t.adding ++ [.counting n] } []
  | goOn {i : ℕ} {a : Adding} (h : t.adding[i]? = some a) (now : ℕ) :
    Move t { (t.add now a).2.1 with
      adding := (t.add now a).1.elim (t.adding.eraseIdx i) (t.adding.set i) }
      (t.add now a).2.2.toList
  | finish (h : t.stage = .handed) (hadding : t.adding = []) {stage : Stage} (hend : stage.Ending)
    (hreg : stage.Registered) : Move t { t with stage } []
  -- `finish_with` looks at the token.
  | look {e : ErrorInfo} {again : Bool} (h : t.stage = .failing e again) {stage : Stage}
    (hend : stage.Ending)
    (hreg : stage.Registered) : Move t { t with stage } []
  | remove {outcome : Outcome} {saved : List Str} (h : t.stage = .ending outcome saved) :
    Move t { t with stage := .removed outcome saved } []
  | report {outcome : Outcome} {saved : List Str} (h : t.stage = .removed outcome saved) :
    Move t { t with stage := .ended outcome saved } [.finished t.id outcome saved]

/-- What a step can do: nothing to the transfers, register one, or move one on. -/
inductive Effect (r r' : Registry) : Prop
  | aside (next : r'.next = r.next) (active : r'.active = r.active)
  (transfers : r'.transfers = r.transfers)
    (events : r'.events = r.events)
  | register (b : Begin) (token : ℕ) (opening : (b, token) ∈ r.opening)
    (room : r.active.size < maxActiveTransfers) (next : r'.next = nextId r.next)
    (active : r'.active = r.active.set (nextId r.next) token)
    (transfers : r'.transfers = r.transfers ++ [{ id := nextId r.next, begin := b, token }])
    (events : r'.events = r.events)
  | move (k : ℕ) (t t' : Running) (es : List Event) (at_k : r.transfers[k]? = some t)
    (move : Move t t' es)
    (next : r'.next = r.next) (transfers : r'.transfers = r.transfers.set k t')
    (events : r'.events = r.events ++ es)
    (active : (r'.active = r.active ∧ (t'.stage.Registered ↔ t.stage.Registered)) ∨
      (r'.active = r.active.remove t.id ∧ ¬ t'.stage.Registered))

theorem Effect.put (hk : r.transfers[k]? = some t) {es : List Event} (hm : Move t t' es)
    (hreg : t'.stage.Registered ↔ t.stage.Registered) (events : r'.events = r.events ++ es)
    (next : r'.next = r.next) (active : r'.active = r.active)
    (transfers : r'.transfers = r.transfers.set k t') : Effect r r' :=
  .move k t t' es hk hm next transfers events (Or.inl ⟨active, hreg⟩)

/-- A token that is cancelled is nothing to the transfers. -/
def Aside (r r' : Registry) : Prop :=
  r'.next = r.next ∧ r'.active = r.active ∧ r'.transfers = r.transfers ∧ r'.events = r.events

theorem Aside.effect (h : Aside r r') : Effect r r' := .aside h.1 h.2.1 h.2.2.1 h.2.2.2

theorem Aside.cancelToken (r' : Registry) (token : ℕ) (h : Aside r r') :
    Aside r (r'.cancelToken token) := h

theorem effect_register (b : Begin) (token : ℕ) (h : (b, token) ∈ r.opening)
    (opening : List (Begin × ℕ)) : Effect r ({ r with opening }.register b token) := by
  unfold register
  split_ifs with hroom
  · exact .aside rfl rfl rfl rfl
  · exact .register b token h (Nat.lt_of_not_le hroom) rfl rfl rfl rfl

theorem effect_runStage (hk : r.transfers[k]? = some t) (h : r.runStage k t t.stage = some r') :
    Effect r r' := by
  generalize hstage : t.stage = stage at h
  cases stage with
  | registered =>
    obtain rfl := Option.some.inj h
    exact .put hk (.announce hstage) (by simp [hstage, Stage.Registered]) rfl rfl rfl rfl
  | failing e again =>
    unfold runStage at h
    dsimp only at h
    have hlook : ∀ stage : Stage, stage.Ending → stage.Registered →
        Effect r (r.put k { t with stage }) := by
      intro stage hend hreg
      refine .put hk (.look hstage hend hreg) (iff_of_true hreg ?_)
        (List.append_nil _).symm rfl rfl rfl
      rw [hstage]
      trivial
    split_ifs at h <;> obtain rfl := Option.some.inj h
    all_goals exact hlook _ trivial trivial
  | ending outcome saved =>
    obtain rfl := Option.some.inj h
    exact .move k t _ [] hk (.remove hstage) rfl rfl (List.append_nil _).symm (Or.inr ⟨rfl, id⟩)
  | removed outcome saved =>
    obtain rfl := Option.some.inj h
    exact .put hk (.report hstage) (by simp [hstage, Stage.Registered]) rfl rfl rfl rfl
  | handed => cases h
  | ended outcome saved => cases h

theorem effect_finish (hk : r.owned k = some t) (stage : Stage) (hend : stage.Ending)
    (hreg : stage.Registered) (tokens : List Bool) :
    Effect r ({ r with tokens }.put k { t with stage }) := by
  obtain ⟨hk, hstage, hadding⟩ := owned_eq_some hk
  refine .put hk (.finish hstage hadding hend hreg) (iff_of_true hreg ?_)
    (List.append_nil _).symm rfl rfl rfl
  rw [hstage]
  trivial

theorem stage_add (t : Running) (now : ℕ) (a : Adding) : (t.add now a).2.1.stage = t.stage := by
  cases a with
  | counting n => rfl
  | counted shown =>
    unfold Running.add
    dsimp only
    split <;> rfl
  | reporting shown => rfl

theorem effect_goOn (hk : r.transfers[k]? = some t) {i : ℕ} {x : Adding}
    (hi : t.adding[i]? = some x) (now : ℕ) : Effect r ((t.add now x).2.2.elim
      (r.put k { (t.add now x).2.1 with
        adding := (t.add now x).1.elim (t.adding.eraseIdx i) (t.adding.set i) })
      (r.put k { (t.add now x).2.1 with
        adding := (t.add now x).1.elim (t.adding.eraseIdx i) (t.adding.set i) }).emit) := by
  have hreg : (t.add now x).2.1.stage.Registered ↔ t.stage.Registered := by rw [stage_add]
  have hm := Move.goOn hi now
  cases hes : (t.add now x).2.2 with
  | none =>
    rw [hes] at hm
    exact .put hk hm hreg (List.append_nil _).symm rfl rfl rfl
  | some e =>
    rw [hes] at hm
    exact .put hk hm hreg rfl rfl rfl rfl

theorem effect_of_step (h : step r a = some r') : Effect r r' := by
  cases a with
  | begin b =>
    obtain rfl := Option.some.inj h
    exact .aside rfl rfl rfl rfl
  | register i =>
    obtain ⟨⟨b, token⟩, hb, rfl⟩ := Option.map_eq_some_iff.mp h
    exact effect_register b token (List.mem_of_getElem? hb) _
  | cancel id =>
    obtain rfl := Option.some.inj h
    exact (cancel_fst_of (P := Aside r) Aside.cancelToken ⟨rfl, rfl, rfl, rfl⟩ id).effect
  | cancelToken token =>
    obtain rfl := Option.some.inj h
    exact .aside rfl rfl rfl rfl
  | addProgress k n =>
    obtain ⟨t, ht, rfl⟩ := Option.map_eq_some_iff.mp h
    obtain ⟨hk, hstage⟩ := Option.filter_eq_some_iff.mp ht
    split_ifs
    · exact .aside rfl rfl rfl rfl
    · exact .put hk (.addProgress (of_decide_eq_true hstage) n) Iff.rfl
        (List.append_nil _).symm rfl rfl rfl
  | goOn k i now =>
    obtain ⟨t, hk, h⟩ := Option.bind_eq_some_iff.mp h
    obtain ⟨x, hi, rfl⟩ := Option.map_eq_some_iff.mp h
    exact effect_goOn hk hi now
  | finish k outcome saved =>
    obtain ⟨t, hk, rfl⟩ := Option.map_eq_some_iff.mp h
    exact effect_finish hk (.ending outcome saved) trivial trivial r.tokens
  | finishWith k result =>
    obtain ⟨t, hk, rfl⟩ := Option.map_eq_some_iff.mp h
    cases result with
    | ok saved => exact effect_finish hk (.ending .done saved) trivial trivial r.tokens
    | error e => exact effect_finish hk (.failing e _) trivial trivial r.tokens
  | drop k =>
    obtain ⟨t, hk, rfl⟩ := Option.map_eq_some_iff.mp h
    exact effect_finish hk (.ending (.failed abandoned) []) trivial trivial
      (r.tokens.set t.token true)
  | run k =>
    obtain ⟨t, hk, h⟩ := Option.bind_eq_some_iff.mp h
    exact effect_runStage hk h
  | shutDown =>
    obtain rfl := Option.some.inj h
    exact .aside rfl rfl rfl rfl
  | cancelAll =>
    unfold step at h
    split_ifs at h
    obtain rfl := Option.some.inj h
    have hside : Aside r r.cancelAll := cancelAll_of Aside.cancelToken ⟨rfl, rfl, rfl, rfl⟩
    exact .aside hside.1 hside.2.1 hside.2.2.1 hside.2.2.2

end Registry

end Sukkula.Transfer
