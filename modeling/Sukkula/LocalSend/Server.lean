import Mathlib.Data.Char
import Mathlib.Data.List.Lex
import Mathlib.Data.List.Sort
import Mathlib.Logic.Function.Basic
import Sukkula.LocalSend.Session
import Sukkula.Offer.Validate

/-! # The server and its slot

One LocalSend server: the requests on its connections, the slot they compete
for and the sessions that come out of it. A request is a task of its own, and
its steps are the parts of the source between two awaits, cut again where the
slot lock is taken. Whoever frees the slot still holds the lock while it looks
at the two flags and closes the server, so these are steps too, and nobody
else gets at the slot in between.
-/

namespace Sukkula.LocalSend

open Str Offer

structure FileDto where
  fileName : Str
  size : ℤ
  fileType : Str
  sha256 : Option Str
  preview : Option Str
  deriving DecidableEq, Repr

/-- The body of a `prepare-upload` request. -/
structure PrepareUpload where
  senderAlias : Str
  deviceModel : Option Str
  https : Bool
  files : List (Str × FileDto)
  keys : (files.map Prod.fst).Nodup

/-- The one file of a request that is a message. -/
def loneText (dto : PrepareUpload) : Option Str :=
  match dto.files with
  | [(_, only)] =>
    if "text/plain".toList <+: (trim only.fileType).map Char.toLower then only.preview else none
  | _ => none

/-- The offer as the peer described it, and the file ids in the same order. -/
def rawOffer (dto : PrepareUpload) : RawOffer × List Str :=
  let raw : RawOffer :=
    { protocol := .localSend, sender := dto.senderAlias, model := dto.deviceModel }
  match loneText dto with
  | some text => ({ raw with text := some text }, [])
  | none =>
    let entries := dto.files.insertionSort fun a b => a.1 ≤ b.1
    ({ raw with
        files := entries.map fun e => ⟨e.2.fileName, e.2.size, some e.2.fileType, e.2.sha256⟩ },
     entries.map Prod.fst)

/-- The table of a session, with a token drawn for each file, and the session's id. -/
def issue : List (Str × OfferFile) → List Str → Option (List (Str × SessionFile) × Str)
  | [], draws => draws.head?.map ([], ·)
  | _ :: _, [] => none
  | (id, file) :: l, token :: draws =>
    (issue l draws).map fun (table, sessionId) =>
    ((id, ⟨file, token, .pending⟩) :: table, sessionId)

/-- An answer to a request; one that accepts has the session's id and the tokens. -/
structure Reply where
  status : Status
  body : Option (Str × List (Str × Str)) := none
  deriving DecidableEq, Repr

inductive Declined | invalid | busy | refused | noSpace
  deriving DecidableEq, Repr

def declinedStatus : Declined → Status
  | .invalid => .badRequest
  | .busy => .conflict
  | .refused => .forbidden
  | .noSpace => .insufficientStorage

/-- Where a `prepare-upload` request is; `guard` is the id of its `PendingGuard`. -/
inductive Prep
  | idle
  -- Past the look at `accepting`, reading the body.
  | reading (caller : Party)
  | asking (caller : Party) (guard : ℕ) (dto : PrepareUpload)
  | accepted (caller : Party) (guard : ℕ) (table : List (Str × SessionFile)) (sessionId : Str)
  -- About to drop its guard; answered unless the connection is gone.
  | leaving (guard : ℕ) (reply : Option Reply)
  | replied (reply : Reply)
  | gone

/-- Where an `upload` request is. -/
inductive Upl
  | idle
  | sending (query : UploadQuery) (session : ℕ)
  | waiting
  | replied (status : Status)
  | gone
  deriving DecidableEq

/-- The single session slot. `request` stands for the token or queue that is shared with it. -/
inductive Slot
  | free
  | pending (id : ℕ) (sender : Party) (request : ℕ)
  | active (sessionId : Str) (sender : Party) (request : ℕ)
  deriving DecidableEq

/-- What the one that freed the slot has yet to do under the lock. -/
inductive Freeing | loadAccepting | loadDiscovering | cancel
  deriving DecidableEq, Repr

/-- What the user accepted: who asked, and each id with its file. -/
structure Acceptance where
  sender : Party
  files : List (Str × OfferFile)

/-- Requests and the sessions made from them share their numbers. -/
structure Server where
  accepting : Bool
  closing : Bool
  slot : Slot
  freeing : Option Freeing
  nextPending : ℕ
  -- `drain` is between its two parts; whether it found the slot free.
  draining : Option Bool
  prep : ℕ → Prep
  cancels : ℕ → Bool
  upl : ℕ → Upl
  session : ℕ → Option Session
  accepted : ℕ → Option Acceptance

namespace Server

def new (accepting : Bool) : Server :=
  ⟨accepting, false, .free, none, 0, none, fun _ => .idle, fun _ => false, fun _ => .idle,
    fun _ => none, fun _ => none⟩

def setPrep (s : Server) (t : ℕ) (p : Prep) : Server :=
  { s with prep := Function.update s.prep t p }

def setUpl (s : Server) (t : ℕ) (u : Upl) : Server :=
  { s with upl := Function.update s.upl t u }

def setSession (s : Server) (t : ℕ) (x : Session) : Server :=
  { s with session := Function.update s.session t (some x) }

/-- The cancel token of a pending offer is a child of `closing`. -/
def isCancelled (s : Server) (t : ℕ) : Bool := s.cancels t || s.closing

/-- `prepare_upload` up to the await of the body. -/
def prepare (s : Server) (t : ℕ) (caller : Party) : Option Server :=
  match s.prep t with
  | .idle =>
    some (s.setPrep t (if s.accepting then .reading caller else .replied ⟨.forbidden, none⟩))
  | _ => none

/-- Too many requests, a PIN that is missing or wrong, a body that cannot be read. -/
def refuse (s : Server) (t : ℕ) (status : Status) : Option Server :=
  match s.prep t with
  | .reading _ => some (s.setPrep t (.replied ⟨status, none⟩))
  | _ => none

/-- The body is there: `PendingGuard::claim`. -/
def claim (s : Server) (t : ℕ) (dto : PrepareUpload) : Option Server :=
  match s.prep t with
  | .reading caller =>
    if !dto.https then some (s.setPrep t (.replied ⟨.forbidden, none⟩))
    else if dto.files.isEmpty then some (s.setPrep t (.replied ⟨.badRequest, none⟩))
    else if s.freeing ≠ none then none
    else if s.slot = Slot.free then
      some { s.setPrep t (.asking caller s.nextPending dto) with
        slot := .pending s.nextPending caller t
        nextPending := (s.nextPending + 1) % 2 ^ 64 }
    else some (s.setPrep t (.replied ⟨.conflict, none⟩))
  | _ => none

/-- The offer was cancelled while it waited for the user. -/
def seeCancelled (s : Server) (t : ℕ) : Option Server :=
  match s.prep t with
  | .asking _ guard _ =>
    if s.isCancelled t then some (s.setPrep t (.leaving guard (some ⟨.forbidden, none⟩))) else none
  | _ => none

def decline (s : Server) (t : ℕ) (why : Declined) : Option Server :=
  match s.prep t with
  | .asking _ guard _ => some (s.setPrep t (.leaving guard (some ⟨declinedStatus why, none⟩)))
  | _ => none

/-- The user accepts; `draws` are the random tokens as they come. -/
def accept (s : Server) (t : ℕ) (draws : List Str) : Option Server :=
  match s.prep t with
  | .asking caller guard dto =>
    match validate (rawOffer dto).1 with
    | .error _ => none
    | .ok offer =>
      let pairs := (rawOffer dto).2.zip offer.files
      let s := { s with accepted := Function.update s.accepted t (some ⟨caller, pairs⟩) }
      if offer.files.isEmpty then some (s.setPrep t (.leaving guard (some ⟨.noContent, none⟩)))
      else
        match issue pairs draws with
        | none => some (s.setPrep t (.leaving guard (some ⟨.internalServerError, none⟩)))
        | some (table, sessionId) => some (s.setPrep t (.accepted caller guard table sessionId))
  | _ => none

/-- `PendingGuard::activate`, and the session's task. -/
def activate (s : Server) (t : ℕ) : Option Server :=
  match s.prep t with
  | .accepted caller guard table sessionId =>
    if s.freeing ≠ none then none
    else
      match s.slot with
      | .pending id _ _ =>
        if id = guard ∧ s.isCancelled t = false then
          let tokens := table.map fun e => (e.1, e.2.token)
          some { s.setPrep t (.replied ⟨.ok, some (sessionId, tokens)⟩) with
            slot := .active sessionId caller t
            session := Function.update s.session t (some (.new sessionId caller table)) }
        else some (s.setPrep t (.leaving guard (some ⟨.forbidden, none⟩)))
      | _ => some (s.setPrep t (.leaving guard (some ⟨.forbidden, none⟩)))
  | _ => none

def afterReply : Option Reply → Prep
  | some reply => .replied reply
  | none => .gone

/-- The drop of a `PendingGuard` that is still armed. -/
def dropGuard (s : Server) (t : ℕ) : Option Server :=
  match s.prep t with
  | .leaving guard reply =>
    if s.freeing ≠ none then none
    else
      match s.slot with
      | .pending id _ _ =>
        if id = guard then
          some { s.setPrep t (afterReply reply) with slot := .free, freeing := some .loadAccepting }
        else some (s.setPrep t (afterReply reply))
      | _ => some (s.setPrep t (afterReply reply))
  | _ => none

/-- The connection ends while the handler awaits. -/
def abort (s : Server) (t : ℕ) : Option Server :=
  match s.prep t with
  | .reading _ => some (s.setPrep t .gone)
  | .asking _ guard _ => some (s.setPrep t (.leaving guard none))
  | _ => none

/-- `upload` up to the queue; `none` when a parameter is missing. -/
def upload (s : Server) (t : ℕ) (query : Option UploadQuery) : Option Server :=
  match s.upl t, query with
  | .idle, none => some (s.setUpl t (.replied .badRequest))
  | .idle, some q =>
    if s.freeing ≠ none then none
    else
      match s.slot with
      | .active sessionId sender i =>
        if sender = q.caller ∧ sessionId = q.sessionId then some (s.setUpl t (.sending q i))
        else some (s.setUpl t (.replied .forbidden))
      | _ => some (s.setUpl t (.replied .forbidden))
  | _, _ => none

/-- `try_send` to the queue of the session. -/
def enqueue (s : Server) (t : ℕ) : Option Server :=
  match s.upl t with
  | .sending q i =>
    (s.session i).map fun x =>
      if x.closed ∨ Session.uploadQueue ≤ x.queue.length then
        s.setUpl t (.replied .serviceUnavailable)
      else (s.setUpl t .waiting).setSession i { x with queue := x.queue ++ [⟨q, t⟩] }
  | _ => none

/-- The connection of an upload ends; the request may be in the queue. -/
def abortUpload (s : Server) (t : ℕ) : Option Server :=
  match s.upl t with
  | .sending .. | .waiting => some (s.setUpl t .gone)
  | _ => none

/-- A `cancel` request. -/
def cancelRequest (s : Server) (caller : Party) (sessionId : Option Str) : Option Server :=
  if s.freeing ≠ none then none
  else
    match s.slot with
    | .pending _ sender t =>
      some (if sender = caller then { s with cancels := Function.update s.cancels t true } else s)
    | .active id sender i =>
      if sender = caller ∧ sessionId = some id then
        (s.session i).map fun x => s.setSession i { x with senderCancel := true }
      else some s
    | .free => some s

/-- The answers a session sends go to the requests that still wait. -/
def answerUploads (s : Server) (answers : List (ℕ × Status)) : Server :=
  { s with upl := fun t =>
      match s.upl t, answers.lookup t with
      | .waiting, some status => .replied status
      | u, _ => u }

def sessionStep (s : Server) (i : ℕ) (a : Session.Act) : Option Server :=
  match s.session i with
  | some x => (x.step a).map fun (x', answers) => (s.setSession i x').answerUploads answers
  | none => none

def cancelTransfer (s : Server) (i : ℕ) : Option Server :=
  (s.session i).map fun x => s.setSession i { x with transferCancel := true }

def release (s : Server) (i : ℕ) : Option Server :=
  match s.session i with
  | some x =>
    if x.phase ≠ .releasing ∨ s.freeing ≠ none then none
    else
      let s := s.setSession i { x with phase := .released }
      match s.slot with
      | .active id _ _ =>
        if id = x.id then some { s with slot := .free, freeing := some .loadAccepting } else some s
      | _ => some s
  | none => none

/-- `unwanted`, and `closing.cancel` after it; `discovering` is what the second load finds. -/
def free (s : Server) (discovering : Bool) : Option Server :=
  match s.freeing with
  | some .loadAccepting =>
    some { s with freeing := if s.accepting then none else some .loadDiscovering }
  | some .loadDiscovering => some { s with freeing := if discovering then none else some .cancel }
  | some .cancel => some { s with freeing := none, closing := true }
  | none => none

/-- The part of `drain` under the lock. -/
def drain (s : Server) : Option Server :=
  if s.freeing ≠ none ∨ s.draining ≠ none then none
  else
    some { s with
      accepting := false
      cancels := match s.slot with
        | .pending _ _ t => Function.update s.cancels t true
        | _ => s.cancels
      draining := some (decide (s.slot = Slot.free)) }

/-- The end of `drain`. -/
def drained (s : Server) (discovering : Bool) : Option Server :=
  match s.draining with
  | some idle => some { s with draining := none, closing := s.closing || (idle && !discovering) }
  | none => none

/-- `resume`; it returns whether the server is not closing. -/
def resume (s : Server) : Option (Server × Bool) :=
  if s.freeing ≠ none ∨ s.draining ≠ none then none
  else if s.closing then some (s, false)
  else some ({ s with accepting := true }, true)

inductive Act
  | prepare (t : ℕ) (caller : Party)
  | refuse (t : ℕ) (status : Status)
  | claim (t : ℕ) (dto : PrepareUpload)
  | seeCancelled (t : ℕ)
  | decline (t : ℕ) (why : Declined)
  | accept (t : ℕ) (draws : List Str)
  | activate (t : ℕ)
  | dropGuard (t : ℕ)
  | abort (t : ℕ)
  | upload (t : ℕ) (query : Option UploadQuery)
  | enqueue (t : ℕ)
  | abortUpload (t : ℕ)
  | cancelRequest (caller : Party) (sessionId : Option Str)
  | session (i : ℕ) (a : Session.Act)
  | cancelTransfer (i : ℕ)
  | release (i : ℕ)
  | free (discovering : Bool)
  | drain
  | drained (discovering : Bool)
  | resume

def step (s : Server) : Act → Option Server
  | .prepare t caller => s.prepare t caller
  | .refuse t status => s.refuse t status
  | .claim t dto => s.claim t dto
  | .seeCancelled t => s.seeCancelled t
  | .decline t why => s.decline t why
  | .accept t draws => s.accept t draws
  | .activate t => s.activate t
  | .dropGuard t => s.dropGuard t
  | .abort t => s.abort t
  | .upload t query => s.upload t query
  | .enqueue t => s.enqueue t
  | .abortUpload t => s.abortUpload t
  | .cancelRequest caller sessionId => s.cancelRequest caller sessionId
  | .session i a => s.sessionStep i a
  | .cancelTransfer i => s.cancelTransfer i
  | .release i => s.release i
  | .free discovering => s.free discovering
  | .drain => s.drain
  | .drained discovering => s.drained discovering
  | .resume => s.resume.map Prod.fst

end Server

end Sukkula.LocalSend
