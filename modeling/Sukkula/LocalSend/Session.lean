import Sukkula.Library.Assoc
import Sukkula.Offer.Files

/-! # A session

One accepted offer whose files are arriving. The task of a session takes upload
requests from its queue, one at a time, and streams each into the inbox. It
goes through the source's `Session::run`, with a step for each await and for
each part between two of them. What it commits is also written down, for the
statements.
-/

namespace Sukkula.LocalSend

open Str Name Offer

inductive IpAddr
  | v4 (bits : BitVec 32)
  | v6 (bits : BitVec 128)
  deriving DecidableEq, Repr

/-- Who made a request: its address and the certificate it proved. -/
structure Party where
  ip : IpAddr
  fingerprint : Str
  deriving DecidableEq, Repr

inductive ErrorCode
  | badCommand | badVersion | unavailable | notFound | badSettings | badFile | tooLarge | refused
  | peerMismatch | badCode | network | storage | internal
  deriving DecidableEq, Repr

structure ErrorInfo where
  code : ErrorCode
  message : String
  deriving DecidableEq, Repr

def cancelled : ErrorInfo := ⟨.refused, "cancelled"⟩

inductive Status
  | ok | noContent | badRequest | unauthorized | forbidden | requestTimeout | conflict
  | payloadTooLarge | tooManyRequests | internalServerError | serviceUnavailable
  | insufficientStorage
  deriving DecidableEq, Repr

def errorStatus (e : ErrorInfo) : Status :=
  match e.code with
  | .tooLarge => .payloadTooLarge
  | .storage | .internal => .internalServerError
  | .refused => .forbidden
  | _ => .badRequest

inductive FileState | pending | done | failed
  deriving DecidableEq, Repr

structure SessionFile where
  file : OfferFile
  token : Str
  state : FileState
  deriving DecidableEq

/-- What an upload request carries, and who made it. -/
structure UploadQuery where
  caller : Party
  sessionId : Str
  fileId : Str
  token : Str
  deriving DecidableEq, Repr

/-- An upload request in the queue, with the task that waits for the answer. -/
structure Upload where
  query : UploadQuery
  reply : ℕ
  deriving DecidableEq, Repr

inductive Outcome
  | done
  | cancelled
  | failed (error : ErrorInfo)
  deriving DecidableEq, Repr

inductive Phase
  | waiting
  -- In `receive_file`; whether the inbox has begun the file.
  | receiving (upload : Upload) (begun : Bool)
  -- `receive_file` failed; whether the transfer was cancelled here.
  | failing (upload : Upload) (error : ErrorInfo) (here : Bool)
  | ending
  -- The queue is closed and empty; the slot is to be freed.
  | releasing
  | released
  | finished (outcome : Outcome) (saved : List Str)
  deriving DecidableEq, Repr

/-- A file that was committed, and the name it got. -/
structure Commit where
  id : Str
  file : OfferFile
  name : Str
  deriving DecidableEq

structure Session where
  id : Str
  sender : Party
  files : List (Str × SessionFile)
  queue : List Upload
  senderCancel : Bool
  transferCancel : Bool
  phase : Phase
  saved : List Str
  failure : Option ErrorInfo
  ended : Option ErrorInfo
  bySender : Bool
  commits : List Commit
  deriving DecidableEq

namespace Session

def new (id : Str) (sender : Party) (files : List (Str × SessionFile)) : Session :=
  ⟨id, sender, files, [], false, false, .waiting, [], none, none, false, []⟩

def uploadQueue : ℕ := 8

def Awaits (s : Session) : Prop := ∃ e ∈ s.files, e.2.state = .pending

instance (s : Session) : Decidable s.Awaits := inferInstanceAs (Decidable (∃ e ∈ s.files, _))

def setState (s : Session) (id : Str) (state : FileState) : Session :=
  { s with
    files := s.files.map fun e => if e.1 = id then (e.1, { e.2 with state := state }) else e }

def closed (s : Session) : Bool :=
  match s.phase with
  | .releasing | .released | .finished .. => true
  | _ => false

def outcome (s : Session) : Outcome :=
  match s.ended, s.failure with
  | some e, _ => if s.transferCancel || s.bySender then .cancelled else .failed e
  | none, some e => .failed e
  | none, none => .done

/-- What the task of a session, or what it waits for, does next. -/
inductive Act
  | loopEnd
  | seeCancel
  | seeSenderCancel
  | stop (error : ErrorInfo)
  | recv
  | begin
  | commit (name : Str)
  | fail (error : ErrorInfo)
  | failed
  | close
  | finish
  deriving DecidableEq, Repr

/-- A step, with the requests that are answered in it. The loop looks at the cancel tokens
first, but they may be cancelled between that and the rest of the poll. -/
def step (s : Session) : Act → Option (Session × List (ℕ × Status))
  | .loopEnd =>
    if s.phase = .waiting ∧ ¬ s.Awaits then some ({ s with phase := .ending }, []) else none
  | .seeCancel =>
    if s.phase = .waiting ∧ s.Awaits ∧ s.transferCancel then
      some ({ s with ended := some cancelled, phase := .ending }, [])
    else none
  | .seeSenderCancel =>
    if s.phase = .waiting ∧ s.Awaits ∧ s.senderCancel then
      some ({ s with bySender := true, ended := some cancelled, phase := .ending }, [])
    else none
  | .stop e =>
    if s.phase = .waiting ∧ s.Awaits then some ({ s with ended := some e, phase := .ending }, [])
    else none
  | .recv =>
    match s.queue with
    | [] => none
    | u :: queue =>
      if s.phase = .waiting ∧ s.Awaits then
        match s.files.lookup u.query.fileId with
        | some entry =>
          if entry.state = .pending ∧ entry.token = u.query.token then
            some ({ s with queue := queue, phase := .receiving u false }, [])
          else some ({ s with queue := queue }, [(u.reply, .forbidden)])
        | none => some ({ s with queue := queue }, [(u.reply, .forbidden)])
      else none
  | .begin =>
    match s.phase with
    | .receiving u false => some ({ s with phase := .receiving u true }, [])
    | _ => none
  | .commit name =>
    match s.phase with
    | .receiving u true =>
      (s.files.lookup u.query.fileId).map fun entry =>
        ({ s.setState u.query.fileId .done with
            phase := .waiting
            saved := s.saved ++ [name]
            commits := s.commits ++ [⟨u.query.fileId, entry.file, name⟩] }, [(u.reply, .ok)])
    | _ => none
  | .fail e =>
    match s.phase with
    | .receiving u _ =>
      some ({ s.setState u.query.fileId .failed with
        phase := .failing u e s.transferCancel }, [])
    | _ => none
  | .failed =>
    match s.phase with
    | .failing u e here =>
      some (if here || s.senderCancel then
          { s with bySender := !here, ended := some e, phase := .ending }
        else { s with failure := s.failure.or (some e), phase := .waiting },
        [(u.reply, errorStatus e)])
    | _ => none
  | .close =>
    if s.phase = .ending then
      some ({ s with queue := [], phase := .releasing }, s.queue.map fun u => (u.reply, .forbidden))
    else none
  | .finish =>
    if s.phase = .released then some ({ s with phase := .finished s.outcome s.saved }, []) else none

end Session

end Sukkula.LocalSend
